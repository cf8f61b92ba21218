import Sisop.Pipe

/-! The positions of a pipe count all bytes that have ever gone through it. They are signed,
and the test for a full pipe is not. -/
namespace Sisop

/-- What should hold of the positions after `es`, whatever their size. -/
structure PositionsOk (es : List PipeEvent) (s : PipeSys) : Prop where
  take : ∀ n buf, s.reader = .take n buf → 0 ≤ bufIndex s.pipe.pRpos ∧ bufIndex s.pipe.pRpos < pipebufsiz
  store : ∀ buf i, s.writer = .store buf i → 0 ≤ bufIndex s.pipe.pWpos ∧ bufIndex s.pipe.pWpos < pipebufsiz
  empty : s.pipe.isEmpty ↔ puts es - gots es = 0
  full : s.pipe.isFull ↔ puts es - gots es = pipebufsiz
  -- a side that looks at the positions goes on when there is a byte, or room for one
  reads : gots es < puts es → ∀ n buf, s.reader = .empty n buf → s.readerStep = some (.tau, { s with reader := .take n buf })
  writes : puts es < gots es + pipebufsiz → ∀ buf i, s.writer = .full buf i →
    s.writerStep = some (.tau, { s with writer := .store buf i })

/-- The writer takes up the byte for the position after `2^31`. -/
def HighByte (s s' : PipeSys) : Prop :=
  ∃ buf i, s.writer = .full buf i ∧ s'.writer = .store buf i ∧ s.pipe.pWpos = 0x80000001#32

def LowStep (s : PipeSys) (e : PipeEvent) (s' : PipeSys) : Prop := PipeStep s e s' ∧ ¬ HighByte s s'

/-- The byte at hand is in the pipe, or there is room for it, when `g` bytes have gone out of the pipe and `w` into it. -/
def ReadPc.Sees (g w : ℕ) : ReadPc → Prop
  | .take .. | .advance .. => g < w
  | _ => True

def WritePc.Sees (g w : ℕ) : WritePc → Prop
  | .store .. | .advance .. => w < g + 32 ∧ w ≤ 2^31
  | _ => True

/-- The positions are the numbers of bytes. -/
structure PositionsInv (es : List PipeEvent) (s : PipeSys) : Prop where
  rpos : s.pipe.pRpos = BitVec.ofNat 32 (gots es)
  wpos : s.pipe.pWpos = BitVec.ofNat 32 (puts es)
  le : gots es ≤ puts es
  cap : puts es ≤ gots es + 32
  low : puts es ≤ 2^31 + 1
  reader : s.reader.Sees (gots es) (puts es)
  writer : s.writer.Sees (gots es) (puts es)

section Positions

variable {s s' s₀ : PipeSys} {es : List PipeEvent} {e : PipeEvent} {g w : ℕ}

theorem bufIndex_low (h : g ≤ 2^31) : bufIndex (BitVec.ofNat 32 g) = ((g % 32 : ℕ) : ℤ) := by
  rcases Nat.lt_or_eq_of_le h with hlt | rfl
  · exact bufIndex_ofNat hlt
  · decide

theorem PositionsInv.isEmpty_iff (h : PositionsInv es s) : s.pipe.isEmpty ↔ gots es = puts es := by
  have hle := h.le
  have hlow := h.low
  rw [Pipe.isEmpty, h.rpos, h.wpos]
  constructor
  · intro heq
    have hnat := congrArg BitVec.toNat heq
    rw [BitVec.toNat_ofNat, BitVec.toNat_ofNat] at hnat
    omega
  · intro heq
    rw [heq]

/-- The sum in the test for a full pipe does not wrap around yet. -/
theorem PositionsInv.isFull_iff (h : PositionsInv es s) : s.pipe.isFull ↔ gots es + 32 ≤ puts es := by
  have hle := h.le
  have hlow := h.low
  rw [Pipe.isFull, h.rpos, h.wpos, BitVec.le_def, BitVec.toNat_add, BitVec.toNat_ofNat, BitVec.toNat_ofNat, BitVec.toNat_ofNat]
  omega

theorem PositionsInv.ok (h : PositionsInv es s) : PositionsOk es s := by
  have hle := h.le
  have hcap := h.cap
  have hlow := h.low
  have hempty := h.isEmpty_iff
  have hfull := h.isFull_iff
  constructor
  · intro n buf hread
    have hlt := h.reader
    rw [hread] at hlt
    change gots es < puts es at hlt
    rw [h.rpos, bufIndex_low (by omega)]
    exact ⟨Int.natCast_nonneg _, Int.ofNat_lt.mpr (Nat.mod_lt _ (by decide))⟩
  · intro buf i hwrite
    have hlt := h.writer
    rw [hwrite] at hlt
    rw [h.wpos, bufIndex_low hlt.2]
    exact ⟨Int.natCast_nonneg _, Int.ofNat_lt.mpr (Nat.mod_lt _ (by decide))⟩
  · rw [hempty]
    omega
  · rw [hfull]
    change _ ↔ _ = 32
    omega
  · intro hlt n buf hread
    unfold PipeSys.readerStep
    rw [hread]
    dsimp only
    rw [if_neg (by rw [hempty]; omega)]
  · intro hlt buf i hwrite
    change puts es < gots es + 32 at hlt
    unfold PipeSys.writerStep
    rw [hwrite]
    dsimp only
    rw [if_neg (by rw [hfull]; omega)]

/-- What a step does to the positions and to what the two sides have seen. -/
inductive Moves (s : PipeSys) : PipeEvent → PipeSys → Prop where
  | other {e : PipeEvent} {s' : PipeSys} (hputs : puts [e] = 0) (hgots : gots [e] = 0) (hr : s'.pipe.pRpos = s.pipe.pRpos)
      (hw : s'.pipe.pWpos = s.pipe.pWpos)
      (reader : s'.reader = s.reader ∨ (∀ g w, s'.reader.Sees g w) ∨ (∃ n buf, s.reader = .take n buf) ∨ ¬ s.pipe.isEmpty)
      (writer : s'.writer = s.writer ∨ (∀ g w, s'.writer.Sees g w) ∨ (∃ buf i, s.writer = .store buf i) ∨
        ¬ s.pipe.isFull ∧ ∃ buf i, s.writer = .full buf i ∧ s'.writer = .store buf i) : Moves s e s'
  | got {n : ℕ} {buf : List (BitVec 8)} {s' : PipeSys} (h : s.reader = .advance n buf) (hr : s'.pipe.pRpos = s.pipe.pRpos + 1#32)
      (hw : s'.pipe.pWpos = s.pipe.pWpos) (reader : s'.reader = .loop n buf) (writer : s'.writer = s.writer) : Moves s .got s'
  | put {buf : List (BitVec 8)} {i : ℕ} {s' : PipeSys} (h : s.writer = .advance buf i) (hr : s'.pipe.pRpos = s.pipe.pRpos)
      (hw : s'.pipe.pWpos = s.pipe.pWpos + 1#32) (reader : s'.reader = s.reader) (writer : s'.writer = .loop buf (i + 1)) :
    Moves s .put s'

theorem PipeStep.moves (h : PipeStep s e s') : Moves s e s' := by
  cases h with
  | read n hread hfd => exact .other rfl rfl rfl rfl (.inr (.inl fun _ _ => trivial)) (.inl rfl)
  | closeRead hread hfd => exact .other rfl rfl rfl rfl (.inr (.inl fun _ _ => trivial)) (.inl rfl)
  | write buf hwrite hfd => exact .other rfl rfl rfl rfl (.inl rfl) (.inr (.inl fun _ _ => trivial))
  | closeWrite hwrite hfd => exact .other rfl rfl rfl rfl (.inl rfl) (.inr (.inl fun _ _ => trivial))
  | reader hs =>
    unfold PipeSys.readerStep at hs
    cases hread : s.reader with
    | out =>
      rw [hread] at hs
      cases hs
    | loop n buf =>
      rw [hread] at hs
      dsimp only at hs
      split at hs <;> cases hs
      all_goals exact .other rfl rfl rfl rfl (.inr (.inl fun _ _ => trivial)) (.inl rfl)
    | empty n buf =>
      rw [hread] at hs
      dsimp only at hs
      split at hs
      · split at hs <;> cases hs
        all_goals exact .other rfl rfl rfl rfl (.inr (.inl fun _ _ => trivial)) (.inl rfl)
      · next hne =>
        cases hs
        exact .other rfl rfl rfl rfl (.inr (.inr (.inr hne))) (.inl rfl)
    | closed n buf =>
      rw [hread] at hs
      dsimp only at hs
      split at hs <;> cases hs
      all_goals exact .other rfl rfl rfl rfl (.inr (.inl fun _ _ => trivial)) (.inl rfl)
    | take n buf =>
      rw [hread] at hs
      cases hs
      exact .other rfl rfl rfl rfl (.inr (.inr (.inl ⟨n, buf, hread⟩))) (.inl rfl)
    | advance n buf =>
      rw [hread] at hs
      cases hs
      exact .got hread rfl rfl rfl rfl
    | unmap =>
      rw [hread] at hs
      cases hs
      exact .other rfl rfl rfl rfl (.inr (.inl fun _ _ => trivial)) (.inl rfl)
  | writer hs =>
    unfold PipeSys.writerStep at hs
    cases hwrite : s.writer with
    | out =>
      rw [hwrite] at hs
      cases hs
    | loop buf i =>
      rw [hwrite] at hs
      dsimp only at hs
      split at hs <;> cases hs
      all_goals exact .other rfl rfl rfl rfl (.inl rfl) (.inr (.inl fun _ _ => trivial))
    | full buf i =>
      rw [hwrite] at hs
      dsimp only at hs
      split at hs
      · cases hs
        exact .other rfl rfl rfl rfl (.inl rfl) (.inr (.inl fun _ _ => trivial))
      · next hroom =>
        cases hs
        exact .other rfl rfl rfl rfl (.inl rfl) (.inr (.inr (.inr ⟨hroom, buf, i, hwrite, rfl⟩)))
    | closed buf i =>
      rw [hwrite] at hs
      dsimp only at hs
      split at hs <;> cases hs
      all_goals exact .other rfl rfl rfl rfl (.inl rfl) (.inr (.inl fun _ _ => trivial))
    | store buf i =>
      rw [hwrite] at hs
      cases hs
      exact .other rfl rfl rfl rfl (.inl rfl) (.inr (.inr (.inl ⟨buf, i, hwrite⟩)))
    | advance buf i =>
      rw [hwrite] at hs
      cases hs
      exact .put hwrite rfl rfl rfl rfl
    | unmap =>
      rw [hwrite] at hs
      cases hs
      exact .other rfl rfl rfl rfl (.inl rfl) (.inr (.inl fun _ _ => trivial))

theorem ReadPc.sees_of_lt (r : ReadPc) (h : g < w) : r.Sees g w := by
  cases r with
  | take | advance => exact h
  | out | loop | empty | closed | unmap => trivial

theorem WritePc.sees_of_room (r : WritePc) (h : w < g + 32 ∧ w ≤ 2^31) : r.Sees g w := by
  cases r with
  | store | advance => exact h
  | out | loop | full | closed | unmap => trivial

/-- The other side only adds bytes, or only takes some out. -/
theorem ReadPc.Sees.more {r : ReadPc} (h : r.Sees g w) : r.Sees g (w + 1) := by
  cases r with
  | take | advance => exact Nat.lt_succ_of_lt h
  | out | loop | empty | closed | unmap => trivial

theorem WritePc.Sees.more {r : WritePc} (h : r.Sees g w) : r.Sees (g + 1) w := by
  cases r with
  | store | advance => exact ⟨Nat.lt_trans h.1 (Nat.lt_succ_self _), h.2⟩
  | out | loop | full | closed | unmap => trivial

theorem PositionsInv.step (h : PositionsInv es s) (hs : PipeStep s e s') (hlow : ¬ HighByte s s') :
    PositionsInv (es ++ [e]) s' := by
  have hempty := h.isEmpty_iff
  have hfull := h.isFull_iff
  obtain ⟨hrpos, hwpos, hle, hcap, hlt, hreader, hwriter⟩ := h
  cases hs.moves with
  | other hputs hgots hr hw reader writer =>
    have hp : puts (es ++ [e]) = puts es := by rw [puts_snoc, hputs, Nat.add_zero]
    have hg : gots (es ++ [e]) = gots es := by rw [gots_snoc, hgots, Nat.add_zero]
    constructor
    case rpos => rw [hr, hrpos, hg]
    case wpos => rw [hw, hwpos, hp]
    case le => rwa [hg, hp]
    case cap => rwa [hg, hp]
    case low => rwa [hp]
    case reader =>
      rw [hg, hp]
      obtain heq | hany | ⟨n, buf, htake⟩ | hne := reader
      · rwa [heq]
      · exact hany _ _
      · rw [htake] at hreader
        exact s'.reader.sees_of_lt hreader
      · have hne' : gots es ≠ puts es := fun heq => hne (hempty.mpr heq)
        exact s'.reader.sees_of_lt (by omega)
    case writer =>
      rw [hg, hp]
      obtain heq | hany | ⟨buf, i, hstore⟩ | ⟨hroom, buf, i, hfrom, hto⟩ := writer
      · rwa [heq]
      · exact hany _ _
      · rw [hstore] at hwriter
        exact s'.writer.sees_of_room hwriter
      · have hroom' : ¬ gots es + 32 ≤ puts es := fun hge => hroom (hfull.mpr hge)
        have hne : puts es ≠ 2^31 + 1 := by
          intro heq
          apply hlow
          refine ⟨buf, i, hfrom, hto, ?_⟩
          rw [hwpos, heq]
          rfl
        exact s'.writer.sees_of_room (by omega)
  | got hread hr hw reader writer =>
    have hp : puts (es ++ [.got]) = puts es := puts_snoc
    have hg : gots (es ++ [.got]) = gots es + 1 := gots_snoc
    rw [hread] at hreader
    have hgw : gots es < puts es := hreader
    constructor
    case rpos => rw [hr, hrpos, hg, BitVec.ofNat_add]
    case wpos => rw [hw, hwpos, hp]
    case le => rwa [hg, hp]
    case cap =>
      rw [hg, hp]
      omega
    case low => rwa [hp]
    case reader =>
      rw [reader]
      trivial
    case writer =>
      rw [hg, hp, writer]
      exact hwriter.more
  | put hwrite hr hw reader writer =>
    have hp : puts (es ++ [.put]) = puts es + 1 := puts_snoc
    have hg : gots (es ++ [.put]) = gots es := gots_snoc
    rw [hwrite] at hwriter
    have hroom : puts es < gots es + 32 ∧ puts es ≤ 2^31 := hwriter
    constructor
    case rpos => rw [hr, hrpos, hg]
    case wpos => rw [hw, hwpos, hp, BitVec.ofNat_add]
    case le =>
      rw [hg, hp]
      omega
    case cap =>
      rw [hg, hp]
      omega
    case low =>
      rw [hp]
      omega
    case reader =>
      rw [hg, hp, reader]
      exact hreader.more
    case writer =>
      rw [writer]
      trivial

theorem PipeStart.positions (h : PipeStart s) : PositionsInv [] s := by
  constructor
  case rpos => exact h.rpos
  case wpos => exact h.wpos
  case le => exact Nat.le_refl 0
  case cap => exact Nat.zero_le _
  case low => exact Nat.zero_le _
  case reader =>
    rw [h.reader]
    trivial
  case writer =>
    rw [h.writer]
    trivial

/-- Until the writer takes up the byte for position `2^31 + 1` all is well, and then it is not:
the remainder of that position is negative. -/
theorem pipe_positions_iff (h₀ : PipeStart s₀) (h : Run LowStep s₀ es s) : PositionsOk es s ∧
    ∀ e s', PipeStep s e s' → (PositionsOk (es ++ [e]) s' ↔ ¬ HighByte s s') := by
  have hinv : PositionsInv es s := h.invariant h₀.positions fun _ _ _ _ hi hs => hi.step hs.1 hs.2
  refine ⟨hinv.ok, fun e s' hs => ?_⟩
  constructor
  · rintro hok ⟨buf, i, hfull, hstore, hpos⟩
    have hsame : s'.pipe.pWpos = s.pipe.pWpos := by
      cases hs.moves with
      | other hputs hgots hr hw => exact hw
      | got hread hr hw => exact hw
      | put hwrite => rw [hfull] at hwrite; cases hwrite
    have hindex := (hok.store buf i hstore).1
    rw [hsame, hpos] at hindex
    exact absurd hindex (by decide)
  · intro hlow
    exact (hinv.step hs hlow).ok

/-- In a run that puts no more than `2^31` bytes into the pipe the writer never takes up the byte after them. -/
theorem Run.low (h : Run PipeStep s₀ es s) (h₀ : PipeStart s₀) (hle : puts es ≤ 2^31) : Run LowStep s₀ es s := by
  induction h with
  | nil => exact .nil
  | @snoc es e t u _ hs ih =>
    rw [puts_snoc] at hle
    have hrun := ih (by omega)
    have hinv : PositionsInv es t := hrun.invariant h₀.positions fun _ _ _ _ hi hs => hi.step hs.1 hs.2
    refine hrun.snoc ⟨hs, fun ⟨_, _, _, _, hpos⟩ => ?_⟩
    rw [hinv.wpos] at hpos
    have hnat := congrArg BitVec.toNat hpos
    change puts es % 2^32 = 2^31 + 1 at hnat
    omega

end Positions

section LongRun

variable {f : ℤ → BitVec 8} {n : ℕ}

/-- A pipe between two environments through which `n` bytes have gone. -/
def idlePipe (n : ℕ) (f : ℤ → BitVec 8) : PipeSys := ⟨⟨BitVec.ofNat 32 n, BitVec.ofNat 32 n, f⟩, 1, 1, 2, .out, .out⟩

/-- The writer gets as far as the store of a byte. -/
theorem idlePipe_store (hn : n < 2^32 - 32) : Run PipeStep (idlePipe n f) [.write [7#8], .tau, .tau]
    { idlePipe n f with writer := .store [7#8] 0 } := by
  have hroom : ¬ (idlePipe n f).pipe.isFull := by
    unfold Pipe.isFull idlePipe
    rw [BitVec.le_def, BitVec.toNat_add, BitVec.toNat_ofNat, BitVec.toNat_ofNat]
    omega
  have hfull : PipeSys.writerStep { idlePipe n f with writer := .full [7#8] 0 } =
      some (.tau, { idlePipe n f with writer := .store [7#8] 0 }) := if_neg hroom
  exact ((Run.single (.write [7#8] rfl Nat.one_pos)).snoc (.writer rfl)).snoc (.writer hfull)

/-- A byte is written and read. -/
theorem idlePipe_byte (f : ℤ → BitVec 8) (hn : n < 2^32 - 32) :
    ∃ es f', puts es = 1 ∧ Run PipeStep (idlePipe n f) es (idlePipe (n + 1) f') := by
  generalize hs : ({ idlePipe (n + 1) (Function.update f (bufIndex (BitVec.ofNat 32 n)) (7#8)) with
    pipe.pRpos := BitVec.ofNat 32 n } : PipeSys) = s
  have hput : Run PipeStep { idlePipe n f with writer := .store [7#8] 0 } [.tau, .put, .writeRet 1] s := by
    rw [← hs]
    have hstep : PipeSys.writerStep { idlePipe n f with
        pipe.pBuf := Function.update f (bufIndex (BitVec.ofNat 32 n)) (7#8), writer := .advance [7#8] 0 } =
        some (.put, { idlePipe (n + 1) (Function.update f (bufIndex (BitVec.ofNat 32 n)) (7#8)) with
          pipe.pRpos := BitVec.ofNat 32 n, writer := .loop [7#8] 1 }) := by
      unfold PipeSys.writerStep idlePipe
      rw [BitVec.ofNat_add]
    exact ((Run.single (.writer rfl)).snoc (.writer hstep)).snoc (.writer rfl)
  have hget : ∃ es f', puts es = 0 ∧ Run PipeStep s es (idlePipe (n + 1) f') := by
    rw [← hs]
    generalize Function.update f (bufIndex (BitVec.ofNat 32 n)) (7#8) = f'
    have hbyte : ¬ (BitVec.ofNat 32 n = BitVec.ofNat 32 (n + 1)) := by
      intro heq
      have hnat := congrArg BitVec.toNat heq
      rw [BitVec.toNat_ofNat, BitVec.toNat_ofNat] at hnat
      omega
    have hempty : PipeSys.readerStep { idlePipe (n + 1) f' with pipe.pRpos := BitVec.ofNat 32 n, reader := .empty 1 [] } =
        some (.tau, { idlePipe (n + 1) f' with pipe.pRpos := BitVec.ofNat 32 n, reader := .take 1 [] }) := if_neg hbyte
    have hstep : PipeSys.readerStep { idlePipe (n + 1) f' with
        pipe.pRpos := BitVec.ofNat 32 n, reader := .advance 1 [f' (bufIndex (BitVec.ofNat 32 n))] } =
        some (.got, { idlePipe (n + 1) f' with reader := .loop 1 [f' (bufIndex (BitVec.ofNat 32 n))] }) := by
      unfold PipeSys.readerStep idlePipe
      rw [BitVec.ofNat_add]
    exact ⟨_, f', rfl, (((((Run.single (.read 1 rfl Nat.one_pos)).snoc (.reader rfl)).snoc (.reader hempty)).snoc
      (.reader rfl)).snoc (.reader hstep)).snoc (.reader rfl)⟩
  obtain ⟨es, f', hnone, hget⟩ := hget
  refine ⟨_, f', ?_, ((idlePipe_store hn).trans hput).trans hget⟩
  have happ : puts ([.write [7#8], .tau, .tau] ++ [.tau, .put, .writeRet 1] ++ es) = 1 + puts es := List.count_append
  rw [happ, hnone]

theorem idlePipe_run (hn : n ≤ 2^31 + 1) :
    ∃ es f, puts es = n ∧ Run PipeStep (idlePipe 0 fun _ => 0#8) es (idlePipe n f) := by
  induction n with
  | zero => exact ⟨_, _, rfl, .nil⟩
  | succ n ih =>
    obtain ⟨es, f, hputs, hrun⟩ := ih (by omega)
    obtain ⟨es', f', hone, hbyte⟩ := idlePipe_byte f (show n < 2^32 - 32 by omega)
    refine ⟨_, f', ?_, hrun.trans hbyte⟩
    have happ : puts (es ++ es') = puts es + puts es' := List.count_append
    rw [happ, hputs, hone]

/-- A write of a byte when 1000 bytes have gone through the pipe. -/
theorem pipe_positions_first : ∃ es f, Run LowStep (idlePipe 0 fun _ => 0#8) es (idlePipe 1000 f) ∧
    PositionsOk (es ++ [.write [7#8]]) { idlePipe 1000 f with writer := .loop [7#8] 0 } := by
  obtain ⟨es, f, hputs, hrun⟩ := idlePipe_run (show 1000 ≤ 2^31 + 1 by decide)
  have hlow := hrun.low pipeStart_one (by rw [hputs]; decide)
  exact ⟨es, f, hlow, ((pipe_positions_iff pipeStart_one hlow).2 _ _ (.write [7#8] rfl Nat.one_pos)).mpr
    fun ⟨_, _, hfull, _, _⟩ => nomatch hfull⟩

/-- After `2^31 + 1` bytes the writer stores one 31 places before the buffer. -/
theorem pipe_positions_negative : ∃ s₀ s : PipeSys, ∃ es buf i, PipeStart s₀ ∧ Run PipeStep s₀ es s ∧
    s.writer = .store buf i ∧ bufIndex s.pipe.pWpos = -31 ∧ ¬ PositionsOk es s := by
  obtain ⟨es, f, -, hrun⟩ := idlePipe_run (Nat.le_refl (2^31 + 1))
  have hindex : bufIndex (BitVec.ofNat 32 (2^31 + 1)) = -31 := by decide
  refine ⟨_, _, _, [7#8], 0, pipeStart_one, hrun.trans (idlePipe_store (by decide)), rfl, hindex, fun hok => ?_⟩
  have hlow := (hok.store [7#8] 0 rfl).1
  change 0 ≤ bufIndex (BitVec.ofNat 32 (2^31 + 1)) at hlow
  rw [hindex] at hlow
  exact absurd hlow (by decide)

end LongRun

end Sisop
