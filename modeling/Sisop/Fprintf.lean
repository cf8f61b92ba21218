import Sisop.PrintfmtTotal

/-! `vfprintf` of `lib/fprintf.c` over every behaviour of `write`. -/
namespace Sisop
namespace Fprintf

/-- What a call of `write` does: it accepts at most `k` bytes of its buffer, or it fails. -/
inductive Outcome
  | accepts (k : ℕ)
  | fails (err : Word) (h : err.toInt < 0)

/-- How many of `n` bytes are accepted. -/
def Outcome.count (n : ℕ) : Outcome → ℕ
  | .accepts k => min k n
  | .fails .. => 0

/-- What `write` returns for `n` bytes. -/
def Outcome.result (n : ℕ) : Outcome → Word
  | .accepts k => BitVec.ofNat 32 (min k n)
  | .fails err _ => err

/-- A call of `write`: the bytes that it was given, and what it returned. -/
structure Call where
  given : List (BitVec 8)
  result : Word

/-- The bytes that the descriptor has accepted. -/
def accepted (log : List Call) : List (BitVec 8) := log.flatMap fun c => c.given.take c.result.toInt.toNat

/-- `struct printbuf`. -/
structure Printbuf where
  idx : ℕ
  result : Word
  error : Word
  buf : List (BitVec 8)

/-- `writebuf`, where `ws` has the outcome of each call of `write`. -/
def writebuf (ws : ℕ → Outcome) (s : Printbuf × List Call) : Printbuf × List Call :=
  let (b, log) := s
  if 0 < b.error.toInt then
    let result := (ws log.length).result b.idx
    let total := if 0 < result.toInt then b.result + result else b.result
    let error := if result ≠ BitVec.ofNat 32 b.idx then if result.toInt < 0 then result else 0#32 else b.error
    ({ b with result := total, error := error }, log ++ [⟨b.buf.take b.idx, result⟩])
  else (b, log)

/-- `putch`. It fails where it stores outside of the buffer. -/
def putch (ws : ℕ → Outcome) (s : Printbuf × List Call) (ch : BitVec 8) : Option (Printbuf × List Call) := do
  let (b, log) := s
  let buf ← storeAt b.buf b.idx ch
  let b := { b with buf := buf, idx := b.idx + 1 }
  if b.idx = 256 then
    let (b, log) := writebuf ws (b, log)
    some ({ b with idx := 0 }, log)
  else some (b, log)

/-- `vfprintf` with the characters that `vprintfmt` has for `putch`. -/
def finish (ws : ℕ → Outcome) (buf out : List (BitVec 8)) : Option (Word × List Call) := do
  let s ← out.foldlM (putch ws) (⟨0, 0#32, 1#32, buf⟩, [])
  let (b, log) := if 0 < s.1.idx then writebuf ws s else s
  some (if b.result ≠ 0#32 then b.result else b.error, log)

/-- `vfprintf`: what it returns, and the calls of `write`. -/
def vfprintf (n : ℕ) (mem : Word → List (BitVec 8)) (va : ℕ → Word) (fmt : List (BitVec 8)) (ws : ℕ → Outcome)
    (buf : List (BitVec 8)) : Option (Word × List Call) := do
  let out ← vprintfmt n mem va (Vprintfmt.start fmt)
  finish ws buf out

/-- A call that failed, or accepted less than it was given. -/
def Call.Stops (c : Call) : Prop := c.result.toInt ≠ c.given.length

/-- What is to be returned: the error of the first call, or the number of bytes accepted. -/
def Returns (log : List Call) (ret : Word) : Prop :=
  (∀ c ∈ log.head?, c.result.toInt < 0 → ret = c.result) ∧
    ((∀ c ∈ log.head?, 0 ≤ c.result.toInt) → ret.toInt = (accepted log).length)

/-- What a call of `vfprintf` with an output `out` is to do. -/
structure Accounts (out : List (BitVec 8)) (log : List Call) (ret : Word) : Prop where
  isPrefix : accepted log <+: out
  last : ∀ c ∈ log.dropLast, ¬ c.Stops
  returns : Returns log ret

/-- How many of the `n` bytes of an output the descriptor accepts, with the outcomes of `write` from `i` on. -/
def acceptable (ws : ℕ → Outcome) (i n : ℕ) : ℕ :=
  if n = 0 then 0
  else if (ws i).count (min 256 n) = min 256 n then min 256 n + acceptable ws (i + 1) (n - min 256 n)
  else (ws i).count (min 256 n)
termination_by n
decreasing_by omega

section Calls

variable {ws : ℕ → Outcome} {w : Outcome} {log : List Call} {b : Printbuf} {out buf p : List (BitVec 8)} {n N : ℕ} {ret : Word}

/-- How a call went, for a buffer of at most 256 bytes. -/
theorem result_cases (w : Outcome) (h : n ≤ 256) :
    (w.count n = n ∧ w.result n = BitVec.ofNat 32 n) ∨
    (w.count n < n ∧ 0 ≤ (w.result n).toInt ∧ (w.result n).toInt = w.count n) ∨
    (w.count n = 0 ∧ (w.result n).toInt < 0) := by
  cases w with
  | accepts k =>
    have hcount : (Outcome.accepts k).count n = min k n := rfl
    have hresult : (Outcome.accepts k).result n = BitVec.ofNat 32 (min k n) := rfl
    by_cases hk : n ≤ k
    · left
      rw [hcount, hresult, Nat.min_eq_right hk]
      exact ⟨rfl, rfl⟩
    · right
      left
      have hmin : min k n ≤ 256 := (Nat.min_le_right _ _).trans h
      rw [hcount, hresult, toInt_ofNat_of_lt (by omega)]
      omega
  | fails err herr =>
    right
    right
    exact ⟨rfl, herr⟩

theorem accepted_append (log : List Call) (c : Call) : accepted (log ++ [c]) = accepted log ++ c.given.take c.result.toInt.toNat := by
  unfold accepted
  rw [List.flatMap_append, List.flatMap_singleton]

/-- Everything has been accepted so far but for what is still in the buffer. `N` is the length of the whole output. -/
structure Going (ws : ℕ → Outcome) (N : ℕ) (p : List (BitVec 8)) (b : Printbuf) (log : List Call) : Prop where
  size : b.buf.length = 256
  error : b.error = 1#32
  bytes : accepted log ++ b.buf.take b.idx = p
  result : b.result = BitVec.ofNat 32 (accepted log).length
  full : ∀ c ∈ log, ¬ c.Stops
  begun : log ≠ [] → accepted log ≠ []
  takes : acceptable ws 0 N = (accepted log).length + acceptable ws log.length (N - (accepted log).length)

/-- A call has failed or was short. -/
structure Halted (ws : ℕ → Outcome) (N : ℕ) (p : List (BitVec 8)) (b : Printbuf) (log : List Call) : Prop where
  size : b.buf.length = 256
  error : ¬ 0 < b.error.toInt
  isPrefix : accepted log <+: p
  result : b.result = BitVec.ofNat 32 (accepted log).length
  last : ∀ c ∈ log.dropLast, ¬ c.Stops
  first : ∃ c ∈ log.head?, c.result.toInt < 0 ∧ accepted log = [] ∧ b.error = c.result ∨
    0 ≤ c.result.toInt ∧ (accepted log = [] → b.error = 0#32)
  takes : acceptable ws 0 N = (accepted log).length
  begun : p ≠ []

theorem Halted.setIdx (h : Halted ws N p b log) (i : ℕ) : Halted ws N p { b with idx := i } log :=
  ⟨h.size, h.error, h.isPrefix, h.result, h.last, h.first, h.takes, h.begun⟩

theorem acceptable_full (ws : ℕ → Outcome) (i : ℕ) (hn : n ≠ 0) (h : (ws i).count (min 256 n) = min 256 n) :
    acceptable ws i n = min 256 n + acceptable ws (i + 1) (n - min 256 n) := by
  rw [acceptable, if_neg hn, if_pos h]

theorem acceptable_short (ws : ℕ → Outcome) (i : ℕ) (hn : n ≠ 0) (h : (ws i).count (min 256 n) ≠ min 256 n) :
    acceptable ws i n = (ws i).count (min 256 n) := by
  rw [acceptable, if_neg hn, if_neg h]

theorem writebuf_halted (hb : ¬ 0 < b.error.toInt) : writebuf ws (b, log) = (b, log) := if_neg hb

/-- What is in the buffer is written. -/
theorem Going.writebuf (h : Going ws N p b log) (hpos : 0 < b.idx) (hidx : b.idx ≤ 256)
    (hchunk : min 256 (N - (accepted log).length) = b.idx) : ∃ b' log', writebuf ws (b, log) = (b', log') ∧
      b'.idx = b.idx ∧ (Going ws N p { b' with idx := 0 } log' ∨ Halted ws N p b' log') := by
  have herror : 0 < b.error.toInt := by
    rw [h.error]
    decide
  have hlen : (b.buf.take b.idx).length = b.idx := by
    rw [List.length_take, h.size]
    exact Nat.min_eq_left hidx
  have hn : N - (accepted log).length ≠ 0 := by omega
  have hlenp : p.length = (accepted log).length + b.idx := by
    rw [← h.bytes, List.length_append, hlen]
  have hp : p ≠ [] := by
    rintro rfl
    rw [List.length_nil] at hlenp
    omega
  have hfull := acceptable_full ws log.length hn
  have hshort := acceptable_short ws log.length hn
  rw [hchunk] at hfull hshort
  refine ⟨_, _, if_pos herror, rfl, ?_⟩
  obtain ⟨hcount, hres⟩ | ⟨hcount, hnonneg, hres⟩ | ⟨hcount, hneg⟩ := result_cases (ws log.length) hidx
  · -- All of it is accepted.
    left
    have hint : (BitVec.ofNat 32 b.idx).toInt = b.idx := toInt_ofNat_of_lt (by omega)
    have hacc : accepted (log ++ [⟨b.buf.take b.idx, (ws log.length).result b.idx⟩]) = p := by
      rw [accepted_append, hres, hint, Int.toNat_natCast, List.take_take, Nat.min_self, h.bytes]
    apply Going.mk
    · exact h.size
    · exact (if_neg (not_not.mpr hres)).trans h.error
    · exact (List.append_nil _).trans hacc
    · change (if 0 < ((ws log.length).result b.idx).toInt then _ else _) = _
      rw [hacc, hres, hint, if_pos (Int.natCast_pos.mpr hpos), h.result, hlenp, BitVec.ofNat_add]
    · intro c hc
      obtain hc | hc := List.mem_append.mp hc
      · exact h.full c hc
      · rw [List.mem_singleton.mp hc]
        intro hstops
        apply hstops
        rw [hres, hint, hlen]
    · intro _ hnil
      exact hp (hacc.symm.trans hnil)
    · rw [hacc, List.length_append, List.length_singleton, hlenp, h.takes, hfull hcount, Nat.sub_sub, Nat.add_assoc]
  · -- Some of it is left.
    right
    have hne : (ws log.length).result b.idx ≠ BitVec.ofNat 32 b.idx := by
      intro heq
      rw [heq, toInt_ofNat_of_lt (by omega)] at hres
      omega
    have hnat : (ws log.length).result b.idx = BitVec.ofNat 32 ((ws log.length).count b.idx) := by
      apply BitVec.eq_of_toInt_eq
      rw [hres, toInt_ofNat_of_lt (by omega)]
    have herr : (if (ws log.length).result b.idx ≠ BitVec.ofNat 32 b.idx then
        if ((ws log.length).result b.idx).toInt < 0 then (ws log.length).result b.idx else 0#32 else b.error) = 0#32 := by
      rw [if_pos hne, if_neg (Int.not_lt.mpr hnonneg)]
    have hacc : accepted (log ++ [⟨b.buf.take b.idx, (ws log.length).result b.idx⟩]) =
        accepted log ++ b.buf.take ((ws log.length).count b.idx) := by
      rw [accepted_append, hres, Int.toNat_natCast, List.take_take, Nat.min_eq_left hcount.le]
    have hlenacc : (accepted (log ++ [⟨b.buf.take b.idx, (ws log.length).result b.idx⟩])).length =
        (accepted log).length + (ws log.length).count b.idx := by
      rw [hacc, List.length_append, List.length_take, h.size]
      omega
    apply Halted.mk
    · exact h.size
    · change ¬ 0 < BitVec.toInt (if _ then _ else _)
      rw [herr]
      decide
    · rw [hacc, ← h.bytes]
      apply (List.prefix_append_right_inj _).mpr
      rw [List.prefix_take_iff]
      refine ⟨List.take_prefix _ _, ?_⟩
      rw [List.length_take]
      omega
    · change (if 0 < ((ws log.length).result b.idx).toInt then _ else _) = _
      rw [hlenacc, BitVec.ofNat_add, ← hnat, ← h.result]
      split
      next => rfl
      next hzero =>
        have hz : (ws log.length).result b.idx = 0#32 := by
          apply BitVec.eq_of_toInt_eq
          exact Int.le_antisymm (Int.not_lt.mp hzero) hnonneg
        rw [hz, BitVec.add_zero]
    · rw [List.dropLast_concat]
      exact h.full
    · cases log with
      | nil => exact ⟨_, rfl, .inr ⟨hnonneg, fun _ => herr⟩⟩
      | cons c log =>
        have hc := h.full c List.mem_cons_self
        unfold Call.Stops at hc
        exact ⟨c, rfl, .inr ⟨by omega, fun _ => herr⟩⟩
    · rw [hlenacc, h.takes, hshort hcount.ne]
    · exact hp
  · -- The call fails.
    right
    have hne : (ws log.length).result b.idx ≠ BitVec.ofNat 32 b.idx := by
      intro heq
      rw [heq, toInt_ofNat_of_lt (by omega)] at hneg
      omega
    have herr : (if (ws log.length).result b.idx ≠ BitVec.ofNat 32 b.idx then
        if ((ws log.length).result b.idx).toInt < 0 then (ws log.length).result b.idx else 0#32 else b.error) =
          (ws log.length).result b.idx := by
      rw [if_pos hne, if_pos hneg]
    have hacc : accepted (log ++ [⟨b.buf.take b.idx, (ws log.length).result b.idx⟩]) = accepted log := by
      rw [accepted_append, Int.toNat_of_nonpos hneg.le, List.take_zero, List.append_nil]
    apply Halted.mk
    · exact h.size
    · change ¬ 0 < BitVec.toInt (if _ then _ else _)
      rw [herr]
      exact Int.not_lt.mpr hneg.le
    · rw [hacc, ← h.bytes]
      exact List.prefix_append _ _
    · change (if 0 < ((ws log.length).result b.idx).toInt then _ else _) = _
      rw [if_neg (Int.not_lt.mpr hneg.le), hacc]
      exact h.result
    · rw [List.dropLast_concat]
      exact h.full
    · cases log with
      | nil => exact ⟨_, rfl, .inl ⟨hneg, hacc, herr⟩⟩
      | cons c log =>
        have hc := h.full c List.mem_cons_self
        unfold Call.Stops at hc
        refine ⟨c, rfl, .inr ⟨by omega, fun hnil => ?_⟩⟩
        rw [hacc] at hnil
        exact absurd hnil (h.begun (List.cons_ne_nil _ _))
    · rw [hacc, h.takes, hshort (by omega), hcount, Nat.add_zero]
    · exact hp

/-- `putch` never stores outside of the buffer. -/
theorem putch_step {s : Printbuf × List Call} (h : (Going ws N p s.1 s.2 ∨ Halted ws N p s.1 s.2) ∧ s.1.idx < 256)
    (hN : p.length < N) (ch : BitVec 8) : ∃ s', putch ws s ch = some s' ∧
      (Going ws N (p ++ [ch]) s'.1 s'.2 ∨ Halted ws N (p ++ [ch]) s'.1 s'.2) ∧ s'.1.idx < 256 := by
  obtain ⟨b, log⟩ := s
  obtain ⟨h, hidx⟩ := h
  change b.idx < 256 at hidx
  have hstored : Going ws N (p ++ [ch]) { b with buf := b.buf.set b.idx ch, idx := b.idx + 1 } log ∨
      Halted ws N (p ++ [ch]) { b with buf := b.buf.set b.idx ch, idx := b.idx + 1 } log := by
    obtain h | h := h
    · left
      apply Going.mk
      · exact List.length_set.trans h.size
      · exact h.error
      · have htake : (b.buf.set b.idx ch).take (b.idx + 1) = b.buf.take b.idx ++ [ch] := by
          have hlt : b.idx < b.buf.length := hidx.trans_eq h.size.symm
          rw [List.take_add_one, List.take_set_of_le le_rfl, List.getElem?_set_self hlt]
          rfl
        change accepted log ++ (b.buf.set b.idx ch).take (b.idx + 1) = _
        rw [htake, ← List.append_assoc, h.bytes]
      · exact h.result
      · exact h.full
      · exact h.begun
      · exact h.takes
    · right
      apply Halted.mk
      · exact List.length_set.trans h.size
      · exact h.error
      · exact h.isPrefix.trans (List.prefix_append _ _)
      · exact h.result
      · exact h.last
      · exact h.first
      · exact h.takes
      · exact List.append_ne_nil_of_right_ne_nil _ (List.cons_ne_nil _ _)
  have hsize : b.buf.length = 256 := h.elim Going.size Halted.size
  unfold putch
  simp only [storeAt_some (hidx.trans_eq hsize.symm), Option.bind_eq_bind, Option.bind_some]
  by_cases hlast : b.idx + 1 = 256
  · rw [if_pos hlast]
    obtain h' | h' := hstored
    · have hlenp : (accepted log).length + 256 = p.length + 1 := by
        have hlen := congrArg List.length h'.bytes
        rw [List.length_append, List.length_take, h'.size, List.length_append] at hlen
        simp only [List.length_singleton] at hlen
        omega
      obtain ⟨b', log', hwrite, hidx', hnext⟩ := h'.writebuf (Nat.succ_pos _) hlast.le (by
        change _ = b.idx + 1
        omega)
      rw [hwrite]
      exact ⟨_, rfl, hnext.imp_right fun h => h.setIdx 0, Nat.zero_lt_succ _⟩
    · rw [writebuf_halted h'.error]
      exact ⟨_, rfl, .inr (h'.setIdx 0), Nat.zero_lt_succ _⟩
  · rw [if_neg hlast]
    exact ⟨_, rfl, hstored, by change b.idx + 1 < 256; omega⟩

theorem putch_run (out : List (BitVec 8)) : ∀ {p s}, (Going ws N p s.1 s.2 ∨ Halted ws N p s.1 s.2) ∧ s.1.idx < 256 →
    p.length + out.length ≤ N → ∃ s', out.foldlM (putch ws) s = some s' ∧
      (Going ws N (p ++ out) s'.1 s'.2 ∨ Halted ws N (p ++ out) s'.1 s'.2) ∧ s'.1.idx < 256 := by
  induction out with
  | nil =>
    intro p s h _
    rw [List.append_nil]
    exact ⟨s, rfl, h⟩
  | cons ch out ih =>
    intro p s h hN
    rw [List.length_cons] at hN
    obtain ⟨s₁, hs₁, h₁⟩ := putch_step h (by omega) ch
    obtain ⟨s₂, hs₂, h₂⟩ := ih (p := p ++ [ch]) h₁ (by
      rw [List.length_append, List.length_singleton]
      omega)
    rw [List.append_assoc] at h₂
    refine ⟨s₂, ?_, h₂⟩
    rw [List.foldlM_cons, hs₁]
    exact hs₂

/-- After the last `writebuf`: everything has been accepted, or a call has failed or was short. -/
theorem finish_cases (ws : ℕ → Outcome) (hbuf : buf.length = 256) (out : List (BitVec 8)) : ∃ b log,
    finish ws buf out = some (if b.result ≠ 0#32 then b.result else b.error, log) ∧
    (Going ws out.length out b log ∧ accepted log = out ∨ Halted ws out.length out b log) := by
  have hstart : Going ws out.length [] ⟨0, 0#32, 1#32, buf⟩ [] := by
    apply Going.mk
    · exact hbuf
    · exact rfl
    · exact rfl
    · exact rfl
    · exact fun c hc => nomatch hc
    · exact fun h => absurd rfl h
    · exact (Nat.zero_add _).symm
  obtain ⟨⟨b, log⟩, hrun, h, hidx⟩ := putch_run out (s := (⟨0, 0#32, 1#32, buf⟩, [])) ⟨.inl hstart, Nat.zero_lt_succ _⟩
    (Nat.zero_add _).le
  rw [List.nil_append] at h
  change b.idx < 256 at hidx
  unfold finish
  rw [hrun, Option.bind_eq_bind, Option.bind_some]
  by_cases hpos : 0 < b.idx
  · simp only [if_pos hpos]
    obtain h | h := h
    · change Going ws _ _ b log at h
      have hlen := congrArg List.length h.bytes
      rw [List.length_append, List.length_take, h.size] at hlen
      obtain ⟨b', log', hwrite, hidx', hnext⟩ := h.writebuf hpos hidx.le (by omega)
      rw [hwrite]
      obtain hnext | hnext := hnext
      · exact ⟨{ b' with idx := 0 }, log', rfl, .inl ⟨hnext, (List.append_nil _).symm.trans hnext.bytes⟩⟩
      · exact ⟨b', log', rfl, .inr hnext⟩
    · rw [writebuf_halted h.error]
      exact ⟨b, log, rfl, .inr h⟩
  · simp only [if_neg hpos]
    refine ⟨b, log, rfl, h.imp_left fun h => ⟨h, ?_⟩⟩
    have hbytes := h.bytes
    change accepted log ++ b.buf.take b.idx = out at hbytes
    rw [Nat.eq_zero_of_not_pos hpos, List.take_zero, List.append_nil] at hbytes
    exact hbytes

/-- A number of bytes, as it is returned. -/
theorem returned_iff (L : ℕ) (error : Word) (herr : L = 0 → error = 0#32) :
    (if BitVec.ofNat 32 L ≠ 0#32 then BitVec.ofNat 32 L else error).toInt = L ↔ L < 2^31 := by
  constructor
  · intro heq
    have hlt := BitVec.toInt_lt (x := if BitVec.ofNat 32 L ≠ 0#32 then BitVec.ofNat 32 L else error)
    omega
  · intro hlt
    have hL : (BitVec.ofNat 32 L).toInt = L := toInt_ofNat_of_lt hlt
    split
    next => exact hL
    next hzero =>
      rw [not_not.mp hzero] at hL
      have hL0 : L = 0 := by
        have hz : (0#32).toInt = 0 := by decide
        omega
      rw [herr hL0, hL0]
      decide

theorem acceptable_zero (ws : ℕ → Outcome) (i : ℕ) : acceptable ws i 0 = 0 := by
  rw [acceptable, if_pos rfl]

theorem Going.nonneg (h : Going ws N p b log) : ∀ c ∈ log.head?, 0 ≤ c.result.toInt := by
  intro c hc
  have hfull := h.full c (List.mem_of_mem_head? hc)
  unfold Call.Stops at hfull
  omega

theorem going_accounts (h : Going ws out.length out b log) (hacc : accepted log = out) :
    Accounts out log (if b.result ≠ 0#32 then b.result else b.error) ↔ out ≠ [] ∧ acceptable ws 0 out.length < 2^31 := by
  have htakes := h.takes
  rw [hacc, Nat.sub_self, acceptable_zero, Nat.add_zero] at htakes
  have hresult := h.result
  rw [hacc] at hresult
  rw [htakes, hresult]
  constructor
  · intro hacct
    have hret := hacct.returns.2 h.nonneg
    rw [hacc] at hret
    have hne : out ≠ [] := by
      rintro rfl
      rw [if_neg (by decide), h.error] at hret
      exact absurd hret (by decide)
    exact ⟨hne, (returned_iff _ _ fun hz => absurd (List.length_eq_zero_iff.mp hz) hne).mp hret⟩
  · rintro ⟨hne, hlt⟩
    have hret := (returned_iff _ b.error fun hz => absurd (List.length_eq_zero_iff.mp hz) hne).mpr hlt
    refine ⟨hacc ▸ List.prefix_rfl, fun c hc => h.full c (List.mem_of_mem_dropLast hc), ?_, ?_⟩
    · intro c hc hneg
      exact absurd (h.nonneg c hc) (Int.not_le.mpr hneg)
    · rw [hacc]
      exact fun _ => hret

theorem halted_accounts (h : Halted ws out.length out b log) :
    Accounts out log (if b.result ≠ 0#32 then b.result else b.error) ↔ out ≠ [] ∧ acceptable ws 0 out.length < 2^31 := by
  obtain ⟨c, hc, hfirst⟩ := h.first
  rw [h.takes, h.result]
  have hsame : ∀ d ∈ log.head?, d = c := fun d hd => Option.mem_unique hd hc
  obtain ⟨hneg, hnil, herr⟩ | ⟨hnonneg, herr⟩ := hfirst
  · -- The first call has failed.
    rw [hnil, List.length_nil, if_neg (by decide), herr]
    refine iff_of_true ⟨h.isPrefix, h.last, ?_, ?_⟩ ⟨h.begun, by decide⟩
    · intro d hd _
      rw [hsame d hd]
    · exact fun hall => absurd (hall c hc) (Int.not_le.mpr hneg)
  · have hret := returned_iff (accepted log).length b.error fun hz => herr (List.length_eq_zero_iff.mp hz)
    rw [and_iff_right h.begun, ← hret]
    constructor
    · intro hacct
      apply hacct.returns.2
      intro d hd
      rw [hsame d hd]
      exact hnonneg
    · intro hret
      refine ⟨h.isPrefix, h.last, ?_, fun _ => hret⟩
      intro d hd hneg
      rw [hsame d hd] at hneg
      exact absurd hnonneg (Int.not_le.mpr hneg)

end Calls

/-- The buffer is never overrun, what has been accepted is always a prefix of the output, and nothing is written behind a
call that failed or was short. What is returned is right if there is an output and an `int` can hold the number of bytes. -/
theorem vfprintf_iff (ws : ℕ → Outcome) {buf : List (BitVec 8)} (hbuf : buf.length = 256) {n : ℕ} {mem : Word → List (BitVec 8)}
    {va : ℕ → Word} {fmt out : List (BitVec 8)} (hout : vprintfmt n mem va (Vprintfmt.start fmt) = some out) :
    ∃ ret log, vfprintf n mem va fmt ws buf = some (ret, log) ∧ accepted log <+: out ∧ (∀ c ∈ log.dropLast, ¬ c.Stops) ∧
      (Accounts out log ret ↔ out ≠ [] ∧ acceptable ws 0 out.length < 2^31) := by
  obtain ⟨b, log, hfinish, h⟩ := finish_cases ws hbuf out
  refine ⟨if b.result ≠ 0#32 then b.result else b.error, log, ?_, ?_⟩
  · unfold vfprintf
    rw [hout]
    exact hfinish
  · obtain ⟨h, hacc⟩ | h := h
    · exact ⟨hacc ▸ List.prefix_rfl, fun c hc => h.full c (List.mem_of_mem_dropLast hc), going_accounts h hacc⟩
    · exact ⟨h.isPrefix, h.last, halted_accounts h⟩

/-- A disk that is full after two bytes. -/
theorem vfprintf_short : ∃ ret log, vfprintf 9 (fun _ => []) (fun _ => 0x61#32) ("ab%c".toList.map chr ++ [0#8]) (fun _ => .accepts 2)
      (List.replicate 256 0#8) = some (ret, log) ∧ accepted log <+: "aba".toList.map chr ∧ (∀ c ∈ log.dropLast, ¬ c.Stops) ∧
      (Accounts ("aba".toList.map chr) log ret ↔
        "aba".toList.map chr ≠ [] ∧ acceptable (fun _ => .accepts 2) 0 ("aba".toList.map chr).length < 2^31) :=
  vfprintf_iff (fun _ => .accepts 2) List.length_replicate rfl

/-- Nothing is printed, and 1 is returned. -/
theorem vfprintf_empty : ∃ ret log, vfprintf 1 (fun _ => []) (fun _ => 0#32) [0#8] (fun _ => .accepts 256) (List.replicate 256 0#8) =
    some (ret, log) ∧ ret = 1#32 ∧ ¬ Accounts [] log ret := by
  refine ⟨1#32, [], rfl, rfl, fun hacct => ?_⟩
  have hret := hacct.returns.2 nofun
  exact absurd hret (by decide)

end Fprintf
end Sisop
