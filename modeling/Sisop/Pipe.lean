import Sisop.Mmu
import Sisop.Ring
import Sisop.Trace

/-! The pipe of `lib/pipe.c`: one environment reads it and another one writes it. They
share the page of the pipe, and everything that one does between two accesses to that
page, or to a page count, is one step. -/
namespace Sisop

/-- `PIPEBUFSIZ`. -/
abbrev pipebufsiz : ℕ := 32

/-- `struct Pipe`. An index into `p_buf` is a C `int` and may be negative. -/
structure Pipe where
  pRpos : Word
  pWpos : Word
  pBuf : ℤ → BitVec 8

/-- `pos % PIPEBUFSIZ`, for an `off_t` position. -/
def bufIndex (pos : Word) : ℤ := (pos.srem 32#32).toInt

/-- `p->p_rpos == p->p_wpos`. -/
def Pipe.isEmpty (p : Pipe) : Prop := p.pRpos = p.pWpos

instance (p : Pipe) : Decidable p.isEmpty := inferInstanceAs (Decidable (_ = _))

/-- `p->p_wpos >= p->p_rpos + sizeof(p->p_buf)`: the sum with a `size_t` is unsigned. -/
def Pipe.isFull (p : Pipe) : Prop := p.pRpos + 32#32 ≤ p.pWpos

instance (p : Pipe) : Decidable p.isFull := inferInstanceAs (Decidable (_ ≤ _))

/-- Where the reader is: `n` is the argument of `devpipe_read`, and `buf` holds the `i`
bytes that have been taken. -/
inductive ReadPc where
  | out
  | loop (n : ℕ) (buf : List (BitVec 8))
  | empty (n : ℕ) (buf : List (BitVec 8))
  | closed (n : ℕ) (buf : List (BitVec 8))
  | take (n : ℕ) (buf : List (BitVec 8))
  | advance (n : ℕ) (buf : List (BitVec 8))
  | unmap

/-- Where the writer is, in `devpipe_write` with the buffer `buf`. -/
inductive WritePc where
  | out
  | loop (buf : List (BitVec 8)) (i : ℕ)
  | full (buf : List (BitVec 8)) (i : ℕ)
  | closed (buf : List (BitVec 8)) (i : ℕ)
  | store (buf : List (BitVec 8)) (i : ℕ)
  | advance (buf : List (BitVec 8)) (i : ℕ)
  | unmap

/-- The page of the pipe, the counts `pageref` reads (the mappings of the two `Fd` pages
and of the page of the pipe), and the two environments. -/
structure PipeSys where
  pipe : Pipe
  rfd : ℕ
  wfd : ℕ
  data : ℕ
  reader : ReadPc
  writer : WritePc

/-- What can be seen of a step: the calls with their arguments, what they return, and
the increments of the two positions. -/
inductive PipeEvent where
  | tau
  | read (n : ℕ)
  | got
  | readRet (bytes : List (BitVec 8))
  | write (buf : List (BitVec 8))
  | put
  | writeRet (r : ℕ)
  | closeRead
  | closeWrite
  deriving DecidableEq

/-- The next step of the reader in `devpipe_read` or `devpipe_close`. -/
def PipeSys.readerStep (s : PipeSys) : Option (PipeEvent × PipeSys) :=
  match s.reader with
  | .out => none
  | .loop n buf =>
    if buf.length < n then some (.tau, { s with reader := .empty n buf })
    else some (.readRet buf, { s with reader := .out })
  | .empty n buf =>
    if s.pipe.isEmpty then
      -- if we got any data, return it
      if 0 < buf.length then some (.readRet buf, { s with reader := .out })
      else some (.tau, { s with reader := .closed n buf })
    else some (.tau, { s with reader := .take n buf })
  | .closed n buf =>
    -- `_pipeisclosed`: `pageref(fd) == pageref(p)`
    if s.rfd = s.data then some (.readRet [], { s with reader := .out })
    else some (.tau, { s with reader := .empty n buf })
  | .take n buf =>
    some (.tau, { s with reader := .advance n (buf ++ [s.pipe.pBuf (bufIndex s.pipe.pRpos)]) })
  | .advance n buf =>
    some (.got, { s with pipe.pRpos := s.pipe.pRpos + 1#32, reader := .loop n buf })
  | .unmap => some (.tau, { s with data := s.data - 1, reader := .out })

/-- The next step of the writer in `devpipe_write` or `devpipe_close`. -/
def PipeSys.writerStep (s : PipeSys) : Option (PipeEvent × PipeSys) :=
  match s.writer with
  | .out => none
  | .loop buf i =>
    if i < buf.length then some (.tau, { s with writer := .full buf i })
    else some (.writeRet i, { s with writer := .out })
  | .full buf i =>
    if s.pipe.isFull then some (.tau, { s with writer := .closed buf i })
    else some (.tau, { s with writer := .store buf i })
  | .closed buf i =>
    if s.wfd = s.data then some (.writeRet 0, { s with writer := .out })
    else some (.tau, { s with writer := .full buf i })
  | .store buf i =>
    some (.tau, { s with
      pipe.pBuf := Function.update s.pipe.pBuf (bufIndex s.pipe.pWpos) (buf.getD i 0#8)
      writer := .advance buf i })
  | .advance buf i =>
    some (.put, { s with pipe.pWpos := s.pipe.pWpos + 1#32, writer := .loop buf (i + 1) })
  | .unmap => some (.tau, { s with data := s.data - 1, writer := .out })

/-- The steps of the two environments, in any order. `devpipe_close` unmaps the page of
a descriptor first. -/
inductive PipeStep : PipeSys → PipeEvent → PipeSys → Prop where
  | read {s : PipeSys} (n : ℕ) (h : s.reader = .out) (hfd : 0 < s.rfd) :
    PipeStep s (.read n) { s with reader := .loop n [] }
  | closeRead {s : PipeSys} (h : s.reader = .out) (hfd : 0 < s.rfd) :
    PipeStep s .closeRead { s with rfd := s.rfd - 1, reader := .unmap }
  | reader {s s' : PipeSys} {e : PipeEvent} (h : s.readerStep = some (e, s')) : PipeStep s e s'
  | write {s : PipeSys} (buf : List (BitVec 8)) (h : s.writer = .out) (hfd : 0 < s.wfd) :
    PipeStep s (.write buf) { s with writer := .loop buf 0 }
  | closeWrite {s : PipeSys} (h : s.writer = .out) (hfd : 0 < s.wfd) :
    PipeStep s .closeWrite { s with wfd := s.wfd - 1, writer := .unmap }
  | writer {s s' : PipeSys} {e : PipeEvent} (h : s.writerStep = some (e, s')) : PipeStep s e s'

/-- A new pipe; each environment has descriptors of its own end only. -/
structure PipeStart (s : PipeSys) : Prop where
  rpos : s.pipe.pRpos = 0#32
  wpos : s.pipe.pWpos = 0#32
  data : s.data = s.rfd + s.wfd
  reader : s.reader = .out
  writer : s.writer = .out

/-- The bytes passed to `devpipe_write`. -/
def passed : List PipeEvent → List (BitVec 8) := List.flatMap fun
  | .write buf => buf
  | _ => []

/-- The bytes returned by `devpipe_read`. -/
def returned : List PipeEvent → List (BitVec 8) := List.flatMap fun
  | .readRet bytes => bytes
  | _ => []

/-- How many bytes have been put into the pipe. -/
def puts (es : List PipeEvent) : ℕ := es.count .put

/-- How many bytes have been taken out of the pipe. -/
def gots (es : List PipeEvent) : ℕ := es.count .got

section Positions

variable {es : List PipeEvent} {e : PipeEvent} {g w : ℕ}

theorem passed_snoc : passed (es ++ [e]) = passed es ++ passed [e] := List.flatMap_append

theorem returned_snoc : returned (es ++ [e]) = returned es ++ returned [e] := List.flatMap_append

theorem returned_readRet (bytes : List (BitVec 8)) : returned [.readRet bytes] ++ [] = bytes := by
  rw [List.append_nil]
  exact List.append_nil bytes

theorem puts_snoc : puts (es ++ [e]) = puts es + puts [e] := List.count_append

theorem gots_snoc : gots (es ++ [e]) = gots es + gots [e] := List.count_append

theorem bufIndex_ofNat (h : g < 2^31) : bufIndex (BitVec.ofNat 32 g) = ((g % 32 : ℕ) : ℤ) := by
  have hg : (BitVec.ofNat 32 g).toInt = g := by
    rw [BitVec.toInt_eq_toNat_of_lt, BitVec.toNat_ofNat, Nat.mod_eq_of_lt (by omega)]
    rw [BitVec.toNat_ofNat, Nat.mod_eq_of_lt (by omega)]
    omega
  rw [bufIndex, BitVec.toInt_srem, hg]
  exact Int.ofNat_tmod g 32

theorem ofNat_inj (hg : g < 2^31) (hw : w < 2^31) : BitVec.ofNat 32 g = BitVec.ofNat 32 w ↔ g = w := by
  constructor
  · intro h
    have hn := congrArg BitVec.toNat h
    rw [BitVec.toNat_ofNat, BitVec.toNat_ofNat] at hn
    omega
  · rintro rfl
    rfl

theorem ofNat_add_le (hg : g < 2^31) (hw : w < 2^31) :
    BitVec.ofNat 32 g + 32#32 ≤ BitVec.ofNat 32 w ↔ g + 32 ≤ w := by
  rw [BitVec.le_def, BitVec.toNat_add, BitVec.toNat_ofNat, BitVec.toNat_ofNat, BitVec.toNat_ofNat]
  omega

end Positions

/-- The argument `n` of the present call of `devpipe_read`. -/
def ReadPc.wanted : ReadPc → ℕ
  | .out | .unmap => 0
  | .loop n _ | .empty n _ | .closed n _ | .take n _ | .advance n _ => n

/-- The bytes the reader has taken in its present call. -/
def ReadPc.taken : ReadPc → List (BitVec 8)
  | .out | .unmap => []
  | .loop _ buf | .empty _ buf | .closed _ buf | .take _ buf | .advance _ buf => buf

/-- The bytes taken that are still in the pipe. -/
def ReadPc.ahead : ReadPc → ℕ
  | .advance .. => 1
  | _ => 0

/-- The page mappings that a `devpipe_close` has yet to remove. -/
def ReadPc.leaving : ReadPc → ℕ
  | .unmap => 1
  | _ => 0

/-- What the reader has found out, when `g` bytes have gone out of the pipe and `w` into it. -/
def ReadPc.Knows (g w rfd : ℕ) : ReadPc → Prop
  | .out | .unmap => True
  | .loop .. | .empty .. => 0 < rfd
  | .closed _ buf => 0 < rfd ∧ buf = []
  | .take .. | .advance .. => 0 < rfd ∧ g < w

def WritePc.leaving : WritePc → ℕ
  | .unmap => 1
  | _ => 0

/-- The bytes of the present call that the writer has still to put into the pipe. -/
def WritePc.rest : WritePc → List (BitVec 8)
  | .out | .unmap => []
  | .loop buf i | .full buf i | .closed buf i | .store buf i | .advance buf i => buf.drop i

/-- What the writer has found out; the byte it puts next may be in its cell already. -/
def WritePc.Knows (g w : ℕ) (p : Pipe) : WritePc → Prop
  | .out | .unmap | .loop .. => True
  | .full buf i | .closed buf i => i < buf.length
  | .store buf i => i < buf.length ∧ w < g + 32
  | .advance buf i => i < buf.length ∧ w < g + 32 ∧ p.pBuf (w % 32 : ℕ) = buf.getD i 0#8

/-- The reader makes room only. -/
theorem WritePc.Knows.more {r : WritePc} {g g' w : ℕ} {p : Pipe} (h : r.Knows g w p) (hg : g ≤ g') :
    r.Knows g' w p := by
  cases r with
  | out | unmap | loop => trivial
  | full | closed => exact h
  | store buf i => exact ⟨h.1, by have := h.2; omega⟩
  | advance buf i => exact ⟨h.1, by have := h.2.1; omega, h.2.2⟩

/-- The bytes in the pipe are the ones that were passed at their places, and the next ones
are those the writer has at hand. -/
structure PipeLive (es : List PipeEvent) (s : PipeSys) : Prop where
  len : puts es ≤ (passed es).length
  cells : ∀ j, gots es ≤ j → j < puts es → (passed es)[j]? = some (s.pipe.pBuf (j % 32 : ℕ))
  rest : (passed es).drop (puts es) = s.writer.rest

/-- The pipe after `es`, as long as its positions are small. -/
structure PipeInv (es : List PipeEvent) (s : PipeSys) : Prop where
  rpos : s.pipe.pRpos = BitVec.ofNat 32 (gots es)
  wpos : s.pipe.pWpos = BitVec.ofNat 32 (puts es)
  le : gots es ≤ puts es
  cap : puts es ≤ gots es + 32
  len : gots es + s.reader.ahead ≤ (passed es).length
  taken : returned es ++ s.reader.taken = (passed es).take (gots es + s.reader.ahead)
  data : s.data = s.rfd + s.wfd + s.reader.leaving + s.writer.leaving
  reader : s.reader.Knows (gots es) (puts es) s.rfd
  writer : s.writer.Knows (gots es) (puts es) s.pipe
  -- once a write has been cut short there is nobody left to read
  live : PipeLive es s ∨ (s.rfd = 0 ∧ s.reader = .out)

section Invariant

variable {s s' : PipeSys} {es : List PipeEvent} {e : PipeEvent}

theorem PipeStart.inv (h : PipeStart s) : PipeInv [] s := by
  obtain ⟨hr, hw, hd, hread, hwrite⟩ := h
  refine ⟨hr, hw, le_refl _, Nat.zero_le _, ?_, ?_, ?_, ?_, ?_, Or.inl ⟨Nat.zero_le _, ?_, ?_⟩⟩
  · rw [hread]
    exact Nat.zero_le _
  · rw [hread]
    rfl
  · rw [hread, hwrite, hd]
    rfl
  · rw [hread]
    trivial
  · rw [hwrite]
    trivial
  · intro j _ hj
    exact absurd hj (Nat.not_lt_zero j)
  · rw [hwrite]
    rfl

/-- The reader is not out, so the pipe is alive. -/
theorem PipeInv.alive {r : ReadPc} (h : PipeInv es s) (hread : s.reader = r) (hin : r ≠ .out) :
    PipeLive es s := h.live.resolve_right fun hd => hin (hread.symm.trans hd.2)

/-- The events that are not about bytes. -/
structure Silent (e : PipeEvent) : Prop where
  passed : passed [e] = []
  puts : puts [e] = 0
  gots : gots [e] = 0

theorem Silent.passed_snoc (h : Silent e) : Sisop.passed (es ++ [e]) = Sisop.passed es := by
  rw [Sisop.passed_snoc, h.passed, List.append_nil]

theorem Silent.puts_snoc (h : Silent e) : Sisop.puts (es ++ [e]) = Sisop.puts es := by
  rw [Sisop.puts_snoc, h.puts, Nat.add_zero]

theorem Silent.gots_snoc (h : Silent e) : Sisop.gots (es ++ [e]) = Sisop.gots es := by
  rw [Sisop.gots_snoc, h.gots, Nat.add_zero]

theorem PipeInv.data_reader {r : ReadPc} (h : PipeInv es s) (hread : s.reader = r) :
    s.data = s.rfd + s.wfd + r.leaving + s.writer.leaving := hread ▸ h.data

theorem PipeInv.data_writer {r : WritePc} (h : PipeInv es s) (hwrite : s.writer = r) :
    s.data = s.rfd + s.wfd + s.reader.leaving + r.leaving := hwrite ▸ h.data

/-- A step of the reader that leaves the pipe as it is. -/
theorem PipeInv.setReader {r₀ r : ReadPc} {rfd data : ℕ} (h : PipeInv es s) (hread : s.reader = r₀)
    (he : Silent e) (ht : returned [e] ++ r.taken = r₀.taken) (ha : r.ahead = r₀.ahead)
    (hd : data = rfd + s.wfd + r.leaving + s.writer.leaving)
    (hk : r.Knows (gots es) (puts es) rfd) (hlive : PipeLive es s ∨ rfd = 0 ∧ r = .out) :
    PipeInv (es ++ [e]) { s with rfd := rfd, data := data, reader := r } := by
  refine ⟨?_, ?_, ?_, ?_, ?_, ?_, ?_, ?_, ?_, hlive.imp_left fun hl => ⟨?_, ?_, ?_⟩⟩
  all_goals simp only [he.passed_snoc, he.puts_snoc, he.gots_snoc]
  · exact h.rpos
  · exact h.wpos
  · exact h.le
  · exact h.cap
  · rw [ha, ← hread]
    exact h.len
  · rw [returned_snoc, List.append_assoc, ht, ha, ← hread]
    exact h.taken
  · exact hd
  · exact hk
  · exact h.writer
  · exact hl.len
  · exact hl.cells
  · exact hl.rest

/-- The reader copies the next byte. -/
theorem PipeInv.takeByte {n : ℕ} {buf : List (BitVec 8)} (h : PipeInv es s)
    (hb : puts es < 2^31) (hread : s.reader = .take n buf) : PipeInv (es ++ [.tau]) { s with
      reader := .advance n (buf ++ [s.pipe.pBuf (bufIndex s.pipe.pRpos)]) } := by
  have he : Silent .tau := ⟨rfl, rfl, rfl⟩
  have hlive := h.alive hread nofun
  obtain ⟨hfd, hlt⟩ : 0 < s.rfd ∧ gots es < puts es := by
    have hr := h.reader
    rwa [hread] at hr
  refine ⟨?_, ?_, ?_, ?_, ?_, ?_, ?_, ?_, ?_, Or.inl ⟨?_, ?_, ?_⟩⟩
  all_goals simp only [he.passed_snoc, he.puts_snoc, he.gots_snoc]
  · exact h.rpos
  · exact h.wpos
  · exact h.le
  · exact h.cap
  · exact le_trans hlt hlive.len
  · -- the byte is the one that was passed at this place
    have ht := h.taken
    rw [hread] at ht
    change returned es ++ buf = (passed es).take (gots es + 0) at ht
    have hcell := hlive.cells _ (le_refl _) hlt
    rw [h.rpos, bufIndex_ofNat (lt_trans hlt hb), returned_snoc]
    change returned es ++ [] ++ (buf ++ [_]) = (passed es).take (gots es + 1)
    rw [List.append_nil, ← List.append_assoc, ht, List.take_add_one, hcell]
    rfl
  · have hd := h.data
    rw [hread] at hd
    exact hd
  · exact ⟨hfd, hlt⟩
  · exact h.writer
  · exact hlive.len
  · exact hlive.cells
  · exact hlive.rest

/-- The reader takes the byte out of the pipe. -/
theorem PipeInv.removeByte {n : ℕ} {buf : List (BitVec 8)} (h : PipeInv es s)
    (hread : s.reader = .advance n buf) : PipeInv (es ++ [.got]) { s with
      pipe.pRpos := s.pipe.pRpos + 1#32, reader := .loop n buf } := by
  have hlive := h.alive hread nofun
  obtain ⟨hfd, hlt⟩ : 0 < s.rfd ∧ gots es < puts es := by
    have hr := h.reader
    rwa [hread] at hr
  have hp' : passed (es ++ [.got]) = passed es := by rw [passed_snoc]; exact List.append_nil _
  have hw' : puts (es ++ [.got]) = puts es := puts_snoc
  have hg' : gots (es ++ [.got]) = gots es + 1 := gots_snoc
  have hcap := h.cap
  refine ⟨?_, ?_, ?_, ?_, ?_, ?_, ?_, ?_, ?_, Or.inl ⟨?_, ?_, ?_⟩⟩
  all_goals simp only [hp', hw', hg']
  · rw [h.rpos]
    exact (BitVec.ofNat_add ..).symm
  · exact h.wpos
  · exact hlt
  · omega
  · exact le_trans hlt hlive.len
  · have ht := h.taken
    rw [hread] at ht
    rw [returned_snoc]
    change returned es ++ [] ++ buf = (passed es).take (gots es + 1)
    rw [List.append_nil]
    exact ht
  · have hd := h.data
    rw [hread] at hd
    exact hd
  · exact hfd
  · exact h.writer.more (Nat.le_succ _)
  · exact hlive.len
  · intro j hj hjw
    exact hlive.cells j (by omega) hjw
  · exact hlive.rest

theorem PipeInv.readerStep (h : PipeInv es s) (hb : puts es < 2^31)
    (hs : s.readerStep = some (e, s')) : PipeInv (es ++ [e]) s' := by
  have hr := h.reader
  unfold PipeSys.readerStep at hs
  cases hread : s.reader with
  | out =>
    rw [hread] at hs
    cases hs
  | loop n buf =>
    have hlive := h.alive hread nofun
    have hd := h.data_reader hread
    rw [hread] at hs hr
    dsimp only at hs
    split at hs <;> cases hs
    · exact h.setReader hread ⟨rfl, rfl, rfl⟩ rfl rfl hd hr (.inl hlive)
    · exact h.setReader hread ⟨rfl, rfl, rfl⟩ (returned_readRet buf) rfl hd trivial (.inl hlive)
  | empty n buf =>
    have hlive := h.alive hread nofun
    have hd := h.data_reader hread
    rw [hread] at hs hr
    dsimp only at hs
    split at hs
    · split at hs <;> cases hs
      · exact h.setReader hread ⟨rfl, rfl, rfl⟩ (returned_readRet buf) rfl hd trivial (.inl hlive)
      · next hn =>
        have hbuf : buf = [] := List.length_eq_zero_iff.mp (Nat.eq_zero_of_not_pos hn)
        exact h.setReader hread ⟨rfl, rfl, rfl⟩ rfl rfl hd ⟨hr, hbuf⟩ (.inl hlive)
    · next hne =>
      cases hs
      have hlt : gots es < puts es := by
        apply lt_of_le_of_ne h.le
        intro heq
        apply hne
        rw [Pipe.isEmpty, h.rpos, h.wpos, heq]
      exact h.setReader hread ⟨rfl, rfl, rfl⟩ rfl rfl hd ⟨hr, hlt⟩ (.inl hlive)
  | closed n buf =>
    have hlive := h.alive hread nofun
    have hd := h.data_reader hread
    rw [hread] at hs hr
    obtain ⟨hfd, rfl⟩ := hr
    dsimp only at hs
    split at hs <;> cases hs
    · exact h.setReader hread ⟨rfl, rfl, rfl⟩ rfl rfl hd trivial (.inl hlive)
    · exact h.setReader hread ⟨rfl, rfl, rfl⟩ rfl rfl hd hfd (.inl hlive)
  | take n buf =>
    rw [hread] at hs
    cases hs
    exact h.takeByte hb hread
  | advance n buf =>
    rw [hread] at hs
    cases hs
    exact h.removeByte hread
  | unmap =>
    have hlive := h.alive hread nofun
    have hd : s.data = s.rfd + s.wfd + 1 + s.writer.leaving := h.data_reader hread
    rw [hread] at hs
    cases hs
    have hd' : s.data - 1 = s.rfd + s.wfd + 0 + s.writer.leaving := by omega
    exact h.setReader hread ⟨rfl, rfl, rfl⟩ rfl rfl hd' trivial (.inl hlive)

/-- A step of the writer that leaves the pipe as it is. -/
theorem PipeInv.setWriter {r : WritePc} {wfd data : ℕ} (h : PipeInv es s) (hw : puts [e] = 0)
    (hg : gots [e] = 0) (hr : returned [e] = []) (hd : data = s.rfd + wfd + s.reader.leaving + r.leaving)
    (hk : r.Knows (gots es) (puts es) s.pipe)
    (hlive : (PipeLive es s ∧ s.writer.rest ++ passed [e] = r.rest) ∨ s.rfd = 0 ∧ s.reader = .out) :
    PipeInv (es ++ [e]) { s with wfd := wfd, data := data, writer := r } := by
  have hw' : puts (es ++ [e]) = puts es := by rw [puts_snoc, hw, Nat.add_zero]
  have hg' : gots (es ++ [e]) = gots es := by rw [gots_snoc, hg, Nat.add_zero]
  have hr' : returned (es ++ [e]) = returned es := by rw [returned_snoc, hr, List.append_nil]
  refine ⟨?_, ?_, ?_, ?_, ?_, ?_, ?_, ?_, ?_, hlive.imp_left fun hl => ⟨?_, ?_, ?_⟩⟩
  all_goals simp only [hw', hg', hr', passed_snoc]
  · exact h.rpos
  · exact h.wpos
  · exact h.le
  · exact h.cap
  · rw [List.length_append]
    exact le_trans h.len (Nat.le_add_right _ _)
  · rw [List.take_append_of_le_length h.len]
    exact h.taken
  · exact hd
  · exact h.reader
  · exact hk
  · rw [List.length_append]
    exact le_trans hl.1.len (Nat.le_add_right _ _)
  · intro j hj hjw
    rw [List.getElem?_append_left (lt_of_lt_of_le hjw hl.1.len)]
    exact hl.1.cells j hj hjw
  · rw [List.drop_append_of_le_length hl.1.len, hl.1.rest]
    exact hl.2

/-- The writer puts its next byte into a free cell. -/
theorem PipeInv.storeByte {buf : List (BitVec 8)} {i : ℕ} (h : PipeInv es s) (hb : puts es < 2^31)
    (hwrite : s.writer = .store buf i) : PipeInv (es ++ [.tau]) { s with
      pipe.pBuf := Function.update s.pipe.pBuf (bufIndex s.pipe.pWpos) (buf.getD i 0#8)
      writer := .advance buf i } := by
  have he : Silent .tau := ⟨rfl, rfl, rfl⟩
  obtain ⟨hi, hlt⟩ : i < buf.length ∧ puts es < gots es + 32 := by
    have hk := h.writer
    rwa [hwrite] at hk
  rw [h.wpos, bufIndex_ofNat hb]
  refine ⟨?_, ?_, ?_, ?_, ?_, ?_, ?_, ?_, ?_, h.live.imp_left fun hl => ⟨?_, ?_, ?_⟩⟩
  all_goals simp only [he.passed_snoc, he.puts_snoc, he.gots_snoc]
  · exact h.rpos
  · exact h.wpos
  · exact h.le
  · exact h.cap
  · exact h.len
  · rw [returned_snoc]
    change returned es ++ [] ++ s.reader.taken = _
    rw [List.append_nil]
    exact h.taken
  · have hd := h.data_writer hwrite
    exact hd
  · exact h.reader
  · exact ⟨hi, hlt, Function.update_self ..⟩
  · exact hl.len
  · intro j hj hjw
    rw [Function.update_of_ne]
    · exact hl.cells j hj hjw
    · exact fun heq => ring_free hj hjw hlt (Int.ofNat_inj.mp heq)
  · rw [hl.rest, hwrite]
    rfl

/-- The byte is now in the pipe. -/
theorem PipeInv.addByte {buf : List (BitVec 8)} {i : ℕ} (h : PipeInv es s)
    (hwrite : s.writer = .advance buf i) : PipeInv (es ++ [.put]) { s with
      pipe.pWpos := s.pipe.pWpos + 1#32, writer := .loop buf (i + 1) } := by
  obtain ⟨hi, hlt, hcell⟩ : i < buf.length ∧ puts es < gots es + 32 ∧
      s.pipe.pBuf (puts es % 32 : ℕ) = buf.getD i 0#8 := by
    have hk := h.writer
    rwa [hwrite] at hk
  have hp' : passed (es ++ [.put]) = passed es := by rw [passed_snoc]; exact List.append_nil _
  have hw' : puts (es ++ [.put]) = puts es + 1 := puts_snoc
  have hg' : gots (es ++ [.put]) = gots es := gots_snoc
  have hr' : returned (es ++ [.put]) = returned es := by rw [returned_snoc]; exact List.append_nil _
  have hle := h.le
  refine ⟨?_, ?_, ?_, ?_, ?_, ?_, ?_, ?_, ?_, h.live.imp_left fun hl => ?_⟩
  all_goals simp only [hp', hw', hg', hr']
  · exact h.rpos
  · rw [h.wpos]
    exact (BitVec.ofNat_add ..).symm
  · omega
  · omega
  · exact h.len
  · exact h.taken
  · have hd := h.data_writer hwrite
    exact hd
  · have hr := h.reader
    cases hread : s.reader with
    | out | unmap => trivial
    | loop | empty | closed => rwa [hread] at hr
    | take | advance =>
      rw [hread] at hr
      exact ⟨hr.1, Nat.lt_succ_of_lt hr.2⟩
  · trivial
  · -- it is the first one of those that the writer had at hand
    have hrest := hl.rest
    rw [hwrite] at hrest
    change (passed es).drop (puts es) = buf.drop i at hrest
    have hget : (passed es)[puts es]? = some (buf.getD i 0#8) := by
      have h0 := congrArg (fun l => l[0]?) hrest
      simp only [List.getElem?_drop, Nat.add_zero] at h0
      rw [h0, List.getD_eq_getElem?_getD, List.getElem?_eq_getElem hi]
      rfl
    refine ⟨?_, ?_, ?_⟩
    all_goals simp only [hp', hw', hg']
    · exact (List.getElem?_eq_some_iff.mp hget).1
    · intro j hj hjw
      rcases Nat.lt_succ_iff_lt_or_eq.mp hjw with hjw | rfl
      · exact hl.cells j hj hjw
      · rw [hget, hcell]
    · rw [← List.drop_drop, hrest, List.drop_drop]
      rfl

theorem PipeInv.writerStep (h : PipeInv es s) (hb : puts es < 2^31)
    (hs : s.writerStep = some (e, s')) : PipeInv (es ++ [e]) s' := by
  have hk := h.writer
  -- the bytes at hand stay the same
  have hlive {r : WritePc} (hrest : s.writer.rest = r.rest) :
      (PipeLive es s ∧ s.writer.rest ++ [] = r.rest) ∨ s.rfd = 0 ∧ s.reader = .out :=
    h.live.imp_left fun hl => ⟨hl, (List.append_nil _).trans hrest⟩
  have hgb : gots es < 2^31 := lt_of_le_of_lt h.le hb
  unfold PipeSys.writerStep at hs
  cases hwrite : s.writer with
  | out =>
    rw [hwrite] at hs
    cases hs
  | loop buf i =>
    have hd := h.data_writer hwrite
    have hrest : s.writer.rest = buf.drop i := by
      rw [hwrite]
      rfl
    rw [hwrite] at hs
    dsimp only at hs
    split at hs <;> cases hs
    · next hi => exact h.setWriter rfl rfl rfl hd hi (hlive hrest)
    · next hi =>
      have hnil : buf.drop i = [] := List.drop_eq_nil_of_le (Nat.le_of_not_lt hi)
      exact h.setWriter rfl rfl rfl hd trivial (hlive (hrest.trans hnil))
  | full buf i =>
    have hd := h.data_writer hwrite
    have hrest : s.writer.rest = buf.drop i := by
      rw [hwrite]
      rfl
    rw [hwrite] at hs hk
    dsimp only at hs
    split at hs <;> cases hs
    · exact h.setWriter rfl rfl rfl hd hk (hlive hrest)
    · next hfull =>
      have hlt : puts es < gots es + 32 := by
        rw [Pipe.isFull, h.rpos, h.wpos, ofNat_add_le hgb hb] at hfull
        omega
      exact h.setWriter rfl rfl rfl hd ⟨hk, hlt⟩ (hlive hrest)
  | closed buf i =>
    have hd : s.data = s.rfd + s.wfd + s.reader.leaving + 0 := h.data_writer hwrite
    have hrest : s.writer.rest = buf.drop i := by
      rw [hwrite]
      rfl
    rw [hwrite] at hs hk
    dsimp only at hs
    split at hs <;> cases hs
    · next heq =>
      -- the reader has closed its last descriptor
      have hrfd : s.rfd = 0 := by omega
      have hleave : s.reader.leaving = 0 := by omega
      have hout : s.reader = .out := by
        have hr := h.reader
        cases hread : s.reader with
        | out => rfl
        | unmap =>
          rw [hread] at hleave
          cases hleave
        | loop | empty =>
          rw [hread] at hr
          exact absurd hr (by rw [hrfd]; exact Nat.lt_irrefl 0)
        | closed | take | advance =>
          rw [hread] at hr
          exact absurd hr.1 (by rw [hrfd]; exact Nat.lt_irrefl 0)
      exact h.setWriter rfl rfl rfl hd trivial (.inr ⟨hrfd, hout⟩)
    · exact h.setWriter rfl rfl rfl hd hk (hlive hrest)
  | store buf i =>
    rw [hwrite] at hs
    cases hs
    exact h.storeByte hb hwrite
  | advance buf i =>
    rw [hwrite] at hs
    cases hs
    exact h.addByte hwrite
  | unmap =>
    have hd : s.data = s.rfd + s.wfd + s.reader.leaving + 1 := h.data_writer hwrite
    have hrest : s.writer.rest = [] := by
      rw [hwrite]
      rfl
    rw [hwrite] at hs
    cases hs
    have hd' : s.data - 1 = s.rfd + s.wfd + s.reader.leaving + 0 := by omega
    exact h.setWriter rfl rfl rfl hd' trivial (hlive hrest)

/-- One step of either environment. -/
theorem PipeInv.step (h : PipeInv es s) (hb : puts es < 2^31) (hs : PipeStep s e s') :
    PipeInv (es ++ [e]) s' := by
  cases hs with
  | read n hread hfd =>
    have hlive : PipeLive es s := h.live.resolve_right fun hd => absurd hd.1 (by omega)
    have hd := h.data_reader hread
    exact h.setReader hread ⟨rfl, rfl, rfl⟩ rfl rfl hd hfd (.inl hlive)
  | closeRead hread hfd =>
    have hlive : PipeLive es s := h.live.resolve_right fun hd => absurd hd.1 (by omega)
    have hd : s.data = s.rfd + s.wfd + 0 + s.writer.leaving := h.data_reader hread
    have hd' : s.data = s.rfd - 1 + s.wfd + 1 + s.writer.leaving := by omega
    exact h.setReader hread ⟨rfl, rfl, rfl⟩ rfl rfl hd' trivial (.inl hlive)
  | reader hs => exact h.readerStep hb hs
  | write buf hwrite hfd =>
    have hd := h.data_writer hwrite
    refine h.setWriter rfl rfl rfl hd trivial (h.live.imp_left fun hl => ⟨hl, ?_⟩)
    rw [hwrite]
    exact List.append_nil buf
  | closeWrite hwrite hfd =>
    have hd : s.data = s.rfd + s.wfd + s.reader.leaving + 0 := h.data_writer hwrite
    have hd' : s.data = s.rfd + (s.wfd - 1) + s.reader.leaving + 1 := by omega
    refine h.setWriter rfl rfl rfl hd' trivial (h.live.imp_left fun hl => ⟨hl, ?_⟩)
    rw [hwrite]
    rfl
  | writer hs => exact h.writerStep hb hs

/-- The pipe after any run, as long as the positions stay small. -/
theorem pipeInv_of_run {s₀ : PipeSys} (h₀ : PipeStart s₀) (h : Run PipeStep s₀ es s)
    (hb : puts es < 2^31) : PipeInv es s := by
  revert hb
  apply h.invariant (I := fun es s => puts es < 2^31 → PipeInv es s) (fun _ => h₀.inv)
  intro es e t u ih hs hb
  have hb' : puts es < 2^31 := by
    rw [puts_snoc] at hb
    omega
  exact (ih hb').step hb' hs

/-- Only the writer changes the buffer, and it fills a free cell. -/
theorem PipeInv.keeps_unread {j : ℕ} (h : PipeInv es s) (hb : puts es < 2^31) (hs : PipeStep s e s')
    (hj : gots es ≤ j) (hjw : j < puts es) : s'.pipe.pBuf (j % 32 : ℕ) = s.pipe.pBuf (j % 32 : ℕ) := by
  cases hs with
  | read | closeRead | write | closeWrite => rfl
  | reader hs =>
    unfold PipeSys.readerStep at hs
    split at hs
    all_goals (repeat' split at hs) <;> cases hs
    all_goals rfl
  | writer hs =>
    have hk := h.writer
    unfold PipeSys.writerStep at hs
    cases hwrite : s.writer with
    | store buf i =>
      rw [hwrite] at hs hk
      cases hs
      apply Function.update_of_ne
      rw [h.wpos, bufIndex_ofNat hb]
      exact fun heq => ring_free hj hjw hk.2 (Int.ofNat_inj.mp heq)
    | out | loop | full | closed | advance | unmap =>
      rw [hwrite] at hs
      dsimp only at hs
      (repeat' split at hs) <;> cases hs
      all_goals rfl

/-- The pipe is a queue of bytes. -/
theorem pipe_fifo {s₀ : PipeSys} (h₀ : PipeStart s₀) (h : Run PipeStep s₀ es s) (hb : puts es < 2^31) :
    (0 ≤ s.pipe.pWpos.toInt - s.pipe.pRpos.toInt ∧
      s.pipe.pWpos.toInt - s.pipe.pRpos.toInt ≤ pipebufsiz) ∧
    (∀ e s', PipeStep s e s' → ∀ j : ℕ, s.pipe.pRpos.toNat ≤ j → j < s.pipe.pWpos.toNat →
      s'.pipe.pBuf (j % pipebufsiz : ℕ) = s.pipe.pBuf (j % pipebufsiz : ℕ)) ∧
    returned es <+: passed es := by
  have hi := pipeInv_of_run h₀ h hb
  have hle := hi.le
  have hcap := hi.cap
  have hgb : gots es < 2^31 := lt_of_le_of_lt hle hb
  rw [hi.rpos, hi.wpos, toInt_ofNat_of_lt hgb, toInt_ofNat_of_lt hb, toNat_ofNat_of_lt hgb,
    toNat_ofNat_of_lt hb]
  refine ⟨⟨by omega, show _ ≤ ((32 : ℕ) : ℤ) by omega⟩, fun e s' hs j hj hjw => hi.keeps_unread hb hs hj hjw, ?_⟩
  calc returned es <+: returned es ++ s.reader.taken := List.prefix_append ..
    _ = (passed es).take (gots es + s.reader.ahead) := hi.taken
    _ <+: passed es := List.take_prefix ..

section Runs

variable {r : ReadPc} {w : WritePc} {p : Pipe} {f : ℤ → BitVec 8} {a b : ℕ}

theorem run_write (hf : f = Function.update (fun _ => 0#8) (bufIndex 0#32) (7#8)) :
    Run PipeStep ⟨⟨0#32, 0#32, fun _ => 0#8⟩, 1, 1, 2, r, .out⟩
      [.write [7#8], .tau, .tau, .tau, .put, .writeRet 1] ⟨⟨0#32, 1#32, f⟩, 1, 1, 2, r, .out⟩ := by
  rw [hf]
  exact (((((Run.single (.write [7#8] rfl Nat.one_pos)).snoc (.writer rfl)).snoc (.writer rfl)).snoc
    (.writer rfl)).snoc (.writer rfl)).snoc (.writer rfl)

theorem run_read (hf : f (bufIndex 0#32) = 7#8) :
    Run PipeStep ⟨⟨0#32, 1#32, f⟩, 1, 1, 2, .out, w⟩
      [.read 1, .tau, .tau, .tau, .got, .readRet [7#8]] ⟨⟨1#32, 1#32, f⟩, 1, 1, 2, .out, w⟩ := by
  rw [← hf]
  exact (((((Run.single (.read 1 rfl Nat.one_pos)).snoc (.reader rfl)).snoc (.reader rfl)).snoc
    (.reader rfl)).snoc (.reader rfl)).snoc (.reader rfl)

theorem run_closeWrite : Run PipeStep ⟨p, 1, 1, 2, r, .out⟩ [.closeWrite, .tau]
    ⟨p, 1, 0, 1, r, .out⟩ := (Run.single (.closeWrite rfl Nat.one_pos)).snoc (.writer rfl)

theorem run_readTest (p : Pipe) : Run PipeStep ⟨p, 1, a, b, .out, w⟩ [.read 1, .tau] ⟨p, 1, a, b, .empty 1 [], w⟩ :=
  (Run.single (.read 1 rfl Nat.one_pos)).snoc (.reader rfl)

theorem run_readEmpty (p : Pipe) (hp : p.isEmpty) : Run PipeStep ⟨p, 1, a, b, .out, w⟩
    [.read 1, .tau, .tau] ⟨p, 1, a, b, .closed 1 [], w⟩ := by
  have hs : PipeSys.readerStep ⟨p, 1, a, b, .empty 1 [], w⟩ =
      some (.tau, ⟨p, 1, a, b, .closed 1 [], w⟩) := if_pos hp
  exact (run_readTest p).snoc (.reader hs)

/-- A new pipe between two environments. -/
theorem pipeStart_one : PipeStart ⟨⟨0#32, 0#32, fun _ => 0#8⟩, 1, 1, 2, .out, .out⟩ :=
  ⟨rfl, rfl, rfl, rfl, rfl⟩

end Runs

/-- A byte goes through the pipe. -/
theorem pipe_fifo_byte : ∃ s₀ s : PipeSys, ∃ es, PipeStart s₀ ∧ Run PipeStep s₀ es s ∧
    returned es = [7#8] ∧ returned es <+: passed es := by
  have h := (run_write rfl).trans (run_read (Function.update_self ..))
  exact ⟨_, _, _, pipeStart_one, h, rfl, (pipe_fifo pipeStart_one h (by decide)).2.2⟩

/-- A read of some bytes that returns none has found the pipe closed. -/
theorem closed_of_eof (hn : 0 < s.reader.wanted) (hs : s.readerStep = some (.readRet [], s')) :
    ∃ n buf, s.reader = .closed n buf := by
  unfold PipeSys.readerStep at hs
  cases hread : s.reader with
  | closed n buf => exact ⟨n, buf, rfl⟩
  | loop n buf =>
    rw [hread] at hs hn
    change 0 < n at hn
    dsimp only at hs
    split at hs <;> cases hs
    next hlen => exact absurd hn (by simpa using hlen)
  | empty n buf =>
    rw [hread] at hs
    dsimp only at hs
    (repeat' split at hs) <;> cases hs
    next hlen => exact absurd hlen (by decide)
  | out | unmap | take | advance =>
    rw [hread] at hs
    cases hs

/-- A step of the writer. -/
def WriterStep (s : PipeSys) (e : PipeEvent) (s' : PipeSys) : Prop := PipeStep s e s' ∧ s'.reader = s.reader

/-- The empty test of the present call of `devpipe_read` in which the reader goes on to the closed test:
it is made in `s₁`, after `es₁`, and only the writer has taken steps since, which are `es₂`. -/
structure EmptyTest (s₀ : PipeSys) (es₁ : List PipeEvent) (s₁ : PipeSys) (es₂ : List PipeEvent) (s : PipeSys) : Prop where
  before : Run PipeStep s₀ es₁ s₁
  empty : s₁.pipe.isEmpty
  since : ∃ n, s₁.reader = .empty n [] ∧ Run WriterStep { s₁ with reader := .closed n [] } es₂ s

/-- Whatever happens from `s` on, every byte that is ever put into the pipe has been returned in `es`. -/
def AllReturned (es : List PipeEvent) (s : PipeSys) : Prop :=
  ∀ es' t, Run PipeStep s es' t → returned es = (passed (es ++ es')).take (puts (es ++ es'))

/-- Every closed test has an empty test before it. -/
theorem emptyTest_of_run {s₀ : PipeSys} {n : ℕ} {buf : List (BitVec 8)} (h₀ : PipeStart s₀) (h : Run PipeStep s₀ es s)
    (hread : s.reader = .closed n buf) : ∃ es₁ s₁ es₂, EmptyTest s₀ es₁ s₁ es₂ s ∧ es = es₁ ++ .tau :: es₂ := by
  induction h with
  | nil =>
    rw [h₀.reader] at hread
    cases hread
  | @snoc es e t u h hs ih =>
    by_cases hsame : u.reader = t.reader
    · obtain ⟨es₁, s₁, es₂, ⟨hbefore, hempty, n, htest, hsince⟩, heq⟩ := ih (hsame.symm.trans hread)
      refine ⟨es₁, s₁, es₂ ++ [e], ⟨hbefore, hempty, n, htest, hsince.snoc ⟨hs, hsame⟩⟩, ?_⟩
      rw [heq, List.append_assoc, List.cons_append]
    · refine ⟨es, t, [], ?_⟩
      cases hs with
      | read | closeRead => cases hread
      | write | closeWrite => exact absurd rfl hsame
      | writer hs =>
        refine absurd ?_ hsame
        unfold PipeSys.writerStep at hs
        split at hs
        all_goals (repeat' split at hs) <;> cases hs
        all_goals rfl
      | reader hs =>
        unfold PipeSys.readerStep at hs
        cases htest : t.reader with
        | empty m got =>
          rw [htest] at hs
          dsimp only at hs
          split at hs
          next hempty =>
            split at hs
            next =>
              cases hs
              cases hread
            next hlen =>
              obtain rfl : got = [] := List.eq_nil_of_length_eq_zero (Nat.eq_zero_of_not_pos hlen)
              cases hs
              exact ⟨⟨h, hempty, m, htest, .nil⟩, rfl⟩
          next =>
            cases hs
            cases hread
        | out | loop | closed | take | advance | unmap =>
          rw [htest] at hs
          dsimp only at hs
          (repeat' split at hs) <;> cases hs
          all_goals cases hread

/-- The writer's steps take nothing out of the pipe. -/
theorem WriterStep.gots (hs : WriterStep s e s') : gots [e] = 0 := by
  obtain ⟨hs, hsame⟩ := hs
  cases hs with
  | read | closeRead | write | closeWrite => rfl
  | writer hs =>
    unfold PipeSys.writerStep at hs
    split at hs
    all_goals (repeat' split at hs) <;> cases hs
    all_goals rfl
  | reader hs =>
    unfold PipeSys.readerStep at hs
    cases hread : s.reader with
    | advance n buf =>
      rw [hread] at hs
      cases hs
      rw [hread] at hsame
      cases hsame
    | out | loop | empty | closed | take | unmap =>
      rw [hread] at hs
      dsimp only at hs
      (repeat' split at hs) <;> cases hs
      all_goals rfl

/-- A writer in a call holds a descriptor. -/
theorem writer_open {s₀ : PipeSys} (h₀ : PipeStart s₀) (h : Run PipeStep s₀ es s) :
    s.writer = .out ∨ s.writer = .unmap ∨ 0 < s.wfd := by
  apply h.invariant (I := fun _ s => s.writer = .out ∨ s.writer = .unmap ∨ 0 < s.wfd) (Or.inl h₀.writer)
  intro _ e t u ih hs
  cases hs with
  | read | closeRead => exact ih
  | write buf hwrite hfd => exact Or.inr (Or.inr hfd)
  | closeWrite => exact Or.inr (Or.inl rfl)
  | reader hs =>
    unfold PipeSys.readerStep at hs
    split at hs
    all_goals (repeat' split at hs) <;> cases hs
    all_goals exact ih
  | writer hs =>
    unfold PipeSys.writerStep at hs
    cases hwrite : t.writer with
    | out =>
      rw [hwrite] at hs
      cases hs
    | unmap =>
      rw [hwrite] at hs
      cases hs
      exact Or.inl rfl
    | loop | full | closed | store | advance =>
      rw [hwrite] at hs ih
      have hfd : 0 < t.wfd := (ih.resolve_left nofun).resolve_left nofun
      dsimp only at hs
      (repeat' split at hs) <;> cases hs
      all_goals exact Or.inr (Or.inr hfd)

/-- Without a descriptor the writer does nothing. -/
theorem passed_puts_of_gone (h : Run PipeStep s es s') (hw : s.writer = .out) (hfd : s.wfd = 0) :
    passed es = [] ∧ puts es = 0 := by
  have hall : (s'.writer = .out ∧ s'.wfd = 0) ∧ passed es = [] ∧ puts es = 0 := by
    apply h.invariant (I := fun es s => (s.writer = .out ∧ s.wfd = 0) ∧ passed es = [] ∧ puts es = 0)
      ⟨⟨hw, hfd⟩, rfl, rfl⟩
    rintro es e t u ⟨⟨hw, hfd⟩, hp, hn⟩ hs
    rw [passed_snoc, puts_snoc, hp, hn]
    cases hs with
    | read | closeRead => exact ⟨⟨hw, hfd⟩, rfl, rfl⟩
    | write _ _ h | closeWrite _ h => exact absurd h (by omega)
    | writer hs =>
      unfold PipeSys.writerStep at hs
      rw [hw] at hs
      cases hs
    | reader hs =>
      unfold PipeSys.readerStep at hs
      split at hs
      all_goals (repeat' split at hs) <;> cases hs
      all_goals exact ⟨⟨hw, hfd⟩, rfl, rfl⟩
  exact hall.2

/-- When the writer is gone, no byte comes any more. -/
theorem allReturned_iff (hw : s.writer = .out) (hfd : s.wfd = 0) :
    AllReturned es s ↔ returned es = (passed es).take (puts es) := by
  constructor
  · intro hall
    have heq := hall [] s .nil
    rwa [List.append_nil] at heq
  · intro heq es' t hrun
    obtain ⟨hp, hz⟩ := passed_puts_of_gone hrun hw hfd
    have hpass : passed (es ++ es') = passed es :=
      (List.flatMap_append.trans (congrArg _ hp)).trans (List.append_nil _)
    have hput : puts (es ++ es') = puts es :=
      List.count_append.trans (by rw [show List.count _ es' = 0 from hz, Nat.add_zero]; rfl)
    rw [hpass, hput, heq]

/-- The closed test finds that the writer is gone. -/
theorem PipeInv.writer_gone {s₀ : PipeSys} (hi : PipeInv es s) (h₀ : PipeStart s₀) (h : Run PipeStep s₀ es s)
    (hclosed : s.rfd = s.data) : s.writer = .out ∧ s.wfd = 0 := by
  have hdata := hi.data
  have hfd : s.wfd = 0 := by omega
  rcases writer_open h₀ h with hw | hw | hw
  · exact ⟨hw, hfd⟩
  · rw [hw] at hdata
    change _ = _ + 1 at hdata
    omega
  · omega

/-- At an empty test all bytes that have been put have been taken, and none is taken until the closed test. -/
theorem EmptyTest.gots {s₀ s₁ : PipeSys} {es₁ es₂ : List PipeEvent} (h : EmptyTest s₀ es₁ s₁ es₂ s) (h₀ : PipeStart s₀)
    (hb : puts es₁ < 2^31) : Sisop.gots es₁ = puts es₁ ∧ Sisop.gots es₂ = 0 := by
  have hi := pipeInv_of_run h₀ h.before hb
  have hempty := h.empty
  rw [Pipe.isEmpty, hi.rpos, hi.wpos, ofNat_inj (lt_of_le_of_lt hi.le (by omega)) (by omega)] at hempty
  obtain ⟨_, -, hsince⟩ := h.since
  refine ⟨hempty, hsince.invariant (I := fun es _ => Sisop.gots es = 0) rfl ?_⟩
  intro es e t u hg hs
  rw [gots_snoc, hg, hs.gots]

/-- A read that comes to the end of the file has made an empty test before its closed test. Everything that was written, and
ever will be, has been returned if and only if the writer has put no byte into the pipe between the two tests. -/
theorem pipe_eof_iff {s₀ : PipeSys} (h₀ : PipeStart s₀) (h : Run PipeStep s₀ es s)
    (hb : puts es < 2^31) (hn : 0 < s.reader.wanted) (hs : s.readerStep = some (.readRet [], s')) :
    (∃ es₁ s₁ es₂, EmptyTest s₀ es₁ s₁ es₂ s ∧ es = es₁ ++ .tau :: es₂) ∧
      ∀ es₁ s₁ es₂, EmptyTest s₀ es₁ s₁ es₂ s → es = es₁ ++ .tau :: es₂ →
        (AllReturned (es ++ [.readRet []]) s' ↔ puts es₂ = 0) := by
  have hi := pipeInv_of_run h₀ h hb
  obtain ⟨n, buf, hread⟩ := closed_of_eof hn hs
  refine ⟨emptyTest_of_run h₀ h hread, fun es₁ s₁ es₂ htest hes => ?_⟩
  have hlen := (hi.alive hread nofun).len
  have hbuf : buf = [] := by
    have hr := hi.reader
    rw [hread] at hr
    exact hr.2
  have hret : returned (es ++ [.readRet []]) = (passed es).take (gots es) := by
    have ht := hi.taken
    rw [hread, hbuf] at ht
    rw [returned_snoc]
    exact (List.append_nil _).trans ((List.append_nil _).symm.trans ht)
  have hpass : passed (es ++ [.readRet []]) = passed es := by
    rw [passed_snoc]
    exact List.append_nil _
  have hput : puts (es ++ [.readRet []]) = puts es := by
    rw [puts_snoc]
    rfl
  -- the closed test has found that the writer is gone
  obtain ⟨hclosed, rfl⟩ : s.rfd = s.data ∧ s' = { s with reader := .out } := by
    unfold PipeSys.readerStep at hs
    rw [hread] at hs
    dsimp only at hs
    split at hs
    next hclosed =>
      cases hs
      exact ⟨hclosed, rfl⟩
    next => cases hs
  obtain ⟨hwriter, hfd⟩ := hi.writer_gone h₀ h hclosed
  -- and the empty test that everything put until then has been taken
  have hsum : puts es = puts es₁ + puts es₂ := by
    rw [hes]
    exact List.count_append
  have hgots : gots es = gots es₁ + gots es₂ := by
    rw [hes]
    exact List.count_append
  obtain ⟨hempty, hnone⟩ := htest.gots h₀ (by omega)
  have hall : AllReturned (es ++ [.readRet []]) { s with reader := .out } ↔ _ := allReturned_iff hwriter hfd
  rw [hall, hret, hpass, hput]
  constructor
  · intro heq
    have hl := congrArg List.length heq
    rw [List.length_take, List.length_take] at hl
    omega
  · intro hz
    rw [hgots, hsum, hempty, hnone, hz]

/-- A read of a byte that was written, and the end of the file after it. -/
theorem pipe_eof_byte : ∃ s₀ s s' : PipeSys, ∃ es, PipeStart s₀ ∧ Run PipeStep s₀ es s ∧
    s.readerStep = some (.readRet [], s') ∧ passed es = [7#8] ∧ AllReturned (es ++ [.readRet []]) s' := by
  have h := ((run_write rfl).trans (run_read (Function.update_self ..))).trans run_closeWrite
  have hempty : Pipe.isEmpty ⟨1#32, 1#32, Function.update (fun _ => 0#8) (bufIndex 0#32) (7#8)⟩ := rfl
  have htest := EmptyTest.mk (h.trans (run_readTest _)) hempty ⟨1, rfl, .nil⟩
  have hall := h.trans (run_readEmpty _ hempty)
  exact ⟨_, _, _, _, pipeStart_one, hall, rfl, rfl,
    ((pipe_eof_iff pipeStart_one hall (by decide) Nat.one_pos rfl).2 _ _ _ htest rfl).mpr rfl⟩

/-- The byte is written, and the writer is gone, between the test for an empty pipe and
the test for a closed one. -/
theorem pipe_eof_loses : ∃ s₀ s s' : PipeSys, ∃ es, PipeStart s₀ ∧ Run PipeStep s₀ es s ∧
    0 < s.reader.wanted ∧ s.readerStep = some (.readRet [], s') ∧ s.wfd = 0 ∧
    ¬ AllReturned (es ++ [.readRet []]) s' := by
  have h := ((run_readEmpty ⟨0#32, 0#32, fun _ => 0#8⟩ rfl).trans (run_write rfl)).trans run_closeWrite
  refine ⟨_, _, _, _, pipeStart_one, h, Nat.one_pos, rfl, rfl, fun hall => ?_⟩
  exact absurd (hall [] _ .nil) (by decide)

end Invariant

end Sisop
