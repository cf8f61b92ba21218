import Sisop.PipePositions

/-! What `devpipe_write` and `devpipe_read` return is compared with the number of bytes that
have gone into the pipe, or out of it, during the call. -/
namespace Sisop

/-- A count of bytes as an `ssize_t`. -/
def ssize (n : ℕ) : ℤ := (BitVec.ofNat 32 n).toInt

/-- The writer has put `k` bytes of `buf` into the pipe in its present call. -/
def WritePc.Stored (buf : List (BitVec 8)) (k : ℕ) : WritePc → Prop
  | .out | .unmap => False
  | .loop bs i => bs = buf ∧ i = k ∧ k ≤ buf.length
  | .full bs i | .closed bs i | .store bs i | .advance bs i => bs = buf ∧ i = k ∧ k < buf.length

/-- The reader has taken `k` bytes out of the pipe in its present call. -/
def ReadPc.Removed (k : ℕ) : ReadPc → Prop
  | .out | .unmap => False
  | .loop _ buf | .empty _ buf | .take _ buf => buf.length = k
  | .closed _ buf => buf = [] ∧ k = 0
  | .advance _ buf => buf.length = k + 1

/-- The readers are gone when a write has stored some of its bytes, and not all, or the count does not fit. -/
def Miscounts (u : PipeSys) (buf : List (BitVec 8)) (es : List PipeEvent) : Prop :=
  (u.wfd = u.data ∧ 0 < puts es ∧ puts es < buf.length) ∨ 2^31 ≤ puts es

section Counts

variable {s s' t u : PipeSys} {es : List PipeEvent} {e : PipeEvent} {k r n : ℕ} {buf bytes : List (BitVec 8)}

theorem ssize_eq_iff : ssize n = n ↔ n < 2^31 := by
  unfold ssize
  constructor
  · intro heq
    have hlt := BitVec.two_mul_toInt_lt (x := BitVec.ofNat 32 n)
    rw [heq] at hlt
    omega
  · exact toInt_ofNat_of_lt

theorem readerStep_writer (h : s.readerStep = some (e, s')) : s'.writer = s.writer ∧ puts [e] = 0 := by
  unfold PipeSys.readerStep at h
  split at h
  all_goals (repeat' split at h) <;> cases h
  all_goals exact ⟨rfl, rfl⟩

theorem writerStep_reader (h : s.writerStep = some (e, s')) : s'.reader = s.reader ∧ gots [e] = 0 := by
  unfold PipeSys.writerStep at h
  split at h
  all_goals (repeat' split at h) <;> cases h
  all_goals exact ⟨rfl, rfl⟩

theorem WritePc.Stored.step (h : s.writer.Stored buf k) (hs : PipeStep s e s') (he : ∀ r, e ≠ .writeRet r) :
    s'.writer.Stored buf (k + puts [e]) := by
  cases hs with
  | read | closeRead => exact h
  | write _ hout =>
    rw [hout] at h
    exact h.elim
  | closeWrite hout =>
    rw [hout] at h
    exact h.elim
  | reader hs =>
    obtain ⟨hsame, hputs⟩ := readerStep_writer hs
    rw [hsame, hputs]
    exact h
  | writer hs =>
    unfold PipeSys.writerStep at hs
    cases hwrite : s.writer with
    | out | unmap =>
      rw [hwrite] at h
      exact h.elim
    | loop bs i =>
      rw [hwrite] at hs h
      dsimp only at hs
      obtain ⟨rfl, rfl, -⟩ := h
      split at hs <;> cases hs
      · exact ⟨rfl, rfl, ‹_›⟩
      · exact absurd rfl (he _)
    | full bs i | closed bs i =>
      rw [hwrite] at hs h
      dsimp only at hs
      split at hs <;> cases hs
      all_goals first | exact h | exact absurd rfl (he _)
    | store bs i =>
      rw [hwrite] at hs h
      cases hs
      exact h
    | advance bs i =>
      rw [hwrite] at hs h
      cases hs
      obtain ⟨rfl, rfl, hlt⟩ := h
      exact ⟨rfl, rfl, hlt⟩

theorem ReadPc.Removed.step (h : s.reader.Removed k) (hs : PipeStep s e s') (he : ∀ bytes, e ≠ .readRet bytes) :
    s'.reader.Removed (k + gots [e]) := by
  cases hs with
  | write | closeWrite => exact h
  | read n hout =>
    rw [hout] at h
    exact h.elim
  | closeRead hout =>
    rw [hout] at h
    exact h.elim
  | writer hs =>
    obtain ⟨hsame, hgots⟩ := writerStep_reader hs
    rw [hsame, hgots]
    exact h
  | reader hs =>
    unfold PipeSys.readerStep at hs
    cases hread : s.reader with
    | out | unmap =>
      rw [hread] at h
      exact h.elim
    | loop n buf =>
      rw [hread] at hs h
      dsimp only at hs
      split at hs <;> cases hs
      · exact h
      · exact absurd rfl (he _)
    | empty n buf =>
      rw [hread] at hs h
      dsimp only at hs
      split at hs
      · split at hs <;> cases hs
        · exact absurd rfl (he _)
        · next hnone =>
          have hlen : buf.length = k := h
          exact ⟨List.length_eq_zero_iff.mp (by omega), show k + 0 = 0 by omega⟩
      · cases hs
        exact h
    | closed n buf =>
      rw [hread] at hs h
      dsimp only at hs
      split at hs <;> cases hs
      · exact absurd rfl (he _)
      · obtain ⟨rfl, rfl⟩ := h
        exact rfl
    | take n buf =>
      rw [hread] at hs h
      cases hs
      change (buf ++ [_]).length = k + 0 + 1
      rw [List.length_append]
      exact congrArg (· + 1) (show buf.length = k from h)
    | advance n buf =>
      rw [hread] at hs h
      cases hs
      exact h

/-- From the call of `devpipe_write` on. -/
theorem stored_of_run (hcall : PipeStep s (.write buf) t) (hrun : Run PipeStep t es u) (hin : ∀ r, .writeRet r ∉ es) :
    u.writer.Stored buf (puts es) := by
  have hstart : t.writer.Stored buf 0 := by
    cases hcall with
    | write _ hout hfd => exact ⟨rfl, rfl, Nat.zero_le _⟩
    | reader hs =>
      unfold PipeSys.readerStep at hs
      split at hs
      all_goals (repeat' split at hs) <;> cases hs
    | writer hs =>
      unfold PipeSys.writerStep at hs
      split at hs
      all_goals (repeat' split at hs) <;> cases hs
  revert hin
  apply hrun.invariant (I := fun es u => (∀ r, .writeRet r ∉ es) → u.writer.Stored buf (puts es)) fun _ => hstart
  intro es e t u ih hs hin
  rw [puts_snoc]
  apply (ih fun r hr => hin r (List.mem_append_left _ hr)).step hs
  rintro r rfl
  exact hin r (List.mem_append_right _ List.mem_cons_self)

theorem removed_of_run (hcall : PipeStep s (.read n) t) (hrun : Run PipeStep t es u) (hin : ∀ bytes, .readRet bytes ∉ es) :
    u.reader.Removed (gots es) := by
  have hstart : t.reader.Removed 0 := by
    cases hcall with
    | read n hout hfd => exact rfl
    | reader hs =>
      unfold PipeSys.readerStep at hs
      split at hs
      all_goals (repeat' split at hs) <;> cases hs
    | writer hs =>
      unfold PipeSys.writerStep at hs
      split at hs
      all_goals (repeat' split at hs) <;> cases hs
  revert hin
  apply hrun.invariant (I := fun es u => (∀ bytes, .readRet bytes ∉ es) → u.reader.Removed (gots es)) fun _ => hstart
  intro es e t u ih hs hin
  rw [gots_snoc]
  apply (ih fun r hr => hin r (List.mem_append_left _ hr)).step hs
  rintro r rfl
  exact hin r (List.mem_append_right _ List.mem_cons_self)

theorem writeRet_eq (h : u.writer.Stored buf (puts es)) (hs : PipeStep u (.writeRet r) s') :
    ssize r = puts es ↔ ¬ Miscounts u buf es := by
  unfold Miscounts
  cases hs with
  | reader hs =>
    unfold PipeSys.readerStep at hs
    split at hs
    all_goals (repeat' split at hs) <;> cases hs
  | writer hs =>
    unfold PipeSys.writerStep at hs
    cases hwrite : u.writer with
    | out | full | store | advance | unmap =>
      rw [hwrite] at hs
      dsimp only at hs
      (repeat' split at hs) <;> cases hs
    | loop bs i =>
      rw [hwrite] at hs h
      dsimp only at hs
      obtain ⟨rfl, hi, -⟩ := h
      -- all bytes have been stored
      split at hs <;> cases hs
      rw [hi, ssize_eq_iff]
      omega
    | closed bs i =>
      rw [hwrite] at hs h
      dsimp only at hs
      obtain ⟨rfl, -, hlt⟩ := h
      split at hs <;> cases hs
      change 0 = (puts es : ℤ) ↔ _
      omega

theorem readRet_eq (h : u.reader.Removed k) (hs : PipeStep u (.readRet bytes) s') : bytes.length = k := by
  cases hs with
  | writer hs =>
    unfold PipeSys.writerStep at hs
    split at hs
    all_goals (repeat' split at hs) <;> cases hs
  | reader hs =>
    unfold PipeSys.readerStep at hs
    cases hread : u.reader with
    | out | take | advance | unmap =>
      rw [hread] at hs
      cases hs
    | loop n buf | empty n buf =>
      rw [hread] at hs h
      dsimp only at hs
      (repeat' split at hs) <;> cases hs
      exact h
    | closed n buf =>
      rw [hread] at hs h
      dsimp only at hs
      split at hs <;> cases hs
      exact h.2.symm

/-- A write reports what it has stored unless the readers go away in the middle of it, and a read
reports what it has removed, as long as the numbers fit. -/
theorem pipe_counts_iff (s t u u' : PipeSys) (es : List PipeEvent) :
    (∀ buf r, PipeStep s (.write buf) t → Run PipeStep t es u → (∀ r, .writeRet r ∉ es) →
      PipeStep u (.writeRet r) u' → (ssize r = puts es ↔ ¬ Miscounts u buf es)) ∧
    (∀ n bytes, PipeStep s (.read n) t → Run PipeStep t es u → (∀ bytes, .readRet bytes ∉ es) →
      PipeStep u (.readRet bytes) u' → (ssize bytes.length = gots es ↔ bytes.length < 2^31)) := by
  constructor
  · intro buf r hcall hrun hin hret
    exact writeRet_eq (stored_of_run hcall hrun hin) hret
  · intro n bytes hcall hrun hin hret
    rw [← readRet_eq (removed_of_run hcall hrun hin) hret]
    exact ssize_eq_iff

/-- A write of one byte to an empty pipe. -/
theorem pipe_counts_one : ssize 1 = puts [.tau, .tau, .tau, .put] := by
  have hrun : Run PipeStep ⟨⟨0#32, 0#32, fun _ => 0#8⟩, 1, 1, 2, .out, .loop [7#8] 0⟩ [.tau, .tau, .tau, .put]
      ⟨⟨0#32, 1#32, Function.update (fun _ => 0#8) (bufIndex 0#32) (7#8)⟩, 1, 1, 2, .out, .loop [7#8] 1⟩ :=
    (((Run.single (.writer rfl)).snoc (.writer rfl)).snoc (.writer rfl)).snoc (.writer rfl)
  exact ((pipe_counts_iff ⟨⟨0#32, 0#32, fun _ => 0#8⟩, 1, 1, 2, .out, .out⟩ _ _ _ _).1 [7#8] 1 (.write [7#8] rfl Nat.one_pos) hrun
    (by simp) (.writer rfl)).mpr (by simp [Miscounts, puts])

/-- The write fills the pipe. -/
theorem run_fill (buf : List (BitVec 8)) (hbuf : buf.length = 33) (hk : k ≤ 32) : ∃ es f, Run PipeStep
    ⟨⟨0#32, 0#32, fun _ => 0#8⟩, 1, 1, 2, .out, .loop buf 0⟩ es ⟨⟨0#32, BitVec.ofNat 32 k, f⟩, 1, 1, 2, .out, .loop buf k⟩ ∧
    puts es = k ∧ ∀ r, .writeRet r ∉ es := by
  induction k with
  | zero => exact ⟨[], _, .nil, rfl, fun r hr => nomatch hr⟩
  | succ k ih =>
    obtain ⟨es, f, hrun, hputs, hin⟩ := ih (by omega)
    have hroom : ¬ (Pipe.mk 0#32 (BitVec.ofNat 32 k) f).isFull := by
      change ¬ 0#32 + 32#32 ≤ BitVec.ofNat 32 k
      rw [BitVec.le_def, BitVec.toNat_ofNat]
      change ¬ 32 ≤ k % 2^32
      omega
    have hloop : PipeSys.writerStep ⟨⟨0#32, BitVec.ofNat 32 k, f⟩, 1, 1, 2, .out, .loop buf k⟩ =
        some (.tau, ⟨⟨0#32, BitVec.ofNat 32 k, f⟩, 1, 1, 2, .out, .full buf k⟩) := if_pos (by omega)
    have hfull : PipeSys.writerStep ⟨⟨0#32, BitVec.ofNat 32 k, f⟩, 1, 1, 2, .out, .full buf k⟩ =
        some (.tau, ⟨⟨0#32, BitVec.ofNat 32 k, f⟩, 1, 1, 2, .out, .store buf k⟩) := if_neg hroom
    generalize hf : Function.update f (bufIndex (BitVec.ofNat 32 k)) (buf.getD k 0#8) = f'
    have hstore : PipeSys.writerStep ⟨⟨0#32, BitVec.ofNat 32 k, f⟩, 1, 1, 2, .out, .store buf k⟩ =
        some (.tau, ⟨⟨0#32, BitVec.ofNat 32 k, f'⟩, 1, 1, 2, .out, .advance buf k⟩) := by
      rw [← hf]
      rfl
    have hput : PipeSys.writerStep ⟨⟨0#32, BitVec.ofNat 32 k, f'⟩, 1, 1, 2, .out, .advance buf k⟩ =
        some (.put, ⟨⟨0#32, BitVec.ofNat 32 (k + 1), f'⟩, 1, 1, 2, .out, .loop buf (k + 1)⟩) := by
      unfold PipeSys.writerStep
      rw [BitVec.ofNat_add]
    refine ⟨es ++ [.tau] ++ [.tau] ++ [.tau] ++ [.put], f', (((hrun.snoc (.writer hloop)).snoc (.writer hfull)).snoc
      (.writer hstore)).snoc (.writer hput), ?_, ?_⟩
    · rw [puts_snoc, puts_snoc, puts_snoc, puts_snoc, hputs]
      rfl
    · intro r hr
      simp only [List.mem_append, List.mem_singleton, reduceCtorEq, or_false] at hr
      exact hin r hr

/-- The reader closes its end when 32 of the 33 bytes of a write are in the pipe, and the write returns 0. -/
theorem pipe_counts_short : ∃ s t u u' es, ∃ buf : List (BitVec 8), PipeStart s ∧ buf.length = 33 ∧ PipeStep s (.write buf) t ∧
    Run PipeStep t es u ∧ (∀ r, .writeRet r ∉ es) ∧ PipeStep u (.writeRet 0) u' ∧ puts es = 32 := by
  have hbuf : (List.replicate 33 7#8).length = 33 := List.length_replicate
  obtain ⟨es, f, hrun, hputs, hin⟩ := run_fill (List.replicate 33 7#8) hbuf (Nat.le_refl 32)
  have hclose : Run PipeStep ⟨⟨0#32, BitVec.ofNat 32 32, f⟩, 1, 1, 2, .out, .loop (List.replicate 33 7#8) 32⟩
      [.closeRead, .tau, .tau, .tau] ⟨⟨0#32, 32#32, f⟩, 0, 1, 1, .out, .closed (List.replicate 33 7#8) 32⟩ :=
    (((Run.single (.closeRead rfl Nat.one_pos)).snoc (.reader rfl)).snoc (.writer rfl)).snoc (.writer rfl)
  refine ⟨_, _, _, _, _, List.replicate 33 7#8, pipeStart_one, hbuf, .write _ rfl Nat.one_pos, hrun.trans hclose, ?_,
    .writer rfl, ?_⟩
  · intro r hr
    obtain hr | hr := List.mem_append.mp hr
    · exact hin r hr
    · simp at hr
  · unfold puts at *
    rw [List.count_append, hputs]
    rfl

end Counts

end Sisop
