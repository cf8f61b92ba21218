import Sisop.FsBlocks
import Mathlib.Order.Bounds.Basic

/-! `alloc_block` and `free_block`. The word of the bitmap that tells of the block found
is set to zero as a whole, and only the first bitmap block is flushed. -/
namespace Sisop

section Bits

variable {w : Word} {i j : ℕ}

theorem bit_ne_zero (hi : i < 32) : w &&& (1#32 <<< i) ≠ 0#32 ↔ w.getLsbD i = true := by
  have hz : BitVec.twoPow 32 i ≠ 0#32 := by
    intro h
    have hb := congrArg (fun v => v.getLsbD i) h
    simp only [BitVec.getLsbD_twoPow, hi, decide_true, Bool.and_self, BitVec.getLsbD_zero,
      Bool.true_eq_false] at hb
  rw [← BitVec.twoPow_eq, BitVec.and_twoPow]
  cases w.getLsbD i with
  | true => simp only [↓reduceIte, ne_eq, hz, not_false_eq_true]
  | false => simp only [Bool.false_eq_true, ↓reduceIte, ne_eq, not_true]

theorem set_bit_ne_zero (hi : i < 32) (hj : j < 32) :
    (w ||| (1#32 <<< i)) &&& (1#32 <<< j) ≠ 0#32 ↔ j = i ∨ w &&& (1#32 <<< j) ≠ 0#32 := by
  rw [bit_ne_zero hj, bit_ne_zero hj, ← BitVec.twoPow_eq, BitVec.getLsbD_or, BitVec.getLsbD_twoPow]
  simp only [Bool.or_eq_true, Bool.and_eq_true, decide_eq_true_eq, hi, true_and]
  rw [or_comm, eq_comm]

end Bits

section Bitmap

variable {m : ByteMem} {b b' : ℕ} {w : Word} {s s' : Fs}

theorem nblocksIn_lt (m : ByteMem) : nblocksIn m < 2^32 := (loadWord m nblocksAddr).isLt

theorem bitmapAddr_val (hb : b < 2^32) : (bitmapAddr b).toNat = 0x10002000 + 4 * (b / 32) := by
  have h := bitmapAddr_toNat hb (i := 0) (by decide)
  rw [BitVec.add_zero] at h
  omega

theorem bitmapAddr_congr (h : b / 32 = b' / 32) : bitmapAddr b = bitmapAddr b' := by
  unfold bitmapAddr
  rw [h]

theorem bitmapAddr_apart (hb : b < 2^32) (hb' : b' < 2^32) (h : b / 32 ≠ b' / 32) :
    WordsApart (bitmapAddr b) (bitmapAddr b') := by
  have h1 := bitmapAddr_val hb
  have h2 := bitmapAddr_val hb'
  unfold WordsApart
  rw [BitVec.toNat_sub, BitVec.toNat_sub, h1, h2]
  omega

theorem nblocksAddr_apart (hb : b < 2^32) : WordsApart nblocksAddr (bitmapAddr b) := by
  have h1 : nblocksAddr.toNat = 0x10001004 := by decide
  have h2 := bitmapAddr_val hb
  unfold WordsApart
  rw [BitVec.toNat_sub, BitVec.toNat_sub, h1, h2]
  omega

theorem nblocksIn_storeWord (hb : b < 2^32) : nblocksIn (storeWord m (bitmapAddr b) w) = nblocksIn m := by
  unfold nblocksIn
  rw [loadWord_storeWord_apart (nblocksAddr_apart hb)]

theorem loadWord_bitmap (hb : b < 2^32) (hb' : b' < 2^32) :
    loadWord (storeWord m (bitmapAddr b) w) (bitmapAddr b') =
      if b' / 32 = b / 32 then w else loadWord m (bitmapAddr b') := by
  split_ifs with h
  · rw [bitmapAddr_congr h, loadWord_storeWord]
  · exact loadWord_storeWord_apart (bitmapAddr_apart hb' hb h)

/-- A word of the bitmap is changed. -/
theorem freeBit_storeWord (hb : b < 2^32) (hb' : b' < 2^32) :
    freeBit (storeWord m (bitmapAddr b) w) b' =
      if b' / 32 = b / 32 then decide (w &&& (1#32 <<< (b' % 32)) ≠ 0#32) else freeBit m b' := by
  unfold freeBit
  rw [loadWord_bitmap hb hb']
  split_ifs <;> rfl

/-- The bits after `bitmap[b/32] &= 0 << (b%32)`. -/
theorem freeBit_clear (hb : b < 2^32) (hb' : b' < 2^32) :
    freeBit (storeWord m (bitmapAddr b) (w &&& (0#32 <<< (b % 32)))) b' =
      if b' / 32 = b / 32 then false else freeBit m b' := by
  rw [freeBit_storeWord hb hb', BitVec.zero_shiftLeft, BitVec.and_zero, BitVec.zero_and]
  rfl

/-- The bits after `bitmap[b/32] |= 1 << (b%32)`. -/
theorem freeBit_set (hb : b < 2^32) (hb' : b' < 2^32) :
    freeBit (storeWord m (bitmapAddr b) (loadWord m (bitmapAddr b) ||| (1#32 <<< (b % 32)))) b' = true ↔
      b' = b ∨ freeBit m b' = true := by
  rw [freeBit_storeWord hb hb']
  split_ifs with h
  · have heq : b' % 32 = b % 32 ↔ b' = b := by omega
    rw [decide_eq_true_eq, set_bit_ne_zero (Nat.mod_lt _ (by decide)) (Nat.mod_lt _ (by decide)), heq,
      ← bitmapAddr_congr h]
    unfold freeBit
    rw [decide_eq_true_eq]
  · have hne : b' ≠ b := by
      rintro rfl
      exact h rfl
    exact ⟨Or.inr, fun hf => hf.resolve_left hne⟩

/-- The free blocks. -/
def freeSet (m : ByteMem) : Set ℕ := {b | blockFree m b = true}

instance (m : ByteMem) (b : ℕ) : Decidable (b ∈ freeSet m) :=
  inferInstanceAs (Decidable (blockFree m b = true))

theorem mem_freeSet : b ∈ freeSet m ↔ b < nblocksIn m ∧ freeBit m b = true := by
  change blockFree m b = true ↔ _
  unfold blockFree
  rw [Bool.and_eq_true, decide_eq_true_eq]

theorem lt_of_free (h : b ∈ freeSet m) : b < nblocksIn m := (mem_freeSet.mp h).1

theorem freeSet_clear (hb : b < 2^32) (w : Word) : freeSet (storeWord m (bitmapAddr b)
    (w &&& (0#32 <<< (b % 32)))) = {b' ∈ freeSet m | b' / 32 ≠ b / 32} := by
  ext b'
  change _ ↔ b' ∈ freeSet m ∧ _
  rw [mem_freeSet, mem_freeSet, nblocksIn_storeWord hb, and_assoc]
  refine and_congr_right fun hlt => ?_
  rw [freeBit_clear hb (Nat.lt_trans hlt (nblocksIn_lt m))]
  split_ifs with h
  · exact ⟨nofun, fun hf => absurd h hf.2⟩
  · exact ⟨fun hf => ⟨hf, h⟩, fun hf => hf.1⟩

theorem freeSet_set (hb : b < nblocksIn m) : freeSet (storeWord m (bitmapAddr b)
    (loadWord m (bitmapAddr b) ||| (1#32 <<< (b % 32)))) = insert b (freeSet m) := by
  have hlt := Nat.lt_trans hb (nblocksIn_lt m)
  ext b'
  rw [mem_freeSet, nblocksIn_storeWord hlt, Set.mem_insert_iff, mem_freeSet]
  constructor
  · rintro ⟨hn, hf⟩
    exact ((freeBit_set hlt (Nat.lt_trans hn (nblocksIn_lt m))).mp hf).imp_right fun h => ⟨hn, h⟩
  · rintro (rfl | ⟨hn, hf⟩)
    · exact ⟨hb, (freeBit_set hlt hlt).mpr (Or.inl rfl)⟩
    · exact ⟨hn, (freeBit_set hlt (Nat.lt_trans hn (nblocksIn_lt m))).mpr (Or.inr hf)⟩

end Bitmap

section Alloc

variable {s s' : Fs} {b : ℕ}

@[simp] theorem flush_mem (s : Fs) (b : ℕ) : (s.flush b).mem = s.mem := by
  unfold Fs.flush
  split_ifs <;> rfl

theorem flushBlock_bitmap (s : Fs) : flushBlock (blockAddr 2) s = .ret () (s.flush 2) := by
  have hin : InDiskmap (rounddown (blockAddr 2)) := by decide
  have hblock : blockOf (blockAddr 2) = 2 := by decide
  unfold flushBlock
  rw [Routine.panicUnless_bind hin, hblock]
  rfl

theorem allocBlock_none (h : freeSet s.mem = ∅) : allocBlock s = .ret (.error .noDisk) s := by
  have hfind : (List.range (nblocksIn s.mem)).find? (blockFree s.mem) = none := by
    rw [List.find?_range_eq_none]
    intro b _
    have hb : b ∉ freeSet s.mem := by
      rw [h]
      exact Set.notMem_empty b
    rw [Bool.eq_false_of_not_eq_true hb]
    rfl
  unfold allocBlock
  rw [Routine.bind_ret (Routine.get_run s)]
  simp only [hfind]
  rfl

/-- What `alloc_block` does to the word of the block that it has found. -/
def Fs.take (s : Fs) (b : ℕ) : Fs :=
  s.storeUint (bitmapAddr b) (loadWord s.mem (bitmapAddr b) &&& (0#32 <<< (b % 32)))

theorem allocBlock_some (h : IsLeast (freeSet s.mem) b) :
    allocBlock s = .ret (.ok b) ((s.take b).flush 2) := by
  have hfind : (List.range (nblocksIn s.mem)).find? (blockFree s.mem) = some b := by
    rw [List.find?_range_eq_some]
    refine ⟨h.1, List.mem_range.mpr (lt_of_free h.1), fun j hj => ?_⟩
    have hne : j ∉ freeSet s.mem := fun hf => absurd (h.2 hf) (Nat.not_le_of_lt hj)
    rw [Bool.eq_false_of_not_eq_true hne]
    rfl
  unfold allocBlock
  rw [Routine.bind_ret (Routine.get_run s)]
  simp only [hfind]
  have htake : Routine.modify (Fs.storeUint (bitmapAddr b)
      (loadWord s.mem (bitmapAddr b) &&& (0#32 <<< (b % 32)))) s = .ret () (s.take b) := rfl
  exact (Routine.bind_ret htake).trans (Routine.bind_ret (flushBlock_bitmap _))

/-- The free blocks lose all that share a word of the bitmap with the block found. -/
theorem freeSet_take (hb : b ∈ freeSet s.mem) :
    freeSet ((s.take b).flush 2).mem = {b' ∈ freeSet s.mem | b' / 32 ≠ b / 32} := by
  rw [flush_mem]
  exact freeSet_clear (Nat.lt_trans (lt_of_free hb) (nblocksIn_lt _)) _

/-- What `free_block` does to the word of the block. -/
def Fs.give (s : Fs) (b : ℕ) : Fs :=
  s.storeUint (bitmapAddr b) (loadWord s.mem (bitmapAddr b) ||| (1#32 <<< (b % 32)))

theorem freeBlock_run (h : 0 < b) : freeBlock b s = .ret () (s.give b) := by
  unfold freeBlock
  rw [Routine.panicUnless_bind (Nat.pos_iff_ne_zero.mp h)]
  rfl

end Alloc

/-- `alloc_block` takes the smallest free block, and no other one. -/
structure AllocExact (s : Fs) : Prop where
  full : freeSet s.mem = ∅ → allocBlock s = .ret (.error .noDisk) s
  taken : (freeSet s.mem).Nonempty → ∃ b s', allocBlock s = .ret (.ok b) s' ∧
    IsLeast (freeSet s.mem) b ∧ freeSet s'.mem = freeSet s.mem \ {b}

/-- `free_block` gives back the block, and no other one. -/
def FreeExact (s : Fs) (b : ℕ) : Prop :=
  ∃ s', freeBlock b s = .ret () s' ∧ freeSet s'.mem = insert b (freeSet s.mem)

/-- No free block shares a word of the bitmap with the smallest one. -/
def LeastAlone (m : ByteMem) : Prop :=
  ∀ b, IsLeast (freeSet m) b → ∀ b' ∈ freeSet m, b' / 32 = b / 32 → b' = b

/-- Calls of the block allocator, with their results. -/
inductive BlockCall where
  | alloc (r : Except FsErr ℕ)
  | free (b : ℕ)

/-- A call of `alloc_block`, or of `free_block` for a block that there is. -/
inductive BlockStep : Fs → BlockCall → Fs → Prop where
  | alloc {s s' : Fs} {r : Except FsErr ℕ} (h : allocBlock s = .ret r s') : BlockStep s (.alloc r) s'
  | free {s s' : Fs} {b : ℕ} (h0 : 0 < b) (hb : b < nblocksIn s.mem) (h : freeBlock b s = .ret () s') :
    BlockStep s (.free b) s'

/-- The free blocks after some calls. -/
def freeAfter (F : Set ℕ) : List BlockCall → Set ℕ
  | [] => F
  | .alloc (.ok b) :: es => freeAfter (F \ {b}) es
  | .alloc (.error _) :: es => freeAfter F es
  | .free b :: es => freeAfter (insert b F) es

/-- The same, where `alloc_block` finds a block that is alone in its word of the bitmap. -/
structure BlockSafeStep (s : Fs) (c : BlockCall) (s' : Fs) : Prop where
  step : BlockStep s c s'
  alone : ∀ r, c = .alloc r → LeastAlone s.mem

section Exact

variable {s s' t : Fs} {b : ℕ} {es : List BlockCall}

theorem exists_least {F : Set ℕ} (h : F.Nonempty) : ∃ b, IsLeast F b := by
  classical
  exact ⟨Nat.find h, Nat.find_spec h, fun _ hb => Nat.find_min' h hb⟩

theorem allocExact_iff (s : Fs) : AllocExact s ↔ LeastAlone s.mem := by
  constructor
  · intro h b hb b' hb' hword
    obtain ⟨b₁, s', hrun, hleast, hfree⟩ := h.taken ⟨b, hb.1⟩
    obtain rfl := hleast.unique hb
    obtain ⟨-, rfl⟩ := Outcome.ret.inj (hrun.symm.trans (allocBlock_some hb))
    rw [freeSet_take hb.1] at hfree
    by_contra hne
    have hmem : b' ∈ freeSet s.mem \ {b₁} := ⟨hb', hne⟩
    rw [← hfree] at hmem
    exact hmem.2 hword
  · intro h
    refine ⟨allocBlock_none, fun hne => ?_⟩
    obtain ⟨b, hb⟩ := exists_least hne
    refine ⟨b, _, allocBlock_some hb, hb, ?_⟩
    rw [freeSet_take hb.1]
    ext b'
    constructor
    · rintro ⟨hf, hword⟩
      refine ⟨hf, ?_⟩
      rintro rfl
      exact hword rfl
    · rintro ⟨hf, hne⟩
      exact ⟨hf, fun hword => hne (h b hb b' hf hword)⟩

theorem freeExact (h0 : 0 < b) (hb : b < nblocksIn s.mem) : FreeExact s b :=
  ⟨s.give b, freeBlock_run h0, freeSet_set hb⟩

theorem freeAfter_append (F : Set ℕ) (es es' : List BlockCall) :
    freeAfter F (es ++ es') = freeAfter (freeAfter F es) es' := by
  induction es generalizing F with
  | nil => rfl
  | cons c es ih =>
    cases c with
    | alloc r => cases r <;> exact ih _
    | free b => exact ih _

/-- A block that is not free becomes free only by `free_block`. -/
theorem not_mem_freeAfter {F : Set ℕ} (h : b ∉ F) (hes : BlockCall.free b ∉ es) : b ∉ freeAfter F es := by
  induction es generalizing F with
  | nil => exact h
  | cons c es ih =>
    rw [List.mem_cons, not_or] at hes
    cases c with
    | alloc r =>
      cases r with
      | error => exact ih h hes.2
      | ok b' => exact ih (fun hb => h hb.1) hes.2
    | free b' =>
      apply ih _ hes.2
      rintro (rfl | hb)
      · exact hes.1 rfl
      · exact h hb

/-- One call. -/
theorem BlockSafeStep.free_set {c : BlockCall} (h : BlockSafeStep s c s') :
    freeSet s'.mem = freeAfter (freeSet s.mem) [c] ∧ ∀ b, c = .alloc (.ok b) → b ∈ freeSet s.mem := by
  cases h.step with
  | @alloc _ r hrun =>
    have hexact := (allocExact_iff s).mpr (h.alone r rfl)
    by_cases hne : (freeSet s.mem).Nonempty
    · obtain ⟨b, t, hrun', hleast, hfree⟩ := hexact.taken hne
      obtain ⟨rfl, rfl⟩ := Outcome.ret.inj (hrun.symm.trans hrun')
      refine ⟨hfree, fun b' hb => ?_⟩
      cases hb
      exact hleast.1
    · have hrun' := hexact.full (Set.not_nonempty_iff_eq_empty.mp hne)
      obtain ⟨rfl, rfl⟩ := Outcome.ret.inj (hrun.symm.trans hrun')
      exact ⟨rfl, fun b hb => by cases hb⟩
  | @free _ b h0 hb hrun =>
    obtain ⟨t, hrun', hfree⟩ := freeExact h0 hb
    obtain ⟨-, rfl⟩ := Outcome.ret.inj (hrun.symm.trans hrun')
    exact ⟨hfree, fun b hb => by cases hb⟩

/-- Over any calls, the free blocks are those that should be free. -/
theorem free_set_run (h : Run BlockSafeStep s es t) : freeSet t.mem = freeAfter (freeSet s.mem) es := by
  induction h with
  | nil => rfl
  | snoc _ hs ih => rw [freeAfter_append, ← ih, hs.free_set.1]

/-- A block is not handed out again before it has been freed. -/
theorem not_handed_twice {a m c : List BlockCall}
    (h : Run BlockSafeStep s (a ++ .alloc (.ok b) :: (m ++ .alloc (.ok b) :: c)) t) : .free b ∈ m := by
  obtain ⟨t₁, -, h₁⟩ := h.append_inv
  obtain ⟨t₂, hs₁, h₂⟩ := h₁.cons_inv
  obtain ⟨t₃, hm, h₃⟩ := h₂.append_inv
  obtain ⟨t₄, hs₂, -⟩ := h₃.cons_inv
  by_contra hnot
  have hfree : b ∈ freeSet t₃.mem := hs₂.free_set.2 b rfl
  rw [free_set_run hm, hs₁.free_set.1] at hfree
  exact not_mem_freeAfter (fun hb : b ∈ freeSet t₁.mem \ {b} => hb.2 rfl) hnot hfree

/-- The block allocator is exact when, and only when, the smallest free block is alone in
its word of the bitmap. -/
theorem block_allocator_exact (s : Fs) :
    (AllocExact s ↔ LeastAlone s.mem) ∧
    (∀ b, 0 < b → b < nblocksIn s.mem → FreeExact s b) ∧
    (∀ t es, Run BlockSafeStep s es t → freeSet t.mem = freeAfter (freeSet s.mem) es ∧
      ∀ a m c b, es = a ++ .alloc (.ok b) :: (m ++ .alloc (.ok b) :: c) → .free b ∈ m) := by
  refine ⟨allocExact_iff s, fun _ => freeExact, fun t es h => ⟨free_set_run h, ?_⟩⟩
  rintro a m c b rfl
  exact not_handed_twice h

end Exact

/-- Of five blocks the last two are free. -/
def twoFree : Fs where
  mem := fun a => if a = nblocksAddr then 5#8 else if a = blockAddr 2 then 0x18#8 else 0#8
  disk := fun _ => 0#8
  dirty := fun _ => false

theorem isLeast_twoFree : IsLeast (freeSet twoFree.mem) 3 := by
  refine ⟨by decide, fun b hb => ?_⟩
  by_contra hlt
  obtain rfl | rfl | rfl : b = 0 ∨ b = 1 ∨ b = 2 := by omega
  all_goals exact absurd hb (by decide)

theorem block_allocator_free : FreeExact twoFree 1 ∧ ¬ AllocExact twoFree := by
  refine ⟨(block_allocator_exact twoFree).2.1 1 (by decide) (by decide), fun h => ?_⟩
  have halone := (block_allocator_exact twoFree).1.mp h
  exact absurd (halone 3 isLeast_twoFree 4 (by decide) (by decide)) (by decide)

/-- Block 4 is free before block 3 is allocated, and then no more. -/
theorem alloc_loses_block : ∃ s', allocBlock twoFree = .ret (.ok 3) s' ∧
    blockFree twoFree.mem 4 = true ∧ blockFree s'.mem 4 = false := by
  refine ⟨_, allocBlock_some isLeast_twoFree, by decide, ?_⟩
  by_contra h
  have hmem : 4 ∈ freeSet ((twoFree.take 3).flush 2).mem := Bool.eq_true_of_not_eq_false h
  rw [freeSet_take isLeast_twoFree.1] at hmem
  exact hmem.2 rfl

end Sisop
