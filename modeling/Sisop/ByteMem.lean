import Sisop.Mmu

/-! Bytes at linear addresses, and words of four bytes, the lowest first. -/
namespace Sisop

/-- Byte `i` of a word, the lowest first. -/
def byteOf (w : Word) (i : ℕ) : BitVec 8 := w.extractLsb' (8 * i) 8

def wordBytes (ws : List Word) : List (BitVec 8) :=
  ws.flatMap fun w => [byteOf w 0, byteOf w 1, byteOf w 2, byteOf w 3]

/-- The bytes that a program sees at its linear addresses. -/
abbrev ByteMem : Type := Word → BitVec 8

/-- `x` is one of the `n` addresses from `a` on. -/
def InSpan (a : Word) (n : ℕ) (x : Word) : Prop := (x - a).toNat < n

instance (a : Word) (n : ℕ) (x : Word) : Decidable (InSpan a n x) :=
  inferInstanceAs (Decidable (_ < _))

def writeBytes (m : ByteMem) (a : Word) (bs : List (BitVec 8)) : ByteMem := fun x =>
  (bs[(x - a).toNat]?).getD (m x)

def loadWord (m : ByteMem) (a : Word) : Word := m (a + 3#32) ++ m (a + 2#32) ++ m (a + 1#32) ++ m a

def storeWord (m : ByteMem) (a w : Word) : ByteMem := writeBytes m a (wordBytes [w])

variable {m m' : ByteMem} {a b w x : Word} {n i : ℕ}

theorem writeBytes_of_not_inSpan {bs : List (BitVec 8)} (h : ¬ InSpan a bs.length x) :
    writeBytes m a bs x = m x := by
  rw [writeBytes, List.getElem?_eq_none (Nat.le_of_not_lt h)]
  rfl

theorem writeBytes_cons (m : ByteMem) (a : Word) (b : BitVec 8) (bs : List (BitVec 8))
    (hlen : bs.length < 2^32 - 1) :
    writeBytes m a (b :: bs) = writeBytes (Function.update m a b) (a + 1#32) bs := by
  funext x
  unfold writeBytes
  by_cases hx : x = a
  · have h0 : (x - a).toNat = 0 := by bv_omega
    have hout : bs.length ≤ (x - (a + 1#32)).toNat := by bv_omega
    rw [h0, List.getElem?_eq_none hout, hx, Function.update_self]
    rfl
  · have hsucc : (x - a).toNat = (x - (a + 1#32)).toNat + 1 := by bv_omega
    rw [hsucc, List.getElem?_cons_succ, Function.update_of_ne hx]

theorem storeWord_of_not_inSpan (h : ¬ InSpan a 4 x) : storeWord m a w x = m x :=
  writeBytes_of_not_inSpan h

theorem wordBytes_length (ws : List Word) : (wordBytes ws).length = 4 * ws.length := by
  induction ws with
  | nil => rfl
  | cons w ws ih =>
    rw [wordBytes, List.flatMap_cons, List.length_append, List.length_cons]
    rw [wordBytes] at ih
    rw [ih]
    simp only [List.length_cons, List.length_nil]
    omega

/-- The bytes of word `j` of a list. -/
theorem wordBytes_getElem? (ws : List Word) (j i : ℕ) (hi : i < 4) :
    (wordBytes ws)[4 * j + i]? = (ws[j]?).map fun w => byteOf w i := by
  induction ws generalizing j with
  | nil => rfl
  | cons w ws ih =>
    have hcons : wordBytes (w :: ws) = [byteOf w 0, byteOf w 1, byteOf w 2, byteOf w 3] ++ wordBytes ws := rfl
    rw [hcons]
    cases j with
    | zero =>
      rw [List.getElem?_append_left (by simp only [List.length_cons, List.length_nil]; omega)]
      obtain rfl | rfl | rfl | rfl : i = 0 ∨ i = 1 ∨ i = 2 ∨ i = 3 := by omega
      all_goals rfl
    | succ j =>
      rw [List.getElem?_append_right (by simp only [List.length_cons, List.length_nil]; omega)]
      have hidx : 4 * (j + 1) + i - [byteOf w 0, byteOf w 1, byteOf w 2, byteOf w 3].length = 4 * j + i := by
        simp only [List.length_cons, List.length_nil]
        omega
      rw [hidx, ih j, List.getElem?_cons_succ]

theorem byteOf_zero (i : ℕ) : byteOf 0#32 i = 0#8 := by
  simp [byteOf]

theorem bytes_append (w : Word) : byteOf w 3 ++ byteOf w 2 ++ byteOf w 1 ++ byteOf w 0 = w := by
  apply BitVec.eq_of_getLsbD_eq
  intro i hi
  simp only [byteOf, BitVec.getLsbD_append, BitVec.getLsbD_extractLsb']
  grind

theorem loadWord_congr (h : ∀ i < 4, m (a + BitVec.ofNat 32 i) = m' (a + BitVec.ofNat 32 i)) :
    loadWord m a = loadWord m' a := by
  have h0 := h 0 (by decide)
  rw [BitVec.add_zero] at h0
  unfold loadWord
  rw [h 3 (by decide), h 2 (by decide), h 1 (by decide), h0]

/-- What is read from a list of words is the word that was written. -/
theorem loadWord_writeBytes (m : ByteMem) (a : Word) (ws : List Word) (j : ℕ) (hj : j < ws.length)
    (hlen : 4 * ws.length < 2^32) :
    loadWord (writeBytes m a (wordBytes ws)) (a + BitVec.ofNat 32 (4 * j)) = ws[j] := by
  have hbyte (i : ℕ) (hi : i < 4) :
      writeBytes m a (wordBytes ws) (a + BitVec.ofNat 32 (4 * j) + BitVec.ofNat 32 i) = byteOf ws[j] i := by
    have hoff : (a + BitVec.ofNat 32 (4 * j) + BitVec.ofNat 32 i - a).toNat = 4 * j + i := by
      bv_omega
    rw [writeBytes, hoff, wordBytes_getElem? ws j i hi, List.getElem?_eq_getElem hj]
    rfl
  have h0 := hbyte 0 (by decide)
  rw [BitVec.add_zero] at h0
  unfold loadWord
  rw [hbyte 3 (by decide), hbyte 2 (by decide), hbyte 1 (by decide), h0]
  exact bytes_append ws[j]

theorem loadWord_storeWord (m : ByteMem) (a w : Word) : loadWord (storeWord m a w) a = w := by
  have h := loadWord_writeBytes m a [w] 0 Nat.one_pos (by simp)
  rwa [Nat.mul_zero, BitVec.add_zero] at h

/-- The words at `a` and at `b` have no byte in common. -/
def WordsApart (a b : Word) : Prop := 4 ≤ (a - b).toNat ∧ 4 ≤ (b - a).toNat

theorem loadWord_storeWord_apart (h : WordsApart a b) :
    loadWord (storeWord m b w) a = loadWord m a := by
  apply loadWord_congr
  intro i hi
  apply storeWord_of_not_inSpan
  unfold InSpan
  obtain ⟨h1, h2⟩ := h
  bv_omega

/-- The memory is the same but for the `k` addresses from `lo` on. -/
def SameOutside (m m' : ByteMem) (lo k : ℕ) : Prop :=
  ∀ x : Word, x.toNat < lo ∨ lo + k ≤ x.toNat → m' x = m x

section Outside

variable {lo k : ℕ}

theorem SameOutside.mono {lo' k' : ℕ} (h : SameOutside m m' lo k) (hlo : lo' ≤ lo) (hk : lo + k ≤ lo' + k') :
    SameOutside m m' lo' k' := by
  intro x hx
  apply h
  omega

theorem SameOutside.loadWord (h : SameOutside m m' lo k) (ha : a.toNat + 4 ≤ 2^32)
    (hd : a.toNat + 4 ≤ lo ∨ lo + k ≤ a.toNat) : loadWord m' a = loadWord m a := by
  apply loadWord_congr
  intro i hi
  apply h
  have hadd : (a + BitVec.ofNat 32 i).toNat = a.toNat + i := by bv_omega
  omega

theorem writeBytes_sameOutside {bs : List (BitVec 8)} (ha : a.toNat + bs.length ≤ 2^32) :
    SameOutside m (writeBytes m a bs) a.toNat bs.length := by
  intro x hx
  apply writeBytes_of_not_inSpan
  unfold InSpan
  bv_omega

theorem storeWord_sameOutside (ha : a.toNat + 4 ≤ 2^32) : SameOutside m (storeWord m a w) a.toNat 4 :=
  writeBytes_sameOutside ha

end Outside

end Sisop
