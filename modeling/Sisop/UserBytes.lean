import Sisop.UserMem

/-! The bytes that user code sees, and what a store of the kernel through its page directory does
to them. -/
namespace Sisop

/-- The physical page that `g` maps at an address, whether it is present or not. -/
def pageAt (s : Pm) (g : ℕ) (x : Word) : ℕ := pgnum (s.word (pgnum (s.word g (pdx x))) (ptx x))

/-- The bytes that a program with page directory `g` sees. -/
def userMem (s : Pm) (g : ℕ) : ByteMem := fun x =>
  byteOf (s.word (pageAt s g x) (pgoff x / 4)) (pgoff x % 4)

/-- The page at `a`, one of the addresses `seen`, is neither the directory nor one of the tables
for these addresses, and none of them is mapped to it but those of its own page. -/
structure Unshared (s : Pm) (g : ℕ) (seen : Word → Prop) (a : Word) : Prop where
  here : seen a
  notDir : pageAt s g a ≠ g
  notTable : ∀ x, seen x → pageAt s g a ≠ pgnum (s.word g (pdx x))
  alone : ∀ x, seen x → pageAt s g x = pageAt s g a → pgnum x = pgnum a

section UserBytes

variable {s s' : Pm} {g : ℕ} {a x : Word} {b : BitVec 8} {seen : Word → Prop}

theorem getLsbD_ff (i : ℕ) : (0xFF#32).getLsbD i = decide (i < 8) := by
  have h : (0xFF#32).toNat = 2^8 - 1 := rfl
  rw [BitVec.getLsbD, h, Nat.testBit_two_pow_sub_one]

theorem byteOf_setByte (w : Word) (b : BitVec 8) {i j : ℕ} (hi : i < 4) (hj : j < 4) :
    byteOf (setByte w i b) j = if j = i then b else byteOf w j := by
  apply BitVec.eq_of_getLsbD_eq
  intro n hn
  have h32 : 8 * j + n < 32 := by omega
  simp only [byteOf, setByte, BitVec.getLsbD_extractLsb', BitVec.getLsbD_or, BitVec.getLsbD_and,
    BitVec.getLsbD_not, BitVec.getLsbD_shiftLeft, BitVec.getLsbD_setWidth, getLsbD_ff, h32, hn,
    decide_true, Bool.true_and]
  rcases Nat.lt_trichotomy j i with hlt | rfl | hgt
  · have h1 : 8 * j + n < 8 * i := by omega
    simp only [h1, hlt.ne, decide_true, Bool.not_true, Bool.false_and, Bool.not_false, Bool.and_true,
      Bool.or_false, ↓reduceIte, BitVec.getLsbD_extractLsb', hn, Bool.true_and]
  · have h1 : ¬ 8 * j + n < 8 * j := by omega
    have h2 : 8 * j + n - 8 * j = n := by omega
    have h3 : n < 32 := by omega
    simp only [h1, h2, h3, hn, decide_true, decide_false, Bool.not_false, Bool.not_true, Bool.true_and,
      Bool.and_false, Bool.false_or, ↓reduceIte]
  · have h1 : ¬ 8 * j + n - 8 * i < 8 := by omega
    have h2 : b.getLsbD (8 * j + n - 8 * i) = false := BitVec.getLsbD_of_ge b _ (by omega)
    simp only [h1, h2, hgt.ne', decide_false, Bool.and_false, Bool.not_false, Bool.and_true,
      Bool.or_false, ↓reduceIte, BitVec.getLsbD_extractLsb', hn, decide_true, Bool.true_and]

theorem eq_of_page_offset (hp : pgnum x = pgnum a) (ho : pgoff x = pgoff a) : x = a := by
  rw [pgnum_eq, pgnum_eq] at hp
  rw [pgoff_eq, pgoff_eq] at ho
  apply BitVec.eq_of_toNat_eq
  omega

/-- A store of the kernel through the page directory changes the byte that the program sees
there, and no translation. -/
theorem Unshared.storeByte (h : Unshared s g seen a) (hr : storeByte g a b s = .ret () s') :
    ∀ y, seen y → userMem s' g y = Function.update (userMem s g) a b y ∧
      s'.word g (pdx y) = s.word g (pdx y) ∧ pageAt s' g y = pageAt s g y := by
  obtain ⟨page, hpage⟩ : ∃ page, page = pageAt s g a := ⟨_, rfl⟩
  have hs' : s' = s.setWord page (pgoff a / 4)
      (setByte (s.word page (pgoff a / 4)) (pgoff a % 4) b) := by
    unfold Sisop.storeByte at hr
    simp only at hr
    split_ifs at hr
    obtain ⟨-, hr⟩ := Outcome.ret.inj hr
    rw [hpage]
    exact hr.symm
  have hother (q : ℕ) (hq : q ≠ page) : s'.word q = s.word q := by
    rw [hs']
    exact Function.update_of_ne hq _ _
  intro y hseen
  have hdir : s'.word g (pdx y) = s.word g (pdx y) := by
    rw [hother g (hpage ▸ h.notDir.symm)]
  have hat : pageAt s' g y = pageAt s g y := by
    unfold pageAt
    rw [hdir, hother _ (hpage ▸ (h.notTable y hseen).symm)]
  refine ⟨?_, hdir, hat⟩
  unfold userMem
  rw [hat, Function.update_apply]
  by_cases hy : pageAt s g y = page
  · have hnum : pgnum y = pgnum a := h.alone y hseen (hy.trans hpage)
    rw [hy]
    by_cases hi : pgoff y / 4 = pgoff a / 4
    · rw [hi, hs']
      have hself : (s.setWord page (pgoff a / 4) (setByte (s.word page (pgoff a / 4)) (pgoff a % 4) b)).word
          page (pgoff a / 4) = setByte (s.word page (pgoff a / 4)) (pgoff a % 4) b := by
        simp only [Pm.setWord, Function.update_self]
      rw [hself, byteOf_setByte _ _ (Nat.mod_lt _ (by decide)) (Nat.mod_lt _ (by decide))]
      by_cases hj : pgoff y % 4 = pgoff a % 4
      · rw [if_pos hj, if_pos (eq_of_page_offset hnum (by omega))]
      · rw [if_neg hj, if_neg]
        rintro rfl
        exact hj rfl
    · have hword : s'.word page (pgoff y / 4) = s.word page (pgoff y / 4) := by
        rw [hs']
        simp only [Pm.setWord, Function.update_self, Function.update_of_ne hi]
      rw [hword, if_neg]
      rintro rfl
      exact hi rfl
  · rw [hother _ hy, if_neg]
    rintro rfl
    exact hy hpage.symm

end UserBytes
end Sisop
