import Sisop.Pmap

/-! How the processor translates a linear address through a page directory, with
pages of 4 MB enabled. -/
namespace Sisop

/-- The physical address, and what both levels of tables allow. -/
structure Translation where
  pa : Word
  writable : Bool
  user : Bool
  cacheDisable : Bool
  writeThrough : Bool
  deriving DecidableEq

/-- The translation by the last entry `entry` of the walk, whose address bits are `frame`. -/
def Translation.of (frame : Word) (pde entry : Word) : Translation where
  pa := frame
  writable := has pde pteW && has entry pteW
  user := has pde pteU && has entry pteU
  cacheDisable := has entry ptePCD
  writeThrough := has entry ptePWT

/-- An entry of a page directory with `PTE_PS` maps 4 MB itself; any other one refers to
a page table. -/
def translate (word : ℕ → ℕ → Word) (g : ℕ) (va : Word) : Option Translation :=
  let pde := word g (pdx va)
  if ¬ has pde pteP then none
  else if has pde ptePS then some (.of ((pde &&& ~~~(0x3FFFFF#32)) ||| (va &&& 0x3FFFFF#32)) pde pde)
  else
    let pte := word (pgnum pde) (ptx va)
    if ¬ has pte pteP then none
    else some (.of (pteAddr pte ||| (va &&& 0xFFF#32)) pde pte)

section Translate

variable {word word' : ℕ → ℕ → Word} {g : ℕ} {va : Word}

/-- Two words are all that the processor reads. -/
theorem translate_congr (hpde : word' g (pdx va) = word g (pdx va))
    (hpte : has (word g (pdx va)) pteP → ¬ has (word g (pdx va)) ptePS →
      word' (pgnum (word g (pdx va))) (ptx va) = word (pgnum (word g (pdx va))) (ptx va)) :
    translate word' g va = translate word g va := by
  simp only [translate, hpde]
  by_cases hp : has (word g (pdx va)) pteP
  · by_cases hps : has (word g (pdx va)) ptePS
    · rw [if_neg (not_not_intro hp), if_neg (not_not_intro hp), if_pos hps, if_pos hps]
    · rw [hpte hp hps]
  · rw [if_pos hp, if_pos hp]

theorem translate_none_of_pde (h : ¬ has (word g (pdx va)) pteP) : translate word g va = none := by
  unfold translate
  rw [if_pos h]

/-- An address in multiples of the page size has no bits in the way of the flags. -/
theorem low_bit_of_aligned {w : Word} {k i : ℕ} (h : w.toNat % 2^k = 0) (hi : i < k) : w.getLsbD i = false := by
  obtain ⟨m, hm⟩ := Nat.dvd_of_mod_eq_zero h
  rw [BitVec.getLsbD, hm, Nat.mul_comm, Nat.testBit_mul_two_pow]
  simp only [Nat.not_le.mpr hi, decide_false, Bool.false_and]

theorem high_bit_of_lt {w : Word} {k i : ℕ} (h : w.toNat < 2^k) (hi : k ≤ i) : w.getLsbD i = false := by
  rw [BitVec.getLsbD]
  exact Nat.testBit_lt_two_pow (lt_of_lt_of_le h (Nat.pow_le_pow_right (by decide) hi))

/-- The address bits of an entry. -/
theorem entry_address {w f : Word} {k : ℕ} (hw : w.toNat % 2^k = 0) (hf : f.toNat < 2^k) :
    (w ||| f) &&& ~~~(BitVec.ofNat 32 (2^k - 1)) = w := by
  apply BitVec.eq_of_getLsbD_eq
  intro i hi
  simp only [BitVec.getLsbD_and, BitVec.getLsbD_or, BitVec.getLsbD_not, BitVec.getLsbD_ofNat, hi, decide_true,
    Bool.true_and, Nat.testBit_two_pow_sub_one]
  by_cases hik : i < k
  · simp only [hik, decide_true, Bool.not_true, Bool.and_false, low_bit_of_aligned hw hik]
  · simp only [hik, decide_false, Bool.not_false, Bool.and_true, high_bit_of_lt hf (Nat.le_of_not_lt hik),
      Bool.or_false]

/-- The flags of an entry. -/
theorem entry_flag {w f : Word} {k i : ℕ} (hw : w.toNat % 2^k = 0) (hi : i < k) (hk : k ≤ 32) :
    has (w ||| f) (BitVec.twoPow 32 i) ↔ has f (BitVec.twoPow 32 i) := by
  rw [has_twoPow _ _ (by omega), has_twoPow _ _ (by omega), BitVec.getLsbD_or, low_bit_of_aligned hw hi,
    Bool.false_or]

/-- The offset is put below the address. -/
theorem entry_offset {w o : Word} {k : ℕ} (hw : w.toNat % 2^k = 0) (ho : o.toNat < 2^k) :
    (w ||| o).toNat = w.toNat + o.toNat := by
  obtain ⟨m, hm⟩ := Nat.dvd_of_mod_eq_zero hw
  rw [BitVec.toNat_or, hm, Nat.two_pow_add_eq_or_of_lt ho]

end Translate
end Sisop
