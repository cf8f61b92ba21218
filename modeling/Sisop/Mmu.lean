import Mathlib.Data.BitVec
import Mathlib.Tactic.Common

/-! Machine words and the address macros of `inc/types.h`, `inc/mmu.h` and
`inc/memlayout.h`. A linear address splits into a page-directory index, a
page-table index and an offset; a table entry into a page number and flags. -/
namespace Sisop

abbrev Word := BitVec 32

theorem toNat_ofNat_of_lt {n : ℕ} (h : n < 2^31) : (BitVec.ofNat 32 n).toNat = n := by
  rw [BitVec.toNat_ofNat, Nat.mod_eq_of_lt (by omega)]

theorem toInt_ofNat_of_lt {n : ℕ} (h : n < 2^31) : (BitVec.ofNat 32 n).toInt = n := by
  rw [BitVec.toInt_eq_toNat_of_lt, toNat_ofNat_of_lt h]
  rw [toNat_ofNat_of_lt h]
  omega

/-- `PGSIZE`, the bytes mapped by one page. -/
abbrev pgsize : ℕ := 4096

/-- `NPTENTRIES`, the entries of a page table and of a page directory. -/
abbrev nptentries : ℕ := 1024

/-- `PTSIZE`, the bytes mapped by one page-directory entry. -/
abbrev ptsize : ℕ := pgsize * nptentries

abbrev pteP : Word := 0x001#32
abbrev pteW : Word := 0x002#32
abbrev pteU : Word := 0x004#32
abbrev ptePWT : Word := 0x008#32
abbrev ptePCD : Word := 0x010#32
abbrev ptePS : Word := 0x080#32
abbrev pteAvail : Word := 0xE00#32

/-- `PTE_SYSCALL`, the flags a system call may ask for. -/
abbrev pteSyscall : Word := pteAvail ||| pteP ||| pteW ||| pteU

abbrev kernbase : Word := 0xF0000000#32
abbrev iophysmem : Word := 0x0A0000#32
abbrev kstacktop : Word := kernbase
abbrev kstksize : Word := 0x8000#32
abbrev kstkgap : Word := 0x8000#32
abbrev mmiobase : Word := 0xEF800000#32
abbrev ulim : Word := mmiobase
abbrev uvpt : Word := 0xEF400000#32
abbrev upages : Word := 0xEF000000#32
abbrev uenvs : Word := 0xEEC00000#32
abbrev utop : Word := uenvs
abbrev uxstacktop : Word := utop
abbrev ustacktop : Word := 0xEEBFE000#32

/-- `PGNUM(la)`. -/
def pgnum (la : Word) : ℕ := (la >>> 12).toNat

/-- `PDX(la)`. -/
def pdx (la : Word) : ℕ := ((la >>> 22) &&& 0x3FF#32).toNat

/-- `PTX(la)`. -/
def ptx (la : Word) : ℕ := ((la >>> 12) &&& 0x3FF#32).toNat

/-- `PGOFF(la)`. -/
def pgoff (la : Word) : ℕ := (la &&& 0xFFF#32).toNat

/-- `PGADDR(d, t, o)`. -/
def pgaddr (d t o : ℕ) : Word :=
  BitVec.ofNat 32 d <<< 22 ||| BitVec.ofNat 32 t <<< 12 ||| BitVec.ofNat 32 o

/-- `PTE_ADDR(pte)`. -/
def pteAddr (pte : Word) : Word := pte &&& ~~~(0xFFF#32)

/-- `page2pa(pp)`, for the page number `pp - pages`. -/
def page2pa (pp : ℕ) : Word := BitVec.ofNat 32 pp <<< 12

/-- `ROUNDDOWN(a, PGSIZE)`. -/
def rounddown (a : Word) : Word := a - a % 4096#32

/-- `ROUNDUP(a, PGSIZE)`, computed in `uint32_t`. -/
def roundup (a : Word) : Word := rounddown (a + 4096#32 - 1#32)

/-- All bits of `perm` are set in `w`. -/
def has (w perm : Word) : Prop := w &&& perm = perm

instance (w perm : Word) : Decidable (has w perm) := inferInstanceAs (Decidable (_ = _))

theorem pgnum_eq (la : Word) : pgnum la = la.toNat / 4096 := by
  simp only [pgnum, BitVec.toNat_ushiftRight, Nat.shiftRight_eq_div_pow]

theorem pdx_eq (la : Word) : pdx la = la.toNat / 4194304 := by
  have h : la.toNat / 2^22 < 2^10 := by have := la.isLt; omega
  have hm : (0x3FF#32).toNat = 2^10 - 1 := rfl
  simp only [pdx, BitVec.toNat_and, BitVec.toNat_ushiftRight, Nat.shiftRight_eq_div_pow]
  rw [hm, Nat.and_two_pow_sub_one_eq_mod, Nat.mod_eq_of_lt h]
  rfl

theorem ptx_eq (la : Word) : ptx la = la.toNat / 4096 % 1024 := by
  have hm : (0x3FF#32).toNat = 2^10 - 1 := rfl
  simp only [ptx, BitVec.toNat_and, BitVec.toNat_ushiftRight, Nat.shiftRight_eq_div_pow]
  rw [hm, Nat.and_two_pow_sub_one_eq_mod]

theorem pgoff_eq (la : Word) : pgoff la = la.toNat % 4096 := by
  have hm : (0xFFF#32).toNat = 2^12 - 1 := rfl
  simp only [pgoff, BitVec.toNat_and]
  rw [hm, Nat.and_two_pow_sub_one_eq_mod]

theorem pdx_lt (la : Word) : pdx la < 1024 := by
  rw [pdx_eq]
  have := la.isLt
  omega

theorem ptx_lt (la : Word) : ptx la < 1024 := by
  rw [ptx_eq]
  omega

/-- A word without bits above the page offset has page number zero. -/
theorem pgnum_of_flags (w : Word) (h : w.toNat < 4096) : pgnum w = 0 := by
  rw [pgnum_eq]
  omega

theorem pgnum_or (a b : Word) : pgnum (a ||| b) = pgnum a ||| pgnum b := by
  simp only [pgnum, BitVec.ushiftRight_or_distrib, BitVec.toNat_or]

theorem pgnum_pteAddr (w : Word) : pgnum (pteAddr w) = pgnum w := by
  have h : w.toNat / 2^12 < 2^20 := by have := w.isLt; omega
  have hm : (~~~(0xFFF#32) >>> 12).toNat = 2^20 - 1 := by decide
  simp only [pgnum, pteAddr, BitVec.ushiftRight_and_distrib, BitVec.toNat_and, hm]
  rw [Nat.and_two_pow_sub_one_eq_mod, BitVec.toNat_ushiftRight, Nat.shiftRight_eq_div_pow,
    Nat.mod_eq_of_lt h]

theorem pgnum_page2pa (pp : ℕ) (h : pp < 2^20) : pgnum (page2pa pp) = pp := by
  rw [pgnum_eq, page2pa, BitVec.toNat_shiftLeft, BitVec.toNat_ofNat, Nat.shiftLeft_eq]
  omega

/-- The entry that maps page `pp` with flags `perm`: its page number is `pp`. -/
theorem pgnum_entry (pp : ℕ) (perm : Word) (h : pp < 2^20) (hp : perm.toNat < 4096) :
    pgnum (page2pa pp ||| perm ||| pteP) = pp := by
  rw [pgnum_or, pgnum_or, pgnum_page2pa pp h, pgnum_of_flags perm hp,
    pgnum_of_flags pteP (by decide), Nat.or_zero, Nat.or_zero]

theorem has_iff {w f : Word} : has w f ↔ ∀ i, f.getLsbD i = true → w.getLsbD i = true := by
  constructor
  · intro h i hi
    have hbit : (w &&& f).getLsbD i = f.getLsbD i := congrArg (fun v => BitVec.getLsbD v i) h
    rw [BitVec.getLsbD_and, hi, Bool.and_true] at hbit
    exact hbit
  · intro h
    apply BitVec.eq_of_getLsbD_eq
    intro i _
    rw [BitVec.getLsbD_and]
    cases hf : f.getLsbD i with
    | false => exact Bool.and_false _
    | true => rw [h i hf, Bool.and_true]

theorem has_mono {w f f' : Word} (h : has w f) (hf : has f f') : has w f' :=
  has_iff.mpr fun i hi => has_iff.mp h i (has_iff.mp hf i hi)

theorem has_and {a b c : Word} (h : has (a &&& b) c) : has a c := by
  apply has_iff.mpr
  intro i hi
  have hbit := has_iff.mp h i hi
  rw [BitVec.getLsbD_and, Bool.and_eq_true] at hbit
  exact hbit.1

theorem has_or_right {a w f : Word} (h : has w f) : has (a ||| w) f := by
  apply has_iff.mpr
  intro i hi
  rw [BitVec.getLsbD_or, has_iff.mp h i hi, Bool.or_true]

theorem has_of_or {w a b : Word} (h : has w (a ||| b)) : has w a := by
  apply has_iff.mpr
  intro i hi
  apply has_iff.mp h i
  rw [BitVec.getLsbD_or, hi, Bool.true_or]

/-- A single flag is tested by looking at its bit. -/
theorem has_twoPow (w : Word) (i : ℕ) (hi : i < 32) :
    has w (BitVec.twoPow 32 i) ↔ w.getLsbD i = true := by
  have hz : BitVec.twoPow 32 i ≠ 0#32 := by
    intro h
    have hb := congrArg (fun v => v.getLsbD i) h
    simp only [BitVec.getLsbD_twoPow, hi, decide_true, Bool.and_self, BitVec.getLsbD_zero,
      Bool.true_eq_false] at hb
  rw [has, BitVec.and_twoPow]
  cases w.getLsbD i with
  | true => simp only [↓reduceIte]
  | false => simpa only [Bool.false_eq_true, ↓reduceIte, iff_false] using hz.symm

theorem has_pteP (w : Word) : has w pteP ↔ w.getLsbD 0 = true :=
  has_twoPow w 0 (by decide)

theorem has_pteW (w : Word) : has w pteW ↔ w.getLsbD 1 = true :=
  has_twoPow w 1 (by decide)

theorem page2pa_low_bit (pp i : ℕ) (hi : i < 12) : (page2pa pp).getLsbD i = false := by
  simp only [page2pa, BitVec.getLsbD_shiftLeft, hi, decide_true, Bool.not_true, Bool.and_false,
    Bool.false_and]

theorem has_pteP_entry (pp : ℕ) (perm : Word) : has (page2pa pp ||| perm ||| pteP) pteP := by
  rw [has_pteP, BitVec.getLsbD_or]
  simp

/-- A mapping is writable exactly when the permissions it was made with are. -/
theorem has_pteW_entry (pp : ℕ) (perm : Word) :
    has (page2pa pp ||| perm ||| pteP) pteW ↔ has perm pteW := by
  rw [has_pteW, has_pteW, BitVec.getLsbD_or, BitVec.getLsbD_or, page2pa_low_bit pp 1 (by decide)]
  simp

theorem ne_zero_of_has_pteP {w : Word} (h : has w pteP) : w ≠ 0#32 := by
  rintro rfl
  exact absurd h (by decide)

theorem rounddown_toNat (a : Word) : (rounddown a).toNat = a.toNat / 4096 * 4096 := by
  have ha : a.toNat < 2^32 := a.isLt
  unfold rounddown
  rw [BitVec.toNat_sub, BitVec.toNat_umod]
  change (2^32 - a.toNat % 4096 + a.toNat) % 2^32 = _
  omega

theorem roundup_toNat {a : Word} (h : a.toNat + 4096 ≤ 2^32) :
    (roundup a).toNat = (a.toNat + 4095) / 4096 * 4096 := by
  have hadd : (a + 4096#32 - 1#32).toNat = a.toNat + 4095 := by bv_omega
  rw [roundup, rounddown_toNat, hadd]

/-- Rounding up near the end of the address space gives address 0. -/
theorem roundup_wrap {a : Word} (h : 2^32 < a.toNat + 4096) : roundup a = 0#32 := by
  have hadd : (a + 4096#32 - 1#32).toNat < 4096 := by bv_omega
  apply BitVec.eq_of_toNat_eq
  rw [roundup, rounddown_toNat, Nat.div_eq_of_lt hadd]
  rfl

end Sisop
