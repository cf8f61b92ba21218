import Mathlib.Tactic.DeriveFintype
import Mathlib.Data.Fintype.Sigma
import Mathlib.Data.Fintype.Sum
import Sisop.Pmap
import Sisop.RefTable

/-! The places of memory that hold a counted reference to a physical page: the
page directory of an environment, a user page-directory entry, a present entry
of a user page table, and an entry of `kern_pgdir` that points to a page table. -/
namespace Sisop

/-- `NENV`. -/
abbrev nenv : ℕ := 1024

abbrev EnvIdx := Fin nenv

/-- `PDX(UTOP)`: the directory entries below it belong to the user. -/
abbrev userPdes : ℕ := 955

/-- `PDX(UVPT)`: the entry through which a directory maps itself. -/
abbrev uvptPde : ℕ := 957

abbrev PdeIdx := Fin userPdes
abbrev PteIdx := Fin nptentries

inductive Slot where
  | dir (e : EnvIdx)
  | pde (e : EnvIdx) (d : PdeIdx)
  | pte (e : EnvIdx) (d : PdeIdx) (t : PteIdx)
  | kpde (d : PteIdx)
  deriving DecidableEq, Fintype

/-- Slots whose target is a page directory or a page table. -/
def Slot.isTable : Slot → Prop
  | .pte _ _ _ => False
  | _ => True

/-- The page a present entry refers to. -/
def target (w : Word) : Option ℕ := if has w pteP then some (pgnum w) else none

/-- The page table an entry of `kern_pgdir` refers to. The self-map and 4 MB
entries refer to none. -/
def kernTarget (d : ℕ) (w : Word) : Option ℕ :=
  if d < userPdes ∨ d = uvptPde ∨ has w ptePS then none else target w

/-- What every slot holds, given the page directories of the live environments. -/
def slotMap (s : Pm) (D : EnvIdx → Option ℕ) : Slot → Option ℕ
  | .dir e => D e
  | .pde e d => (D e).bind fun g => target (s.word g d)
  | .pte e d t => (D e).bind fun g => (target (s.word g d)).bind fun p => target (s.word p t)
  | .kpde d => kernTarget d (s.word s.kernPgdir d)

/-- A page that is a page directory or a page table. -/
def TablePage (s : Pm) (D : EnvIdx → Option ℕ) (p : ℕ) : Prop :=
  p = s.kernPgdir ∨ ∃ i : Slot, i.isTable ∧ slotMap s D i = some p

theorem target_zero : target 0#32 = none := by decide

theorem target_of_has {w : Word} (h : has w pteP) : target w = some (pgnum w) := if_pos h

theorem target_eq_some {w : Word} {p : ℕ} (h : target w = some p) : has w pteP ∧ pgnum w = p := by
  unfold target at h
  split_ifs at h with hw
  exact ⟨hw, Option.some.inj h⟩

section SlotMap

variable {s s' : Pm} {D : EnvIdx → Option ℕ}

theorem slotMap_pde {e : EnvIdx} {g : ℕ} (hg : D e = some g) (d : PdeIdx) :
    slotMap s D (.pde e d) = target (s.word g d) := by
  simp only [slotMap, hg, Option.bind_some]

theorem slotMap_pte {e : EnvIdx} {d : PdeIdx} {p : ℕ} (hp : slotMap s D (.pde e d) = some p)
    (t : PteIdx) : slotMap s D (.pte e d t) = target (s.word p t) := by
  obtain ⟨g, hg, hw⟩ := Option.bind_eq_some_iff.mp hp
  simp only [slotMap, hg, hw, Option.bind_some]

theorem slotMap_pte_of_none {e : EnvIdx} {d : PdeIdx} (hp : slotMap s D (.pde e d) = none)
    (t : PteIdx) : slotMap s D (.pte e d t) = none := by
  simp only [slotMap] at hp ⊢
  cases hg : D e with
  | none => rfl
  | some g =>
    rw [hg, Option.bind_some] at hp
    rw [Option.bind_some, hp]
    rfl

theorem tablePage_dir {e : EnvIdx} {g : ℕ} (hg : D e = some g) : TablePage s D g :=
  Or.inr ⟨.dir e, trivial, hg⟩

theorem tablePage_pde {e : EnvIdx} {d : PdeIdx} {p : ℕ} (hp : slotMap s D (.pde e d) = some p) :
    TablePage s D p := Or.inr ⟨.pde e d, trivial, hp⟩

/-- The slots depend on the contents of the table pages only. -/
theorem slotMap_congr (hk : s'.kernPgdir = s.kernPgdir)
    (hw : ∀ p, TablePage s D p → s'.word p = s.word p) : slotMap s' D = slotMap s D := by
  have hpde (e : EnvIdx) (d : PdeIdx) : slotMap s' D (.pde e d) = slotMap s D (.pde e d) := by
    cases hg : D e with
    | none => simp only [slotMap, hg, Option.bind_none]
    | some g => rw [slotMap_pde hg, slotMap_pde hg, hw g (tablePage_dir hg)]
  funext i
  cases i with
  | dir e => rfl
  | pde e d => exact hpde e d
  | pte e d t =>
    cases hp : slotMap s D (.pde e d) with
    | none => rw [slotMap_pte_of_none hp, slotMap_pte_of_none ((hpde e d).trans hp)]
    | some p =>
      rw [slotMap_pte hp, slotMap_pte ((hpde e d).trans hp), hw p (tablePage_pde hp)]
  | kpde d => simp only [slotMap, hk, hw _ (Or.inl rfl)]

theorem setWord_word_ne {p q i : ℕ} {w : Word} (h : q ≠ p) : (s.setWord p i w).word q = s.word q := by
  simp only [Pm.setWord, Function.update_of_ne h]

theorem setWord_word_self (p i j : ℕ) (w : Word) :
    (s.setWord p i w).word p j = if j = i then w else s.word p j := by
  simp only [Pm.setWord, Function.update_self, Function.update_apply]

end SlotMap

/-- No page plays two parts: a page table or directory is reached from one slot
only, and `kern_pgdir` from none. -/
structure Apart (s : Pm) (D : EnvIdx → Option ℕ) : Prop where
  unique : ∀ i j p, i.isTable → slotMap s D i = some p → slotMap s D j = some p → j = i
  kern : ∀ i, slotMap s D i ≠ some s.kernPgdir

section Writes

variable {s : Pm} {D : EnvIdx → Option ℕ}

/-- Writing an entry of a user page table changes the slot of that entry. -/
theorem slotMap_setWord_pte (ha : Apart s D) {e : EnvIdx} {d : PdeIdx} {p : ℕ}
    (hp : slotMap s D (.pde e d) = some p) (t : PteIdx) (w : Word) :
    slotMap (s.setWord p t w) D = Function.update (slotMap s D) (.pte e d t) (target w) := by
  have hdir (e' : EnvIdx) : D e' ≠ some p := fun hg => by
    cases ha.unique (.pde e d) (.dir e') p trivial hp hg
  have hpde (e' : EnvIdx) (d' : PdeIdx) :
      slotMap (s.setWord p t w) D (.pde e' d') = slotMap s D (.pde e' d') := by
    cases hg : D e' with
    | none => simp only [slotMap, hg, Option.bind_none]
    | some g =>
      have hgp : g ≠ p := fun h => hdir e' (h ▸ hg)
      rw [slotMap_pde hg, slotMap_pde hg, setWord_word_ne hgp]
  funext i
  cases i with
  | dir e' => rfl
  | pde e' d' => rw [hpde, Function.update_of_ne (by simp)]
  | pte e' d' t' =>
    cases hq : slotMap s D (.pde e' d') with
    | none =>
      have hne : Slot.pte e' d' t' ≠ .pte e d t := by
        rintro ⟨⟩
        rw [hp] at hq
        exact absurd hq (by simp)
      rw [slotMap_pte_of_none ((hpde e' d').trans hq), Function.update_of_ne hne,
        slotMap_pte_of_none hq]
    | some q =>
      rw [slotMap_pte ((hpde e' d').trans hq)]
      by_cases hqp : q = p
      · subst hqp
        obtain ⟨rfl, rfl⟩ : e' = e ∧ d' = d := by
          have := ha.unique (.pde e d) (.pde e' d') q trivial hp hq
          simpa using this
        rw [setWord_word_self, Function.update_apply, slotMap_pte hq]
        by_cases ht : t' = t
        · subst ht
          simp
        · have hv : (t' : ℕ) ≠ t := fun h => ht (Fin.ext h)
          simp [ht, hv]
      · have hne : Slot.pte e' d' t' ≠ .pte e d t := by
          rintro ⟨⟩
          rw [hp] at hq
          exact hqp (Option.some.inj hq).symm
        rw [setWord_word_ne hqp, Function.update_of_ne hne, slotMap_pte hq]
  | kpde d' =>
    rw [Function.update_of_ne (by simp)]
    simp only [slotMap]
    have hkp : s.kernPgdir ≠ p := fun h => ha.kern _ (h ▸ hp)
    change kernTarget d' ((s.setWord p t w).word s.kernPgdir d') = _
    rw [setWord_word_ne hkp]

/-- Writing a user directory entry changes its slot only, if neither the table
it leaves nor the one it takes up maps anything. -/
theorem slotMap_setWord_pde (ha : Apart s D) {e : EnvIdx} {g : ℕ} (hg : D e = some g) (d : PdeIdx)
    (w : Word) (hold : ∀ t, slotMap s D (.pte e d t) = none) (hwg : target w ≠ some g)
    (hnew : ∀ p t, target w = some p → target (s.word p t) = none) :
    slotMap (s.setWord g d w) D = Function.update (slotMap s D) (.pde e d) (target w) := by
  have hdir (e' : EnvIdx) (he : e' ≠ e) : D e' ≠ some g := fun hg' => by
    cases ha.unique (.dir e) (.dir e') g trivial hg hg'
    exact he rfl
  have hpt (e' : EnvIdx) (d' : PdeIdx) : slotMap s D (.pde e' d') ≠ some g := fun hq => by
    cases ha.unique (.dir e) (.pde e' d') g trivial hg hq
  have hpde (e' : EnvIdx) (d' : PdeIdx) (hne : Slot.pde e' d' ≠ .pde e d) :
      slotMap (s.setWord g d w) D (.pde e' d') = slotMap s D (.pde e' d') := by
    cases hg' : D e' with
    | none => simp only [slotMap, hg', Option.bind_none]
    | some g' =>
      rw [slotMap_pde hg', slotMap_pde hg']
      by_cases he : e' = e
      · subst he
        obtain rfl : g = g' := Option.some.inj (hg.symm.trans hg')
        have hd : (d' : ℕ) ≠ d := fun h => hne (congrArg (Slot.pde e') (Fin.ext h))
        rw [setWord_word_self, if_neg hd]
      · have hgg : g' ≠ g := fun h => hdir e' he (h ▸ hg')
        rw [setWord_word_ne hgg]
  have hself : slotMap (s.setWord g d w) D (.pde e d) = target w := by
    rw [slotMap_pde hg, setWord_word_self, if_pos rfl]
  funext i
  cases i with
  | dir e' => rfl
  | pde e' d' =>
    by_cases hne : Slot.pde e' d' = .pde e d
    · cases hne
      rw [hself, Function.update_self]
    · rw [hpde e' d' hne, Function.update_of_ne hne]
  | pte e' d' t =>
    rw [Function.update_of_ne (by simp)]
    by_cases hne : Slot.pde e' d' = .pde e d
    · cases hne
      rw [hold t]
      cases hw : target w with
      | none => exact slotMap_pte_of_none (hself.trans hw) t
      | some p =>
        have hpg : p ≠ g := fun h => hwg (h ▸ hw)
        rw [slotMap_pte (hself.trans hw), setWord_word_ne hpg]
        exact hnew p t hw
    · cases hq : slotMap s D (.pde e' d') with
      | none => rw [slotMap_pte_of_none ((hpde e' d' hne).trans hq), slotMap_pte_of_none hq]
      | some q =>
        have hqg : q ≠ g := fun h => hpt e' d' (h ▸ hq)
        rw [slotMap_pte ((hpde e' d' hne).trans hq), slotMap_pte hq, setWord_word_ne hqg]
  | kpde d' =>
    have hkg : s.kernPgdir ≠ g := fun h => ha.kern (.dir e) (h ▸ hg)
    rw [Function.update_of_ne (by simp)]
    simp only [slotMap]
    change kernTarget d' ((s.setWord g d w).word s.kernPgdir d') = _
    rw [setWord_word_ne hkg]

/-- Writing an entry of `kern_pgdir` changes its slot only. -/
theorem slotMap_setWord_kpde (ha : Apart s D) (d : PteIdx) (w : Word) :
    slotMap (s.setWord s.kernPgdir d w) D =
      Function.update (slotMap s D) (.kpde d) (kernTarget d w) := by
  have hpde (e : EnvIdx) (d' : PdeIdx) :
      slotMap (s.setWord s.kernPgdir d w) D (.pde e d') = slotMap s D (.pde e d') := by
    cases hg : D e with
    | none => simp only [slotMap, hg, Option.bind_none]
    | some g =>
      have hgk : g ≠ s.kernPgdir := fun h => ha.kern (.dir e) (h ▸ hg)
      rw [slotMap_pde hg, slotMap_pde hg, setWord_word_ne hgk]
  funext i
  cases i with
  | dir e => rfl
  | pde e d' => rw [hpde, Function.update_of_ne (by simp)]
  | pte e d' t =>
    rw [Function.update_of_ne (by simp)]
    cases hq : slotMap s D (.pde e d') with
    | none => rw [slotMap_pte_of_none ((hpde e d').trans hq), slotMap_pte_of_none hq]
    | some q =>
      have hqk : q ≠ s.kernPgdir := fun h => ha.kern (.pde e d') (h ▸ hq)
      rw [slotMap_pte ((hpde e d').trans hq), slotMap_pte hq, setWord_word_ne hqk]
  | kpde d' =>
    change kernTarget d' ((s.setWord s.kernPgdir d w).word s.kernPgdir d') = _
    rw [setWord_word_self, Function.update_apply]
    by_cases hd : d' = d
    · subst hd
      simp
    · have hv : (d' : ℕ) ≠ d := fun h => hd (Fin.ext h)
      simp [hd, hv, slotMap]

/-- Giving an environment a directory, or taking it away, changes the slot of
that directory only, if the directory has no user entries. -/
theorem slotMap_update_dir {e : EnvIdx} (x : Option ℕ) (hold : ∀ d, slotMap s D (.pde e d) = none)
    (hnew : ∀ (g : ℕ) (d : PdeIdx), x = some g → target (s.word g d) = none) :
    slotMap s (Function.update D e x) = Function.update (slotMap s D) (.dir e) x := by
  have hpde (e' : EnvIdx) (d : PdeIdx) :
      slotMap s (Function.update D e x) (.pde e' d) = slotMap s D (.pde e' d) := by
    by_cases he : e' = e
    · subst he
      rw [hold d]
      cases x with
      | none => simp only [slotMap, Function.update_self, Option.bind_none]
      | some g => rw [slotMap_pde (Function.update_self _ _ _), hnew g d rfl]
    · simp only [slotMap, Function.update_of_ne he]
  funext i
  cases i with
  | dir e' =>
    by_cases he : e' = e
    · subst he
      simp only [slotMap, Function.update_self]
    · simp only [slotMap, Function.update_of_ne he, Function.update_of_ne
        (show Slot.dir e' ≠ .dir e from fun h => he (Slot.dir.inj h))]
  | pde e' d => rw [hpde, Function.update_of_ne (by simp)]
  | pte e' d t =>
    rw [Function.update_of_ne (by simp)]
    cases hq : slotMap s D (.pde e' d) with
    | none => rw [slotMap_pte_of_none ((hpde e' d).trans hq), slotMap_pte_of_none hq]
    | some q => rw [slotMap_pte ((hpde e' d).trans hq), slotMap_pte hq]
  | kpde d => rfl

end Writes
end Sisop
