import Mathlib.Order.Interval.Finset.Nat
import Sisop.Boot
import Sisop.PageMaps

/-! `mem_init` establishes the memory invariant, with no environments yet: the
free list of `page_init`, and the page tables of `boot_map_region`. -/
namespace Sisop

/-- The pages that `page_init` leaves in use. -/
def Reserved (first fin i : ℕ) : Prop := first ≤ i ∧ i < fin ∨ i = 7

instance (first fin i : ℕ) : Decidable (Reserved first fin i) :=
  inferInstanceAs (Decidable (_ ∨ _))

/-- The free pages among the first `n`, from page 1 on. -/
def freePages (first fin n : ℕ) : List ℕ :=
  (List.range' 1 n).filter fun i => ¬ Reserved first fin i

theorem freePages_succ (first fin n : ℕ) : freePages first fin (n+1) =
    freePages first fin n ++ if Reserved first fin (n+1) then [] else [n+1] := by
  rw [freePages, List.range'_concat, List.filter_append, freePages,
    show 1 + 1 * n = n + 1 by omega]
  by_cases h : Reserved first fin (n+1)
  · simp [h]
  · simp [h]

theorem mem_freePages {first fin n i : ℕ} :
    i ∈ freePages first fin n ↔ 1 ≤ i ∧ i ≤ n ∧ ¬ Reserved first fin i := by
  simp only [freePages, List.mem_filter, List.mem_range'_1, decide_eq_true_eq]
  constructor
  · rintro ⟨⟨h1, h2⟩, h3⟩
    exact ⟨h1, by omega, h3⟩
  · rintro ⟨h1, h2, h3⟩
    exact ⟨⟨h1, by omega⟩, h3⟩

/-- Behind the tables of `mem_init` every page is free. -/
theorem le_length_freePages {first fin n : ℕ} (h7 : 7 < fin) :
    n + 1 - fin ≤ (freePages first fin n).length := by
  have hsub : Finset.Icc fin n ⊆ (freePages first fin n).toFinset := by
    intro i hi
    obtain ⟨h1, h2⟩ := Finset.mem_Icc.mp hi
    refine List.mem_toFinset.mpr (mem_freePages.mpr ⟨by omega, h2, ?_⟩)
    rintro (⟨-, h⟩ | h)
    · omega
    · omega
  calc n + 1 - fin = (Finset.Icc fin n).card := (Nat.card_Icc fin n).symm
    _ ≤ (freePages first fin n).toFinset.card := Finset.card_le_card hsub
    _ ≤ (freePages first fin n).length := List.toFinset_card_le _

theorem nodup_freePages (first fin n : ℕ) : (freePages first fin n).Nodup :=
  List.Nodup.filter _ List.nodup_range'

/-- What holds after the rounds of `page_init` up to page `n`. -/
structure PageInitInv (s₀ : Pm) (first fin n : ℕ) (r : Option ℕ × Pm) : Prop where
  chain : Chain (fun p => (r.2.pages p).ppLink) r.2.pageFreeList (freePages first fin n)
  last : (freePages first fin n).getLast? = r.1
  unlinked : ∀ p, p ∉ freePages first fin n → (r.2.pages p).ppLink = none
  lastLink : ∀ p, r.1 = some p → (r.2.pages p).ppLink = none
  ref : ∀ p, (r.2.pages p).ppRef = 0
  npages : r.2.npages = s₀.npages
  kern : r.2.kernPgdir = s₀.kernPgdir
  word : r.2.word = s₀.word

/-- The loop of `page_init` strings the free pages together in ascending order. -/
theorem pageInitLoop_inv (s₀ : Pm) (first fin n : ℕ) (hf : s₀.pageFreeList = none)
    (hp : s₀.pages = fun _ => ⟨none, 0⟩) :
    PageInitInv s₀ first fin n (pageInitLoop first fin s₀ n) := by
  induction n with
  | zero => exact ⟨hf, rfl, by simp [pageInitLoop, hp], by simp [pageInitLoop],
      by simp [pageInitLoop, hp], rfl, rfl, rfl⟩
  | succ n ih =>
    rw [pageInitLoop]
    generalize pageInitLoop first fin s₀ n = r at ih
    obtain ⟨cur, s⟩ := r
    have hnew : n+1 ∉ freePages first fin n := fun h => by
      have := (mem_freePages.mp h).2.1
      omega
    change PageInitInv s₀ first fin (n+1) (pageInitRound first fin (n+1) cur s)
    by_cases hres : Reserved first fin (n+1)
    · have hl : freePages first fin (n+1) = freePages first fin n := by
        rw [freePages_succ, if_pos hres, List.append_nil]
      have hr : pageInitRound first fin (n+1) cur s = (cur, s) := if_pos hres
      rw [hr]
      exact ⟨hl ▸ ih.chain, hl ▸ ih.last, hl ▸ ih.unlinked, ih.lastLink, ih.ref, ih.npages, ih.kern,
        ih.word⟩
    · have hl : freePages first fin (n+1) = freePages first fin n ++ [n+1] := by
        rw [freePages_succ, if_neg hres]
      have hlast : (freePages first fin (n+1)).getLast? = some (n+1) := by
        rw [hl]
        simp
      cases cur with
      | none =>
        have hr : pageInitRound first fin (n+1) none s =
            (some (n+1), { s with pageFreeList := some (n+1) }) := if_neg hres
        rw [hr]
        have hnil : freePages first fin n = [] := List.getLast?_eq_none_iff.mp ih.last
        rw [hnil, List.nil_append] at hl
        refine ⟨?_, hlast, fun p _ => ih.unlinked p (by simp [hnil]), ?_, ih.ref, ih.npages,
          ih.kern, ih.word⟩
        · rw [hl]
          exact ⟨rfl, ih.unlinked _ hnew⟩
        · exact fun p _ => ih.unlinked p (by simp [hnil])
      | some cur =>
        have hr : pageInitRound first fin (n+1) (some cur) s =
            (some (n+1), (s.setLink cur (some (n+1))).setLink (n+1) none) := if_neg hres
        rw [hr]
        have hcur : cur ∈ freePages first fin n := List.mem_of_getLast? ih.last
        have hne : cur ≠ n+1 := fun h => hnew (h ▸ hcur)
        have hlink (p : ℕ) : (((s.setLink cur (some (n+1))).setLink (n+1) none).pages p).ppLink =
            if p = n+1 then none else if p = cur then some (n+1) else (s.pages p).ppLink := by
          rw [setLink_pages]
          split_ifs with h1 h2
          · rfl
          · rw [setLink_pages, if_pos h2]
          · rw [setLink_pages, if_neg h2]
        refine ⟨?_, hlast, ?_, ?_, ?_, ih.npages, ih.kern, ih.word⟩
        · rw [hl]
          refine ih.chain.snoc ih.last (nodup_freePages _ _ _) hnew ?_ ?_ fun c hc hca => ?_
          · rw [hlink, if_neg hne, if_pos rfl]
          · rw [hlink, if_pos rfl]
          · rw [hlink, if_neg (fun h : c = n+1 => hnew (h ▸ hc)), if_neg hca]
        · intro p hp'
          rw [hl, List.mem_append, not_or, List.mem_singleton] at hp'
          rw [hlink, if_neg hp'.2, if_neg fun h : p = cur => hp'.1 (h ▸ hcur)]
          exact ih.unlinked p hp'.1
        · rintro p ⟨⟩
          rw [hlink, if_pos rfl]
        · intro p
          rw [setLink_pages]
          split_ifs
          · rw [setLink_pages]
            split_ifs
            · exact ih.ref _
            · exact ih.ref _
          · rw [setLink_pages]
            split_ifs
            · exact ih.ref _
            · exact ih.ref _

section Alloc

variable {m : Machine}

theorem le_roundupPage (a : ℕ) : a ≤ roundupPage a := by
  unfold roundupPage pgsize
  omega

/-- The physical addresses of the page directory, of the arrays of pages and of
environments, and of the free memory behind them. -/
structure Machine.Layout (m : Machine) (kern pages envs fin : ℕ) : Prop where
  kernEq : roundupPage m.kernEnd = kern
  pagesEq : roundupPage (kern + pgsize) = pages
  envsEq : roundupPage (pages + m.npages * sizeofPageInfo) = envs
  finEq : roundupPage (envs + nenv * sizeofEnv) = fin

variable {kern pages envs fin : ℕ}

theorem Machine.Layout.le (h : m.Layout kern pages envs fin) :
    kern + pgsize ≤ pages ∧ pages ≤ envs ∧ envs ≤ fin := by
  refine ⟨?_, ?_, ?_⟩
  · rw [← h.pagesEq]
    exact le_roundupPage _
  · rw [← h.envsEq]
    exact le_trans (Nat.le_add_right _ _) (le_roundupPage _)
  · rw [← h.finEq]
    exact le_trans (Nat.le_add_right _ _) (le_roundupPage _)

/-- The state in which `page_init` starts its loop, with `kern_pgdir` at the page `k`. -/
def Machine.blankPm (m : Machine) (s₀ : Pm) (k : ℕ) : Pm :=
  { (({ s₀ with npages := m.npages, kernPgdir := k } : Pm).clear k).setWord
      k uvptPde (page2pa k ||| pteU ||| pteP) with
    pages := fun _ => ⟨none, 0⟩
    pageFreeList := none }

/-- The state after the first part of `mem_init`. -/
def Machine.allocPm (m : Machine) (s₀ : Pm) (kern fin : ℕ) : Pm :=
  (pageInitLoop (pgnum iophysmem) (fin / pgsize) (m.blankPm s₀ (kern / pgsize)) (m.npages - 1)).2

theorem bootAlloc_run {b : BootState} {a : ℕ} (n : ℕ)
    (ha : b.nextfree.getD (roundupPage m.kernEnd) = a) (hle : a ≤ m.npages * pgsize) (hn : n ≠ 0) :
    bootAlloc m n b = .ret a { b with nextfree := some (roundupPage (a + n)) } := by
  simp only [bootAlloc, ha, if_neg (not_lt.mpr hle), if_neg hn]

theorem bootAlloc_zero {b : BootState} {a : ℕ} (ha : b.nextfree = some a)
    (hle : a ≤ m.npages * pgsize) : bootAlloc m 0 b = .ret a b := by
  simp only [bootAlloc, ha, Option.getD_some, if_neg (not_lt.mpr hle), if_true]
  rw [← ha]

/-- Nothing is handed out beyond the end of memory. -/
theorem bootAlloc_ret {b b' : BootState} {n a : ℕ} (hr : bootAlloc m n b = .ret a b') :
    a = b.nextfree.getD (roundupPage m.kernEnd) ∧ a ≤ m.npages * pgsize ∧ b'.pm = b.pm ∧
      b'.nextfree = some (if n = 0 then a else roundupPage (a + n)) := by
  simp only [bootAlloc] at hr
  split_ifs at hr with h1 h2
  · obtain ⟨rfl, rfl⟩ := Outcome.ret.inj hr
    exact ⟨rfl, not_lt.mp h1, rfl, by rw [if_pos h2]⟩
  · obtain ⟨rfl, rfl⟩ := Outcome.ret.inj hr
    exact ⟨rfl, not_lt.mp h1, rfl, by rw [if_neg h2]⟩

/-- The first part of `mem_init` returns if its tables fit into memory. -/
theorem memInitAlloc_run (s₀ : Pm) (h : m.Layout kern pages envs fin)
    (hfin : fin ≤ m.npages * pgsize) :
    memInitAlloc m ⟨s₀, none⟩ = .ret (pages, envs) ⟨m.allocPm s₀ kern fin, some fin⟩ := by
  obtain ⟨h1, h2, h3⟩ := h.le
  have hn : m.npages * sizeofPageInfo ≠ 0 := by
    intro h0
    have hz : m.npages = 0 := by simpa using h0
    rw [hz] at hfin
    unfold pgsize at h1
    omega
  have hk : bootAlloc m pgsize ⟨s₀, none⟩ = .ret kern ⟨s₀, some pages⟩ := by
    rw [← h.pagesEq]
    exact bootAlloc_run pgsize h.kernEq (by omega) (by decide)
  have hpages (s : Pm) : bootAlloc m (m.npages * sizeofPageInfo) ⟨s, some pages⟩ =
      .ret pages ⟨s, some envs⟩ := by
    rw [← h.envsEq]
    exact bootAlloc_run _ rfl (by omega) hn
  have henvs (s : Pm) : bootAlloc m (nenv * sizeofEnv) ⟨s, some envs⟩ =
      .ret envs ⟨s, some fin⟩ := by
    rw [← h.finEq]
    exact bootAlloc_run _ rfl (by omega) (by decide)
  have hfree (s : Pm) : bootAlloc m 0 ⟨s, some fin⟩ = .ret fin ⟨s, some fin⟩ :=
    bootAlloc_zero rfl hfin
  simp only [memInitAlloc, pageInit, Routine.bind_ret hk, Routine.modify_bind_run]
  rw [Routine.bind_ret (hpages _)]
  simp only [Routine.modify_bind_run]
  rw [Routine.bind_ret (henvs _), Routine.bind_assoc_run, Routine.modify_bind_run,
    Routine.bind_assoc_run, Routine.bind_ret (hfree _)]
  rfl

/-- If the first part of `mem_init` returns, its tables do fit. -/
theorem memInitAlloc_ret {s₀ : Pm} {r : ℕ × ℕ} {b : BootState}
    (hr : memInitAlloc m ⟨s₀, none⟩ = .ret r b) :
    ∃ kern fin, m.Layout kern r.1 r.2 fin ∧ fin ≤ m.npages * pgsize ∧ b.pm = m.allocPm s₀ kern fin := by
  obtain ⟨kern, b₁, h₁, hr⟩ := Routine.bind_eq_ret.mp hr
  obtain ⟨hk, hkle, hpm₁, hn₁⟩ := bootAlloc_ret h₁
  simp only [Routine.modify_bind_run] at hr
  obtain ⟨pages, b₂, h₂, hr⟩ := Routine.bind_eq_ret.mp hr
  obtain ⟨hp, -, hpm₂, hn₂⟩ := bootAlloc_ret h₂
  simp only [Routine.modify_bind_run] at hr
  obtain ⟨envs, b₃, h₃, hr⟩ := Routine.bind_eq_ret.mp hr
  obtain ⟨he, -, hpm₃, hn₃⟩ := bootAlloc_ret h₃
  obtain ⟨_, b₄, h₄, hr⟩ := Routine.bind_eq_ret.mp hr
  simp only [pageInit, Routine.modify_bind_run] at h₄
  obtain ⟨fin, b₅, h₅, h₄⟩ := Routine.bind_eq_ret.mp h₄
  obtain ⟨hf, hfin, hpm₅, -⟩ := bootAlloc_ret h₅
  obtain ⟨-, rfl⟩ := Outcome.ret.inj h₄
  obtain ⟨rfl, rfl⟩ := Outcome.ret.inj hr
  refine ⟨kern, fin, ⟨hk.symm, ?_, ?_, ?_⟩, hfin, ?_⟩
  · rw [hp, hn₁, if_neg (by decide), Option.getD_some]
  · have hn : m.npages * sizeofPageInfo ≠ 0 := by
      intro h0
      have hz : m.npages = 0 := by simpa using h0
      rw [hz] at hkle
      have hge : m.kernEnd ≤ kern := hk ▸ le_roundupPage m.kernEnd
      have := m.kernEnd_ge
      omega
    rw [he, hn₂, if_neg hn, Option.getD_some]
  · rw [hf, hn₃, if_neg (by decide), Option.getD_some]
  · simp only [hpm₅, hpm₃, hpm₂, hpm₁]
    rfl

end Alloc

/-- No environment has a page directory yet. -/
abbrev noDirs : EnvIdx → Option ℕ := fun _ => none

/-- The number of page tables in `kern_pgdir`. -/
def kernTables (s : Pm) : ℕ :=
  (Finset.univ.filter fun d : PteIdx => (slotMap s noDirs (.kpde d)).isSome).card

theorem kernTables_le (s : Pm) : kernTables s ≤ nptentries :=
  le_trans (Finset.card_filter_le _ _) (by rw [Finset.card_univ, Fintype.card_fin])

theorem kernTables_update {s s' : Pm} {d : PteIdx} {p : ℕ}
    (hm : slotMap s' noDirs = Function.update (slotMap s noDirs) (.kpde d) (some p))
    (hd : slotMap s noDirs (.kpde d) = none) : kernTables s' = kernTables s + 1 := by
  have hins : (Finset.univ.filter fun d' : PteIdx => (slotMap s' noDirs (.kpde d')).isSome) =
      insert d (Finset.univ.filter fun d' : PteIdx => (slotMap s noDirs (.kpde d')).isSome) := by
    ext d'
    rw [Finset.mem_filter, Finset.mem_insert, Finset.mem_filter, hm]
    by_cases hdd : d' = d
    · simp [hdd]
    · rw [Function.update_of_ne (by simpa using hdd)]
      simp [hdd]
  rw [kernTables, hins, Finset.card_insert_of_notMem (by simp [hd]), kernTables]

/-- What holds while the kernel's part of the address space is being set up, when
`n` pages were free at first. -/
structure Booting (s : Pm) (n : ℕ) : Prop where
  inv : MemInv s noDirs 0
  filled : ∀ d : PteIdx, userPdes ≤ d.val → d.val ≠ uvptPde → s.word s.kernPgdir d ≠ 0#32 →
    ∃ p, s.word s.kernPgdir d = pdeOf p ∧ slotMap s noDirs (.kpde d) = some p
  supply : ∃ l, FreeList s l ∧ n ≤ l.length + kernTables s
  zeroFree : ¬ s.IsFree 0
  zeroRef : (s.pages 0).ppRef = 0
  self : pgnum (s.word s.kernPgdir uvptPde) = s.kernPgdir

section Alloc

variable {m : Machine} {kern pages envs fin : ℕ}

/-- `mem_init` starts with a directory that maps nothing but itself, and with
every page free that `page_init` does not reserve. -/
theorem Machine.Layout.booting (h : m.Layout kern pages envs fin) (hfin : fin ≤ m.npages * pgsize)
    (s₀ : Pm) : Booting (m.allocPm s₀ kern fin) (freePages 160 (fin / pgsize) (m.npages - 1)).length ∧
      (m.allocPm s₀ kern fin).npages = m.npages ∧
      ∀ i, i ≠ uvptPde → (m.allocPm s₀ kern fin).word (m.allocPm s₀ kern fin).kernPgdir i = 0#32 := by
  have hinv := pageInitLoop_inv (m.blankPm s₀ (kern / pgsize)) (pgnum iophysmem) (fin / pgsize)
    (m.npages - 1) rfl rfl
  have h160 : pgnum iophysmem = 160 := by decide
  rw [h160] at hinv
  have hs : (pageInitLoop 160 (fin / pgsize) (m.blankPm s₀ (kern / pgsize)) (m.npages - 1)).2 =
      m.allocPm s₀ kern fin := by rw [← h160]; rfl
  generalize pageInitLoop 160 (fin / pgsize) (m.blankPm s₀ (kern / pgsize)) (m.npages - 1) = r
    at hinv hs
  obtain ⟨cur, s⟩ := r
  subst hs
  generalize m.allocPm s₀ kern fin = s at hinv ⊢
  -- the page of `kern_pgdir` lies behind the kernel image and before the free memory
  obtain ⟨hle, hle₂, hle₃⟩ := h.le
  have hge := le_roundupPage m.kernEnd
  rw [h.kernEq] at hge
  have hext := m.kernEnd_ge
  have hm := m.npages_le
  have hk : s.kernPgdir = kern / 4096 := hinv.kern
  have hn : s.npages = m.npages := hinv.npages
  have hk160 : 160 ≤ kern / 4096 := by omega
  have hkfin : kern / 4096 < fin / 4096 := by
    unfold pgsize at hle
    omega
  have hkn : kern / 4096 < m.npages := by
    unfold pgsize at hfin hle
    omega
  have hword (i : ℕ) (hi : i ≠ uvptPde) : s.word s.kernPgdir i = 0#32 := by
    rw [hk, show s.word = _ from hinv.word]
    change ((Pm.clear _ _).setWord _ _ _).word _ _ = _
    rw [setWord_word_self, if_neg hi]
    simp only [Pm.clear, Function.update_self]
  have hslot (i : Slot) : slotMap s noDirs i = none := by
    cases i with
    | dir e => rfl
    | pde e d => rfl
    | pte e d t => rfl
    | kpde d =>
      by_cases hd : d.val = uvptPde
      · simp only [slotMap, kernTarget, hd, or_true, true_or, if_true]
      · simp only [slotMap, kernTarget, hword d hd, target_zero, ite_self]
  have hfl : FreeList s (freePages 160 (fin / pgsize) (m.npages - 1)) := by
    refine ⟨hinv.chain, nodup_freePages _ _ _, fun p _ => hinv.ref p, fun p hp => ?_, hinv.unlinked,
      fun hp => ?_⟩
    · have := (mem_freePages.mp hp).2.1
      have := (mem_freePages.mp hp).1
      rw [hn]
      omega
    · refine (mem_freePages.mp hp).2.2 (Or.inl ?_)
      rw [hk]
      exact ⟨hk160, hkfin⟩
  have hinv' : MemInv s noDirs 0 := by
    refine ⟨by omega, ⟨_, hfl⟩, ⟨fun a => ?_, fun i a _ ha => ?_⟩, fun i p hp => ?_, fun i hp => ?_,
      by simp, by simp, ?_, fun d => ?_, by simp⟩
    · rw [refs_eq_zero.mpr fun i => by simp [hslot i]]
      simp [Pm.refCount, show (s.pages a).ppRef = 0 from hinv.ref a]
    · exact absurd ha (by simp [hslot i])
    · exact absurd hp (by simp [hslot i])
    · exact absurd hp (by simp [hslot i])
    · intro e d p t hp
      exact absurd hp (by simp [hslot])
    · exact hword d (Nat.ne_of_lt (lt_trans d.isLt (by decide)))
  have hself : s.word s.kernPgdir uvptPde = page2pa (kern / 4096) ||| pteU ||| pteP := by
    rw [hk, show s.word = _ from hinv.word]
    change ((Pm.clear _ _).setWord _ _ _).word _ _ = _
    rw [setWord_word_self, if_pos rfl]
  refine ⟨⟨hinv', fun d _ hd hw => absurd (hword d hd) hw, ⟨_, hfl, Nat.le_add_right _ _⟩, ?_,
    hinv.ref 0, ?_⟩, hn, hword⟩
  · rw [hfl.isFree_iff]
    intro h0
    exact absurd (mem_freePages.mp h0).1 (by decide)
  · rw [hself, hk, pgnum_or, pgnum_or, pgnum_page2pa _ (by omega), pgnum_of_flags pteU (by decide),
      pgnum_of_flags pteP (by decide), Nat.or_zero, Nat.or_zero]

end Alloc

section Map

variable {s s' : Pm} {n : ℕ}

/-- What a step of setting up the kernel's address space leaves in place. -/
structure Later (s s' : Pm) : Prop where
  npages : s'.npages = s.npages
  kern : s'.kernPgdir = s.kernPgdir
  tables : ∀ d p, slotMap s noDirs (.kpde d) = some p → slotMap s' noDirs (.kpde d) = some p

theorem Later.refl (s : Pm) : Later s s := ⟨rfl, rfl, fun _ _ h => h⟩

theorem Later.trans {t : Pm} (h : Later s s') (h' : Later s' t) : Later s t :=
  ⟨h'.npages.trans h.npages, h'.kern.trans h.kern, fun d p hp => h'.tables d p (h.tables d p hp)⟩

/-- As long as many pages were free at first, there are free pages. -/
theorem Booting.pageFreeList_ne (h : Booting s n) (hn : nptentries < n) : s.pageFreeList ≠ none := by
  obtain ⟨l, hl, hsup⟩ := h.supply
  have hk := kernTables_le s
  cases l with
  | nil =>
    rw [List.length_nil] at hsup
    omega
  | cons p l =>
    rw [hl.chain.1]
    simp

/-- Writing an entry of a page table of the kernel. -/
theorem Booting.storeTable (h : Booting s n) {d : PteIdx} {p : ℕ}
    (hp : slotMap s noDirs (.kpde d) = some p) (i : ℕ) {w : Word} (hw : target w = none → w = 0#32) :
    Booting (s.setWord p i w) n ∧ Later s (s.setWord p i w) := by
  have hpk : s.kernPgdir ≠ p := fun hk => h.inv.kern _ (hk ▸ hp)
  have hm : slotMap (s.setWord p i w) noDirs = slotMap s noDirs := by
    funext j
    cases j with
    | dir e => rfl
    | pde e d => rfl
    | pte e d t => rfl
    | kpde d' =>
      change kernTarget d' ((s.setWord p i w).word s.kernPgdir d') = _
      rw [setWord_word_ne hpk]
      rfl
  have hm' : slotMap (s.setWord p i w) noDirs = Function.update (slotMap s noDirs) (.kpde d) (some p) := by
    rw [hm, ← hp, Function.update_eq_self]
  obtain ⟨l, hl, hsup⟩ := h.supply
  refine ⟨⟨h.inv.setWord hm' ?_ ?_ (by simp) ?_ ?_ (fun hk => absurd hk.symm hpk) (by simp), ?_,
    ⟨l, ⟨hl.1, hl.2, hl.3, hl.4, hl.5, hl.6⟩, ?_⟩, h.zeroFree, h.zeroRef, ?_⟩, ⟨rfl, rfl, ?_⟩⟩
  · rw [← hp, Function.update_eq_self]
    exact h.inv.tally
  · rintro q ⟨⟩
    exact ⟨h.inv.bound _ _ hp, Ne.symm hpk⟩
  · exact hw
  · intro e d' q hq
    rw [hm] at hq
    exact Or.inl hq
  · intro d' hd hdu hz
    change (s.setWord p i w).word s.kernPgdir d' ≠ _ at hz
    change ∃ q, (s.setWord p i w).word s.kernPgdir d' = _ ∧ _
    rw [setWord_word_ne hpk] at hz ⊢
    rw [hm]
    exact h.filled d' hd hdu hz
  · rw [kernTables, hm]
    exact hsup
  · change pgnum ((s.setWord p i w).word s.kernPgdir uvptPde) = s.kernPgdir
    rw [setWord_word_ne hpk]
    exact h.self
  · intro d' q hq
    rw [hm]
    exact hq

theorem not_has_ptePS_pdeOf (p : ℕ) : ¬ has (pdeOf p) ptePS := by
  have h80 : ptePS = BitVec.twoPow 32 7 := by decide
  rw [h80, has_twoPow _ 7 (by decide), pdeOf, BitVec.getLsbD_or, BitVec.getLsbD_or,
    BitVec.getLsbD_or, page2pa_low_bit p 7 (by decide)]
  decide

theorem kernTarget_pdeOf {d : ℕ} {p : ℕ} (hp : p < 2^20) (hd : userPdes ≤ d) (hdu : d ≠ uvptPde) :
    kernTarget d (pdeOf p) = some p := by
  have hps := not_has_ptePS_pdeOf p
  have hc : ¬ (d < userPdes ∨ d = uvptPde ∨ has (pdeOf p) ptePS) := by
    rintro (h | h | h)
    · omega
    · exact hdu h
    · exact hps h
  rw [kernTarget, if_neg hc, target_of_has (has_pteP_pdeOf p), pgnum_pdeOf hp]

/-- A new page table for the kernel. -/
theorem Booting.newTable (h : Booting s n) {d : PteIdx} {p : ℕ} (hd : userPdes ≤ d.val)
    (hdu : d.val ≠ uvptPde) (hz : s.word s.kernPgdir d = 0#32) (hf : s.pageFreeList = some p) :
    pageAlloc s = .ret (some p) (s.taken p) ∧ p < s.npages ∧
      Booting (s.newTable s.kernPgdir d p) n ∧ Later s (s.newTable s.kernPgdir d p) ∧
      slotMap (s.newTable s.kernPgdir d p) noDirs (.kpde d) = some p := by
  obtain ⟨l, hl, hsup⟩ := h.supply
  obtain ⟨l, rfl⟩ : ∃ l', l = p :: l' := by
    cases l with
    | nil => exact absurd (hl.chain.symm.trans hf) (by simp)
    | cons q l => exact ⟨l, by rw [Option.some.inj (hl.chain.1.symm.trans hf)]⟩
  rcases h.inv.pageAlloc_cases with ⟨hf', -⟩ | ⟨q, hf', ha, hi, hfr, hm⟩
  · rw [hf] at hf'
    cases hf'
  obtain rfl : p = q := Option.some.inj (hf.symm.trans hf')
  have hp20 : p < 2^20 := lt_of_lt_of_le hfr.bound hi.npages_le
  have hkp : s.kernPgdir ≠ p := Ne.symm hfr.kern
  have hinc := hi.incRef (hi.userPage_of_fresh hfr) (by rw [hfr.zero]; decide)
  have htarget := kernTarget_pdeOf hp20 hd hdu
  have hnone : slotMap s noDirs (.kpde d) = none := by
    simp only [slotMap, kernTarget, hz, target_zero, ite_self]
  have hm' : slotMap (s.newTable s.kernPgdir d p) noDirs =
      Function.update (slotMap s noDirs) (.kpde d) (some p) := by
    have hk := slotMap_setWord_kpde hinc.apart d (pdeOf p)
    rw [htarget] at hk
    rw [← hm]
    exact hk
  have h1 : ((s.taken p).incRef p).refCount p = 1 := by
    rw [Pm.incRef, setRef_refCount, Function.update_self, hfr.zero]
    rfl
  have hinv : MemInv (s.newTable s.kernPgdir d p) noDirs 0 := by
    rw [← hm] at hm' hnone
    refine hinc.setWord hm' (hinc.tally.link hnone fun _ => h1) ?_ (by simp) ?_ ?_ (fun _ => hd)
      (by simp)
    · rintro q ⟨⟩
      exact ⟨hfr.bound, hfr.kern⟩
    · intro hn
      rw [target_of_has (has_pteP_pdeOf p)] at hn
      exact absurd hn (by simp)
    · intro e d' q hq
      exact absurd hq (by simp [slotMap])
  have hword (i : ℕ) : (s.newTable s.kernPgdir d p).word s.kernPgdir i =
      if i = d then pdeOf p else s.word s.kernPgdir i := by
    rw [Pm.newTable, setWord_word_self]
    change (if i = ↑d then pdeOf p else (s.taken p).word s.kernPgdir i) = _
    simp only [Pm.taken, Pm.clear, Pm.setLink, Function.update_of_ne hkp]
  refine ⟨ha, hfr.bound, ⟨hinv, ?_, ⟨l, ?_, ?_⟩, ?_, ?_, ?_⟩, ⟨rfl, rfl, ?_⟩, ?_⟩
  · intro d' hd' hdu' hz'
    change ∃ q, (s.newTable s.kernPgdir d p).word s.kernPgdir d' = _ ∧ _
    change (s.newTable s.kernPgdir d p).word s.kernPgdir d' ≠ _ at hz'
    rw [hword] at hz' ⊢
    rw [hm']
    by_cases hdd : d' = d
    · rw [hdd, Function.update_self, if_pos rfl]
      exact ⟨p, rfl, rfl⟩
    · have hv : (d' : ℕ) ≠ d := fun hv => hdd (Fin.ext hv)
      rw [if_neg hv] at hz' ⊢
      rw [Function.update_of_ne (by simpa using hdd)]
      exact h.filled d' hd' hdu' hz'
  · have ht := hl.tail.setRef (List.nodup_cons.mp hl.nodup).1
      (((s.taken p).pages p).ppRef + 1)
    exact ⟨ht.1, ht.2, ht.3, ht.4, ht.5, ht.6⟩
  · rw [kernTables_update hm' hnone]
    rw [List.length_cons] at hsup
    omega
  · exact fun hfree => h.zeroFree (isFree_of_newTable hf hfree)
  · have h0 : (0 : ℕ) ≠ p := fun h0 => h.zeroFree (by
      rw [Pm.IsFree, hf, ← h0]
      exact OnChain.here 0)
    rw [newTable_pages_ne h0]
    exact h.zeroRef
  · change pgnum ((s.newTable s.kernPgdir d p).word s.kernPgdir uvptPde) = s.kernPgdir
    rw [hword, if_neg hdu.symm]
    exact h.self
  · intro d' q hq
    rw [hm']
    by_cases hdd : d' = d
    · rw [hdd, hnone] at hq
      cases hq
    · rw [Function.update_of_ne (by simpa using hdd)]
      exact hq
  · rw [hm', Function.update_self]

/-- A round of `boot_map_region` above `UTOP` always returns. Unless memory has
run out, there is a page table for the address afterwards. -/
theorem Booting.mapSmall (h : Booting s n) {va : Word} (pa perm : Word)
    (hd : userPdes ≤ pdx va) (hdu : pdx va ≠ uvptPde) :
    ∃ s', Sisop.mapSmall s.kernPgdir va pa perm s = .ret () s' ∧ Booting s' n ∧ Later s s' ∧
      (s.pageFreeList ≠ none → ∃ p, slotMap s' noDirs (.kpde ⟨pdx va, pdx_lt va⟩) = some p) := by
  have hw : has (pa ||| (perm ||| pteP)) pteP := by
    rw [has_pteP, BitVec.getLsbD_or, BitVec.getLsbD_or]
    simp
  have hsome : target (pa ||| (perm ||| pteP)) = none → pa ||| (perm ||| pteP) = 0#32 := fun hn => by
    rw [target_of_has hw] at hn
    cases hn
  by_cases hz : s.word s.kernPgdir (pdx va) = 0#32
  · cases hf : s.pageFreeList with
    | none =>
      refine ⟨s, ?_, h, Later.refl s, fun hne => absurd rfl hne⟩
      simp only [Sisop.mapSmall, Routine.bind_ret (pgdirWalk_noMem hz hf), Routine.pure_run]
    | some p =>
      obtain ⟨ha, hp, hb, hl, hs⟩ := h.newTable (d := ⟨pdx va, pdx_lt va⟩) hd hdu hz hf
      obtain ⟨hb', hl'⟩ := hb.storeTable hs (ptx va) hsome
      refine ⟨_, ?_, hb', hl.trans hl', fun _ => ⟨p, hl'.tables _ p hs⟩⟩
      simp only [Sisop.mapSmall, Routine.bind_ret (pgdirWalk_new hz ha hp h.inv.npages_le), Routine.modify_run]
      rfl
  · obtain ⟨p, hword, hs⟩ := h.filled ⟨pdx va, pdx_lt va⟩ hd hdu hz
    obtain ⟨hb', hl'⟩ := h.storeTable hs (ptx va) hsome
    refine ⟨_, ?_, hb', hl', fun _ => ⟨_, hl'.tables _ _ hs⟩⟩
    simp only [Sisop.mapSmall, Routine.bind_ret (pgdirWalk_pde hword (h.inv.bound _ _ hs) h.inv.npages_le true),
      Routine.modify_run]
    rfl

/-- A region that `mem_init` maps: it lies above `UTOP` and does not touch `UVPT`. -/
def KernelRegion (va : Word) (size : ℕ) : Prop :=
  utop.toNat ≤ va.toNat ∧ va.toNat + size ≤ 2^32 ∧
    (va.toNat + size ≤ uvpt.toNat ∨ uvpt.toNat + ptsize ≤ va.toNat)

theorem KernelRegion.pdx {va : Word} {size i : ℕ} (h : KernelRegion va size)
    (hi : i < (size + pgsize - 1) / pgsize) :
    userPdes ≤ pdx (va + BitVec.ofNat 32 (pgsize * i)) ∧
      pdx (va + BitVec.ofNat 32 (pgsize * i)) ≠ uvptPde := by
  obtain ⟨h1, h2, h3⟩ := h
  have hu : utop.toNat = 955 * 4194304 := by decide
  have hv : uvpt.toNat = 957 * 4194304 := by decide
  have hlt : pgsize * i < size := by
    unfold pgsize at hi ⊢
    omega
  have hadd : (va + BitVec.ofNat 32 (pgsize * i)).toNat = va.toNat + pgsize * i := by
    rw [BitVec.toNat_add, BitVec.toNat_ofNat]
    omega
  rw [pdx_eq, hadd]
  have hpt : ptsize = 4194304 := rfl
  rw [hpt] at h3
  unfold userPdes uvptPde
  constructor
  · omega
  · omega

/-- `boot_map_region` on a region of the kernel always returns. -/
theorem Booting.bootMapRegion (h : Booting s n) {va : Word} {size : ℕ} (pa perm : Word)
    (hr : KernelRegion va size) :
    ∃ s', Sisop.bootMapRegion va size pa perm s = .ret () s' ∧ Booting s' n ∧ Later s s' ∧
      (nptentries < n → 0 < size → ∃ p, slotMap s' noDirs (.kpde ⟨pdx va, pdx_lt va⟩) = some p) := by
  obtain ⟨s', hl, hb, hlat, hfill⟩ := Routine.loop_total
    (fun i t => Booting t n ∧ Later s t ∧ (nptentries < n → 0 < i →
      ∃ p, slotMap t noDirs (.kpde ⟨pdx va, pdx_lt va⟩) = some p)) ((size + pgsize - 1) / pgsize)
    ⟨h, Later.refl s, fun _ hi => absurd hi (lt_irrefl 0)⟩
    (fun i t hi ⟨hb, hl, hfill⟩ => by
      obtain ⟨hd, hdu⟩ := hr.pdx hi
      obtain ⟨t', hrun, hb', hl', hf'⟩ := hb.mapSmall (pa + BitVec.ofNat 32 (pgsize * i)) perm hd hdu
      refine ⟨t', hrun, hb', hl.trans hl', fun hn _ => ?_⟩
      cases i with
      | zero =>
        have hf := hf' (hb.pageFreeList_ne hn)
        simpa only [Nat.mul_zero, BitVec.ofNat_eq_ofNat, BitVec.add_zero] using hf
      | succ i =>
        obtain ⟨p, hp⟩ := hfill hn (Nat.succ_pos i)
        exact ⟨p, hl'.tables _ p hp⟩)
  refine ⟨s', hl, hb, hlat, fun hn hsz => hfill hn ?_⟩
  unfold pgsize
  omega

/-- The mappings of `mem_init` are made without a panic. -/
theorem Booting.memInitMaps (h : Booting s n) {m : Machine} (pages envs : ℕ)
    (hm : s.npages = m.npages) :
    ∃ s', Sisop.memInitMaps m pages envs s = .ret () s' ∧ Booting s' n ∧ Later s s' ∧
      (nptentries < n → ∃ p, slotMap s' noDirs (.kpde 960) = some p) := by
  have hle := m.npages_le
  obtain ⟨s₁, hr₁, h₁, hl₁, -⟩ := h.bootMapRegion (BitVec.ofNat 32 pages) pteU
    (show KernelRegion upages (m.npages * sizeofPageInfo) from by
      have h1 : utop.toNat = 4005560320 := by decide
      have h2 : upages.toNat = 4009754624 := by decide
      have h3 : uvpt.toNat = 4013948928 := by decide
      unfold sizeofPageInfo
      exact ⟨by omega, by omega, Or.inl (by omega)⟩)
  obtain ⟨s₂, hr₂, h₂, hl₂, -⟩ := h₁.bootMapRegion (BitVec.ofNat 32 envs) (pteU ||| pteP)
    (show KernelRegion uenvs (nenv * sizeofEnv) from ⟨by decide, by decide, Or.inl (by decide)⟩)
  obtain ⟨s₃, hr₃, h₃, hl₃, -⟩ := h₂.bootMapRegion m.bootstack pteW
    (show KernelRegion (kstacktop - kstksize) kstksize.toNat from
      ⟨by decide, by decide, Or.inr (by decide)⟩)
  obtain ⟨s₄, hr₄, h₄, hl₄, hk₄⟩ := h₃.bootMapRegion 0#32 pteW
    (show KernelRegion kernbase (2^32 - kernbase.toNat) from
      ⟨by decide, by decide, Or.inr (by decide)⟩)
  have hstack (i : ℕ) (hi : i < ncpu) : KernelRegion
      (kstacktop - BitVec.ofNat 32 i * (kstksize + kstkgap) - kstksize) kstksize.toNat := by
    have hall : ∀ i : Fin ncpu, KernelRegion
        (kstacktop - BitVec.ofNat 32 i * (kstksize + kstkgap) - kstksize) kstksize.toNat := by
      unfold KernelRegion
      decide
    exact hall ⟨i, hi⟩
  obtain ⟨s₅, hr₅, h₅, hl₅⟩ := Routine.loop_total (fun _ t => Booting t n ∧ Later s₄ t) ncpu
    ⟨h₄, Later.refl s₄⟩
    (fun i t hi ⟨hb, hl⟩ => by
      obtain ⟨t', hr, hb', hl', -⟩ := hb.bootMapRegion (m.percpuKstacks i) pteW (hstack i hi)
      exact ⟨t', hr, hb', hl.trans hl'⟩)
  refine ⟨s₅, ?_, h₅, (((hl₁.trans hl₂).trans hl₃).trans hl₄).trans hl₅, fun hn => ?_⟩
  · simp only [Sisop.memInitMaps, Routine.bind_ret hr₁, Routine.bind_ret hr₂, Routine.bind_ret hr₃,
      Routine.bind_ret hr₄]
    exact hr₅
  · obtain ⟨p, hp⟩ := hk₄ hn (by decide)
    exact ⟨p, hl₅.tables _ p hp⟩

end Map

section SelfTest

variable {s s' : Pm} {n : ℕ}

/-- The self tests leave everything but the free pages as it was. -/
theorem SelfTested.booting (ht : SelfTested s s') (h : Booting s n) :
    Booting s' n ∧ ∀ i, slotMap s' noDirs i = slotMap s noDirs i := by
  obtain ⟨l, hl, hsup⟩ := h.supply
  obtain ⟨l', hperm, hl'⟩ := ht.free l hl
  have hnf (p : ℕ) (hp : TablePage s noDirs p) : ¬ s.IsFree p := by
    rcases hp with rfl | ⟨i, -, hi⟩
    · exact fun hf => hl.kern ((hl.isFree_iff _).mp hf)
    · exact h.inv.not_isFree_of_slot hi
  have hw (p : ℕ) (hp : TablePage s noDirs p) : s'.word p = s.word p := ht.word p (hnf p hp)
  have hm : slotMap s' noDirs = slotMap s noDirs := slotMap_congr ht.kernPgdir hw
  have hc := h.inv.congr_word s'.word hw
  have href : s'.refCount = s.refCount := funext fun p => congrArg BitVec.toNat (ht.ppRef p)
  refine ⟨⟨⟨?_, ⟨l', hl'⟩, ?_, ?_, ?_, by simp, by simp, ?_, ?_, by simp⟩, ?_, ⟨l', hl', ?_⟩, ?_, ?_, ?_⟩,
    fun i => congrFun hm i⟩
  · rw [ht.npages]
    exact h.inv.npages_le
  · rw [hm, href]
    exact h.inv.tally
  · rw [hm, ht.npages]
    exact h.inv.bound
  · rw [hm, ht.kernPgdir]
    exact h.inv.kern
  · intro e d p t hp
    exact absurd hp (by simp [slotMap])
  · intro d
    rw [ht.kernPgdir]
    exact hc.template d
  · intro d hd hdu hz
    rw [ht.kernPgdir, hw _ (Or.inl rfl)] at hz
    rw [hm, ht.kernPgdir, hw _ (Or.inl rfl)]
    exact h.filled d hd hdu hz
  · rw [kernTables, hm, hperm.length_eq]
    exact hsup
  · rw [hl'.isFree_iff, hperm.mem_iff, ← hl.isFree_iff]
    exact h.zeroFree
  · rw [ht.ppRef]
    exact h.zeroRef
  · rw [ht.kernPgdir, hw _ (Or.inl rfl)]
    exact h.self

theorem SelfTested.refl (s : Pm) : SelfTested s s :=
  ⟨rfl, rfl, fun _ => rfl, fun _ _ => rfl, fun l hl => ⟨l, List.Perm.refl l, hl⟩⟩

end SelfTest
end Sisop
