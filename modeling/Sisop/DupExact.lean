import Sisop.PipeRefs

/-! `dup` of `lib/fd.c` as a whole, and which descriptor numbers it is right for. -/
namespace Sisop

/-- What `close(fdnum)` does to the address space. -/
def closeSpace (dev : ℕ → Option Dev) (sp : Space) (fdnum : ℤ) : Space :=
  if FdLookup sp fdnum then
    if (mappedPage sp (index2fd fdnum)).bind dev = some .pipe then
      -- `devpipe_close` unmaps the page of the descriptor, which is unmapped again then
      unmapPage (unmapPage (unmapPage sp (index2fd fdnum)) (index2data fdnum)) (index2fd fdnum)
    else unmapPage sp (index2fd fdnum)
  else sp

/-- `sys_page_map(0, src, 0, dst, uvpt[PGNUM(src)] & PTE_SYSCALL)`. -/
def copyPage (mem : Bool) (sp : Space) (src dst : ℕ) : Option Space := mapPage mem sp src dst (uvptAt sp src &&& pteSyscall)

/-- The data page of a descriptor, if it has one. -/
def copyData (mem : Bool) (sp : Space) (old new : ℤ) : Option Space :=
  if (sp (index2data old)).isSome then copyPage mem sp (index2data old) (index2data new) else some sp

/-- `dup(old, new)`: what it returns, if that is not an error, and the address space after it. `mem₁` and `mem₂` say
whether the two system calls can have a page table. -/
def dup (dev : ℕ → Option Dev) (mem₁ mem₂ : Bool) (sp : Space) (old new : ℤ) : Option ℤ × Space :=
  if FdLookup sp old then
    let sp := closeSpace dev sp new
    let err (sp : Space) : Option ℤ × Space := (none, unmapPage (unmapPage sp (index2fd new)) (index2data new))
    match copyData mem₁ sp old new with
    | none => err sp
    | some sp =>
      match copyPage mem₂ sp (index2fd old) (index2fd new) with
      | none => err sp
      | some sp => (some new, sp)
  else (none, sp)

/-- What `dup` should do, whatever the two numbers are. -/
structure DupOk (dev : ℕ → Option Dev) (mem₁ mem₂ : Bool) (sp : Space) (old new : ℤ) : Prop where
  copies : ∀ sp', dup dev mem₁ mem₂ sp old new = (some new, sp') → FdLookup sp' new ∧
    mappedPage sp' (index2fd new) = mappedPage sp (index2fd old) ∧
    uvptAt sp' (index2fd new) = uvptAt sp (index2fd old) &&& pteSyscall ∧
    ((sp (index2data old)).isSome → mappedPage sp' (index2data new) = mappedPage sp (index2data old) ∧
      uvptAt sp' (index2data new) = uvptAt sp (index2data old) &&& pteSyscall) ∧
    ∀ i, FdInRange i → i ≠ new → sp' (index2fd i) = sp (index2fd i) ∧ sp' (index2data i) = sp (index2data i)
  outside : ¬ FdInRange new → dup dev mem₁ mem₂ sp old new = (none, sp)
  self : FdLookup sp old → new = old → ∃ sp', dup dev mem₁ mem₂ sp old new = (some new, sp') ∧ FdLookup sp' old

/-- A page can be mapped a second time at `dst`. -/
def CanCopy (mem : Bool) (sp : Space) (src dst : ℕ) : Prop :=
  CheckPerm (uvptAt sp src &&& pteSyscall) ∧ dst < utopPages ∧ mem = true

/-- The calls that are made for a number out of range do nothing. -/
structure Harmless (mem₁ mem₂ : Bool) (sp : Space) (old new : ℤ) : Prop where
  fd : index2fd new < utopPages → sp (index2fd new) = none
  data : index2data new < utopPages → sp (index2data new) = none
  fails : (sp (index2data old)).isSome ∧ ¬ CanCopy mem₁ sp (index2data old) (index2data new) ∨
    ¬ CanCopy mem₂ sp (index2fd old) (index2fd new)

section Dup

variable {dev : ℕ → Option Dev} {mem mem₁ mem₂ : Bool} {sp sp' : Space} {old new i : ℤ} {src dst pn q : ℕ}

theorem unmapPage_ne (h : q ≠ pn) : unmapPage sp pn q = sp q := by
  unfold unmapPage
  split
  · exact Function.update_of_ne h _ _
  · rfl

/-- Nothing is changed where nothing is mapped. -/
theorem unmapPage_none (h : pn < utopPages → sp pn = none) : unmapPage sp pn = sp := by
  unfold unmapPage
  split
  · next hlt =>
    rw [← h hlt]
    exact Function.update_eq_self pn sp
  · rfl

theorem unmapPage_self (h : pn < utopPages) : unmapPage sp pn pn = none := by
  unfold unmapPage
  rw [if_pos h]
  exact Function.update_self ..

/-- When a page can be mapped a second time, and what is there then. -/
theorem copyPage_cases (hsrc : (sp src).isSome) (hlt : src < utopPages) :
    CanCopy mem sp src dst ∧ copyPage mem sp src dst =
        some (Function.update sp dst ((sp src).map fun m => (m.1, m.2 &&& pteSyscall))) ∨
      ¬ CanCopy mem sp src dst ∧ copyPage mem sp src dst = none := by
  obtain ⟨⟨page, pte⟩, hmap⟩ := Option.isSome_iff_exists.mp hsrc
  have hpte : uvptAt sp src = pte := by
    unfold uvptAt
    rw [hmap]
    rfl
  unfold copyPage mapPage CanCopy
  rw [hmap, hpte]
  dsimp only
  by_cases hcan : CheckPerm (pte &&& pteSyscall) ∧ dst < utopPages ∧ mem = true
  · obtain ⟨hperm, hdst, hmem⟩ := hcan
    left
    rw [if_pos ⟨hperm, hlt, hdst, fun hw => hw.2 (has_and hw.1), hmem⟩]
    exact ⟨⟨hperm, hdst, hmem⟩, rfl⟩
  · right
    rw [if_neg fun h => hcan ⟨h.1, h.2.2.1, h.2.2.2.2⟩]
    exact ⟨hcan, rfl⟩

theorem FdInRange.fd_lt (h : FdInRange i) : index2fd i < utopPages := by
  obtain ⟨j, hj, hfd, -⟩ := index_of_range h.1 h.2
  have hlt := dataPage_lt hj
  rw [hfd]
  unfold fdPage
  unfold dataPage at hlt
  omega

theorem FdInRange.data_lt (h : FdInRange i) : index2data i < utopPages := by
  obtain ⟨j, hj, -, hdata⟩ := index_of_range h.1 h.2
  rw [hdata]
  exact dataPage_lt hj

theorem FdInRange.apart (h : FdInRange i) (hn : FdInRange new) (hne : i ≠ new) :
    index2fd i ≠ index2fd new ∧ index2data i ≠ index2data new := by
  obtain ⟨hi0, hi⟩ := h
  obtain ⟨hn0, hn⟩ := hn
  change i < ((32 : ℕ) : ℤ) at hi
  change new < ((32 : ℕ) : ℤ) at hn
  unfold index2fd index2data
  omega

theorem FdLookup.range (h : FdLookup sp i) : FdInRange i := ⟨h.1, h.2.1⟩

/-- A `close` changes the two pages of its descriptor only. -/
theorem closeSpace_ne (hfd : q ≠ index2fd new) (hdata : q ≠ index2data new) : closeSpace dev sp new q = sp q := by
  unfold closeSpace
  split
  · split
    · rw [unmapPage_ne hfd, unmapPage_ne hdata, unmapPage_ne hfd]
    · exact unmapPage_ne hfd
  · rfl

theorem closeSpace_outside (h : ¬ FdInRange new) : closeSpace dev sp new = sp := by
  unfold closeSpace
  rw [if_neg fun hl => h hl.range]

theorem closeSpace_closed (h : FdLookup sp i) : closeSpace dev sp i (index2fd i) = none := by
  unfold closeSpace
  rw [if_pos h]
  split
  · exact unmapPage_self h.range.fd_lt
  · exact unmapPage_self h.range.fd_lt

theorem index2fd_ne_data (i : ℤ) : index2fd i ≠ index2data i := by
  unfold index2fd index2data
  omega

theorem copyPage_some (h : copyPage mem sp src dst = some sp') (hlt : src < utopPages) : (sp src).isSome ∧ dst < utopPages ∧
    sp' = Function.update sp dst ((sp src).map fun m => (m.1, m.2 &&& pteSyscall)) := by
  by_cases hsrc : (sp src).isSome
  · obtain ⟨hcan, heq⟩ | ⟨-, hnone⟩ := @copyPage_cases mem sp src dst hsrc hlt
    · rw [heq] at h
      exact ⟨hsrc, hcan.2.1, (Option.some.inj h).symm⟩
    · rw [hnone] at h
      cases h
  · unfold copyPage mapPage at h
    rw [Option.not_isSome_iff_eq_none.mp hsrc] at h
    cases h

/-- What is mapped at `dst` afterwards. -/
theorem copied_at (sp : Space) (src dst : ℕ) :
    mappedPage (Function.update sp dst ((sp src).map fun m => (m.1, m.2 &&& pteSyscall))) dst = mappedPage sp src ∧
      ((sp src).isSome → uvptAt (Function.update sp dst ((sp src).map fun m => (m.1, m.2 &&& pteSyscall))) dst =
        uvptAt sp src &&& pteSyscall) := by
  unfold mappedPage uvptAt
  rw [Function.update_self]
  cases sp src with
  | none => exact ⟨rfl, nofun⟩
  | some m => exact ⟨rfl, fun _ => rfl⟩

/-- The data page is the only one that changes. -/
theorem copyData_some (h : copyData mem sp old new = some sp') (hold : FdInRange old) :
    ((sp (index2data old)).isSome ∧ index2data new < utopPages ∧ sp' = Function.update sp (index2data new)
        ((sp (index2data old)).map fun m => (m.1, m.2 &&& pteSyscall))) ∨
      ¬ (sp (index2data old)).isSome ∧ sp' = sp := by
  unfold copyData at h
  split at h
  · next hsome =>
    left
    obtain ⟨-, hdst, heq⟩ := copyPage_some h hold.data_lt
    exact ⟨hsome, hdst, heq⟩
  · next hsome =>
    right
    exact ⟨hsome, (Option.some.inj h).symm⟩

theorem copyData_ne (h : copyData mem sp old new = some sp') (hold : FdInRange old) (hq : q ≠ index2data new) :
    sp' q = sp q := by
  obtain ⟨-, -, rfl⟩ | ⟨-, rfl⟩ := copyData_some h hold
  · exact Function.update_of_ne hq _ _
  · rfl

/-- What a `dup` that succeeds has done. -/
theorem dup_some (h : dup dev mem₁ mem₂ sp old new = (some i, sp')) : FdLookup sp old ∧ ∃ sp₁,
    copyData mem₁ (closeSpace dev sp new) old new = some sp₁ ∧ copyPage mem₂ sp₁ (index2fd old) (index2fd new) = some sp' := by
  unfold dup at h
  split at h
  · next hl =>
    refine ⟨hl, ?_⟩
    dsimp only at h
    split at h
    · cases h
    · next sp₁ hdata =>
      split at h
      · cases h
      · next hcopy =>
        cases h
        exact ⟨sp₁, hdata, hcopy⟩
  · cases h

/-- Two different descriptors in range. -/
theorem dupOk_of_ne (hr : FdInRange new) (hne : new ≠ old) : DupOk dev mem₁ mem₂ sp old new := by
  constructor
  case outside => exact fun hout => absurd hr hout
  case self => exact fun _ heq => absurd heq hne
  case copies =>
    intro sp' h
    obtain ⟨hl, sp₁, hdata, hcopy⟩ := dup_some h
    have hold := hl.range
    obtain ⟨hfdne, hdatane⟩ := hold.apart hr (Ne.symm hne)
    -- the pages of the old descriptor are still there
    have hkeep : closeSpace dev sp new (index2data old) = sp (index2data old) :=
      closeSpace_ne (Ne.symm (fd_ne_data hr hold)) hdatane
    have holdfd : sp₁ (index2fd old) = sp (index2fd old) := by
      rw [copyData_ne hdata hold (fd_ne_data hold hr)]
      exact closeSpace_ne hfdne (fd_ne_data hold hr)
    obtain ⟨hsrc, -, hsp⟩ := copyPage_some hcopy hold.fd_lt
    obtain ⟨hpage, hperm⟩ := copied_at sp₁ (index2fd old) (index2fd new)
    have hmapped : mappedPage sp' (index2fd new) = mappedPage sp (index2fd old) := by
      rw [hsp, hpage]
      unfold mappedPage
      rw [holdfd]
    refine ⟨⟨hr.1, hr.2, ?_⟩, hmapped, ?_, ?_, ?_⟩
    · rw [holdfd] at hsrc
      have hsome : (mappedPage sp' (index2fd new)).isSome := by
        rw [hmapped]
        unfold mappedPage
        rw [Option.isSome_map]
        exact hsrc
      unfold mappedPage at hsome
      rwa [Option.isSome_map] at hsome
    · rw [hsp, hperm hsrc]
      unfold uvptAt
      rw [holdfd]
    · intro hsome
      have hdataAt : sp' (index2data new) = sp₁ (index2data new) := by
        rw [hsp]
        exact Function.update_of_ne (Ne.symm (index2fd_ne_data new)) _ _
      obtain ⟨-, -, hsp₁⟩ | ⟨hnone, -⟩ := copyData_some hdata hold
      · obtain ⟨hpage', hperm'⟩ := copied_at (closeSpace dev sp new) (index2data old) (index2data new)
        rw [← hsp₁] at hpage' hperm'
        unfold mappedPage uvptAt at *
        rw [hdataAt, hpage', hperm' (by rwa [hkeep]), hkeep]
        exact ⟨rfl, rfl⟩
      · rw [hkeep] at hnone
        exact absurd hsome hnone
    · intro i hi hine
      obtain ⟨hfdi, hdatai⟩ := hi.apart hr hine
      constructor
      · rw [hsp, Function.update_of_ne hfdi, copyData_ne hdata hold (fd_ne_data hi hr)]
        exact closeSpace_ne hfdi (fd_ne_data hi hr)
      · rw [hsp, Function.update_of_ne (Ne.symm (fd_ne_data hr hi)), copyData_ne hdata hold hdatai]
        exact closeSpace_ne (Ne.symm (fd_ne_data hr hi)) hdatai

/-- A descriptor is closed before it is copied to itself. -/
theorem not_dupOk_self (hl : FdLookup sp old) : ¬ DupOk dev mem₁ mem₂ sp old old := by
  intro h
  obtain ⟨sp', hdup, -⟩ := h.self hl rfl
  obtain ⟨-, sp₁, hdata, hcopy⟩ := dup_some hdup
  obtain ⟨hsrc, -, -⟩ := copyPage_some hcopy hl.range.fd_lt
  rw [copyData_ne hdata hl.range (index2fd_ne_data old), closeSpace_closed hl] at hsrc
  cases hsrc

/-- What is done when a page cannot be mapped. -/
def dupErr (sp : Space) (new : ℤ) : Space := unmapPage (unmapPage sp (index2fd new)) (index2data new)

theorem dupErr_eq_self : dupErr sp new = sp ↔
    (index2fd new < utopPages → sp (index2fd new) = none) ∧ (index2data new < utopPages → sp (index2data new) = none) := by
  constructor
  · intro h
    constructor
    · intro hlt
      rw [← h, dupErr, unmapPage_ne (index2fd_ne_data new), unmapPage_self hlt]
    · intro hlt
      rw [← h, dupErr, unmapPage_self hlt]
  · rintro ⟨hfd, hdata⟩
    rw [dupErr, unmapPage_none hfd, unmapPage_none hdata]

theorem canCopy_congr (h : sp' src = sp src) : CanCopy mem sp' src dst ↔ CanCopy mem sp src dst := by
  unfold CanCopy uvptAt
  rw [h]

/-- A number out of range: the new pages are somewhere else, and nothing has to happen there. -/
theorem dup_outside_iff (hl : FdLookup sp old) (hr : ¬ FdInRange new) :
    dup dev mem₁ mem₂ sp old new = (none, sp) ↔ Harmless mem₁ mem₂ sp old new := by
  have hold := hl.range
  have hdup : dup dev mem₁ mem₂ sp old new = match copyData mem₁ sp old new with
      | none => (none, dupErr sp new)
      | some sp₁ => match copyPage mem₂ sp₁ (index2fd old) (index2fd new) with
        | none => (none, dupErr sp₁ new)
        | some sp₂ => (some new, sp₂) := by
    unfold dup
    rw [if_pos hl, closeSpace_outside hr]
    rfl
  cases hdata : copyData mem₁ sp old new with
  | none =>
    have hfail : (sp (index2data old)).isSome ∧ ¬ CanCopy mem₁ sp (index2data old) (index2data new) := by
      unfold copyData at hdata
      split at hdata
      · next hsome =>
        obtain ⟨-, heq⟩ | ⟨hcan, -⟩ := @copyPage_cases mem₁ sp _ (index2data new) hsome hold.data_lt
        · rw [heq] at hdata
          cases hdata
        · exact ⟨hsome, hcan⟩
      · cases hdata
    rw [hdup, hdata]
    constructor
    · intro h
      obtain ⟨hfd, hdt⟩ := dupErr_eq_self.mp (congrArg Prod.snd h)
      exact ⟨hfd, hdt, Or.inl hfail⟩
    · intro h
      exact congrArg (Prod.mk none) (dupErr_eq_self.mpr ⟨h.fd, h.data⟩)
  | some sp₁ =>
    rw [hdup, hdata]
    dsimp only
    -- unless the page of the data is mapped over the page of the old descriptor, that one stays
    have hkeep (hne : index2fd old ≠ index2data new) : sp₁ (index2fd old) = sp (index2fd old) := copyData_ne hdata hold hne
    have hsame (hnone : index2data new < utopPages → sp (index2data new) = none) : dupErr sp₁ new = dupErr sp new := by
      obtain ⟨-, hlt, rfl⟩ | ⟨-, rfl⟩ := copyData_some hdata hold
      · funext q
        unfold dupErr
        by_cases hq : q = index2data new
        · rw [hq, unmapPage_self hlt, unmapPage_self hlt]
        · rw [unmapPage_ne hq, unmapPage_ne hq]
          unfold unmapPage
          split
          · by_cases hq' : q = index2fd new
            · rw [hq', Function.update_self, Function.update_self]
            · rw [Function.update_of_ne hq', Function.update_of_ne hq', Function.update_of_ne hq]
          · exact Function.update_of_ne hq _ _
      · rfl
    have hdataCan : (sp (index2data old)).isSome → CanCopy mem₁ sp (index2data old) (index2data new) := by
      intro hsome
      obtain ⟨hcan, -⟩ | ⟨-, hnone⟩ := @copyPage_cases mem₁ sp _ (index2data new) hsome hold.data_lt
      · exact hcan
      · unfold copyData at hdata
        rw [if_pos hsome, hnone] at hdata
        cases hdata
    constructor
    · intro h
      cases hcopy : copyPage mem₂ sp₁ (index2fd old) (index2fd new) with
      | some sp₂ =>
        rw [hcopy] at h
        cases congrArg Prod.fst h
      | none =>
        rw [hcopy] at h
        have herr : dupErr sp₁ new = sp := congrArg Prod.snd h
        have hdt : index2data new < utopPages → sp (index2data new) = none := by
          intro hlt
          rw [← herr, dupErr, unmapPage_self hlt]
        have hne : index2fd old ≠ index2data new := by
          intro heq
          have hsome := hl.2.2
          rw [heq, hdt (by rw [← heq]; exact hold.fd_lt)] at hsome
          cases hsome
        rw [hsame hdt] at herr
        obtain ⟨hfd, -⟩ := dupErr_eq_self.mp herr
        refine ⟨hfd, hdt, Or.inr fun hcan => ?_⟩
        obtain ⟨-, heq⟩ | ⟨hcan', -⟩ := @copyPage_cases mem₂ sp₁ (index2fd old) (index2fd new)
          (by rw [hkeep hne]; exact hl.2.2) hold.fd_lt
        · rw [heq] at hcopy
          cases hcopy
        · exact hcan' ((canCopy_congr (hkeep hne)).mpr hcan)
    · intro h
      have hne : index2fd old ≠ index2data new := by
        intro heq
        have hsome := hl.2.2
        rw [heq, h.data (by rw [← heq]; exact hold.fd_lt)] at hsome
        cases hsome
      have hcan : ¬ CanCopy mem₂ sp₁ (index2fd old) (index2fd new) := by
        rw [canCopy_congr (hkeep hne)]
        obtain ⟨hsome, hno⟩ | hno := h.fails
        · exact absurd (hdataCan hsome) hno
        · exact hno
      obtain ⟨hcan', -⟩ | ⟨-, hnone⟩ := @copyPage_cases mem₂ sp₁ (index2fd old) (index2fd new)
        (by rw [hkeep hne]; exact hl.2.2) hold.fd_lt
      · exact absurd hcan' hcan
      · rw [hnone]
        dsimp only
        rw [hsame h.data]
        exact congrArg (Prod.mk none) (dupErr_eq_self.mpr ⟨h.fd, h.data⟩)

/-- The number that is to be used is neither looked up nor compared with the old one, so it has to
be another one in range, unless nothing is done at all. -/
theorem dup_iff (dev : ℕ → Option Dev) (mem₁ mem₂ : Bool) (sp : Space) (old new : ℤ) : DupOk dev mem₁ mem₂ sp old new ↔
    ¬ FdLookup sp old ∨ FdInRange new ∧ new ≠ old ∨ ¬ FdInRange new ∧ Harmless mem₁ mem₂ sp old new := by
  by_cases hl : FdLookup sp old
  swap
  · have hdup : dup dev mem₁ mem₂ sp old new = (none, sp) := if_neg hl
    have hok : DupOk dev mem₁ mem₂ sp old new := by
      constructor
      · intro sp' h
        rw [hdup] at h
        cases h
      · exact fun _ => hdup
      · exact fun hl' => absurd hl' hl
    exact ⟨fun _ => Or.inl hl, fun _ => hok⟩
  by_cases hr : FdInRange new
  · by_cases heq : new = old
    · subst heq
      constructor
      · exact fun h => absurd h (not_dupOk_self hl)
      · rintro (hno | ⟨-, hno⟩ | ⟨hno, -⟩)
        · exact absurd hl hno
        · exact absurd rfl hno
        · exact absurd hr hno
    · exact ⟨fun _ => Or.inr (Or.inl ⟨hr, heq⟩), fun _ => dupOk_of_ne hr heq⟩
  · have hiff := @dup_outside_iff dev mem₁ mem₂ sp old new hl hr
    constructor
    · intro h
      exact Or.inr (Or.inr ⟨hr, hiff.mp (h.outside hr)⟩)
    · rintro (hno | ⟨hin, -⟩ | ⟨-, hharm⟩)
      · exact absurd hl hno
      · exact absurd hin hr
      · have hdup := hiff.mpr hharm
        constructor
        · intro sp' h
          rw [hdup] at h
          cases h
        · exact fun _ => hdup
        · intro _ heq
          rw [heq] at hr
          exact absurd hl.range hr

/-- Descriptors 0 and 1 are open, and each has a data page. -/
def twoOpen : Space := fun pn =>
  if pn = 0xD0000 ∨ pn = 0xD0001 ∨ pn = 0xD0020 ∨ pn = 0xD0021 then some (pn, pteP ||| pteU ||| pteW) else none

/-- `dup(0, 32)` puts the page of descriptor 0 in the place of its own data page, and `dup(0, 0)` closes it. -/
theorem dup_wrong : ¬ DupOk (fun _ => some .file) true true twoOpen 0 32 ∧ ¬ DupOk (fun _ => some .file) true true twoOpen 0 0 ∧
    (dup (fun _ => some .file) true true twoOpen 0 32).1 = some 32 ∧
    mappedPage (dup (fun _ => some .file) true true twoOpen 0 32).2 (index2data 0) = some 0xD0000 ∧
    (dup (fun _ => some .file) true true twoOpen 0 0).1 = none := by
  have hret : (dup (fun _ => some .file) true true twoOpen 0 32).1 = some 32 := by decide +kernel
  have hself : (dup (fun _ => some .file) true true twoOpen 0 0).1 = none := by decide +kernel
  refine ⟨fun h => ?_, fun h => ?_, hret, by decide +kernel, hself⟩
  · rw [h.outside (by unfold FdInRange; decide)] at hret
    cases hret
  · obtain ⟨sp', hdup, -⟩ := h.self (by decide) rfl
    rw [hdup] at hself
    cases hself

end Dup

end Sisop
