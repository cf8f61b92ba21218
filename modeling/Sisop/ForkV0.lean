import Sisop.UserPages
import Sisop.PipeRefs

/-! `fork_v0` of `lib/fork.c`, which copies the address space page by page through `UTEMP`. -/
namespace Sisop

namespace PageSys

/-- `dup_or_share(dstenv, va, perm)`. `page` is what `sys_page_alloc` finds, and `table` says whether `sys_page_map` can
have a page table. Where a system call fails the function panics. -/
def dupOrShare (page : Option ℕ) (table : Bool) (s : PageSys) (pn : ℕ) (perm : Word) : Option PageSys := do
  let q ← page
  let s := s.pageAlloc .child pn q (pteP ||| pteU ||| pteW)
  if table = false then none
  else if ¬ has perm pteW then s.pageMap .child pn .caller utempPage (pteP ||| pteU)
  else do
    let s ← s.pageMap .child pn .caller utempPage (pteP ||| pteU ||| pteW)
    -- `memmove(UTEMP, va, PGSIZE)`
    let bytes ← s.read .caller pn
    let s ← s.store .caller utempPage fun _ => bytes
    some (s.pageUnmap .caller utempPage)

/-- The loop of `fork_v0` over the first `n` pages. -/
def forkV0Loop (page : ℕ → Option ℕ) (table : ℕ → Bool) (s : PageSys) : ℕ → Option PageSys
  | 0 => some s
  | n + 1 => do
    let s ← forkV0Loop page table s n
    match s.space .caller n with
    | none => some s
    | some (_, pte) => s.dupOrShare (page n) (table n) n (pte &&& pteSyscall)

/-- `fork_v0()` in the parent, with the child that `sys_exofork` has created. -/
def forkV0 (page : ℕ → Option ℕ) (table : ℕ → Bool) (s : PageSys) : Option PageSys := forkV0Loop page table s utopPages

/-- What `fork_v0` should do: copy every page, leave the parent's mappings, and give the child the same bytes as the
copy-on-write `fork`, which maps an exception stack besides. -/
structure Copied (xstack : ℕ) (s s' : PageSys) : Prop where
  pages : ∀ pn < utopPages, ∀ q pte, s.space .caller pn = some (q, pte) → ∃ q' pte', s'.space .child pn = some (q', pte') ∧
    s'.byte q' = s.byte q ∧ (has pte' pteW ↔ has pte pteW)
  parent : s'.space .caller = s.space .caller
  cow : ∀ pn < utopPages, pn ≠ uxstackPage →
    s'.read .child pn = ((fork xstack (s.space .caller)).2 pn).map fun m => s.byte m.1

/-- Before `fork_v0`: nothing is mapped at `UTEMP`, on the exception stack or in the child, and the pages that can be
found are not in use. -/
structure ForkV0Start (page : ℕ → Option ℕ) (s : PageSys) : Prop where
  utemp : s.space .caller utempPage = none
  uxstack : s.space .caller uxstackPage = none
  child : s.space .child = fun _ => none
  unused : ∀ n q, page n = some q → ∀ pn pte, s.space .caller pn ≠ some (q, pte)
  apart : ∀ n n' q, page n = some q → page n' = some q → n = n'

/-- Every page that the parent maps is writable. -/
def AllWritable (m : Space) : Prop := ∀ pn < utopPages, ∀ q pte, m pn = some (q, pte) → has pte pteW

section Loop

variable {page : ℕ → Option ℕ} {table : ℕ → Bool} {s s' s₁ : PageSys} {n pn q q' xstack : ℕ} {pte perm : Word}

/-- The child has a page of its own, and nothing else is changed but `UTEMP`. -/
structure DupFrame (s s' : PageSys) (pn : ℕ) : Prop where
  own : ∃ q', s'.space .child pn = some (q', pteP ||| pteU ||| pteW)
  child : ∀ pn' ≠ pn, s'.space .child pn' = s.space .child pn'
  caller : ∀ pn' ≠ utempPage, s'.space .caller pn' = s.space .caller pn'

theorem dupFrame_of_space {m : Option (ℕ × Word)}
    (h : s'.space = ((s.pageAlloc .child pn q (pteP ||| pteU ||| pteW)).setEntry .caller utempPage m).space) :
    DupFrame s s' pn := by
  have hchild : s'.space .child = Function.update (s.space .child) pn (some (q, pteP ||| pteU ||| pteW)) := by
    rw [h, setEntry_other (by decide)]
    exact setEntry_same
  have hcaller : s'.space .caller = Function.update (s.space .caller) utempPage m := by
    rw [h, setEntry_same]
    rfl
  constructor
  · use q
    rw [hchild, Function.update_self]
  · intro pn' hne
    rw [hchild, Function.update_of_ne hne]
  · intro pn' hne
    rw [hcaller, Function.update_of_ne hne]

/-- A page that is not writable. -/
theorem dupOrShare_readOnly (hw : ¬ has perm pteW) : dupOrShare (some q) true s pn perm =
    some ((s.pageAlloc .child pn q (pteP ||| pteU ||| pteW)).setEntry .caller utempPage (some (q, pteP ||| pteU))) := by
  unfold dupOrShare
  rw [Option.bind_eq_bind, Option.bind_some, if_neg (by decide), if_pos hw]
  exact pageMap_of_space pageAlloc_self

/-- A page that is writable. -/
theorem dupOrShare_writable {bytes : Bytes} (hw : has perm pteW)
    (hread : ((s.pageAlloc .child pn q (pteP ||| pteU ||| pteW)).setEntry .caller utempPage
      (some (q, pteP ||| pteU ||| pteW))).read .caller pn = some bytes) :
    dupOrShare (some q) true s pn perm = some ((((s.pageAlloc .child pn q (pteP ||| pteU ||| pteW)).setEntry .caller utempPage
      (some (q, pteP ||| pteU ||| pteW))).setByte q bytes).setEntry .caller utempPage none) := by
  have hutemp : ((s.pageAlloc .child pn q (pteP ||| pteU ||| pteW)).setEntry .caller utempPage
      (some (q, pteP ||| pteU ||| pteW))).space .caller utempPage = some (q, pteP ||| pteU ||| pteW) := by
    rw [setEntry_same, Function.update_self]
  unfold dupOrShare
  rw [Option.bind_eq_bind, Option.bind_some, if_neg (by decide), if_neg (not_not_intro hw)]
  simp only [Option.bind_eq_bind]
  rw [pageMap_of_space pageAlloc_self, Option.bind_some, hread, Option.bind_some, store_of_space hutemp, Option.bind_some]
  rfl

/-- Behind the scratch page the caller sees what it has seen before. -/
theorem scratch_caller {m : Option (ℕ × Word)} (hne : pn ≠ utempPage) :
    ((s.pageAlloc .child pn q perm).setEntry .caller utempPage m).space .caller pn = s.space .caller pn := by
  rw [setEntry_same, Function.update_of_ne hne]
  rfl

/-- A page that is mapped can be duplicated. -/
theorem dupOrShare_frame (hmap : s.space .caller pn = some (q', pte)) (q : ℕ) (perm : Word) :
    ∃ s', dupOrShare (some q) true s pn perm = some s' ∧ DupFrame s s' pn := by
  by_cases hw : has perm pteW
  · obtain ⟨bytes, hread⟩ : ∃ bytes, ((s.pageAlloc .child pn q (pteP ||| pteU ||| pteW)).setEntry .caller utempPage
        (some (q, pteP ||| pteU ||| pteW))).read .caller pn = some bytes := by
      by_cases hpn : pn = utempPage
      · have hself : ((s.pageAlloc .child pn q (pteP ||| pteU ||| pteW)).setEntry .caller utempPage
            (some (q, pteP ||| pteU ||| pteW))).space .caller pn = some (q, pteP ||| pteU ||| pteW) := by
          rw [hpn, setEntry_same, Function.update_self]
        exact ⟨_, read_of_space hself⟩
      · exact ⟨_, read_of_space ((scratch_caller hpn).trans hmap)⟩
    exact ⟨_, dupOrShare_writable hw hread, dupFrame_of_space setEntry_twice⟩
  · exact ⟨_, dupOrShare_readOnly hw, dupFrame_of_space rfl⟩

theorem dupOrShare_some {o : Option ℕ} {b : Bool} (h : dupOrShare o b s pn perm = some s') : ∃ q, o = some q ∧ b = true := by
  cases o with
  | none => cases h
  | some q =>
    cases b with
    | true => exact ⟨q, rfl, rfl⟩
    | false => cases h

theorem has_syscall_pteW : has (pte &&& pteSyscall) pteW ↔ has pte pteW := by
  have hmask : pteSyscall &&& pteW = pteW := by decide
  unfold has
  rw [BitVec.and_assoc, hmask]

theorem forkV0Loop_none (h : s₁.space .caller n = none) (hloop : forkV0Loop page table s n = some s₁) :
    forkV0Loop page table s (n + 1) = some s₁ := by
  unfold forkV0Loop
  rw [hloop, Option.bind_eq_bind, Option.bind_some, h]

theorem forkV0Loop_some (h : s₁.space .caller n = some (q, pte)) (hloop : forkV0Loop page table s n = some s₁) :
    forkV0Loop page table s (n + 1) = s₁.dupOrShare (page n) (table n) n (pte &&& pteSyscall) := by
  rw [forkV0Loop, hloop, Option.bind_eq_bind, Option.bind_some, h]

/-- The first `n` pages have been duplicated in one way or the other. -/
structure Duplicated (s s' : PageSys) (n : ℕ) : Prop where
  child : ∀ pn < n, pn ≠ utempPage → ∀ q pte, s.space .caller pn = some (q, pte) →
    ∃ q', s'.space .child pn = some (q', pteP ||| pteU ||| pteW)
  caller : ∀ pn ≠ utempPage, s'.space .caller pn = s.space .caller pn

theorem Duplicated.step (h : Duplicated s s₁ n) (hf : DupFrame s₁ s' n) : Duplicated s s' (n + 1) where
  child pn hlt hne q pte hmap := by
    rcases Nat.lt_succ_iff_lt_or_eq.mp hlt with hlt | rfl
    · rw [hf.child pn hlt.ne]
      exact h.child pn hlt hne q pte hmap
    · exact hf.own
  caller pn hne := (hf.caller pn hne).trans (h.caller pn hne)

theorem Duplicated.skip (h : Duplicated s s₁ n) (hnone : s₁.space .caller n = none) : Duplicated s s₁ (n + 1) where
  child pn hlt hne q pte hmap := by
    rcases Nat.lt_succ_iff_lt_or_eq.mp hlt with hlt | rfl
    · exact h.child pn hlt hne q pte hmap
    · rw [← h.caller pn hne, hnone] at hmap
      cases hmap
  caller := h.caller

theorem forkV0Loop_duplicated (n : ℕ) : ∀ {s'}, forkV0Loop page table s n = some s' → Duplicated s s' n := by
  induction n with
  | zero =>
    intro s' h
    obtain rfl := Option.some.inj h
    exact ⟨nofun, fun _ _ => rfl⟩
  | succ n ih =>
    intro s' h
    cases hloop : forkV0Loop page table s n with
    | none =>
      rw [forkV0Loop, hloop] at h
      cases h
    | some s₁ =>
      have h₁ := ih hloop
      cases hmap : s₁.space .caller n with
      | none =>
        rw [forkV0Loop_none hmap hloop] at h
        obtain rfl := Option.some.inj h
        exact h₁.skip hmap
      | some m =>
        obtain ⟨q', pte⟩ := m
        rw [forkV0Loop_some hmap hloop] at h
        obtain ⟨q, hpage, htable⟩ := dupOrShare_some h
        rw [hpage, htable] at h
        obtain ⟨s₂, hdup, hframe⟩ := dupOrShare_frame hmap q (pte &&& pteSyscall)
        obtain rfl := Option.some.inj (hdup.symm.trans h)
        exact h₁.step hframe

/-- Where the system calls succeed the loop comes to its end. -/
theorem forkV0Loop_returns (hpage : ∀ n, (page n).isSome) (htable : ∀ n, table n = true) (s : PageSys) (n : ℕ) :
    ∃ s', forkV0Loop page table s n = some s' := by
  induction n with
  | zero => exact ⟨s, rfl⟩
  | succ n ih =>
    obtain ⟨s₁, hloop⟩ := ih
    cases hmap : s₁.space .caller n with
    | none => exact ⟨s₁, forkV0Loop_none hmap hloop⟩
    | some m =>
      obtain ⟨q, hq⟩ := Option.isSome_iff_exists.mp (hpage n)
      rw [forkV0Loop_some hmap hloop, hq, htable]
      obtain ⟨s₂, hdup, -⟩ := dupOrShare_frame hmap q (m.2 &&& pteSyscall)
      exact ⟨s₂, hdup⟩

/-- A page that is not writable becomes writable in the child. -/
theorem not_copied (hutemp : s.space .caller utempPage = none) (hpn : pn < utopPages) (hmap : s.space .caller pn = some (q, pte))
    (hw : ¬ has pte pteW) (hfork : forkV0 page table s = some s') : ¬ Copied xstack s s' := by
  intro hcopied
  have hne : pn ≠ utempPage := by
    rintro rfl
    rw [hutemp] at hmap
    cases hmap
  obtain ⟨q', hchild⟩ := (forkV0Loop_duplicated utopPages hfork).child pn hpn hne q pte hmap
  obtain ⟨q'', pte', hchild', -, hiff⟩ := hcopied.pages pn hpn q pte hmap
  obtain ⟨rfl, rfl⟩ := Prod.mk.inj (Option.some.inj (hchild'.symm.trans hchild))
  exact hw (hiff.mp (by decide))

/-- The first `n` pages have been copied. -/
structure Copying (page : ℕ → Option ℕ) (s s' : PageSys) (n : ℕ) : Prop where
  caller : s'.space .caller = s.space .caller
  child : ∀ pn, s'.space .child pn = if pn < n then
    (s.space .caller pn).bind fun _ => (page pn).map fun q => (q, pteP ||| pteU ||| pteW) else none
  bytes : ∀ pn < n, ∀ q pte, s.space .caller pn = some (q, pte) → ∃ q', page pn = some q' ∧ s'.byte q' = s.byte q
  old : ∀ pn q pte, s.space .caller pn = some (q, pte) → s'.byte q = s.byte q

theorem copying_zero (hs : ForkV0Start page s) : Copying page s s 0 where
  caller := rfl
  child pn := by
    rw [if_neg (Nat.not_lt_zero pn), hs.child]
  bytes := nofun
  old _ _ _ _ := rfl

theorem Copying.skip (h : Copying page s s₁ n) (hnone : s₁.space .caller n = none) : Copying page s s₁ (n + 1) where
  caller := h.caller
  child pn := by
    rw [h.child]
    by_cases hpn : pn = n
    · rw [h.caller] at hnone
      rw [hpn, if_neg (lt_irrefl n), if_pos (Nat.lt_succ_self n), hnone]
      rfl
    · simp only [Nat.lt_succ_iff_lt_or_eq, hpn, or_false]
  bytes pn hlt q pte hmap := by
    rcases Nat.lt_succ_iff_lt_or_eq.mp hlt with hlt | rfl
    · exact h.bytes pn hlt q pte hmap
    · rw [← h.caller, hnone] at hmap
      cases hmap
  old := h.old

/-- What a page that is writable adds. -/
theorem Copying.step (h : Copying page s s₁ n) (hs : ForkV0Start page s) (hmap : s.space .caller n = some (q, pte))
    (hpage : page n = some q') (hchild : s'.space .child = Function.update (s₁.space .child) n (some (q', pteP ||| pteU ||| pteW)))
    (hcaller : s'.space .caller = s₁.space .caller) (hbyte : s'.byte q' = s₁.byte q)
    (hother : ∀ p ≠ q', s'.byte p = s₁.byte p) : Copying page s s' (n + 1) where
  caller := hcaller.trans h.caller
  child pn := by
    rw [hchild]
    by_cases hpn : pn = n
    · rw [hpn, Function.update_self, if_pos (Nat.lt_succ_self n), hmap, hpage]
      rfl
    · rw [Function.update_of_ne hpn, h.child]
      simp only [Nat.lt_succ_iff_lt_or_eq, hpn, or_false]
  bytes pn hlt p w hp := by
    rcases Nat.lt_succ_iff_lt_or_eq.mp hlt with hlt | rfl
    · obtain ⟨p', hp', heq⟩ := h.bytes pn hlt p w hp
      have hne : p' ≠ q' := by
        rintro rfl
        exact hlt.ne (hs.apart pn n p' hp' hpage)
      exact ⟨p', hp', (hother p' hne).trans heq⟩
    · obtain ⟨rfl, rfl⟩ := Prod.mk.inj (Option.some.inj (hmap.symm.trans hp))
      exact ⟨q', hpage, hbyte.trans (h.old pn q pte hmap)⟩
  old pn p w hp := by
    have hne : p ≠ q' := by
      rintro rfl
      exact hs.unused n p hpage pn w hp
    exact (hother p hne).trans (h.old pn p w hp)

theorem forkV0Loop_copying (hs : ForkV0Start page s) (hall : AllWritable (s.space .caller)) (n : ℕ) (hn : n ≤ utopPages) :
    ∀ {s'}, forkV0Loop page table s n = some s' → Copying page s s' n := by
  induction n with
  | zero =>
    intro s' h
    obtain rfl := Option.some.inj h
    exact copying_zero hs
  | succ n ih =>
    intro s' h
    cases hloop : forkV0Loop page table s n with
    | none =>
      rw [forkV0Loop, hloop] at h
      cases h
    | some s₁ =>
      have h₁ := ih (by omega) hloop
      cases hmap : s₁.space .caller n with
      | none =>
        rw [forkV0Loop_none hmap hloop] at h
        obtain rfl := Option.some.inj h
        exact h₁.skip hmap
      | some m =>
        obtain ⟨q, pte⟩ := m
        have hold : s.space .caller n = some (q, pte) := by rw [← h₁.caller, hmap]
        have hne : n ≠ utempPage := by
          rintro rfl
          rw [hs.utemp] at hold
          cases hold
        have hw : has (pte &&& pteSyscall) pteW := has_syscall_pteW.mpr (hall n hn q pte hold)
        rw [forkV0Loop_some hmap hloop] at h
        obtain ⟨q', hpage, htable⟩ := dupOrShare_some h
        have hqq : q ≠ q' := by
          rintro rfl
          exact hs.unused n q hpage n pte hold
        have hread : ((s₁.pageAlloc .child n q' (pteP ||| pteU ||| pteW)).setEntry .caller utempPage
            (some (q', pteP ||| pteU ||| pteW))).read .caller n = some (s₁.byte q) := by
          rw [read_of_space ((scratch_caller hne).trans hmap)]
          exact congrArg some (setByte_other hqq)
        rw [hpage, htable, dupOrShare_writable hw hread] at h
        obtain rfl := Option.some.inj h
        apply h₁.step hs hold hpage
        · rw [setEntry_other (by decide), setByte_space, setEntry_other (by decide)]
          exact setEntry_same
        · rw [setEntry_same, setByte_space, setEntry_same, Function.update_idem]
          have hutemp : s₁.space .caller utempPage = none := by rw [h₁.caller, hs.utemp]
          rw [← hutemp]
          exact Function.update_eq_self _ _
        · exact setByte_same
        · intro p hp
          exact (setByte_other hp).trans (setByte_other hp)

/-- `duppage` leaves every page of the parent where it is, and gives the child that page. -/
theorem duppage_page (sp : Space × Space) (n pn : ℕ) :
    ((duppage n sp).1 pn).map Prod.fst = (sp.1 pn).map Prod.fst ∧
      ((duppage n sp).2 pn).map Prod.fst = (if pn = n ∧ (sp.1 pn).isSome then sp.1 pn else sp.2 pn).map Prod.fst := by
  unfold duppage
  cases hmap : sp.1 n with
  | none =>
    refine ⟨rfl, ?_⟩
    rw [if_neg]
    rintro ⟨rfl, hsome⟩
    rw [hmap] at hsome
    cases hsome
  | some m =>
    by_cases hpn : pn = n
    · rw [hpn, hmap, if_pos ⟨rfl, rfl⟩]
      dsimp only
      split_ifs
      · dsimp only
        rw [Function.update_self, Function.update_self]
        exact ⟨rfl, rfl⟩
      · dsimp only
        rw [Function.update_self, hmap]
        exact ⟨rfl, rfl⟩
    · rw [if_neg fun h => hpn h.1]
      dsimp only
      split_ifs
      · dsimp only
        rw [Function.update_of_ne hpn, Function.update_of_ne hpn]
        exact ⟨rfl, rfl⟩
      · dsimp only
        rw [Function.update_of_ne hpn]
        exact ⟨rfl, rfl⟩

/-- The pages that the loops of `fork` give to the child are those of the parent. -/
theorem forkLoop_page (sp : Space × Space) (n pn : ℕ) (hpn : pn ≠ uxstackPage) :
    ((forkLoop sp n).1 pn).map Prod.fst = (sp.1 pn).map Prod.fst ∧
      ((forkLoop sp n).2 pn).map Prod.fst = (if pn < n ∧ (sp.1 pn).isSome then sp.1 pn else sp.2 pn).map Prod.fst := by
  induction n with
  | zero =>
    refine ⟨rfl, ?_⟩
    rw [if_neg fun h => Nat.not_lt_zero pn h.1]
    rfl
  | succ n ih =>
    obtain ⟨ih₁, ih₂⟩ := ih
    unfold forkLoop
    by_cases hn : n = uxstackPage
    · have hne : pn ≠ n := fun h => hpn (h.trans hn)
      rw [if_pos hn]
      refine ⟨ih₁, ih₂.trans ?_⟩
      simp only [Nat.lt_succ_iff_lt_or_eq, hne, or_false]
    · have hsome : ((forkLoop sp n).1 pn).isSome = (sp.1 pn).isSome := by
        have h := congrArg Option.isSome ih₁
        rwa [Option.isSome_map, Option.isSome_map] at h
      rw [if_neg hn]
      refine ⟨(duppage_page _ n pn).1.trans ih₁, (duppage_page _ n pn).2.trans ?_⟩
      rw [hsome]
      by_cases hpn : pn = n
      · by_cases hs : (sp.1 pn).isSome
        · rw [if_pos ⟨hpn, hs⟩, if_pos ⟨by omega, hs⟩, ih₁]
        · rw [if_neg fun h => hs h.2, if_neg fun h => hs h.2, ih₂, if_neg fun h => hs h.2]
      · rw [if_neg fun h => hpn h.1, ih₂]
        simp only [Nat.lt_succ_iff_lt_or_eq, hpn, or_false]

theorem fork_page (xstack : ℕ) (m : Space) (hpn : pn < utopPages) (hne : pn ≠ uxstackPage) :
    ((fork xstack m).2 pn).map Prod.fst = (m pn).map Prod.fst := by
  have hfork : ∃ n, pn < n ∧ fork xstack m =
      forkLoop (m, Function.update (fun _ => none) uxstackPage (some (xstack, pteW ||| pteU ||| pteP))) n := ⟨utopPages, hpn, rfl⟩
  obtain ⟨n, hpn, hfork⟩ := hfork
  rw [hfork]
  refine (forkLoop_page _ n pn hne).2.trans ?_
  by_cases hmap : (m pn).isSome
  · rw [if_pos ⟨hpn, hmap⟩]
  · rw [if_neg fun h => hmap h.2, Option.not_isSome_iff_eq_none.mp hmap]
    dsimp only
    rw [Function.update_of_ne hne]

/-- Where every page is writable the address space is copied. -/
theorem copied (hs : ForkV0Start page s) (hall : AllWritable (s.space .caller)) (hfork : forkV0 page table s = some s') :
    Copied xstack s s' := by
  have h := forkV0Loop_copying hs hall utopPages le_rfl hfork
  have hpages : ∀ pn < utopPages, ∀ q pte, s.space .caller pn = some (q, pte) →
      ∃ q', s'.space .child pn = some (q', pteP ||| pteU ||| pteW) ∧ s'.byte q' = s.byte q := by
    intro pn hpn q pte hmap
    obtain ⟨q', hpage, hbyte⟩ := h.bytes pn hpn q pte hmap
    refine ⟨q', ?_, hbyte⟩
    rw [h.child, if_pos hpn, hmap, hpage]
    rfl
  refine ⟨fun pn hpn q pte hmap => ?_, h.caller, fun pn hpn hne => ?_⟩
  · obtain ⟨q', hchild, hbyte⟩ := hpages pn hpn q pte hmap
    exact ⟨q', _, hchild, hbyte, fun _ => hall pn hpn q pte hmap, fun _ => by decide⟩
  · have hcow : ((fork xstack (s.space .caller)).2 pn).map (fun m => s.byte m.1) = (s.space .caller pn).map fun m => s.byte m.1 := by
      have hfst := congrArg (Option.map s.byte) (fork_page xstack (s.space .caller) hpn hne)
      rw [Option.map_map, Option.map_map] at hfst
      exact hfst
    rw [hcow]
    cases hmap : s.space .caller pn with
    | none =>
      unfold read
      rw [h.child, if_pos hpn, hmap]
      rfl
    | some m =>
      obtain ⟨q', hchild, hbyte⟩ := hpages pn hpn m.1 m.2 hmap
      rw [read_of_space hchild, hbyte]
      rfl

end Loop

/-- `fork_v0` returns where its system calls succeed, and copies the address space exactly if every page that the parent
maps is writable. -/
theorem forkV0_iff (page : ℕ → Option ℕ) (table : ℕ → Bool) (s : PageSys) (xstack : ℕ) (hs : ForkV0Start page s) :
    ((∀ n, (page n).isSome) → (∀ n, table n = true) → ∃ s', forkV0 page table s = some s') ∧
    ∀ s', forkV0 page table s = some s' → (Copied xstack s s' ↔ AllWritable (s.space .caller)) := by
  refine ⟨fun hpage htable => forkV0Loop_returns hpage htable s utopPages, fun s' hfork => ⟨fun hcopied => ?_, fun hall => ?_⟩⟩
  · intro pn hpn q pte hmap
    by_contra hw
    exact not_copied hs.utemp hpn hmap hw hfork hcopied
  · exact copied hs hall hfork

/-- A parent that maps page 1 of the physical memory at `0x800000`. -/
def onePage (perm : Word) : PageSys where
  space e := match e with
    | .caller => Function.update (fun _ => none) 0x800 (some (1, perm))
    | .child => fun _ => none
  byte _ _ := 0x2A#8

theorem onePage_caller {perm pte : Word} {pn q : ℕ} (h : (onePage perm).space .caller pn = some (q, pte)) :
    pn = 0x800 ∧ q = 1 ∧ pte = perm := by
  change Function.update (fun _ => none : Space) 0x800 (some (1, perm)) pn = some (q, pte) at h
  by_cases hpn : pn = 0x800
  · rw [hpn, Function.update_self] at h
    obtain ⟨rfl, rfl⟩ := Prod.mk.inj (Option.some.inj h)
    exact ⟨hpn, rfl, rfl⟩
  · rw [Function.update_of_ne hpn] at h
    cases h

theorem onePage_start (perm : Word) : ForkV0Start (fun n => some (n + 2)) (onePage perm) where
  utemp := rfl
  uxstack := rfl
  child := rfl
  unused n q hq pn pte hmap := by
    obtain ⟨-, rfl, -⟩ := onePage_caller hmap
    have heq := Option.some.inj hq
    omega
  apart n n' q hq hq' := by
    have heq := Option.some.inj hq
    have heq' := Option.some.inj hq'
    omega

theorem forkV0_onePage : ∃ s', forkV0 (fun n => some (n + 2)) (fun _ => true) (onePage (pteP ||| pteU ||| pteW)) = some s' ∧
    Copied 0 (onePage (pteP ||| pteU ||| pteW)) s' := by
  obtain ⟨hreturns, hiff⟩ := forkV0_iff (fun n => some (n + 2)) (fun _ => true) _ 0 (onePage_start (pteP ||| pteU ||| pteW))
  obtain ⟨s', hfork⟩ := hreturns (fun _ => rfl) fun _ => rfl
  refine ⟨s', hfork, (hiff s' hfork).mpr fun pn _ q pte hmap => ?_⟩
  rw [(onePage_caller hmap).2.2]
  decide

/-- The page of a read-only text is not copied. -/
theorem forkV0_readOnly : ∃ s', forkV0 (fun n => some (n + 2)) (fun _ => true) (onePage (pteP ||| pteU)) = some s' ∧
    ¬ Copied 0 (onePage (pteP ||| pteU)) s' := by
  obtain ⟨s', hfork⟩ : ∃ s', forkV0 (fun n => some (n + 2)) (fun _ => true) (onePage (pteP ||| pteU)) = some s' :=
    forkV0Loop_returns (fun _ => rfl) (fun _ => rfl) _ _
  have hmap : (onePage (pteP ||| pteU)).space .caller 0x800 = some (1, pteP ||| pteU) := rfl
  exact ⟨s', hfork, not_copied (onePage_start _).utemp (by decide) hmap (by decide) hfork⟩

end PageSys

end Sisop
