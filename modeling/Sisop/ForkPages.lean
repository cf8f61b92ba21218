import Sisop.Mmu

/-! How `fork` of `lib/fork.c` and `spawn` of `lib/spawn.c` fill the address space of a
new process. The page system calls are taken at their word: each maps or unmaps the page
it is asked to. -/
namespace Sisop

/-- `PTE_COW`. -/
abbrev pteCow : Word := 0x800#32

/-- `PTE_SHARE`. -/
abbrev pteShare : Word := 0x400#32

/-- The pages below `UTOP` that a process maps: for each page number of its address
space the physical page and the flags of the entry. -/
abbrev Space : Type := ℕ → Option (ℕ × Word)

/-- `UXSTACKTOP - PGSIZE`, as a page number. -/
abbrev uxstackPage : ℕ := pgnum (uxstacktop - 4096#32)

/-- `USTACKTOP - PGSIZE`, as a page number. -/
abbrev ustackPage : ℕ := pgnum (ustacktop - 4096#32)

/-- `UTEMP`, as a page number. -/
abbrev utempPage : ℕ := ptsize / pgsize

/-- `PFTEMP`, as a page number. -/
abbrev pftempPage : ℕ := (ptsize + ptsize - pgsize) / pgsize

/-- The pages below `UTOP`. -/
abbrev utopPages : ℕ := pgnum utop

/-- `(pte & PTE_W) || (pte & PTE_COW)`. -/
def DupsCow (pte : Word) : Prop := has pte pteW ∨ has pte pteCow

instance (pte : Word) : Decidable (DupsCow pte) := inferInstanceAs (Decidable (_ ∨ _))

/-- The permissions that `duppage` gives the child, and the parent in the first case. -/
def dupPerm (pte : Word) : Word :=
  if DupsCow pte then pteP ||| pteU ||| pteCow else pteP ||| pteU

/-- `duppage(envid, pn)`, on the spaces of the parent and of the child. -/
def duppage (pn : ℕ) (s : Space × Space) : Space × Space :=
  match s.1 pn with
  | none => s
  | some (page, pte) =>
    if DupsCow pte then (Function.update s.1 pn (some (page, dupPerm pte)),
      Function.update s.2 pn (some (page, dupPerm pte)))
    else (s.1, Function.update s.2 pn (some (page, dupPerm pte)))

/-- The loops of `fork` over the first `n` pages. -/
def forkLoop (s : Space × Space) : ℕ → Space × Space
  | 0 => s
  | n+1 => if n = uxstackPage then forkLoop s n else duppage n (forkLoop s n)

/-- `fork()`, where `xstack` is the page that `sys_page_alloc` finds for the child's
exception stack. -/
def fork (xstack : ℕ) (parent : Space) : Space × Space :=
  forkLoop (parent, Function.update (fun _ => none) uxstackPage
    (some (xstack, pteW ||| pteU ||| pteP))) utopPages

/-- A page that `map_segment` gives the child: a blank one, or one that is filled at `UTEMP`. -/
structure SegmentPage where
  pn : ℕ
  page : ℕ
  writable : Bool
  blank : Bool

/-- `perm`, for a segment that is writable or not. -/
def segmentPerm (writable : Bool) : Word :=
  if writable then pteP ||| pteU ||| pteW else pteP ||| pteU

/-- One round of `map_segment`. -/
def mapSegmentPage (s : Space × Space) (seg : SegmentPage) : Space × Space :=
  let child := Function.update s.2 seg.pn (some (seg.page, segmentPerm seg.writable))
  if seg.blank then (s.1, child) else (Function.update s.1 utempPage none, child)

/-- `copy_shared_pages(child)`. -/
def copySharedPages (s : Space × Space) : Space × Space := s

/-- `spawn(prog, argv)` up to `copy_shared_pages`: the stack, which is filled at `UTEMP`, and
the segments. -/
def spawn (stack : ℕ) (segments : List SegmentPage) (parent : Space) : Space × Space :=
  copySharedPages (segments.foldl mapSegmentPage
    (Function.update parent utempPage none,
      Function.update (fun _ => none) ustackPage (some (stack, segmentPerm true))))

/-- The parent maps a page below `UTOP` with `PTE_SHARE`. -/
def MapsShared (parent : Space) : Prop :=
  ∃ pn < utopPages, ∃ page pte, parent pn = some (page, pte) ∧ has pte pteShare

/-- Every page that the parent maps with `PTE_SHARE` is mapped in the space `s'`, at the same
address and with the same permissions. -/
def KeepsShared (parent s' : Space) : Prop :=
  ∀ pn < utopPages, ∀ page pte, parent pn = some (page, pte) → has pte pteShare →
    ∃ pte', s' pn = some (page, pte') ∧ pte' &&& pteSyscall = pte &&& pteSyscall

section Shared

variable {parent child : Space} {pn n page : ℕ} {pte : Word} {s : Space × Space}

/-- A space none of whose entries has `PTE_SHARE`. -/
def NoShare (m : Space) : Prop := ∀ pn page pte, m pn = some (page, pte) → ¬ has pte pteShare

theorem NoShare.update (h : NoShare child) (hp : ¬ has pte pteShare) (pn page : ℕ) :
    NoShare (Function.update child pn (some (page, pte))) := by
  intro i q w hi
  rw [Function.update_apply] at hi
  split_ifs at hi
  · obtain ⟨-, rfl⟩ := Prod.mk.inj (Option.some.inj hi)
    exact hp
  · exact h i q w hi

theorem noShare_none : NoShare fun _ => none := fun _ _ _ h => by cases h

theorem not_share_dupPerm (pte : Word) : ¬ has (dupPerm pte) pteShare := by
  unfold dupPerm
  split_ifs <;> decide

theorem not_share_segmentPerm (writable : Bool) : ¬ has (segmentPerm writable) pteShare := by
  cases writable <;> decide

theorem NoShare.duppage (h : NoShare s.2) (pn : ℕ) : NoShare (duppage pn s).2 := by
  unfold Sisop.duppage
  split
  · exact h
  · split_ifs
    · exact h.update (not_share_dupPerm _) _ _
    · exact h.update (not_share_dupPerm _) _ _

theorem NoShare.forkLoop (h : NoShare s.2) (n : ℕ) : NoShare (forkLoop s n).2 := by
  induction n with
  | zero => exact h
  | succ n ih =>
    rw [Sisop.forkLoop]
    split_ifs
    · exact ih
    · exact ih.duppage n

/-- No page of a forked process has `PTE_SHARE`. -/
theorem noShare_fork (xstack : ℕ) (parent : Space) : NoShare (fork xstack parent).2 :=
  NoShare.forkLoop (noShare_none.update (by decide) _ _) _

theorem NoShare.mapSegments (h : NoShare s.2) (segments : List SegmentPage) :
    NoShare (segments.foldl mapSegmentPage s).2 := by
  induction segments generalizing s with
  | nil => exact h
  | cons seg segments ih =>
    have hseg : NoShare (mapSegmentPage s seg).2 := by
      unfold mapSegmentPage
      simp only
      split_ifs
      · exact h.update (not_share_segmentPerm _) _ _
      · exact h.update (not_share_segmentPerm _) _ _
    exact ih hseg

/-- No page of a spawned process has `PTE_SHARE`. -/
theorem noShare_spawn (stack : ℕ) (segments : List SegmentPage) (parent : Space) :
    NoShare (spawn stack segments parent).2 :=
  NoShare.mapSegments (noShare_none.update (not_share_segmentPerm true) _ _) _

theorem has_of_syscall_eq {w pte : Word} (h : w &&& pteSyscall = pte &&& pteSyscall)
    (hs : has pte pteShare) : has w pteShare := by
  have hmask : pteSyscall &&& pteShare = pteShare := by decide
  calc w &&& pteShare = (w &&& pteSyscall) &&& pteShare := by rw [BitVec.and_assoc, hmask]
    _ = (pte &&& pteSyscall) &&& pteShare := by rw [h]
    _ = pteShare := by rw [BitVec.and_assoc, hmask, hs]

/-- A space without `PTE_SHARE` keeps the shared pages only if there are none. -/
theorem NoShare.keeps_iff (h : NoShare child) : KeepsShared parent child ↔ ¬ MapsShared parent := by
  constructor
  · intro hk hm
    obtain ⟨pn, hpn, page, pte, hp, hs⟩ := hm
    obtain ⟨pte', hp', he⟩ := hk pn hpn page pte hp hs
    exact h pn page pte' hp' (has_of_syscall_eq he hs)
  · intro hm pn hpn page pte hp hs
    exact absurd ⟨pn, hpn, page, pte, hp, hs⟩ hm

theorem keepsShared_of_not_mapsShared (h : ¬ MapsShared parent) (s' : Space) :
    KeepsShared parent s' :=
  fun pn hpn page pte hp hs => absurd ⟨pn, hpn, page, pte, hp, hs⟩ h

/-- `fork` and `spawn` keep the shared pages of the parent, in the child and in the parent,
exactly if there are none. -/
theorem shared_pages_iff (parent : Space) :
    (∀ xstack, KeepsShared parent (fork xstack parent).2 ∧ KeepsShared parent (fork xstack parent).1 ↔
      ¬ MapsShared parent) ∧
    ∀ stack segments, KeepsShared parent (spawn stack segments parent).2 ∧
      KeepsShared parent (spawn stack segments parent).1 ↔ ¬ MapsShared parent :=
  ⟨fun xstack => ⟨fun h => (noShare_fork xstack parent).keeps_iff.mp h.1,
    fun h => ⟨keepsShared_of_not_mapsShared h _, keepsShared_of_not_mapsShared h _⟩⟩,
    fun stack segments => ⟨fun h => (noShare_spawn stack segments parent).keeps_iff.mp h.1,
      fun h => ⟨keepsShared_of_not_mapsShared h _, keepsShared_of_not_mapsShared h _⟩⟩⟩

/-- A page at `0xA0000000` that is meant to be shared is copied on the next write after a
fork, and is missing after a spawn. -/
theorem share_lost : ∃ parent : Space, ∃ pn < utopPages,
    parent pn = some (5, pteP ||| pteW ||| pteU ||| pteShare) ∧
    (∀ xstack, ¬ KeepsShared parent (fork xstack parent).2) ∧
    ∀ stack segments, ¬ KeepsShared parent (spawn stack segments parent).2 := by
  obtain ⟨parent, hp⟩ : ∃ parent : Space, parent = Function.update (fun _ => none)
    (pgnum 0xA0000000#32) (some (5, pteP ||| pteW ||| pteU ||| pteShare)) := ⟨_, rfl⟩
  have hpn : parent (pgnum 0xA0000000#32) = some (5, pteP ||| pteW ||| pteU ||| pteShare) := by
    rw [hp, Function.update_self]
  have hm : MapsShared parent := ⟨_, by decide, 5, _, hpn, by decide⟩
  exact ⟨parent, _, by decide, hpn, fun xstack h => (noShare_fork xstack parent).keeps_iff.mp h hm,
    fun stack segments h => (noShare_spawn stack segments parent).keeps_iff.mp h hm⟩

end Shared
end Sisop
