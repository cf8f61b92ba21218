import Sisop.BootInvariant

/-! The page allocator on its own: `page_init` on any machine, and any sequence of
calls of `page_alloc` and `page_free` after it. -/
namespace Sisop

/-- `ALLOC_ZERO`. -/
abbrev allocZero : Word := 1#32

/-- `MPENTRY_PADDR`, where the entry code of the other processors goes. -/
abbrev mpentryPaddr : Word := 0x7000#32

/-- `page_alloc(alloc_flags)`. -/
def pageAllocFlags (allocFlags : Word) : Routine Pm (Option ℕ) := do
  match (← Routine.gets Pm.pageFreeList) with
  | none => pure none
  | some result =>
    Routine.modify fun s => { s with pageFreeList := (s.pages result).ppLink }
    Routine.modify fun s => s.setLink result none
    if allocFlags &&& allocZero ≠ 0#32 then
      let page ← page2kva result
      Routine.modify fun s => s.clear page
      pure (some result)
    else pure (some result)

/-- `page_init()`, when `boot_alloc(0)` returns the physical address `fin`. -/
def pageInitFrom (fin : ℕ) (s : Pm) : Pm :=
  (pageInitLoop (pgnum iophysmem) (fin / pgsize) { s with pageFreeList := none } (s.npages - 1)).2

/-- The pages that the allocator manages. -/
def Allocatable (npages fin i : ℕ) : Prop :=
  1 ≤ i ∧ i < npages ∧ ¬ (pgnum iophysmem ≤ i ∧ i < fin / pgsize) ∧ i ≠ pgnum mpentryPaddr

/-- The allocator, and the pages that its caller holds. -/
structure AllocState where
  pm : Pm
  held : Finset ℕ

/-- Calls of `page_alloc`, and of `page_free` for a page that the caller holds and that
has no references. In between the caller counts references to the pages it holds, and
writes to memory. -/
inductive AllocStep : AllocState → AllocState → Prop
  | alloc {a : AllocState} {allocFlags : Word} {p : ℕ} {s' : Pm}
      (hr : pageAllocFlags allocFlags a.pm = .ret (some p) s') : AllocStep a ⟨s', insert p a.held⟩
  | allocFails {a : AllocState} {allocFlags : Word} {s' : Pm}
      (hr : pageAllocFlags allocFlags a.pm = .ret none s') : AllocStep a ⟨s', a.held⟩
  | free {a : AllocState} {p : ℕ} {s' : Pm} (hp : p ∈ a.held) (hz : (a.pm.pages p).ppRef = 0)
      (hr : pageFree p a.pm = .ret () s') : AllocStep a ⟨s', a.held.erase p⟩
  | use {a : AllocState} {p : ℕ} (r : BitVec 16) (w : ℕ → ℕ → Word) (hp : p ∈ a.held) :
      AllocStep a ⟨{ a.pm.setRef p r with word := w }, a.held⟩

/-- After `page_init`, on a zeroed `pages` array. -/
def AllocStart (npages fin : ℕ) (a : AllocState) : Prop :=
  ∃ s : Pm, s.npages = npages ∧ (s.pages = fun _ => ⟨none, 0⟩) ∧ a = ⟨pageInitFrom fin s, ∅⟩

/-- `l` is the free list: together with the pages held, every page of the allocator once. -/
structure Partition (npages fin : ℕ) (a : AllocState) (l : List ℕ) : Prop where
  chain : Chain (fun p => (a.pm.pages p).ppLink) a.pm.pageFreeList l
  nodup : l.Nodup
  disjoint : ∀ p ∈ l, p ∉ a.held
  all : ∀ p, p ∈ l ∨ p ∈ a.held ↔ Allocatable npages fin p
  unlinked : ∀ p, p ∉ l → (a.pm.pages p).ppLink = none
  npages_eq : a.pm.npages = npages

section Allocator

variable {npages fin p : ℕ} {a a' : AllocState} {l : List ℕ} {s s' : Pm} {flags : Word}

theorem reserved_iff {i : ℕ} (hi : 1 ≤ i) (hn : i < npages) :
    ¬ Reserved (pgnum iophysmem) (fin / pgsize) i ↔ Allocatable npages fin i := by
  have h7 : pgnum mpentryPaddr = 7 := by decide
  unfold Reserved Allocatable
  rw [h7, not_or]
  exact ⟨fun h => ⟨hi, hn, h⟩, fun h => h.2.2⟩

/-- The pages that `page_init` puts on the list. -/
theorem mem_freePages_iff {i : ℕ} :
    i ∈ freePages (pgnum iophysmem) (fin / pgsize) (npages - 1) ↔ Allocatable npages fin i := by
  rw [mem_freePages]
  constructor
  · intro h
    exact (reserved_iff h.1 (by omega)).mp h.2.2
  · intro h
    have hn := h.2.1
    exact ⟨h.1, by omega, (reserved_iff h.1 hn).mpr h⟩

theorem pairwise_freePages (first fin n : ℕ) : (freePages first fin n).Pairwise (· < ·) :=
  List.Pairwise.filter _ List.pairwise_lt_range'

/-- `page_init` strings all pages of the allocator together, in ascending order. -/
theorem pageInitFrom_list (hp : s.pages = fun _ => ⟨none, 0⟩) (fin : ℕ) :
    ∃ l, Partition s.npages fin ⟨pageInitFrom fin s, ∅⟩ l ∧ l.Pairwise (· < ·) ∧
      ∀ i, i ∈ l ↔ Allocatable s.npages fin i := by
  have h := pageInitLoop_inv { s with pageFreeList := none } (pgnum iophysmem) (fin / pgsize)
    (s.npages - 1) rfl hp
  refine ⟨_, ⟨h.chain, nodup_freePages _ _ _, fun _ _ => Finset.notMem_empty _, fun p => ?_,
    h.unlinked, h.npages⟩, pairwise_freePages _ _ _, fun i => mem_freePages_iff⟩
  rw [mem_freePages_iff]
  simp

/-- The address of a page stays below that of the end of memory, also where it wraps. -/
theorem pgnum_page2pa_le (p : ℕ) : pgnum (page2pa p) ≤ p := by
  rw [pgnum_eq, page2pa, BitVec.toNat_shiftLeft, BitVec.toNat_ofNat, Nat.shiftLeft_eq]
  omega

/-- `page_alloc` takes the head of the list. -/
theorem pageAllocFlags_some (flags : Word) (hf : s.pageFreeList = some p) (hp : p < s.npages) :
    ∃ w, pageAllocFlags flags s = .ret (some p)
      { ({ s with pageFreeList := (s.pages p).ppLink } : Pm).setLink p none with word := w } := by
  simp only [pageAllocFlags, Routine.gets_bind_run, hf, Routine.modify_bind_run, Routine.ite_run]
  split_ifs
  · have hk : page2kva p (({ s with pageFreeList := (s.pages p).ppLink } : Pm).setLink p none) =
        .ret (pgnum (page2pa p)) (({ s with pageFreeList := (s.pages p).ppLink } : Pm).setLink p none) :=
      if_pos (lt_of_le_of_lt (pgnum_page2pa_le p) hp)
    rw [Routine.bind_ret hk]
    exact ⟨_, rfl⟩
  · exact ⟨s.word, rfl⟩

theorem pageAllocFlags_none (hf : s.pageFreeList = none) :
    pageAllocFlags flags s = .ret none s := by
  simp only [pageAllocFlags, Routine.gets_bind_run, hf, Routine.pure_run]

/-- Taking the head of the list. -/
theorem Partition.take (h : Partition npages fin a (p :: l)) (w : ℕ → ℕ → Word) :
    Partition npages fin ⟨{ ({ a.pm with pageFreeList := (a.pm.pages p).ppLink } : Pm).setLink p none
      with word := w }, insert p a.held⟩ l := by
  obtain ⟨hp, hl⟩ := List.nodup_cons.mp h.nodup
  constructor
  · apply h.chain.2.congr
    intro q hq
    simp only [setLink_pages]
    rw [if_neg fun hqp : q = p => hp (hqp ▸ hq)]
  · exact hl
  · intro q hq hin
    rcases Finset.mem_insert.mp hin with rfl | hin
    · exact hp hq
    · exact h.disjoint q (List.mem_cons_of_mem p hq) hin
  · intro q
    rw [← h.all q, List.mem_cons, Finset.mem_insert]
    tauto
  · intro q hq
    simp only [setLink_pages]
    split_ifs with hqp
    · rfl
    · apply h.unlinked
      rw [List.mem_cons, not_or]
      exact ⟨hqp, hq⟩
  · exact h.npages_eq

theorem Partition.alloc_cases (h : Partition npages fin a l) (flags : Word) :
    (l = [] ∧ pageAllocFlags flags a.pm = .ret none a.pm) ∨
    ∃ p l' w, l = p :: l' ∧ pageAllocFlags flags a.pm = .ret (some p)
      { ({ a.pm with pageFreeList := (a.pm.pages p).ppLink } : Pm).setLink p none with word := w } := by
  cases l with
  | nil => exact Or.inl ⟨rfl, pageAllocFlags_none h.chain⟩
  | cons p l =>
    have hp : p < a.pm.npages := by
      rw [h.npages_eq]
      exact ((h.all p).mp (Or.inl List.mem_cons_self)).2.1
    obtain ⟨w, hw⟩ := pageAllocFlags_some flags h.chain.1 hp
    exact Or.inr ⟨p, l, w, rfl, hw⟩

/-- A page that is held is put back without a panic. -/
theorem Partition.pageFree_run (h : Partition npages fin a l) (hp : p ∈ a.held)
    (hz : (a.pm.pages p).ppRef = 0) : pageFree p a.pm =
      .ret () { a.pm.setLink p a.pm.pageFreeList with pageFreeList := some p } := by
  have hl : (a.pm.pages p).ppLink = none := h.unlinked p fun hpl => h.disjoint p hpl hp
  unfold pageFree
  rw [if_neg (not_not.mpr hz), if_neg (not_not.mpr hl)]

/-- It becomes the new head of the list. -/
theorem Partition.put (h : Partition npages fin a l) (hp : p ∈ a.held) :
    Partition npages fin ⟨{ a.pm.setLink p a.pm.pageFreeList with pageFreeList := some p },
      a.held.erase p⟩ (p :: l) := by
  have hpl : p ∉ l := fun hpl => h.disjoint p hpl hp
  constructor
  · refine ⟨rfl, ?_⟩
    simp only [setLink_pages, if_true]
    apply h.chain.congr
    intro q hq
    rw [if_neg fun hqp : q = p => hpl (hqp ▸ hq)]
  · exact List.nodup_cons.mpr ⟨hpl, h.nodup⟩
  · intro q hq hin
    obtain ⟨hqp, hin⟩ := Finset.mem_erase.mp hin
    exact h.disjoint q ((List.mem_cons.mp hq).resolve_left hqp) hin
  · intro q
    rw [← h.all q, List.mem_cons, Finset.mem_erase]
    by_cases hqp : q = p
    · subst hqp
      tauto
    · tauto
  · intro q hq
    obtain ⟨hqp, hql⟩ := not_or.mp (List.mem_cons.not.mp hq)
    simp only [setLink_pages, if_neg hqp]
    exact h.unlinked q hql
  · exact h.npages_eq

theorem Partition.use (h : Partition npages fin a l) (p : ℕ) (r : BitVec 16) (w : ℕ → ℕ → Word) :
    Partition npages fin ⟨{ a.pm.setRef p r with word := w }, a.held⟩ l := by
  have hlink (q : ℕ) : ((a.pm.setRef p r).pages q).ppLink = (a.pm.pages q).ppLink := by
    rw [setRef_pages]
    split_ifs with hq
    · rw [hq]
    · rfl
  exact ⟨h.chain.congr fun q _ => hlink q, h.nodup, h.disjoint, h.all,
    fun q hq => (hlink q).trans (h.unlinked q hq), h.npages_eq⟩

theorem Partition.step (h : Partition npages fin a l) (hs : AllocStep a a') :
    ∃ l', Partition npages fin a' l' := by
  cases hs with
  | @alloc flags p s' hr =>
    obtain ⟨-, hn⟩ | ⟨q, l', w, rfl, hq⟩ := h.alloc_cases flags
    · cases (Outcome.ret.inj (hn.symm.trans hr)).1
    · obtain ⟨he, rfl⟩ := Outcome.ret.inj (hq.symm.trans hr)
      obtain rfl := Option.some.inj he
      exact ⟨l', h.take w⟩
  | @allocFails flags s' hr =>
    obtain ⟨-, hn⟩ | ⟨q, l', w, rfl, hq⟩ := h.alloc_cases flags
    · obtain ⟨-, rfl⟩ := Outcome.ret.inj (hn.symm.trans hr)
      exact ⟨l, h⟩
    · cases (Outcome.ret.inj (hq.symm.trans hr)).1
  | @free p s' hp hz hr =>
    rw [h.pageFree_run hp hz] at hr
    obtain ⟨-, rfl⟩ := Outcome.ret.inj hr
    exact ⟨p :: l, h.put hp⟩
  | use r w hp => exact ⟨l, h.use _ r w⟩

theorem partition_of_reachable (h : Reachable (AllocStart npages fin) AllocStep a) :
    ∃ l, Partition npages fin a l := by
  apply h.invariant (I := fun a => ∃ l, Partition npages fin a l)
  · intro a ha
    obtain ⟨s, rfl, hp, rfl⟩ := ha
    obtain ⟨l, hl, -⟩ := pageInitFrom_list hp fin
    exact ⟨l, hl⟩
  · intro a a' ha hs
    obtain ⟨l, hl⟩ := ha
    exact hl.step hs

/-- `page_init` lists exactly the pages it should, in ascending order; and after any
sequence of calls the listed pages and the held ones are a partition of them. Both
functions return; `page_alloc` returns null only when all pages are held, and never a
page that is held or does not belong to the allocator. -/
theorem page_allocator (npages fin : ℕ) :
    (∀ s : Pm, s.npages = npages → (s.pages = fun _ => ⟨none, 0⟩) →
      ∃ l, Chain (fun p => ((pageInitFrom fin s).pages p).ppLink) (pageInitFrom fin s).pageFreeList l ∧
        l.Pairwise (· < ·) ∧ ∀ i, i ∈ l ↔ Allocatable npages fin i) ∧
    ∀ a, Reachable (AllocStart npages fin) AllocStep a →
      (∃ l, Chain (fun p => (a.pm.pages p).ppLink) a.pm.pageFreeList l ∧ l.Nodup ∧
        (∀ p ∈ l, p ∉ a.held) ∧ ∀ p, p ∈ l ∨ p ∈ a.held ↔ Allocatable npages fin p) ∧
      (∀ flags, ∃ r s', pageAllocFlags flags a.pm = .ret r s' ∧
        (r = none → ∀ p, Allocatable npages fin p → p ∈ a.held) ∧
        ∀ p, r = some p → Allocatable npages fin p ∧ p ∉ a.held) ∧
      ∀ p ∈ a.held, (a.pm.pages p).ppRef = 0 → ∃ s', pageFree p a.pm = .ret () s' := by
  refine ⟨fun s hn hp => ?_, fun a ha => ?_⟩
  · subst hn
    obtain ⟨l, hl, hlt, hmem⟩ := pageInitFrom_list hp fin
    exact ⟨l, hl.chain, hlt, hmem⟩
  obtain ⟨l, hl⟩ := partition_of_reachable ha
  refine ⟨⟨l, hl.chain, hl.nodup, hl.disjoint, hl.all⟩, fun flags => ?_, fun p hp hz => ?_⟩
  · obtain ⟨rfl, hn⟩ | ⟨p, l', w, rfl, hp⟩ := hl.alloc_cases flags
    · refine ⟨none, _, hn, fun _ p hp => ?_, fun p hp => by cases hp⟩
      exact ((hl.all p).mpr hp).resolve_left List.not_mem_nil
    · refine ⟨some p, _, hp, fun h => (by cases h), fun q hq => ?_⟩
      obtain rfl := Option.some.inj hq
      exact ⟨(hl.all p).mp (Or.inl List.mem_cons_self), hl.disjoint p List.mem_cons_self⟩
  · exact ⟨_, hl.pageFree_run hp hz⟩

/-- A machine of ten pages: page 1 is handed out first. -/
theorem page_allocator_ten : ∃ s s' : Pm, pageAllocFlags 0#32 (pageInitFrom 0x100000 s) =
    .ret (some 1) s' ∧ Reachable (AllocStart 10 0x100000) AllocStep ⟨s', {1}⟩ ∧
      ∃ l, Chain (fun p => (s'.pages p).ppLink) s'.pageFreeList l ∧ l.Nodup ∧
        (∀ p ∈ l, p ∉ ({1} : Finset ℕ)) ∧
        ∀ p, p ∈ l ∨ p ∈ ({1} : Finset ℕ) ↔ Allocatable 10 0x100000 p := by
  obtain ⟨s, hs⟩ : ∃ s : Pm, s = ⟨10, fun _ => ⟨none, 0⟩, none, 0, fun _ _ => 0#32⟩ := ⟨_, rfl⟩
  have hrun : pageAllocFlags 0#32 (pageInitFrom 0x100000 s) = .ret (some 1)
      (({ pageInitFrom 0x100000 s with pageFreeList :=
        ((pageInitFrom 0x100000 s).pages 1).ppLink } : Pm).setLink 1 none) := by
    subst hs
    rfl
  have h0 : AllocStart 10 0x100000 ⟨pageInitFrom 0x100000 s, ∅⟩ := ⟨s, by rw [hs], by rw [hs], rfl⟩
  have hr := (Reachable.init h0).step (AllocStep.alloc hrun)
  exact ⟨s, _, hrun, hr, ((page_allocator 10 0x100000).2 _ hr).1⟩

end Allocator
end Sisop
