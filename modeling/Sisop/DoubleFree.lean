import Sisop.PageAllocator
import Sisop.Trace

/-! What `page_free` does with a page that is on the free list already. It looks at the
link of the page, and the last page of the list has none. -/
namespace Sisop

/-- A call of the page allocator, or what the kernel does to a page in between. -/
inductive AllocCall where
  | alloc (allocFlags : Word)
  | free (p : ℕ)
  | use (p : ℕ) (r : BitVec 16) (w : ℕ → ℕ → Word)

/-- Calls that return. `page_free` may be called for any page; the kernel counts the
references to pages that are not free. -/
inductive AllocRuns : Pm → AllocCall → Pm → Prop where
  | alloc {s s' : Pm} {allocFlags : Word} {r : Option ℕ} (hr : pageAllocFlags allocFlags s = .ret r s') :
    AllocRuns s (.alloc allocFlags) s'
  | free {s s' : Pm} {p : ℕ} (hp : p < s.npages) (hr : pageFree p s = .ret () s') : AllocRuns s (.free p) s'
  | use {s : Pm} {p : ℕ} (r : BitVec 16) (w : ℕ → ℕ → Word) (hp : ¬ s.IsFree p) :
    AllocRuns s (.use p r w) { s.setRef p r with word := w }

/-- The page is the last one of the free list. -/
def Pm.LastFree (s : Pm) (p : ℕ) : Prop := s.IsFree p ∧ (s.pages p).ppLink = none

/-- Calls of which none is `page_free` of the last page of the free list. -/
def CarefulRuns (s : Pm) (call : AllocCall) (s' : Pm) : Prop :=
  AllocRuns s call s' ∧ ∀ p, call = .free p → ¬ s.LastFree p

/-- After `page_init` on a zeroed `pages` array. -/
def AfterInit (fin : ℕ) (s : Pm) : Prop := ∃ s₀ : Pm, (s₀.pages = fun _ => ⟨none, 0⟩) ∧ s = pageInitFrom fin s₀

/-- The free list is `l`, without a circle, and its pages have no references. -/
structure Listed (s : Pm) (l : List ℕ) : Prop where
  chain : Chain (fun p => (s.pages p).ppLink) s.pageFreeList l
  nodup : l.Nodup
  zero : ∀ p ∈ l, (s.pages p).ppRef = 0
  bound : ∀ p ∈ l, p < s.npages
  unlinked : ∀ p, p ∉ l → (s.pages p).ppLink = none

section DoubleFree

variable {s s' : Pm} {l : List ℕ} {p fin : ℕ} {call : AllocCall} {calls : List AllocCall}

theorem Listed.isFree_iff (h : Listed s l) (p : ℕ) : s.IsFree p ↔ p ∈ l := h.chain.onChain_iff p

theorem Listed.lastFree_iff (h : Listed s l) (hp : p ∈ l) : s.LastFree p ↔ l.getLast? = some p := by
  unfold Pm.LastFree
  rw [h.isFree_iff, ← h.chain.next_eq_none_iff h.nodup hp]
  exact and_iff_right hp

/-- A free page is caught unless it is the last one. -/
theorem Listed.pageFree_halt_iff (h : Listed s l) (hp : p ∈ l) : pageFree p s = .halt ↔ l.getLast? ≠ some p := by
  have hlink := h.chain.next_eq_none_iff h.nodup hp
  unfold pageFree
  rw [if_neg (not_not_intro (h.zero p hp))]
  split_ifs with hn
  · exact ⟨fun _ hlast => hn (hlink.mpr hlast), fun _ => rfl⟩
  · exact ⟨fun hr => (by cases hr), fun hlast => absurd (hlink.mp (not_not.mp hn)) hlast⟩

theorem npages_pageInitFrom {s₀ : Pm} (hzero : s₀.pages = fun _ => ⟨none, 0⟩) (fin : ℕ) :
    (pageInitFrom fin s₀).npages = s₀.npages :=
  (pageInitLoop_inv { s₀ with pageFreeList := none } (pgnum iophysmem) (fin / pgsize) (s₀.npages - 1) rfl hzero).npages

theorem listed_pageInitFrom {s₀ : Pm} (hzero : s₀.pages = fun _ => ⟨none, 0⟩) (fin : ℕ) :
    Listed (pageInitFrom fin s₀) (freePages (pgnum iophysmem) (fin / pgsize) (s₀.npages - 1)) := by
  have hi := pageInitLoop_inv { s₀ with pageFreeList := none } (pgnum iophysmem) (fin / pgsize)
    (s₀.npages - 1) rfl hzero
  refine ⟨hi.chain, nodup_freePages _ _ _, fun p _ => hi.ref p, fun p hp => ?_, hi.unlinked⟩
  rw [npages_pageInitFrom hzero fin]
  exact (mem_freePages_iff.mp hp).2.1

theorem Listed.of_init (h : AfterInit fin s) : ∃ l, Listed s l := by
  obtain ⟨s₀, hzero, rfl⟩ := h
  exact ⟨_, listed_pageInitFrom hzero fin⟩

/-- `page_alloc` takes the head of the list. -/
theorem Listed.take (h : Listed s (p :: l)) (w : ℕ → ℕ → Word) :
    Listed { ({ s with pageFreeList := (s.pages p).ppLink } : Pm).setLink p none with word := w } l := by
  obtain ⟨hp, hl⟩ := List.nodup_cons.mp h.nodup
  have hoff (q : ℕ) (hq : q ∈ l) : q ≠ p := fun hqp => hp (hqp ▸ hq)
  refine ⟨?_, hl, fun q hq => ?_, fun q hq => h.bound q (List.mem_cons_of_mem p hq), fun q hq => ?_⟩
  · apply h.chain.2.congr
    intro q hq
    simp only [setLink_pages]
    rw [if_neg (hoff q hq)]
  · simp only [setLink_pages]
    rw [if_neg (hoff q hq)]
    exact h.zero q (List.mem_cons_of_mem p hq)
  · simp only [setLink_pages]
    split_ifs with hqp
    · rfl
    · apply h.unlinked
      rw [List.mem_cons, not_or]
      exact ⟨hqp, hq⟩

/-- `page_free` of a page that is not on the list puts it at the head. -/
theorem Listed.put (h : Listed s l) (hp : p ∉ l) (hz : (s.pages p).ppRef = 0) (hb : p < s.npages) :
    Listed { s.setLink p s.pageFreeList with pageFreeList := some p } (p :: l) := by
  have hoff (q : ℕ) (hq : q ∈ l) : q ≠ p := fun hqp => hp (hqp ▸ hq)
  refine ⟨⟨rfl, ?_⟩, List.nodup_cons.mpr ⟨hp, h.nodup⟩, fun q hq => ?_, fun q hq => ?_, fun q hq => ?_⟩
  · simp only [setLink_pages, if_true]
    apply h.chain.congr
    intro q hq
    rw [if_neg (hoff q hq)]
  · simp only [setLink_pages]
    split_ifs with hqp
    · exact hz
    · exact h.zero q ((List.mem_cons.mp hq).resolve_left hqp)
  · rcases List.mem_cons.mp hq with rfl | hq
    · exact hb
    · exact h.bound q hq
  · obtain ⟨hqp, hql⟩ := not_or.mp (List.mem_cons.not.mp hq)
    simp only [setLink_pages]
    rw [if_neg hqp]
    exact h.unlinked q hql

theorem Listed.use (h : Listed s l) (hp : p ∉ l) (r : BitVec 16) (w : ℕ → ℕ → Word) :
    Listed { s.setRef p r with word := w } l := by
  have hlink (q : ℕ) : ((s.setRef p r).pages q).ppLink = (s.pages q).ppLink := by
    rw [setRef_pages]
    split_ifs with hq
    · rw [hq]
    · rfl
  refine ⟨h.chain.congr fun q _ => hlink q, h.nodup, fun q hq => ?_, h.bound,
    fun q hq => (hlink q).trans (h.unlinked q hq)⟩
  have hqp : q ≠ p := fun hqp => hp (hqp ▸ hq)
  change ((s.setRef p r).pages q).ppRef = 0
  rw [setRef_pages, if_neg hqp]
  exact h.zero q hq

theorem Listed.step (h : Listed s l) (hs : CarefulRuns s call s') : ∃ l', Listed s' l' := by
  obtain ⟨hrun, hcare⟩ := hs
  cases hrun with
  | @alloc _ flags r hr =>
    cases l with
    | nil =>
      rw [pageAllocFlags_none h.chain] at hr
      obtain ⟨-, rfl⟩ := Outcome.ret.inj hr
      exact ⟨[], h⟩
    | cons p l =>
      obtain ⟨w, hw⟩ := pageAllocFlags_some flags h.chain.1 (h.bound p List.mem_cons_self)
      rw [hw] at hr
      obtain ⟨-, rfl⟩ := Outcome.ret.inj hr
      exact ⟨l, h.take w⟩
  | @free _ p hp hr =>
    have hpl : p ∉ l := by
      intro hpl
      -- a page of the list is caught
      have hlast : l.getLast? ≠ some p := fun hlast => hcare p rfl ((h.lastFree_iff hpl).mpr hlast)
      rw [(h.pageFree_halt_iff hpl).mpr hlast] at hr
      cases hr
    by_cases hz : (s.pages p).ppRef = 0
    · rw [show pageFree p s = .ret () { s.setLink p s.pageFreeList with pageFreeList := some p } by
        unfold pageFree
        rw [if_neg (not_not_intro hz), if_neg (not_not_intro (h.unlinked p hpl))]] at hr
      obtain ⟨-, rfl⟩ := Outcome.ret.inj hr
      exact ⟨p :: l, h.put hpl hz hp⟩
    · unfold pageFree at hr
      rw [if_pos hz] at hr
      cases hr
  | @use p r w hp => exact ⟨l, h.use (fun hpl => hp ((h.isFree_iff p).mpr hpl)) r w⟩

/-- As long as `page_free` is not called for the last page of the free list, the list has
no circle, and a page on it is caught if and only if it is not the last one. -/
theorem double_free_caught {s₀ : Pm} (h0 : AfterInit fin s₀) (h : Run CarefulRuns s₀ calls s) :
    ∃ l, Chain (fun p => (s.pages p).ppLink) s.pageFreeList l ∧ l.Nodup ∧
      ∀ p ∈ l, pageFree p s = .halt ↔ l.getLast? ≠ some p := by
  have hlisted : ∃ l, Listed s l := by
    apply h.invariant (I := fun _ s => ∃ l, Listed s l) (Listed.of_init h0)
    intro _ _ _ _ ht hs
    obtain ⟨l, hl⟩ := ht
    exact hl.step hs
  obtain ⟨l, hl⟩ := hlisted
  exact ⟨l, hl.chain, hl.nodup, fun p hp => hl.pageFree_halt_iff hp⟩

end DoubleFree

/-- A zeroed `pages` array. -/
def zeroedPages (npages : ℕ) : Pm := ⟨npages, fun _ => ⟨none, 0⟩, none, 0, fun _ _ => 0#32⟩

/-- The free list on a machine with 64 MB, of which `boot_alloc` has handed out what lies below `0x1C0000`. -/
theorem listed_big : ∃ l, Listed (pageInitFrom 0x1C0000 (zeroedPages 16384)) (1 :: l ++ [16383]) := by
  have hlist := @listed_pageInitFrom (zeroedPages 16384) rfl 0x1C0000
  have hlast : freePages (pgnum iophysmem) (0x1C0000 / pgsize) 16383 =
      freePages (pgnum iophysmem) (0x1C0000 / pgsize) 16382 ++ [16383] := by
    rw [freePages_succ, if_neg (by decide)]
  have hfirst : freePages (pgnum iophysmem) (0x1C0000 / pgsize) 16382 =
      1 :: (List.range' 2 16381).filter fun i => ¬ Reserved (pgnum iophysmem) (0x1C0000 / pgsize) i := by
    rw [freePages, List.range'_succ, List.filter_cons, if_pos (by decide)]
  change Listed _ (freePages (pgnum iophysmem) (0x1C0000 / pgsize) 16383) at hlist
  rw [hlast, hfirst] at hlist
  exact ⟨_, hlist⟩

/-- The last free page is freed again: it is linked to the head, and the list is a circle. -/
theorem double_free_missed : ∃ s s', AfterInit 0x1C0000 s ∧ s.npages = 16384 ∧ s.IsFree 16383 ∧ pageFree 16383 s = .ret () s' ∧
    ∀ l, ¬ Chain (fun p => (s'.pages p).ppLink) s'.pageFreeList l := by
  obtain ⟨s, hs⟩ : ∃ s, s = pageInitFrom 0x1C0000 (zeroedPages 16384) := ⟨_, rfl⟩
  obtain ⟨l, hl⟩ := listed_big
  rw [← hs] at hl
  have hmem : 16383 ∈ 1 :: l ++ [16383] := List.mem_append_right _ List.mem_cons_self
  have hlink : (s.pages 16383).ppLink = none :=
    ((hl.lastFree_iff hmem).mpr List.getLast?_concat).2
  have hfree : pageFree 16383 s = .ret () { s.setLink 16383 s.pageFreeList with pageFreeList := some 16383 } := by
    unfold pageFree
    rw [if_neg (not_not_intro (hl.zero _ hmem)), if_neg (not_not_intro hlink)]
  have hnp : s.npages = 16384 := by
    rw [hs]
    exact @npages_pageInitFrom (zeroedPages 16384) rfl 0x1C0000
  refine ⟨s, _, ⟨zeroedPages 16384, rfl, hs⟩, hnp, (hl.isFree_iff _).mpr hmem, hfree, Chain.not_of_circle ?_⟩
  simp only [setLink_pages, if_true]
  apply hl.chain.onChain_last
  intro p hp
  have hne : p ≠ 16383 := fun heq => (List.nodup_append.mp hl.nodup).2.2 p hp 16383 (List.mem_singleton_self _) heq
  rw [if_neg hne]

/-- The first page is handed out and freed. It is caught when it is freed again. -/
theorem double_free_caught_first : ∃ s₀ s l, AfterInit 0x1C0000 s₀ ∧ s₀.npages = 16384 ∧
    Run CarefulRuns s₀ [.alloc 0#32, .free 1] s ∧ Chain (fun p => (s.pages p).ppLink) s.pageFreeList l ∧ 1 ∈ l ∧
      (pageFree 1 s = .halt ↔ l.getLast? ≠ some 1) := by
  obtain ⟨s₀, hs⟩ : ∃ s, s = pageInitFrom 0x1C0000 (zeroedPages 16384) := ⟨_, rfl⟩
  have h0 : AfterInit 0x1C0000 s₀ := ⟨zeroedPages 16384, rfl, hs⟩
  have hnp : s₀.npages = 16384 := by
    rw [hs]
    exact @npages_pageInitFrom (zeroedPages 16384) rfl 0x1C0000
  obtain ⟨l, hl⟩ := listed_big
  rw [← hs] at hl
  have hhead : s₀.pageFreeList = some 1 := hl.chain.1
  obtain ⟨s₁, hs₁⟩ : ∃ s₁, s₁ = ({ s₀ with pageFreeList := (s₀.pages 1).ppLink } : Pm).setLink 1 none := ⟨_, rfl⟩
  have halloc : pageAllocFlags 0#32 s₀ = .ret (some 1) s₁ := by
    simp only [pageAllocFlags, Routine.gets_bind_run, hhead, Routine.modify_bind_run]
    rw [hs₁, if_neg (by decide)]
    rfl
  have hl₁ : Listed s₁ (l ++ [16383]) := hs₁ ▸ hl.take s₀.word
  have hout : 1 ∉ l ++ [16383] := (List.nodup_cons.mp hl.nodup).1
  have hzero : (s₁.pages 1).ppRef = 0 := by
    rw [hs₁]
    simp only [setLink_pages, if_true]
    exact hl.zero 1 List.mem_cons_self
  have hbound : 1 < s₁.npages := by
    rw [hs₁]
    exact hl.bound 1 List.mem_cons_self
  have hfree : pageFree 1 s₁ = .ret () { s₁.setLink 1 s₁.pageFreeList with pageFreeList := some 1 } := by
    unfold pageFree
    rw [if_neg (not_not_intro hzero), if_neg (not_not_intro (hl₁.unlinked 1 hout))]
  have hrun : Run CarefulRuns s₀ [.alloc 0#32, .free 1] { s₁.setLink 1 s₁.pageFreeList with pageFreeList := some 1 } := by
    have hone : Run CarefulRuns s₀ [.alloc 0#32] s₁ := .single ⟨.alloc halloc, fun _ heq => by cases heq⟩
    refine hone.snoc ⟨.free hbound hfree, ?_⟩
    rintro _ ⟨⟩ ⟨hf, -⟩
    exact hout ((hl₁.isFree_iff 1).mp hf)
  obtain ⟨l', hl', -, hcaught⟩ := double_free_caught h0 hrun
  have hmem : 1 ∈ l' := (hl'.onChain_iff 1).mp (OnChain.here 1)
  exact ⟨s₀, _, l', h0, hnp, hrun, hl', hmem, hcaught 1 hmem⟩

end Sisop
