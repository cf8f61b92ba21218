import Sisop.Chain
import Sisop.PageSlots

/-! The invariant of the page allocator and the page tables: the free list is a
duplicate-free chain of unreferenced pages, and every counter is the number of
slots that refer to its page. Each operation of `kern/pmap.c` is shown to keep it. -/
namespace Sisop

/-- The page is on `page_free_list`. -/
def Pm.IsFree (s : Pm) (p : ℕ) : Prop := OnChain (fun q => (s.pages q).ppLink) s.pageFreeList p

structure FreeList (s : Pm) (l : List ℕ) : Prop where
  chain : Chain (fun p => (s.pages p).ppLink) s.pageFreeList l
  nodup : l.Nodup
  zero : ∀ p ∈ l, (s.pages p).ppRef = 0
  bound : ∀ p ∈ l, p < s.npages
  unlinked : ∀ p, p ∉ l → (s.pages p).ppLink = none
  kern : s.kernPgdir ∉ l

/-- The counters of the pages, as numbers. -/
def Pm.refCount (s : Pm) (p : ℕ) : ℕ := (s.pages p).ppRef.toNat

/-- Above `UTOP` the directory `g` is a copy of `kern_pgdir`, but maps itself at `UVPT`. -/
structure UpperHalf (s : Pm) (g : ℕ) : Prop where
  shared : ∀ d, userPdes ≤ d → d ≠ uvptPde → s.word g d = s.word s.kernPgdir d
  self : s.word g uvptPde = page2pa g ||| pteP ||| pteU

theorem UpperHalf.congr {s s' : Pm} {g : ℕ} (h : UpperHalf s g) (hk : s'.kernPgdir = s.kernPgdir)
    (hg : s'.word g = s.word g) (hw : s'.word s.kernPgdir = s.word s.kernPgdir) :
    UpperHalf s' g := by
  refine ⟨fun d hd hdu => ?_, ?_⟩
  · rw [hk, hg, hw]
    exact h.shared d hd hdu
  · rw [hg]
    exact h.self

/-- The invariant, with the page directories of the live environments and the
references that the running routine holds in its own variables. -/
structure MemInv (s : Pm) (D : EnvIdx → Option ℕ) (held : Multiset ℕ) : Prop where
  npages_le : s.npages ≤ 2^20
  free : ∃ l, FreeList s l
  tally : Tally (slotMap s D) Slot.isTable s.refCount held
  bound : ∀ i p, slotMap s D i = some p → p < s.npages
  kern : ∀ i, slotMap s D i ≠ some s.kernPgdir
  heldOk : ∀ p ∈ held, p < s.npages ∧ p ≠ s.kernPgdir
  pdeZero : ∀ e g (d : PdeIdx), D e = some g → target (s.word g d) = none → s.word g d = 0#32
  pteZero : ∀ e d p (t : PteIdx), slotMap s D (.pde e d) = some p →
    target (s.word p t) = none → s.word p t = 0#32
  template : ∀ d : PdeIdx, s.word s.kernPgdir d = 0#32
  upper : ∀ e g, D e = some g → UpperHalf s g

/-- A page that `page_alloc` has just handed out. -/
structure Fresh (s : Pm) (p : ℕ) : Prop where
  notFree : ¬ s.IsFree p
  zero : (s.pages p).ppRef = 0
  bound : p < s.npages
  kern : p ≠ s.kernPgdir
  blank : ∀ i, s.word p i = 0#32

theorem FreeList.isFree_iff {s : Pm} {l : List ℕ} (h : FreeList s l) (p : ℕ) :
    s.IsFree p ↔ p ∈ l := h.chain.onChain_iff p

section Invariant

variable {s s' : Pm} {D : EnvIdx → Option ℕ} {held : Multiset ℕ}

theorem MemInv.apart (h : MemInv s D held) : Apart s D :=
  ⟨fun _ _ _ hi hp hq => (h.tally.slot_unique hi hp hq).symm, h.kern⟩

theorem MemInv.refs_eq_zero (h : MemInv s D held) {p : ℕ} (hp : (s.pages p).ppRef = 0) (i : Slot) :
    slotMap s D i ≠ some p := by
  intro hi
  have hpos := h.tally.ref_pos hi
  rw [Pm.refCount, hp] at hpos
  exact absurd hpos (by decide)

theorem MemInv.not_tablePage (h : MemInv s D held) {p : ℕ} (hp : (s.pages p).ppRef = 0)
    (hk : p ≠ s.kernPgdir) : ¬ TablePage s D p := by
  rintro (rfl | ⟨i, _, hi⟩)
  · exact hk rfl
  · exact h.refs_eq_zero hp i hi

/-- A referenced page is not on the free list. -/
theorem MemInv.not_isFree_of_slot (h : MemInv s D held) {i : Slot} {p : ℕ}
    (hi : slotMap s D i = some p) : ¬ s.IsFree p := by
  intro hf
  obtain ⟨l, hl⟩ := h.free
  exact h.refs_eq_zero (hl.zero p ((hl.isFree_iff p).mp hf)) i hi

/-- The contents of pages that are neither tables nor directories do not matter. -/
theorem MemInv.congr_word (h : MemInv s D held) (w : ℕ → ℕ → Word)
    (hw : ∀ p, TablePage s D p → w p = s.word p) : MemInv { s with word := w } D held := by
  have hm : slotMap { s with word := w } D = slotMap s D := slotMap_congr rfl hw
  refine ⟨h.npages_le, h.free.imp fun l hl => ⟨hl.1, hl.2, hl.3, hl.4, hl.5, hl.6⟩, ?_, ?_, ?_,
    h.heldOk, ?_, ?_, ?_, ?_⟩
  · rw [hm]
    exact h.tally
  · rw [hm]
    exact h.bound
  · rw [hm]
    exact h.kern
  · intro e g d hg
    rw [show ({ s with word := w } : Pm).word g = s.word g from hw g (tablePage_dir hg)]
    exact h.pdeZero e g d hg
  · intro e d p t hp
    rw [hm] at hp
    rw [show ({ s with word := w } : Pm).word p = s.word p from hw p (tablePage_pde hp)]
    exact h.pteZero e d p t hp
  · intro d
    change w s.kernPgdir d = 0#32
    rw [hw _ (Or.inl rfl)]
    exact h.template d
  · intro e g hg
    exact (h.upper e g hg).congr rfl (hw g (tablePage_dir hg)) (hw _ (Or.inl rfl))

/-- The state after `page_alloc` has taken `p` off the head of the free list. -/
def Pm.taken (s : Pm) (p : ℕ) : Pm :=
  (({ s with pageFreeList := (s.pages p).ppLink } : Pm).setLink p none).clear p

theorem pageAlloc_none (h : s.pageFreeList = none) : pageAlloc s = .ret none s := by
  simp only [pageAlloc, Routine.gets_bind_run, h, Routine.pure_run]

theorem pageAlloc_some {p : ℕ} (h : s.pageFreeList = some p) (hp : p < s.npages)
    (hn : s.npages ≤ 2^20) : pageAlloc s = .ret (some p) (s.taken p) := by
  simp only [pageAlloc, Routine.gets_bind_run, h, Routine.modify_bind_run]
  have hk : page2kva p (({ s with pageFreeList := (s.pages p).ppLink } : Pm).setLink p none) =
      .ret p (({ s with pageFreeList := (s.pages p).ppLink } : Pm).setLink p none) := by
    simp only [page2kva, kaddr, pgnum_page2pa p (by omega)]
    exact if_pos hp
  rw [Routine.bind_ret hk]
  rfl

theorem setLink_pages (s : Pm) (p q : ℕ) (l : Option ℕ) :
    (s.setLink p l).pages q = if q = p then { s.pages p with ppLink := l } else s.pages q := by
  simp only [Pm.setLink, Function.update_apply]

theorem setRef_pages (s : Pm) (p q : ℕ) (r : BitVec 16) :
    (s.setRef p r).pages q = if q = p then { s.pages p with ppRef := r } else s.pages q := by
  simp only [Pm.setRef, Function.update_apply]

/-- The free list after its head is taken. -/
theorem FreeList.tail {p : ℕ} {l : List ℕ} (h : FreeList s (p :: l)) : FreeList (s.taken p) l := by
  obtain ⟨hp, hl⟩ := List.nodup_cons.mp h.nodup
  have hpages (q : ℕ) : (s.taken p).pages q =
      if q = p then { s.pages p with ppLink := none } else s.pages q := by
    simp only [Pm.taken, Pm.clear, setLink_pages]
  have hoff (q : ℕ) (hq : q ∈ l) : (s.taken p).pages q = s.pages q := by
    have hqp : q ≠ p := fun hqp => hp (hqp ▸ hq)
    rw [hpages, if_neg hqp]
  refine ⟨?_, hl, ?_, fun q hq => h.bound q (List.mem_cons_of_mem p hq), ?_,
    fun hk => h.kern (List.mem_cons_of_mem p hk)⟩
  · exact h.chain.2.congr fun q hq => by rw [hoff q hq]
  · intro q hq
    rw [hoff q hq]
    exact h.zero q (List.mem_cons_of_mem p hq)
  · intro q hq
    rw [hpages]
    split_ifs with hqp
    · rfl
    · exact h.unlinked q (by simp [hqp, hq])

/-- What `page_alloc` does: nothing when the list is empty, else it hands out a
fresh page and keeps the invariant. -/
theorem MemInv.pageAlloc_cases (h : MemInv s D held) :
    (s.pageFreeList = none ∧ pageAlloc s = .ret none s) ∨
    ∃ p, s.pageFreeList = some p ∧ pageAlloc s = .ret (some p) (s.taken p) ∧
      MemInv (s.taken p) D held ∧
      Fresh (s.taken p) p ∧ slotMap (s.taken p) D = slotMap s D := by
  obtain ⟨l, hl⟩ := h.free
  cases l with
  | nil =>
    have hn : s.pageFreeList = none := hl.chain
    exact Or.inl ⟨hn, pageAlloc_none hn⟩
  | cons p l =>
    have hp := hl.bound p List.mem_cons_self
    have hz := hl.zero p List.mem_cons_self
    have hk : p ≠ s.kernPgdir := fun hk => hl.kern (hk ▸ List.mem_cons_self)
    have ht := hl.tail
    have hm : slotMap (s.taken p) D = slotMap s D := by
      apply slotMap_congr (show (s.taken p).kernPgdir = s.kernPgdir from rfl)
      intro q hq
      have hqp : q ≠ p := fun hqp => h.not_tablePage hz hk (hqp ▸ hq)
      simp only [Pm.taken, Pm.clear, Pm.setLink, Function.update_of_ne hqp]
    have href : (s.taken p).refCount = s.refCount := by
      funext q
      simp only [Pm.refCount, Pm.taken, Pm.clear, setLink_pages]
      split_ifs with hq
      · rw [hq]
      · rfl
    refine Or.inr ⟨p, hl.chain.1, pageAlloc_some hl.chain.1 hp h.npages_le, ?_, ?_, hm⟩
    · have hc := h.congr_word (Function.update s.word p fun _ => 0#32) fun q hq => by
        have hqp : q ≠ p := fun hqp => h.not_tablePage hz hk (hqp ▸ hq)
        exact Function.update_of_ne hqp _ _
      refine ⟨hc.npages_le, ⟨l, ht⟩, ?_, hc.bound, hc.kern, hc.heldOk, hc.pdeZero, hc.pteZero,
        hc.template,
        fun e g hg => (hc.upper e g hg).congr rfl rfl rfl⟩
      rw [href]
      exact hc.tally
    · refine ⟨?_, ?_, hp, hk, ?_⟩
      · rw [ht.isFree_iff]
        exact (List.nodup_cons.mp hl.nodup).1
      · simp only [Pm.taken, Pm.clear, setLink_pages, if_true]
        exact hz
      · intro i
        simp only [Pm.taken, Pm.clear, Function.update_self]

/-- A page that may be mapped for a user: allocated, and no table. -/
structure UserPage (s : Pm) (D : EnvIdx → Option ℕ) (p : ℕ) : Prop where
  bound : p < s.npages
  kern : p ≠ s.kernPgdir
  notFree : ¬ s.IsFree p
  notTable : ∀ i : Slot, i.isTable → slotMap s D i ≠ some p

theorem MemInv.userPage_of_pte (h : MemInv s D held) {e : EnvIdx} {d : PdeIdx} {t : PteIdx} {p : ℕ}
    (hp : slotMap s D (.pte e d t) = some p) : UserPage s D p :=
  ⟨h.bound _ p hp, fun hk => h.kern _ (hk ▸ hp), h.not_isFree_of_slot hp,
    fun _ hi hq => by cases h.tally.slot_unique hi hq hp; exact hi⟩

theorem MemInv.userPage_of_fresh (h : MemInv s D held) {p : ℕ} (hp : Fresh s p) : UserPage s D p :=
  ⟨hp.bound, hp.kern, hp.notFree, fun i _ => h.refs_eq_zero hp.zero i⟩

theorem setRef_refCount (s : Pm) (p : ℕ) (r : BitVec 16) :
    (s.setRef p r).refCount = Function.update s.refCount p r.toNat := by
  funext q
  simp only [Pm.refCount, setRef_pages, Function.update_apply]
  split_ifs <;> rfl

/-- A counter off the free list may change. -/
theorem FreeList.setRef {l : List ℕ} (h : FreeList s l) {p : ℕ} (hp : p ∉ l) (r : BitVec 16) :
    FreeList (s.setRef p r) l := by
  have hlink (q : ℕ) : ((s.setRef p r).pages q).ppLink = (s.pages q).ppLink := by
    rw [setRef_pages]
    split_ifs with hq
    · rw [hq]
    · rfl
  refine ⟨h.chain.congr fun q _ => hlink q, h.nodup, fun q hq => ?_, h.bound,
    fun q hq => (hlink q).trans (h.unlinked q hq), h.kern⟩
  have hqp : q ≠ p := fun hqp => hp (hqp ▸ hq)
  rw [setRef_pages, if_neg hqp]
  exact h.zero q hq

/-- Taking a reference to a page in hand, unless its counter would wrap. -/
theorem MemInv.incRef (h : MemInv s D held) {p : ℕ} (hp : UserPage s D p)
    (hw : (s.pages p).ppRef ≠ 65535#16) : MemInv (s.incRef p) D (p ::ₘ held) := by
  obtain ⟨l, hl⟩ := h.free
  have hpl : p ∉ l := fun hpl => hp.notFree ((hl.isFree_iff p).mpr hpl)
  have hr : ((s.pages p).ppRef + 1).toNat = s.refCount p + 1 := by
    have hlt := (s.pages p).ppRef.isLt
    have hne : (s.pages p).ppRef.toNat ≠ 65535 := fun he => hw (BitVec.eq_of_toNat_eq he)
    have h1 : (1 : BitVec 16).toNat = 1 := rfl
    rw [BitVec.toNat_add, Pm.refCount, h1]
    omega
  refine ⟨h.npages_le, ⟨l, hl.setRef hpl _⟩, ?_, h.bound, h.kern, ?_, h.pdeZero, h.pteZero,
    h.template, fun e g hg => (h.upper e g hg).congr rfl rfl rfl⟩
  · rw [Pm.incRef, setRef_refCount, hr]
    exact h.tally.hold hp.notTable
  · intro q hq
    rcases Multiset.mem_cons.mp hq with rfl | hq
    · exact ⟨hp.bound, hp.kern⟩
    · exact h.heldOk q hq

/-- The state `page_decref(p)` ends in when it does not panic. -/
def Pm.decRef (s : Pm) (p : ℕ) : Pm :=
  let s' := s.setRef p ((s.pages p).ppRef - 1)
  if (s.pages p).ppRef - 1 = 0 then { s'.setLink p s'.pageFreeList with pageFreeList := some p }
  else s'

theorem pageDecref_ret {p : ℕ} (hr : pageDecref p s = .ret () s') : s' = s.decRef p := by
  simp only [pageDecref, Routine.modify_bind_run, Routine.gets_bind_run, setRef_pages, if_true,
    Routine.ite_run, pageFree, Routine.pure_run] at hr
  simp only [Pm.decRef]
  split_ifs at hr ⊢ with h0 hl
  · simp only [Outcome.ret.injEq, true_and] at hr
    exact hr.symm
  · simp only [Outcome.ret.injEq, true_and] at hr
    exact hr.symm

theorem decRef_word (s : Pm) (p : ℕ) : (s.decRef p).word = s.word := by
  simp only [Pm.decRef]
  split_ifs <;> rfl

theorem decRef_kernPgdir (s : Pm) (p : ℕ) : (s.decRef p).kernPgdir = s.kernPgdir := by
  simp only [Pm.decRef]
  split_ifs <;> rfl

theorem decRef_npages (s : Pm) (p : ℕ) : (s.decRef p).npages = s.npages := by
  simp only [Pm.decRef]
  split_ifs <;> rfl

theorem slotMap_decRef (s : Pm) (p : ℕ) : slotMap (s.decRef p) D = slotMap s D :=
  slotMap_congr (decRef_kernPgdir s p) fun q _ => congrFun (decRef_word s p) q

theorem decRef_refCount (s : Pm) (p : ℕ) :
    (s.decRef p).refCount = Function.update s.refCount p ((s.pages p).ppRef - 1).toNat := by
  rw [← setRef_refCount]
  simp only [Pm.decRef]
  split_ifs
  · funext q
    simp only [Pm.refCount, setLink_pages]
    split_ifs with hq
    · rw [hq]
    · rfl
  · rfl

/-- The free list after `page_decref`: the page joins it with its last reference. -/
theorem FreeList.decRef {l : List ℕ} (h : FreeList s l) {p : ℕ} (hp : p ∉ l) (hb : p < s.npages)
    (hk : p ≠ s.kernPgdir) : ∃ l', FreeList (s.decRef p) l' ∧
      (l' = l ∨ l' = p :: l ∧ (s.pages p).ppRef - 1 = 0) := by
  have hr := h.setRef hp ((s.pages p).ppRef - 1)
  by_cases h0 : (s.pages p).ppRef - 1 = 0
  · refine ⟨p :: l, ?_, Or.inr ⟨rfl, h0⟩⟩
    rw [Pm.decRef, if_pos h0]
    have hoff (q : ℕ) (hq : q ∈ l) : q ≠ p := fun hqp => hp (hqp ▸ hq)
    refine ⟨⟨rfl, ?_⟩, List.nodup_cons.mpr ⟨hp, h.nodup⟩, ?_, ?_, ?_, ?_⟩
    · simp only [setLink_pages, if_true]
      refine hr.chain.congr fun q hq => ?_
      rw [if_neg (hoff q hq)]
    · intro q hq
      simp only [setLink_pages]
      split_ifs with hqp
      · simpa only [setRef_pages, if_true] using h0
      · exact hr.zero q ((List.mem_cons.mp hq).resolve_left hqp)
    · intro q hq
      rcases List.mem_cons.mp hq with rfl | hq
      · exact hb
      · exact h.bound q hq
    · intro q hq
      obtain ⟨hqp, hql⟩ := not_or.mp (List.mem_cons.not.mp hq)
      simp only [setLink_pages, if_neg hqp]
      exact hr.unlinked q hql
    · exact List.mem_cons.not.mpr (not_or.mpr ⟨Ne.symm hk, h.kern⟩)
  · rw [Pm.decRef, if_neg h0]
    exact ⟨l, hr, Or.inl rfl⟩

/-- Giving up a reference in hand. -/
theorem MemInv.decRef {p : ℕ} (h : MemInv s D (p ::ₘ held)) : MemInv (s.decRef p) D held := by
  obtain ⟨l, hl⟩ := h.free
  obtain ⟨hb, hk⟩ := h.heldOk p (Multiset.mem_cons_self p held)
  have hpos : 0 < s.refCount p := by
    rw [h.tally.count, Multiset.count_cons_self]
    omega
  have hpl : p ∉ l := fun hpl => by
    rw [Pm.refCount, hl.zero p hpl] at hpos
    exact absurd hpos (by decide)
  have hr : ((s.pages p).ppRef - 1).toNat = s.refCount p - 1 := by
    have hlt := (s.pages p).ppRef.isLt
    simp only [Pm.refCount] at hpos ⊢
    have h1 : (1 : BitVec 16).toNat = 1 := rfl
    rw [BitVec.toNat_sub, h1]
    omega
  obtain ⟨l', hl', -⟩ := hl.decRef hpl hb hk
  have hm := @slotMap_decRef D s p
  refine ⟨(decRef_npages s p).trans_le h.npages_le, ⟨l', hl'⟩, ?_, ?_, ?_, ?_, ?_, ?_, ?_, ?_⟩
  · rw [hm, decRef_refCount, hr]
    exact h.tally.drop
  · rw [hm, decRef_npages]
    exact h.bound
  · rw [hm, decRef_kernPgdir]
    exact h.kern
  · intro q hq
    rw [decRef_npages, decRef_kernPgdir]
    exact h.heldOk q (Multiset.mem_cons_of_mem hq)
  · rw [decRef_word]
    exact h.pdeZero
  · rw [hm, decRef_word]
    exact h.pteZero
  · rw [decRef_word, decRef_kernPgdir]
    exact h.template
  · intro e g hg
    exact (h.upper e g hg).congr (decRef_kernPgdir s p) (by rw [decRef_word]) (by rw [decRef_word])

/-- Giving back a page that has not been used is taking a reference and dropping it. -/
theorem pageFree_ret {p : ℕ} (hz : (s.pages p).ppRef = 0) (hr : pageFree p s = .ret () s') :
    s' = (s.incRef p).decRef p := by
  have h0 : (0 : BitVec 16) + 1 - 1 = 0 := by decide
  have hp : ((s.incRef p).pages p).ppRef - 1 = 0 := by
    rw [Pm.incRef, setRef_pages, if_pos rfl, hz]
    exact h0
  have hpages : ((s.incRef p).setRef p (((s.incRef p).pages p).ppRef - 1)).pages = s.pages := by
    funext q
    rw [setRef_pages, hp]
    split_ifs with hq
    · rw [hq, ← hz, Pm.incRef, setRef_pages, if_pos rfl]
    · rw [Pm.incRef, setRef_pages, if_neg hq]
  have hs : (s.incRef p).setRef p (((s.incRef p).pages p).ppRef - 1) = s := by
    cases s
    simp only [Pm.incRef, Pm.setRef] at hpages ⊢
    rw [hpages]
  rw [Pm.decRef, if_pos hp]
  simp only [hs]
  simp only [pageFree] at hr
  split_ifs at hr
  exact (Outcome.ret.inj hr).2.symm

theorem MemInv.pageFree_keep {p : ℕ} (h : MemInv s D held) (hf : Fresh s p)
    (hr : pageFree p s = .ret () s') : MemInv s' D held := by
  rw [pageFree_ret hf.zero hr]
  exact (h.incRef (h.userPage_of_fresh hf) (by rw [hf.zero]; decide)).decRef

end Invariant
end Sisop
