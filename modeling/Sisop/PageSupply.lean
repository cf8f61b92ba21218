import Sisop.AddressSpace
import Sisop.BootDevices

/-! When memory is left, the routines that allocate pages return. -/
namespace Sisop

/-- At least `n` pages are free, and page 0 is neither free nor referenced. -/
def Pm.Supply (s : Pm) (n : ℕ) : Prop :=
  ∃ l, FreeList s l ∧ n ≤ l.length ∧ 0 ∉ l ∧ (s.pages 0).ppRef = 0

section Supply

variable {s s' : Pm} {D : EnvIdx → Option ℕ} {held : Multiset ℕ} {e : EnvIdx} {g n p : ℕ} {va : Word}

theorem Pm.Supply.mono {m : ℕ} (h : s.Supply n) (hm : m ≤ n) : s.Supply m :=
  h.imp fun _ hl => ⟨hl.1, hm.trans hl.2.1, hl.2.2⟩

theorem Pm.Supply.head (h : s.Supply (n+1)) : ∃ p, s.pageFreeList = some p := by
  obtain ⟨l, hl, hn, -⟩ := h
  cases l with
  | nil => exact absurd hn (by simp)
  | cons p l => exact ⟨p, hl.chain.1⟩

theorem Pm.Supply.head_ne (h : s.Supply n) (hf : s.pageFreeList = some p) : p ≠ 0 := by
  obtain ⟨l, hl, -, h0, -⟩ := h
  cases l with
  | nil => exact absurd (hl.chain.symm.trans hf) (by simp)
  | cons q l =>
    obtain rfl : q = p := Option.some.inj (hl.chain.1.symm.trans hf)
    exact fun hq => h0 (hq ▸ List.mem_cons_self)

theorem Pm.Supply.taken (h : s.Supply (n+1)) (hf : s.pageFreeList = some p) : (s.taken p).Supply n := by
  have hp := h.head_ne hf
  obtain ⟨l, hl, hn, h0, hz⟩ := h
  cases l with
  | nil => exact absurd hn (by simp)
  | cons q l =>
    obtain rfl : q = p := Option.some.inj (hl.chain.1.symm.trans hf)
    refine ⟨l, hl.tail, by simpa using hn, fun h => h0 (List.mem_cons_of_mem q h), ?_⟩
    simp only [Pm.taken, Pm.clear, setLink_pages, if_neg hp.symm]
    exact hz

theorem Pm.Supply.incRef (h : s.Supply n) (hp : ¬ s.IsFree p) (h0 : p ≠ 0) : (s.incRef p).Supply n := by
  obtain ⟨l, hl, hn, hl0, hz⟩ := h
  refine ⟨l, hl.setRef (fun hpl => hp ((hl.isFree_iff p).mpr hpl)) _, hn, hl0, ?_⟩
  rw [Pm.incRef, setRef_pages, if_neg h0.symm]
  exact hz

theorem Pm.Supply.congr_word (h : s.Supply n) (w : ℕ → ℕ → Word) : ({ s with word := w } : Pm).Supply n := by
  obtain ⟨l, hl, hn⟩ := h
  exact ⟨l, ⟨hl.1, hl.2, hl.3, hl.4, hl.5, hl.6⟩, hn⟩

theorem Pm.Supply.newTable {i : ℕ} (h : s.Supply (n+1)) (hf : s.pageFreeList = some p)
    (hp : ¬ (s.taken p).IsFree p) : (s.newTable g i p).Supply n :=
  ((h.taken hf).incRef hp (h.head_ne hf)).congr_word _

theorem Pm.Supply.newDir (h : s.Supply (n+1)) (hf : s.pageFreeList = some p)
    (hp : ¬ (s.taken p).IsFree p) : (s.newDir p).Supply n :=
  ((h.taken hf).incRef hp (h.head_ne hf)).congr_word _

theorem Pm.Supply.decRef (h : s.Supply n) (hp : ¬ s.IsFree p) (hb : p < s.npages) (hk : p ≠ s.kernPgdir)
    (h0 : p ≠ 0) : (s.decRef p).Supply n := by
  obtain ⟨l, hl, hn, hl0, hz⟩ := h
  have hz' : ((s.decRef p).pages 0).ppRef = 0 := by
    rw [Pm.decRef]
    split_ifs
    · rw [setLink_pages, if_neg h0.symm, setRef_pages, if_neg h0.symm]
      exact hz
    · rw [setRef_pages, if_neg h0.symm]
      exact hz
  obtain ⟨l', hl', rfl | ⟨rfl, -⟩⟩ := hl.decRef (fun hpl => hp ((hl.isFree_iff p).mpr hpl)) hb hk
  · exact ⟨l', hl', hn, hl0, hz'⟩
  · refine ⟨_, hl', hn.trans (Nat.le_succ _), fun hmem => ?_, hz'⟩
    exact (List.mem_cons.mp hmem).elim (fun h => h0 h.symm) hl0

/-- `env_setup_vm` succeeds while a page is left. The new directory has no user entries. -/
theorem MemInv.setupDir_run (h : MemInv s D held) (he : D e = none) (hn : s.Supply (n+1)) :
    ∃ g, setupDir s = .ret (some g) (s.newDir g) ∧
      MemInv (s.newDir g) (Function.update D e (some g)) held ∧ (s.newDir g).Supply n ∧
      ∀ d < userPdes, (s.newDir g).word g d = 0#32 := by
  obtain ⟨p, hp⟩ := hn.head
  rcases h.pageAlloc_cases with ⟨hf, -⟩ | ⟨g, hf, ha, hi, hfr, hm⟩
  · rw [hp] at hf
    cases hf
  · obtain ⟨hd, hm'⟩ := hi.newDir hfr he
    rw [hm] at hm'
    refine ⟨g, setupDir_some ha hfr.bound h.npages_le, hd, hn.newDir hf hfr.notFree, fun d hlt => ?_⟩
    have hnone : slotMap (s.newDir g) (Function.update D e (some g)) (.pde e ⟨d, hlt⟩) = none := by
      rw [hm', Function.update_of_ne (by simp)]
      change (D e).bind _ = none
      rw [he]
      rfl
    have hg : Function.update D e (some g) e = some g := Function.update_self ..
    refine hd.pdeZero e g ⟨d, hlt⟩ hg ?_
    rwa [slotMap_pde hg] at hnone

/-- `pgdir_walk` makes a page table while a page is left. -/
theorem MemInv.pgdirWalk_run (h : MemInv s D held) (hg : D e = some g) (hd : pdx va < userPdes)
    (hz : s.word g (pdx va) = 0#32) (hn : s.Supply (n+1)) : ∃ q,
      pgdirWalk g va true s = .ret (some ⟨q, ptx va⟩) (s.newTable g (pdx va) q) ∧
      MemInv (s.newTable g (pdx va) q) D held ∧ (s.newTable g (pdx va) q).Supply n ∧
      (∀ i, (s.newTable g (pdx va) q).word q i = 0#32) ∧ s.pageFreeList = some q ∧
      slotMap (s.newTable g (pdx va) q) D =
        Function.update (slotMap s D) (.pde e (vaPde va hd)) (some q) := by
  obtain ⟨p, hp⟩ := hn.head
  rcases h.pgdirWalk_cases hg hd true with
    ⟨-, -, hno⟩ | ⟨_, -, hne, -⟩ | ⟨q, hw, -, -, hf, hi, hfr, hm⟩
  · rw [hno rfl] at hp
    cases hp
  · exact absurd hz hne
  · have hgq : q ≠ g := fun hqg => h.not_isFree_of_slot (i := .dir e) (p := q) (hqg ▸ hg) (by
      rw [Pm.IsFree, hf]
      exact OnChain.here q)
    refine ⟨q, hw, hi, hn.newTable hf hfr.notFree, fun i => ?_, hf, hm⟩
    rw [Pm.newTable, setWord_word_ne hgq]
    exact hfr.blank i

/-- The page `p` has been mapped at `va` in the directory `g`, with the new page table `q`. -/
structure NewMapping (s s' : Pm) (g : ℕ) (va perm : Word) (p q : ℕ) : Prop where
  pde : s'.word g (pdx va) = pdeOf q
  npages : s'.npages = s.npages
  table : q < s'.npages
  page : p < s'.npages
  entry : s'.word q (ptx va) = pteOf p perm
  blank : ∀ i, i ≠ ptx va → s'.word q i = 0#32
  dir : ∀ d, d ≠ pdx va → s'.word g d = s.word g d
  frame : ∀ r, r ≠ g → ¬ s.IsFree r → s'.word r = s.word r

/-- A page is allocated and mapped where no page table is yet. -/
theorem MemInv.mapNew_run {perm : Word} (h : MemInv s D held) (hg : D e = some g)
    (hd : pdx va < userPdes) (hperm : perm.toNat < 4096) (hz : s.word g (pdx va) = 0#32)
    (hn : s.Supply (n+2)) : ∃ p q s', pageAlloc s = .ret (some p) (s.taken p) ∧
      pageInsert g p va perm (s.taken p) = .ret (.ok ()) s' ∧ MemInv s' D held ∧ s'.Supply n ∧
      NewMapping s s' g va perm p q := by
  obtain ⟨p, hp⟩ := hn.head
  rcases h.pageAlloc_cases with ⟨hf, -⟩ | ⟨p, hf, ha, hi, hfr, -⟩
  · rw [hp] at hf
    cases hf
  have hfree : s.IsFree p := by
    rw [Pm.IsFree, hf]
    exact OnChain.here p
  have hpg : p ≠ g := fun hpg => h.not_isFree_of_slot (i := .dir e) (p := p) (hpg ▸ hg) hfree
  have hw₁ : (s.taken p).word g = s.word g := Function.update_of_ne hpg.symm _ _
  have hz' : (s.taken p).word g (pdx va) = 0#32 := by rw [hw₁, hz]
  have hsup₁ := hn.taken hf
  obtain ⟨q, hw, hi', hsup, hb, hfq, hm⟩ := hi.pgdirWalk_run hg hd hz' hsup₁
  have hfreeq : (s.taken p).IsFree q := by
    rw [Pm.IsFree, hfq]
    exact OnChain.here q
  have hu := (hi.userPage_of_fresh hfr).newTable (d := vaPde va hd) hfq hm
  have hins : pageInsert g p va perm (s.taken p) = .ret (.ok ()) _ := pageInsert_empty hw (hb _)
  have hqp : p ≠ q := fun h => hfr.notFree (h ▸ hfreeq)
  have hgq : g ≠ q := fun h => hi.not_isFree_of_slot (i := .dir e) (p := q) (h ▸ hg) hfreeq
  have href : (((s.taken p).newTable g (pdx va) q).pages p).ppRef ≠ 65535#16 := by
    rw [newTable_pages_ne hqp, hfr.zero]
    decide
  have hq : slotMap ((s.taken p).newTable g (pdx va) q) D (.pde e (vaPde va hd)) = some q := by
    rw [hm, Function.update_self]
  refine ⟨p, q, _, ha, hins, (hi'.insertEntry hg hd hq hu href hperm (Or.inl ⟨hb _, rfl⟩)).1,
    (hsup.incRef hu.notFree (hn.head_ne hf)).congr_word _, ?_, rfl, hi'.bound _ _ hq, hfr.bound, ?_,
    fun i hi => ?_, fun d hd => ?_, fun r hrg hr => ?_⟩
  · rw [setWord_word_ne hgq]
    change (Pm.newTable (s.taken p) g (pdx va) q).word g (pdx va) = _
    rw [Pm.newTable, setWord_word_self, if_pos rfl]
  · rw [setWord_word_self, if_pos rfl]
  · rw [setWord_word_self, if_neg hi]
    exact hb i
  · rw [setWord_word_ne hgq]
    change (Pm.newTable (s.taken p) g (pdx va) q).word g d = _
    rw [Pm.newTable, setWord_word_self, if_neg hd, ← hw₁]
    exact congrFun (Function.update_of_ne hgq _ _) d
  · have hrp : r ≠ p := fun h => hr (h ▸ hfree)
    have hrq : r ≠ q := fun h => hr (isFree_of_taken hf (h ▸ hfreeq))
    rw [setWord_word_ne hrq]
    change (Pm.newTable (s.taken p) g (pdx va) q).word r = _
    rw [Pm.newTable, setWord_word_ne hrg]
    change Function.update (s.taken p).word q (fun _ => 0#32) r = _
    rw [Function.update_of_ne hrq]
    exact Function.update_of_ne hrp _ _

theorem NewMapping.pgnum_pde {va perm : Word} {q : ℕ} (h : NewMapping s s' g va perm p q)
    (hn : s'.npages ≤ 2^20) : pgnum (s'.word g (pdx va)) = q := by
  rw [h.pde, pgnum_pdeOf (lt_of_lt_of_le h.table hn)]

theorem NewMapping.pde_ne {va perm : Word} {q : ℕ} (h : NewMapping s s' g va perm p q) :
    s'.word g (pdx va) ≠ 0#32 := ne_zero_of_has_pteP (h.pde ▸ has_pteP_pdeOf q)

/-- The page that was mapped has a reference. -/
theorem NewMapping.ref_ne {va perm : Word} {q : ℕ} (h : NewMapping s s' g va perm p q)
    (hi : MemInv s' D held) (hg : D e = some g) (hd : pdx va < userPdes)
    (hperm : perm.toNat < 4096) : (s'.pages p).ppRef ≠ 0 := by
  intro hz
  have hn : p < 2^20 := lt_of_lt_of_le h.page hi.npages_le
  have htab := hi.dir_present hg (vaPde va hd) h.pde_ne
  change slotMap s' D _ = some (pgnum (s'.word g (pdx va))) at htab
  rw [h.pgnum_pde hi.npages_le] at htab
  have hne : s'.word q (ptx va) ≠ 0#32 := by
    rw [h.entry]
    exact ne_zero_of_has_pteP (has_pteP_pteOf p perm)
  have hslot := hi.pte_present htab (vaPte va) hne
  change slotMap s' D _ = some (pgnum (s'.word q (ptx va))) at hslot
  rw [h.entry, pgnum_pteOf hn hperm] at hslot
  exact hi.refs_eq_zero hz _ hslot

theorem NewMapping.table_ne {va perm : Word} {q : ℕ} (h : NewMapping s s' g va perm p q)
    (hi : MemInv s' D held) (hg : D e = some g) (hd : pdx va < userPdes) : q ≠ g := by
  rw [← h.pgnum_pde hi.npages_le]
  exact hi.table_ne_dir hg hd h.pde_ne

/-- `page_lookup` finds the page. -/
theorem NewMapping.lookup {va perm : Word} {q : ℕ} (h : NewMapping s s' g va perm p q)
    (hn : s'.npages ≤ 2^20) (hperm : perm.toNat < 4096) :
    pageLookup g va s' = .ret (some (p, ⟨q, ptx va⟩)) s' := by
  have hw := pgdirWalk_pde h.pde h.table hn false
  have hp : pgnum (s'.word q (ptx va)) = p := by
    rw [h.entry, pgnum_pteOf (lt_of_lt_of_le h.page hn) hperm]
  have hl := pageLookup_table hw (by rw [hp]; exact h.page)
  rwa [hp] at hl

theorem pageDecref_run (hl : (s.pages p).ppLink = none) : pageDecref p s = .ret () (s.decRef p) := by
  simp only [pageDecref, Routine.modify_bind_run, Routine.gets_bind_run, setRef_pages, if_true,
    Routine.ite_run, pageFree, Routine.pure_run, Pm.decRef, hl]
  by_cases h0 : (s.pages p).ppRef - 1 = 0
  · rw [if_pos h0, if_neg (not_not.mpr h0), if_neg (not_not.mpr rfl), if_pos h0]
  · rw [if_neg h0, if_neg h0]

/-- A page that a slot refers to is not linked into the free list. -/
theorem MemInv.unlinked {i : Slot} (h : MemInv s D held) (hi : slotMap s D i = some p) :
    (s.pages p).ppLink = none := by
  obtain ⟨l, hl⟩ := h.free
  exact hl.unlinked p fun hp => h.not_isFree_of_slot hi ((hl.isFree_iff p).mpr hp)

/-- A page directory without user entries is given back. -/
theorem MemInv.freeDir_bare (h : MemInv s D held) (hg : D e = some g) (hz : ∀ d < userPdes, s.word g d = 0#32)
    (hn : s.Supply n) : (s.pages g).ppLink = none ∧ MemInv (s.decRef g) (Function.update D e none) held ∧
      (s.decRef g).Supply n := by
  have hslot : slotMap s D (.dir e) = some g := hg
  have h0 : g ≠ 0 := by
    rintro rfl
    obtain ⟨-, -, -, -, hz⟩ := hn
    exact h.refs_eq_zero hz _ hslot
  have hempty (d) : slotMap s D (.pde e d) = none := by
    rw [slotMap_pde hg, hz d d.isLt]
    rfl
  exact ⟨h.unlinked hslot, (h.unlinkDir hg hempty).decRef,
    hn.decRef (h.not_isFree_of_slot hslot) (h.bound _ _ hslot) (fun hk => h.kern (.dir e) (by rw [hslot, hk])) h0⟩

/-- The loops of `env_free` find nothing to do in a directory without user entries. -/
theorem freeTables_bare (hz : ∀ d < userPdes, s.word g d = 0#32) :
    Routine.loop userPdes (fun pdeno => freeTable g pdeno) s = .ret () s := by
  obtain ⟨t, ht, rfl⟩ : ∃ t, Routine.loop userPdes (fun d => freeTable g d) s = .ret () t ∧ t = s :=
    Routine.loop_total (fun _ t => t = s) userPdes rfl fun d t hd htd => by
      refine ⟨s, ?_, rfl⟩
      have hnot : ¬ has (s.word g d) pteP := by
        rw [hz d hd]
        decide
      simp only [htd, freeTable, Routine.gets_bind_run, if_neg hnot, Routine.pure_run]
  exact ht

/-- A machine with 64 MB of memory. -/
def machine64 : Machine where
  npages := 16384
  kernEnd := 0x180000
  bootstack := 0x17F000#32
  percpuKstacks := fun i => 0x170000#32 + BitVec.ofNat 32 i * kstksize
  npages_le := by decide
  kernEnd_ge := by decide

/-- It boots, with all page tables of the kernel in place and pages to spare. -/
theorem machine64_bootMem : ∃ s, BootMem machine64 s ∧ s.Supply 64 ∧
    ∃ p, slotMap s noDirs (.kpde 960) = some p := by
  have hl : machine64.Layout 0x180000 0x181000 0x1A1000 0x1C0000 := by
    constructor <;> decide
  obtain ⟨s, hs, hb, hp⟩ := hl.bootMem (by decide) (by decide)
  obtain ⟨l, hl, hn⟩ := hb.supply
  have hk := kernTables_le s
  have h1 : machine64.npages - 0x1C0000 / pgsize = 15936 := by decide
  have h2 : nptentries = 1024 := rfl
  exact ⟨s, hs, ⟨l, hl, by omega, fun h => hb.zeroFree ((hl.isFree_iff 0).mpr h), hb.zeroRef⟩, hp⟩

end Supply
end Sisop
