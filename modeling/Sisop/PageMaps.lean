import Sisop.MemInvariant

/-! The page-table operations of `kern/pmap.c` keep the memory invariant:
`pgdir_walk`, `page_lookup`, `page_remove` and `page_insert`. -/
namespace Sisop

section PageMaps

variable {s s' : Pm} {D : EnvIdx → Option ℕ} {held : Multiset ℕ}

/-- The write of one word, seen from the slots: the invariant follows from the
tally of the changed table. -/
theorem MemInv.setWord {p i : ℕ} {w : Word} {j : Slot} {x : Option ℕ} {held' : Multiset ℕ}
    (h : MemInv s D held)
    (hm : slotMap (s.setWord p i w) D = Function.update (slotMap s D) j x)
    (ht : Tally (Function.update (slotMap s D) j x) Slot.isTable s.refCount held')
    (hx : ∀ q, x = some q → q < s.npages ∧ q ≠ s.kernPgdir)
    (hheld : ∀ q ∈ held', q < s.npages ∧ q ≠ s.kernPgdir)
    (hw : target w = none → w = 0#32)
    (htab : ∀ e d q, slotMap (s.setWord p i w) D (.pde e d) = some q →
      slotMap s D (.pde e d) = some q ∨ ∀ t, (s.setWord p i w).word q t = 0#32)
    (hk : p = s.kernPgdir → userPdes ≤ i) (hu : ∀ e g, D e = some g → p ≠ s.kernPgdir ∧
      (g = p → i < userPdes)) : MemInv (s.setWord p i w) D held' := by
  obtain ⟨l, hl⟩ := h.free
  have hword (q t : ℕ) (hq : target (s.word q t) = none → s.word q t = 0#32) :
      target ((s.setWord p i w).word q t) = none → (s.setWord p i w).word q t = 0#32 := by
    by_cases hqp : q = p
    · subst hqp
      rw [setWord_word_self]
      split_ifs
      · exact hw
      · exact hq
    · rw [setWord_word_ne hqp]
      exact hq
  have hslot (k : Slot) (q : ℕ) (hq : slotMap (s.setWord p i w) D k = some q) :
      q < s.npages ∧ q ≠ s.kernPgdir := by
    rw [hm] at hq
    by_cases hkj : k = j
    · subst hkj
      rw [Function.update_self] at hq
      exact hx q hq
    · rw [Function.update_of_ne hkj] at hq
      exact ⟨h.bound k q hq, fun hqk => h.kern k (hqk ▸ hq)⟩
  refine ⟨h.npages_le, ⟨l, hl.1, hl.2, hl.3, hl.4, hl.5, hl.6⟩, ?_, fun k q hq => (hslot k q hq).1,
    fun k hq => (hslot k _ hq).2 rfl, hheld, ?_, ?_, ?_, ?_⟩
  · rw [hm]
    exact ht
  · intro e g d hg
    exact hword g d (h.pdeZero e g d hg)
  · intro e d q t hq
    rcases htab e d q hq with hold | hblank
    · exact hword q t (h.pteZero e d q t hold)
    · exact fun _ => hblank t
  · intro d
    by_cases hkp : s.kernPgdir = p
    · have hi := hk hkp.symm
      have hd : (d : ℕ) ≠ i := by have := d.isLt; omega
      change (s.setWord p i w).word s.kernPgdir d = _
      rw [hkp, setWord_word_self, if_neg hd, ← hkp]
      exact h.template d
    · change (s.setWord p i w).word s.kernPgdir d = _
      rw [setWord_word_ne hkp]
      exact h.template d
  · intro e g hg
    obtain ⟨hkp, hgi⟩ := hu e g hg
    have hup (d : ℕ) (hd : userPdes ≤ d) : (s.setWord p i w).word g d = s.word g d := by
      by_cases hgp : g = p
      · have hdi : d ≠ i := by have := hgi hgp; omega
        rw [hgp, setWord_word_self, if_neg hdi]
      · rw [setWord_word_ne hgp]
    refine ⟨fun d hd hdu => ?_, (hup uvptPde (by decide)).trans (h.upper e g hg).self⟩
    rw [hup d hd, (h.upper e g hg).shared d hd hdu]
    exact (congrFun (setWord_word_ne (Ne.symm hkp)) d).symm

/-- A user page table is neither `kern_pgdir` nor a place for directory slots. -/
theorem MemInv.pde_off {e : EnvIdx} {d : PdeIdx} {p : ℕ} (h : MemInv s D held)
    (hp : slotMap s D (.pde e d) = some p) (t : PteIdx) (w : Word) (e' : EnvIdx) (d' : PdeIdx) :
    slotMap (s.setWord p t w) D (.pde e' d') = slotMap s D (.pde e' d') := by
  rw [slotMap_setWord_pte h.apart hp, Function.update_of_ne (by simp)]

/-- Where a write to a user page table or a user directory entry goes. -/
theorem MemInv.pte_upper {e : EnvIdx} {d : PdeIdx} {p i : ℕ} (h : MemInv s D held)
    (hp : slotMap s D (.pde e d) = some p) (e' : EnvIdx) (g : ℕ) (hg : D e' = some g) :
    p ≠ s.kernPgdir ∧ (g = p → i < userPdes) := by
  refine ⟨fun hk => h.kern _ (hk ▸ hp), fun hgp => ?_⟩
  have hdir : (Slot.dir e').isTable := trivial
  cases h.tally.slot_unique hdir (hgp ▸ hg) hp

/-- A present entry is written over an empty one: the reference goes into the table. -/
theorem MemInv.linkPte {e : EnvIdx} {d : PdeIdx} {p : ℕ} {t : PteIdx} {w : Word}
    (h : MemInv s D (pgnum w ::ₘ held)) (hp : slotMap s D (.pde e d) = some p)
    (hz : s.word p t = 0#32) (hw : has w pteP) : MemInv (s.setWord p t w) D held := by
  have hnone : slotMap s D (.pte e d t) = none := by rw [slotMap_pte hp, hz, target_zero]
  have hheld := h.heldOk _ (Multiset.mem_cons_self _ _)
  have hm := slotMap_setWord_pte h.apart hp t w
  rw [target_of_has hw] at hm
  refine h.setWord hm (h.tally.link hnone False.elim) ?_
    (fun q hq => h.heldOk q (Multiset.mem_cons_of_mem hq)) ?_ ?_ ?_ ?_
  · rintro q ⟨⟩
    exact hheld
  · intro hn
    rw [target_of_has hw] at hn
    exact absurd hn (by simp)
  · intro e' d' q hq
    exact Or.inl ((h.pde_off hp t w e' d').symm.trans hq)
  · exact fun hk => absurd (hk ▸ hp) (h.kern _)
  · exact h.pte_upper hp

/-- A present entry is cleared: its reference is in hand. -/
theorem MemInv.unlinkPte {e : EnvIdx} {d : PdeIdx} {p q : ℕ} {t : PteIdx} (h : MemInv s D held)
    (hp : slotMap s D (.pde e d) = some p) (hq : slotMap s D (.pte e d t) = some q) :
    MemInv (s.setWord p t 0#32) D (q ::ₘ held) := by
  refine h.setWord (slotMap_setWord_pte h.apart hp t 0#32) (h.tally.unlink hq) ?_ ?_
    (fun _ => rfl) ?_ ?_ ?_
  · intro r hr
    exact absurd hr (by simp [target_zero])
  · intro r hr
    rcases Multiset.mem_cons.mp hr with rfl | hr
    · exact ⟨h.bound _ r hq, fun hk => h.kern _ (hk ▸ hq)⟩
    · exact h.heldOk r hr
  · intro e' d' r hr
    exact Or.inl ((h.pde_off hp t 0#32 e' d').symm.trans hr)
  · exact fun hk => absurd (hk ▸ hp) (h.kern _)
  · exact h.pte_upper hp

/-- A new, blank page table goes into an empty user directory entry. -/
theorem MemInv.linkPde {e : EnvIdx} {d : PdeIdx} {g : ℕ} {w : Word}
    (h : MemInv s D (pgnum w ::ₘ held)) (hg : D e = some g) (hz : s.word g d = 0#32)
    (hw : has w pteP) (h1 : s.refCount (pgnum w) = 1) (hb : ∀ i, s.word (pgnum w) i = 0#32) :
    MemInv (s.setWord g d w) D held ∧ slotMap (s.setWord g d w) D =
      Function.update (slotMap s D) (.pde e d) (some (pgnum w)) := by
  have hnone : slotMap s D (.pde e d) = none := by rw [slotMap_pde hg, hz, target_zero]
  have hheld := h.heldOk _ (Multiset.mem_cons_self _ _)
  have hdir : (Slot.dir e).isTable := trivial
  have hgp : g ≠ pgnum w := fun hgp => h.tally.not_sole_of_held hdir (hgp ▸ hg)
  have hm := slotMap_setWord_pde h.apart hg d w (slotMap_pte_of_none hnone)
    (by rw [target_of_has hw]; exact fun hc => hgp (Option.some.inj hc).symm)
    (by
      intro p t hp
      rw [target_of_has hw] at hp
      rw [← Option.some.inj hp, hb t, target_zero])
  rw [target_of_has hw] at hm
  refine ⟨?_, hm⟩
  refine h.setWord hm (h.tally.link hnone fun _ => h1) ?_
    (fun q hq => h.heldOk q (Multiset.mem_cons_of_mem hq)) ?_ ?_ ?_ ?_
  · rintro q ⟨⟩
    exact hheld
  · intro hn
    rw [target_of_has hw] at hn
    exact absurd hn (by simp)
  · intro e' d' q hq
    rw [hm] at hq
    by_cases hne : Slot.pde e' d' = .pde e d
    · rw [hne, Function.update_self] at hq
      rw [← Option.some.inj hq]
      exact Or.inr fun t => (congrFun (setWord_word_ne hgp.symm) t).trans (hb t)
    · rw [Function.update_of_ne hne] at hq
      exact Or.inl hq
  · exact fun hk => absurd (hk ▸ hg) (h.kern (.dir e))
  · exact fun _ _ _ => ⟨fun hk => h.kern (.dir e) (hk ▸ hg), fun _ => d.isLt⟩

/-- A user directory entry whose table maps nothing is cleared. -/
theorem MemInv.unlinkPde {e : EnvIdx} {d : PdeIdx} {g p : ℕ} (h : MemInv s D held)
    (hg : D e = some g) (hp : slotMap s D (.pde e d) = some p)
    (hempty : ∀ t, slotMap s D (.pte e d t) = none) : MemInv (s.setWord g d 0#32) D (p ::ₘ held) := by
  have hm := slotMap_setWord_pde h.apart hg d 0#32 hempty (by simp [target_zero])
    (by simp [target_zero])
  refine h.setWord hm (h.tally.unlink hp) ?_ ?_ (fun _ => rfl) ?_ ?_ ?_
  · intro q hq
    exact absurd hq (by simp [target_zero])
  · intro q hq
    rcases Multiset.mem_cons.mp hq with rfl | hq
    · exact ⟨h.bound _ q hp, fun hk => h.kern _ (hk ▸ hp)⟩
    · exact h.heldOk q hq
  · intro e' d' q hq
    rw [hm] at hq
    by_cases hne : Slot.pde e' d' = .pde e d
    · rw [hne, Function.update_self, target_zero] at hq
      exact absurd hq (by simp)
    · rw [Function.update_of_ne hne] at hq
      exact Or.inl hq
  · exact fun hk => absurd (hk ▸ hg) (h.kern (.dir e))
  · exact fun _ _ _ => ⟨fun hk => h.kern (.dir e) (hk ▸ hg), fun _ => d.isLt⟩

theorem pgnum_pdeOf {p : ℕ} (hp : p < 2^20) : pgnum (pdeOf p) = p := by
  rw [pdeOf, pgnum_or, pgnum_or, pgnum_or, pgnum_page2pa p hp, pgnum_of_flags pteP (by decide),
    pgnum_of_flags pteW (by decide), pgnum_of_flags pteU (by decide)]
  simp only [Nat.or_zero]

theorem has_pteP_pdeOf (p : ℕ) : has (pdeOf p) pteP := by
  rw [has_pteP, pdeOf, BitVec.getLsbD_or, BitVec.getLsbD_or, BitVec.getLsbD_or]
  simp

theorem pgnum_pteOf {p : ℕ} (hp : p < 2^20) {perm : Word} (hperm : perm.toNat < 4096) :
    pgnum (pteOf p perm) = p := pgnum_entry p perm hp hperm

theorem has_pteP_pteOf (p : ℕ) (perm : Word) : has (pteOf p perm) pteP := has_pteP_entry p perm

/-- The state after `pgdir_walk` has installed the new table `p` at entry `i` of `g`. -/
def Pm.newTable (s : Pm) (g i p : ℕ) : Pm := ((s.taken p).incRef p).setWord g i (pdeOf p)

theorem entryTable_run (g : ℕ) (va : Word) (s : Pm) : pgdirWalk.entryTable g va s =
    if pgnum (s.word g (pdx va)) < s.npages then .ret (pgnum (s.word g (pdx va))) s else .halt := by
  simp only [pgdirWalk.entryTable, Routine.gets_bind_run, kaddr, pgnum_pteAddr]

theorem pgdirWalk_table {g : ℕ} {va : Word} {create : Bool} (hz : s.word g (pdx va) ≠ 0#32)
    (hb : pgnum (s.word g (pdx va)) < s.npages) :
    pgdirWalk g va create s = .ret (some ⟨pgnum (s.word g (pdx va)), ptx va⟩) s := by
  have ht := entryTable_run g va s
  rw [if_pos hb] at ht
  simp only [pgdirWalk, Routine.gets_bind_run, if_neg hz]
  rw [Routine.bind_ret ht, Routine.pure_run]

/-- The same for an entry written by `pgdir_walk`. -/
theorem pgdirWalk_pde {g p : ℕ} {va : Word} (hg : s.word g (pdx va) = pdeOf p) (hp : p < s.npages)
    (hn : s.npages ≤ 2^20) (create : Bool) :
    pgdirWalk g va create s = .ret (some ⟨p, ptx va⟩) s := by
  have hpn : pgnum (s.word g (pdx va)) = p := by
    rw [hg, pgnum_pdeOf (lt_of_lt_of_le hp hn)]
  have hz : s.word g (pdx va) ≠ 0#32 := ne_zero_of_has_pteP (hg ▸ has_pteP_pdeOf p)
  have hw : pgdirWalk g va create s = _ := pgdirWalk_table hz (hpn.symm ▸ hp)
  rwa [hpn] at hw

theorem pgdirWalk_halt {g : ℕ} {va : Word} {create : Bool} (hz : s.word g (pdx va) ≠ 0#32)
    (hb : ¬ pgnum (s.word g (pdx va)) < s.npages) : pgdirWalk g va create s = .halt := by
  have ht := entryTable_run g va s
  rw [if_neg hb] at ht
  simp only [pgdirWalk, Routine.gets_bind_run, if_neg hz]
  exact Routine.bind_halt ht

theorem pgdirWalk_none {g : ℕ} {va : Word} (hz : s.word g (pdx va) = 0#32) :
    pgdirWalk g va false s = .ret none s := by
  simp only [pgdirWalk, Routine.gets_bind_run, hz, if_true, Bool.false_eq_true, if_false,
    Routine.pure_run]

/-- A walk that creates nothing changes nothing. -/
theorem pgdirWalk_false (g : ℕ) (va : Word) (s : Pm) : pgdirWalk g va false s =
    if s.word g (pdx va) = 0#32 then .ret none s
    else if pgnum (s.word g (pdx va)) < s.npages then
      .ret (some ⟨pgnum (s.word g (pdx va)), ptx va⟩) s
    else .halt := by
  split_ifs with hz hb
  · exact pgdirWalk_none hz
  · exact pgdirWalk_table hz hb
  · exact pgdirWalk_halt hz hb

theorem pgdirWalk_noMem {g : ℕ} {va : Word} (hz : s.word g (pdx va) = 0#32)
    (hf : s.pageFreeList = none) : pgdirWalk g va true s = .ret none s := by
  simp only [pgdirWalk, Routine.gets_bind_run, hz, if_true,
    Routine.bind_ret (pageAlloc_none hf), Routine.pure_run]

theorem pgdirWalk_new {g p : ℕ} {va : Word} (hz : s.word g (pdx va) = 0#32)
    (hf : pageAlloc s = .ret (some p) (s.taken p)) (hp : p < s.npages) (hn : s.npages ≤ 2^20) :
    pgdirWalk g va true s = .ret (some ⟨p, ptx va⟩) (s.newTable g (pdx va) p) := by
  have hload : (s.newTable g (pdx va) p).word g (pdx va) = pdeOf p := by
    rw [Pm.newTable, setWord_word_self, if_pos rfl]
  have ht := entryTable_run g va (s.newTable g (pdx va) p)
  rw [hload, pgnum_pdeOf (by omega), if_pos (show p < (s.newTable g (pdx va) p).npages from hp)] at ht
  simp only [pgdirWalk, Routine.gets_bind_run, hz, if_true, Routine.bind_ret hf,
    Routine.modify_bind_run]
  change (pgdirWalk.entryTable g va >>= _) (s.newTable g (pdx va) p) = _
  rw [Routine.bind_ret ht, Routine.pure_run]

/-- The page table exists but its entry for `va` is empty. -/
def Pm.entryEmpty (s : Pm) (g : ℕ) (va : Word) : Prop :=
  s.word g (pdx va) ≠ 0#32 ∧ s.word (pgnum (s.word g (pdx va))) (ptx va) = 0#32

instance (s : Pm) (g : ℕ) (va : Word) : Decidable (s.entryEmpty g va) :=
  inferInstanceAs (Decidable (_ ∧ _))

/-- The slots of a user address. -/
def vaPde (va : Word) (hd : pdx va < userPdes) : PdeIdx := ⟨pdx va, hd⟩

def vaPte (va : Word) : PteIdx := ⟨ptx va, ptx_lt va⟩

theorem MemInv.dir_present {e : EnvIdx} {g : ℕ} (h : MemInv s D held) (hg : D e = some g)
    (d : PdeIdx) (hz : s.word g d ≠ 0#32) :
    slotMap s D (.pde e d) = some (pgnum (s.word g d)) := by
  rw [slotMap_pde hg]
  cases ht : target (s.word g d) with
  | none => exact absurd (h.pdeZero e g d hg ht) hz
  | some p => rw [(target_eq_some ht).2]

/-- An environment's page directory is not one of its page tables. -/
theorem MemInv.table_ne_dir {e : EnvIdx} {g d : ℕ} (h : MemInv s D held) (hg : D e = some g)
    (hd : d < userPdes) (hz : s.word g d ≠ 0#32) : pgnum (s.word g d) ≠ g := by
  intro hpg
  have hslot := h.dir_present hg ⟨d, hd⟩ hz
  rw [hpg] at hslot
  have hdir : (Slot.dir e).isTable := trivial
  cases h.tally.slot_unique hdir hg hslot

theorem MemInv.pte_present {e : EnvIdx} {d : PdeIdx} {p : ℕ} (h : MemInv s D held)
    (hp : slotMap s D (.pde e d) = some p) (t : PteIdx) (hz : s.word p t ≠ 0#32) :
    slotMap s D (.pte e d t) = some (pgnum (s.word p t)) := by
  rw [slotMap_pte hp]
  cases ht : target (s.word p t) with
  | none => exact absurd (h.pteZero e d p t hp ht) hz
  | some q => rw [(target_eq_some ht).2]

/-- Installing a freshly allocated page table for a user keeps the invariant. -/
theorem MemInv.newTable {e : EnvIdx} {g p : ℕ} {d : PdeIdx} (h : MemInv (s.taken p) D held)
    (hf : Fresh (s.taken p) p) (hm : slotMap (s.taken p) D = slotMap s D) (hg : D e = some g)
    (hz : s.word g d = 0#32) : MemInv (s.newTable g d p) D held ∧
      slotMap (s.newTable g d p) D = Function.update (slotMap s D) (.pde e d) (some p) := by
  have hp20 : p < 2^20 := lt_of_lt_of_le hf.bound h.npages_le
  have hgp : g ≠ p := fun hgp => h.refs_eq_zero hf.zero (.dir e) (hgp ▸ hg)
  have hw : (pgnum (pdeOf p)) = p := pgnum_pdeOf hp20
  have h0 : (s.taken p).refCount p = 0 := by
    rw [Pm.refCount, hf.zero]
    rfl
  have hi := h.incRef (h.userPage_of_fresh hf) (by rw [hf.zero]; decide)
  have h1 : ((s.taken p).incRef p).refCount p = 1 := by
    rw [Pm.incRef, setRef_refCount, Function.update_self, hf.zero]
    rfl
  have hzg : ((s.taken p).incRef p).word g d = 0#32 := by
    rw [← hz]
    simp only [Pm.incRef, Pm.setRef, Pm.taken, Pm.clear, Pm.setLink, Function.update_of_ne hgp]
  rw [← hw] at hi h1
  have hl := hi.linkPde hg (by rwa [hw]) (has_pteP_pdeOf p) (by rwa [hw] at h1 ⊢)
    (by rw [hw]; exact hf.blank)
  rw [hw] at hl
  refine ⟨hl.1, hl.2.trans ?_⟩
  rw [← hm]
  rfl

/-- What `pgdir_walk` on a user address does: it finds no table, or the one that
is there, or it installs a new one. -/
theorem MemInv.pgdirWalk_cases {e : EnvIdx} {g : ℕ} {va : Word} (h : MemInv s D held)
    (hg : D e = some g) (hd : pdx va < userPdes) (create : Bool) :
    (pgdirWalk g va create s = .ret none s ∧ s.word g (pdx va) = 0#32 ∧
      (create = true → s.pageFreeList = none)) ∨
    (∃ p, pgdirWalk g va create s = .ret (some ⟨p, ptx va⟩) s ∧ s.word g (pdx va) ≠ 0#32 ∧
      slotMap s D (.pde e (vaPde va hd)) = some p) ∨
    (∃ p, pgdirWalk g va create s = .ret (some ⟨p, ptx va⟩) (s.newTable g (pdx va) p) ∧
      create = true ∧ s.word g (pdx va) = 0#32 ∧ s.pageFreeList = some p ∧
      MemInv (s.newTable g (pdx va) p) D held ∧ Fresh (s.taken p) p ∧
      slotMap (s.newTable g (pdx va) p) D =
        Function.update (slotMap s D) (.pde e (vaPde va hd)) (some p)) := by
  by_cases hz : s.word g (pdx va) = 0#32
  · cases create with
    | false => exact Or.inl ⟨pgdirWalk_none hz, hz, by simp⟩
    | true =>
      rcases h.pageAlloc_cases with ⟨hf, -⟩ | ⟨p, hfree, ha, hi, hfr, hm⟩
      · exact Or.inl ⟨pgdirWalk_noMem hz hf, hz, fun _ => hf⟩
      · have hn := @MemInv.newTable s D held e g p (vaPde va hd) hi hfr hm hg hz
        exact Or.inr (Or.inr ⟨p, pgdirWalk_new hz ha hfr.bound h.npages_le, rfl, hz, hfree,
          hn.1, hfr, hn.2⟩)
  · have hp := h.dir_present hg (vaPde va hd) hz
    exact Or.inr (Or.inl ⟨_, pgdirWalk_table hz (h.bound _ _ hp), hz, hp⟩)

theorem pageLookup_none {g : ℕ} {va : Word} (hz : s.word g (pdx va) = 0#32) :
    pageLookup g va s = .ret none s := by
  simp only [pageLookup, Routine.bind_ret (pgdirWalk_none hz), Routine.pure_run]

/-- Below an existing page table `page_lookup` answers with whatever the entry
holds; an empty entry gives page 0. -/
theorem pageLookup_table {g p : ℕ} {va : Word}
    (hw : pgdirWalk g va false s = .ret (some ⟨p, ptx va⟩) s)
    (hb : pgnum (s.word p (ptx va)) < s.npages) :
    pageLookup g va s = .ret (some (pgnum (s.word p (ptx va)), ⟨p, ptx va⟩)) s := by
  have hl : pa2page (pteAddr (s.word p (ptx va))) s = .ret (pgnum (s.word p (ptx va))) s := by
    simp only [pa2page, pgnum_pteAddr, if_pos hb]
  simp only [pageLookup, Routine.bind_ret hw, Routine.gets_bind_run, Pm.load]
  rw [Routine.bind_ret hl, Routine.pure_run]

/-- What `page_lookup` returns: nothing where there is no page table, else the entry. -/
theorem pageLookup_cases {g : ℕ} {va : Word} {o : Option (ℕ × PtePtr)}
    (hr : pageLookup g va s = .ret o s') : s' = s ∧ (s.word g (pdx va) = 0#32 ∧ o = none ∨
      s.word g (pdx va) ≠ 0#32 ∧ pgnum (s.word g (pdx va)) < s.npages ∧
        ∃ w, w = s.word (pgnum (s.word g (pdx va))) (ptx va) ∧ pgnum w < s.npages ∧
          o = some (pgnum w, ⟨pgnum (s.word g (pdx va)), ptx va⟩)) := by
  obtain ⟨r, t, hw, h⟩ := Routine.bind_eq_ret.mp hr
  rw [pgdirWalk_false] at hw
  split_ifs at hw with hz hb
  · obtain ⟨rfl, rfl⟩ := Outcome.ret.inj hw
    obtain ⟨rfl, rfl⟩ := Outcome.ret.inj h
    exact ⟨rfl, Or.inl ⟨hz, rfl⟩⟩
  · obtain ⟨rfl, rfl⟩ := Outcome.ret.inj hw
    simp only [Routine.gets_bind_run] at h
    obtain ⟨q, t, hq, h⟩ := Routine.bind_eq_ret.mp h
    simp only [pa2page, pgnum_pteAddr] at hq
    split_ifs at hq with hqb
    obtain ⟨rfl, rfl⟩ := Outcome.ret.inj hq
    obtain ⟨rfl, rfl⟩ := Outcome.ret.inj h
    exact ⟨rfl, Or.inr ⟨hz, hb, _, rfl, hqb, rfl⟩⟩

theorem decRef_setWord (s : Pm) (q p i : ℕ) (w : Word) :
    (s.decRef q).setWord p i w = (s.setWord p i w).decRef q := by
  by_cases h : (s.pages q).ppRef - 1 = 0
  · have h' : ((s.setWord p i w).pages q).ppRef - 1 = 0 := h
    rw [Pm.decRef, Pm.decRef, if_pos h, if_pos h']
    rfl
  · have h' : ¬ ((s.setWord p i w).pages q).ppRef - 1 = 0 := h
    rw [Pm.decRef, Pm.decRef, if_neg h, if_neg h']
    rfl

theorem pageRemove_none {g : ℕ} {va : Word} (hz : s.word g (pdx va) = 0#32) :
    pageRemove g va s = .ret () s := by
  simp only [pageRemove, Routine.bind_ret (pageLookup_none hz), Routine.pure_run]

theorem pageRemove_table {g p q : ℕ} {va : Word}
    (hl : pageLookup g va s = .ret (some (q, ⟨p, ptx va⟩)) s)
    (hr : pageRemove g va s = .ret () s') : s' = (s.setWord p (ptx va) 0#32).decRef q := by
  simp only [pageRemove, Routine.bind_ret hl] at hr
  obtain ⟨_, t, hd, hs⟩ := Routine.bind_eq_ret.mp hr
  simp only [Routine.modify_run, Outcome.ret.injEq, true_and] at hs
  rw [← hs, pageDecref_ret hd]
  exact decRef_setWord s q p _ _

/-- What `page_remove` does on a user address whose entry is not empty. -/
theorem MemInv.pageRemove_cases {e : EnvIdx} {g : ℕ} {va : Word} (h : MemInv s D held)
    (hg : D e = some g) (hd : pdx va < userPdes) (hne : ¬ s.entryEmpty g va)
    (hr : pageRemove g va s = .ret () s') :
    (s.word g (pdx va) = 0#32 ∧ s' = s) ∨
    (∃ p q, slotMap s D (.pde e (vaPde va hd)) = some p ∧
      slotMap s D (.pte e (vaPde va hd) (vaPte va)) = some q ∧
      s' = (s.setWord p (ptx va) 0#32).decRef q) := by
  rcases h.pgdirWalk_cases hg hd false with ⟨-, hz, -⟩ | ⟨p, hw, hz, hp⟩ | ⟨_, _, hc, _⟩
  · rw [pageRemove_none hz] at hr
    exact Or.inl ⟨hz, (Outcome.ret.inj hr).2.symm⟩
  · have hpe := h.dir_present hg (vaPde va hd) hz
    obtain rfl : p = pgnum (s.word g (pdx va)) := Option.some.inj (hp.symm.trans hpe)
    have hq := h.pte_present hp (vaPte va) fun hz' => hne ⟨hz, hz'⟩
    exact Or.inr ⟨_, _, hp, hq, pageRemove_table (pageLookup_table hw (h.bound _ _ hq)) hr⟩
  · exact absurd hc (by decide)

/-- `page_remove` keeps the invariant unless it meets an empty entry. -/
theorem MemInv.pageRemove_keep {e : EnvIdx} {g : ℕ} {va : Word} (h : MemInv s D held)
    (hg : D e = some g) (hd : pdx va < userPdes) (hne : ¬ s.entryEmpty g va)
    (hr : pageRemove g va s = .ret () s') : MemInv s' D held := by
  rcases h.pageRemove_cases hg hd hne hr with ⟨-, rfl⟩ | ⟨p, q, hp, hq, rfl⟩
  · exact h
  · exact (h.unlinkPte hp hq).decRef

/-- The user part of the slots of `page_remove`: the one entry is emptied. -/
theorem MemInv.slotMap_pageRemove {e : EnvIdx} {d : PdeIdx} {p : ℕ} (h : MemInv s D held)
    (hp : slotMap s D (.pde e d) = some p) (t : PteIdx) (q : ℕ) :
    slotMap ((s.setWord p t 0#32).decRef q) D =
      Function.update (slotMap s D) (.pte e d t) none := by
  rw [slotMap_decRef, slotMap_setWord_pte h.apart hp, target_zero]

theorem newTable_pages_ne {g i p q : ℕ} (hq : q ≠ p) :
    (s.newTable g i p).pages q = s.pages q := by
  change (((s.taken p).incRef p).pages q) = _
  simp only [Pm.incRef, setRef_pages, Pm.taken, Pm.clear, setLink_pages, if_neg hq]

/-- What is free once the head of the list is taken was free before. -/
theorem isFree_of_cut {s' : Pm} {p q : ℕ} (hf : s.pageFreeList = some p)
    (hlist : s'.pageFreeList = (s.pages p).ppLink)
    (hlink : ∀ r, (s'.pages r).ppLink = if r = p then none else (s.pages r).ppLink)
    (hq : s'.IsFree q) : s.IsFree q := by
  have hcut : (fun r => (s'.pages r).ppLink) =
      Function.update (fun r => (s.pages r).ppLink) p none := by
    funext r
    rw [hlink r]
    by_cases hr : r = p
    · rw [if_pos hr, hr, Function.update_self]
    · rw [if_neg hr, Function.update_of_ne hr]
  rw [Pm.IsFree, hcut, hlist] at hq
  rw [Pm.IsFree, hf]
  exact OnChain.there hq.of_cut

theorem isFree_of_taken {p q : ℕ} (hf : s.pageFreeList = some p)
    (hq : (s.taken p).IsFree q) : s.IsFree q := by
  apply isFree_of_cut hf rfl _ hq
  intro r
  by_cases hr : r = p
  · simp only [Pm.taken, Pm.clear, setLink_pages, if_pos hr]
  · simp only [Pm.taken, Pm.clear, setLink_pages, if_neg hr]

theorem isFree_of_newTable {g i p q : ℕ} (hf : s.pageFreeList = some p)
    (hq : (s.newTable g i p).IsFree q) : s.IsFree q := by
  apply isFree_of_cut hf rfl _ hq
  intro r
  by_cases hr : r = p
  · subst hr
    change (((s.taken r).incRef r).pages r).ppLink = _
    simp only [Pm.incRef, setRef_pages, Pm.taken, Pm.clear, setLink_pages, if_true]
  · rw [newTable_pages_ne hr, if_neg hr]

/-- A page in use stays what it is when another page becomes a table. -/
theorem UserPage.newTable {e : EnvIdx} {g p q : ℕ} {d : PdeIdx} (hq : UserPage s D q)
    (hf : s.pageFreeList = some p) (hm : slotMap (s.newTable g d p) D =
      Function.update (slotMap s D) (.pde e d) (some p)) : UserPage (s.newTable g d p) D q := by
  have hqp : q ≠ p := fun hqp => hq.notFree (by rw [Pm.IsFree, hf, hqp]; exact OnChain.here p)
  refine ⟨hq.bound, hq.kern, fun h => hq.notFree (isFree_of_newTable hf h), fun i hi => ?_⟩
  rw [hm]
  by_cases hid : i = .pde e d
  · rw [hid, Function.update_self]
    exact fun h => hqp (Option.some.inj h).symm
  · rw [Function.update_of_ne hid]
    exact hq.notTable i hi

end PageMaps
end Sisop
