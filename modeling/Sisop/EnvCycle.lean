import Sisop.EnvReclaim
import Sisop.KernelRuns

/-! The life of an environment, seen from the free pages: what `env_alloc`, `page_insert` and
`page_remove` take for it, `env_free` gives back. -/
namespace Sisop

/-- A page is mapped in the address space of `e`, or an address of it is unmapped. -/
inductive MapStep (e : EnvIdx) : Kern → Kern → Prop where
  | fresh {k : Kern} {g p : ℕ} {va perm : Word} {t t' : Pm} (hg : k.dirs e = some g) (hva : va < utop)
      (hperm : perm.toNat < 4096) (ha : pageAlloc k.mem = .ret (some p) t)
      (hi : pageInsert g p va perm t = .ret (.ok ()) t') : MapStep e k { k with mem := t' }
  | again {k : Kern} {g p : ℕ} {va va' perm : Word} {t : Pm} (hg : k.dirs e = some g) (hva : va < utop)
      (hva' : va' < utop) (hperm : perm.toNat < 4096) (hp : k.mem.mappedPage g va' = some p)
      (href : k.mem.refCount p < 65535) (hi : pageInsert g p va perm k.mem = .ret (.ok ()) t) :
      MapStep e k { k with mem := t }
  | remove {k : Kern} {g p : ℕ} {va : Word} {t : Pm} (hg : k.dirs e = some g) (hva : va < utop)
      (hp : k.mem.mappedPage g va = some p) (hr : pageRemove g va k.mem = .ret () t) :
      MapStep e k { k with mem := t }

/-- The pages that were free in `s₀` are free, or in hand, or `e` has them; the other slots are
those of `m₀`. -/
structure OnLoan (s₀ : Pm) (m₀ : Slot → Option ℕ) (D : EnvIdx → Option ℕ) (e : EnvIdx) (hand : Option ℕ)
    (t : Pm) : Prop where
  inv : MemInv t D 0
  others : ∀ i : Slot, ¬ i.OfEnv e → slotMap t D i = m₀ i
  free : ∀ p, s₀.IsFree p ↔ t.IsFree p ∨ hand = some p ∨ ∃ i : Slot, i.OfEnv e ∧ slotMap t D i = some p

section Cycle

variable {s₀ s s' t t' : Pm} {m₀ : Slot → Option ℕ} {D : EnvIdx → Option ℕ} {held : Multiset ℕ} {e : EnvIdx}
  {g p pp q : ℕ} {va perm : Word} {hand : Option ℕ} {k k' : Kern}

theorem MemInv.mappedPage_eq (h : MemInv s D held) (hg : D e = some g) (hd : pdx va < userPdes) :
    s.mappedPage g va = slotMap s D (.pte e (vaPde va hd) (vaPte va)) := by
  by_cases hz : s.word g (pdx va) = 0#32
  · rw [mappedPage_of_no_table hz, slotMap_pte_of_none]
    rw [slotMap_pde hg, show s.word g (vaPde va hd) = 0#32 from hz, target_zero]
  · have hp := h.dir_present hg (vaPde va hd) hz
    rw [mappedPage_of_pte hz]
    by_cases hpte : s.word (pgnum (s.word g (pdx va))) (ptx va) = 0#32
    · rw [if_pos hpte, slotMap_pte hp]
      change none = target (s.word (pgnum (s.word g (pdx va))) (ptx va))
      rw [hpte, target_zero]
    · rw [if_neg hpte]
      exact (h.pte_present hp (vaPte va) hpte).symm

theorem MemInv.refCount_eq_zero (h : MemInv s D 0) (hp : ∀ i, slotMap s D i ≠ some p) : s.refCount p = 0 := by
  rw [h.tally.count, Sisop.refs_eq_zero.mpr hp, Multiset.count_zero]

/-- The directory of `e` is new. -/
theorem OnLoan.start (h : MemInv s D 0) (he : D e = none) (hs : setupDir s = .ret (some g) s') :
    OnLoan s (slotMap s D) (Function.update D e (some g)) e none s' := by
  rcases h.setupDir_cases he with ⟨-, hnone⟩ | ⟨g', hf, hrun, hi, hm⟩
  · rw [hnone] at hs
    cases (Outcome.ret.inj hs).1
  rw [hrun] at hs
  obtain ⟨hgg, rfl⟩ := Outcome.ret.inj hs
  obtain rfl : g' = g := Option.some.inj hgg
  refine ⟨hi, fun i hi => ?_, fun p => ?_⟩
  · rw [hm, Function.update_of_ne]
    rintro rfl
    exact hi rfl
  have hfree : s.IsFree g' := by
    rw [Pm.IsFree, hf]
    exact OnChain.here g'
  have hnew : (s.newDir g').IsFree p ↔ s.IsFree p ∧ g' ≠ p := by
    obtain ⟨l, hl⟩ := h.free
    cases l with
    | nil => exact absurd (hl.chain.symm.trans hf) (by simp)
    | cons q l =>
      obtain rfl : q = g' := Option.some.inj (hl.chain.1.symm.trans hf)
      exact hl.listed.newTable_isFree q uvptPde p
  rw [hnew]
  constructor
  · intro hp
    by_cases hgp : g' = p
    · refine Or.inr (Or.inr ⟨.dir e, rfl, ?_⟩)
      rw [hm, Function.update_self, hgp]
    · exact Or.inl ⟨hp, hgp⟩
  · rintro (⟨hp, -⟩ | hnone | ⟨i, hof, hp⟩)
    · exact hp
    · cases hnone
    · rw [hm] at hp
      by_cases hi : i = .dir e
      · rw [hi, Function.update_self] at hp
        exact Option.some.inj hp ▸ hfree
      · rw [Function.update_of_ne hi] at hp
        cases i with
        | dir e' =>
          obtain rfl : e' = e := hof
          exact absurd rfl hi
        | pde e' d =>
          obtain rfl : e' = e := hof
          simp only [slotMap, he, Option.bind_none, reduceCtorEq] at hp
        | pte e' d t =>
          obtain rfl : e' = e := hof
          simp only [slotMap, he, Option.bind_none, reduceCtorEq] at hp
        | kpde d => exact hof.elim

theorem MemInv.taken_isFree (h : MemInv s D held) (hf : s.pageFreeList = some p) (q : ℕ) :
    (s.taken p).IsFree q ↔ s.IsFree q ∧ p ≠ q := by
  obtain ⟨l, hl⟩ := h.free
  cases l with
  | nil => exact absurd (hl.chain.symm.trans hf) (by simp)
  | cons r l =>
    obtain rfl : r = p := Option.some.inj (hl.chain.1.symm.trans hf)
    exact ((incRef_isFree r q).symm).trans (hl.listed.newTable_isFree r 0 q)

/-- A page is taken in hand. -/
theorem OnLoan.alloc (h : OnLoan s₀ m₀ D e none t) (ha : pageAlloc t = .ret (some p) t') :
    OnLoan s₀ m₀ D e (some p) t' ∧ Fresh t' p := by
  rcases h.inv.pageAlloc_cases with ⟨-, hnone⟩ | ⟨p', hf, hrun, hi, hfr, hm⟩
  · rw [hnone] at ha
    cases (Outcome.ret.inj ha).1
  rw [hrun] at ha
  obtain ⟨hpp, rfl⟩ := Outcome.ret.inj ha
  obtain rfl : p' = p := Option.some.inj hpp
  refine ⟨⟨hi, fun i hof => ?_, fun q => ?_⟩, hfr⟩
  · rw [hm]
    exact h.others i hof
  have hnew := h.inv.taken_isFree hf q
  have hfree : t.IsFree p' := by
    rw [Pm.IsFree, hf]
    exact OnChain.here p'
  rw [h.free, hnew, hm, Option.some.injEq]
  constructor
  · rintro (hq | hnone | hslot)
    · by_cases hpq : p' = q
      · exact Or.inr (Or.inl hpq)
      · exact Or.inl ⟨hq, hpq⟩
    · cases hnone
    · exact Or.inr (Or.inr hslot)
  · rintro (⟨hq, -⟩ | rfl | hslot)
    · exact Or.inl hq
    · exact Or.inl hfree
    · exact Or.inr (Or.inr hslot)

/-- No slot of `e`, and none of the others, refers to the page any more. -/
theorem MemInv.refCount_eq_zero_of_others (h : MemInv t' D 0) (hothers : ∀ i : Slot, ¬ i.OfEnv e → slotMap t' D i = m₀ i)
    (h0 : ∀ i : Slot, ¬ i.OfEnv e → m₀ i ≠ some p) (hno : ¬ ∃ i : Slot, i.OfEnv e ∧ slotMap t' D i = some p) :
    t'.refCount p = 0 := by
  apply h.refCount_eq_zero
  intro i hi
  by_cases hof : i.OfEnv e
  · exact hno ⟨i, hof, hi⟩
  · rw [hothers i hof] at hi
    exact h0 i hof hi

/-- The page in hand, or one that `e` has already, is mapped. -/
theorem OnLoan.insert (h : OnLoan s₀ m₀ D e hand t) (h0 : ∀ p, s₀.IsFree p → ∀ i : Slot, ¬ i.OfEnv e → m₀ i ≠ some p)
    (hg : D e = some g) (hva : va < utop) (hperm : perm.toNat < 4096) (hpp : UserPage t D pp)
    (href : t.refCount pp < 65535) (hr : pageInsert g pp va perm t = .ret (.ok ()) t')
    (hhand : hand = some pp ∨ hand = none ∧ ∃ i : Slot, i.OfEnv e ∧ slotMap t D i = some pp) :
    OnLoan s₀ m₀ D e none t' := by
  have hd := pdx_lt_of_utop hva
  obtain ⟨l, hl⟩ := h.inv.free
  have hI : Inserted t g pp va perm t' := by
    rcases (h.inv.userDir hg).pageInsert_effect hl.listed h.inv.npages_le hpp.notFree href hd with
      ⟨t'', hr', hI⟩ | ⟨herr, -⟩
    · rw [hr'] at hr
      rwa [(Outcome.ret.inj hr).2] at hI
    · rw [herr] at hr
      cases (Outcome.ret.inj hr).1
  have hne : (t.pages pp).ppRef ≠ 65535#16 := by
    intro heq
    rw [Pm.refCount, heq] at href
    exact absurd href (by decide)
  obtain ⟨hinv, m, hm, hcases⟩ := h.inv.pageInsert_slots hg hd hpp hne hperm hr
  have hmap := h.inv.mappedPage_eq hg hd
  generalize hpte : Slot.pte e (vaPde va hd) (vaPte va) = pte at hm hmap
  have hpteof : pte.OfEnv e := by
    rw [← hpte]
    rfl
  -- the slots that were taken stay so, and a new table was free
  have hkeep (i : Slot) (r : ℕ) (hi : i ≠ pte) (hr : slotMap t D i = some r) : slotMap t' D i = some r := by
    rw [hm, Function.update_of_ne hi]
    rcases hcases with ⟨-, rfl⟩ | ⟨hz, q, -, rfl⟩
    · exact hr
    · rw [Function.update_of_ne]
      · exact hr
      · rintro rfl
        rw [slotMap_pde hg, show t.word g (vaPde va hd) = 0#32 from hz, target_zero] at hr
        cases hr
  have htaken (r : ℕ) (hr : t.tableTaken g va = some r) :
      t.IsFree r ∧ slotMap t' D (.pde e (vaPde va hd)) = some r := by
    refine ⟨(hI.table r hr).1, ?_⟩
    rcases hcases with ⟨hz, -⟩ | ⟨hz, q, hq, rfl⟩
    · rw [Pm.tableTaken, if_neg hz] at hr
      cases hr
    · rw [Pm.tableTaken, if_pos hz, hq] at hr
      rw [hm, Function.update_of_ne (by rw [← hpte]; simp), Function.update_self, hr]
  have hnew (i : Slot) (r : ℕ) (hr : slotMap t' D i = some r) :
      r = pp ∨ t.IsFree r ∨ slotMap t D i = some r := by
    rw [hm] at hr
    by_cases hi : i = pte
    · rw [hi, Function.update_self] at hr
      exact Or.inl (Option.some.inj hr).symm
    rw [Function.update_of_ne hi] at hr
    rcases hcases with ⟨-, rfl⟩ | ⟨hz, q, hq, rfl⟩
    · exact Or.inr (Or.inr hr)
    · by_cases hid : i = .pde e (vaPde va hd)
      · rw [hid, Function.update_self] at hr
        refine Or.inr (Or.inl ?_)
        rw [Pm.IsFree, hq, ← Option.some.inj hr]
        exact OnChain.here q
      · rw [Function.update_of_ne hid] at hr
        exact Or.inr (Or.inr hr)
  have hothers (i : Slot) (hi : ¬ i.OfEnv e) : slotMap t' D i = m₀ i := by
    have hip : i ≠ pte := fun heq => hi (heq ▸ hpteof)
    rw [← h.others i hi, hm, Function.update_of_ne hip]
    rcases hcases with ⟨-, rfl⟩ | ⟨-, q, -, rfl⟩
    · rfl
    · apply Function.update_of_ne
      rintro rfl
      exact hi rfl
  refine ⟨hinv, hothers, fun p => ?_⟩
  have hpp' : slotMap t' D pte = some pp := by rw [hm, Function.update_self]
  constructor
  · intro hp
    rcases (h.free p).mp hp with hfree | hhp | ⟨i, hof, hi⟩
    · by_cases hT : t.tableTaken g va = some p
      · exact Or.inr (Or.inr ⟨.pde e (vaPde va hd), rfl, (htaken p hT).2⟩)
      · exact Or.inl ((hI.free p).mpr (Or.inl ⟨hfree, hT⟩))
    · rcases hhand with hhpp | ⟨hnone, -⟩
      · obtain rfl : pp = p := Option.some.inj (hhpp.symm.trans hhp)
        exact Or.inr (Or.inr ⟨pte, hpteof, hpp'⟩)
      · rw [hnone] at hhp
        cases hhp
    · by_cases hip : i = pte
      · by_cases hsome : ∃ j : Slot, j.OfEnv e ∧ slotMap t' D j = some p
        · exact Or.inr (Or.inr hsome)
        · have hz := hinv.refCount_eq_zero_of_others hothers (h0 p hp) hsome
          exact Or.inl ((hI.free p).mpr (Or.inr ⟨hmap.trans (hip ▸ hi), hz⟩))
      · exact Or.inr (Or.inr ⟨i, hof, hkeep i p hip hi⟩)
  · rintro (hp | hnone | ⟨i, hof, hi⟩)
    · rcases (hI.free p).mp hp with ⟨hfree, -⟩ | ⟨hM, -⟩
      · exact (h.free p).mpr (Or.inl hfree)
      · exact (h.free p).mpr (Or.inr (Or.inr ⟨pte, hpteof, hmap.symm.trans hM⟩))
    · cases hnone
    · rcases hnew i p hi with rfl | hfree | hold
      · rcases hhand with hhpp | ⟨-, hslot⟩
        · exact (h.free p).mpr (Or.inr (Or.inl hhpp))
        · exact (h.free p).mpr (Or.inr (Or.inr hslot))
      · exact (h.free p).mpr (Or.inl hfree)
      · exact (h.free p).mpr (Or.inr (Or.inr ⟨i, hof, hold⟩))

/-- A mapped address is unmapped. -/
theorem OnLoan.remove (h : OnLoan s₀ m₀ D e none t) (h0 : ∀ p, s₀.IsFree p → ∀ i : Slot, ¬ i.OfEnv e → m₀ i ≠ some p)
    (hg : D e = some g) (hva : va < utop) (hp : t.mappedPage g va = some q)
    (hr : pageRemove g va t = .ret () t') : OnLoan s₀ m₀ D e none t' := by
  have hd := pdx_lt_of_utop hva
  have hslot := (h.inv.mappedPage_eq hg hd).symm.trans hp
  obtain ⟨p, htab⟩ : ∃ p, slotMap t D (.pde e (vaPde va hd)) = some p := by
    cases htab : slotMap t D (.pde e (vaPde va hd)) with
    | none =>
      rw [slotMap_pte_of_none htab] at hslot
      cases hslot
    | some p => exact ⟨p, rfl⟩
  rw [h.inv.pageRemove_run hg hd htab hslot] at hr
  obtain ⟨-, rfl⟩ := Outcome.ret.inj hr
  have hun := h.inv.unlinkPte htab hslot
  have hm := h.inv.slotMap_pageRemove htab (vaPte va) q
  have hset : ∀ j : Slot, ¬ j.OfEnv e → slotMap (t.setWord p (ptx va) 0#32) D j = slotMap t D j := by
    intro j hj
    have hset := congrFun (slotMap_setWord_pte h.inv.apart htab (vaPte va) 0#32) j
    rwa [Function.update_of_ne] at hset
    rintro rfl
    exact hj rfl
  have hshed : Shed D e t _ := (Shed.setWord hset).trans (Shed.decRef hun D e)
  have hothers (i : Slot) (hi : ¬ i.OfEnv e) := (hshed.others i hi).trans (h.others i hi)
  refine ⟨hun.decRef, hothers, fun r => ?_⟩
  have hold (i : Slot) (hi : slotMap ((t.setWord p (ptx va) 0#32).decRef q) D i = some r) :
      slotMap t D i = some r := by
    have hmi : slotMap ((t.setWord p (ptx va) 0#32).decRef q) D i = _ := congrFun hm i
    rw [hmi] at hi
    by_cases hip : i = .pte e (vaPde va hd) (vaPte va)
    · rw [hip, Function.update_self] at hi
      cases hi
    · rwa [Function.update_of_ne hip] at hi
  constructor
  · intro hfree
    rcases (h.free r).mp hfree with hf | hnone | ⟨i, hof, hi⟩
    · exact Or.inl ((hshed.free r).mpr (Or.inl hf))
    · cases hnone
    · by_cases hsome : ∃ j : Slot, j.OfEnv e ∧ slotMap ((t.setWord p (ptx va) 0#32).decRef q) D j = some r
      · exact Or.inr (Or.inr hsome)
      · have hz := hun.decRef.refCount_eq_zero_of_others hothers (h0 r hfree) hsome
        exact Or.inl ((hshed.free r).mpr (Or.inr ⟨h.inv.tally.ref_pos hi, hz⟩))
  · rintro (hf | hnone | ⟨i, hof, hi⟩)
    · rcases (hshed.free r).mp hf with hf | ⟨hpos, hz⟩
      · exact (h.free r).mpr (Or.inl hf)
      · -- the page had a reference, which was not one of the others
        rw [h.inv.tally.count, Multiset.count_zero, Nat.add_zero] at hpos
        obtain ⟨i, hi⟩ := exists_of_card_filter_pos hpos
        by_cases hof : i.OfEnv e
        · exact (h.free r).mpr (Or.inr (Or.inr ⟨i, hof, hi⟩))
        · have hpos' := hun.decRef.tally.ref_pos ((hshed.others i hof).trans hi)
          omega
    · cases hnone
    · exact (h.free r).mpr (Or.inr (Or.inr ⟨i, hof, hold i hi⟩))

/-- The directories stay, and so does the account of the pages. -/
theorem MapStep.onLoan (hs : MapStep e k k') (h0 : ∀ p, s₀.IsFree p → ∀ i : Slot, ¬ i.OfEnv e → m₀ i ≠ some p)
    (hD : k.dirs = D) (h : OnLoan s₀ m₀ D e none k.mem) : k'.dirs = D ∧ OnLoan s₀ m₀ D e none k'.mem := by
  subst hD
  cases hs with
  | fresh hg hva hperm ha hi =>
    obtain ⟨hl, hfr⟩ := h.alloc ha
    have hz := hfr.zero
    exact ⟨rfl, hl.insert h0 hg hva hperm (hl.inv.userPage_of_fresh hfr) (by rw [Pm.refCount, hz]; decide) hi
      (Or.inl rfl)⟩
  | again hg hva hva' hperm hp href hi =>
    have hslot := (h.inv.mappedPage_eq hg (pdx_lt_of_utop hva')).symm.trans hp
    exact ⟨rfl, h.insert h0 hg hva hperm (h.inv.userPage_of_pte hslot) href hi (Or.inr ⟨rfl, .pte e _ _, rfl, hslot⟩)⟩
  | remove hg hva hp hr => exact ⟨rfl, h.remove h0 hg hva hp hr⟩

theorem OnLoan.run (h0 : ∀ p, s₀.IsFree p → ∀ i : Slot, ¬ i.OfEnv e → m₀ i ≠ some p) (hD : k.dirs = D)
    (h : OnLoan s₀ m₀ D e none k.mem) (hr : Relation.ReflTransGen (MapStep e) k k') :
    k'.dirs = D ∧ OnLoan s₀ m₀ D e none k'.mem := by
  induction hr with
  | refl => exact ⟨hD, h⟩
  | tail _ hs ih => exact hs.onLoan h0 ih.1 ih.2

/-- What is free after `env_free(e)`: what was free, and what `e` alone had. -/
theorem Reclaimed.isFree_iff (h : Reclaimed k e g k') (hinv : MemInv k.mem k.dirs 0) (hg : k.dirs e = some g) :
    k'.mem.IsFree p ↔ k.mem.IsFree p ∨ (∃ i : Slot, i.OfEnv e ∧ slotMap k.mem k.dirs i = some p) ∧
      ∀ i : Slot, ¬ i.OfEnv e → slotMap k.mem k.dirs i ≠ some p := by
  rw [h.free]
  apply or_congr_right
  by_cases htab : k.mem.TableOf g p
  · obtain ⟨i, hi, ht, hslot⟩ := hinv.tableOf_slot hg htab
    have hof : i.OfEnv e := by
      rcases hi with rfl | ⟨d, rfl⟩
      · rfl
      · rfl
    refine iff_of_true (Or.inl htab) ⟨⟨i, hof, hslot⟩, fun j hj hslot' => ?_⟩
    exact hj (hinv.tally.slot_unique ht hslot hslot' ▸ hof)
  · rw [or_iff_right htab]
    -- the references to `p` are the mappings of `e` and those of the others
    have hmine : refs (fun i : Slot => if i.OfEnv e then slotMap k.mem k.dirs i else none) p =
        userMappings k.mem k.dirs e p := by
      apply refs_ofEnv k.dirs
      · intro hd
        rw [show slotMap k.mem k.dirs (.dir e) = some g from hg] at hd
        exact htab (Or.inl (Option.some.inj hd).symm)
      · intro d hd
        rw [slotMap_pde hg] at hd
        obtain ⟨hpres, hpn⟩ := target_eq_some hd
        exact htab (Or.inr ⟨d, d.isLt, ne_zero_of_has_pteP hpres, hpn⟩)
    have hsplit := refs_split (Slot.OfEnv e) (slotMap k.mem k.dirs) p
    have hcount : k.mem.refCount p = refs (slotMap k.mem k.dirs) p := by
      rw [hinv.tally.count, Multiset.count_zero, Nat.add_zero]
    rw [hcount, ← hsplit, hmine]
    apply and_congr
    · rw [← hmine]
      constructor
      · intro hpos
        obtain ⟨i, hi⟩ := exists_of_card_filter_pos hpos
        dsimp only at hi
        split_ifs at hi with hof
        exact ⟨i, hof, hi⟩
      · rintro ⟨i, hof, hi⟩
        exact refs_pos_of ((if_pos hof).trans hi)
    · rw [Nat.add_eq_left, Sisop.refs_eq_zero]
      apply forall_congr'
      intro i
      by_cases hof : i.OfEnv e
      · simp [hof]
      · simp [hof]

/-- `env_free` gives back what was taken for the environment since the state `s₀`. -/
theorem OnLoan.finish (h0 : ∀ p, s₀.IsFree p → ∀ i : Slot, ¬ i.OfEnv e → m₀ i ≠ some p)
    (h : OnLoan s₀ m₀ k.dirs e none k.mem) (hr : Reclaimed k e g k') (hg : k.dirs e = some g) :
    k'.mem.IsFree p ↔ s₀.IsFree p := by
  rw [hr.isFree_iff h.inv hg, h.free]
  apply or_congr_right
  constructor
  · exact fun hp => Or.inr hp.1
  · rintro (hnone | hp)
    · cases hnone
    refine ⟨hp, fun i hi => ?_⟩
    rw [h.others i hi]
    exact h0 p ((h.free p).mpr (Or.inr (Or.inr hp))) i hi

/-- From `env_alloc` over mappings and unmappings to `env_free`, for the free pages. -/
theorem envCycle_run {k₁ k₂ : Kern} {parentId : Word} (h : MemOk k) (ha : envAlloc parentId k = .ret (.ok e) k₁)
    (hr : Relation.ReflTransGen (MapStep e) k₁ k₂) :
    ∃ k₃, envFree e k₂ = .ret () k₃ ∧ ∀ p, k₃.mem.IsFree p ↔ k.mem.IsFree p := by
  rcases envAlloc_ret ha with ⟨err, herr, -⟩ | ⟨e', g, t, he, hf, ht, rfl⟩
  · cases herr
  obtain rfl : e = e' := Except.ok.inj he
  have hnone : k.dirs e = none := by
    obtain ⟨l, hc, -, hd⟩ := h.free
    apply hd
    exact (hc.onChain_iff e).mp (hf ▸ OnChain.here e)
  have h0 (p : ℕ) (hp : k.mem.IsFree p) (i : Slot) (_ : ¬ i.OfEnv e) : slotMap k.mem k.dirs i ≠ some p :=
    fun hi => h.inv.not_isFree_of_slot hi hp
  have hdirs : (k.alloced e parentId g t).dirs = Function.update k.dirs e (some g) := by
    funext i
    rw [alloced_dirs, Function.update_apply]
  obtain ⟨hD, hl⟩ := OnLoan.run h0 hdirs (OnLoan.start h.inv hnone ht) hr
  have hg : k₂.dirs e = some g := by rw [hD, Function.update_self]
  rw [← hD] at hl
  obtain ⟨k₃, hrun, hrec⟩ := hl.inv.reclaimed hg
  exact ⟨k₃, hrun, fun p => OnLoan.finish h0 hl hrec hg⟩

/-- `env_free` leaks nothing: it gives back exactly what the environment had, and what was free
before `env_alloc` is free again. -/
theorem env_free_leaks_nothing :
    (∀ (k : Kern) (e : EnvIdx) (g : ℕ), MemInv k.mem k.dirs 0 → k.dirs e = some g →
      ∃ k', envFree e k = .ret () k' ∧ Reclaimed k e g k') ∧
    ∀ (k k₁ k₂ : Kern) (e : EnvIdx) (parentId : Word), MemOk k → envAlloc parentId k = .ret (.ok e) k₁ →
      Relation.ReflTransGen (MapStep e) k₁ k₂ →
      ∃ k₃, envFree e k₂ = .ret () k₃ ∧ ∀ p, k₃.mem.IsFree p ↔ k.mem.IsFree p :=
  ⟨fun _ _ _ h hg => h.reclaimed hg, fun _ _ _ _ _ h ha hr => envCycle_run h ha hr⟩

/-- An environment of the booted machine gets a page, and is freed. -/
theorem env_free_leaks_nothing_first : ∃ k k₁ k₂ k₃ : Kern, envAlloc 0#32 k = .ret (.ok 0) k₁ ∧
    MapStep 0 k₁ k₂ ∧ envFree 0 k₂ = .ret () k₃ ∧ ∀ p, k₃.mem.IsFree p ↔ k.mem.IsFree p := by
  obtain ⟨s, hm, hn, -⟩ := machine64_bootMem
  obtain ⟨g, hdir, hi, hsup, hbare⟩ := hm.memInv.setupDir_run (e := 0) rfl hn
  have halloc : envAlloc 0#32 (envInit (afterMemInit s)) =
      .ret (.ok 0) ((envInit (afterMemInit s)).alloced 0 0#32 g (s.newDir g)) := envAlloc_run rfl hdir
  have hd : pdx 0x800000#32 < userPdes := by decide
  obtain ⟨p, q, s', ha, hins, -, -, hnew⟩ := @MemInv.mapNew_run _ _ _ 0 g 7 0x800000#32 pteP hi
    (Function.update_self _ _ _) hd (by decide) (hbare _ hd) (hsup.mono (by decide))
  have hstep : MapStep 0 ((envInit (afterMemInit s)).alloced 0 0#32 g (s.newDir g))
      { (envInit (afterMemInit s)).alloced 0 0#32 g (s.newDir g) with mem := s' } :=
    .fresh ((alloced_dirs 0#32 g _ 0).trans (if_pos rfl)) (by decide) (by decide) ha hins
  obtain ⟨k₃, hfree, hp⟩ := env_free_leaks_nothing.2 _ _ _ _ _ (memOk_envInit hm) halloc
    (Relation.ReflTransGen.single hstep)
  exact ⟨_, _, _, k₃, halloc, hstep, hfree, hp⟩

end Cycle
end Sisop
