import Mathlib.Data.Fintype.Prod
import Sisop.InsertEffect

/-! What `env_free` gives back: exact counts for the pages an environment had mapped, and
its page tables and page directory. Nothing else changes. -/
namespace Sisop

/-- The slots of the address space of `e`. -/
def Slot.OfEnv (e : EnvIdx) : Slot → Prop
  | .dir e' => e' = e
  | .pde e' _ => e' = e
  | .pte e' _ _ => e' = e
  | .kpde _ => False

instance (e : EnvIdx) (i : Slot) : Decidable (i.OfEnv e) := by
  cases i <;> unfold Slot.OfEnv <;> infer_instance

/-- The number of user page-table entries of `e` that map the page `p`. -/
def userMappings (s : Pm) (D : EnvIdx → Option ℕ) (e : EnvIdx) (p : ℕ) : ℕ :=
  ((Finset.univ : Finset (PdeIdx × PteIdx)).filter fun i => slotMap s D (.pte e i.1 i.2) = some p).card

/-- What a part of `env_free(e)` does: the slots of the others stay, counters sink, and the
pages whose counter reaches 0 are freed. -/
structure Shed (D : EnvIdx → Option ℕ) (e : EnvIdx) (s t : Pm) : Prop where
  others : ∀ i : Slot, ¬ i.OfEnv e → slotMap t D i = slotMap s D i
  le : ∀ p, t.refCount p ≤ s.refCount p
  free : ∀ p, t.IsFree p ↔ s.IsFree p ∨ 0 < s.refCount p ∧ t.refCount p = 0
  kern : t.kernPgdir = s.kernPgdir

/-- What `env_free(e)` has made of the kernel when `g` was the page directory of `e`. -/
structure Reclaimed (k : Kern) (e : EnvIdx) (g : ℕ) (k' : Kern) : Prop where
  counts : ∀ p, ¬ k.mem.TableOf g p → k'.mem.refCount p + userMappings k.mem k.dirs e p = k.mem.refCount p
  tables : ∀ p, k.mem.TableOf g p → k'.mem.IsFree p ∧ k'.mem.refCount p = 0
  mapped : ∀ p, 0 < userMappings k.mem k.dirs e p →
    (k'.mem.IsFree p ↔ k.mem.refCount p = userMappings k.mem k.dirs e p)
  free : ∀ p, k'.mem.IsFree p ↔ k.mem.IsFree p ∨ k.mem.TableOf g p ∨
    0 < userMappings k.mem k.dirs e p ∧ k.mem.refCount p = userMappings k.mem k.dirs e p
  listed : ∃ l, FreeList k'.mem l
  words : ∀ p, ¬ k.mem.TableOf g p → k'.mem.word p = k.mem.word p
  upper : ∀ d, userPdes ≤ d → k'.mem.word g d = k.mem.word g d
  others : ∀ e', e' ≠ e → k'.envs e' = k.envs e'
  status : k'.status e = .free
  dir : k'.dirs e = none
  head : k'.envFreeList = some e
  link : (k'.envs e).envLink = k.envFreeList

section Shed

variable {s s' t t' : Pm} {D : EnvIdx → Option ℕ} {held : Multiset ℕ} {e : EnvIdx} {g p q i : ℕ} {va w : Word}
  {d : PdeIdx}

theorem Shed.refl (D : EnvIdx → Option ℕ) (e : EnvIdx) (s : Pm) : Shed D e s s :=
  ⟨fun _ _ => rfl, fun _ => le_rfl, fun p => ⟨Or.inl, fun h => h.resolve_right fun hz => by omega⟩, rfl⟩

theorem Shed.trans (h : Shed D e s t) (h' : Shed D e t t') : Shed D e s t' := by
  refine ⟨fun i hi => (h'.others i hi).trans (h.others i hi), fun p => (h'.le p).trans (h.le p), fun p => ?_,
    h'.kern.trans h.kern⟩
  have hle := h.le p
  have hle' := h'.le p
  rw [h'.free, h.free, or_assoc]
  apply or_congr_right
  constructor
  · rintro (⟨hpos, hz⟩ | ⟨hpos, hz⟩)
    · exact ⟨hpos, by omega⟩
    · exact ⟨by omega, hz⟩
  · rintro ⟨hpos, hz⟩
    by_cases ht : t.refCount p = 0
    · exact Or.inl ⟨hpos, ht⟩
    · exact Or.inr ⟨Nat.pos_of_ne_zero ht, hz⟩

/-- A write changes neither counters nor the free list. -/
theorem Shed.setWord (h : ∀ j : Slot, ¬ j.OfEnv e → slotMap (s.setWord p i w) D j = slotMap s D j) :
    Shed D e s (s.setWord p i w) :=
  ⟨h, fun _ => le_rfl, fun r => ⟨Or.inl, fun hr => hr.resolve_right fun hz => by
    change 0 < s.refCount r ∧ s.refCount r = 0 at hz
    omega⟩, rfl⟩

theorem MemInv.ref_pos_of_held (h : MemInv s D (q ::ₘ held)) : 1 ≤ s.refCount q := by
  rw [h.tally.count, Multiset.count_cons_self]
  omega

/-- Giving up a reference in hand. -/
theorem Shed.decRef {D' : EnvIdx → Option ℕ} (h : MemInv s D' (q ::ₘ held)) (D : EnvIdx → Option ℕ) (e : EnvIdx) :
    Shed D e s (s.decRef q) := by
  obtain ⟨l, hl⟩ := h.free
  have hpos := h.ref_pos_of_held
  have hb := (h.heldOk q (Multiset.mem_cons_self q held)).1
  have hcount := decRef_refCount_pred hpos
  refine ⟨fun i _ => congrFun (slotMap_decRef s q) i, fun p => ?_, fun p => ?_, decRef_kernPgdir s q⟩
  · rw [hcount, Function.update_apply]
    split_ifs with hp
    · rw [hp]
      exact Nat.sub_le _ _
    · exact le_rfl
  · rw [hl.listed.decRef_isFree hpos hb]
    apply or_congr_right
    constructor
    · rintro ⟨rfl, hz⟩
      exact ⟨hpos, hz⟩
    · rintro ⟨hp, hz⟩
      refine ⟨?_, hz⟩
      by_contra hpq
      rw [hcount, Function.update_of_ne hpq] at hz
      omega

/-- `page_remove` of a mapped user address returns. -/
theorem MemInv.pageRemove_run (h : MemInv s D held) (hg : D e = some g) (hd : pdx va < userPdes)
    (hp : slotMap s D (.pde e (vaPde va hd)) = some p)
    (hq : slotMap s D (.pte e (vaPde va hd) (vaPte va)) = some q) :
    pageRemove g va s = .ret () ((s.setWord p (ptx va) 0#32).decRef q) := by
  have hp' := hp
  have hq' := hq
  rw [slotMap_pde hg] at hp'
  rw [slotMap_pte hp] at hq'
  obtain ⟨hpde, rfl⟩ := target_eq_some hp'
  obtain ⟨-, rfl⟩ := target_eq_some hq'
  have hw : pgdirWalk g va false s = _ := pgdirWalk_table (ne_zero_of_has_pteP hpde) (h.bound _ _ hp)
  have hl := pageLookup_table hw (h.bound _ _ hq)
  rw [Sisop.pageRemove_run hl (h.unlinked hq)]
  exact congrArg _ (decRef_setWord _ _ _ _ _)

/-- One round of the inner loop of `env_free`, which unmaps what the entry maps. -/
theorem TableSwept.shed {j : ℕ} (hg : D e = some g) (hj : j < 1024) (h : TableSwept D held e d p j s) :
    ∃ s', (if has (s.word p j) pteP then pageRemove g (pgaddr d j 0) else pure ()) s = .ret () s' ∧
      Shed D e s s' := by
  by_cases hp : has (s.word p j) pteP
  · have hd1024 : d.val < 1024 := lt_trans d.isLt (by decide)
    have hd : pdx (pgaddr d j 0) = d := pdx_pgaddr hd1024 hj
    have hj' : ptx (pgaddr d j 0) = j := ptx_pgaddr hd1024 hj
    have hd' : pdx (pgaddr d j 0) < userPdes := by
      rw [hd]
      exact d.isLt
    have hpd : vaPde (pgaddr d j 0) hd' = d := Fin.ext hd
    have hpt : vaPte (pgaddr d j 0) = ⟨j, hj⟩ := Fin.ext hj'
    have hq : slotMap s D (.pte e d ⟨j, hj⟩) = some (pgnum (s.word p j)) := by
      rw [slotMap_pte h.table]
      exact target_of_has hp
    have hrun := h.inv.pageRemove_run hg hd' (hpd ▸ h.table) (by rw [hpd, hpt]; exact hq)
    rw [hj'] at hrun
    refine ⟨_, by rw [if_pos hp]; exact hrun, ?_⟩
    have hun := h.inv.unlinkPte h.table hq
    refine (Shed.setWord fun k hk => ?_).trans (Shed.decRef hun D e)
    rw [slotMap_setWord_pte h.inv.apart h.table ⟨j, hj⟩, Function.update_of_ne]
    rintro rfl
    exact hk rfl
  · exact ⟨s, by rw [if_neg hp]; rfl, .refl D e s⟩

/-- The body of the outer loop of `env_free` returns. -/
theorem MemInv.freeTable_shed (h : MemInv s D held) (hg : D e = some g) (d : PdeIdx) :
    ∃ s', freeTable g d s = .ret () s' ∧ Shed D e s s' := by
  simp only [freeTable, Routine.gets_bind_run]
  by_cases hpde : has (s.word g d) pteP
  swap
  · exact ⟨s, by rw [if_neg hpde]; rfl, .refl D e s⟩
  rw [if_pos hpde]
  have htab : slotMap s D (.pde e d) = some (pgnum (s.word g d)) := by
    rw [slotMap_pde hg, target_of_has hpde]
  generalize hp : pgnum (s.word g d) = p at htab
  have hb := h.bound _ _ htab
  have hk : kaddr (pteAddr (s.word g d)) s = .ret p s := by
    simp only [kaddr, pgnum_pteAddr, hp, if_pos hb]
  obtain ⟨s₁, hloop, hsw, hshed⟩ : ∃ s₁, Routine.loop nptentries (fun j => do
      let pte ← Routine.gets fun s => s.word p j
      if has pte pteP then pageRemove g (pgaddr d j 0) else pure ()) s = .ret () s₁ ∧
      TableSwept D held e d p nptentries s₁ ∧ Shed D e s s₁ := Routine.loop_total
    (fun j t => TableSwept D held e d p j t ∧ Shed D e s t) nptentries
    ⟨⟨h, htab, fun t ht => absurd ht (Nat.not_lt_zero _)⟩, .refl D e s⟩
    (fun j t hj hpre => by
      obtain ⟨hts, hst⟩ := hpre
      obtain ⟨t', hr, ht'⟩ := hts.shed hg hj
      exact ⟨t', hr, (hts.next hg hj hr).1, hst.trans ht'⟩)
  have hempty : ∀ t, slotMap s₁ D (.pte e d t) = none := fun t => hsw.swept t t.isLt
  have hun := hsw.inv.unlinkPde hg hsw.table hempty
  have hm := slotMap_setWord_pde hsw.inv.apart hg d 0#32 hempty (by simp [target_zero]) (by simp [target_zero])
  have hn : p < (s₁.setWord g d 0#32).npages := hsw.inv.bound _ _ hsw.table
  have hpa : pa2page (pteAddr (s.word g d)) (s₁.setWord g d 0#32) = .ret p (s₁.setWord g d 0#32) := by
    simp only [pa2page, pgnum_pteAddr, hp, if_pos hn]
  have hlink : ((s₁.setWord g d 0#32).pages p).ppLink = none := hsw.inv.unlinked hsw.table
  refine ⟨(s₁.setWord g d 0#32).decRef p, ?_, hshed.trans ((Shed.setWord fun k hk => ?_).trans (Shed.decRef hun D e))⟩
  · rw [Routine.bind_ret hk, Routine.bind_ret hloop, Routine.modify_bind_run, Routine.bind_ret hpa]
    exact pageDecref_run hlink
  · rw [hm, Function.update_of_ne]
    rintro rfl
    exact hk rfl

/-- The loops of `env_free` return. -/
theorem MemInv.freeTables_shed (h : MemInv s D held) (hg : D e = some g) :
    ∃ s', Routine.loop userPdes (fun pdeno => freeTable g pdeno) s = .ret () s' ∧ Shed D e s s' := by
  obtain ⟨s', hr, -, hs⟩ := Routine.loop_total (fun _ t => MemInv t D held ∧ Shed D e s t) userPdes
    ⟨h, .refl D e s⟩ (fun i t hi hpre => by
      obtain ⟨ht, hst⟩ := hpre
      obtain ⟨t', hr, ht'⟩ := ht.freeTable_shed hg ⟨i, hi⟩
      exact ⟨t', hr, (@MemInv.freeTable_keep t t' D held e g ⟨i, hi⟩ ht hg hr).1, hst.trans ht'⟩)
  exact ⟨s', hr, hs⟩

/-- `env_free` returns. Its loops have emptied the user part of the directory. -/
theorem MemInv.envFree_run {k : Kern} (h : MemInv k.mem k.dirs 0) (hg : k.dirs e = some g) :
    ∃ s, Routine.loop userPdes (fun pdeno => freeTable g pdeno) k.mem = .ret () s ∧ Shed k.dirs e k.mem s ∧
      MemInv s k.dirs 0 ∧ MemInv s (Function.update k.dirs e none) (g ::ₘ 0) ∧
      slotMap s (Function.update k.dirs e none) = Function.update (slotMap s k.dirs) (.dir e) none ∧
      (∀ d, slotMap s k.dirs (.pde e d) = none) ∧ envFree e k = .ret () (k.freed e (s.decRef g)) := by
  obtain ⟨s, hloop, hshed⟩ := h.freeTables_shed hg
  obtain ⟨hs, hempty⟩ := h.freeTables_keep hg hloop
  have hlink : (s.pages g).ppLink = none := hs.unlinked (show slotMap s k.dirs (.dir e) = some g from hg)
  refine ⟨s, hloop, hshed, hs, hs.unlinkDir hg hempty, @slotMap_update_dir s k.dirs e none hempty (by simp), hempty, ?_⟩
  have hloop' := mem_ret (k := k) hloop
  have hdec := mem_ret (k := { k.setEnv e fun env => { env with envPgdir := none } with mem := s })
    (pageDecref_run hlink)
  simp only [envFree, Routine.bind_ret (envPgdir_run hg), Routine.bind_ret hloop', Routine.modify_bind_run]
  change (mem (pageDecref g) >>= _) { k.setEnv e fun env => { env with envPgdir := none } with mem := s } = _
  rw [Routine.bind_ret hdec]
  simp only [Routine.modify_bind_run, Routine.modify_run, Kern.freed, Kern.setStatus, Kern.setEnv,
    Function.update_idem, Function.update_self]

/-- The references of `e` to a page that is none of its tables. -/
theorem refs_ofEnv (D : EnvIdx → Option ℕ) (hdir : slotMap s D (.dir e) ≠ some p)
    (hpde : ∀ d, slotMap s D (.pde e d) ≠ some p) :
    refs (fun i : Slot => if i.OfEnv e then slotMap s D i else none) p = userMappings s D e p := by
  apply card_filter_of_range (fun i : PdeIdx × PteIdx => Slot.pte e i.1 i.2)
  · intro i j hij
    obtain ⟨-, h1, h2⟩ := Slot.pte.inj hij
    exact Prod.ext h1 h2
  · intro i
    dsimp only
    rw [if_pos (show (Slot.pte e i.1 i.2).OfEnv e from rfl)]
  · intro i hi
    dsimp only at hi
    split_ifs at hi with hof
    cases i with
    | dir e' =>
      obtain rfl : e' = e := hof
      exact absurd hi hdir
    | pde e' d =>
      obtain rfl : e' = e := hof
      exact absurd hi (hpde d)
    | pte e' d t =>
      obtain rfl : e' = e := hof
      exact ⟨(d, t), rfl⟩
    | kpde d => exact hof.elim

/-- `env_free` gives back what the environment had, and nothing else. -/
theorem MemInv.reclaimed {k : Kern} (h : MemInv k.mem k.dirs 0) (hg : k.dirs e = some g) :
    ∃ k', envFree e k = .ret () k' ∧ Reclaimed k e g k' := by
  obtain ⟨s, hloop, hshed, hs, hun, hm, hempty, hrun⟩ := h.envFree_run hg
  have ht := hun.decRef
  have hshed' := hshed.trans (Shed.decRef hun k.dirs e)
  have hslots (i : Slot) : slotMap (s.decRef g) (Function.update k.dirs e none) i =
      if i.OfEnv e then none else slotMap k.mem k.dirs i := by
    rw [slotMap_decRef, hm]
    by_cases hi : i = .dir e
    · rw [hi, Function.update_self]
      exact (if_pos rfl).symm
    rw [Function.update_of_ne hi]
    split_ifs with hof
    · cases i with
      | dir e' =>
        obtain rfl : e' = e := hof
        exact absurd rfl hi
      | pde e' d =>
        obtain rfl : e' = e := hof
        exact hempty d
      | pte e' d t =>
        obtain rfl : e' = e := hof
        exact slotMap_pte_of_none (hempty d) t
      | kpde d => exact hof.elim
    · exact hshed.others i hof
  have hcount (p : ℕ) : refs (fun i : Slot => if i.OfEnv e then slotMap k.mem k.dirs i else none) p +
      (s.decRef g).refCount p = k.mem.refCount p := by
    rw [ht.tally.count, h.tally.count, Multiset.count_zero, Nat.add_zero, Nat.add_zero, funext hslots]
    exact refs_split _ _ _
  have hmaps (p : ℕ) (hp : ¬ k.mem.TableOf g p) :
      (s.decRef g).refCount p + userMappings k.mem k.dirs e p = k.mem.refCount p := by
    rw [← hcount p, Nat.add_comm, refs_ofEnv k.dirs]
    · intro hd
      rw [show slotMap k.mem k.dirs (.dir e) = some g from hg] at hd
      exact hp (Or.inl (Option.some.inj hd).symm)
    · intro d hd
      rw [slotMap_pde hg] at hd
      obtain ⟨hpres, hpn⟩ := target_eq_some hd
      exact hp (Or.inr ⟨d, d.isLt, ne_zero_of_has_pteP hpres, hpn⟩)
  have htables (p : ℕ) (hp : k.mem.TableOf g p) : k.mem.refCount p = 1 ∧ (s.decRef g).refCount p = 0 := by
    obtain ⟨i, hi, htab, hslot⟩ := h.tableOf_slot hg hp
    have h1 := h.tally.sole i p htab hslot
    have hof : i.OfEnv e := by
      rcases hi with rfl | ⟨d, rfl⟩
      · rfl
      · rfl
    have hpos : 0 < refs (fun i : Slot => if i.OfEnv e then slotMap k.mem k.dirs i else none) p := by
      apply refs_pos_of (i := i)
      rw [if_pos hof]
      exact hslot
    have hsplit := hcount p
    exact ⟨h1, by omega⟩
  have hnot (p : ℕ) (hp : 0 < userMappings k.mem k.dirs e p) : ¬ k.mem.TableOf g p ∧ ¬ k.mem.IsFree p := by
    obtain ⟨i, hi⟩ := exists_of_card_filter_pos hp
    refine ⟨fun hp => ?_, h.not_isFree_of_slot hi⟩
    obtain ⟨j, -, htab, hslot⟩ := h.tableOf_slot hg hp
    cases h.tally.slot_unique htab hslot hi
    exact htab
  refine ⟨_, hrun, ?_⟩
  constructor
  case counts => exact hmaps
  case tables =>
    intro p hp
    obtain ⟨h1, h0⟩ := htables p hp
    exact ⟨(hshed'.free p).mpr (Or.inr ⟨by omega, h0⟩), h0⟩
  case mapped =>
    intro p hp
    obtain ⟨htab, hfree⟩ := hnot p hp
    have hc := hmaps p htab
    refine ((hshed'.free p).trans (or_iff_right hfree)).trans ?_
    omega
  case free =>
    intro p
    refine (hshed'.free p).trans (or_congr_right ?_)
    by_cases htab : k.mem.TableOf g p
    · obtain ⟨h1, h0⟩ := htables p htab
      exact ⟨fun _ => Or.inl htab, fun _ => ⟨by omega, h0⟩⟩
    · have hc := hmaps p htab
      rw [or_iff_right htab]
      omega
  case listed => exact ht.free
  case words =>
    intro p hp
    change (s.decRef g).word p = _
    rw [decRef_word]
    exact h.freeTables_word hg hloop hp
  case upper =>
    intro d hd
    change (s.decRef g).word g d = _
    rw [decRef_word]
    have hold := h.upper e g hg
    have hnew := hs.upper e g hg
    by_cases hdu : d = uvptPde
    · rw [hdu, hnew.self, hold.self]
    · have hkern : s.word k.mem.kernPgdir = k.mem.word k.mem.kernPgdir := by
        apply h.freeTables_word hg hloop
        intro htab
        obtain ⟨i, -, -, hslot⟩ := h.tableOf_slot hg htab
        exact h.kern i hslot
      rw [hnew.shared d hd hdu, hold.shared d hd hdu, hshed.kern, hkern]
  case others => exact fun e' he' => Function.update_of_ne he' _ _
  case status =>
    change ((k.freed e _).envs e).envStatus = .free
    simp only [Kern.freed, Kern.setEnv, Function.update_self]
  case dir =>
    rw [freed_dirs, if_pos rfl]
  case head => rfl
  case link => rw [freed_link, if_pos rfl]

end Shed
end Sisop
