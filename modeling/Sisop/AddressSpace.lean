import Sisop.Env
import Sisop.PageInsert

/-! Building, filling and tearing down the address space of an environment keeps
the memory invariant: the page directories of `env_setup_vm`, the mappings of
`region_alloc`, and the loops of `env_free`. -/
namespace Sisop

section Stays

theorem stays_kaddr (pa : Word) : Routine.Stays (kaddr pa) := by
  intro s s' h
  unfold kaddr at h
  split_ifs at h

theorem stays_pa2page (pa : Word) : Routine.Stays (pa2page pa) := stays_kaddr pa

theorem stays_pageFree (p : ℕ) : Routine.Stays (pageFree p) := by
  intro s s' h
  unfold pageFree at h
  split_ifs at h

theorem stays_pageAlloc : Routine.Stays pageAlloc := by
  refine Routine.Stays.bind (.gets _) fun o => ?_
  cases o with
  | none => exact .pure _
  | some p =>
    exact .bind (.modify _) fun _ => .bind (.modify _) fun _ => .bind (stays_kaddr _) fun _ =>
      .bind (.modify _) fun _ => .pure _

theorem stays_pageDecref (p : ℕ) : Routine.Stays (pageDecref p) :=
  .bind (.modify _) fun _ => .bind (.gets _) fun _ => .ite (stays_pageFree p) (.pure _)

theorem stays_pgdirWalk (g : ℕ) (va : Word) (create : Bool) :
    Routine.Stays (pgdirWalk g va create) := by
  have ht : Routine.Stays (pgdirWalk.entryTable g va) := .bind (.gets _) fun _ => stays_kaddr _
  refine .bind (.gets _) fun pde => .ite (.ite ?_ (.pure _)) (.bind ht fun _ => .pure _)
  refine .bind stays_pageAlloc fun o => ?_
  cases o with
  | none => exact .pure _
  | some p => exact .bind (.modify _) fun _ => .bind (.modify _) fun _ => .bind ht fun _ => .pure _

theorem stays_pageLookup (g : ℕ) (va : Word) : Routine.Stays (pageLookup g va) := by
  refine .bind (stays_pgdirWalk g va false) fun o => ?_
  cases o with
  | none => exact .pure _
  | some pte => exact .bind (.gets _) fun _ => .bind (stays_pa2page _) fun _ => .pure _

theorem stays_pageRemove (g : ℕ) (va : Word) : Routine.Stays (pageRemove g va) := by
  refine .bind (stays_pageLookup g va) fun o => ?_
  rcases o with _ | ⟨page, pte⟩
  · exact .pure _
  · exact .bind (stays_pageDecref page) fun _ => .modify _

theorem stays_pageInsert (g pp : ℕ) (va perm : Word) : Routine.Stays (pageInsert g pp va perm) := by
  refine .bind (stays_pgdirWalk g va true) fun o => ?_
  cases o with
  | none => exact .pure _
  | some pte =>
    refine .bind (.modify _) fun _ => .bind (.gets _) fun w => .ite ?_ ?_
    · exact .bind (stays_pageRemove g va) fun _ => .bind (.modify _) fun _ => .pure _
    · exact .bind (.modify _) fun _ => .pure _

end Stays

theorem pgaddr_toNat {d t : ℕ} (hd : d < 1024) (ht : t < 1024) :
    (pgaddr d t 0).toNat = d * 4194304 + t * 4096 := by
  have hs : d <<< 22 % 2^32 = d * 4194304 := by
    rw [Nat.shiftLeft_eq]
    omega
  have ht' : t <<< 12 % 2^32 = t * 4096 := by
    rw [Nat.shiftLeft_eq]
    omega
  have hor : d <<< 22 + t * 4096 = d <<< 22 ||| t * 4096 :=
    Nat.shiftLeft_add_eq_or_of_lt (by omega) d
  rw [Nat.shiftLeft_eq] at hor
  simp only [pgaddr, BitVec.toNat_or, BitVec.toNat_shiftLeft, BitVec.toNat_ofNat]
  rw [Nat.mod_eq_of_lt (show d < 2^32 by omega), Nat.mod_eq_of_lt (show t < 2^32 by omega), hs, ht',
    ← hor]
  simp

theorem pdx_pgaddr {d t : ℕ} (hd : d < 1024) (ht : t < 1024) : pdx (pgaddr d t 0) = d := by
  rw [pdx_eq, pgaddr_toNat hd ht]
  omega

theorem ptx_pgaddr {d t : ℕ} (hd : d < 1024) (ht : t < 1024) : ptx (pgaddr d t 0) = t := by
  rw [ptx_eq, pgaddr_toNat hd ht]
  omega

section Teardown

variable {s s' : Pm} {D : EnvIdx → Option ℕ} {held : Multiset ℕ} {e : EnvIdx} {g : ℕ}

/-- What holds in the loop of `env_free` over a page table: the entries before
`j` map nothing. -/
structure TableSwept (D : EnvIdx → Option ℕ) (held : Multiset ℕ) (e : EnvIdx) (d : PdeIdx) (p : ℕ)
    (j : ℕ) (s : Pm) : Prop where
  inv : MemInv s D held
  table : slotMap s D (.pde e d) = some p
  swept : ∀ t : PteIdx, t.val < j → slotMap s D (.pte e d t) = none

/-- The other user directory entries are the same as before. -/
def SamePdes (D : EnvIdx → Option ℕ) (e : EnvIdx) (d : PdeIdx) (s s' : Pm) : Prop :=
  ∀ d' : PdeIdx, d' ≠ d → slotMap s' D (.pde e d') = slotMap s D (.pde e d')

/-- One round of the inner loop of `env_free`. -/
theorem TableSwept.next {d : PdeIdx} {p j : ℕ} (hg : D e = some g) (hj : j < 1024)
    (h : TableSwept D held e d p j s)
    (hr : (if has (s.word p j) pteP then pageRemove g (pgaddr d j 0) else pure ()) s = .ret () s') :
    TableSwept D held e d p (j+1) s' ∧ SamePdes D e d s s' := by
  have hd1024 : d.val < 1024 := lt_trans d.isLt (by decide)
  have hd : pdx (pgaddr d j 0) = d := pdx_pgaddr hd1024 hj
  have hj' : ptx (pgaddr d j 0) = j := ptx_pgaddr hd1024 hj
  have hpd : vaPde (pgaddr d j 0) (by rw [hd]; exact d.isLt) = d := Fin.ext hd
  have hpt : vaPte (pgaddr d j 0) = ⟨j, hj⟩ := Fin.ext hj'
  have hslot := slotMap_pte h.table ⟨j, hj⟩
  by_cases hp : has (s.word p j) pteP
  · rw [if_pos hp] at hr
    have hw : s.word g d ≠ 0#32 := by
      have ht := h.table
      rw [slotMap_pde hg] at ht
      exact ne_zero_of_has_pteP (target_eq_some ht).1
    have hpn : pgnum (s.word g d) = p := by
      have ht := h.table
      rw [slotMap_pde hg] at ht
      exact (target_eq_some ht).2
    have hne : ¬ s.entryEmpty g (pgaddr d j 0) := by
      rintro ⟨-, hz⟩
      rw [hd, hpn, hj'] at hz
      exact ne_zero_of_has_pteP hp hz
    rcases h.inv.pageRemove_cases hg (by rw [hd]; exact d.isLt) hne hr with
      ⟨hz, -⟩ | ⟨p', q, hp', hq, rfl⟩
    · rw [hd] at hz
      exact absurd hz hw
    · rw [hpd] at hp' hq
      obtain rfl : p = p' := Option.some.inj (h.table.symm.trans hp')
      rw [hpt] at hq
      rw [hj']
      have hm := h.inv.slotMap_pageRemove h.table ⟨j, hj⟩ q
      refine ⟨⟨(h.inv.unlinkPte h.table hq).decRef, ?_, fun t ht => ?_⟩, fun d' _ => ?_⟩
      · rw [hm, Function.update_of_ne (by simp)]
        exact h.table
      · rw [hm]
        by_cases htj : t = ⟨j, hj⟩
        · rw [htj, Function.update_self]
        · rw [Function.update_of_ne (by simpa using htj)]
          have hne : t.val ≠ j := fun h => htj (Fin.ext h)
          exact h.swept t (by omega)
      · rw [hm, Function.update_of_ne (by simp)]
  · rw [if_neg hp, Routine.pure_run] at hr
    obtain ⟨-, rfl⟩ := Outcome.ret.inj hr
    refine ⟨⟨h.inv, h.table, fun t ht => ?_⟩, fun _ _ => rfl⟩
    by_cases htj : t = ⟨j, hj⟩
    · rw [htj, hslot]
      exact if_neg hp
    · have hne : t.val ≠ j := fun h => htj (Fin.ext h)
      exact h.swept t (by omega)

/-- The body of the outer loop of `env_free` empties one directory entry. -/
theorem MemInv.freeTable_keep {d : PdeIdx} (h : MemInv s D held) (hg : D e = some g)
    (hr : freeTable g d s = .ret () s') :
    MemInv s' D held ∧ slotMap s' D (.pde e d) = none ∧ SamePdes D e d s s' := by
  simp only [freeTable, Routine.gets_bind_run] at hr
  by_cases hpde : has (s.word g d) pteP
  · rw [if_pos hpde] at hr
    have htab : slotMap s D (.pde e d) = some (pgnum (s.word g d)) := by
      rw [slotMap_pde hg, target_of_has hpde]
    generalize hp : pgnum (s.word g d) = p at htab
    have hb := h.bound _ _ htab
    have hk : kaddr (pteAddr (s.word g d)) s = .ret p s := by
      simp only [kaddr, pgnum_pteAddr, hp, if_pos hb]
    rw [Routine.bind_ret hk] at hr
    obtain ⟨_, s₁, hloop, hrest⟩ := Routine.bind_eq_ret.mp hr
    obtain ⟨hsw, hsame⟩ := Routine.loop_ret
      (fun j t => TableSwept D held e d p j t ∧ SamePdes D e d s t) nptentries
      ⟨⟨h, htab, fun t ht => absurd ht (Nat.not_lt_zero _)⟩, fun _ _ => rfl⟩
      (fun j t t' hj hpre hb => by
        obtain ⟨ht, hst⟩ := hpre
        have hn := ht.next hg hj hb
        exact ⟨hn.1, fun d' hd' => (hn.2 d' hd').trans (hst d' hd')⟩) hloop
    have hempty : ∀ t, slotMap s₁ D (.pte e d t) = none := fun t => hsw.swept t t.isLt
    have hun := hsw.inv.unlinkPde hg hsw.table hempty
    have hm := slotMap_setWord_pde hsw.inv.apart hg d 0#32 hempty (by simp [target_zero])
      (by simp [target_zero])
    rw [target_zero] at hm
    simp only [Routine.modify_bind_run] at hrest
    obtain ⟨q, s₂, hpa, hdec⟩ := Routine.bind_eq_ret.mp hrest
    obtain ⟨rfl, rfl⟩ : q = p ∧ s₂ = s₁.setWord g d 0#32 := by
      simp only [pa2page, pgnum_pteAddr, hp] at hpa
      split_ifs at hpa
      obtain ⟨hq, hs⟩ := Outcome.ret.inj hpa
      exact ⟨hq.symm, hs.symm⟩
    rw [pageDecref_ret hdec]
    refine ⟨hun.decRef, ?_, fun d' hd' => ?_⟩
    · rw [slotMap_decRef, hm, Function.update_self]
    · rw [slotMap_decRef, hm, Function.update_of_ne (by simpa using hd')]
      exact hsame d' hd'
  · rw [if_neg hpde, Routine.pure_run] at hr
    obtain ⟨-, rfl⟩ := Outcome.ret.inj hr
    refine ⟨h, ?_, fun _ _ => rfl⟩
    rw [slotMap_pde hg]
    exact if_neg hpde

/-- The loops of `env_free` leave no user directory entry behind. -/
theorem MemInv.freeTables_keep (h : MemInv s D held) (hg : D e = some g)
    (hr : Routine.loop userPdes (fun pdeno => freeTable g pdeno) s = .ret () s') :
    MemInv s' D held ∧ ∀ d, slotMap s' D (.pde e d) = none := by
  have hl := Routine.loop_ret
    (fun i t => MemInv t D held ∧ ∀ d : PdeIdx, d.val < i → slotMap t D (.pde e d) = none) userPdes
    ⟨h, fun d hd => absurd hd (Nat.not_lt_zero _)⟩
    (fun i t t' hi hpre hb => by
      obtain ⟨ht, hz⟩ := hpre
      obtain ⟨hk, hn, hs⟩ := @MemInv.freeTable_keep t t' D held e g ⟨i, hi⟩ ht hg hb
      refine ⟨hk, fun d hd => ?_⟩
      by_cases hdi : d = ⟨i, hi⟩
      · rw [hdi, hn]
      · have hne : d.val ≠ i := fun h => hdi (Fin.ext h)
        rw [hs d hdi]
        exact hz d (by omega)) hr
  exact ⟨hl.1, fun d => hl.2 d d.isLt⟩

/-- A directory without user entries is taken from its environment. -/
theorem MemInv.unlinkDir (h : MemInv s D held) (hg : D e = some g)
    (hempty : ∀ d, slotMap s D (.pde e d) = none) :
    MemInv s (Function.update D e none) (g ::ₘ held) := by
  have hm := @slotMap_update_dir s D e none hempty (by simp)
  have hsub (i : Slot) (q : ℕ) (hq : slotMap s (Function.update D e none) i = some q) :
      slotMap s D i = some q := by
    rw [hm] at hq
    by_cases hi : i = .dir e
    · rw [hi, Function.update_self] at hq
      cases hq
    · rwa [Function.update_of_ne hi] at hq
  refine ⟨h.npages_le, h.free, ?_, fun i q hq => h.bound i q (hsub i q hq),
    fun i hi => h.kern i (hsub i _ hi), ?_, ?_, ?_, h.template,
    fun e' g' hg' => h.upper e' g' (hsub (.dir e') g' hg')⟩
  · rw [hm]
    exact h.tally.unlink hg
  · intro q hq
    rcases Multiset.mem_cons.mp hq with rfl | hq
    · exact ⟨h.bound (.dir e) q hg, fun hk => h.kern (.dir e) (hk ▸ hg)⟩
    · exact h.heldOk q hq
  · intro e' g' d hg'
    exact h.pdeZero e' g' d (hsub (.dir e') g' hg')
  · intro e' d p t hp
    exact h.pteZero e' d p t (hsub (.pde e' d) p hp)

/-- A page in hand without user entries becomes the directory of an environment. -/
theorem MemInv.linkDir (h : MemInv s D (g ::ₘ held)) (he : D e = none) (h1 : s.refCount g = 1)
    (hz : ∀ d : PdeIdx, s.word g d = 0#32) (hu : UpperHalf s g) :
    MemInv s (Function.update D e (some g)) held ∧
      slotMap s (Function.update D e (some g)) = Function.update (slotMap s D) (.dir e) (some g) := by
  have hnone (d : PdeIdx) : slotMap s D (.pde e d) = none := by
    simp only [slotMap, he, Option.bind_none]
  have hm := @slotMap_update_dir s D e (some g) hnone (by
    rintro g' d ⟨⟩
    rw [hz, target_zero])
  have hheld := h.heldOk g (Multiset.mem_cons_self _ _)
  have hcase (i : Slot) (q : ℕ) (hq : slotMap s (Function.update D e (some g)) i = some q) :
      i = .dir e ∧ q = g ∨ slotMap s D i = some q := by
    rw [hm] at hq
    by_cases hi : i = .dir e
    · rw [hi, Function.update_self] at hq
      exact Or.inl ⟨hi, (Option.some.inj hq).symm⟩
    · rw [Function.update_of_ne hi] at hq
      exact Or.inr hq
  refine ⟨⟨h.npages_le, h.free, ?_, fun i q hq => ?_, fun i hi => ?_,
    fun q hq => h.heldOk q (Multiset.mem_cons_of_mem hq), ?_, ?_, h.template,
    fun e' g' hg' => ?_⟩, hm⟩
  · rw [hm]
    exact h.tally.link he fun _ => h1
  · rcases hcase i q hq with ⟨-, rfl⟩ | hq
    · exact hheld.1
    · exact h.bound i q hq
  · rcases hcase i _ hi with ⟨-, hk⟩ | hi
    · exact hheld.2 hk.symm
    · exact h.kern i hi
  · intro e' g' d hg'
    rcases hcase (.dir e') g' hg' with ⟨-, rfl⟩ | hg'
    · exact fun _ => hz d
    · exact h.pdeZero e' g' d hg'
  · intro e' d p t hp
    rcases hcase (.pde e' d) p hp with ⟨hc, -⟩ | hp
    · cases hc
    · exact h.pteZero e' d p t hp
  · rcases hcase (.dir e') g' hg' with ⟨-, rfl⟩ | hg'
    · exact hu
    · exact h.upper e' g' hg'

end Teardown

section Setup

variable {s s' : Pm} {D : EnvIdx → Option ℕ} {held : Multiset ℕ} {e : EnvIdx} {g : ℕ}

/-- The state in which `env_setup_vm` has turned the page `p` into a directory. -/
def Pm.newDir (s : Pm) (p : ℕ) : Pm :=
  let t := (s.taken p).incRef p
  ({ t with word := Function.update t.word p (t.word t.kernPgdir) } : Pm).setWord p uvptPde
    (page2pa p ||| pteP ||| pteU)

theorem newDir_word_ne {p q : ℕ} (h : q ≠ p) : (s.newDir p).word q = s.word q := by
  rw [Pm.newDir, setWord_word_ne h]
  change Function.update ((s.taken p).incRef p).word p _ q = _
  rw [Function.update_of_ne h]
  exact Function.update_of_ne h _ _

theorem setupDir_none (hf : s.pageFreeList = none) : setupDir s = .ret none s := by
  simp only [setupDir, Routine.bind_ret (pageAlloc_none hf), Routine.pure_run]

theorem setupDir_some {p : ℕ} (ha : pageAlloc s = .ret (some p) (s.taken p)) (hp : p < s.npages)
    (hn : s.npages ≤ 2^20) : setupDir s = .ret (some p) (s.newDir p) := by
  have hk : page2kva p ((s.taken p).incRef p) = .ret p ((s.taken p).incRef p) := by
    simp only [page2kva, kaddr, pgnum_page2pa p (by omega)]
    exact if_pos hp
  simp only [setupDir, Routine.bind_ret ha, Routine.modify_bind_run, Routine.bind_ret hk,
    Routine.pure_run]
  rfl

/-- The new directory has no user entries, and its page is in use. -/
theorem MemInv.newDir (h : MemInv (s.taken g) D held) (hf : Fresh (s.taken g) g) (he : D e = none) :
    MemInv (s.newDir g) (Function.update D e (some g)) held ∧
      slotMap (s.newDir g) (Function.update D e (some g)) =
        Function.update (slotMap (s.taken g) D) (.dir e) (some g) := by
  have hnt := h.not_tablePage hf.zero hf.kern
  have hc := h.congr_word (s.newDir g).word fun q hq => by
    have hqg : q ≠ g := fun hqg => hnt (hqg ▸ hq)
    rw [Pm.newDir, setWord_word_ne hqg]
    exact Function.update_of_ne hqg _ _
  have hm : slotMap { s.taken g with word := (s.newDir g).word } D = slotMap (s.taken g) D :=
    slotMap_congr rfl fun q hq => by
      have hqg : q ≠ g := fun hqg => hnt (hqg ▸ hq)
      change (s.newDir g).word q = _
      rw [Pm.newDir, setWord_word_ne hqg]
      exact Function.update_of_ne hqg _ _
  have hu : UserPage { s.taken g with word := (s.newDir g).word } D g :=
    ⟨hf.bound, hf.kern, hf.notFree, fun i _ => hc.refs_eq_zero hf.zero i⟩
  have hi := hc.incRef hu (by
    change ((s.taken g).pages g).ppRef ≠ _
    rw [hf.zero]
    decide)
  have h1 : (Pm.incRef { s.taken g with word := (s.newDir g).word } g).refCount g = 1 := by
    rw [Pm.incRef, setRef_refCount, Function.update_self]
    change (((s.taken g).pages g).ppRef + 1).toNat = 1
    rw [hf.zero]
    rfl
  have hz (d : PdeIdx) : (s.newDir g).word g d = 0#32 := by
    have hd : (d : ℕ) ≠ uvptPde := Nat.ne_of_lt (lt_trans d.isLt (by decide))
    rw [Pm.newDir, setWord_word_self, if_neg hd]
    change Function.update (s.taken g).word g ((s.taken g).word s.kernPgdir) g d = _
    rw [Function.update_self]
    exact h.template d
  have hu : UpperHalf (s.newDir g) g := by
    refine ⟨fun d _ hdu => ?_, ?_⟩
    · change (s.newDir g).word g d = (s.newDir g).word s.kernPgdir d
      have hkg : s.kernPgdir ≠ g := Ne.symm hf.kern
      rw [Pm.newDir, setWord_word_self, if_neg hdu, setWord_word_ne hkg]
      change Function.update (s.taken g).word g ((s.taken g).word s.kernPgdir) g d =
        Function.update (s.taken g).word g ((s.taken g).word s.kernPgdir) s.kernPgdir d
      rw [Function.update_self, Function.update_of_ne hkg]
    · rw [Pm.newDir, setWord_word_self, if_pos rfl]
  obtain ⟨hl, hm'⟩ := hi.linkDir he h1 hz hu
  refine ⟨hl, hm'.trans ?_⟩
  rw [← hm]
  rfl

/-- What `env_setup_vm` does to the memory. -/
theorem MemInv.setupDir_cases (h : MemInv s D held) (he : D e = none) :
    (s.pageFreeList = none ∧ setupDir s = .ret none s) ∨
    ∃ g, s.pageFreeList = some g ∧ setupDir s = .ret (some g) (s.newDir g) ∧
      MemInv (s.newDir g) (Function.update D e (some g)) held ∧
      slotMap (s.newDir g) (Function.update D e (some g)) =
        Function.update (slotMap s D) (.dir e) (some g) := by
  rcases h.pageAlloc_cases with ⟨hf, -⟩ | ⟨g, hf, ha, hi, hfr, hm⟩
  · exact Or.inl ⟨hf, setupDir_none hf⟩
  · obtain ⟨hd, hm'⟩ := hi.newDir hfr he
    rw [hm] at hm'
    exact Or.inr ⟨g, hf, setupDir_some ha hfr.bound h.npages_le, hd, hm'⟩

theorem regionPerm_lt : (pteP ||| pteU ||| pteW).toNat < 4096 := by decide

/-- One page of `region_alloc`, at a user address. -/
theorem MemInv.allocPage_keep {va : Word} (h : MemInv s D held) (hg : D e = some g)
    (hd : pdx va < userPdes) (hr : allocPage g va s = .ret () s') : MemInv s' D held := by
  rcases h.pageAlloc_cases with ⟨hf, ha⟩ | ⟨p, hf, ha, hi, hfr, -⟩
  · simp only [allocPage, Routine.bind_ret ha, Routine.halt_run, reduceCtorEq] at hr
  · simp only [allocPage, Routine.bind_ret ha] at hr
    obtain ⟨r, t, hins, ht⟩ := Routine.bind_eq_ret.mp hr
    obtain ⟨-, rfl⟩ := Outcome.ret.inj ht
    exact (hi.pageInsert_keep hg hd (hi.userPage_of_fresh hfr) (by rw [hfr.zero]; decide)
      regionPerm_lt hins).1

end Setup
end Sisop
