import Sisop.EnvCycle
import Sisop.PageSafety

/-! The accounts of physical pages over whole runs of the kernel: `pp_ref` is the number of
references, and a page that nobody refers to is on the free list. No page is lost. -/
namespace Sisop

open Routine (Triple Stays)

/-- The pages of `P` are all free or referenced. -/
structure Accounted (P : Set ℕ) (k : Kern) : Prop where
  ok : MemOk k
  kept : ∀ p ∈ P, k.mem.IsFree p ∨ 0 < k.mem.refCount p

/-- No page is lost between two states. -/
def Pm.Keeps (s t : Pm) : Prop := ∀ p, s.IsFree p ∨ 0 < s.refCount p → t.IsFree p ∨ 0 < t.refCount p

section Keeps

variable {s t : Pm} {D : EnvIdx → Option ℕ} {held : Multiset ℕ} {e : EnvIdx} {g p pp q : ℕ} {va perm : Word}

theorem Shed.keeps (h : Shed D e s t) : s.Keeps t := by
  intro p hp
  rw [h.free]
  rcases hp with hp | hp
  · exact Or.inl (Or.inl hp)
  · rcases Nat.eq_zero_or_pos (t.refCount p) with hz | hpos
    · exact Or.inl (Or.inr ⟨hp, hz⟩)
    · exact Or.inr hpos

theorem Inserted.keeps (h : Inserted s g pp va perm t) : s.Keeps t := by
  intro p hp
  by_cases htable : s.tableTaken g va = some p
  · exact Or.inr ((h.table p htable).2.1 ▸ Nat.one_pos)
  rw [h.free]
  rcases hp with hp | hp
  · exact Or.inl (Or.inl ⟨hp, htable⟩)
  · rcases Nat.eq_zero_or_pos (t.refCount p) with hz | hpos
    · have hcount := h.counts p
      rw [if_neg htable, hz] at hcount
      by_cases hmap : s.mappedPage g va = some p
      · exact Or.inl (Or.inr ⟨hmap, hz⟩)
      · rw [if_neg hmap] at hcount
        omega
    · exact Or.inr hpos

theorem Reclaimed.keeps {k k' : Kern} (h : Reclaimed k e g k') : k.mem.Keeps k'.mem := by
  intro p hp
  rw [h.free]
  rcases hp with hp | hp
  · exact Or.inl (Or.inl hp)
  by_cases htable : k.mem.TableOf g p
  · exact Or.inl (Or.inr (Or.inl htable))
  have hcount := h.counts p htable
  rcases Nat.eq_zero_or_pos (k'.mem.refCount p) with hz | hpos
  · refine Or.inl (Or.inr (Or.inr ⟨?_, ?_⟩)) <;> omega
  · exact Or.inr hpos

/-- A page that is taken for a page directory is referenced at once. -/
theorem MemInv.newDir_keeps (h : MemInv s D held) (hf : s.pageFreeList = some g) : s.Keeps (s.newDir g) := by
  obtain ⟨l, hl⟩ := h.free
  cases l with
  | nil => exact absurd (hl.chain.symm.trans hf) (by simp)
  | cons q l =>
    obtain rfl : q = g := Option.some.inj (hl.chain.1.symm.trans hf)
    intro p hp
    have hfree : (s.newDir q).IsFree p ↔ s.IsFree p ∧ q ≠ p := hl.listed.newTable_isFree q uvptPde p
    have hcount : (s.newDir q).refCount p = s.refCount p + if q = p then 1 else 0 :=
      hl.listed.newTable_refCount q uvptPde p
    rw [hfree, hcount]
    by_cases hqp : q = p
    · rw [if_pos hqp]
      exact Or.inr (Nat.succ_pos _)
    · rw [if_neg hqp]
      exact hp.imp_left fun hp => ⟨hp, hqp⟩

/-- `page_insert` loses no page, not even when there is no memory for a page table. -/
theorem MemInv.pageInsert_keeps {r : Except Err Unit} (h : MemInv s D held) (hg : D e = some g)
    (hd : pdx va < userPdes) (hu : ¬ s.IsFree pp) (hr : (s.pages pp).ppRef ≠ 65535#16)
    (hrun : pageInsert g pp va perm s = .ret r t) : s.Keeps t ∧ (r = .ok () → Inserted s g pp va perm t) := by
  obtain ⟨l, hl⟩ := h.free
  have href : s.refCount pp < 65535 := by
    have hlt := (s.pages pp).ppRef.isLt
    have hne : (s.pages pp).ppRef.toNat ≠ 65535 := fun he => hr (BitVec.eq_of_toNat_eq he)
    unfold Pm.refCount
    omega
  have heffect : (∃ t', pageInsert g pp va perm s = .ret (.ok ()) t' ∧ Inserted s g pp va perm t') ∨ _ :=
    (h.userDir hg).pageInsert_effect hl.listed h.npages_le hu href hd
  rcases heffect with ⟨t', hrun', hi⟩ | ⟨herr, -⟩
  · obtain ⟨rfl, rfl⟩ := Outcome.ret.inj (hrun.symm.trans hrun')
    exact ⟨hi.keeps, fun _ => hi⟩
  · obtain ⟨rfl, rfl⟩ := Outcome.ret.inj (hrun.symm.trans herr)
    exact ⟨fun _ hp => hp, fun hok => by cases hok⟩

theorem MemInv.pageRemove_keeps (h : MemInv s D held) (hg : D e = some g) (hd : pdx va < userPdes)
    (hne : ¬ s.entryEmpty g va) (hr : pageRemove g va s = .ret () t) : s.Keeps t := by
  rcases h.pageRemove_cases hg hd hne hr with ⟨-, rfl⟩ | ⟨p, q, hp, hq, rfl⟩
  · exact fun _ hp => hp
  · exact (Shed.decRef (h.unlinkPte hp hq) D e).keeps

/-- A page that was never mapped goes back to the free list. -/
theorem MemInv.pageFree_keeps (h : MemInv s D held) (hf : Fresh s p) (hr : pageFree p s = .ret () t) :
    s.Keeps t ∧ t.IsFree p := by
  have hzero : s.refCount p = 0 := congrArg BitVec.toNat hf.zero
  have hheld := h.incRef (h.userPage_of_fresh hf) (by rw [hf.zero]; decide)
  have hshed := Shed.decRef hheld D 0
  have hcount := incRef_refCount (s := s) (p := p) (by omega)
  have hone : (s.incRef p).refCount p = 1 := by
    rw [hcount, Function.update_self, hzero]
  have hlast : t.refCount p = 0 := by
    rw [pageFree_ret hf.zero hr, decRef_refCount_pred hone.ge, Function.update_self, hone]
  rw [← pageFree_ret hf.zero hr] at hshed
  refine ⟨fun q hq => hshed.keeps q ?_, (hshed.free p).mpr (Or.inr ⟨hone ▸ Nat.one_pos, hlast⟩)⟩
  rw [incRef_isFree]
  refine hq.imp_right fun hq => ?_
  have hne : q ≠ p := fun heq => by
    rw [heq, hzero] at hq
    exact absurd hq (Nat.lt_irrefl 0)
  rwa [hcount, Function.update_of_ne hne]

end Keeps

section Routines

variable {P : Set ℕ} {k k' : Kern} {c : ℕ} {e : EnvIdx} {g pp : ℕ} {E : Kern → Prop}

theorem Accounted.setMem {t : Pm} (h : Accounted P k) (ht : MemInv t k.dirs 0) (hk : k.mem.Keeps t) :
    Accounted P { k with mem := t } :=
  ⟨h.ok.setMem ht, fun p hp => hk p (h.kept p hp)⟩

theorem spaceSteady_accounted : SpaceSteady (Accounted P) := by
  intro k k' hs h
  refine ⟨h.ok.congr hs, fun p hp => ?_⟩
  rw [hs.mem]
  exact h.kept p hp

theorem accounted_envFree (e : EnvIdx) (E : Kern → Prop) : Triple (Accounted P) (envFree e) (fun _ => Accounted P) E := by
  refine .of_ret (stays_envFree e) fun k _ k' hk hr => ?_
  obtain ⟨g, -, -, hg, -⟩ := envFree_ret hr
  obtain ⟨t, hrun, hrec⟩ := hk.ok.inv.reclaimed hg
  obtain ⟨-, rfl⟩ := Outcome.ret.inj (hrun.symm.trans hr)
  exact ⟨hk.ok.envFree hr, fun p hp => hrec.keeps p (hk.kept p hp)⟩

theorem accounted_envAlloc (parentId : Word) :
    Triple (Accounted P) (envAlloc parentId) (fun _ => Accounted P) E := by
  refine .of_ret (stays_envAlloc parentId) fun k r k' hk hr => ?_
  refine ⟨(hk.ok.envAlloc hr).1, fun p hp => ?_⟩
  have hkept := hk.kept p hp
  have hsetup {o : Option ℕ} {t : Pm} (ht : setupDir k.mem = .ret o t) : k.mem.Keeps t := by
    rcases hk.ok.inv.pageAlloc_cases with ⟨hf, -⟩ | ⟨q, hf, ha, -, hfr, -⟩
    · rw [setupDir_none hf] at ht
      obtain ⟨-, rfl⟩ := Outcome.ret.inj ht
      exact fun _ hp => hp
    · rw [setupDir_some ha hfr.bound hk.ok.inv.npages_le] at ht
      obtain ⟨-, rfl⟩ := Outcome.ret.inj ht
      exact hk.ok.inv.newDir_keeps hf
  rcases envAlloc_ret hr with ⟨err, rfl, rfl | ⟨t, ht, rfl⟩⟩ | ⟨e, g, t, rfl, -, ht, rfl⟩
  · exact hkept
  · exact hsetup ht p hkept
  · exact hsetup ht p hkept

theorem accounted_pageInsert {va perm : Word} (hd : pdx va < userPdes) (hperm : perm.toNat < 4096) :
    Triple (fun k => (Accounted P k ∧ UserPage k.mem k.dirs pp ∧ (k.mem.pages pp).ppRef ≠ 65535#16) ∧
      k.dirs e = some g) (mem (pageInsert g pp va perm)) (fun _ => Accounted P) E := by
  refine .of_ret (Stays.zoom (stays_pageInsert _ _ _ _)) fun k r k' hk h => ?_
  obtain ⟨t, ht, rfl⟩ := mem_eq_ret.mp h
  obtain ⟨⟨hm, hu, hr⟩, hg⟩ := hk
  exact hm.setMem (hm.ok.inv.pageInsert_keep hg hd hu hr hperm ht).1
    (hm.ok.inv.pageInsert_keeps hg hd hu.notFree hr ht).1

theorem accounted_pageRemove {va : Word} (hd : pdx va < userPdes) :
    Triple (fun k => (Accounted P k ∧ ¬ k.mem.entryEmpty g va) ∧ k.dirs e = some g) (mem (pageRemove g va))
      (fun _ => Accounted P) E := by
  refine .of_ret (Stays.zoom (stays_pageRemove g va)) fun k _ k' hk h => ?_
  obtain ⟨t, ht, rfl⟩ := mem_eq_ret.mp h
  obtain ⟨⟨hm, hne⟩, hg⟩ := hk
  exact hm.setMem (hm.ok.inv.pageRemove_keep hg hd hne ht) (hm.ok.inv.pageRemove_keeps hg hd hne ht)

/-- A page that `page_alloc` has handed out is the only one that may be neither free nor referenced. -/
theorem Accounted.taken {t : Pm} {p : ℕ} (h : Accounted P k) (hr : pageAlloc k.mem = .ret (some p) t) :
    Accounted (P \ {p}) { k with mem := t } ∧ Fresh t p := by
  rcases h.ok.inv.pageAlloc_cases with ⟨-, ha⟩ | ⟨q, hf, ha, hi, hfr, -⟩
  · rw [ha] at hr
    cases hr
  · rw [ha] at hr
    obtain ⟨heq, rfl⟩ := Outcome.ret.inj hr
    obtain rfl := Option.some.inj heq
    refine ⟨⟨h.ok.setMem hi, fun p hp => ?_⟩, hfr⟩
    have hne : q ≠ p := fun heq => hp.2 heq.symm
    have hcount : (k.mem.taken q).refCount p = k.mem.refCount p := by
      simp only [Pm.refCount, Pm.taken, Pm.clear, setLink_pages, if_neg hne.symm]
    change (k.mem.taken q).IsFree p ∨ 0 < (k.mem.taken q).refCount p
    rw [h.ok.inv.taken_isFree hf, hcount]
    exact (h.kept p hp.1).imp_left fun hp => ⟨hp, hne⟩

theorem Accounted.back {t : Pm} {p : ℕ} (h : Accounted (P \ {p}) k) (ht : MemInv t k.dirs 0) (hk : k.mem.Keeps t)
    (hp : t.IsFree p ∨ 0 < t.refCount p) : Accounted P { k with mem := t } := by
  refine ⟨h.ok.setMem ht, fun q hq => ?_⟩
  by_cases heq : q = p
  · rw [heq]
    exact hp
  · exact hk q (h.kept q ⟨hq, heq⟩)

theorem accounted_sysPageAlloc (envid va perm : Word) :
    Triple (Accounted P) (sysPageAlloc c envid va perm) (fun _ => Accounted P) E := by
  refine .bind (keeps_envid2env envid true) fun r => ?_
  cases r with
  | error _ => exact .pure fun _ h => h
  | ok e =>
    refine .ite ?_ (.pure fun _ h => h.1)
    refine .bind (Q := fun r k => (r = none → Accounted P k) ∧ (CheckPerm perm ∧ CheckMem va) ∧
      ∀ p, r = some p → Accounted (P \ {p}) k ∧ Fresh k.mem p) ?_ fun r => ?_
    · refine .of_ret (Stays.zoom stays_pageAlloc) fun k r k' hk h => ?_
      obtain ⟨t, ht, rfl⟩ := mem_eq_ret.mp h
      refine ⟨?_, hk.2, ?_⟩
      · rintro rfl
        rcases hk.1.ok.inv.pageAlloc_cases with ⟨-, ha⟩ | ⟨p, -, ha, -, -, -⟩
        · rw [ha] at ht
          obtain ⟨-, rfl⟩ := Outcome.ret.inj ht
          exact hk.1
        · rw [ha] at ht
          cases ht
      · rintro p rfl
        exact hk.1.taken ht
    cases r with
    | none => exact .pure fun _ h => h.1 rfl
    | some page =>
      refine .bind (triple_envPgdir e) fun g => ?_
      refine .bind (Q := fun r k => (r = .ok () → Accounted P k) ∧
        (r ≠ .ok () → Accounted (P \ {page}) k ∧ Fresh k.mem page)) ?_ fun r => ?_
      · refine .of_ret (Stays.zoom (stays_pageInsert _ _ _ _)) fun k r k' hk h => ?_
        obtain ⟨t, ht, rfl⟩ := mem_eq_ret.mp h
        obtain ⟨⟨-, hargs, hpage⟩, hg⟩ := hk
        obtain ⟨hm, hfr⟩ := hpage page rfl
        have hd := pdx_lt_of_utop hargs.2.1
        have hr : (k.mem.pages page).ppRef ≠ 65535#16 := by
          rw [hfr.zero]
          decide
        obtain ⟨hi, hcases⟩ := hm.ok.inv.pageInsert_keep hg hd (hm.ok.inv.userPage_of_fresh hfr) hr hargs.1.lt ht
        obtain ⟨hkeeps, hins⟩ := hm.ok.inv.pageInsert_keeps hg hd hfr.notFree hr ht
        constructor
        · intro hok
          -- the page is mapped now, and was not before
          have hcount := (hins hok).counts page
          have hzero : k.mem.refCount page = 0 := congrArg BitVec.toNat hfr.zero
          have hunmapped : k.mem.mappedPage g va ≠ some page := by
            intro hmap
            have hpos := ((hm.ok.inv.userDir hg).mapped va page hd hmap).2
            omega
          rw [if_neg hunmapped, if_pos rfl] at hcount
          exact hm.back hi hkeeps (Or.inr (by omega))
        · intro hne
          rcases hcases with ⟨-, rfl⟩ | ⟨rfl, -⟩
          · exact ⟨hm, hfr⟩
          · exact absurd rfl hne
      · cases r with
        | error err =>
          refine .bind (Q := fun _ => Accounted P) ?_ fun _ => .pure fun _ h => h
          refine .of_ret (Stays.zoom (stays_pageFree page)) fun k _ k' hk h => ?_
          obtain ⟨t, ht, rfl⟩ := mem_eq_ret.mp h
          obtain ⟨hm, hfr⟩ := hk.2 (by simp)
          obtain ⟨hkeeps, hfree⟩ := hm.ok.inv.pageFree_keeps hfr ht
          exact hm.back (hm.ok.inv.pageFree_keep hfr ht) hkeeps (Or.inl hfree)
        | ok _ => exact .pure fun _ h => h.1 rfl

theorem pageRule_accounted : PageRule (Accounted P) where
  ok := fun h => h.ok
  steady := spaceSteady_accounted
  words := fun h hw => h.setMem hw fun _ hp => hp
  envFree := accounted_envFree
  envAlloc := fun parentId _ => accounted_envAlloc parentId
  sysPageAlloc := fun _ envid va perm _ => accounted_sysPageAlloc envid va perm
  pageInsert := accounted_pageInsert
  pageRemove := accounted_pageRemove

end Routines

section Runs

variable {P : Set ℕ} {k₀ k : Kern}

theorem accounted_of_reachable (h₀ : BootedFit k₀) (h : Reachable (· = k₀) SoundStep k) :
    Accounted {p | k₀.mem.IsFree p ∨ 0 < k₀.mem.refCount p} k := by
  refine h.invariant ?_ fun k k' hk ⟨_, hs, hev⟩ => pageRule_accounted.keeps_step hs hk hev
  rintro k rfl
  exact ⟨h₀.memOk, fun _ hp => hp⟩

end Runs
end Sisop
