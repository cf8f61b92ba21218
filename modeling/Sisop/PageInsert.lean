import Sisop.PageMaps

/-! `page_insert` of `kern/pmap.c`: what it returns, and that it keeps the memory
invariant as long as the counter of the page does not wrap around. -/
namespace Sisop

section PageInsert

variable {s s' s₁ : Pm} {D : EnvIdx → Option ℕ} {held : Multiset ℕ} {g pp : ℕ} {va perm : Word}

theorem pageInsert_noMem (hw : pgdirWalk g va true s = .ret none s₁) :
    pageInsert g pp va perm s = .ret (.error .noMem) s₁ := by
  simp only [pageInsert, Routine.bind_ret hw, Routine.pure_run]

/-- Mapping at an empty entry. -/
theorem pageInsert_empty {p : ℕ} (hw : pgdirWalk g va true s = .ret (some ⟨p, ptx va⟩) s₁)
    (hz : s₁.word p (ptx va) = 0#32) : pageInsert g pp va perm s =
      .ret (.ok ()) ((s₁.incRef pp).setWord p (ptx va) (pteOf pp perm)) := by
  have hl : (s₁.incRef pp).load ⟨p, ptx va⟩ = 0#32 := hz
  simp only [pageInsert, Routine.bind_ret hw, Routine.modify_bind_run, Routine.gets_bind_run, hl,
    ne_eq, not_true_eq_false, if_false, Routine.pure_run]
  rfl

/-- Every successful `page_insert` ends by writing the entry that `pgdir_walk` found. -/
theorem pageInsert_ok (hr : pageInsert g pp va perm s = .ret (.ok ()) s') :
    ∃ e s₁ s₂, pgdirWalk g va true s = .ret (some e) s₁ ∧ s' = s₂.store e (pteOf pp perm) ∧
      ((s₁.load e = 0#32 ∧ s₂ = s₁.incRef pp) ∨
        (s₁.load e ≠ 0#32 ∧ pageRemove g va (s₁.incRef pp) = .ret () s₂)) := by
  obtain ⟨o, s₁, hw, hk⟩ := Routine.bind_eq_ret.mp hr
  cases o with
  | none =>
    simp only [Routine.pure_run, Outcome.ret.injEq, reduceCtorEq, false_and] at hk
  | some e =>
    have hload : (s₁.incRef pp).load e = s₁.load e := rfl
    simp only [Routine.modify_bind_run, Routine.gets_bind_run, hload] at hk
    by_cases hz : s₁.load e = 0#32
    · simp only [hz, ne_eq, not_true_eq_false, if_false, Routine.modify_bind_run, Routine.pure_run,
        Outcome.ret.injEq, true_and] at hk
      exact ⟨e, s₁, _, hw, hk.symm, Or.inl ⟨hz, rfl⟩⟩
    · rw [if_pos hz] at hk
      obtain ⟨_, s₂, hrem, hs⟩ := Routine.bind_eq_ret.mp hk
      simp only [Routine.modify_bind_run, Routine.pure_run, Outcome.ret.injEq, true_and] at hs
      exact ⟨e, s₁, s₂, hw, hs.symm, Or.inr ⟨hz, hrem⟩⟩

theorem pageInsert_error {err : Err} (hr : pageInsert g pp va perm s = .ret (.error err) s') :
    err = .noMem ∧ pgdirWalk g va true s = .ret none s' := by
  obtain ⟨o, s₁, hw, hk⟩ := Routine.bind_eq_ret.mp hr
  cases o with
  | none =>
    simp only [Routine.pure_run, Outcome.ret.injEq, Except.error.injEq] at hk
    exact ⟨hk.1.symm, hk.2 ▸ hw⟩
  | some e =>
    simp only [Routine.modify_bind_run, Routine.gets_bind_run, Routine.ite_run] at hk
    split_ifs at hk
    · obtain ⟨_, s₂, -, hs⟩ := Routine.bind_eq_ret.mp hk
      simp only [Routine.modify_bind_run, Routine.pure_run, Outcome.ret.injEq, reduceCtorEq,
        false_and] at hs
    · simp only [Routine.pure_run, Outcome.ret.injEq, reduceCtorEq, false_and] at hk

/-- The reference taken before the old mapping goes is the one the new entry holds. -/
theorem MemInv.insertEntry {e : EnvIdx} {p : ℕ} {s₂ : Pm} (h : MemInv s D held) (hg : D e = some g)
    (hd : pdx va < userPdes) (hp : slotMap s D (.pde e (vaPde va hd)) = some p)
    (hpp : UserPage s D pp) (hw : (s.pages pp).ppRef ≠ 65535#16) (hperm : perm.toNat < 4096)
    (h₂ : (s.load ⟨p, ptx va⟩ = 0#32 ∧ s₂ = s.incRef pp) ∨
      (s.load ⟨p, ptx va⟩ ≠ 0#32 ∧ pageRemove g va (s.incRef pp) = .ret () s₂)) :
    MemInv (s₂.store ⟨p, ptx va⟩ (pteOf pp perm)) D held ∧
      slotMap (s₂.store ⟨p, ptx va⟩ (pteOf pp perm)) D =
        Function.update (slotMap s D) (.pte e (vaPde va hd) (vaPte va)) (some pp) := by
  have hi := h.incRef hpp hw
  have hb : pp < 2^20 := lt_of_lt_of_le hpp.bound h.npages_le
  have hpn := pgnum_pteOf hb hperm
  -- with the reference in hand, the entry is empty: it was so, or `page_remove` has made it so
  obtain ⟨h₃, hz, hp₃, hm₃⟩ : MemInv s₂ D (pp ::ₘ held) ∧ s₂.word p (ptx va) = 0#32 ∧
      slotMap s₂ D (.pde e (vaPde va hd)) = some p ∧
      slotMap s₂ D = Function.update (slotMap s D) (.pte e (vaPde va hd) (vaPte va)) none := by
    rcases h₂ with ⟨hz, rfl⟩ | ⟨hz, hr⟩
    · refine ⟨hi, hz, hp, ?_⟩
      have hnone : slotMap s D (.pte e (vaPde va hd) (vaPte va)) = none := by
        rw [slotMap_pte hp, show s.word p (vaPte va) = 0#32 from hz, target_zero]
      rw [← hnone, Function.update_eq_self]
      rfl
    · have hp' : slotMap (s.incRef pp) D (.pde e (vaPde va hd)) = some p := hp
      have hpe : pgnum (s.word g (pdx va)) = p := by
        rw [slotMap_pde hg] at hp
        exact (target_eq_some hp).2
      have hgz : s.word g (pdx va) ≠ 0#32 := by
        rw [slotMap_pde hg] at hp
        exact ne_zero_of_has_pteP (target_eq_some hp).1
      have hne : ¬ (s.incRef pp).entryEmpty g va := fun he => hz (by
        have h2 : s.word (pgnum (s.word g (pdx va))) (ptx va) = 0#32 := he.2
        rwa [hpe] at h2)
      rcases hi.pageRemove_cases hg hd hne hr with ⟨hz', -⟩ | ⟨p', q, hp₁, hq, rfl⟩
      · exact absurd hz' hgz
      · obtain rfl : p = p' := Option.some.inj (hp'.symm.trans hp₁)
        have hm := hi.slotMap_pageRemove hp' (vaPte va) q
        refine ⟨(hi.unlinkPte hp' hq).decRef, ?_, ?_, hm⟩
        · rw [decRef_word, setWord_word_self, if_pos rfl]
        · have hm' := congrFun hm (.pde e (vaPde va hd))
          rw [Function.update_of_ne (by simp)] at hm'
          exact hm'.trans hp'
  have hl := hpn.symm ▸ h₃
  refine ⟨@MemInv.linkPte s₂ D held e _ p (vaPte va) _ hl hp₃ hz (has_pteP_pteOf pp perm), ?_⟩
  have hm := slotMap_setWord_pte h₃.apart hp₃ (vaPte va) (pteOf pp perm)
  rw [target_of_has (has_pteP_pteOf pp perm), hpn, hm₃, Function.update_idem] at hm
  exact hm

/-- A successful `page_insert` of a user page keeps the invariant. The slot of the address refers
to the page, and a page table may be new. -/
theorem MemInv.pageInsert_slots {e : EnvIdx} (h : MemInv s D held)
    (hg : D e = some g) (hd : pdx va < userPdes) (hpp : UserPage s D pp)
    (hw : (s.pages pp).ppRef ≠ 65535#16) (hperm : perm.toNat < 4096)
    (hr : pageInsert g pp va perm s = .ret (.ok ()) s') :
    MemInv s' D held ∧ ∃ m : Slot → Option ℕ, slotMap s' D = Function.update m (.pte e (vaPde va hd) (vaPte va)) (some pp) ∧
      (s.word g (pdx va) ≠ 0#32 ∧ m = slotMap s D ∨
        s.word g (pdx va) = 0#32 ∧ ∃ p, s.pageFreeList = some p ∧
          m = Function.update (slotMap s D) (.pde e (vaPde va hd)) (some p)) := by
  obtain ⟨en, s₁, s₂, hwalk, rfl, h₂⟩ := pageInsert_ok hr
  rcases h.pgdirWalk_cases hg hd true with ⟨hw', -, -⟩ | ⟨p, hw', hz, hp⟩ |
    ⟨p, hw', -, hz, hf, hi, hfr, hm⟩
  · rw [hw'] at hwalk
    exact absurd (Outcome.ret.inj hwalk).1 (by simp)
  · rw [hw'] at hwalk
    obtain ⟨hen, rfl⟩ := Outcome.ret.inj hwalk
    obtain rfl := Option.some.inj hen
    obtain ⟨hi, hm⟩ := h.insertEntry hg hd hp hpp hw hperm h₂
    exact ⟨hi, _, hm, Or.inl ⟨hz, rfl⟩⟩
  · rw [hw'] at hwalk
    obtain ⟨hen, rfl⟩ := Outcome.ret.inj hwalk
    obtain rfl := Option.some.inj hen
    have hp : slotMap (s.newTable g (pdx va) p) D (.pde e (vaPde va hd)) = some p := by
      rw [hm, Function.update_self]
    have hqp : pp ≠ p := fun hqp =>
      hpp.notFree (by rw [Pm.IsFree, hf, hqp]; exact OnChain.here p)
    have hw₁ : ((s.newTable g (pdx va) p).pages pp).ppRef ≠ 65535#16 := by
      rwa [newTable_pages_ne hqp]
    obtain ⟨hi', hm'⟩ := hi.insertEntry hg hd hp
      (@UserPage.newTable s D e g p pp (vaPde va hd) hpp hf hm) hw₁ hperm h₂
    exact ⟨hi', _, hm', Or.inr ⟨hz, p, hf, hm⟩⟩

/-- `page_insert` of a user page keeps the invariant; on success the slot of the
address refers to the page. -/
theorem MemInv.pageInsert_keep {e : EnvIdx} {r : Except Err Unit} (h : MemInv s D held)
    (hg : D e = some g) (hd : pdx va < userPdes) (hpp : UserPage s D pp)
    (hw : (s.pages pp).ppRef ≠ 65535#16) (hperm : perm.toNat < 4096)
    (hr : pageInsert g pp va perm s = .ret r s') :
    MemInv s' D held ∧ (r = .error .noMem ∧ s' = s ∨
      r = .ok () ∧ slotMap s' D (.pte e (vaPde va hd) (vaPte va)) = some pp) := by
  cases r with
  | error err =>
    obtain ⟨rfl, hwalk⟩ := pageInsert_error hr
    rcases h.pgdirWalk_cases hg hd true with ⟨hw', -, -⟩ | ⟨p, hw', -, -⟩ | ⟨p, hw', -⟩
    · rw [hw'] at hwalk
      obtain ⟨-, rfl⟩ := Outcome.ret.inj hwalk
      exact ⟨h, Or.inl ⟨rfl, rfl⟩⟩
    · rw [hw'] at hwalk
      exact absurd (Outcome.ret.inj hwalk).1 (by simp)
    · rw [hw'] at hwalk
      exact absurd (Outcome.ret.inj hwalk).1 (by simp)
  | ok u =>
    obtain ⟨hi, m, hm, -⟩ := h.pageInsert_slots hg hd hpp hw hperm hr
    exact ⟨hi, Or.inr ⟨rfl, by rw [hm, Function.update_self]⟩⟩

end PageInsert
end Sisop
