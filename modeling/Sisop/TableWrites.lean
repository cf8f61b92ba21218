import Sisop.AddressSpace
import Sisop.PageGrant

/-! Which pages the routines of `kern/pmap.c` write into: pages that are free, and the
page directory they work on with its page tables. Other address spaces stay as they are. -/
namespace Sisop

/-- The page holds the page directory `g`, or one of its user page tables. -/
def Pm.TableOf (s : Pm) (g p : ℕ) : Prop :=
  p = g ∨ ∃ d < userPdes, s.word g d ≠ 0#32 ∧ pgnum (s.word g d) = p

section Writes

variable {s s' : Pm} {D : EnvIdx → Option ℕ} {held : Multiset ℕ} {e e' : EnvIdx} {g g' pp p q : ℕ}
  {va perm : Word}

theorem Pm.tableOf_dir (s : Pm) (g : ℕ) : s.TableOf g g := Or.inl rfl

/-- The words of the directory decide which pages its tables are. -/
theorem Pm.TableOf.congr (h : s.TableOf g p) (hw : s.word g = s'.word g) : s'.TableOf g p := by
  simpa only [Pm.TableOf, hw] using h

/-- The tables of an environment are in use. -/
theorem MemInv.tableOf_slot (h : MemInv s D held) (hg : D e = some g) (hp : s.TableOf g p) :
    ∃ i : Slot, (i = .dir e ∨ ∃ d, i = .pde e d) ∧ i.isTable ∧ slotMap s D i = some p := by
  obtain rfl | ⟨d, hd, hz, rfl⟩ := hp
  · exact ⟨.dir e, Or.inl rfl, trivial, hg⟩
  · exact ⟨.pde e ⟨d, hd⟩, Or.inr ⟨_, rfl⟩, trivial, h.dir_present hg ⟨d, hd⟩ hz⟩

/-- No page is free, or a table of a second environment, that is a table of the first. -/
theorem MemInv.tableOf_apart (h : MemInv s D held) (hg : D e = some g) (hp : s.TableOf g p) :
    ¬ s.IsFree p ∧ ∀ e' g', D e' = some g' → e' ≠ e → ¬ s.TableOf g' p := by
  obtain ⟨i, hi, htab, hslot⟩ := h.tableOf_slot hg hp
  refine ⟨h.not_isFree_of_slot hslot, fun e' g' hg' hne hp' => ?_⟩
  obtain ⟨j, hj, -, hslot'⟩ := h.tableOf_slot hg' hp'
  obtain rfl := h.tally.slot_unique htab hslot hslot'
  rcases hi with rfl | ⟨d, rfl⟩
  · obtain hj | ⟨d, hj⟩ := hj
    · exact hne (Slot.dir.inj hj).symm
    · cases hj
  · obtain hj | ⟨d', hj⟩ := hj
    · cases hj
    · exact hne (Slot.pde.inj hj).1.symm

theorem taken_word_ne (h : p ≠ q) : (s.taken q).word p = s.word p := Function.update_of_ne h _ _

theorem taken_word_self (s : Pm) (p : ℕ) : (s.taken p).word p = fun _ => 0#32 := Function.update_self ..

theorem newTable_word_ne {i : ℕ} (hg : p ≠ g) (hq : p ≠ q) : (s.newTable g i q).word p = s.word p :=
  (setWord_word_ne hg).trans (taken_word_ne hq)

/-- `page_remove` writes into the page table of the address. -/
theorem pageRemove_word (hr : pageRemove g va s = .ret () s')
    (hp : s.word g (pdx va) ≠ 0#32 → p ≠ pgnum (s.word g (pdx va))) : s'.word p = s.word p := by
  obtain ⟨o, t, hl, h⟩ := Routine.bind_eq_ret.mp hr
  obtain ⟨rfl, ⟨-, rfl⟩ | ⟨hz, -, w, -, -, rfl⟩⟩ := pageLookup_cases hl
  · rw [(Outcome.ret.inj h).2]
  · obtain ⟨_, t', hd, hs⟩ := Routine.bind_eq_ret.mp h
    obtain ⟨-, rfl⟩ := Outcome.ret.inj hs
    rw [show (t'.store _ 0#32).word p = t'.word p from setWord_word_ne (hp hz), pageDecref_ret hd,
      decRef_word]

/-- `page_insert` writes into the tables of its directory, and into a page that was
free if it takes one for a page table. -/
theorem MemInv.pageInsert_word {r : Except Err Unit} (h : MemInv s D held) (hg : D e = some g)
    (hd : pdx va < userPdes) (hr : pageInsert g pp va perm s = .ret r s') (hf : ¬ s.IsFree p)
    (hp : ¬ s.TableOf g p) : s'.word p = s.word p := by
  have hpg : p ≠ g := fun hpg => hp (Or.inl hpg)
  cases r with
  | error err =>
    obtain ⟨-, hwalk⟩ := pageInsert_error hr
    rcases h.pgdirWalk_cases hg hd true with ⟨hw, -⟩ | ⟨q, hw, -⟩ | ⟨q, hw, -⟩
    · rw [hw] at hwalk
      rw [(Outcome.ret.inj hwalk).2]
    · rw [hw] at hwalk
      cases (Outcome.ret.inj hwalk).1
    · rw [hw] at hwalk
      cases (Outcome.ret.inj hwalk).1
  | ok u =>
    obtain ⟨en, s₁, s₂, hwalk, rfl, h₂⟩ := pageInsert_ok hr
    -- the entry lies in a page table `q` that is there, or is new
    obtain ⟨q, rfl, hpq, hq, hw₁⟩ : ∃ q, en = ⟨q, ptx va⟩ ∧ p ≠ q ∧
        pgnum (s₁.word g (pdx va)) = q ∧ s₁.word p = s.word p := by
      rcases h.pgdirWalk_cases hg hd true with ⟨hw, -⟩ | ⟨q, hw, hz, hslot⟩ |
        ⟨q, hw, -, -, hfree, -, hfr, -⟩
      · rw [hw] at hwalk
        cases (Outcome.ret.inj hwalk).1
      · rw [hw] at hwalk
        obtain ⟨hen, rfl⟩ := Outcome.ret.inj hwalk
        have hq : pgnum (s.word g (pdx va)) = q :=
          Option.some.inj ((h.dir_present hg (vaPde va hd) hz).symm.trans hslot)
        refine ⟨q, (Option.some.inj hen).symm, ?_, hq, rfl⟩
        exact fun hpq => hp (Or.inr ⟨pdx va, hd, hz, hq.trans hpq.symm⟩)
      · rw [hw] at hwalk
        obtain ⟨hen, rfl⟩ := Outcome.ret.inj hwalk
        have hpq : p ≠ q := fun hpq => hf (by rw [Pm.IsFree, hfree, hpq]; exact OnChain.here q)
        refine ⟨q, (Option.some.inj hen).symm, hpq, ?_, newTable_word_ne hpg hpq⟩
        rw [Pm.newTable, setWord_word_self, if_pos rfl,
          pgnum_pdeOf (lt_of_lt_of_le hfr.bound h.npages_le)]
    rw [Pm.store, setWord_word_ne hpq, ← hw₁]
    rcases h₂ with ⟨-, rfl⟩ | ⟨-, hrem⟩
    · rfl
    · have hw := pageRemove_word (p := p) hrem fun _ => by
        change p ≠ pgnum (s₁.word g (pdx va))
        rwa [hq]
      exact hw

/-- The loops of `env_free` write into the tables of the directory they clear. -/
theorem MemInv.freeTables_word (h : MemInv s D held) (hg : D e = some g)
    (hr : Routine.loop userPdes (fun pdeno => freeTable g pdeno) s = .ret () s')
    (hp : ¬ s.TableOf g p) : s'.word p = s.word p := by
  have hpg : p ≠ g := fun hpg => hp (Or.inl hpg)
  -- the entries from `i` on are still those of the beginning
  refine (Routine.loop_ret (fun i t => t.word p = s.word p ∧
    ∀ d, i ≤ d → d < userPdes → t.word g d = s.word g d) userPdes ⟨rfl, fun _ _ _ => rfl⟩
    (fun i t t' hi ⟨htp, htg⟩ hb => ?_) hr).1
  have hti : t.word g i = s.word g i := htg i le_rfl hi
  simp only [freeTable, Routine.gets_bind_run] at hb
  by_cases hpde : has (t.word g i) pteP
  swap
  · rw [if_neg hpde] at hb
    obtain ⟨-, rfl⟩ := Outcome.ret.inj hb
    exact ⟨htp, fun d hd => htg d (by omega)⟩
  rw [if_pos hpde] at hb
  obtain ⟨pt, t₁, hk, hb₁⟩ := Routine.bind_eq_ret.mp hb
  obtain ⟨_, t₂, hloop, hb₂⟩ := Routine.bind_eq_ret.mp hb₁
  simp only [Routine.modify_bind_run] at hb₂
  obtain ⟨_, t₃, hpa, hdec⟩ := Routine.bind_eq_ret.mp hb₂
  have h₁ : t₁ = t := by
    unfold kaddr at hk
    split_ifs at hk
    exact (Outcome.ret.inj hk).2.symm
  have h₃ : t₃ = t₂.setWord g i 0#32 := by
    unfold pa2page at hpa
    split_ifs at hpa
    exact (Outcome.ret.inj hpa).2.symm
  have hz : s.word g i ≠ 0#32 := hti ▸ ne_zero_of_has_pteP hpde
  have hgt : pgnum (s.word g i) ≠ g := h.table_ne_dir hg hi hz
  have hpt : p ≠ pgnum (s.word g i) := fun hpt => hp (Or.inr ⟨i, hi, hz, hpt.symm⟩)
  have hi' : i < 1024 := lt_trans hi (by decide)
  -- the inner loop writes into the page table only
  have hinner : ∀ q, q ≠ pgnum (s.word g i) → t₂.word q = t.word q := by
    refine Routine.loop_ret (fun _ u => ∀ q, q ≠ pgnum (s.word g i) → u.word q = t.word q) nptentries
      (by rw [h₁]; exact fun _ _ => rfl) (fun j u u' hj hu hbody q hq => ?_) hloop
    simp only [Routine.gets_bind_run, Routine.ite_run] at hbody
    split_ifs at hbody
    · have hpdx : pdx (pgaddr i j 0) = i := pdx_pgaddr hi' hj
      rw [pageRemove_word (p := q) hbody fun _ => ?_, hu q hq]
      rw [hpdx, hu g hgt.symm, hti]
      exact hq
    · obtain ⟨-, rfl⟩ := Outcome.ret.inj hbody
      exact hu q hq
  rw [pageDecref_ret hdec, decRef_word, h₃]
  refine ⟨?_, fun d hd hlt => ?_⟩
  · rw [setWord_word_ne hpg, hinner p hpt, htp]
  · rw [setWord_word_self, if_neg (by omega), hinner g hgt.symm]
    exact htg d (by omega) hlt

theorem pteAt_of_pde (hg : s.word g (pdx va) = pdeOf p) (hp : p < 2^20) :
    s.pteAt g va = some (s.word p (ptx va)) := by
  rw [Pm.pteAt, hg, if_neg (ne_zero_of_has_pteP (has_pteP_pdeOf p)), pgnum_pdeOf hp]

/-- An address space whose tables keep their contents maps what it did. -/
theorem pteAt_of_tables (h : ∀ p, s.TableOf g p → s'.word p = s.word p) (hd : pdx va < userPdes) :
    s'.word g (pdx va) = s.word g (pdx va) ∧ s'.pteAt g va = s.pteAt g va := by
  have hg := h g (s.tableOf_dir g)
  refine ⟨congrFun hg _, ?_⟩
  simp only [Pm.pteAt, hg]
  split_ifs with hz
  · rfl
  · rw [h _ (Or.inr ⟨pdx va, hd, hz, rfl⟩)]

end Writes
end Sisop
