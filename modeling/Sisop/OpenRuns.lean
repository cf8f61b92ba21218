import Sisop.OpenIds

/-! Runs of the file server and its clients: the ids that `openfile_alloc` gives out, and
when `openfile_lookup` accepts them. -/
namespace Sisop

section Ids

variable {es es' : List OpenEvent} {e : OpenEvent} {i j k : ℕ} {x : Word}

/-- The id of a slot that an event gives out. -/
def OpenEvent.idFor (i : ℕ) : OpenEvent → Option Word
  | .serve (some (j, x)) => if j = i then some x else none
  | _ => none

/-- The ids that a slot has been given, in order. -/
def idsOf (es : List OpenEvent) (i : ℕ) : List Word := es.filterMap (OpenEvent.idFor i)

/-- The id of a slot when it has been taken `k` times. -/
def fileidAt (i k : ℕ) : Word := BitVec.ofNat 32 (i + maxopen * k)

theorem idsOf_append (es es' : List OpenEvent) (i : ℕ) : idsOf (es ++ es') i = idsOf es i ++ idsOf es' i :=
  List.filterMap_append

theorem fileidAt_succ (i k : ℕ) : fileidAt i k + BitVec.ofNat 32 maxopen = fileidAt i (k + 1) := by
  rw [fileidAt, fileidAt, ← BitVec.ofNat_add, Nat.mul_succ, Nat.add_assoc]

theorem fileidAt_slot (hi : i < maxopen) (k : ℕ) : (fileidAt i k).toNat % maxopen = i := by
  change i < 1024 at hi
  change (BitVec.ofNat 32 (i + 1024 * k)).toNat % 1024 = i
  rw [BitVec.toNat_ofNat]
  omega

/-- Ids come again after 2^22 times only. -/
theorem fileidAt_inj {l : ℕ} (hk : k < l) (hl : l ≤ 2^22) (h0 : 0 < k) : fileidAt i k ≠ fileidAt i l := by
  intro heq
  have hnat := congrArg BitVec.toNat heq
  change (BitVec.ofNat 32 (i + 1024 * k)).toNat = (BitVec.ofNat 32 (i + 1024 * l)).toNat at hnat
  rw [BitVec.toNat_ofNat, BitVec.toNat_ofNat] at hnat
  omega

end Ids

section Runs

variable {s s' s₀ s₁ : FsSys} {es es₁ es₂ : List OpenEvent} {e : OpenEvent} {i j k p : ℕ} {x : Word}

/-- A step with which the counter of a page does not overflow. -/
structure OpenSafeStep (s : FsSys) (e : OpenEvent) (s' : FsSys) : Prop where
  step : OpenStep s e s'
  map : ∀ p, e = .map p → (s.srv.tab.ppRef p).toNat + 1 < 2^16
  send : ∀ i p, e = .send i → s.srv.tab.fdPage i = some p → (s.srv.tab.ppRef p).toNat + 1 < 2^16

/-- The state of the server after the events. -/
structure FileIdsOk (es : List OpenEvent) (s : FsSys) : Prop where
  tab : TabOk s.srv.tab
  ids : ∀ i < maxopen, (s.srv.tab.opentab i).oFileid = fileidAt i (idsOf es i).length
  past : ∀ i < maxopen, idsOf es i = (List.range (idsOf es i).length).map fun k => fileidAt i (k + 1)
  fresh : ∀ i, idsOf es i = [] → s.srv.tab.fdPage i = none

theorem OpenStart.fileIdsOk (h : OpenStart s) : FileIdsOk [] s := by
  have hnone (i p : ℕ) : s.srv.tab.fdPage i ≠ some p := by
    rw [h.pages i]
    exact nofun
  constructor
  case tab =>
    refine ⟨fun i p hp => absurd hp (hnone i p), fun p _ => h.refs p, fun i j p hp => absurd hp (hnone i p),
      fun p hp => ⟨h.free p hp, fun i => hnone i p⟩⟩
  case ids => exact fun i hi => (h.ids i hi).trans (congrArg (BitVec.ofNat 32) (Nat.add_zero i).symm)
  case past => exact fun _ _ => rfl
  case fresh => exact fun i _ => h.pages i

/-- A step is one that gives out no id, and leaves the slots alone, or it serves an open. -/
theorem OpenSafeStep.cases (h : OpenSafeStep s e s') (hok : TabOk s.srv.tab) :
    ((∀ i, e.idFor i = none) ∧ (∀ j, (s'.srv.tab.opentab j).oFileid = (s.srv.tab.opentab j).oFileid) ∧
      s'.srv.tab.fdPage = s.srv.tab.fdPage ∧ TabOk s'.srv.tab) ∨
    ∃ given x i, Taken given i x s.srv.tab s'.srv.tab ∧ (∀ p, given = some p → s.srv.tab.free p = true) ∧
      e = .serve (some (i, x)) := by
  cases h.step with
  | @serve given bytes omode r pg srv hidle hmem hr =>
    rcases serveOpen_cases hr with ⟨halloc, hsame, hids, -⟩ | ⟨x, i, halloc, htaken, hpg⟩
    · rw [halloc]
      exact Or.inl ⟨fun _ => rfl, hids, hsame.fdPage, hsame.tabOk hok⟩
    · rw [halloc]
      exact Or.inr ⟨given, x, i, htaken, hmem, rfl⟩
  | request hidle => exact Or.inl ⟨fun _ => rfl, fun _ => rfl, rfl, hok⟩
  | @send i p hi hp =>
    have hused : s.srv.tab.free p = false := by
      by_contra hfree
      exact (hok.free p (Bool.eq_true_of_not_eq_false hfree)).2 i hp
    exact Or.inl ⟨fun _ => rfl, fun _ => rfl, rfl, hok.map hused (h.send i p rfl hp)⟩
  | skip hi => exact Or.inl ⟨fun _ => rfl, fun _ => rfl, rfl, hok⟩
  | @map p hp =>
    have hused : s.srv.tab.free p = false := by
      by_contra hfree
      have hzero := (hok.free p (Bool.eq_true_of_not_eq_false hfree)).1
      omega
    exact Or.inl ⟨fun _ => rfl, fun _ => rfl, rfl, hok.map hused (h.map p rfl)⟩
  | @unmap p hp =>
    have hsame : (s.srv.tab.unmap p).opentab = s.srv.tab.opentab ∧ (s.srv.tab.unmap p).fdPage = s.srv.tab.fdPage := by
      unfold OpenTab.unmap OpenTab.decref
      dsimp only
      split_ifs <;> exact ⟨rfl, rfl⟩
    exact Or.inl ⟨fun _ => rfl, fun j => congrArg (fun f => (f j).oFileid) hsame.1, hsame.2, hok.unmap hp⟩
  | @get p hp => exact Or.inl ⟨fun _ => rfl, fun _ => rfl, rfl, hok.getPage hp⟩

theorem FileIdsOk.step (h : FileIdsOk es s) (hs : OpenSafeStep s e s') : FileIdsOk (es ++ [e]) s' := by
  have happ (i : ℕ) : idsOf (es ++ [e]) i = idsOf es i ++ (e.idFor i).toList := by
    rw [idsOf_append]
    congr 1
  rcases hs.cases h.tab with ⟨hquiet, hids, hpages, hok⟩ | ⟨given, x, i, htaken, hmem, rfl⟩
  · have hsame (i : ℕ) : idsOf (es ++ [e]) i = idsOf es i := by
      rw [happ, hquiet i]
      exact List.append_nil _
    constructor
    case tab => exact hok
    case ids =>
      intro i hi
      rw [hsame, hids]
      exact h.ids i hi
    case past =>
      intro i hi
      rw [hsame]
      exact h.past i hi
    case fresh =>
      intro i hi
      rw [hpages]
      exact h.fresh i (hsame i ▸ hi)
  · have hlt := (usable_some htaken.usable).1
    have hself : (OpenEvent.serve (some (i, x))).idFor i = some x := if_pos rfl
    have hother (j : ℕ) (hne : j ≠ i) : (OpenEvent.serve (some (i, x))).idFor j = none := if_neg hne.symm
    have hx : x = fileidAt i ((idsOf es i).length + 1) := by
      rw [htaken.id, h.ids i hlt, fileidAt_succ]
    constructor
    case tab => exact htaken.tabOk h.tab hmem
    case ids =>
      intro j hj
      rw [htaken.ids j, happ]
      split_ifs with heq
      · rw [heq, hself, hx]
        simp only [Option.toList_some, List.length_append, List.length_singleton]
      · rw [hother j heq, h.ids j hj]
        simp only [Option.toList_none, List.append_nil]
    case past =>
      intro j hj
      rw [happ]
      by_cases heq : j = i
      · rw [heq, hself, Option.toList_some, List.length_append, List.length_singleton, List.range_succ, List.map_append,
          ← h.past i hlt, hx]
        rfl
      · rw [hother j heq, Option.toList_none, List.append_nil]
        exact h.past j hj
    case fresh =>
      intro j hj
      rw [happ] at hj
      by_cases heq : j = i
      · rw [heq, hself] at hj
        exact absurd hj (List.append_ne_nil_of_right_ne_nil _ (List.cons_ne_nil _ _))
      · rw [hother j heq, Option.toList_none, List.append_nil] at hj
        rw [(htaken.other h.tab heq).1]
        exact h.fresh j hj

theorem OpenStart.run (h : OpenStart s₀) (hr : Run OpenSafeStep s₀ es s) : FileIdsOk es s :=
  hr.invariant h.fileIdsOk fun _ _ _ _ hi hs => hi.step hs

/-- `openfile_lookup` accepts the last id of a slot of which a client has the page. -/
theorem FileIdsOk.lookup_iff (h : FileIdsOk es s) (x : Word) :
    openfileLookup s.srv.tab x = .ok (x.toNat % maxopen) ↔
      (idsOf es (x.toNat % maxopen)).getLast? = some x ∧ s.srv.tab.ClientMaps (x.toNat % maxopen) := by
  have hi : x.toNat % maxopen < maxopen := Nat.mod_lt _ (by decide)
  obtain ⟨i, heq⟩ : ∃ i, i = x.toNat % maxopen := ⟨_, rfl⟩
  have hlookup : openfileLookup s.srv.tab x = .ok i ↔ 1 < s.srv.tab.pageref i ∧ (s.srv.tab.opentab i).oFileid = x := by
    unfold openfileLookup
    rw [← heq]
    dsimp only
    split_ifs with hbad
    · refine iff_of_false nofun fun hgood => ?_
      rcases hbad with hle | hne
      · omega
      · exact hne hgood.2
    · obtain ⟨hlt, hid⟩ := not_or.mp hbad
      exact iff_of_true rfl ⟨Nat.lt_of_not_le hlt, not_not.mp hid⟩
  rw [← heq] at hi ⊢
  rw [hlookup, h.tab.clientMaps_iff, and_comm]
  apply and_congr_left
  intro hmapped
  -- the slot has a page, so it was taken before
  have hpos : (idsOf es i).length ≠ 0 := by
    intro hz
    rw [pageref_none (h.fresh i (List.length_eq_zero_iff.mp hz))] at hmapped
    omega
  obtain ⟨n, hn⟩ := Nat.exists_eq_succ_of_ne_zero hpos
  have hlast : (idsOf es i).getLast? = some (fileidAt i (n + 1)) := by
    rw [h.past i hi, hn, List.range_succ, List.map_append]
    exact List.getLast?_concat
  rw [h.ids i hi, hn, hlast, Option.some_inj]

/-- No client has the page of the slot, or will get it with the reply. -/
structure Unmapped (i : ℕ) (s : FsSys) : Prop where
  page : ¬ s.srv.tab.ClientMaps i
  reply : s.reply ≠ some i

theorem Unmapped.of_same (h : Unmapped i s) (hpage : s'.srv.tab.fdPage i = s.srv.tab.fdPage i)
    (hmaps : ∀ p, s.srv.tab.fdPage i = some p → s'.srv.tab.maps p ≤ s.srv.tab.maps p) (hreply : s'.reply ≠ some i) :
    Unmapped i s' := by
  refine ⟨fun ⟨p, hp, hpos⟩ => h.page ⟨p, hpage ▸ hp, ?_⟩, hreply⟩
  rw [hpage] at hp
  exact Nat.lt_of_lt_of_le hpos (hmaps p hp)

/-- A client gets the page of a slot from the server only, when the slot is taken. -/
theorem Unmapped.step (h : Unmapped i s) (hok : TabOk s.srv.tab) (hs : OpenSafeStep s e s') (he : e.idFor i = none) :
    Unmapped i s' := by
  have hzero (p : ℕ) (hp : s.srv.tab.fdPage i = some p) : s.srv.tab.maps p = 0 := by
    by_contra hne
    exact h.page ⟨p, hp, Nat.pos_of_ne_zero hne⟩
  have hkeep {q : ℕ} (hq : s.srv.tab.fdPage i ≠ some q) (p : ℕ) (hp : s.srv.tab.fdPage i = some p) :
      (s.srv.tab.map q).maps p ≤ s.srv.tab.maps p := by
    have hne : p ≠ q := by
      rintro rfl
      exact hq hp
    exact Nat.le_of_eq (Function.update_of_ne hne _ _)
  cases hs.step with
  | @serve given bytes omode r pg srv hidle hmem hr =>
    rcases serveOpen_cases hr with ⟨-, hsame, -, rfl⟩ | ⟨x, j, halloc, htaken, hpg⟩
    · refine h.of_same (congrFun hsame.fdPage i) (fun p _ => ?_) nofun
      rw [hsame.maps]
    · have hne : i ≠ j := by
        rintro rfl
        rw [halloc] at he
        change (if i = i then some x else none) = none at he
        rw [if_pos rfl] at he
        cases he
      obtain ⟨hpage, hmaps⟩ := htaken.other hok hne
      refine h.of_same hpage (fun p _ => ?_) ?_
      · rw [hmaps]
      · rcases hpg with rfl | rfl
        · exact nofun
        · exact fun heq => hne (Option.some.inj heq).symm
  | request hidle => exact h.of_same rfl (fun _ _ => le_rfl) h.reply
  | @send j q hj hq =>
    have hne : s.srv.tab.fdPage i ≠ some q := by
      intro hi
      rw [hok.apart i j q hi hq] at h
      exact h.reply hj
    exact h.of_same rfl (hkeep hne) nofun
  | skip hj => exact h.of_same rfl (fun _ _ => le_rfl) nofun
  | @map q hq =>
    have hne : s.srv.tab.fdPage i ≠ some q := by
      intro hi
      have hnone := hzero q hi
      omega
    exact h.of_same rfl (hkeep hne) h.reply
  | @unmap q hq =>
    have hsame : (s.srv.tab.unmap q).fdPage = s.srv.tab.fdPage ∧
        (s.srv.tab.unmap q).maps = Function.update s.srv.tab.maps q (s.srv.tab.maps q - 1) := by
      unfold OpenTab.unmap OpenTab.decref
      dsimp only
      split_ifs <;> exact ⟨rfl, rfl⟩
    refine h.of_same (congrFun hsame.1 i) (fun p _ => ?_) h.reply
    change (s.srv.tab.unmap q).maps p ≤ _
    rw [hsame.2, Function.update_apply]
    split_ifs with heq
    · rw [heq]
      exact Nat.sub_le _ _
    · exact le_rfl
  | @get q hq =>
    have hne : s.srv.tab.fdPage i ≠ some q := (hok.free q hq).2 i
    exact h.of_same rfl (hkeep hne) h.reply

theorem Unmapped.run (h : Unmapped i s₁) (h₁ : FileIdsOk es₁ s₁) (hr : Run OpenSafeStep s₁ es₂ s)
    (hnone : idsOf es₂ i = []) : Unmapped i s := by
  have hrun : FileIdsOk (es₁ ++ es₂) s ∧ (idsOf es₂ i = [] → Unmapped i s) := by
    refine hr.invariant (I := fun es s => FileIdsOk (es₁ ++ es) s ∧ (idsOf es i = [] → Unmapped i s)) ?_ ?_
    · rw [List.append_nil]
      exact ⟨h₁, fun _ => h⟩
    · rintro es e t u ⟨hok, hun⟩ hs
      rw [← List.append_assoc]
      refine ⟨hok.step hs, fun hnil => ?_⟩
      rw [idsOf_append] at hnil
      obtain ⟨hes, he⟩ := List.append_eq_nil_iff.mp hnil
      refine (hun hes).step hok.tab hs ?_
      exact List.filterMap_eq_nil_iff.mp he e (List.mem_singleton_self e)
  exact hrun.2 hnone

/-- An id that no client has the page for is not accepted again. -/
theorem FileIdsOk.stale (h₁ : FileIdsOk es₁ s₁) (h : FileIdsOk (es₁ ++ es₂) s) (hr : Run OpenSafeStep s₁ es₂ s)
    (hi : i < maxopen) (hun : Unmapped i s₁) (hx : x ∈ idsOf es₁ i) (hfew : (idsOf (es₁ ++ es₂) i).length ≤ 2^22) :
    openfileLookup s.srv.tab x = .error .inval := by
  obtain ⟨k, hk, hkx⟩ : ∃ k < (idsOf es₁ i).length, fileidAt i (k + 1) = x := by
    rw [h₁.past i hi] at hx
    obtain ⟨k, hk, rfl⟩ := List.mem_map.mp hx
    exact ⟨k, List.mem_range.mp hk, rfl⟩
  have hslot : x.toNat % maxopen = i := hkx ▸ fileidAt_slot hi (k + 1)
  have hlen : (idsOf (es₁ ++ es₂) i).length = (idsOf es₁ i).length + (idsOf es₂ i).length := by
    rw [idsOf_append, List.length_append]
  unfold openfileLookup
  rw [hslot]
  dsimp only
  rw [if_pos]
  by_contra hno
  obtain ⟨hlt, hid⟩ := not_or.mp hno
  rw [not_not, h.ids i hi, ← hkx] at hid
  -- the slot was not taken since
  have hlast : (idsOf (es₁ ++ es₂) i).length = k + 1 := by
    by_contra hne
    exact fileidAt_inj (show k + 1 < _ by omega) hfew (Nat.succ_pos k) hid.symm
  have hnil : idsOf es₂ i = [] := List.length_eq_zero_iff.mp (by omega)
  apply (hun.run h₁ hr hnil).page
  rw [h.tab.clientMaps_iff]
  omega

end Runs
end Sisop
