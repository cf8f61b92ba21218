import Sisop.OpenTab

/-! The ids of open files: which slot the server takes, and which ids it accepts. -/
namespace Sisop

section Tab

variable {s t : OpenTab} {i j p q : ℕ} {x r : Word} {given o : Option ℕ}

/-- The counter of every page is the number of its mappings, and the slots have pages of their own. -/
structure TabOk (s : OpenTab) : Prop where
  own : ∀ i p, s.fdPage i = some p → (s.ppRef p).toNat = s.maps p + 1
  other : ∀ p, (∀ i, s.fdPage i ≠ some p) → (s.ppRef p).toNat = s.maps p
  apart : ∀ i j p, s.fdPage i = some p → s.fdPage j = some p → i = j
  free : ∀ p, s.free p = true → s.maps p = 0 ∧ ∀ i, s.fdPage i ≠ some p

/-- Some client has the page of the slot mapped. -/
def OpenTab.ClientMaps (s : OpenTab) (i : ℕ) : Prop := ∃ p, s.fdPage i = some p ∧ 0 < s.maps p

theorem pageref_none (h : s.fdPage i = none) : s.pageref i = 0 := by
  rw [OpenTab.pageref, h]

theorem pageref_some (h : s.fdPage i = some p) : s.pageref i = (s.ppRef p).toNat := by
  rw [OpenTab.pageref, h]

/-- The server tells from the counter whether a client has the page. -/
theorem TabOk.clientMaps_iff (h : TabOk s) : s.ClientMaps i ↔ 1 < s.pageref i := by
  cases hp : s.fdPage i with
  | none =>
    rw [pageref_none hp]
    refine iff_of_false ?_ (by decide)
    rintro ⟨p, hp', -⟩
    rw [hp] at hp'
    cases hp'
  | some p =>
    rw [pageref_some hp, h.own i p hp]
    constructor
    · rintro ⟨q, hq, hpos⟩
      rw [hp] at hq
      cases hq
      omega
    · intro hlt
      exact ⟨p, hp, by omega⟩

/-- A page of which the counter is zero is not in a slot. -/
theorem TabOk.fdPage_none (h : TabOk s) (hz : s.pageref i = 0) : s.fdPage i = none := by
  cases hp : s.fdPage i with
  | none => rfl
  | some p =>
    rw [pageref_some hp, h.own i p hp] at hz
    omega

theorem ref_succ (h : (s.ppRef p).toNat + 1 < 2^16) : (s.ppRef p + 1).toNat = (s.ppRef p).toNat + 1 := by
  bv_omega

theorem ref_pred (h : 0 < (s.ppRef p).toNat) : (s.ppRef p - 1).toNat = (s.ppRef p).toNat - 1 := by
  bv_omega

/-- The same pages and mappings. -/
structure SamePages (s t : OpenTab) : Prop where
  fdPage : t.fdPage = s.fdPage
  maps : t.maps = s.maps
  ppRef : t.ppRef = s.ppRef
  free : t.free = s.free

theorem SamePages.tabOk (hs : SamePages s t) (h : TabOk s) : TabOk t := by
  constructor
  case own =>
    rw [hs.fdPage, hs.ppRef, hs.maps]
    exact h.own
  case other =>
    rw [hs.fdPage, hs.ppRef, hs.maps]
    exact h.other
  case apart =>
    rw [hs.fdPage]
    exact h.apart
  case free =>
    rw [hs.free, hs.maps, hs.fdPage]
    exact h.free

theorem SamePages.trans {u : OpenTab} (h : SamePages s t) (h' : SamePages t u) : SamePages s u :=
  ⟨h'.fdPage.trans h.fdPage, h'.maps.trans h.maps, h'.ppRef.trans h.ppRef, h'.free.trans h.free⟩

theorem samePages_take (s : OpenTab) (i : ℕ) : SamePages s (s.take i) := by
  unfold OpenTab.take
  cases hp : s.fdPage i <;> exact ⟨rfl, rfl, rfl, rfl⟩

theorem samePages_fillIn (s : OpenTab) (i : ℕ) (f omode : Word) : SamePages s (s.fillIn i f omode) := by
  unfold OpenTab.fillIn
  cases hp : s.fdPage i <;> exact ⟨rfl, rfl, rfl, rfl⟩

theorem take_fileid (s : OpenTab) (i j : ℕ) : ((s.take i).opentab j).oFileid =
    if j = i then (s.opentab i).oFileid + BitVec.ofNat 32 maxopen else (s.opentab j).oFileid := by
  have htab : (s.take i).opentab = Function.update s.opentab i
      { s.opentab i with oFileid := (s.opentab i).oFileid + BitVec.ofNat 32 maxopen } := by
    unfold OpenTab.take
    cases hp : s.fdPage i <;> rfl
  rw [htab, Function.update_apply]
  split_ifs <;> rfl

theorem fillIn_fileid (s : OpenTab) (i j : ℕ) (f omode : Word) :
    ((s.fillIn i f omode).opentab j).oFileid = (s.opentab j).oFileid := by
  have htab : (s.fillIn i f omode).opentab =
      Function.update s.opentab i { s.opentab i with oFile := f, oMode := omode } := by
    unfold OpenTab.fillIn
    cases hp : s.fdPage i <;> rfl
  rw [htab, Function.update_apply]
  split_ifs with heq
  · rw [heq]
  · rfl

/-- A client maps a page that is in use. -/
theorem TabOk.map (h : TabOk s) (hp : s.free p = false) (hroom : (s.ppRef p).toNat + 1 < 2^16) :
    TabOk (s.map p) := by
  have href (q : ℕ) : ((s.map p).ppRef q).toNat = (s.ppRef q).toNat + if q = p then 1 else 0 := by
    change (Function.update s.ppRef p (s.ppRef p + 1) q).toNat = _
    rw [Function.update_apply]
    split_ifs with heq
    · rw [ref_succ hroom, heq]
    · rfl
  have hmaps (q : ℕ) : (s.map p).maps q = s.maps q + if q = p then 1 else 0 := by
    change Function.update s.maps p (s.maps p + 1) q = _
    rw [Function.update_apply]
    split_ifs with heq
    · rw [heq]
    · rfl
  constructor
  case own =>
    intro i q hq
    have hown := h.own i q hq
    rw [href, hmaps]
    omega
  case other =>
    intro q hq
    rw [href, hmaps, h.other q hq]
  case apart => exact h.apart
  case free =>
    intro q hq
    have hne : q ≠ p := by
      rintro rfl
      exact Bool.false_ne_true (hp.symm.trans hq)
    rw [hmaps, if_neg hne]
    exact h.free q hq

theorem TabOk.unmap (h : TabOk s) (hp : 0 < s.maps p) : TabOk (s.unmap p) := by
  have hpos : 0 < (s.ppRef p).toNat := by
    by_cases hheld : ∃ i, s.fdPage i = some p
    · obtain ⟨i, hi⟩ := hheld
      rw [h.own i p hi]
      omega
    · rw [h.other p fun i hi => hheld ⟨i, hi⟩]
      exact hp
  have hpages : (s.unmap p).fdPage = s.fdPage ∧ (s.unmap p).maps = Function.update s.maps p (s.maps p - 1) ∧
      (s.unmap p).ppRef = Function.update s.ppRef p (s.ppRef p - 1) ∧
      ∀ q, (s.unmap p).free q = true → s.free q = true ∨ q = p ∧ s.ppRef p - 1 = 0 := by
    unfold OpenTab.unmap OpenTab.decref OpenTab.setRef
    dsimp only
    split_ifs with hz
    · rw [Function.update_self] at hz
      refine ⟨rfl, rfl, rfl, fun q hq => ?_⟩
      change Function.update s.free p true q = true at hq
      rw [Function.update_apply] at hq
      split_ifs at hq with heq
      · exact Or.inr ⟨heq, hz⟩
      · exact Or.inl hq
    · exact ⟨rfl, rfl, rfl, fun q hq => Or.inl hq⟩
  obtain ⟨hfd, hmaps, href, hfree⟩ := hpages
  have href' (q : ℕ) : ((s.unmap p).ppRef q).toNat = (s.ppRef q).toNat - if q = p then 1 else 0 := by
    rw [href, Function.update_apply]
    split_ifs with heq
    · rw [ref_pred hpos, heq]
    · rfl
  have hmaps' (q : ℕ) : (s.unmap p).maps q = s.maps q - if q = p then 1 else 0 := by
    rw [hmaps, Function.update_apply]
    split_ifs with heq
    · rw [heq]
    · rfl
  constructor
  case own =>
    intro i q hq
    rw [hfd] at hq
    have hown := h.own i q hq
    rw [href', hmaps']
    split_ifs with heq
    · rw [heq] at hown ⊢
      omega
    · exact hown
  case other =>
    intro q hq
    rw [hfd] at hq
    rw [href', hmaps', h.other q hq]
  case apart =>
    rw [hfd]
    exact h.apart
  case free =>
    intro q hq
    rw [hfd, hmaps']
    rcases hfree q hq with hold | ⟨rfl, hz⟩
    · obtain ⟨hnone, hheld⟩ := h.free q hold
      exact ⟨by omega, hheld⟩
    · -- the last mapping is gone
      have hone : (s.ppRef q).toNat = 1 := by
        have hpred := ref_pred hpos
        rw [hz] at hpred
        change 0 = _ at hpred
        omega
      have hheld (i : ℕ) : s.fdPage i ≠ some q := by
        intro hi
        have hown := h.own i q hi
        omega
      rw [h.other q hheld] at hone
      rw [if_pos rfl]
      exact ⟨by omega, hheld⟩

theorem TabOk.getPage (h : TabOk s) (hp : s.free p = true) : TabOk (s.getPage p) := by
  obtain ⟨hnone, hheld⟩ := h.free p hp
  have hzero : (s.ppRef p).toNat = 0 := (h.other p hheld).trans hnone
  have hused : TabOk { s with free := Function.update s.free p false } := by
    refine ⟨h.own, h.other, h.apart, fun q hq => ?_⟩
    change Function.update s.free p false q = true at hq
    rw [Function.update_apply] at hq
    split_ifs at hq
    exact h.free q hq
  have hmap := hused.map (p := p) (Function.update_self _ _ _) (by
    change (s.ppRef p).toNat + 1 < 2^16
    omega)
  exact hmap

/-- A new page for a slot that has none. -/
theorem TabOk.pageAlloc (h : TabOk s) (hi : s.fdPage i = none) (hp : s.free p = true) :
    TabOk (s.pageAlloc i p) := by
  obtain ⟨hnone, hheld⟩ := h.free p hp
  have hzero : (s.ppRef p).toNat = 0 := (h.other p hheld).trans hnone
  have halloc : s.pageAlloc i p = { s with
      ppRef := Function.update s.ppRef p (s.ppRef p + 1)
      free := Function.update s.free p false
      fdPage := Function.update s.fdPage i (some p) } := by
    unfold OpenTab.pageAlloc
    rw [hi]
    rfl
  have hslot (j q : ℕ) : Function.update s.fdPage i (some p) j = some q ↔ j = i ∧ q = p ∨ j ≠ i ∧ s.fdPage j = some q := by
    rw [Function.update_apply]
    split_ifs with heq
    · rw [Option.some_inj]
      exact ⟨fun hq => Or.inl ⟨heq, hq.symm⟩, fun hq => hq.elim (fun hq => hq.2.symm) fun hq => absurd heq hq.1⟩
    · exact ⟨fun hq => Or.inr ⟨heq, hq⟩, fun hq => hq.elim (fun hq => absurd hq.1 heq) fun hq => hq.2⟩
  have href (q : ℕ) : (Function.update s.ppRef p (s.ppRef p + 1) q).toNat =
      (s.ppRef q).toNat + if q = p then 1 else 0 := by
    rw [Function.update_apply]
    split_ifs with heq
    · rw [ref_succ (by omega), heq]
    · rfl
  rw [halloc]
  constructor
  case own =>
    intro j q hq
    rw [href]
    rcases (hslot j q).mp hq with ⟨-, rfl⟩ | ⟨-, hq⟩
    · rw [if_pos rfl, hzero, hnone]
    · have hne : q ≠ p := fun heq => hheld j (heq ▸ hq)
      rw [if_neg hne]
      exact h.own j q hq
  case other =>
    intro q hq
    have hne : q ≠ p := fun heq => hq i ((hslot i q).mpr (Or.inl ⟨rfl, heq⟩))
    rw [href, if_neg hne]
    apply h.other
    intro j hj
    refine hq j ((hslot j q).mpr (Or.inr ⟨?_, hj⟩))
    rintro rfl
    rw [hi] at hj
    cases hj
  case apart =>
    intro j k q hj hk
    rcases (hslot j q).mp hj with ⟨rfl, rfl⟩ | ⟨-, hj'⟩
    · rcases (hslot k q).mp hk with ⟨rfl, -⟩ | ⟨-, hk'⟩
      · rfl
      · exact absurd hk' (hheld k)
    · rcases (hslot k q).mp hk with ⟨rfl, rfl⟩ | ⟨-, hk'⟩
      · exact absurd hj' (hheld j)
      · exact h.apart j k q hj' hk'
  case free =>
    intro q hq
    change Function.update s.free p false q = true at hq
    rw [Function.update_apply] at hq
    split_ifs at hq with heq
    obtain ⟨hmaps, hpages⟩ := h.free q hq
    refine ⟨hmaps, fun j hj => ?_⟩
    rcases (hslot j q).mp hj with ⟨-, hj⟩ | ⟨-, hj⟩
    · exact heq hj
    · exact hpages j hj

/-- What `openfile_alloc` does when it returns a slot. -/
structure Taken (given : Option ℕ) (i : ℕ) (x : Word) (s t : OpenTab) : Prop where
  usable : s.usable = some i
  id : x = (s.opentab i).oFileid + BitVec.ofNat 32 maxopen
  ids : ∀ j, (t.opentab j).oFileid = if j = i then x else (s.opentab j).oFileid
  pages : SamePages s t ∧ s.pageref i ≠ 0 ∨ ∃ p, given = some p ∧ s.pageref i = 0 ∧ SamePages (s.pageAlloc i p) t

theorem usable_some (h : s.usable = some i) : i < maxopen ∧ s.pageref i ≤ 1 := by
  have hmem := List.mem_of_find?_eq_some h
  have hle := List.find?_some h
  exact ⟨List.mem_range.mp hmem, of_decide_eq_true hle⟩

theorem usable_of_le (hi : i < maxopen) (hle : s.pageref i ≤ 1) : ∃ j, s.usable = some j := by
  apply Option.isSome_iff_exists.mp
  rw [OpenTab.usable, List.find?_isSome]
  exact ⟨i, List.mem_range.mpr hi, decide_eq_true hle⟩

theorem openfileAlloc_cases (h : openfileAlloc given s = .ret (r, o) t) :
    (o = none ∧ t = s ∧ r.toInt < 0) ∨ ∃ i, o = some i ∧ Taken given i r s t := by
  unfold openfileAlloc at h
  cases hu : s.usable with
  | none =>
    rw [hu] at h
    cases h
    exact Or.inl ⟨rfl, rfl, by decide⟩
  | some i =>
    rw [hu] at h
    dsimp only at h
    split_ifs at h with hz
    · cases given with
      | none =>
        cases h
        exact Or.inl ⟨rfl, rfl, by decide⟩
      | some p =>
        have hself := take_fileid (s.pageAlloc i p) i
        have hids : (s.pageAlloc i p).opentab = s.opentab := by
          unfold OpenTab.pageAlloc OpenTab.decref
          cases hp : s.fdPage i with
          | none => rfl
          | some q =>
            dsimp only [Option.elim]
            split_ifs <;> rfl
        rw [hids] at hself
        cases h
        refine Or.inr ⟨i, rfl, hu, ?_, ?_, Or.inr ⟨p, rfl, hz, samePages_take _ _⟩⟩
        · exact (hself i).trans (if_pos rfl)
        · intro j
          rw [hself j, hself i, if_pos rfl]
    · have hself := take_fileid s i
      cases h
      refine Or.inr ⟨i, rfl, hu, ?_, ?_, Or.inl ⟨samePages_take _ _, hz⟩⟩
      · exact (hself i).trans (if_pos rfl)
      · intro j
        rw [hself j, hself i, if_pos rfl]

/-- It returns a slot when there is one, and memory. -/
theorem openfileAlloc_usable (hu : s.usable = some i) :
    ∃ r t, openfileAlloc (some p) s = .ret (r, some i) t := by
  unfold openfileAlloc
  rw [hu]
  dsimp only
  split_ifs
  · exact ⟨_, _, rfl⟩
  · exact ⟨_, _, rfl⟩

theorem allocated_eq (h : openfileAlloc given s = .ret (r, o) t) : allocated given s = o.map fun i => (i, r) := by
  unfold allocated
  rw [h]
  cases o <;> rfl

theorem Taken.tabOk (h : Taken given i x s t) (hok : TabOk s) (hmem : ∀ p, given = some p → s.free p = true) :
    TabOk t := by
  rcases h.pages with ⟨hsame, -⟩ | ⟨p, hp, hz, hsame⟩
  · exact hsame.tabOk hok
  · exact hsame.tabOk (hok.pageAlloc (hok.fdPage_none hz) (hmem p hp))

/-- No client has the page of a slot that is taken. -/
theorem Taken.not_mapped (h : Taken given i x s t) (hok : TabOk s) : ¬ s.ClientMaps i := by
  rw [hok.clientMaps_iff, Nat.not_lt]
  exact (usable_some h.usable).2

/-- Other slots keep their pages, and a page that was there keeps its mappings. -/
theorem Taken.other (h : Taken given i x s t) (hok : TabOk s) (hne : j ≠ i) :
    t.fdPage j = s.fdPage j ∧ t.maps = s.maps := by
  rcases h.pages with ⟨hsame, -⟩ | ⟨p, -, hz, hsame⟩
  · exact ⟨congrFun hsame.fdPage j, hsame.maps⟩
  · rw [hsame.fdPage, hsame.maps]
    unfold OpenTab.pageAlloc
    rw [hok.fdPage_none hz]
    exact ⟨Function.update_of_ne hne _ _, rfl⟩

end Tab

section Serve

variable {given pg : Option ℕ} {bytes : List (BitVec 8)} {omode r : Word} {s s' : Server}

/-- What `serve_open` does with the table of open files. -/
theorem serveOpen_ret (h : serveOpen given bytes omode s = .ret (r, pg) s') :
    ∃ x o t, openfileAlloc given s.tab = .ret (x, o) t ∧ SamePages t s'.tab ∧
      (∀ j, (s'.tab.opentab j).oFileid = (t.opentab j).oFileid) ∧ (pg = none ∨ pg = o) := by
  unfold serveOpen at h
  obtain ⟨⟨x, o⟩, s₁, halloc, h⟩ := Routine.bind_eq_ret.mp h
  obtain ⟨t, htab, rfl⟩ : ∃ t, openfileAlloc given s.tab = .ret (x, o) t ∧ s₁ = { s with tab := t } := by
    unfold Routine.zoom at halloc
    cases hr : openfileAlloc given s.tab with
    | ret a t =>
      simp only [hr] at halloc
      cases halloc
      exact ⟨t, rfl, rfl⟩
    | left t => simp only [hr, reduceCtorEq] at halloc
    | halt => simp only [hr, reduceCtorEq] at halloc
  refine ⟨x, o, t, htab, ?_⟩
  have hsame : SamePages t t := ⟨rfl, rfl, rfl, rfl⟩
  dsimp only at h
  split_ifs at h with hneg
  · cases h
    exact ⟨hsame, fun _ => rfl, Or.inl rfl⟩
  · cases o with
    | none =>
      cases h
      exact ⟨hsame, fun _ => rfl, Or.inl rfl⟩
    | some i =>
      obtain ⟨opened, s₂, hfs, h⟩ := Routine.bind_eq_ret.mp h
      have htab₂ : s₂.tab = t := by
        unfold Routine.zoom at hfs
        cases hr : openPath (reqPath bytes) omode s.fs with
        | ret a u =>
          simp only [hr] at hfs
          cases hfs
          rfl
        | left u => simp only [hr, reduceCtorEq] at hfs
        | halt => simp only [hr, reduceCtorEq] at hfs
      cases opened with
      | error e =>
        cases h
        rw [htab₂]
        exact ⟨hsame, fun _ => rfl, Or.inl rfl⟩
      | ok f =>
        obtain ⟨hval, hs⟩ := Outcome.ret.inj h
        cases hval
        rw [← hs]
        dsimp only
        rw [htab₂]
        exact ⟨samePages_fillIn t i f omode, fun j => fillIn_fileid t i j f omode, Or.inr rfl⟩

theorem serveOpen_cases (h : serveOpen given bytes omode s = .ret (r, pg) s') :
    (allocated given s.tab = none ∧ SamePages s.tab s'.tab ∧
      (∀ j, (s'.tab.opentab j).oFileid = (s.tab.opentab j).oFileid) ∧ pg = none) ∨
    ∃ x i, allocated given s.tab = some (i, x) ∧ Taken given i x s.tab s'.tab ∧ (pg = none ∨ pg = some i) := by
  obtain ⟨x, o, t, halloc, hsame, hids, hpg⟩ := serveOpen_ret h
  rw [allocated_eq halloc]
  rcases openfileAlloc_cases halloc with ⟨rfl, rfl, -⟩ | ⟨i, rfl, htaken⟩
  · exact Or.inl ⟨rfl, hsame, hids, hpg.elim id id⟩
  · right
    refine ⟨x, i, rfl, ⟨htaken.usable, htaken.id, fun j => (hids j).trans (htaken.ids j), ?_⟩, hpg⟩
    rcases htaken.pages with ⟨hs, hz⟩ | ⟨p, hp, hz, hs⟩
    · exact Or.inl ⟨hs.trans hsame, hz⟩
    · exact Or.inr ⟨p, hp, hz, hs.trans hsame⟩

end Serve
end Sisop
