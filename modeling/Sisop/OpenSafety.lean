import Sisop.OpenRuns

/-! When a slot for an open file can be had, and whether an id belongs to its holders. -/
namespace Sisop

section Safety

variable {s s' s₀ s₁ : FsSys} {es es₁ es₂ : List OpenEvent} {e : OpenEvent} {i j n c p : ℕ} {x r : Word}

/-- Which ids are accepted, in a run that goes on after the events `es₁`. -/
structure OpenIdsSafe (es₁ : List OpenEvent) (s₁ : FsSys) (es₂ : List OpenEvent) (s : FsSys) : Prop where
  lookup : ∀ x, openfileLookup s.srv.tab x = .ok (x.toNat % maxopen) ↔
    (idsOf (es₁ ++ es₂) (x.toNat % maxopen)).getLast? = some x ∧ s.srv.tab.ClientMaps (x.toNat % maxopen)
  stale : ∀ i < maxopen, Unmapped i s₁ → (idsOf (es₁ ++ es₂) i).length ≤ 2^22 → ∀ x ∈ idsOf es₁ i,
    openfileLookup s.srv.tab x = .error .inval
  kept : ∀ i x s', OpenStep s (.serve (some (i, x))) s' → ¬ s.srv.tab.ClientMaps i

theorem FileIdsOk.kept (h : FileIdsOk es s) (hs : OpenStep s (.serve (some (i, x))) s') : ¬ s.srv.tab.ClientMaps i := by
  have hsafe : OpenSafeStep s (.serve (some (i, x))) s' := ⟨hs, nofun, nofun⟩
  rcases hsafe.cases h.tab with ⟨hquiet, -⟩ | ⟨given, y, j, htaken, -, heq⟩
  · have hnone := hquiet i
    change (if i = i then some x else none) = none at hnone
    rw [if_pos rfl] at hnone
    cases hnone
  · cases heq
    exact htaken.not_mapped h.tab

theorem FileIdsOk.safe (h₁ : FileIdsOk es₁ s₁) (h : FileIdsOk (es₁ ++ es₂) s) (hr : Run OpenSafeStep s₁ es₂ s) :
    OpenIdsSafe es₁ s₁ es₂ s := by
  constructor
  case lookup => exact h.lookup_iff
  case stale => exact fun i hi hun hfew x hx => h₁.stale h hr hi hun hx hfew
  case kept => exact fun i x s' hs => h.kept hs

/-- As long as no counter of a page overflows, ids are accepted while a client has the page. -/
theorem open_ids_safe (h : OpenStart s₀) (h₁ : Run OpenSafeStep s₀ es₁ s₁) (h₂ : Run OpenSafeStep s₁ es₂ s) :
    OpenIdsSafe es₁ s₁ es₂ s :=
  (h.run h₁).safe (h.run (h₁.trans h₂)) h₂

/-- What `openfile_alloc` and `serve_open` are to do when there is a slot and memory. -/
def SlotsUsable (s : FsSys) : Prop :=
  ∀ p, (∃ i < maxopen, s.srv.tab.pageref i ≤ 1) → ∃ r j t,
    openfileAlloc (some p) s.srv.tab = .ret (r, some j) t ∧ 0 ≤ r.toInt ∧ r.toNat % maxopen = j ∧
    ¬ s.srv.tab.ClientMaps j ∧ ∀ bytes omode f fs, openPath (reqPath bytes) omode s.srv.fs = .ret (.ok f) fs →
      ∃ srv, serveOpen (some p) bytes omode s.srv = .ret (0#32, some j) srv

/-- A safe step that leaves a slot an id that can be advanced once more. -/
structure OpenFewStep (s : FsSys) (e : OpenEvent) (s' : FsSys) : Prop where
  safe : OpenSafeStep s e s'
  few : ∀ i x, e = .serve (some (i, x)) → (s.srv.tab.opentab i).oFileid.toNat + 2 * maxopen < 2^31

/-- No slot is near the end of its ids. -/
def IdsLeft (s : FsSys) : Prop := ∀ i < maxopen, (s.srv.tab.opentab i).oFileid.toNat + maxopen < 2^31

theorem OpenStart.idsLeft (h : OpenStart s) : IdsLeft s := by
  intro i hi
  rw [h.ids i hi]
  change i < 1024 at hi
  change (BitVec.ofNat 32 i).toNat + 1024 < 2^31
  rw [BitVec.toNat_ofNat]
  omega

theorem next_id_toNat {w : Word} (h : w.toNat + maxopen < 2^31) :
    (w + BitVec.ofNat 32 maxopen).toNat = w.toNat + maxopen := by
  change w.toNat + 1024 < 2^31 at h
  change (w + 1024#32).toNat = w.toNat + 1024
  bv_omega

theorem IdsLeft.step (h : IdsLeft s) (hok : TabOk s.srv.tab) (hs : OpenFewStep s e s') : IdsLeft s' := by
  intro j hj
  rcases hs.safe.cases hok with ⟨-, hids, -, -⟩ | ⟨given, x, i, htaken, -, rfl⟩
  · rw [hids]
    exact h j hj
  · rw [htaken.ids j]
    split_ifs with heq
    · have hfew := hs.few i x rfl
      change _ + 2 * 1024 < 2^31 at hfew
      rw [htaken.id, next_id_toNat (h i (usable_some htaken.usable).1)]
      change _ + 1024 + 1024 < 2^31
      omega
    · exact h j hj

theorem serveOpen_ok {bytes : List (BitVec 8)} {omode f : Word} {fs : Fs} {t : OpenTab} {given : Option ℕ}
    (halloc : openfileAlloc given s.srv.tab = .ret (r, some j) t) (hr : 0 ≤ r.toInt)
    (hfs : openPath (reqPath bytes) omode s.srv.fs = .ret (.ok f) fs) :
    serveOpen given bytes omode s.srv = .ret (0#32, some j) ⟨t.fillIn j f omode, fs⟩ := by
  have hzoom : Routine.zoom Server.tab (fun t s => { s with tab := t }) (openfileAlloc given) s.srv =
      .ret (r, some j) ⟨t, s.srv.fs⟩ := by
    unfold Routine.zoom
    rw [halloc]
  have hzoom' : Routine.zoom Server.fs (fun t s => { s with fs := t }) (openPath (reqPath bytes) omode)
      ⟨t, s.srv.fs⟩ = .ret (.ok f) ⟨t, fs⟩ := by
    unfold Routine.zoom
    rw [hfs]
  unfold serveOpen
  rw [Routine.bind_ret hzoom]
  dsimp only
  rw [if_neg (not_lt.mpr hr), Routine.bind_ret hzoom']
  rfl

theorem FileIdsOk.usable (h : FileIdsOk es s) (hleft : IdsLeft s) : SlotsUsable s := by
  rintro p ⟨i, hi, hle⟩
  obtain ⟨j, hj⟩ := usable_of_le hi hle
  obtain ⟨r, t, halloc⟩ := @openfileAlloc_usable _ _ p hj
  rcases openfileAlloc_cases halloc with ⟨hnone, -⟩ | ⟨j', heq, htaken⟩
  · cases hnone
  cases heq
  have hlt := (usable_some hj).1
  have hnat := next_id_toNat (hleft j hlt)
  rw [← htaken.id] at hnat
  have hsmall := hleft j hlt
  change _ + 1024 < 2^31 at hsmall
  have hpos : 0 ≤ r.toInt := by
    rw [BitVec.toInt_eq_toNat_of_lt]
    · exact Int.natCast_nonneg _
    · change r.toNat = _ + 1024 at hnat
      omega
  refine ⟨r, j, t, halloc, hpos, ?_, htaken.not_mapped h.tab, fun bytes omode f fs hfs => ?_⟩
  · rw [htaken.id, h.ids j hlt, fileidAt_succ]
    exact fileidAt_slot hlt _
  · exact ⟨_, serveOpen_ok halloc hpos hfs⟩

/-- There is a usable slot whenever the server finds one, as long as the ids are not used up. -/
theorem open_slots_usable (h : OpenStart s₀) (hr : Run OpenFewStep s₀ es s) : SlotsUsable s := by
  have hrun : FileIdsOk es s ∧ IdsLeft s := by
    refine hr.invariant (I := fun es s => FileIdsOk es s ∧ IdsLeft s) ⟨h.fileIdsOk, h.idsLeft⟩ ?_
    rintro es e t u ⟨hok, hleft⟩ hs
    exact ⟨hok.step hs.safe, hleft.step hok.tab hs⟩
  exact hrun.1.usable hrun.2

/-- A server that has served nothing. All pages are free. -/
def newServer : FsSys :=
  ⟨⟨⟨fun i => ⟨BitVec.ofNat 32 i, 0#32, 0#32⟩, fun _ => none, fun _ => ⟨0#32, 0#32, 0#32⟩, fun _ => 0, fun _ => 0#16,
    fun _ => true⟩, ⟨fun _ => 0#8, fun _ => 0#8, fun _ => false⟩⟩, none⟩

theorem openStart_newServer : OpenStart newServer :=
  ⟨fun _ _ => rfl, fun _ => rfl, fun _ => rfl, fun _ _ => rfl, rfl⟩

/-- Slot 0 has been taken `n` times, and clients have its page mapped `c` times. -/
structure SlotZero (n c : ℕ) (s : FsSys) : Prop where
  page : s.srv.tab.fdPage 0 = some 0
  maps : s.srv.tab.maps 0 = c
  ref : s.srv.tab.ppRef 0 = BitVec.ofNat 16 (c + 1)
  id : (s.srv.tab.opentab 0).oFileid = fileidAt 0 n

theorem openPath_root (fs : Fs) : openPath (reqPath [slash]) 0#32 fs = .ret (.ok rootAddr) fs := by
  have hwalk : walkPath fileGetBlock [slash] fs = .ret (.found none rootAddr) fs := by
    change walkFrom fileGetBlock [] none rootAddr fs = _
    rw [walkFrom, dif_pos rfl]
    rfl
  have hopen : fileOpen fileGetBlock [slash] fs = .ret (.ok rootAddr) fs := Routine.bind_ret hwalk
  have hpath : reqPath [slash] = [slash] := by decide
  rw [hpath, openPath]
  change (fileOpen fileGetBlock [slash] >>= _) fs = _
  rw [Routine.bind_ret hopen]
  exact hopen

theorem usable_zero (h : s.srv.tab.pageref 0 ≤ 1) : s.srv.tab.usable = some 0 := by
  apply List.find?_range_eq_some.mpr
  exact ⟨decide_eq_true h, List.mem_range.mpr (by decide), fun j hj => absurd hj (Nat.not_lt_zero j)⟩

/-- The client opens the root directory, for which the server takes slot 0. -/
theorem serve_zero {given : Option ℕ} {t : OpenTab} (hidle : s.reply = none)
    (hmem : ∀ q, given = some q → s.srv.tab.free q = true)
    (halloc : openfileAlloc given s.srv.tab = .ret (x, some 0) t) (hx : 0 ≤ x.toInt) (ht : SlotZero n c ⟨⟨t, s.srv.fs⟩, none⟩) :
    ∃ s', OpenStep s (.serve (some (0, x))) s' ∧ SlotZero n c s' ∧ s'.reply = some 0 := by
  have hserve := serveOpen_ok halloc hx (openPath_root s.srv.fs)
  have hstep := OpenStep.serve hidle hmem hserve
  rw [allocated_eq halloc] at hstep
  have hsame := samePages_fillIn t 0 rootAddr 0#32
  refine ⟨_, hstep, ⟨?_, ?_, ?_, ?_⟩, rfl⟩
  · exact (congrFun hsame.fdPage 0).trans ht.page
  · exact (congrFun hsame.maps 0).trans ht.maps
  · exact (congrFun hsame.ppRef 0).trans ht.ref
  · exact (fillIn_fileid t 0 0 _ _).trans ht.id

/-- The first time the slot gets a page. -/
theorem serve_first :
    ∃ s', OpenStep newServer (.serve (some (0, fileidAt 0 1))) s' ∧ SlotZero 1 0 s' ∧ s'.reply = some 0 := by
  have hu : newServer.srv.tab.usable = some 0 := usable_zero (Nat.zero_le 1)
  have halloc : openfileAlloc (some 0) newServer.srv.tab =
      .ret (fileidAt 0 1, some 0) ((newServer.srv.tab.pageAlloc 0 0).take 0) := by
    have hid : (((newServer.srv.tab.pageAlloc 0 0).take 0).opentab 0).oFileid = fileidAt 0 1 := by
      rw [take_fileid, if_pos rfl]
      decide
    unfold openfileAlloc
    rw [hu]
    dsimp only
    rw [if_pos (pageref_none rfl), hid]
  refine serve_zero rfl (fun _ _ => rfl) halloc (by decide) ?_
  have hsame := samePages_take (newServer.srv.tab.pageAlloc 0 0) 0
  constructor
  case page => exact congrFun hsame.fdPage 0
  case maps => exact congrFun hsame.maps 0
  case ref => exact congrFun hsame.ppRef 0
  case id =>
    rw [take_fileid, if_pos rfl]
    decide

/-- After that the slot is taken with the page it has, when the counter is 1. -/
theorem serve_again (h : SlotZero n c s) (hidle : s.reply = none) (href : BitVec.ofNat 16 (c + 1) = 1#16)
    (hx : 0 ≤ (fileidAt 0 (n + 1)).toInt) :
    ∃ s', OpenStep s (.serve (some (0, fileidAt 0 (n + 1)))) s' ∧ SlotZero (n + 1) c s' ∧ s'.reply = some 0 := by
  have hone : s.srv.tab.pageref 0 = 1 := by
    rw [pageref_some h.page, h.ref, href]
    rfl
  have hu := usable_zero (Nat.le_of_eq hone)
  have hid : ((s.srv.tab.take 0).opentab 0).oFileid = fileidAt 0 (n + 1) := by
    rw [take_fileid, if_pos rfl, h.id, fileidAt_succ]
  have halloc : openfileAlloc none s.srv.tab = .ret (fileidAt 0 (n + 1), some 0) (s.srv.tab.take 0) := by
    unfold openfileAlloc
    rw [hu]
    dsimp only
    rw [if_neg (by omega), hid]
  have hnone (q : ℕ) (hq : none = some q) : s.srv.tab.free q = true := nomatch hq
  refine serve_zero hidle hnone halloc hx ?_
  have hsame := samePages_take s.srv.tab 0
  constructor
  case page => exact (congrFun hsame.fdPage 0).trans h.page
  case maps => exact (congrFun hsame.maps 0).trans h.maps
  case ref => exact (congrFun hsame.ppRef 0).trans h.ref
  case id => exact hid

theorem slotZero_map (h : SlotZero n c s) {o : Option ℕ} :
    SlotZero n (c + 1) ⟨{ s.srv with tab := s.srv.tab.map 0 }, o⟩ := by
  constructor
  case page => exact h.page
  case maps =>
    change Function.update s.srv.tab.maps 0 (s.srv.tab.maps 0 + 1) 0 = _
    rw [Function.update_self, h.maps]
  case ref =>
    change Function.update s.srv.tab.ppRef 0 (s.srv.tab.ppRef 0 + 1) 0 = _
    rw [Function.update_self, h.ref]
    exact (BitVec.ofNat_add (c + 1) 1).symm
  case id => exact h.id

/-- A client opens the root directory. -/
theorem run_first : ∃ s, Run OpenStep newServer [.serve (some (0, fileidAt 0 1)), .send 0] s ∧ SlotZero 1 1 s ∧ s.reply = none := by
  obtain ⟨s, hs, hzero, hreply⟩ := serve_first
  exact ⟨_, (Run.single hs).snoc (.send hreply hzero.page), slotZero_map hzero, rfl⟩

/-- Then it maps the page again and again. -/
theorem run_maps (h : SlotZero n (c + 1) s) (hidle : s.reply = none) (k : ℕ) :
    ∃ s', Run OpenStep s (List.replicate k (.map 0)) s' ∧ SlotZero n (c + 1 + k) s' ∧ s'.reply = none := by
  induction k with
  | zero => exact ⟨s, .nil, h, hidle⟩
  | succ k ih =>
    obtain ⟨t, ht, hzero, hreply⟩ := ih
    have hpos : 0 < t.srv.tab.maps 0 := by
      rw [hzero.maps]
      omega
    rw [List.replicate_succ']
    refine ⟨_, ht.snoc (.map hpos), ?_, hreply⟩
    exact slotZero_map hzero

/-- With 65537 mappings the counter of the page is 1, and its slot is taken. -/
theorem open_ids_overflow : ∃ s₀ es s i x s', OpenStart s₀ ∧ Run OpenStep s₀ es s ∧ (idsOf es i).length < 2^22 ∧
    OpenStep s (.serve (some (i, x))) s' ∧ s.srv.tab.ClientMaps i := by
  obtain ⟨s, hs, hzero, hidle⟩ := run_first
  obtain ⟨t, ht, hzero', hidle'⟩ := run_maps hzero hidle 65535
  obtain ⟨u, hu, -, -⟩ := serve_again hzero' hidle' (by decide) (by decide)
  refine ⟨newServer, _, t, 0, _, u, openStart_newServer, hs.trans ht, ?_, hu, 0, hzero'.page, ?_⟩
  · have hids : idsOf ([OpenEvent.serve (some (0, fileidAt 0 1)), .send 0] ++ List.replicate 65535 (.map 0)) 0 =
        [fileidAt 0 1] := by
      rw [idsOf_append]
      have hnone : idsOf (List.replicate 65535 (OpenEvent.map 0)) 0 = [] := by
        apply List.filterMap_eq_nil_iff.mpr
        intro e he
        rw [List.eq_of_mem_replicate he]
        rfl
      rw [hnone]
      rfl
    rw [hids]
    decide
  · rw [hzero'.maps]
    decide

/-- A server that opens the root directory `n` times, for clients that do not take it. -/
theorem run_opens (hn : n + 1 < 2^21) : ∃ es s, Run OpenStep newServer es s ∧ SlotZero (n + 1) 0 s ∧ s.reply = none := by
  induction n with
  | zero =>
    obtain ⟨s, hs, hzero, hreply⟩ := serve_first
    exact ⟨_, _, (Run.single hs).snoc (.skip hreply), ⟨hzero.page, hzero.maps, hzero.ref, hzero.id⟩, rfl⟩
  | succ n ih =>
    obtain ⟨es, s, hs, hzero, hidle⟩ := ih (by omega)
    have hx : 0 ≤ (fileidAt 0 (n + 1 + 1)).toInt := by
      have hnat : (fileidAt 0 (n + 1 + 1)).toNat = 1024 * (n + 2) := by
        change (BitVec.ofNat 32 (0 + 1024 * (n + 1 + 1))).toNat = _
        rw [BitVec.toNat_ofNat]
        omega
      rw [BitVec.toInt_eq_toNat_of_lt (by omega)]
      exact Int.natCast_nonneg _
    obtain ⟨t, ht, hzero', hreply⟩ := serve_again hzero hidle (by decide) hx
    exact ⟨_, _, (hs.snoc ht).snoc (.skip hreply), ⟨hzero'.page, hzero'.maps, hzero'.ref, hzero'.id⟩, rfl⟩

/-- The slot that has been taken 2^21 - 1 times gets a negative id. -/
theorem open_slots_used_up : ∃ s₀ es s, OpenStart s₀ ∧ Run OpenStep s₀ es s ∧ ¬ SlotsUsable s := by
  obtain ⟨es, s, hs, hzero, -⟩ := @run_opens (2^21 - 2) (by decide)
  refine ⟨newServer, es, s, openStart_newServer, hs, fun husable => ?_⟩
  have hone : s.srv.tab.pageref 0 = 1 := by
    rw [pageref_some hzero.page, hzero.ref]
    rfl
  obtain ⟨r, j, t, halloc, hpos, -⟩ := husable 0 ⟨0, by decide, Nat.le_of_eq hone⟩
  rcases openfileAlloc_cases halloc with ⟨hnone, -⟩ | ⟨i, heq, htaken⟩
  · cases hnone
  cases heq
  have hzero' : j = 0 := by
    have hu := usable_zero (Nat.le_of_eq hone)
    rw [htaken.usable] at hu
    exact Option.some.inj hu
  rw [htaken.id, hzero', hzero.id] at hpos
  exact absurd hpos (by decide)

/-- The root directory is opened, and closed again. -/
theorem open_ids_safe_root : ∃ s₁ s, OpenIdsSafe [.serve (some (0, fileidAt 0 1)), .send 0] s₁ [.unmap 0] s := by
  obtain ⟨s, hs, hzero, hreply⟩ := serve_first
  have hsafe : OpenSafeStep newServer (.serve (some (0, fileidAt 0 1))) s := ⟨hs, nofun, nofun⟩
  have hsend : OpenSafeStep s (.send 0) ⟨{ s.srv with tab := s.srv.tab.map 0 }, none⟩ := by
    refine ⟨.send hreply hzero.page, nofun, fun i p he hp => ?_⟩
    cases he
    rw [hzero.page] at hp
    cases hp
    rw [hzero.ref]
    decide
  have hmaps := (slotZero_map hzero (o := none)).maps
  have hunmap := OpenStep.unmap (s := ⟨{ s.srv with tab := s.srv.tab.map 0 }, none⟩) (p := 0) (by
    rw [hmaps]
    decide)
  exact ⟨_, _, open_ids_safe openStart_newServer ((Run.single hsafe).snoc hsend) (.single ⟨hunmap, nofun, nofun⟩)⟩

/-- After one open there is a slot for the next. -/
theorem open_slots_usable_root : ∃ s, SlotZero 1 0 s ∧ SlotsUsable s := by
  obtain ⟨s, hs, hzero, hreply⟩ := serve_first
  have hfirst : OpenFewStep newServer (.serve (some (0, fileidAt 0 1))) s := by
    refine ⟨⟨hs, nofun, nofun⟩, fun i x he => ?_⟩
    cases he
    decide
  have hskip : OpenFewStep s .skip { s with reply := none } := ⟨⟨.skip hreply, nofun, nofun⟩, nofun⟩
  exact ⟨{ s with reply := none }, ⟨hzero.page, hzero.maps, hzero.ref, hzero.id⟩,
    open_slots_usable openStart_newServer ((Run.single hfirst).snoc hskip)⟩

end Safety
end Sisop
