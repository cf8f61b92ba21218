import Sisop.PipeRefs
import Mathlib.Data.Fintype.Option

/-! `_pipeisclosed` compares two page counts that it reads one after the other. Whether
its answer can be trusted depends on what happens to the pages of the pipe meanwhile. -/
namespace Sisop

/-- A child of `fork` has got a descriptor page of the pipe, but not yet the page of the pipe. -/
def HalfCopied {E : Type} (pp : PipePages) (s : FdSys E) : Prop :=
  ∃ c, s.pc c = .embryo ∧ ¬ SlotsOk pp (s.space c)

/-- No mapping of the page is removed. -/
def KeepsMapped {E : Type} (s s' : FdSys E) (p : ℕ) : Prop :=
  ∀ e pn, mappedPage (s.space e) pn = some p → mappedPage (s'.space e) pn = some p

/-- The environment has read the count of one of its descriptor pages of the pipe, and has
not been interrupted since; it is about to read the count of the page of the pipe. -/
def BetweenReads {E : Type} (pp : PipePages) (s : FdSys E) (e : E) : Prop :=
  ∃ i n p, s.pc e = .pagerefData i (s.runs e) n ∧ mappedPage (s.space e) (index2fd i) = some p ∧ pp.IsFd p

/-- A step that does not mislead a closed test of the pipe. -/
structure FdSafeStep {E : Type} [DecidableEq E] [Fintype E] (dev : ℕ → Option Dev) (pp : PipePages)
    (s : FdSys E) (ev : FdEvent E) (s' : FdSys E) : Prop where
  step : FdStep dev s ev s'
  fits : ev.Fits
  copied : ∀ e, ev = .pagerefFd e → ¬ HalfCopied pp s
  mapped : ∀ e, BetweenReads pp s e → KeepsMapped s s' pp.data

/-- The page is mapped nowhere. -/
def NoneMaps {E : Type} (s : FdSys E) (p : ℕ) : Prop :=
  ∀ e, ∀ pn < utopPages, mappedPage (s.space e) pn ≠ some p

/-- At some moment of a run from the state `t` the page is mapped nowhere. -/
def SomeMoment {E : Type} (t : FdSys E) (xs : List (FdEvent E × FdSys E)) (p : ℕ) : Prop :=
  NoneMaps t p ∨ ∃ x ∈ xs, NoneMaps x.2 p

/-- The call of `_pipeisclosed` comes to its end, or is cut off. -/
def FdEvent.Ends {E : Type} (e : E) : FdEvent E → Prop
  | .closedRet e' _ | .exit e' => e' = e
  | _ => False

/-- The environment is in `_pipeisclosed`. -/
def FdPc.InClosed {E : Type} (i : ℤ) : FdPc E → Prop
  | .pagerefFd i' _ | .pagerefData i' _ _ | .checkRuns i' _ _ => i' = i
  | _ => False

theorem setPc_pc_ne {E : Type} [DecidableEq E] (s : FdSys E) {e e' : E} (pc : FdPc E) (h : e ≠ e') :
    (s.setPc e' pc).pc e = s.pc e := (setPc_pc ..).trans (if_neg h)

theorem setSpace_space_ne {E : Type} [DecidableEq E] (s : FdSys E) {e e' : E} (sp : Space) (h : e ≠ e') :
    (s.setSpace e' sp).space e = s.space e := (setSpace_space ..).trans (if_neg h)

section Calls

variable {E : Type} [DecidableEq E] [Fintype E] {pp : PipePages} {s s' t u : FdSys E}
  {ev : FdEvent E} {dev : ℕ → Option Dev} {e : E} {i : ℤ}

/-- What an environment in `_pipeisclosed` does next. -/
inductive ClosedStep (s : FdSys E) (ev : FdEvent E) (s' : FdSys E) (e : E) : Prop where
  | other (h : s'.pc e = s.pc e)
  | first {i : ℤ} {runs : ℕ} (h : s.pc e = .pagerefFd i runs) (hev : ev = .pagerefFd e)
      (h' : s'.pc e = .pagerefData i runs (s.pageref e (index2fd i)))
  | second {i : ℤ} {runs n : ℕ} (h : s.pc e = .pagerefData i runs n)
      (h' : s'.pc e = .checkRuns i runs (decide (n = s.pageref e (index2data i))))
  | again {i : ℤ} {runs : ℕ} {ret : Bool} (h : s.pc e = .checkRuns i runs ret)
      (h' : s'.pc e = .pagerefFd i (s.runs e))

/-- An environment in `_pipeisclosed` keeps its pages. -/
theorem FdStep.in_closed (hs : FdStep dev s ev s') (hi : FdInv pp s) (hc : (s.pc e).InClosed i)
    (hev : ¬ ev.Ends e) : s'.space e = s.space e ∧ ClosedStep s ev s' e := by
  have hne (e' : E) (h : ¬ (s.pc e').InClosed i) : e ≠ e' := by
    rintro rfl
    exact h hc
  cases hs with
  | close e' j hpc =>
    have he := hne e' (by rw [hpc]; exact not_false)
    exact ⟨rfl, .other (setPc_pc_ne _ _ he)⟩
  | dup e' old new hpc hl =>
    have he := hne e' (by rw [hpc]; exact not_false)
    exact ⟨rfl, .other (setPc_pc_ne _ _ he)⟩
  | op e' mem hop =>
    have he : e ≠ e' := by
      apply hne
      intro h
      cases hpc : s.pc e' with
      | pagerefFd | pagerefData | checkRuns =>
        rw [hpc] at hop
        cases hop
      | idle | closeFd | closeData | closeEnd | dupData | dupFd | errFd | errData | dupPage | remap
        | embryo | free =>
        rw [hpc] at h
        exact h
    exact ⟨setSpace_space_ne _ _ he, .other (setPc_pc_ne _ _ he)⟩
  | exit e' hf hcc =>
    have he : e ≠ e' := by
      rintro rfl
      exact hev rfl
    exact ⟨setSpace_space_ne _ _ he, .other (setPc_pc_ne _ _ he)⟩
  | fork e' c hpc hcc =>
    have he := hne e' (by rw [hpc]; exact not_false)
    have hec := hne c (by rw [hcc]; exact not_false)
    exact ⟨rfl, .other ((setPc_pc_ne _ _ he).trans (setPc_pc_ne _ _ hec))⟩
  | @dupPage e' c pn q page pte hpc hle hlt hx hq hskip =>
    have he := hne e' (by rw [hpc]; exact not_false)
    have hemb := (hi.copies e' c pn (by rw [hpc]; rfl)).1
    have hec := hne c (by rw [hemb]; exact not_false)
    exact ⟨setSpace_space_ne _ _ hec, .other (setPc_pc_ne _ _ he)⟩
  | remap e' hpc hq =>
    have he := hne e' (by rw [hpc]; exact not_false)
    exact ⟨setSpace_space_ne _ _ he, .other (setPc_pc_ne _ _ he)⟩
  | @forkEnd e' c pn hpc hskip =>
    have he := hne e' (by rw [hpc]; exact not_false)
    have hemb := (hi.copies e' c pn (by rw [hpc]; rfl)).1
    have hec := hne c (by rw [hemb]; exact not_false)
    exact ⟨rfl, .other ((setPc_pc_ne _ _ he).trans (setPc_pc_ne _ _ hec))⟩
  | isClosed e' j hpc hl =>
    have he := hne e' (by rw [hpc]; exact not_false)
    exact ⟨rfl, .other (setPc_pc_ne _ _ he)⟩
  | pagerefFd e' hpc =>
    by_cases he : e = e'
    · subst he
      exact ⟨rfl, .first hpc rfl ((setPc_pc ..).trans (if_pos rfl))⟩
    · exact ⟨rfl, .other (setPc_pc_ne _ _ he)⟩
  | pagerefData e' hpc =>
    by_cases he : e = e'
    · subst he
      exact ⟨rfl, .second hpc ((setPc_pc ..).trans (if_pos rfl))⟩
    · exact ⟨rfl, .other (setPc_pc_ne _ _ he)⟩
  | again e' hpc hr =>
    by_cases he : e = e'
    · subst he
      exact ⟨rfl, .again hpc ((setPc_pc ..).trans (if_pos rfl))⟩
    · exact ⟨rfl, .other (setPc_pc_ne _ _ he)⟩
  | closedRet e' hpc hr =>
    have he : e ≠ e' := by
      rintro rfl
      exact hev rfl
    exact ⟨rfl, .other (setPc_pc_ne _ _ he)⟩
  | resched e' => exact ⟨rfl, .other rfl⟩

theorem FdStep.runs_le (hs : FdStep dev s ev s') : s.runs e ≤ s'.runs e := by
  cases hs with
  | resched e' =>
    change s.runs e ≤ Function.update s.runs e' (s.runs e' + 1) e
    rw [Function.update_apply]
    split_ifs with h
    · rw [h]
      exact Nat.le_succ _
    · exact Nat.le_refl _
  | _ => exact Nat.le_refl _

omit [DecidableEq E] in
/-- The count of a page does not fall when no mapping of it is removed. -/
theorem KeepsMapped.refs_le {p : ℕ} (h : KeepsMapped s s' p) : s.refs p ≤ s'.refs p := by
  apply Finset.card_le_card
  intro x hx
  obtain ⟨hdom, hmap⟩ := Finset.mem_filter.mp hx
  exact Finset.mem_filter.mpr ⟨hdom, h _ _ hmap⟩

omit [DecidableEq E] in
theorem pageref_of_mapped {pn p : ℕ} (h : mappedPage (s.space e) pn = some p) :
    s.pageref e pn = s.refs p := by
  unfold FdSys.pageref
  rw [h]

end Calls

/-- What an environment in `_pipeisclosed` has found out, where `moment` says that there
was a moment in which the other end was closed. -/
def ClosedPc {E : Type} [Fintype E] (pp : PipePages) (s : FdSys E) (e : E) (moment : Prop) : Prop :=
  match s.pc e with
  | .pagerefFd _ runs => runs ≤ s.runs e
  | .pagerefData _ runs n => runs ≤ s.runs e ∧
      (runs = s.runs e → n ≤ s.refs pp.data ∧ (n = s.refs pp.data → moment))
  | .checkRuns _ runs ret => runs ≤ s.runs e ∧ (runs = s.runs e → ret = true → moment)
  | _ => False

/-- The environment tests the end of the pipe that has the descriptor page `p`. -/
structure ClosedCall {E : Type} [Fintype E] (pp : PipePages) (e : E) (i : ℤ) (p : ℕ) (moment : Prop)
    (s : FdSys E) : Prop where
  inv : FdInv pp s
  closed : (s.pc e).InClosed i
  fd : mappedPage (s.space e) (index2fd i) = some p
  pc : ClosedPc pp s e moment

section Sound

variable {E : Type} [DecidableEq E] [Fintype E] {pp : PipePages} {s s' t u : FdSys E}
  {ev : FdEvent E} {dev : ℕ → Option Dev} {e : E} {i : ℤ} {p o : ℕ} {moment moment' : Prop}

omit [DecidableEq E] in
theorem ClosedPc.mono (h : ClosedPc pp s e moment) (hpc : s'.pc e = s.pc e) (hruns : s.runs e ≤ s'.runs e)
    (hkeep : BetweenReads pp s e → KeepsMapped s s' pp.data) (hfd : pp.IsFd p)
    (hcall : ∀ j runs n, s.pc e = .pagerefData j runs n → mappedPage (s.space e) (index2fd j) = some p)
    (hm : moment → moment') : ClosedPc pp s' e moment' := by
  unfold ClosedPc at h ⊢
  rw [hpc]
  cases hc : s.pc e with
  | pagerefFd j runs =>
    rw [hc] at h
    exact Nat.le_trans h hruns
  | pagerefData j runs n =>
    rw [hc] at h
    obtain ⟨hle, hcount⟩ := h
    refine ⟨Nat.le_trans hle hruns, fun heq => ?_⟩
    -- not interrupted, so that the first count is still good
    have hsame : runs = s.runs e := by omega
    obtain ⟨hn, hmoment⟩ := hcount hsame
    have hrefs := (hkeep ⟨j, n, p, by rw [hc, hsame], hcall j runs n hc, hfd⟩).refs_le
    refine ⟨Nat.le_trans hn hrefs, fun hn' => hm (hmoment ?_)⟩
    omega
  | checkRuns j runs ret =>
    rw [hc] at h
    obtain ⟨hle, hmoment⟩ := h
    refine ⟨Nat.le_trans hle hruns, fun heq hret => ?_⟩
    have hsame : runs = s.runs e := by omega
    exact hm (hmoment hsame hret)
  | idle | closeFd | closeData | closeEnd | dupData | dupFd | errFd | errData | dupPage | remap
  | embryo | free =>
    rw [hc] at h
    exact h.elim

omit [DecidableEq E] [Fintype E] in
/-- Outside a half-done `fork`, all descriptors of the pipe are in order. -/
theorem slotsOk_of_not_halfCopied (hi : FdInv pp s) (h : ¬ HalfCopied pp s) (e : E) :
    SlotsOk pp (s.space e) := by
  by_contra hn
  apply h
  refine ⟨e, ?_, hn⟩
  by_contra hemb
  exact hn (hi.slots e hemb)

omit [DecidableEq E] in
theorem noneMaps_of_refs {p : ℕ} (h : s.refs p = 0) : NoneMaps s p :=
  fun _ _ hpn => not_mapped_of_refs h hpn

/-- One step of the system during a closed test. -/
theorem ClosedCall.step (h : ClosedCall pp e i p moment s) (hs : FdSafeStep dev pp s ev s')
    (hev : ¬ ev.Ends e) (hi : FdInRange i) (hfd : pp.IsFd p)
    (hrefs : (∀ e, SlotsOk pp (s.space e)) → s.refs p + s.refs o ≤ s.refs pp.data)
    (hm : moment → moment') (hm' : NoneMaps s' o → moment') : ClosedCall pp e i p moment' s' := by
  obtain ⟨hinv, hclosed, hp, hpc⟩ := h
  obtain ⟨hspace, hcases⟩ := hs.step.in_closed hinv hclosed hev
  have hruns := hs.step.runs_le (e := e)
  have hinv' := hinv.step hs.step hs.fits
  have hp' : mappedPage (s'.space e) (index2fd i) = some p := by rw [hspace, hp]
  cases hcases with
  | other hsame =>
    refine ⟨hinv', by rw [hsame]; exact hclosed, hp', ?_⟩
    apply hpc.mono hsame hruns (hs.mapped e) hfd _ hm
    intro j runs n hj
    rw [hj] at hclosed
    cases hclosed
    exact hp
  | @first j runs hj hev' hj' =>
    rw [hj] at hclosed
    cases hclosed
    subst hev'
    have hslots := slotsOk_of_not_halfCopied hinv (hs.copied e rfl)
    have hle := hrefs hslots
    have hrefs' (q : ℕ) : s'.refs q = s.refs q := by
      cases hs.step with
      | pagerefFd => rfl
    refine ⟨hinv', by rw [hj']; exact rfl, hp', ?_⟩
    unfold ClosedPc at hpc ⊢
    rw [hj] at hpc
    rw [hj', pageref_of_mapped hp, hrefs']
    refine ⟨Nat.le_trans hpc hruns, fun _ => ⟨by omega, fun heq => hm' ?_⟩⟩
    apply noneMaps_of_refs
    rw [hrefs']
    omega
  | @second j runs n hj hj' =>
    rw [hj] at hclosed
    cases hclosed
    refine ⟨hinv', by rw [hj']; exact rfl, hp', ?_⟩
    have hne : s.pc e ≠ .embryo := by
      rw [hj]
      exact nofun
    have hdata := (hinv.slots e hne).data_of_fd hi hp hfd
    unfold ClosedPc at hpc ⊢
    rw [hj] at hpc
    obtain ⟨hle, hcount⟩ := hpc
    rw [hj', pageref_of_mapped hdata]
    refine ⟨Nat.le_trans hle hruns, fun heq hret => hm ?_⟩
    exact (hcount (by omega)).2 (of_decide_eq_true hret)
  | @again j runs ret hj hj' =>
    rw [hj] at hclosed
    cases hclosed
    refine ⟨hinv', by rw [hj']; exact rfl, hp', ?_⟩
    unfold ClosedPc
    rw [hj']
    exact hruns

/-- A closed test of the end with the descriptor page `p`, from its call on. -/
theorem closedCall_run {xs : List (FdEvent E × FdSys E)} (h : ClosedCall pp e i p False t)
    (hrun : Run (Logged (FdSafeStep dev pp)) t xs u) (hev : ∀ x ∈ xs, ¬ x.1.Ends e)
    (hi : FdInRange i) (hfd : pp.IsFd p)
    (hrefs : ∀ s : FdSys E, (∀ e, SlotsOk pp (s.space e)) → s.refs p + s.refs o ≤ s.refs pp.data) :
    ClosedCall pp e i p (SomeMoment t xs o) u := by
  suffices hall : (∀ x ∈ xs, ¬ x.1.Ends e) → ClosedCall pp e i p (SomeMoment t xs o) u from hall hev
  refine hrun.invariant (I := fun xs v => (∀ x ∈ xs, ¬ x.1.Ends e) →
    ClosedCall pp e i p (SomeMoment t xs o) v) ?_ ?_
  · intro _
    refine ⟨h.inv, h.closed, h.fd, h.pc.mono rfl (Nat.le_refl _) ?_ hfd ?_ False.elim⟩
    · exact fun _ _ _ hq => hq
    · intro j runs n hj
      have hclosed := h.closed
      rw [hj] at hclosed
      cases hclosed
      exact h.fd
  · intro ys x v w hv hstep hys
    have hx : x ∈ ys ++ [x] := List.mem_append_right _ (List.mem_singleton_self x)
    have hold := hv fun y hy => hys y (List.mem_append_left _ hy)
    apply hold.step hstep.1 (hys x hx) hi hfd (hrefs v)
    · rintro (hn | ⟨y, hy, hn⟩)
      · exact Or.inl hn
      · exact Or.inr ⟨y, List.mem_append_left _ hy, hn⟩
    · intro hn
      exact Or.inr ⟨x, hx, hstep.2 ▸ hn⟩

theorem closedRet_moment {dev : ℕ → Option Dev} {u' : FdSys E} (h : ClosedCall pp e i p moment u)
    (hret : FdStep dev u (.closedRet e true) u') : moment := by
  cases hret with
  | closedRet _ hpc hr =>
    have hc := h.pc
    unfold ClosedPc at hc
    rw [hpc] at hc
    exact hc.2 hr.symm rfl

/-- When `_pipeisclosed` returns `true`, there was a moment during the call in which the
other end of the pipe was closed, provided that no step of the run misleads it. -/
theorem pipe_closed_sound {s₀ u' : FdSys E} {es : List (FdEvent E)} {xs : List (FdEvent E × FdSys E)}
    (h₀ : PipeHeld pp s₀) (hr : Run (FdSafeStep dev pp) s₀ es s)
    (hcall : FdSafeStep dev pp s (.isClosed e i) t) (hrun : Run (Logged (FdSafeStep dev pp)) t xs u)
    (hev : ∀ x ∈ xs, ¬ x.1.Ends e) (hret : FdStep dev u (.closedRet e true) u') :
    (mappedPage (s.space e) (index2fd i) = some pp.rfd → SomeMoment t xs pp.wfd) ∧
    (mappedPage (s.space e) (index2fd i) = some pp.wfd → SomeMoment t xs pp.rfd) := by
  have hinv : FdInv pp s := by
    refine hr.invariant (I := fun _ v => FdInv pp v) h₀.inv.1 ?_
    intro _ _ v w hv hs
    exact hv.step hs.step hs.fits
  have hinv' := hinv.step hcall.step hcall.fits
  have hstart (p : ℕ) (hp : mappedPage (s.space e) (index2fd i) = some p) :
      FdInRange i ∧ ClosedCall pp e i p False t := by
    cases hcall.step with
    | isClosed _ _ hpc hl =>
      refine ⟨⟨hl.1, hl.2.1⟩, hinv', ?_, hp, ?_⟩
      · rw [setPc_pc, if_pos rfl]
        rfl
      · unfold ClosedPc
        rw [setPc_pc, if_pos rfl]
        exact Nat.le_refl _
  refine ⟨fun hp => ?_, fun hp => ?_⟩
  · obtain ⟨hi, hc⟩ := hstart _ hp
    have hend := closedCall_run hc hrun hev hi (Or.inl rfl) fun v hv => refs_le h₀.ends hv
    exact closedRet_moment hend hret
  · obtain ⟨hi, hc⟩ := hstart _ hp
    refine closedRet_moment (closedCall_run hc hrun hev hi (Or.inr rfl) fun v hv => ?_) hret
    rw [Nat.add_comm]
    exact refs_le h₀.ends hv

end Sound

/-- The space of an environment that has the one descriptor `0` of a pipe. -/
def endSpace (fd : ℕ) : Space := fun pn =>
  if pn = fdPage 0 then some (fd, pteP ||| pteU ||| pteW)
  else if pn = dataPage 0 then some (3, pteP ||| pteU ||| pteW)
  else none

theorem mappedPage_endSpace (fd pn : ℕ) : mappedPage (endSpace fd) pn =
    if pn = fdPage 0 then some fd else if pn = dataPage 0 then some 3 else none := by
  unfold mappedPage endSpace
  split_ifs <;> rfl

theorem slotsOk_endSpace {fd : ℕ} : SlotsOk ⟨1, 2, 3⟩ (endSpace fd) := by
  intro pn p hp hfd
  rw [mappedPage_endSpace] at hp
  split_ifs at hp with h0 hd
  · refine ⟨0, by decide, h0, ?_⟩
    rw [mappedPage_endSpace, if_neg (by decide), if_pos rfl]
  · cases hp
    rcases hfd with h | h <;> cases h

section Concrete

variable {E : Type} [Fintype E] {s : FdSys E}

/-- The count of a page, from a list of its mappings. -/
theorem refs_eq_card {p : ℕ} (A : Finset (E × ℕ)) (hA : ∀ x ∈ A, x.2 < utopPages)
    (h : ∀ e pn, mappedPage (s.space e) pn = some p ↔ (e, pn) ∈ A) : s.refs p = A.card := by
  unfold FdSys.refs
  congr 1
  ext ⟨e, pn⟩
  rw [Finset.mem_filter, h]
  constructor
  · exact fun hx => hx.2
  · intro hx
    exact ⟨Finset.mem_product.mpr ⟨Finset.mem_univ e, Finset.mem_range.mpr (hA _ hx)⟩, hx⟩

end Concrete

theorem endSpace_iff (fd pn p : ℕ) : mappedPage (endSpace fd) pn = some p ↔
    pn = fdPage 0 ∧ fd = p ∨ pn = dataPage 0 ∧ 3 = p := by
  have hne : fdPage 0 ≠ dataPage 0 := fdPage_ne_dataPage (by decide)
  rw [mappedPage_endSpace]
  split_ifs with h0 hd
  · simp only [h0, hne, Option.some.injEq, true_and, false_and, or_false]
  · simp only [hd, hne.symm, Option.some.injEq, true_and, false_and, false_or]
  · simp only [h0, hd, false_and, or_self]

/-- The only descriptor left of a pipe tests it. -/
theorem pipe_closed_sound_alone : ∃ (t u u' : FdSys Unit) (xs : List (FdEvent Unit × FdSys Unit)),
    Run (Logged (FdSafeStep (fun _ => some .pipe) ⟨1, 2, 3⟩)) t xs u ∧
    FdStep (fun _ => some .pipe) u (.closedRet () true) u' ∧ SomeMoment t xs 2 := by
  obtain ⟨s₀, hs₀⟩ : ∃ s₀ : FdSys Unit, s₀ = ⟨fun _ => endSpace 1, fun _ => .idle, fun _ => 0⟩ := ⟨_, rfl⟩
  have hfd : index2fd 0 = fdPage 0 := by decide
  have hdata : index2data 0 = dataPage 0 := by decide
  have hheld : PipeHeld ⟨1, 2, 3⟩ s₀ := by
    rw [hs₀]
    exact ⟨fun _ => slotsOk_endSpace, fun _ => Or.inl rfl, by decide⟩
  -- each of the two pages is mapped once
  have hrefs (s : FdSys Unit) (hs : s.space = fun _ => endSpace 1) : s.refs 1 = 1 ∧ s.refs 3 = 1 := by
    constructor
    · apply refs_eq_card {((), fdPage 0)}
      · decide
      · intro e pn
        rw [hs, endSpace_iff, Finset.mem_singleton, Prod.mk.injEq]
        exact ⟨fun h => by simpa using h, fun h => Or.inl ⟨h.2, rfl⟩⟩
    · apply refs_eq_card {((), dataPage 0)}
      · decide
      · intro e pn
        rw [hs, endSpace_iff, Finset.mem_singleton, Prod.mk.injEq]
        exact ⟨fun h => by simpa using h, fun h => Or.inr ⟨h.2, rfl⟩⟩
  have hmapped (s : FdSys Unit) (hs : s.space = fun _ => endSpace 1) :
      s.pageref () (index2fd 0) = 1 ∧ s.pageref () (index2data 0) = 1 := by
    have h1 : mappedPage (s.space ()) (index2fd 0) = some 1 := by
      rw [hs, hfd, endSpace_iff]
      exact Or.inl ⟨rfl, rfl⟩
    have h3 : mappedPage (s.space ()) (index2data 0) = some 3 := by
      rw [hs, hdata, endSpace_iff]
      exact Or.inr ⟨rfl, rfl⟩
    rw [pageref_of_mapped h1, pageref_of_mapped h3]
    exact hrefs s hs
  have safe {s s' : FdSys Unit} {ev : FdEvent Unit} (h : FdStep (fun _ => some .pipe) s ev s')
      (hev : ev.Fits) (hsp : s'.space = s.space) (hemb : s.pc () ≠ .embryo) :
      FdSafeStep (fun _ => some .pipe) ⟨1, 2, 3⟩ s ev s' := by
    refine ⟨h, hev, ?_, ?_⟩
    · rintro - - ⟨c, hc, -⟩
      exact hemb hc
    · intro _ _ e pn hp
      rwa [hsp]
  obtain ⟨t, ht⟩ : ∃ t, t = s₀.setPc () (.pagerefFd 0 0) := ⟨_, rfl⟩
  obtain ⟨t₁, ht₁⟩ : ∃ t₁, t₁ = t.setPc () (.pagerefData 0 0 1) := ⟨_, rfl⟩
  obtain ⟨u, hu⟩ : ∃ u, u = t₁.setPc () (.checkRuns 0 0 true) := ⟨_, rfl⟩
  have hl : FdLookup (s₀.space ()) 0 := by
    rw [hs₀]
    exact ⟨by decide, by decide, by decide⟩
  have hcall : FdStep (fun _ => some .pipe) s₀ (.isClosed () 0) t := by
    rw [ht]
    have h : FdStep (fun _ => some .pipe) s₀ _ _ := .isClosed () 0 (by rw [hs₀]) hl
    rwa [show s₀.runs () = 0 by rw [hs₀]] at h
  have htsp : t.space = fun _ => endSpace 1 := by rw [ht, hs₀]; rfl
  have ht₁sp : t₁.space = fun _ => endSpace 1 := by rw [ht₁]; exact htsp
  have hfirst : FdStep (fun _ => some .pipe) t (.pagerefFd ()) t₁ := by
    have h : FdStep (fun _ => some .pipe) t _ _ := .pagerefFd () (by rw [ht, setPc_pc, if_pos rfl])
    rwa [(hmapped t htsp).1, ← ht₁] at h
  have hsecond : FdStep (fun _ => some .pipe) t₁ .tau u := by
    have h : FdStep (fun _ => some .pipe) t₁ _ _ := .pagerefData () (by rw [ht₁, setPc_pc, if_pos rfl])
    rwa [(hmapped t₁ ht₁sp).2, decide_eq_true rfl, ← hu] at h
  have hret : FdStep (fun _ => some .pipe) u (.closedRet () true) (u.setPc () .idle) :=
    .closedRet () (by rw [hu, setPc_pc, if_pos rfl]) (by rw [hu, ht₁, ht, hs₀]; rfl)
  have hrun : Run (Logged (FdSafeStep (fun _ => some .pipe) ⟨1, 2, 3⟩)) t
      [(.pagerefFd (), t₁), (.tau, u)] u := by
    have h₁ := safe hfirst trivial (by rw [ht₁]; rfl) (by rw [ht, setPc_pc, if_pos rfl]; exact nofun)
    have h₂ := safe hsecond trivial (by rw [hu]; rfl) (by rw [ht₁, setPc_pc, if_pos rfl]; exact nofun)
    exact (Run.nil.snoc (e := (_, _)) ⟨h₁, rfl⟩).snoc (e := (_, _)) ⟨h₂, rfl⟩
  refine ⟨t, u, _, _, hrun, hret, ?_⟩
  apply (pipe_closed_sound hheld .nil (safe hcall trivial (by rw [ht]; rfl) (by rw [hs₀]; exact nofun))
    hrun (by simp [FdEvent.Ends]) hret).1
  rw [hs₀, hfd, endSpace_iff]
  exact Or.inl ⟨rfl, rfl⟩

/-- The environment `none` writes to a pipe, and two others read from it. -/
def raceStart : FdSys (Option Bool) :=
  ⟨fun e => if e = none then endSpace 2 else endSpace 1, fun _ => .idle, fun _ => 0⟩

theorem raceStart_held : PipeHeld ⟨1, 2, 3⟩ raceStart := by
  refine ⟨fun e => ?_, fun _ => Or.inl rfl, by decide⟩
  change SlotsOk _ (if e = none then endSpace 2 else endSpace 1)
  split_ifs
  · exact slotsOk_endSpace
  · exact slotsOk_endSpace

/-- The mappings of the descriptor page of the readers, as long as both have theirs. -/
theorem race_refs_fd {s : FdSys (Option Bool)} (hw : s.space none = endSpace 2)
    (h : ∀ b, s.space (some b) = endSpace 1) : s.refs 1 = 2 := by
  apply refs_eq_card {(some true, fdPage 0), (some false, fdPage 0)}
  · decide
  · intro e pn
    rw [Finset.mem_insert, Finset.mem_singleton, Prod.mk.injEq, Prod.mk.injEq]
    rcases e with - | b
    · rw [hw, endSpace_iff]
      simp
    · rw [h, endSpace_iff]
      cases b <;> simp

/-- The mappings of the page of the pipe, when one reader has closed its descriptor. -/
theorem race_refs_data {s : FdSys (Option Bool)} (hw : s.space none = endSpace 2)
    (ht : s.space (some true) = endSpace 1) (hc : ∀ pn, mappedPage (s.space (some false)) pn = none) :
    s.refs 3 = 2 := by
  apply refs_eq_card {(none, dataPage 0), (some true, dataPage 0)}
  · decide
  · intro e pn
    rw [Finset.mem_insert, Finset.mem_singleton, Prod.mk.injEq, Prod.mk.injEq]
    rcases e with - | (- | -)
    · rw [hw, endSpace_iff]
      simp
    · rw [hc]
      simp
    · rw [ht, endSpace_iff]
      simp

theorem unmap_endSpace (pn : ℕ) :
    mappedPage (unmapPage (unmapPage (endSpace 1) (index2fd 0)) (index2data 0)) pn = none := by
  have hfd : index2fd 0 = fdPage 0 ∧ fdPage 0 < utopPages := by decide
  have hdata : index2data 0 = dataPage 0 ∧ dataPage 0 < utopPages := by decide
  rw [mappedPage_unmapPage, mappedPage_unmapPage, mappedPage_endSpace, hfd.1, hdata.1]
  simp only [hfd.2, hdata.2, and_true]
  split_ifs <;> rfl

/-- One reader closes its descriptor while the other one tests the pipe, which then looks
closed although the writer had its descriptor all the time. -/
theorem pipe_closed_race : ∃ (t u u' : FdSys (Option Bool)) (xs : List (FdEvent (Option Bool) × _)),
    PipeHeld ⟨1, 2, 3⟩ raceStart ∧
    mappedPage (raceStart.space (some true)) (index2fd 0) = some 1 ∧
    FdStep (fun _ => some .pipe) raceStart (.isClosed (some true) 0) t ∧
    Run (Logged (FdStep fun _ => some .pipe)) t xs u ∧
    (∀ x ∈ xs, x.1.Fits ∧ ¬ x.1.Ends (some true)) ∧
    FdStep (fun _ => some .pipe) u (.closedRet (some true) true) u' ∧ ¬ SomeMoment t xs 2 := by
  obtain ⟨t, ht⟩ : ∃ t, t = raceStart.setPc (some true) (.pagerefFd 0 0) := ⟨_, rfl⟩
  obtain ⟨t₁, ht₁⟩ : ∃ t₁, t₁ = t.setPc (some true) (.pagerefData 0 0 2) := ⟨_, rfl⟩
  obtain ⟨t₂, ht₂⟩ : ∃ t₂, t₂ = t₁.setPc (some false) (.closeFd 0 none) := ⟨_, rfl⟩
  obtain ⟨sp₃, hsp₃⟩ : ∃ sp, sp = unmapPage (endSpace 1) (index2fd 0) := ⟨_, rfl⟩
  obtain ⟨t₃, ht₃⟩ : ∃ t₃, t₃ = (t₂.setSpace (some false) sp₃).setPc (some false) (.closeData 0 none) :=
    ⟨_, rfl⟩
  obtain ⟨sp₄, hsp₄⟩ : ∃ sp, sp = unmapPage sp₃ (index2data 0) := ⟨_, rfl⟩
  obtain ⟨t₄, ht₄⟩ : ∃ t₄, t₄ = (t₃.setSpace (some false) sp₄).setPc (some false) (.closeEnd 0 none) :=
    ⟨_, rfl⟩
  obtain ⟨u, hu⟩ : ∃ u, u = t₄.setPc (some true) (.checkRuns 0 0 true) := ⟨_, rfl⟩
  -- the writer keeps its pages, and so does the reader that tests the pipe
  have hw (v : FdSys (Option Bool)) (hv : v ∈ [t, t₁, t₂, t₃, t₄, u]) :
      v.space none = endSpace 2 ∧ v.space (some true) = endSpace 1 := by
    simp only [List.mem_cons, List.not_mem_nil, or_false] at hv
    rcases hv with rfl | rfl | rfl | rfl | rfl | rfl
    all_goals
      simp only [hu, ht₄, ht₃, ht₂, ht₁, ht]
      exact ⟨rfl, rfl⟩
  have hfd (v : FdSys (Option Bool)) (hv : v ∈ [t, t₁, t₂, t₃, t₄, u]) :
      mappedPage (v.space none) (fdPage 0) = some 2 ∧
      v.pageref (some true) (index2fd 0) = v.refs 1 ∧ v.pageref (some true) (index2data 0) = v.refs 3 := by
    obtain ⟨h2, h1⟩ := hw v hv
    refine ⟨?_, pageref_of_mapped ?_, pageref_of_mapped ?_⟩
    · rw [h2]
      decide
    · rw [h1]
      decide
    · rw [h1]
      decide
  have hcall : FdStep (fun _ => some .pipe) raceStart (.isClosed (some true) 0) t := by
    rw [ht]
    exact .isClosed (some true) 0 rfl ⟨by decide, by decide, by decide⟩
  have hfirst : FdStep (fun _ => some .pipe) t (.pagerefFd (some true)) t₁ := by
    have hm : t ∈ [t, t₁, t₂, t₃, t₄, u] := List.mem_cons_self
    have h : FdStep (fun _ => some .pipe) t _ _ :=
      .pagerefFd (some true) (by rw [ht, setPc_pc, if_pos rfl])
    have hn : t.refs 1 = 2 := race_refs_fd (hw t hm).1 fun b => by rw [ht]; rfl
    rwa [(hfd t hm).2.1, hn, ← ht₁] at h
  have hclose : FdStep (fun _ => some .pipe) t₁ (.close (some false) 0) t₂ := by
    have hsp : t₁.space (some false) = endSpace 1 := by rw [ht₁, ht]; rfl
    have hstart : closeStart (fun _ => some .pipe) (t₁.space (some false)) 0 none =
        (.closeFd 0 none : FdPc (Option Bool)) := by
      have hl : FdLookup (endSpace 1) 0 := ⟨by decide, by decide, by decide⟩
      have hdev : (mappedPage (endSpace 1) (index2fd 0)).bind (fun _ => some Dev.pipe) = some .pipe := by
        decide
      unfold closeStart
      rw [hsp, if_pos hl, if_pos hdev]
    have h : FdStep (fun _ => some .pipe) t₁ _ _ := .close (some false) 0 (by rw [ht₁, ht]; rfl)
    rwa [hstart, ← ht₂] at h
  have hop₁ : FdStep (fun _ => some .pipe) t₂ .tau t₃ := by
    rw [ht₃]
    apply FdStep.op (some false) true
    rw [ht₂, setPc_pc, if_pos rfl, hsp₃, ht₁, ht]
    rfl
  have hop₂ : FdStep (fun _ => some .pipe) t₃ .tau t₄ := by
    rw [ht₄]
    apply FdStep.op (some false) true
    rw [ht₃, setPc_pc, if_pos rfl, hsp₄]
    change some (unmapPage ((t₂.setSpace (some false) sp₃).space (some false)) _, _) = _
    rw [setSpace_space, if_pos rfl]
  have hsecond : FdStep (fun _ => some .pipe) t₄ .tau u := by
    have hm : t₄ ∈ [t, t₁, t₂, t₃, t₄, u] := by simp
    have hpc : t₄.pc (some true) = .pagerefData 0 0 2 := by
      rw [ht₄, ht₃, ht₂, ht₁]
      rfl
    have h : FdStep (fun _ => some .pipe) t₄ _ _ := .pagerefData (some true) hpc
    have hn : t₄.refs 3 = 2 := by
      apply race_refs_data (hw t₄ hm).1 (hw t₄ hm).2
      intro pn
      have hsp : t₄.space (some false) = sp₄ := by
        rw [ht₄]
        exact (setSpace_space t₃ (some false) sp₄ _).trans (if_pos rfl)
      rw [hsp, hsp₄, hsp₃]
      exact unmap_endSpace pn
    rwa [(hfd t₄ hm).2.2, hn, decide_eq_true rfl, ← hu] at h
  have hret : FdStep (fun _ => some .pipe) u (.closedRet (some true) true) (u.setPc (some true) .idle) :=
    .closedRet (some true) (by rw [hu, setPc_pc, if_pos rfl]) (by rw [hu, ht₄, ht₃, ht₂, ht₁, ht]; rfl)
  have hrun : Run (Logged (FdStep fun _ => some .pipe)) t
      [(.pagerefFd (some true), t₁), (.close (some false) 0, t₂), (.tau, t₃), (.tau, t₄), (.tau, u)] u := by
    have log {v w : FdSys (Option Bool)} {ev : FdEvent (Option Bool)}
        (h : FdStep (fun _ => some .pipe) v ev w) : Logged (FdStep fun _ => some .pipe) v (ev, w) w := ⟨h, rfl⟩
    have h₂ := (Run.single (log hfirst)).snoc (log hclose)
    exact ((h₂.snoc (log hop₁)).snoc (log hop₂)).snoc (log hsecond)
  refine ⟨t, u, _, _, raceStart_held, by decide, hcall, hrun, ?_, hret, ?_⟩
  · intro x hx
    simp only [List.mem_cons, List.not_mem_nil, or_false] at hx
    rcases hx with rfl | rfl | rfl | rfl | rfl
    all_goals exact ⟨trivial, not_false⟩
  · -- the writer has its descriptor in every state
    have hnot (v : FdSys (Option Bool)) (hv : v ∈ [t, t₁, t₂, t₃, t₄, u]) : ¬ NoneMaps v 2 :=
      fun hn => hn none (fdPage 0) (by decide) (hfd v hv).1
    rintro (hn | ⟨x, hx, hn⟩)
    · exact hnot t List.mem_cons_self hn
    · apply hnot x.2 _ hn
      simp only [List.mem_cons, List.not_mem_nil, or_false] at hx ⊢
      rcases hx with rfl | rfl | rfl | rfl | rfl
      all_goals simp only [true_or, or_true]

end Sisop
