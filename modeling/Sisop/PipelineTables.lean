import Mathlib.Tactic.SplitIfs
import Sisop.Pipeline

/-! The descriptor tables of `exec_pipeline`, whatever it is that they refer to: `rd p` and `wr p` stand for the ends of pipe `p`. -/
namespace Sisop

section Calls

variable {ε : Type} {t tab tab' T : ℕ → Option ε} {calls : List FdCall} {c : FdCall}

def runCalls : List FdCall → (ℕ → Option ε) → Option (ℕ → Option ε)
  | [], t => some t
  | c :: calls, t => (c.run t).bind (runCalls calls)

theorem fdAt_ofNat (t : ℕ → Option ε) (f : ℕ) : fdAt t (f : ℤ) = t f := by
  unfold fdAt
  rw [if_pos (Int.natCast_nonneg f), Int.toNat_natCast]

theorem closeFd_ofNat (f : ℕ) (t : ℕ → Option ε) : closeFd (f : ℤ) t = Function.update t f none := by
  unfold closeFd
  rw [if_pos (Int.natCast_nonneg f), Int.toNat_natCast]

theorem runCalls_cons (h : runCalls (c :: calls) tab = some T) :
    ∃ tab', c.run tab = some tab' ∧ runCalls calls tab' = some T := Option.bind_eq_some_iff.mp h

theorem runCalls_dup2 {f f' : ℕ} {h : ε} (hf : t f = some h) :
    runCalls (.dup2 f f' :: calls) t = runCalls calls (Function.update t f' (some h)) := by
  change (Option.map _ (fdAt t f)).bind _ = _
  rw [fdAt_ofNat, hf]
  rfl

theorem runCalls_close (t : ℕ → Option ε) (f : ℕ) (calls : List FdCall) :
    runCalls (.close f :: calls) t = runCalls calls (Function.update t f none) := by
  rw [← closeFd_ofNat]
  rfl

/-- `pipe` returns descriptors that are free. -/
theorem freeFd_none {nofile f : ℕ} {t : FdTab} (h : freeFd nofile t = some f) : t f = none := by
  have hf := (List.find?_range_eq_some.mp h).1
  exact Option.isNone_iff_eq_none.mp hf

theorem pipeFds_free {nofile r w : ℕ} {t : FdTab} (h : pipeFds nofile t = some (r, w)) : t r = none ∧ t w = none ∧ r ≠ w := by
  obtain ⟨r', hr, hw⟩ := Option.bind_eq_some_iff.mp h
  obtain ⟨w', hw', heq⟩ := Option.map_eq_some_iff.mp hw
  cases heq
  have hfree := freeFd_none hw'
  rw [Function.update_apply] at hfree
  split_ifs at hfree with hrw
  exact ⟨freeFd_none hr, hfree, Ne.symm hrw⟩

end Calls

section Tables

variable {ε : Type} (rd wr : ℕ → ε) (t : ℕ → Option ε) (n i : ℕ)

/-- The descriptors at the call for command `i` of `n`: besides the original ones, the end from which this command is to read. -/
def AtCall (fd : ℤ) (tab : ℕ → Option ε) : Prop :=
  if 0 < i ∧ i < n then ∃ r : ℕ, t r = none ∧ fd = r ∧ tab = Function.update t r (some (rd (i - 1))) else fd = -1 ∧ tab = t

/-- The descriptors at `fork`. -/
def AtFork (fd : ℤ) (fds : PipeFds) (tab : ℕ → Option ε) : Prop :=
  ∃ tab₀, AtCall rd t n i fd tab₀ ∧
    if i + 1 = n then fds = noFds ∧ tab = tab₀
    else ∃ r w : ℕ, fds = ((r : ℤ), (w : ℤ)) ∧ tab₀ r = none ∧ tab₀ w = none ∧ r ≠ w ∧
      tab = Function.update (Function.update tab₀ r (some (rd i))) w (some (wr i))

/-- The descriptors with which command `i` starts: the original ones, but for the ends of its pipes as its standard input and
output. -/
def commandTab : ℕ → Option ε :=
  Function.update (Function.update t 0 (if i = 0 then t 0 else some (rd (i - 1)))) 1 (if i + 1 = n then t 1 else some (wr i))

end Tables

section Stages

variable {ε : Type} {rd wr : ℕ → ε} {t tab T : ℕ → Option ε} {n i f : ℕ} {fd : ℤ} {fds : PipeFds}

theorem atCall_out (h : ¬ (0 < i ∧ i < n)) (hT : T = t) : AtCall rd t n i (-1) T := by
  unfold AtCall
  rw [if_neg h]
  exact ⟨rfl, hT⟩

theorem atCall_in (h : 0 < i ∧ i < n) (hf : t f = none) (hT : T = Function.update t f (some (rd (i - 1)))) : AtCall rd t n i f T := by
  unfold AtCall
  rw [if_pos h]
  exact ⟨f, hf, rfl, hT⟩

theorem free_ne {g : ℕ} (hf : t f = none) (hg : t g ≠ none) : f ≠ g := by
  rintro rfl
  exact hg hf

/-- The table for command `i`, with its pipe if it is not the last one. -/
theorem AtFork.cases (h0 : t 0 ≠ none) (h1 : t 1 ≠ none) (hi : i < n) (h : AtFork rd wr t n i fd fds tab) :
    ∃ tab₀, (i = 0 ∧ tab₀ = t ∨ i ≠ 0 ∧ ∃ f : ℕ, t f = none ∧ f ≠ 0 ∧ f ≠ 1 ∧ fd = f ∧
        tab₀ = Function.update t f (some (rd (i - 1)))) ∧
      (i + 1 = n ∧ fds = noFds ∧ tab = tab₀ ∨ i + 1 ≠ n ∧ ∃ r w : ℕ, fds = ((r : ℤ), (w : ℤ)) ∧ t r = none ∧ t w = none ∧
        tab₀ r = none ∧ tab₀ w = none ∧ r ≠ w ∧ r ≠ 0 ∧ r ≠ 1 ∧ w ≠ 0 ∧ w ≠ 1 ∧
        tab = Function.update (Function.update tab₀ r (some (rd i))) w (some (wr i))) := by
  obtain ⟨tab₀, hstage, hfork⟩ := h
  unfold AtCall at hstage
  have hcase : i = 0 ∧ tab₀ = t ∨ i ≠ 0 ∧ ∃ f : ℕ, t f = none ∧ f ≠ 0 ∧ f ≠ 1 ∧ fd = f ∧
      tab₀ = Function.update t f (some (rd (i - 1))) := by
    by_cases hzero : i = 0
    · rw [if_neg (by omega)] at hstage
      exact Or.inl ⟨hzero, hstage.2⟩
    · rw [if_pos (by omega)] at hstage
      obtain ⟨f, hf, hfd, htab⟩ := hstage
      exact Or.inr ⟨hzero, f, hf, free_ne hf h0, free_ne hf h1, hfd, htab⟩
  -- a descriptor that is free now is free at first
  have hfree (x : ℕ) (hx : tab₀ x = none) : t x = none := by
    rcases hcase with ⟨-, rfl⟩ | ⟨-, f, -, -, -, -, rfl⟩
    · exact hx
    · rw [Function.update_apply] at hx
      split_ifs at hx
      exact hx
  refine ⟨tab₀, hcase, ?_⟩
  by_cases hlast : i + 1 = n
  · rw [if_pos hlast] at hfork
    exact Or.inl ⟨hlast, hfork⟩
  · rw [if_neg hlast] at hfork
    obtain ⟨r, w, hfds, hr, hw, hrw, htab⟩ := hfork
    have htr := hfree r hr
    have htw := hfree w hw
    exact Or.inr ⟨hlast, r, w, hfds, htr, htw, hr, hw, hrw, free_ne htr h0, free_ne htr h1, free_ne htw h0, free_ne htw h1, htab⟩

/-- The child gets the ends of its pipes, and closes all others. -/
theorem AtFork.child (h0 : t 0 ≠ none) (h1 : t 1 ≠ none) (hi : i < n) (h : AtFork rd wr t n i fd fds tab) :
    runCalls (childCalls i (i + 1 = n) fd fds) tab = some (commandTab rd wr t n i) := by
  obtain ⟨tab₀, hread, hwrite⟩ := h.cases h0 h1 hi
  unfold childCalls commandTab
  rcases hread with ⟨hzero, rfl⟩ | ⟨hzero, f, hf, hf0, hf1, rfl, rfl⟩
  · rw [if_neg (not_not_intro hzero), if_pos hzero]
    rcases hwrite with ⟨hlast, rfl, rfl⟩ | ⟨hlast, r, w, rfl, hr, hw, -, -, hrw, hr0, hr1, hw0, hw1, rfl⟩
    · rw [decide_eq_true hlast, if_pos hlast]
      change some _ = some _
      congr 1
      funext x
      grind [Function.update_apply]
    · rw [decide_eq_false hlast, if_neg hlast]
      change runCalls [.dup2 w 1, .close w, .close r] _ = _
      rw [runCalls_dup2 (h := wr i) (Function.update_self ..), runCalls_close, runCalls_close]
      change some _ = some _
      congr 1
      funext x
      grind [Function.update_apply]
  · rw [if_pos hzero, if_neg hzero]
    rcases hwrite with ⟨hlast, rfl, rfl⟩ | ⟨hlast, r, w, rfl, hr, hw, hr', hw', hrw, hr0, hr1, hw0, hw1, rfl⟩
    · rw [decide_eq_true hlast, if_pos hlast]
      change runCalls [.dup2 f 0, .close f] _ = _
      rw [runCalls_dup2 (h := rd (i - 1)) (Function.update_self ..), runCalls_close]
      change some _ = some _
      congr 1
      funext x
      grind [Function.update_apply]
    · rw [decide_eq_false hlast, if_neg hlast]
      change runCalls [.dup2 f 0, .close f, .dup2 w 1, .close w, .close r] _ = _
      have hrf : r ≠ f := free_ne hr' (by rw [Function.update_self]; exact Option.some_ne_none _)
      have hwf : w ≠ f := free_ne hw' (by rw [Function.update_self]; exact Option.some_ne_none _)
      rw [runCalls_dup2 (h := rd (i - 1)) (by grind [Function.update_apply]), runCalls_close,
        runCalls_dup2 (h := wr i) (by grind [Function.update_apply]), runCalls_close, runCalls_close]
      change some _ = some _
      congr 1
      funext x
      grind [Function.update_apply]

/-- The parent keeps the end of the pipe from which the next command is to read. -/
theorem AtFork.parent (h0 : t 0 ≠ none) (h1 : t 1 ≠ none) (hi : i < n) (h : AtFork rd wr t n i fd fds tab) :
    ∃ T, runCalls (parentCalls i (i + 1 = n) fd fds) tab = some T ∧ AtCall rd t n (i + 1) fds.1 T := by
  obtain ⟨tab₀, hread, hwrite⟩ := h.cases h0 h1 hi
  unfold parentCalls
  rcases hread with ⟨hzero, rfl⟩ | ⟨hzero, f, hf, hf0, hf1, rfl, rfl⟩
  · rw [if_neg (not_not_intro hzero)]
    rcases hwrite with ⟨hlast, rfl, rfl⟩ | ⟨hlast, r, w, rfl, hr, hw, -, -, hrw, -, -, -, -, rfl⟩
    · rw [decide_eq_true hlast]
      exact ⟨_, rfl, atCall_out (by omega) rfl⟩
    · rw [decide_eq_false hlast]
      change ∃ T, runCalls [.close w] _ = some T ∧ _
      rw [runCalls_close]
      refine ⟨_, rfl, atCall_in (by omega) hr ?_⟩
      funext x
      grind [Function.update_apply]
  · rw [if_pos hzero]
    rcases hwrite with ⟨hlast, rfl, rfl⟩ | ⟨hlast, r, w, rfl, hr, hw, hr', hw', hrw, -, -, -, -, rfl⟩
    · rw [decide_eq_true hlast]
      change ∃ T, runCalls [.close f] _ = some T ∧ _
      rw [runCalls_close]
      refine ⟨_, rfl, atCall_out (by omega) ?_⟩
      funext x
      grind [Function.update_apply]
    · rw [decide_eq_false hlast]
      change ∃ T, runCalls [.close f, .close w] _ = some T ∧ _
      rw [runCalls_close, runCalls_close]
      refine ⟨_, rfl, atCall_in (by omega) hr ?_⟩
      have hrf : r ≠ f := free_ne hr' (by rw [Function.update_self]; exact Option.some_ne_none _)
      funext x
      grind [Function.update_apply]

end Stages
end Sisop
