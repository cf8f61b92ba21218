import Sisop.Sched

/-! Which environment `sched_yield` chooses. Its search stops one slot short of a full
circle: at the slot of `curenv`, or at the last slot of the table. -/
namespace Sisop

/-- What `sched_yield` ends in. -/
inductive Decision where
  | run (e : EnvIdx)
  | halt
  deriving DecidableEq

/-- The way out of `sched_yield` that it takes in this state. -/
def Kern.decision (k : Kern) (c : ℕ) : Decision :=
  match k.nextRunnable (k.searchStart c) with
  | some idle => .run idle
  | none =>
    match k.curRunning c with
    | some cur => .run cur
    | none => .halt

/-- The function that is called for a decision. -/
def Decision.call (c : ℕ) : Decision → Routine Kern Unit
  | .run e => envRun c e
  | .halt => schedHalt c

/-- The first runnable environment that a full circle from a slot on meets. -/
def Kern.FirstFrom (k : Kern) (start : ℕ) (e : EnvIdx) : Prop :=
  ∃ i < nenv, e = envAt (start + i) ∧ k.status e = .runnable ∧
    ∀ j < i, k.status (envAt (start + j)) ≠ .runnable

/-- What the comment in `sched_yield` asks for. -/
structure RightChoice (k : Kern) (c : ℕ) (d : Decision) : Prop where
  first : ∀ e, k.FirstFrom (k.searchStart c) e → d = .run e
  resume : (∀ e, k.status e ≠ .runnable) →
    ∀ cur, (k.cpus c).cpuEnv = some cur → k.status cur = .running → d = .run cur
  halt : d = .halt → (∀ e, k.status e ≠ .runnable) ∧
    ∀ cur, (k.cpus c).cpuEnv = some cur → k.status cur ≠ .running

/-- The slot at which the search does not look. -/
def Kern.skipped (k : Kern) (c : ℕ) : EnvIdx := envAt (k.searchStart c + (nenv - 1))

section Choice

variable {k : Kern} {c start : ℕ} {e cur : EnvIdx}

theorem schedYield_decision (k : Kern) (c : ℕ) : schedYield c k = (k.decision c).call c k := by
  unfold schedYield Kern.decision
  simp only [Routine.gets_bind_run]
  cases k.nextRunnable (k.searchStart c) with
  | some idle => rfl
  | none =>
    simp only [Routine.gets_bind_run]
    cases k.curRunning c <;> rfl

theorem nextRunnable_some (h : k.nextRunnable start = some e) : ∃ i < nenv - 1,
    e = envAt (start + i) ∧ k.status e = .runnable ∧ ∀ j < i, k.status (envAt (start + j)) ≠ .runnable := by
  unfold Kern.nextRunnable at h
  rw [List.find?_map, Option.map_eq_some_iff] at h
  obtain ⟨i, hi, rfl⟩ := h
  rw [List.find?_range_eq_some] at hi
  obtain ⟨hrun, hmem, hbefore⟩ := hi
  refine ⟨i, List.mem_range.mp hmem, rfl, of_decide_eq_true hrun, fun j hj => ?_⟩
  have hnot := hbefore j hj
  simpa using hnot

theorem nextRunnable_none (h : k.nextRunnable start = none) :
    ∀ i < nenv - 1, k.status (envAt (start + i)) ≠ .runnable := by
  unfold Kern.nextRunnable at h
  rw [List.find?_map, Option.map_eq_none_iff, List.find?_range_eq_none] at h
  intro i hi
  simpa using h i hi

/-- A full circle meets every slot. -/
theorem exists_envAt (start : ℕ) (e : EnvIdx) : ∃ i < nenv, e = envAt (start + i) := by
  have he : e.val < 1024 := e.isLt
  refine ⟨(1024 - start % 1024 + e.val) % 1024, Nat.mod_lt _ (by decide), Fin.ext ?_⟩
  change e.val = (start + (1024 - start % 1024 + e.val) % 1024) % 1024
  omega

theorem envAt_eq_skipped {i : ℕ} (hi : i < nenv) (h : envAt (k.searchStart c + i) = k.skipped c) : i = nenv - 1 := by
  have hval : (k.searchStart c + i) % 1024 = (k.searchStart c + 1023) % 1024 := congrArg Fin.val h
  change i < 1024 at hi
  change i = 1023
  omega

/-- The slot that is left out is that of the current environment, or the last one. -/
theorem skipped_eq : k.skipped c =
    (match (k.cpus c).cpuEnv with
      | some cur => envx (k.envs cur).envId
      | none => ⟨nenv - 1, by decide⟩) := by
  apply Fin.ext
  unfold Kern.skipped Kern.searchStart
  cases (k.cpus c).cpuEnv with
  | none =>
    change (0 + 1023) % 1024 = 1024 - 1
    omega
  | some cur =>
    have hlt : (envx (k.envs cur).envId).val < 1024 := (envx (k.envs cur).envId).isLt
    change ((envx (k.envs cur).envId).val + 1 + 1023) % 1024 = (envx (k.envs cur).envId).val
    omega

theorem Kern.FirstFrom.unique {e' : EnvIdx} (h : k.FirstFrom start e) (h' : k.FirstFrom start e') : e = e' := by
  obtain ⟨i, -, rfl, hrun, hbefore⟩ := h
  obtain ⟨i', -, rfl, hrun', hbefore'⟩ := h'
  rcases Nat.lt_trichotomy i i' with hlt | rfl | hlt
  · exact absurd hrun (hbefore' i hlt)
  · rfl
  · exact absurd hrun' (hbefore i' hlt)

/-- Another environment than the one in the skipped slot is runnable, or that one is not. -/
def Kern.NoneSkipped (k : Kern) (c : ℕ) : Prop :=
  k.status (k.skipped c) = .runnable → ∃ e, e ≠ k.skipped c ∧ k.status e = .runnable

theorem curRunning_of (hc : (k.cpus c).cpuEnv = some cur) (hrun : k.status cur = .running) :
    k.curRunning c = some cur :=
  Option.filter_eq_some_iff.mpr ⟨hc, decide_eq_true hrun⟩

/-- Where the search finds nothing, only the skipped slot can be runnable. -/
theorem runnable_skipped (h : k.nextRunnable (k.searchStart c) = none) (hrun : k.status e = .runnable) :
    e = k.skipped c := by
  obtain ⟨i, hi, rfl⟩ := exists_envAt (k.searchStart c) e
  have hlast : i = nenv - 1 := by
    by_contra hne
    exact nextRunnable_none h i (by omega) hrun
  rw [hlast]
  rfl

theorem decision_not_skipped (h : k.nextRunnable (k.searchStart c) = none)
    (hrun : k.status (k.skipped c) = .runnable) : k.decision c ≠ .run (k.skipped c) := by
  unfold Kern.decision
  rw [h]
  cases hcur : k.curRunning c with
  | none => exact Decision.noConfusion
  | some cur =>
    intro heq
    have hrunning := (curRunning_some hcur).2
    rw [Decision.run.inj heq, hrun] at hrunning
    cases hrunning

/-- If the skipped slot alone is runnable, it is the first one of a full circle. -/
theorem first_skipped (hrun : k.status (k.skipped c) = .runnable)
    (hno : ∀ e, e ≠ k.skipped c → k.status e ≠ .runnable) : k.FirstFrom (k.searchStart c) (k.skipped c) := by
  refine ⟨nenv - 1, by decide, rfl, hrun, fun j hj => hno _ fun heq => ?_⟩
  have hlast := envAt_eq_skipped (Nat.lt_trans hj (by decide)) heq
  exact absurd hj (by rw [hlast]; exact Nat.lt_irrefl _)

theorem not_rightChoice (hrun : k.status (k.skipped c) = .runnable)
    (hno : ∀ e, e ≠ k.skipped c → k.status e ≠ .runnable) : ¬ RightChoice k c (k.decision c) := by
  intro h
  have hnone : k.nextRunnable (k.searchStart c) = none := by
    cases hnext : k.nextRunnable (k.searchStart c) with
    | none => rfl
    | some e =>
      obtain ⟨i, hi, rfl, hrune, -⟩ := nextRunnable_some hnext
      have hskip : envAt (k.searchStart c + i) = k.skipped c := by
        by_contra hne
        exact hno _ hne hrune
      have hlast := envAt_eq_skipped (Nat.lt_trans hi (by decide)) hskip
      omega
  exact decision_not_skipped hnone hrun (h.first _ (first_skipped hrun hno))

theorem rightChoice_of (h : k.NoneSkipped c) : RightChoice k c (k.decision c) := by
  cases hnext : k.nextRunnable (k.searchStart c) with
  | some idle =>
    -- the search stops at the first one that a full circle meets
    obtain ⟨i, hi, hidle, hrun, hbefore⟩ := nextRunnable_some hnext
    have hfirst : k.FirstFrom (k.searchStart c) idle := ⟨i, Nat.lt_trans hi (by decide), hidle, hrun, hbefore⟩
    have hdec : k.decision c = .run idle := by
      unfold Kern.decision
      rw [hnext]
    rw [hdec]
    refine ⟨fun e he => congrArg Decision.run (hfirst.unique he), fun hno => absurd hrun (hno idle), ?_⟩
    exact Decision.noConfusion
  | none =>
    have hno (e : EnvIdx) : k.status e ≠ .runnable := by
      intro hrun
      have hskip := runnable_skipped hnext hrun
      rw [hskip] at hrun
      obtain ⟨e', hne, hrun'⟩ := h hrun
      exact hne (runnable_skipped hnext hrun')
    have hdec : k.decision c = (match k.curRunning c with | some cur => .run cur | none => .halt) := by
      unfold Kern.decision
      rw [hnext]
    rw [hdec]
    refine ⟨fun e he => absurd he.choose_spec.2.2.1 (hno e), fun _ cur hc hrun => ?_, fun hhalt => ⟨hno, ?_⟩⟩
    · rw [curRunning_of hc hrun]
    · intro cur hc hrun
      rw [curRunning_of hc hrun] at hhalt
      cases hhalt

/-- `sched_yield` chooses as it should exactly in the states in which the slot that it
leaves out is not the only runnable one. -/
theorem sched_choice_iff (k : Kern) (c : ℕ) : schedYield c k = (k.decision c).call c k ∧
    (RightChoice k c (k.decision c) ↔
      (k.status (k.skipped c) = .runnable → ∃ e, e ≠ k.skipped c ∧ k.status e = .runnable)) := by
  refine ⟨schedYield_decision k c, fun h hrun => ?_, rightChoice_of⟩
  by_contra hno
  exact not_rightChoice hrun (fun e hne hrune => hno ⟨e, hne, hrune⟩) h

end Choice

/-- No environment has a CPU, and only the one in the last slot waits for one. -/
def lastRunnable : Kern where
  mem := ⟨0, fun _ => ⟨none, 0⟩, none, 0, fun _ _ => 0#32⟩
  envs := fun e =>
    { envTf := initialTf
      envLink := none
      envId := 0x1000#32 ||| BitVec.ofNat 32 e
      envParentId := 0#32
      envType := .user
      envStatus := if e.val = nenv - 1 then .runnable else .free
      envRuns := 0#32
      envCpunum := 0
      envPgdir := none
      envPgfaultUpcall := 0#32
      envIpcRecving := false
      envIpcDstva := 0#32
      envIpcValue := 0#32
      envIpcFrom := 0#32
      envIpcPerm := 0#32 }
  envFreeList := none
  cpus := fun _ => ⟨.started, none, false⟩
  kernelLock := some 0

/-- The CPU halts although an environment is runnable. -/
theorem sched_skips_last : schedYield 0 lastRunnable = schedHalt 0 lastRunnable ∧
    ¬ RightChoice lastRunnable 0 (lastRunnable.decision 0) := by
  have hskip : lastRunnable.skipped 0 = ⟨nenv - 1, by decide⟩ := skipped_eq
  have hrun : lastRunnable.status (lastRunnable.skipped 0) = .runnable := by
    rw [hskip]
    change (if nenv - 1 = nenv - 1 then EnvStatus.runnable else .free) = .runnable
    rw [if_pos rfl]
  have hno (e : EnvIdx) (he : e ≠ lastRunnable.skipped 0) : lastRunnable.status e ≠ .runnable := by
    have hval : e.val ≠ nenv - 1 := by
      rw [hskip] at he
      exact fun heq => he (Fin.ext heq)
    change (if e.val = nenv - 1 then EnvStatus.runnable else .free) ≠ .runnable
    rw [if_neg hval]
    exact EnvStatus.noConfusion
  have hwrong := not_rightChoice hrun hno
  refine ⟨?_, hwrong⟩
  rw [schedYield_decision]
  have hdec : lastRunnable.decision 0 = .halt := by
    unfold Kern.decision
    cases hnext : lastRunnable.nextRunnable (lastRunnable.searchStart 0) with
    | none => rfl
    | some e =>
      obtain ⟨i, hi, rfl, hrune, -⟩ := nextRunnable_some hnext
      have hlast : i = nenv - 1 := by
        by_contra hne
        exact hno _ (fun heq => hne (envAt_eq_skipped (Nat.lt_trans hi (by decide)) heq)) hrune
      omega
  rw [hdec]
  rfl

end Sisop
