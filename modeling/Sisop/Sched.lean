import Sisop.UserMem

/-! `kern/sched.c`, and the functions that may end in the scheduler. -/
namespace Sisop

/-- An environment that is waiting for a CPU or has one. -/
def Kern.Awake (k : Kern) : Prop :=
  ∃ e : EnvIdx, k.status e = .runnable ∨ k.status e = .running ∨ k.status e = .dying

instance (k : Kern) : Decidable k.Awake := inferInstanceAs (Decidable (∃ _, _))

/-- `sched_halt()`, which does not return. Without environments to wait for it
stays in the monitor. -/
def schedHalt (c : ℕ) : Routine Kern Unit := do
  let awake ← Routine.gets fun k => decide k.Awake
  if awake then
    Routine.modify fun k => k.setCurenv c none
    Routine.modify fun k => k.setCpu c fun cpu => { cpu with cpuStatus := .halted }
    envRun.unlockKernel c
    Routine.leave fun k => k.setCpu c fun cpu => { cpu with user := false }
  else Routine.halt

/-- `envs + (i % NENV)`. -/
def envAt (i : ℕ) : EnvIdx := ⟨i % nenv, Nat.mod_lt i (by decide)⟩

/-- The first environment the search of `sched_yield` meets that is runnable.
The search takes `NENV - 1` steps. -/
def Kern.nextRunnable (k : Kern) (start : ℕ) : Option EnvIdx :=
  ((List.range (nenv - 1)).map fun i => envAt (start + i)).find? fun e => k.status e = .runnable

/-- Where `sched_yield` starts its search. -/
def Kern.searchStart (k : Kern) (c : ℕ) : ℕ :=
  match (k.cpus c).cpuEnv with
  | some cur => (envx (k.envs cur).envId).val + 1
  | none => 0

/-- `curenv && curenv->env_status == ENV_RUNNING`. -/
def Kern.curRunning (k : Kern) (c : ℕ) : Option EnvIdx :=
  (k.cpus c).cpuEnv.filter fun e => k.status e = .running

theorem curRunning_some {k : Kern} {c : ℕ} {e : EnvIdx} (h : k.curRunning c = some e) :
    (k.cpus c).cpuEnv = some e ∧ k.status e = .running := by
  obtain ⟨hcur, hrun⟩ := Option.filter_eq_some_iff.mp h
  exact ⟨hcur, of_decide_eq_true hrun⟩

/-- `sched_yield()`, which does not return. -/
def schedYield (c : ℕ) : Routine Kern Unit := do
  match (← Routine.gets fun k => k.nextRunnable (k.searchStart c)) with
  | some idle => envRun c idle
  | none =>
    match (← Routine.gets fun k => k.curRunning c) with
    | some cur => envRun c cur
    | none => schedHalt c

/-- `env_destroy(e)`. It does not return if `e` is the current environment. -/
def envDestroy (c : ℕ) (e : EnvIdx) : Routine Kern Unit := do
  let elsewhere ← Routine.gets fun k => decide (k.status e = .running ∧ (k.cpus c).cpuEnv ≠ some e)
  if elsewhere then
    Routine.modify fun k => k.setStatus e .dying
  else
    envFree e
    let current ← Routine.gets fun k => decide ((k.cpus c).cpuEnv = some e)
    if current then
      Routine.modify fun k => k.setCurenv c none
      schedYield c
    else pure ()

/-- `user_mem_assert(env, va, len, perm)`. -/
def userMemAssert (c : ℕ) (e : EnvIdx) (va len perm : Word) : Routine Kern Unit := do
  let g ← envPgdir e
  match (← mem (userMemCheck g va len (perm ||| pteU))) with
  | .ok () => pure ()
  | .error _ => envDestroy c e

end Sisop
