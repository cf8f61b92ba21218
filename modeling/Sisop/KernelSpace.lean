import Sisop.CpuSystem

/-! Properties of the memory and of the address spaces: what a routine does to the CPUs,
the lock and the other fields of the environments does not matter to them. -/
namespace Sisop

open Routine (Triple Stays)

/-- Two states that agree in memory and in the fields `env_pgdir` and `env_link`. -/
structure SameSpace (k k' : Kern) : Prop where
  mem : k'.mem = k.mem
  dirs : k'.dirs = k.dirs
  link : ∀ e, (k'.envs e).envLink = (k.envs e).envLink
  freeList : k'.envFreeList = k.envFreeList

/-- A property that everything but memory, page directories and the list of free
environments is irrelevant to. -/
def SpaceSteady (P : Kern → Prop) : Prop := ∀ k k', SameSpace k k' → P k → P k'

section Space

variable {k k' : Kern} {c : ℕ} {e : EnvIdx} {P E : Kern → Prop}

theorem SameSpace.setEnv (k : Kern) (e : EnvIdx) {f : Env → Env}
    (hd : (f (k.envs e)).envPgdir = (k.envs e).envPgdir)
    (hl : (f (k.envs e)).envLink = (k.envs e).envLink) : SameSpace k (k.setEnv e f) := by
  refine ⟨rfl, funext fun i => ?_, fun i => ?_, rfl⟩
  · rw [setEnv_dirs, hd]
    split_ifs with h
    · rw [h, Kern.dirs]
    · rfl
  · rw [setEnv_link, hl]
    split_ifs with h
    · rw [h]
    · rfl

theorem SameSpace.setCpu (k : Kern) (c : ℕ) (f : CpuInfo → CpuInfo) : SameSpace k (k.setCpu c f) :=
  ⟨rfl, rfl, fun _ => rfl, rfl⟩

theorem SameSpace.lock (k : Kern) (l : Option ℕ) : SameSpace k { k with kernelLock := l } :=
  ⟨rfl, rfl, fun _ => rfl, rfl⟩

/-- The checks of `user_mem_check` change nothing. -/
theorem userMemCheckFrom_ret {g : ℕ} {va perm : Word} {n : ℕ} {address : Word} {s s' : Pm}
    {r : Except Word Unit} (h : userMemCheckFrom g va perm n address s = .ret r s') : s' = s := by
  induction n generalizing address with
  | zero => exact (Outcome.ret.inj h).2.symm
  | succ n ih =>
    simp only [userMemCheckFrom, Routine.ite_run] at h
    generalize (if address < va then va else address) = bad at h
    split_ifs at h
    · exact (Outcome.ret.inj h).2.symm
    · obtain ⟨o, t, hw, h₁⟩ := Routine.bind_eq_ret.mp h
      rw [pgdirWalk_false] at hw
      split_ifs at hw
      · obtain ⟨rfl, rfl⟩ := Outcome.ret.inj hw
        exact (Outcome.ret.inj h₁).2.symm
      · obtain ⟨rfl, rfl⟩ := Outcome.ret.inj hw
        simp only [Routine.gets_bind_run, Routine.ite_run] at h₁
        split_ifs at h₁
        · exact ih h₁
        · exact (Outcome.ret.inj h₁).2.symm

section Steady

variable (hP : SpaceSteady P)
include hP

theorem SpaceSteady.setCurenv (x : Option EnvIdx) :
    Triple P (Routine.modify fun k => k.setCurenv c x) (fun _ => P) E :=
  .modify fun k hk => hP _ _ (SameSpace.setCpu k c _) hk

theorem SpaceSteady.setEnv (e : EnvIdx) {f : Env → Env}
    (hd : ∀ env, (f env).envPgdir = env.envPgdir) (hl : ∀ env, (f env).envLink = env.envLink) :
    Triple P (Routine.modify fun k => k.setEnv e f) (fun _ => P) E :=
  .modify fun k hk => hP _ _ (SameSpace.setEnv k e (hd _) (hl _)) hk

theorem SpaceSteady.lockKernel : Triple P (lockKernel c) (fun _ => P) E :=
  triple_lockKernel.post fun _ k hk => by
    obtain ⟨k', h, -, rfl⟩ := hk
    exact hP _ _ (SameSpace.lock k' _) h

theorem SpaceSteady.unlockKernel : Triple P (envRun.unlockKernel c) (fun _ => P) E := by
  apply Triple.intro
  intro k hk
  unfold envRun.unlockKernel
  by_cases hl : k.kernelLock = some c
  · rw [if_pos hl]
    exact hP _ _ (SameSpace.lock k none) hk
  · rw [if_neg hl]
    trivial

theorem SpaceSteady.envRun (e : EnvIdx) : Triple P (envRun c e) (fun _ _ => False) P := by
  have hrest : Triple P (do
      Routine.modify fun k => k.setCurenv c (some e)
      Routine.modify fun k => k.setEnv e fun env =>
        { env with envStatus := .running, envRuns := env.envRuns + 1#32 }
      let _ ← envPgdir e
      envRun.unlockKernel c
      Routine.leave fun k => (k.setEnv e fun env => { env with envCpunum := c }).setCpu c fun cpu =>
        { cpu with user := true } : Routine Kern Unit) (fun _ _ => False) P := by
    refine .bind (hP.setCurenv _) fun _ => .bind (hP.setEnv e (fun _ => rfl) fun _ => rfl) fun _ => ?_
    refine .bind (keeps_envPgdir e) fun _ => .bind hP.unlockKernel fun _ => .leave fun k hk => ?_
    exact hP _ _ (SameSpace.setCpu _ c _) (hP _ _ (SameSpace.setEnv k e rfl rfl) hk)
  refine .bind (.gets_same _) fun cur => ?_
  cases cur with
  | none => exact hrest
  | some cur =>
    refine .bind (.modify (Q := fun _ => P) fun k hk => ?_) fun _ => hrest
    split_ifs
    · exact hP _ _ (SameSpace.setEnv k cur rfl rfl) hk
    · exact hk

theorem SpaceSteady.schedHalt : Triple P (schedHalt c) (fun _ _ => False) P := by
  refine .bind (.gets_same _) fun awake => .ite_same ?_ .halt
  refine .bind (hP.setCurenv none) fun _ => ?_
  refine .bind (.modify (Q := fun _ => P) fun k hk => hP _ _ (SameSpace.setCpu k c _) hk) fun _ => ?_
  exact .bind hP.unlockKernel fun _ => .leave fun k hk => hP _ _ (SameSpace.setCpu k c _) hk

theorem SpaceSteady.schedYield : Triple P (schedYield c) (fun _ _ => False) P := by
  refine .bind (.gets_same _) fun idle => ?_
  cases idle with
  | some e => exact hP.envRun e
  | none =>
    refine .bind (.gets_same _) fun cur => ?_
    cases cur with
    | some e => exact hP.envRun e
    | none => exact hP.schedHalt

theorem SpaceSteady.mpMain : Triple P (mpMain c) (fun _ _ => False) P :=
  .bind (.modify (Q := fun _ => P) fun k hk => hP _ _ (SameSpace.setCpu k c _) hk) fun _ =>
    .bind hP.lockKernel fun _ => hP.schedYield

theorem SpaceSteady.sysEnvSetStatus (envid status : Word) :
    Triple P (sysEnvSetStatus c envid status) (fun _ => P) E := by
  unfold Sisop.sysEnvSetStatus
  cases settableStatus status with
  | none => exact .pure fun _ h => h
  | some st =>
    refine .bind (keeps_envid2env envid true) fun r => ?_
    cases r with
    | error _ => exact .pure fun _ h => h
    | ok e => exact .bind (hP.setEnv e (fun _ => rfl) fun _ => rfl) fun _ => .pure fun _ h => h

theorem SpaceSteady.sysEnvSetPgfaultUpcall (envid func : Word) :
    Triple P (sysEnvSetPgfaultUpcall c envid func) (fun _ => P) E := by
  refine .bind (keeps_envid2env envid true) fun r => ?_
  cases r with
  | error _ => exact .pure fun _ h => h
  | ok e => exact .bind (hP.setEnv e (fun _ => rfl) fun _ => rfl) fun _ => .pure fun _ h => h

theorem SpaceSteady.sysIpcRecv (dstva : Word) :
    Triple P (sysIpcRecv c dstva) (fun _ => P) P := by
  refine .ite_same (.pure fun _ h => h) (.bind keeps_curenv fun cur => ?_)
  exact .bind (hP.setEnv cur (fun _ => rfl) fun _ => rfl) fun _ =>
    .bind hP.schedYield fun _ => .pure fun _ h => h.elim

variable (hfree : ∀ e E, Triple P (envFree e) (fun _ => P) E)
include hfree

theorem SpaceSteady.envDestroy (e : EnvIdx) : Triple P (envDestroy c e) (fun _ => P) P := by
  refine .bind (.gets_same _) fun elsewhere => .ite_same ?_ ?_
  · exact hP.setEnv e (fun _ => rfl) fun _ => rfl
  · refine .bind (hfree e P) fun _ => .bind (.gets_same _) fun current => .ite_same ?_ ?_
    · exact .bind (hP.setCurenv none) fun _ => hP.schedYield.post fun _ _ h => h.elim
    · exact .pure fun _ h => h

theorem SpaceSteady.sysEnvDestroy (envid : Word) :
    Triple P (sysEnvDestroy c envid) (fun _ => P) P := by
  refine .bind (keeps_envid2env envid true) fun r => ?_
  cases r with
  | error _ => exact .pure fun _ h => h
  | ok e => exact .bind (hP.envDestroy hfree e) fun _ => .pure fun _ h => h

theorem SpaceSteady.userMemAssert (e : EnvIdx) (va len perm : Word) :
    Triple P (userMemAssert c e va len perm) (fun _ => P) P := by
  refine .bind (keeps_envPgdir e) fun g => .bind (Q := fun _ => P) ?_ fun r => ?_
  · refine .of_ret (Stays.zoom (stays_userMemCheckFrom _ _ _ _ _)) fun k r k' hk h => ?_
    obtain ⟨t, ht, rfl⟩ := mem_eq_ret.mp h
    rw [userMemCheckFrom_ret ht]
    exact hk
  · cases r with
    | ok _ => exact .pure fun _ h => h
    | error _ => exact hP.envDestroy hfree e

theorem SpaceSteady.sysCputs (s len : Word) : Triple P (sysCputs c s len) (fun _ => P) P :=
  .bind keeps_curenv fun cur => .bind (hP.userMemAssert hfree cur s len _) fun _ => keeps_print cur len s

end Steady
end Space
end Sisop
