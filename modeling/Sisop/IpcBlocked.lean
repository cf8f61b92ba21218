import Sisop.KernelEntry
import Sisop.KernelPair

/-! Receivers: an environment registered in `sys_ipc_recv` stays blocked until a
message arrives, unless a parent sets its status, or it is blocked while a second
CPU executes it. -/
namespace Sisop

open Routine (Triple Stays)

/-- The environment does not wait for a CPU, and none executes it. -/
structure Blocked (k : Kern) (e : EnvIdx) : Prop where
  status : k.status e = .notRunnable ∨ k.status e = .free
  idle : ∀ c, ¬ Executing k c e

/-- Every environment that is registered as receiving is blocked. -/
def RecvOk (k : Kern) : Prop := ∀ e, (k.envs e).envIpcRecving = true → Blocked k e

/-- The invariant between kernel entries. -/
structure RecvRest (k : Kern) : Prop where
  ok : RecvOk k
  idle : ∀ c, (k.cpus c).user = false → (k.cpus c).cpuEnv = none

/-- The invariant while the CPU `c` is in the kernel. -/
structure RecvIn (c : ℕ) (k : Kern) : Prop where
  ok : RecvOk k
  self : (k.cpus c).user = false
  idle : ∀ c', c' ≠ c → (k.cpus c').user = false → (k.cpus c').cpuEnv = none

/-- The same, and the current environment is not receiving. -/
structure RecvCur (c : ℕ) (k : Kern) : Prop where
  inv : RecvIn c k
  cur : ∀ e, (k.cpus c).cpuEnv = some e → (k.envs e).envIpcRecving = false

section Invariant

variable {k k' : Kern} {c : ℕ} {e : EnvIdx} {x : Option EnvIdx} {f : Env → Env} {E : Kern → Prop}

theorem RecvOk.of_status (h : RecvOk k) (h1 : k.status e ≠ .notRunnable) (h2 : k.status e ≠ .free) :
    (k.envs e).envIpcRecving = false := by
  by_contra hr
  rcases (h e (by simpa using hr)).status with hs | hs
  · exact h1 hs
  · exact h2 hs

/-- An environment changes. If it is receiving afterwards, it must be blocked. -/
theorem RecvIn.setEnv (h : RecvIn c k) (hf : (f (k.envs e)).envIpcRecving = true →
    ((f (k.envs e)).envStatus = .notRunnable ∨ (f (k.envs e)).envStatus = .free) ∧
      ∀ c', ¬ Executing k c' e) : RecvIn c (k.setEnv e f) := by
  refine ⟨fun i hi => ⟨?_, ?_⟩, h.self, h.idle⟩
  · rw [setEnv_envs] at hi
    rw [setEnv_status]
    split_ifs at hi ⊢ with hie
    · exact (hf hi).1
    · exact (h.ok i hi).status
  · rw [setEnv_envs] at hi
    intro c' hx
    split_ifs at hi with hie
    · rw [hie] at hx
      exact (hf hi).2 c' hx
    · exact (h.ok i hi).idle c' hx

/-- An environment that does not start to receive keeps a status in which it may. -/
theorem RecvCur.setEnv (h : RecvCur c k) (hf : (f (k.envs e)).envIpcRecving = true →
    (k.envs e).envIpcRecving = true ∧
      ((f (k.envs e)).envStatus = .notRunnable ∨ (f (k.envs e)).envStatus = .free)) :
    RecvCur c (k.setEnv e f) := by
  refine ⟨h.inv.setEnv fun hr => ⟨(hf hr).2, (h.inv.ok e (hf hr).1).idle⟩, fun i hi => ?_⟩
  have hcur := h.cur i hi
  rw [setEnv_envs]
  split_ifs with hie
  · rw [hie] at hcur
    by_contra hr
    have hr' := (hf (by simpa using hr)).1
    rw [hcur] at hr'
    cases hr'
  · exact hcur

/-- Registers, handlers and messages may change. -/
theorem RecvCur.setEnv_same (h : RecvCur c k)
    (hr : (f (k.envs e)).envIpcRecving = (k.envs e).envIpcRecving)
    (hs : (f (k.envs e)).envStatus = (k.envs e).envStatus) : RecvCur c (k.setEnv e f) := by
  apply h.setEnv
  intro hf
  rw [hr] at hf
  rw [hs]
  exact ⟨hf, (h.inv.ok e hf).status⟩

theorem RecvIn.setCurenv (h : RecvIn c k) (x : Option EnvIdx) : RecvIn c (k.setCurenv c x) := by
  have hself : (k.setCurenv c x).cpus c = { k.cpus c with cpuEnv := x } := by
    rw [Kern.setCurenv, setCpu_cpus, if_pos rfl]
  have hc (c' : ℕ) (hcc : c' ≠ c) : (k.setCurenv c x).cpus c' = k.cpus c' := by
    rw [Kern.setCurenv, setCpu_cpus, if_neg hcc]
  refine ⟨fun i hi => ⟨(h.ok i hi).status, fun c' hx => ?_⟩, ?_, fun c' hcc => ?_⟩
  · by_cases hcc : c' = c
    · have hu := hx.1
      rw [hcc, hself] at hu
      exact absurd hu (by simp [h.self])
    · rw [Executing, hc c' hcc] at hx
      exact (h.ok i hi).idle c' hx
  · rw [hself]
    exact h.self
  · rw [hc c' hcc]
    exact h.idle c' hcc

/-- The CPU leaves the kernel, with an environment that is not receiving or with none. -/
theorem RecvIn.leave (h : RecvIn c k) {g : CpuInfo → CpuInfo}
    (hg : ∀ i, (g (k.cpus c)).cpuEnv = some i → (k.envs i).envIpcRecving = false)
    (hi : (g (k.cpus c)).user = false → (g (k.cpus c)).cpuEnv = none) :
    RecvRest (k.setCpu c g) := by
  refine ⟨fun i hr => ⟨(h.ok i hr).status, fun c' hx => ?_⟩, fun c' hu => ?_⟩
  · by_cases hcc : c' = c
    · have henv := hx.2
      rw [hcc, setCpu_cpus, if_pos rfl] at henv
      have hnot := hg i henv
      rw [setCpu_envs, hnot] at hr
      cases hr
    · rw [Executing, setCpu_cpus, if_neg hcc] at hx
      exact (h.ok i hr).idle c' hx
  · rw [setCpu_cpus] at hu ⊢
    split_ifs at hu ⊢ with hcc
    · exact hi hu
    · exact h.idle c' hcc hu

theorem RecvIn.unlocked (h : RecvIn c k) : RecvIn c { k with kernelLock := none } :=
  ⟨fun i hi => ⟨(h.ok i hi).status, (h.ok i hi).idle⟩, h.self, h.idle⟩

/-- The environment that a CPU takes up is not receiving. -/
theorem recv_envRun (e : EnvIdx) :
    Triple (fun k => RecvIn c k ∧ (k.envs e).envIpcRecving = false) (envRun c e)
      (fun _ _ => False) RecvRest := by
  have hrest : Triple (fun k => RecvIn c k ∧ (k.envs e).envIpcRecving = false) (do
      Routine.modify fun k => k.setCurenv c (some e)
      Routine.modify fun k => k.setEnv e fun env =>
        { env with envStatus := .running, envRuns := env.envRuns + 1#32 }
      let _ ← envPgdir e
      envRun.unlockKernel c
      Routine.leave fun k => (k.setEnv e fun env => { env with envCpunum := c }).setCpu c fun cpu =>
        { cpu with user := true } : Routine Kern Unit) (fun _ _ => False) RecvRest := by
    refine .bind (.modify (Q := fun _ k => RecvIn c k ∧ (k.envs e).envIpcRecving = false ∧
      (k.cpus c).cpuEnv = some e) fun k hk => ?_) fun _ => ?_
    · refine ⟨hk.1.setCurenv _, hk.2, ?_⟩
      rw [Kern.setCurenv, setCpu_cpus, if_pos rfl]
    refine .bind (.modify (Q := fun _ k => RecvIn c k ∧ (k.envs e).envIpcRecving = false ∧
      (k.cpus c).cpuEnv = some e) fun k hk => ?_) fun _ => ?_
    · obtain ⟨hk, hr, hc⟩ := hk
      refine ⟨hk.setEnv fun hf => ?_, ?_, hc⟩
      · rw [hr] at hf
        cases hf
      · rw [setEnv_envs, if_pos rfl]
        exact hr
    refine .bind (keeps_envPgdir e) fun _ => .bind (triple_unlockKernel fun k hk =>
      ⟨hk.1.unlocked, hk.2⟩) fun _ => .leave fun k hk => ?_
    obtain ⟨hk, hr, hc⟩ := hk
    have hk' : RecvIn c (k.setEnv e fun env => { env with envCpunum := c }) := by
      apply hk.setEnv
      intro hf
      rw [hr] at hf
      cases hf
    refine hk'.leave (fun i hi => ?_) fun hu => absurd hu Bool.noConfusion
    obtain rfl : e = i := Option.some.inj (hc.symm.trans hi)
    rw [setEnv_envs, if_pos rfl]
    exact hr
  refine .bind (.gets_same _) fun cur => ?_
  cases cur with
  | none => exact hrest
  | some cur =>
    refine .bind (.modify fun k hk => ?_) fun _ => hrest
    obtain ⟨hk, hr⟩ := hk
    split_ifs with hs
    · -- a running environment is not receiving, so it may become runnable
      have hcur := hk.ok.of_status (e := cur) (by rw [hs]; decide) (by rw [hs]; decide)
      refine ⟨hk.setEnv fun hf => ?_, ?_⟩
      · rw [hcur] at hf
        cases hf
      · rw [Kern.setStatus, setEnv_envs]
        split_ifs with he
        · exact hcur
        · exact hr
    · exact ⟨hk, hr⟩

theorem recv_schedHalt : Triple (RecvIn c) (schedHalt c) (fun _ _ => False) RecvRest := by
  refine .bind (.gets_same _) fun awake => .ite_same ?_ .halt
  refine .bind (.modify (Q := fun _ k => RecvIn c k ∧ (k.cpus c).cpuEnv = none) fun k hk => ?_)
    fun _ => ?_
  · refine ⟨hk.setCurenv none, ?_⟩
    rw [Kern.setCurenv, setCpu_cpus, if_pos rfl]
  refine .bind (.modify (Q := fun _ k => RecvIn c k ∧ (k.cpus c).cpuEnv = none) fun k hk => ?_)
    fun _ => ?_
  · obtain ⟨hk, hc⟩ := hk
    have hrest : RecvRest (k.setCpu c fun cpu => { cpu with cpuStatus := .halted }) := by
      apply hk.leave
      · intro i hi
        rw [show _ = none from hc] at hi
        cases hi
      · exact fun _ => hc
    refine ⟨⟨hrest.ok, ?_, fun c' _ => hrest.idle c'⟩, ?_⟩
    · rw [setCpu_cpus, if_pos rfl]
      exact hk.self
    · rw [setCpu_cpus, if_pos rfl]
      exact hc
  refine .bind (triple_unlockKernel fun k hk => ⟨hk.1.unlocked, hk.2⟩) fun _ => .leave fun k hk => ?_
  obtain ⟨hk, hc⟩ := hk
  apply hk.leave
  · intro i hi
    rw [show _ = none from hc] at hi
    cases hi
  · exact fun _ => hc

theorem recv_schedYield : Triple (RecvIn c) (schedYield c) (fun _ _ => False) RecvRest := by
  refine .bind (Q := fun r k => RecvIn c k ∧ ∀ e, r = some e → (k.envs e).envIpcRecving = false)
    (.gets fun k hk => ⟨hk, fun e he => ?_⟩) fun idle => ?_
  · have hs := nextRunnable_status he
    exact hk.ok.of_status (by rw [hs]; decide) (by rw [hs]; decide)
  cases idle with
  | some e => exact (recv_envRun e).pre fun k hk => ⟨hk.1, hk.2 e rfl⟩
  | none =>
    refine .bind (Q := fun r k => RecvIn c k ∧ ∀ e, r = some e → (k.envs e).envIpcRecving = false)
      (.gets fun k hk => ⟨hk.1, fun e he => ?_⟩) fun cur => ?_
    · have hs := (curRunning_some he).2
      exact hk.1.ok.of_status (by rw [hs]; decide) (by rw [hs]; decide)
    cases cur with
    | some e => exact (recv_envRun e).pre fun k hk => ⟨hk.1, hk.2 e rfl⟩
    | none => exact recv_schedHalt.pre fun k hk => hk.1

theorem memSteady_recvCur : MemSteady (RecvCur c) := fun _ _ h =>
  ⟨⟨fun i hi => ⟨(h.inv.ok i hi).status, (h.inv.ok i hi).idle⟩, h.inv.self, h.inv.idle⟩, h.cur⟩

theorem RecvCur.changeStatus (h : RecvCur c k) {st : EnvStatus}
    (hst : (k.envs e).envIpcRecving = true → st = .notRunnable) : RecvCur c (k.setStatus e st) :=
  h.setEnv fun hr => ⟨hr, Or.inl (hst hr)⟩

theorem RecvCur.freed (h : RecvCur c k) (e : EnvIdx) (t : Pm) : RecvCur c (k.freed e t) := by
  have hk : RecvCur c (k.setEnv e fun env => { env with
      envPgdir := none
      envStatus := .free
      envLink := k.envFreeList }) := h.setEnv fun hr => ⟨hr, Or.inr rfl⟩
  exact ⟨⟨fun i hi => ⟨(hk.inv.ok i hi).status, (hk.inv.ok i hi).idle⟩, hk.inv.self, hk.inv.idle⟩, hk.cur⟩

/-- A new environment is not receiving. -/
theorem RecvCur.alloced (h : RecvCur c k) (e : EnvIdx) (parentId : Word) (g : ℕ) (t : Pm) :
    RecvCur c (k.alloced e parentId g t) ∧ ((k.alloced e parentId g t).envs e).envIpcRecving = false := by
  have hk : RecvCur c (k.setEnv e fun env => { env with
      envPgdir := some g
      envId := nextEnvId e env.envId
      envParentId := parentId
      envType := .user
      envStatus := .runnable
      envRuns := 0#32
      envTf := initialTf
      envPgfaultUpcall := 0#32
      envIpcRecving := false }) := h.setEnv fun hr => by cases hr
  refine ⟨⟨⟨fun i hi => ⟨(hk.inv.ok i hi).status, (hk.inv.ok i hi).idle⟩, hk.inv.self, hk.inv.idle⟩,
    hk.cur⟩, ?_⟩
  simp only [Kern.alloced, Kern.setEnv, Function.update_self]

/-- `env_destroy` keeps the current environment, if it returns. -/
theorem recv_envDestroy (e : EnvIdx) (x : Option EnvIdx) :
    Triple (fun k => RecvCur c k ∧ (k.cpus c).cpuEnv = x) (envDestroy c e)
      (fun _ k => RecvCur c k ∧ (k.cpus c).cpuEnv = x) RecvRest := by
  refine .bind (Q := fun r k => (RecvCur c k ∧ (k.cpus c).cpuEnv = x) ∧
    (r = true → k.status e = .running)) (.gets fun k hk => ⟨hk, fun hr => ?_⟩) fun elsewhere => ?_
  · exact (of_decide_eq_true hr).1
  cases elsewhere with
  | true =>
    refine .modify fun k hk => ?_
    obtain ⟨⟨hk, hc⟩, hs⟩ := hk
    have hnot := hk.inv.ok.of_status (e := e) (by rw [hs rfl]; decide) (by rw [hs rfl]; decide)
    refine ⟨hk.changeStatus fun hr => ?_, hc⟩
    rw [hnot] at hr
    cases hr
  | false =>
    refine .bind (Q := fun _ k => RecvCur c k ∧ (k.cpus c).cpuEnv = x)
      (.of_ret (stays_envFree e) fun k _ k' hk h => ?_) fun _ => ?_
    · obtain ⟨g, s, t, -, -, -, rfl⟩ := envFree_ret h
      exact ⟨hk.1.1.freed e t, hk.1.2⟩
    refine .bind (.gets_same _) fun current => .ite_same ?_ (.pure fun _ h => h)
    refine .bind (.modify (Q := fun _ => RecvIn c) fun k hk => hk.1.inv.setCurenv none) fun _ => ?_
    exact recv_schedYield.post fun _ _ h => h.elim

theorem recv_userMemAssert (e : EnvIdx) (va len perm : Word) (x : Option EnvIdx) :
    Triple (fun k => RecvCur c k ∧ (k.cpus c).cpuEnv = x) (userMemAssert c e va len perm)
      (fun _ k => RecvCur c k ∧ (k.cpus c).cpuEnv = x) RecvRest := by
  have hP : MemSteady fun k => RecvCur c k ∧ (k.cpus c).cpuEnv = x :=
    fun k t hk => ⟨memSteady_recvCur k t hk.1, hk.2⟩
  refine .bind (keeps_envPgdir e) fun g => .bind (triple_mem hP (stays_userMemCheckFrom _ _ _ _ _)) ?_
  intro r
  cases r with
  | ok _ => exact .pure fun _ h => h
  | error _ => exact recv_envDestroy e x

theorem recv_sysEnvDestroy (envid : Word) :
    Triple (RecvCur c) (sysEnvDestroy c envid) (fun _ => RecvCur c) RecvRest := by
  refine .bind (keeps_envid2env envid true) fun r => ?_
  cases r with
  | error _ => exact .pure fun _ h => h
  | ok e =>
    have hd := Triple.exists_pre fun x => (recv_envDestroy (c := c) e x).post
      (Q := fun _ => RecvCur c) fun _ _ h => h.1
    exact .bind (hd.pre fun k hk => ⟨_, hk, rfl⟩) fun _ => .pure fun _ h => h

theorem recv_sysExofork : Triple (RecvCur c) (sysExofork c) (fun _ => RecvCur c) E := by
  refine .bind keeps_curenv fun cur => .bind (.gets_same _) fun curId => ?_
  refine .bind (Q := fun r k => RecvCur c k ∧ ∀ e, r = .ok e → (k.envs e).envIpcRecving = false)
    (.of_ret (stays_envAlloc curId) fun k r k' hk h => ?_) fun r => ?_
  · rcases envAlloc_ret h with ⟨err, rfl, rfl | ⟨t, -, rfl⟩⟩ | ⟨e, g, t, rfl, hf, -, rfl⟩
    · exact ⟨hk, fun _ he => by cases he⟩
    · exact ⟨memSteady_recvCur k t hk, fun _ he => by cases he⟩
    · obtain ⟨hk', hr⟩ := hk.alloced e curId g t
      refine ⟨hk', fun i hi => ?_⟩
      rw [← Except.ok.inj hi]
      exact hr
  cases r with
  | error _ => exact .pure fun _ h => h.1
  | ok e =>
    refine .bind (.modify (Q := fun _ => RecvCur c) fun k hk => hk.1.changeStatus fun _ => rfl)
      fun _ => ?_
    exact .bind (.modify (Q := fun _ => RecvCur c) fun k hk => hk.setEnv_same rfl rfl) fun _ =>
      .bind (.gets_same _) fun id => .pure fun _ h => h

/-- No receiver is made runnable by hand. -/
theorem recv_sysEnvSetStatus (envid status : Word) :
    Triple (fun k => RecvCur c k ∧ ∀ e, settableStatus status = some .runnable →
      Names k c envid true e → (k.envs e).envIpcRecving = false) (sysEnvSetStatus c envid status)
      (fun _ => RecvCur c) E := by
  unfold sysEnvSetStatus
  rcases Option.eq_none_or_eq_some (settableStatus status) with hs | ⟨st, hs⟩
  · rw [hs]
    exact .pure fun _ h => h.1
  · rw [hs]
    refine .bind (triple_envid2env envid true) fun r => ?_
    cases r with
    | error _ => exact .pure fun _ h => h.1.1
    | ok e =>
      refine .bind (.modify (Q := fun _ => RecvCur c) fun k hk => ?_) fun _ => .pure fun _ h => h
      obtain ⟨⟨hk, hu⟩, hn⟩ := hk
      apply hk.changeStatus
      intro hr
      rcases settableStatus_cases hs with rfl | rfl
      · have hnot := hu e rfl (hn e rfl)
        rw [hr] at hnot
        cases hnot
      · rfl

theorem recv_sysEnvSetPgfaultUpcall (envid func : Word) :
    Triple (RecvCur c) (sysEnvSetPgfaultUpcall c envid func) (fun _ => RecvCur c) E := by
  refine .bind (keeps_envid2env envid true) fun r => ?_
  cases r with
  | error _ => exact .pure fun _ h => h
  | ok e =>
    exact .bind (.modify (Q := fun _ => RecvCur c) fun k hk => hk.setEnv_same rfl rfl) fun _ =>
      .pure fun _ h => h

/-- A message ends the reception. -/
theorem recv_sysIpcTrySend (envid value srcva perm : Word) :
    Triple (RecvCur c) (sysIpcTrySend c envid value srcva perm) (fun _ => RecvCur c) E := by
  refine .bind (keeps_envid2env envid false) fun r => ?_
  cases r with
  | error _ => exact .pure fun _ h => h
  | ok e =>
    refine .bind (.gets_same _) fun recving => .ite_same ?_ (.pure fun _ h => h)
    refine .bind (.modify (Q := fun _ => RecvCur c) fun k hk => hk.setEnv_same rfl rfl) fun _ => ?_
    refine .bind (keeps_ipcSendPage memSteady_recvCur e srcva perm) fun r => ?_
    cases r with
    | error _ => exact .pure fun _ h => h
    | ok ipcPerm =>
      refine .bind keeps_curenv fun cur => .bind (.gets_same _) fun curId => ?_
      refine .bind (.modify (Q := fun _ => RecvCur c) fun k hk => hk.setEnv fun hr => ?_) fun _ =>
        .pure fun _ h => h
      cases hr

/-- The caller blocks. No other CPU may be executing it. -/
theorem recv_sysIpcRecv (dstva : Word) :
    Triple (fun k => RecvCur c k ∧ (¬ (dstva < utop ∧ pgoff dstva ≠ 0) → ∀ cur c', c' ≠ c →
      (k.cpus c).cpuEnv = some cur → ¬ Executing k c' cur)) (sysIpcRecv c dstva)
      (fun _ => RecvCur c) RecvRest := by
  refine .ite (.pure fun _ h => h.1.1) (.bind triple_curenv fun cur => ?_)
  refine .bind (.modify (Q := fun _ => RecvIn c) fun k hk => ?_) fun _ =>
    .bind recv_schedYield fun _ => .pure fun _ h => h.elim
  obtain ⟨⟨⟨hk, hx⟩, hargs⟩, hc⟩ := hk
  refine hk.inv.setEnv fun _ => ⟨Or.inl rfl, fun c' hx' => ?_⟩
  by_cases hcc : c' = c
  · have hu := hx'.1
    rw [hcc] at hu
    exact absurd hu (by simp [hk.inv.self])
  · exact hx hargs cur c' hcc hc hx'

/-- A system call after which a receiver is not blocked: `sys_env_set_status` makes it
runnable, or an environment calls `sys_ipc_recv` while another CPU executes it, too. -/
def Unblocks (k : Kern) (c : ℕ) (regs : PushRegs) : Prop :=
  (regs.regEax = 8#32 ∧ settableStatus regs.regEcx = some .runnable ∧
    ∃ e, Names k c regs.regEdx true e ∧ (k.envs e).envIpcRecving = true) ∨
  (regs.regEax = 13#32 ∧ ¬ (regs.regEdx < utop ∧ pgoff regs.regEdx ≠ 0) ∧
    ∃ cur c', c' ≠ c ∧ (k.cpus c).cpuEnv = some cur ∧ Executing k c' cur)

theorem recv_syscall (cgetc : Word) (regs : PushRegs) :
    Triple (fun k => RecvCur c k ∧ ¬ Unblocks k c regs)
      (syscall c cgetc regs.regEax regs.regEdx regs.regEcx regs.regEbx regs.regEdi regs.regEsi)
      (fun _ => RecvCur c) RecvRest := by
  have hno (n : ℕ) (hn : regs.regEax.toNat = n) (hb : n < 2^32) : regs.regEax = BitVec.ofNat 32 n := by
    rw [← hn, BitVec.ofNat_toNat, BitVec.setWidth_eq]
  unfold syscall
  split
  case h_1 =>
    have hcputs : Triple (RecvCur c) (sysCputs c regs.regEdx regs.regEcx) (fun _ => RecvCur c) RecvRest := by
      refine .bind triple_curenv fun cur => ?_
      exact .bind ((recv_userMemAssert cur _ _ _ (some cur)).post fun _ _ h => h.1) fun _ => keeps_print cur _ _
    exact .bind (hcputs.pre fun _ h => h.1) fun _ => .pure fun _ h => h
  case h_2 => exact .pure fun _ h => h.1
  case h_3 => exact .bind keeps_curenv fun _ => .bind (.gets_same _) fun _ => .pure fun _ h => h.1
  case h_4 => exact (recv_sysEnvDestroy _).pre fun _ h => h.1
  case h_5 => exact (keeps_sysPageAlloc memSteady_recvCur _ _ _).pre fun _ h => h.1
  case h_6 => exact (keeps_sysPageMap memSteady_recvCur _ _ _ _ _).pre fun _ h => h.1
  case h_7 => exact (keeps_sysPageUnmap memSteady_recvCur _ _).pre fun _ h => h.1
  case h_8 => exact recv_sysExofork.pre fun _ h => h.1
  case h_9 h =>
    refine (recv_sysEnvSetStatus _ _).pre fun k hk => ⟨hk.1, fun e hs hn => ?_⟩
    by_contra hr
    exact hk.2 (Or.inl ⟨hno 8 h (by decide), hs, e, hn, by simpa using hr⟩)
  case h_10 => exact (recv_sysEnvSetPgfaultUpcall _ _).pre fun _ h => h.1
  case h_11 =>
    exact .bind (recv_schedYield.pre fun _ h => h.1.inv) fun _ => .pure fun _ h => h.elim
  case h_12 => exact (recv_sysIpcTrySend _ _ _ _).pre fun _ h => h.1
  case h_13 h =>
    refine (recv_sysIpcRecv _).pre fun k hk => ⟨hk.1, fun hargs cur c' hcc hc hx => ?_⟩
    exact hk.2 (Or.inr ⟨hno 13 h (by decide), hargs, cur, c', hcc, hc, hx⟩)
  case h_14 => exact .pure fun _ h => h.1

theorem recv_pageFaultHandler (faultVa : Word) (tf : Trapframe) :
    Triple (RecvCur c) (pageFaultHandler c faultVa tf) (fun _ => RecvCur c) RecvRest := by
  refine .ite_same .halt (.bind triple_curenv fun cur => ?_)
  have hP : MemSteady fun k => RecvCur c k ∧ (k.cpus c).cpuEnv = some cur :=
    fun k t hk => ⟨memSteady_recvCur k t hk.1, hk.2⟩
  refine .bind (.gets_same _) fun upcall => .ite_same ?_ ?_
  · exact (recv_envDestroy cur (some cur)).post fun _ _ h => h.1
  · refine .bind (recv_userMemAssert cur _ _ _ _) fun _ => .bind (keeps_envPgdir cur) fun g => ?_
    refine .bind (triple_mem hP (stays_storeBytes _ _ _)) fun _ => ?_
    refine .bind (.modify (Q := fun _ k => RecvCur c k ∧ (k.cpus c).cpuEnv = some cur) fun k hk =>
      ⟨hk.1.setEnv_same rfl rfl, hk.2⟩) fun _ => ?_
    exact (recv_envRun cur).conseq (fun k hk => ⟨hk.1.inv, hk.1.cur cur hk.2⟩) (fun _ _ h => h.elim)
      fun _ h => h

theorem recv_trapDispatch (inp : TrapInput) :
    Triple (fun k => RecvCur c k ∧ (inp.tf.tfTrapno = 48#32 → ¬ Unblocks k c inp.tf.tfRegs))
      (trapDispatch c inp) (fun _ => RecvCur c) RecvRest := by
  unfold trapDispatch
  simp only
  split
  case h_1 => exact .halt
  case h_2 => exact (recv_pageFaultHandler _ _).pre fun _ h => h.1
  case h_3 h =>
    have hno : inp.tf.tfTrapno = 48#32 := by
      rw [← BitVec.setWidth_eq inp.tf.tfTrapno, ← BitVec.ofNat_toNat, h]
    refine .bind keeps_curenv fun cur => ?_
    refine .bind ((recv_syscall inp.cgetc inp.tf.tfRegs).pre fun k hk => ⟨hk.1, hk.2 hno⟩) fun r => ?_
    exact .modify fun k hk => hk.setEnv_same rfl rfl
  case h_4 => exact .pure fun _ h => h.1
  case h_5 => exact recv_schedYield.conseq (fun _ h => h.1.inv) (fun _ _ h => h.elim) fun _ h => h
  case h_6 =>
    refine .ite_same .halt (.bind (triple_curenv.pre fun _ h => h.1) fun cur => ?_)
    exact (recv_envDestroy cur (some cur)).post fun _ _ h => h.1

end Invariant

/-- A trap that is such a call, of an environment that is not a zombie. -/
def Event.Unblocks (k : Kern) : Event → Prop
  | .trap c inp => inp.tf.tfTrapno = 48#32 ∧ (inp.tf.tfCs &&& 3#16 = 3#16 → k.CallerLives c) ∧
      Sisop.Unblocks k c inp.tf.tfRegs
  | _ => False

/-- A step whose event does not unblock a receiver. -/
def BlockingStep (k k' : Kern) : Prop := ∃ ev, Step k ev k' ∧ ¬ ev.Unblocks k

section System

variable {k s k' : Kern} {c : ℕ} {cur : EnvIdx} {E : Kern → Prop}

/-- Outside the kernel a current environment executes, so it is not receiving. -/
theorem RecvRest.enter (hk : RecvRest k) (h : Entered c k s) : RecvCur c s := by
  have hrecv (i : EnvIdx) : (s.envs i).envIpcRecving = (k.envs i).envIpcRecving :=
    (h.call.env i).2.2.2.1
  have hstatus (i : EnvIdx) : s.status i = k.status i := (h.call.env i).1
  refine ⟨⟨fun i hi => ⟨?_, fun c' hx => ?_⟩, h.self, fun c' hc => ?_⟩, fun i hi => ?_⟩
  · rw [hstatus]
    rw [hrecv] at hi
    exact (hk.ok i hi).status
  · rw [hrecv] at hi
    exact (hk.ok i hi).idle c' (h.executing hx).2
  · rw [h.cpus c' hc]
    exact hk.idle c'
  · rw [hrecv]
    rw [h.call.cpuEnv] at hi
    by_contra hr
    have hblocked := hk.ok i (by simpa using hr)
    cases hu : (k.cpus c).user with
    | true => exact hblocked.idle c ⟨hu, hi⟩
    | false =>
      rw [hk.idle c hu] at hi
      cases hi

theorem Entered.unblocks {regs : PushRegs} (h : Entered c k s) (hu : Unblocks s c regs) :
    Unblocks k c regs := by
  rcases hu with ⟨h1, h2, e, h3, h4⟩ | ⟨h1, h2, cur, c', h3, h4, h5⟩
  · rw [(h.call.env e).2.2.2.1] at h4
    exact Or.inl ⟨h1, h2, e, h.call.names h3, h4⟩
  · rw [h.call.cpuEnv] at h4
    exact Or.inr ⟨h1, h2, cur, c', h3, h4, (h.executing h5).2⟩

theorem recv_reap : Triple (RecvCur c) (reap c cur) (fun _ _ => False) RecvRest := by
  refine .bind (Q := fun _ => RecvCur c) (.of_ret (stays_envFree cur) fun k _ k' hk h => ?_) fun _ => ?_
  · obtain ⟨g, s, t, -, -, -, rfl⟩ := envFree_ret h
    exact hk.freed cur t
  · exact .bind (.modify (Q := fun _ => RecvIn c) fun k hk => hk.inv.setCurenv none) fun _ =>
      recv_schedYield

/-- A trap that does not unblock a receiver keeps the invariant. -/
theorem recv_trap (hk : RecvRest k) (inp : TrapInput) (hun : ¬ Event.Unblocks k (.trap c inp)) :
    Triple (fun s => s = k) (trap c inp) (fun _ _ => False) RecvRest := by
  refine Entered.trap (Q := RecvCur c) (fun cur _ _ => recv_reap.pre fun s hs => hk.enter hs) ?_
    (fun e => ?_) (recv_schedYield.pre fun s hs => hs.inv)
  · refine (recv_trapDispatch inp).pre fun s hs => ⟨hk.enter hs.1, fun hno hu => ?_⟩
    exact hun ⟨hno, hs.2, hs.1.unblocks hu⟩
  · refine (recv_envRun e).pre fun s hs => ⟨hs.1.inv, ?_⟩
    exact hs.1.cur e (curRunning_some hs.2).1

theorem Step.recvRest {ev : Event} (h : Step k ev k') (hk : RecvRest k) (hun : ¬ ev.Unblocks k) :
    RecvRest k' := by
  cases h with
  | trap _ h => exact (recv_trap hk _ hun).left rfl h
  | start hu _ h =>
    exact (Entered.mpMain hu (recv_schedYield.pre fun s hs => (hk.enter hs).inv)).left rfl h
  | store hx hg h => exact ⟨fun i hi => ⟨(hk.ok i hi).status, (hk.ok i hi).idle⟩, hk.idle⟩

theorem recv_createEnvs (programs : List (Elf × EnvType)) :
    Triple (RecvCur c) (createEnvs programs) (fun _ => RecvCur c) E := by
  induction programs with
  | nil => exact .pure fun _ h => h
  | cons program programs ih =>
    refine .bind (.bind (Q := fun _ => RecvCur c) (.of_ret (stays_envAlloc 0#32)
      fun k r k' hk h => ?_) fun r => ?_) fun _ => ih
    · rcases envAlloc_ret h with ⟨err, rfl, rfl | ⟨t, -, rfl⟩⟩ | ⟨e, g, t, rfl, hf, -, rfl⟩
      · exact hk
      · exact memSteady_recvCur k t hk
      · exact (hk.alloced e 0#32 g t).1
    · cases r with
      | error _ => exact .halt
      | ok e =>
        refine .bind (keeps_envPgdir e) fun g => ?_
        refine .bind (triple_mem memSteady_recvCur (stays_loadSegments g program.1.segments)) fun _ => ?_
        exact .modify fun k hk => hk.setEnv_same rfl rfl

theorem Booted.recvRest (h : Booted k) : RecvRest k := by
  obtain ⟨m, s, c, programs, -, h⟩ := booted_iff.mp h
  have hk : RecvRest (envInit (afterMemInit s)) := by
    refine ⟨fun i hi => ?_, fun _ _ => rfl⟩
    cases hi
  have ht : Triple (fun k => k = afterMemInit s) (startFirst c programs) (fun _ _ => False) RecvRest := by
    refine .bind (.modify (Q := fun _ k => k = envInit (afterMemInit s)) fun k hk => by rw [hk])
      fun _ => ?_
    refine .bind (.modify (Q := fun _ => Entered c (envInit (afterMemInit s))) fun k hk => ?_) fun _ => ?_
    · rw [hk]
      exact Entered.setCpu (f := fun cpu => { cpu with cpuStatus := .started }) rfl rfl
    refine .bind Entered.lockKernel fun _ => .bind ((recv_createEnvs programs).pre fun s hs => hk.enter hs)
      fun _ => recv_schedYield.pre fun s hs => hs.inv
  exact ht.left rfl h

theorem recvRest_of_reachable (h : Reachable Booted BlockingStep k) : RecvRest k :=
  h.invariant (fun _ => Booted.recvRest) fun _ _ hk ⟨_, hs, hev⟩ => hs.recvRest hk hev

/-- A successful `sys_ipc_try_send` changes one environment, which was receiving. -/
theorem sysIpcTrySend_envs {envid value srcva perm v : Word}
    (hr : sysIpcTrySend c envid value srcva perm k = .ret (.ok v) k') :
    ∃ dst, Names k c envid false dst ∧ (k.envs dst).envIpcRecving = true ∧
      ∀ e, e ≠ dst → k'.envs e = k.envs e := by
  obtain ⟨o, t, he, h₁⟩ := Routine.bind_eq_ret.mp hr
  cases o with
  | error err =>
    obtain ⟨rfl, -⟩ := envid2env_ret he
    cases (Outcome.ret.inj h₁).1
  | ok dst =>
    obtain ⟨rfl, hn⟩ := names_of_ret he
    cases hrecv : (t.envs dst).envIpcRecving with
    | false =>
      simp only [Routine.gets_bind_run, hrecv, Bool.false_eq_true, if_false, Routine.pure_run] at h₁
      cases (Outcome.ret.inj h₁).1
    | true =>
      refine ⟨dst, hn, hrecv, fun e hne => ?_⟩
      rw [sysIpcTrySend_run he hrecv] at hr
      obtain ⟨o, k₂, hsend, h₂⟩ := Routine.bind_eq_ret.mp hr
      have hkeep : Triple (fun s => s.envs e = t.envs e) (ipcSendPage c dst srcva perm)
          (fun _ s => s.envs e = t.envs e) (fun _ => True) :=
        keeps_ipcSendPage (fun _ _ h => h) dst srcva perm
      have henv : k₂.envs e = t.envs e := by
        apply hkeep.ret _ hsend
        rw [Kern.clearIpcPerm, setEnv_envs, if_neg hne]
      cases o with
      | error err => cases (Outcome.ret.inj h₂).1
      | ok ipcPerm =>
        obtain ⟨cur, t', hc, h₃⟩ := Routine.bind_eq_ret.mp h₂
        obtain ⟨-, rfl⟩ := curenv_eq_ret.mp hc
        obtain ⟨-, rfl⟩ := Outcome.ret.inj h₃
        rw [setEnv_envs, if_neg hne]
        exact henv

theorem entered_atSyscall (hc : (k.cpus c).cpuEnv = some cur) (tf : Trapframe) :
    Entered c k (k.atSyscall c cur tf) := by
  have h : Entered c k (k.setCpu c CpuInfo.trapped) := Entered.setCpu rfl rfl
  exact Entered.saved (s := k.entered c CpuInfo.trapped) ⟨h.call.lock _, h.self, h.cpus, h.envs⟩ hc tf

theorem FamilyStep.blocking (hk : FamilyStep k k') : BlockingStep k k' := by
  obtain ⟨ev, hs, -, hno⟩ := hk
  refine ⟨ev, hs, fun hl => ?_⟩
  cases ev with
  | trap c inp =>
    obtain ⟨-, -, ⟨h8, -, e, hn, he⟩ | ⟨h13, -⟩⟩ := hl
    · rcases hno c inp rfl with h | ⟨-, h⟩
      · exact absurd (h.symm.trans h8) (by decide)
      · rw [h e hn] at he
        cases he
    · rcases hno c inp rfl with h | ⟨h, -⟩ <;> exact absurd (h.symm.trans h13) (by decide)
  | start c => exact hl
  | store c va b => exact hl

end System
end Sisop
