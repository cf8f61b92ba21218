import Sisop.AddressSpace
import Sisop.CpuInvariant

/-! Every routine of the kernel keeps the CPU invariant, but for three system
calls that a caller may aim at an environment executing on another CPU. -/
namespace Sisop

open Routine (Triple Stays)

/-- A property that memory, registers, handlers and message fields do not matter to. -/
def Steady (P : Kern → Prop) : Prop := ∀ k k', SameLife k k' → P k → P k'

/-- A property that memory does not matter to. -/
def MemSteady (P : Kern → Prop) : Prop := ∀ k t, P k → P { k with mem := t }

/-- An environment that the CPU in the kernel may take up or reclaim. -/
def Idle (k : Kern) (e : EnvIdx) : Prop := k.status e ≠ .free ∧ ∀ c', ¬ Executing k c' e

section Steps

variable {k₀ : Kern} {c : ℕ} {e : EnvIdx} {α : Type} {P Q E : Kern → Prop}

theorem Steady.and (hP : Steady P) (hQ : Steady Q) : Steady fun k => P k ∧ Q k :=
  fun k k' h hk => ⟨hP k k' h hk.1, hQ k k' h hk.2⟩

theorem steady_inKernel : Steady (InKernel k₀ c) := fun _ _ h hk => hk.congr h

theorem steady_cpuEnv (x : Option EnvIdx) : Steady fun k => (k.cpus c).cpuEnv = x :=
  fun _ _ h hk => (congrArg (fun f => (f c).cpuEnv) h.cpus).trans hk

theorem steady_idle (e : EnvIdx) : Steady fun k => Idle k e := fun k k' h hk => by
  refine ⟨?_, fun c' hx => hk.2 c' ((h.executing c' e).mp hx)⟩
  rw [h.status]
  exact hk.1

theorem Steady.mem (hP : Steady P) : MemSteady P := fun k t => hP k _ (SameLife.setMem k t)

theorem triple_mem {m : Routine Pm α} (hP : MemSteady P) (hm : Stays m) :
    Triple P (mem m) (fun _ => P) E :=
  Triple.of_ret (Stays.zoom hm) fun k _ k' hk h => by
    obtain ⟨t, -, rfl⟩ := mem_eq_ret.mp h
    exact hP k t hk

theorem stays_curenv (c : ℕ) : Stays (curenv c) := by
  intro k k' h
  unfold curenv at h
  split at h <;> cases h

theorem stays_envPgdir (e : EnvIdx) : Stays (envPgdir e) := by
  intro k k' h
  unfold envPgdir at h
  split at h <;> cases h

theorem stays_envid2env (c : ℕ) (envid : Word) (checkperm : Bool) :
    Stays (envid2env c envid checkperm) := by
  refine .ite (.bind (stays_curenv c) fun _ => .pure _) (.bind (.gets _) fun env => .ite (.pure _) ?_)
  refine .ite (.bind (stays_curenv c) fun cur => .bind (.gets _) fun _ => ?_) (.pure _)
  exact .ite (.pure _) (.pure _)

theorem keeps_curenv : Triple P (curenv c) (fun _ => P) E :=
  Triple.of_ret (stays_curenv c) fun k _ k' hk h => by
    obtain ⟨-, rfl⟩ := curenv_eq_ret.mp h
    exact hk

theorem triple_curenv : Triple P (curenv c) (fun e k => P k ∧ (k.cpus c).cpuEnv = some e) E :=
  Triple.of_ret (stays_curenv c) fun k _ k' hk h => by
    obtain ⟨he, rfl⟩ := curenv_eq_ret.mp h
    exact ⟨hk, he⟩

theorem triple_envPgdir (e : EnvIdx) :
    Triple P (envPgdir e) (fun g k => P k ∧ k.dirs e = some g) E :=
  Triple.of_ret (stays_envPgdir e) fun k _ k' hk h => by
    obtain ⟨hg, rfl⟩ := envPgdir_eq_ret.mp h
    exact ⟨hk, hg⟩

/-- An environment that `envid2env` finds, with or without a permission check. -/
def Names (k : Kern) (c : ℕ) (envid : Word) (checkperm : Bool) (e : EnvIdx) : Prop :=
  envid = 0#32 ∧ (k.cpus c).cpuEnv = some e ∨
    envid ≠ 0#32 ∧ e = envx envid ∧ k.status e ≠ .free ∧ (k.envs e).envId = envid ∧
      (checkperm = true → ∃ cur, (k.cpus c).cpuEnv = some cur ∧
        (e = cur ∨ (k.envs e).envParentId = (k.envs cur).envId))

theorem names_of_ret {k k' : Kern} {envid : Word} {checkperm : Bool} {e : EnvIdx}
    (h : envid2env c envid checkperm k = .ret (.ok e) k') : k' = k ∧ Names k c envid checkperm e := by
  obtain ⟨rfl, ⟨e', he, hn⟩ | he⟩ := envid2env_ret h
  swap
  · cases he
  obtain rfl := Except.ok.inj he
  refine ⟨rfl, hn.imp id fun ⟨h0, hx, hs, hid⟩ => ⟨h0, hx, hs, hid, ?_⟩⟩
  rintro rfl
  have hb : ¬ ((k'.envs (envx envid)).envStatus = .free ∨ (k'.envs (envx envid)).envId ≠ envid) := by
    rintro (hb | hb)
    · exact hs (hx ▸ hb)
    · exact hb (hx ▸ hid)
  simp only [envid2env, if_neg h0, Routine.gets_bind_run, if_neg hb, if_true] at h
  obtain ⟨cur, t, hc, h₁⟩ := Routine.bind_eq_ret.mp h
  obtain ⟨hcur, rfl⟩ := curenv_eq_ret.mp hc
  refine ⟨cur, hcur, ?_⟩
  simp only [Routine.gets_bind_run, Routine.ite_run, Routine.pure_run] at h₁
  split_ifs at h₁ with hp
  · cases (Outcome.ret.inj h₁).1
  · rw [hx]
    by_contra hn
    obtain ⟨h1, h2⟩ := not_or.mp hn
    exact hp ⟨h1, h2⟩

theorem triple_envid2env (envid : Word) (checkperm : Bool) :
    Triple P (envid2env c envid checkperm)
      (fun r k => P k ∧ ∀ e, r = .ok e → Names k c envid checkperm e) E :=
  Triple.of_ret (stays_envid2env c envid checkperm) fun k r k' hk h => by
    cases r with
    | error err =>
      obtain ⟨rfl, -⟩ := envid2env_ret h
      exact ⟨hk, fun _ he => by cases he⟩
    | ok e =>
      obtain ⟨rfl, hn⟩ := names_of_ret h
      refine ⟨hk, fun e' he => ?_⟩
      rw [← Except.ok.inj he]
      exact hn

theorem Names.alive {k : Kern} {envid : Word} {checkperm : Bool} {e : EnvIdx} (hk : InKernel k₀ c k)
    (h : Names k c envid checkperm e) : k.status e ≠ .free := by
  rcases h with ⟨-, hc⟩ | ⟨-, -, hs, -⟩
  · exact (hk.cur e hc).1
  · exact hs

/-- `env_run` leaves the kernel with the environment as the current one. -/
theorem triple_envRun (e : EnvIdx) : Triple (fun k => InKernel k₀ c k ∧ Idle k e) (envRun c e)
    (fun _ _ => False) (Leaves k₀ c) := by
  refine Triple.intro fun k ⟨hk, hi⟩ => ?_
  -- the current environment, if it was running, is runnable again
  obtain ⟨k₁, hk₁, hi₁, hrun⟩ : ∃ k₁, InKernel k₀ c k₁ ∧ Idle k₁ e ∧ envRun c e k = (do
        Routine.modify fun k => k.setCurenv c (some e)
        Routine.modify fun k => k.setEnv e fun env =>
          { env with envStatus := .running, envRuns := env.envRuns + 1#32 }
        let _ ← envPgdir e
        envRun.unlockKernel c
        Routine.leave fun k => (k.setEnv e fun env => { env with envCpunum := c }).setCpu c fun cpu =>
          { cpu with user := true } : Routine Kern Unit) k₁ := by
    cases hc : (k.cpus c).cpuEnv with
    | none =>
      refine ⟨k, hk, hi, ?_⟩
      simp only [envRun, Routine.gets_bind_run, hc]
    | some cur =>
      by_cases hr : k.status cur = .running
      · refine ⟨k.setStatus cur .runnable, ?_, ⟨?_, hi.2⟩, ?_⟩
        · exact hk.changeStatus (hk.cur cur hc).1 (by decide) fun _ => (hk.cur cur hc).2
        · rw [setStatus_status]
          split_ifs
          · decide
          · exact hi.1
        · simp only [envRun, Routine.gets_bind_run, hc, Routine.modify_bind_run, hr, if_true]
      · refine ⟨k, hk, hi, ?_⟩
        simp only [envRun, Routine.gets_bind_run, hc, Routine.modify_bind_run, if_neg hr]
  rw [hrun]
  simp only [Routine.modify_bind_run]
  have hk₂ := hk₁.setCurenv (some e) fun i hie => Option.some.inj hie ▸ hi₁
  have hcur₂ : ((k₁.setCurenv c (some e)).cpus c).cpuEnv = some e := by
    rw [Kern.setCurenv, setCpu_cpus, if_pos rfl]
  obtain ⟨k₃, hk₃⟩ : ∃ k₃, k₃ = (k₁.setCurenv c (some e)).setEnv e fun env =>
    { env with envStatus := .running, envRuns := env.envRuns + 1#32 } := ⟨_, rfl⟩
  have hin : InKernel k₀ c k₃ := by
    rw [hk₃]
    refine hk₂.setStatus (hk₂.cur e hcur₂).1 (by decide : EnvStatus.running ≠ .free) ?_ rfl rfl rfl
    exact fun h => absurd h (by decide)
  have hcur₃ : (k₃.cpus c).cpuEnv = some e := by
    rw [hk₃]
    exact hcur₂
  have hs₃ : k₃.status e = .running := by
    rw [hk₃, setEnv_status, if_pos rfl]
  rw [← hk₃]
  rcases Option.eq_none_or_eq_some (k₃.dirs e) with hd | ⟨g, hd⟩
  · have hp : envPgdir e k₃ = .halt := by
      rw [Kern.dirs] at hd
      simp only [envPgdir, hd]
    rw [Routine.bind_halt hp]
    trivial
  · have hu : envRun.unlockKernel c k₃ = .ret () { k₃ with kernelLock := none } := if_pos hin.lock
    rw [Routine.bind_ret (envPgdir_run hd), Routine.bind_ret hu, Routine.leave_run]
    exact hin.resume hcur₃ hs₃ (by simp [hd])

/-- `sched_halt` leaves the kernel without an environment. -/
theorem triple_schedHalt : Triple (InKernel k₀ c) (schedHalt c) (fun _ _ => False) (Leaves k₀ c) := by
  refine .bind (Q := fun _ => InKernel k₀ c) (.gets fun k hk => hk) fun awake => ?_
  cases awake with
  | false => exact .halt
  | true =>
    refine Triple.intro fun k hk => ?_
    have hl : ((k.setCurenv c none).setCpu c fun cpu =>
      { cpu with cpuStatus := .halted }).kernelLock = some c := hk.lock
    rw [if_pos rfl, Routine.modify_bind_run, Routine.modify_bind_run,
      Routine.bind_ret (show envRun.unlockKernel c _ = .ret () _ from if_pos hl), Routine.leave_run]
    have hg := hk.halted (g := fun _ => ⟨.halted, none, false⟩) rfl
    have hself := hk.self
    convert hg using 1
    simp [Kern.setCpu, Kern.setCurenv]

theorem nextRunnable_status {k : Kern} {start : ℕ} {e : EnvIdx} (h : k.nextRunnable start = some e) :
    k.status e = .runnable := by
  have hf := List.find?_some h
  simpa using hf

/-- `sched_yield` runs an environment that nobody executes, or halts. -/
theorem triple_schedYield : Triple (InKernel k₀ c) (schedYield c) (fun _ _ => False) (Leaves k₀ c) := by
  refine .bind (Q := fun r k => InKernel k₀ c k ∧ ∀ e, r = some e → Idle k e) (.gets fun k hk => ?_)
    fun idle => ?_
  · refine ⟨hk, fun e he => ?_⟩
    have hs := nextRunnable_status he
    exact ⟨by rw [hs]; decide, fun c' hx => hk.exec.notRunnable c' e hx hs⟩
  cases idle with
  | some e => exact (triple_envRun e).pre fun k hk => ⟨hk.1, hk.2 e rfl⟩
  | none =>
    refine .bind (Q := fun r k => InKernel k₀ c k ∧ ∀ e, r = some e → Idle k e) (.gets fun k hk => ?_)
      fun cur => ?_
    · exact ⟨hk.1, fun e he => hk.1.cur e (curRunning_some he).1⟩
    cases cur with
    | some e => exact (triple_envRun e).pre fun k hk => ⟨hk.1, hk.2 e rfl⟩
    | none => exact triple_schedHalt.pre fun k hk => hk.1

/-- After `env_free` of the current environment the CPU forgets it. -/
theorem InKernel.freeCurrent {k k' : Kern} (hk : InKernel k₀ c k) (hc : (k.cpus c).cpuEnv = some e)
    (h : envFree e k = .ret () k') : InKernel k₀ c (k'.setCurenv c none) := by
  obtain ⟨g, s, t, -, -, -, rfl⟩ := envFree_ret h
  have hk' := hk.setCurenv none fun i hi => by cases hi
  have hcur : ((k.setCurenv c none).cpus c).cpuEnv = none := by
    rw [Kern.setCurenv, setCpu_cpus, if_pos rfl]
  exact hk'.freed (e := e) (hk.cur e hc).1
    (fun c' hx => (hk.cur e hc).2 c' (by
      by_cases hcc : c' = c
      · have h1 := hx.2
        rw [hcc, hcur] at h1
        cases h1
      · rwa [Executing, Kern.setCurenv, setCpu_cpus, if_neg hcc] at hx))
    (by rw [hcur]; simp) t

theorem stays_freeTable (g d : ℕ) : Stays (freeTable g d) := by
  refine .bind (.gets _) fun pde => .ite (.bind (stays_kaddr _) fun pt => ?_) (.pure _)
  refine .bind (.loop (fun i => .bind (.gets _) fun pte => .ite (stays_pageRemove _ _) (.pure _)) _)
    fun _ => ?_
  exact .bind (.modify _) fun _ => .bind (stays_pa2page _) fun _ => stays_pageDecref _

theorem stays_envFree (e : EnvIdx) : Stays (envFree e) := by
  refine .bind (stays_envPgdir e) fun g => .bind (.zoom (.loop (stays_freeTable g) _)) fun _ => ?_
  refine .bind (.modify _) fun _ => .bind (.zoom (stays_pageDecref g)) fun _ => ?_
  exact .bind (.modify _) fun _ => .bind (.modify _) fun _ => .modify _

/-- `env_destroy` of an environment that is running, if it executes at all. It
returns when that is not the current one. -/
theorem triple_envDestroy (e : EnvIdx) (x : Option EnvIdx) :
    Triple (fun k => InKernel k₀ c k ∧ (k.cpus c).cpuEnv = x ∧ k.status e ≠ .free ∧
        ∀ c', Executing k c' e → k.status e = .running) (envDestroy c e)
      (fun _ k => InKernel k₀ c k ∧ (k.cpus c).cpuEnv = x ∧ x ≠ some e) (Leaves k₀ c) := by
  refine .bind (Q := fun r k => InKernel k₀ c k ∧ (k.cpus c).cpuEnv = x ∧ k.status e ≠ .free ∧
      (r = true → x ≠ some e) ∧ (r = false → ∀ c', ¬ Executing k c' e)) (.gets fun k hk => ?_)
    fun elsewhere => ?_
  · obtain ⟨hk, hc, hs, hx⟩ := hk
    refine ⟨hk, hc, hs, fun hr => ?_, fun hr c' he => ?_⟩
    · rw [← hc]
      exact (of_decide_eq_true hr).2
    · have hrun : ¬ (k.status e = .running ∧ (k.cpus c).cpuEnv ≠ some e) := of_decide_eq_false hr
      exact (hk.cur e (not_not.mp fun h => hrun ⟨hx c' he, h⟩)).2 c' he
  cases elsewhere with
  | true =>
    refine .modify fun k hk => ?_
    obtain ⟨hk, hc, hs, hr, -⟩ := hk
    exact ⟨hk.changeStatus hs (by decide) fun h => absurd h (by decide), hc, hr rfl⟩
  | false =>
    refine .bind (Q := fun _ k => (k.cpus c).cpuEnv = x ∧ (x = some e → InKernel k₀ c
      (k.setCurenv c none)) ∧ (x ≠ some e → InKernel k₀ c k))
      (Triple.of_ret (stays_envFree e) fun k _ k' hk h => ?_) fun _ => ?_
    · obtain ⟨hk, hc, hs, -, hr⟩ := hk
      refine ⟨?_, fun hxe => hk.freeCurrent (hc.trans hxe) h, fun hxe => ?_⟩
      · obtain ⟨g, s, t, -, -, -, rfl⟩ := envFree_ret h
        exact hc
      · obtain ⟨g, s, t, -, -, -, rfl⟩ := envFree_ret h
        exact hk.freed hs (hr rfl) (hc.trans_ne hxe) t
    refine .bind (Q := fun r k => (k.cpus c).cpuEnv = x ∧ (r = true → InKernel k₀ c
      (k.setCurenv c none)) ∧ (r = false → InKernel k₀ c k ∧ x ≠ some e)) (.gets fun k hk => ?_)
      fun current => ?_
    · obtain ⟨hc, h1, h2⟩ := hk
      refine ⟨hc, fun hr => h1 (hc ▸ of_decide_eq_true hr), fun hr => ?_⟩
      have hxe : x ≠ some e := hc ▸ of_decide_eq_false hr
      exact ⟨h2 hxe, hxe⟩
    cases current with
    | true =>
      refine .bind (.modify (Q := fun _ => InKernel k₀ c) fun k hk => hk.2.1 rfl) fun _ => ?_
      exact triple_schedYield.post fun _ _ h => h.elim
    | false => exact .pure fun k hk => ⟨(hk.2.2 rfl).1, hk.1, (hk.2.2 rfl).2⟩

theorem stays_userMemCheckFrom (g : ℕ) (va perm : Word) (n : ℕ) (address : Word) :
    Stays (userMemCheckFrom g va perm n address) := by
  induction n generalizing address with
  | zero => exact .pure _
  | succ n ih =>
    refine .ite (.pure _) (.bind (stays_pgdirWalk _ _ _) fun r => ?_)
    cases r with
    | none => exact .pure _
    | some pte => exact .bind (.gets _) fun w => .ite (ih _) (.pure _)

theorem stays_storeBytes (g : ℕ) (va : Word) (bs : List (BitVec 8)) : Stays (storeBytes g va bs) := by
  induction bs generalizing va with
  | nil => exact .pure _
  | cons b bs ih =>
    refine .bind (fun s s' h => ?_) fun _ => ih _
    simp only [storeByte] at h
    split at h <;> cases h

/-- `user_mem_assert` of the current environment returns only if the check succeeds. -/
theorem triple_userMemAssert (e : EnvIdx) (va len perm : Word) :
    Triple (fun k => InKernel k₀ c k ∧ (k.cpus c).cpuEnv = some e) (userMemAssert c e va len perm)
      (fun _ k => InKernel k₀ c k ∧ (k.cpus c).cpuEnv = some e) (Leaves k₀ c) := by
  have hP : Steady fun k => InKernel k₀ c k ∧ (k.cpus c).cpuEnv = some e :=
    steady_inKernel.and (steady_cpuEnv _)
  refine .bind ((triple_envPgdir e).post fun _ _ h => h.1) fun g => ?_
  refine .bind (triple_mem hP.mem (stays_userMemCheckFrom _ _ _ _ _)) fun r => ?_
  cases r with
  | ok _ => exact .pure fun _ h => h
  | error _ =>
    refine (triple_envDestroy e (some e)).conseq (fun k hk => ⟨hk.1, hk.2, ?_⟩)
      (fun _ _ h => absurd rfl h.2.2) fun _ h => h
    exact ⟨(hk.1.cur e hk.2).1, fun c' hx => absurd hx ((hk.1.cur e hk.2).2 c')⟩

theorem cprintfLoads_ret {g : ℕ} {len va : Word} {s s' : Pm} (h : cprintfLoads g len va s = .ret () s') : s' = s := by
  unfold cprintfLoads at h
  split_ifs at h
  exact (Outcome.ret.inj h).2.symm

theorem stays_cprintfLoads (g : ℕ) (len va : Word) : Stays (cprintfLoads g len va) := by
  intro s s' h
  unfold cprintfLoads at h
  split_ifs at h

/-- The string is printed out of the page directory of the environment. -/
theorem keeps_print (e : EnvIdx) (len va : Word) :
    Triple P (envPgdir e >>= fun g => mem (cprintfLoads g len va)) (fun _ => P) E := by
  refine .bind ((triple_envPgdir e).post fun _ _ h => h.1) fun g => ?_
  refine .of_ret (Stays.zoom (stays_cprintfLoads g len va)) fun k _ k' hk h => ?_
  obtain ⟨t, ht, rfl⟩ := mem_eq_ret.mp h
  rw [cprintfLoads_ret ht]
  exact hk

theorem triple_sysCputs (s len : Word) :
    Triple (InKernel k₀ c) (sysCputs c s len) (fun _ => InKernel k₀ c) (Leaves k₀ c) :=
  .bind triple_curenv fun e => .bind ((triple_userMemAssert e s len pteU).post fun _ _ h => h.1) fun _ => keeps_print e len s

theorem keeps_envid2env (envid : Word) (checkperm : Bool) :
    Triple P (envid2env c envid checkperm) (fun _ => P) E :=
  (triple_envid2env envid checkperm).post fun _ _ h => h.1

theorem keeps_envPgdir (e : EnvIdx) : Triple P (envPgdir e) (fun _ => P) E :=
  (triple_envPgdir e).post fun _ _ h => h.1

theorem keeps_sysPageAlloc (hP : MemSteady P) (envid va perm : Word) :
    Triple P (sysPageAlloc c envid va perm) (fun _ => P) E := by
  refine .bind (keeps_envid2env envid true) fun r => ?_
  cases r with
  | error _ => exact .pure fun _ h => h
  | ok e =>
    refine .ite_same (.bind (triple_mem hP stays_pageAlloc) fun page => ?_) (.pure fun _ h => h)
    cases page with
    | none => exact .pure fun _ h => h
    | some page =>
      refine .bind (keeps_envPgdir e) fun g => .bind (triple_mem hP (stays_pageInsert _ _ _ _)) ?_
      intro r
      cases r with
      | error _ => exact .bind (triple_mem hP (stays_pageFree page)) fun _ => .pure fun _ h => h
      | ok _ => exact .pure fun _ h => h

theorem keeps_sysPageMap (hP : MemSteady P) (srcenvid srcva dstenvid dstva perm : Word) :
    Triple P (sysPageMap c srcenvid srcva dstenvid dstva perm) (fun _ => P) E := by
  refine .bind (keeps_envid2env srcenvid true) fun r => ?_
  cases r with
  | error _ => exact .pure fun _ h => h
  | ok srcenv =>
    refine .bind (keeps_envid2env dstenvid true) fun r => ?_
    cases r with
    | error _ => exact .pure fun _ h => h
    | ok dstenv =>
      refine .ite_same (.bind (keeps_envPgdir srcenv) fun gsrc => ?_) (.pure fun _ h => h)
      refine .bind (triple_mem hP (stays_pageLookup _ _)) fun r => ?_
      rcases r with _ | ⟨page, pte⟩
      · exact .pure fun _ h => h
      · refine .bind (.gets_same _) fun w => .ite_same (.pure fun _ h => h) ?_
        refine .bind (keeps_envPgdir dstenv) fun gdst => ?_
        refine .bind (triple_mem hP (stays_pageInsert _ _ _ _)) fun r => ?_
        cases r <;> exact .pure fun _ h => h

theorem keeps_sysPageUnmap (hP : MemSteady P) (envid va : Word) :
    Triple P (sysPageUnmap c envid va) (fun _ => P) E := by
  refine .bind (keeps_envid2env envid true) fun r => ?_
  cases r with
  | error _ => exact .pure fun _ h => h
  | ok e =>
    refine .ite_same (.bind (keeps_envPgdir e) fun g => ?_) (.pure fun _ h => h)
    exact .bind (triple_mem hP (stays_pageRemove _ _)) fun _ => .pure fun _ h => h

theorem keeps_ipcSendPage (hP : MemSteady P) (e : EnvIdx) (srcva perm : Word) :
    Triple P (ipcSendPage c e srcva perm) (fun _ => P) E := by
  refine .ite_same (.ite_same (.bind keeps_curenv fun cur => ?_) (.pure fun _ h => h))
    (.pure fun _ h => h)
  refine .bind (keeps_envPgdir cur) fun gsrc => ?_
  refine .bind (triple_mem hP (stays_pageLookup _ _)) fun r => ?_
  rcases r with _ | ⟨page, pte⟩
  · exact .pure fun _ h => h
  · refine .bind (.gets_same _) fun w => .ite_same (.pure fun _ h => h) ?_
    refine .bind (.gets_same _) fun dstva => .ite_same ?_ (.pure fun _ h => h)
    refine .bind (keeps_envPgdir e) fun gdst => ?_
    refine .bind (triple_mem hP (stays_pageInsert _ _ _ _)) fun r => ?_
    cases r <;> exact .pure fun _ h => h

theorem stays_envAlloc (parentId : Word) : Stays (envAlloc parentId) := by
  refine .bind (.gets _) fun r => ?_
  cases r with
  | none => exact .pure _
  | some e =>
    refine .bind (.bind (.zoom (.bind stays_pageAlloc fun r => ?_)) fun d => ?_) fun r => ?_
    · cases r with
      | none => exact .pure _
      | some p =>
        exact .bind (.modify _) fun _ => .bind (stays_kaddr _) fun _ => .bind (.modify _) fun _ =>
          .bind (.modify _) fun _ => .pure _
    · cases d with
      | none => exact .pure _
      | some g => exact .bind (.modify _) fun _ => .pure _
    · cases r with
      | error _ => exact .pure _
      | ok _ => exact .bind (.modify _) fun _ => .bind (.modify _) fun _ => .pure _

/-- `env_alloc` succeeds with a live environment that nobody executes. -/
theorem triple_envAlloc (parentId : Word) : Triple (InKernel k₀ c) (envAlloc parentId)
    (fun r k => InKernel k₀ c k ∧ ∀ e, r = .ok e → Idle k e) E := by
  refine .of_ret (stays_envAlloc parentId) fun k r k' hk h => ?_
  rcases envAlloc_ret h with ⟨err, rfl, rfl | ⟨t, -, rfl⟩⟩ | ⟨e, g, t, rfl, hf, -, rfl⟩
  · exact ⟨hk, fun _ he => by cases he⟩
  · exact ⟨hk.congr (SameLife.setMem k t), fun _ he => by cases he⟩
  · obtain ⟨hk', hfree⟩ := hk.alloced hf parentId g t
    refine ⟨hk', fun i hi => ?_⟩
    obtain rfl := Except.ok.inj hi
    refine ⟨?_, fun c' hx => hk.exec.notFree c' e hx hfree⟩
    rw [alloced_status, if_pos rfl]
    decide

theorem triple_sysExofork :
    Triple (InKernel k₀ c) (sysExofork c) (fun _ => InKernel k₀ c) (Leaves k₀ c) := by
  refine .bind keeps_curenv fun cur => .bind (.gets_same _) fun curId => ?_
  refine .bind (triple_envAlloc curId) fun r => ?_
  cases r with
  | error _ => exact .pure fun _ h => h.1
  | ok e =>
    refine .bind (.modify (Q := fun _ => InKernel k₀ c) fun k hk => ?_) fun _ => ?_
    · exact hk.1.changeStatus (hk.2 e rfl).1 (by decide) fun h => absurd h (by decide)
    · refine .bind (.modify (Q := fun _ => InKernel k₀ c) fun k hk => ?_) fun _ =>
        .bind (.gets_same _) fun id => .pure fun _ h => h
      exact hk.congr (SameLife.setEnv k e rfl rfl rfl rfl)

theorem triple_sysEnvDestroy (envid : Word) :
    Triple (fun k => InKernel k₀ c k ∧ ∀ e, Names k c envid true e → ∀ c', Executing k c' e →
      k.status e = .running) (sysEnvDestroy c envid) (fun _ => InKernel k₀ c) (Leaves k₀ c) := by
  refine .bind (triple_envid2env envid true) fun r => ?_
  cases r with
  | error _ => exact .pure fun _ h => h.1.1
  | ok e =>
    refine .bind (Q := fun _ => InKernel k₀ c) ?_ fun _ => .pure fun _ h => h
    have hd := Triple.exists_pre fun x =>
      (triple_envDestroy e x).post (Q := fun _ => InKernel k₀ c) fun _ _ h => h.1
    refine hd.pre fun k hk => ⟨_, hk.1.1, rfl, (hk.2 e rfl).alive hk.1.1, ?_⟩
    exact hk.1.2 e (hk.2 e rfl)

theorem settableStatus_cases {status : Word} {st : EnvStatus} (h : settableStatus status = some st) :
    st = .runnable ∨ st = .notRunnable := by
  unfold settableStatus at h
  split_ifs at h
  · exact Or.inl (Option.some.inj h).symm
  · exact Or.inr (Option.some.inj h).symm

theorem settableStatus_ne_free {status : Word} {st : EnvStatus} (h : settableStatus status = some st) :
    st ≠ .free := by
  rcases settableStatus_cases h with rfl | rfl <;> decide

theorem triple_sysEnvSetStatus (envid status : Word) :
    Triple (fun k => InKernel k₀ c k ∧ (settableStatus status = some .runnable →
      ∀ e, Names k c envid true e → ∀ c', ¬ Executing k c' e)) (sysEnvSetStatus c envid status)
      (fun _ => InKernel k₀ c) (Leaves k₀ c) := by
  unfold sysEnvSetStatus
  rcases Option.eq_none_or_eq_some (settableStatus status) with hs | ⟨st, hs⟩
  · rw [hs]
    exact .pure fun _ h => h.1
  · rw [hs]
    refine .bind (triple_envid2env envid true) fun r => ?_
    cases r with
    | error _ => exact .pure fun _ h => h.1.1
    | ok e =>
      refine .bind (.modify (Q := fun _ => InKernel k₀ c) fun k hk => ?_) fun _ => .pure fun _ h => h
      obtain ⟨⟨hk, hr⟩, hn⟩ := hk
      refine hk.changeStatus ((hn e rfl).alive hk) (settableStatus_ne_free hs) fun hst => ?_
      exact hr (by rw [hst]) e (hn e rfl)

theorem triple_sysEnvSetPgfaultUpcall (hP : Steady P) (envid func : Word) :
    Triple P (sysEnvSetPgfaultUpcall c envid func) (fun _ => P) E := by
  refine .bind (keeps_envid2env envid true) fun r => ?_
  cases r with
  | error _ => exact .pure fun _ h => h
  | ok e =>
    refine .bind (.modify (Q := fun _ => P) fun k hk => ?_) fun _ => .pure fun _ h => h
    exact hP k _ (SameLife.setEnv k e rfl rfl rfl rfl) hk

/-- The page arguments of `sys_ipc_try_send` are not refused at sight. -/
def SendArgs (srcva perm : Word) : Prop := srcva < utop → pgoff srcva = 0 ∧ CheckPerm perm

theorem ipcSendPage_refused {srcva perm : Word} (h : ¬ SendArgs srcva perm) (k : Kern) :
    ipcSendPage c e srcva perm k = .ret (.error .inval) k := by
  obtain ⟨h1, h2⟩ := Classical.not_imp.mp h
  unfold ipcSendPage
  rw [if_pos h1, if_neg h2]
  rfl

/-- A message makes its receiver runnable, so the receiver must not execute. -/
theorem triple_sysIpcTrySend (envid value srcva perm : Word) :
    Triple (fun k => InKernel k₀ c k ∧ ∀ e, Names k c envid false e →
      (k.envs e).envIpcRecving = true → SendArgs srcva perm → ∀ c', ¬ Executing k c' e)
      (sysIpcTrySend c envid value srcva perm) (fun _ => InKernel k₀ c) (Leaves k₀ c) := by
  refine .bind (triple_envid2env envid false) fun r => ?_
  cases r with
  | error _ => exact .pure fun _ h => h.1.1
  | ok e =>
    refine .bind (Q := fun r k => InKernel k₀ c k ∧ (r = true → SendArgs srcva perm → Idle k e))
      (.gets fun k hk => ?_) fun recving => ?_
    · obtain ⟨⟨hk, hx⟩, hn⟩ := hk
      exact ⟨hk, fun hr ha => ⟨(hn e rfl).alive hk, hx e (hn e rfl) hr ha⟩⟩
    cases recving with
    | false => exact .pure fun _ h => h.1
    | true =>
      have hclear (k : Kern) : SameLife k (k.clearIpcPerm e) := SameLife.setEnv k e rfl rfl rfl rfl
      by_cases ha : SendArgs srcva perm
      · have hP : Steady fun k => InKernel k₀ c k ∧ Idle k e := steady_inKernel.and (steady_idle e)
        refine .bind (.modify (Q := fun _ k => InKernel k₀ c k ∧ Idle k e) fun k hk =>
          hP k _ (hclear k) ⟨hk.1, hk.2 rfl ha⟩) fun _ => ?_
        refine .bind (keeps_ipcSendPage hP.mem e srcva perm) fun r => ?_
        cases r with
        | error _ => exact .pure fun _ h => h.1
        | ok ipcPerm =>
          refine .bind keeps_curenv fun cur => .bind (.gets_same _) fun curId => ?_
          refine .bind (.modify (Q := fun _ => InKernel k₀ c) fun k hk => ?_) fun _ =>
            .pure fun _ h => h
          exact hk.1.setStatus hk.2.1 (show EnvStatus.runnable ≠ .free by decide) (fun _ => hk.2.2)
            rfl rfl rfl
      · refine Triple.intro fun k hk => ?_
        rw [if_pos rfl, Routine.modify_bind_run, Routine.bind_ret (ipcSendPage_refused ha _)]
        exact hk.1.congr (hclear k)

theorem triple_sysIpcRecv (dstva : Word) :
    Triple (InKernel k₀ c) (sysIpcRecv c dstva) (fun _ => InKernel k₀ c) (Leaves k₀ c) := by
  refine .ite_same (.pure fun _ h => h) (.bind triple_curenv fun cur => ?_)
  refine .bind (.modify (Q := fun _ => InKernel k₀ c) fun k hk => ?_) fun _ =>
    .bind triple_schedYield fun _ => .pure fun _ h => h.elim
  exact hk.1.setStatus (hk.1.cur cur hk.2).1 (show EnvStatus.notRunnable ≠ .free by decide)
    (fun h => absurd h (show EnvStatus.notRunnable ≠ .runnable by decide)) rfl rfl rfl

/-- A system call that acts on an environment executing on another CPU in a way
the invariant does not survive: `sys_env_destroy` when it is not running (a second
destruction, or one after its status was set), `sys_env_set_status` to runnable, and
`sys_ipc_try_send` when it is registered as receiving. -/
def Meddles (k : Kern) (c : ℕ) (regs : PushRegs) : Prop :=
  ∃ e c', c' ≠ c ∧ Executing k c' e ∧
    (regs.regEax = 3#32 ∧ Names k c regs.regEdx true e ∧ k.status e ≠ .running ∨
      regs.regEax = 8#32 ∧ Names k c regs.regEdx true e ∧
        settableStatus regs.regEcx = some .runnable ∨
      regs.regEax = 12#32 ∧ Names k c regs.regEdx false e ∧ (k.envs e).envIpcRecving = true ∧
        SendArgs regs.regEbx regs.regEdi)

theorem InKernel.ne_of_executing {k : Kern} (hk : InKernel k₀ c k) {c' : ℕ} (h : Executing k c' e) :
    c' ≠ c := by
  rintro rfl
  rw [Executing, hk.self] at h
  exact absurd h.1 (by decide)

/-- Every system call, unless it meddles with another CPU. -/
theorem triple_syscall (cgetc : Word) (regs : PushRegs) :
    Triple (fun k => InKernel k₀ c k ∧ ¬ Meddles k c regs)
      (syscall c cgetc regs.regEax regs.regEdx regs.regEcx regs.regEbx regs.regEdi regs.regEsi)
      (fun _ => InKernel k₀ c) (Leaves k₀ c) := by
  have hno (n : ℕ) (hn : regs.regEax.toNat = n) (hb : n < 2^32) : regs.regEax = BitVec.ofNat 32 n := by
    rw [← hn, BitVec.ofNat_toNat, BitVec.setWidth_eq]
  unfold syscall
  split
  case h_1 => exact .bind ((triple_sysCputs _ _).pre fun _ h => h.1) fun _ => .pure fun _ h => h
  case h_2 => exact .pure fun _ h => h.1
  case h_3 => exact .bind keeps_curenv fun _ => .bind (.gets_same _) fun _ => .pure fun _ h => h.1
  case h_4 h =>
    refine (triple_sysEnvDestroy _).pre fun k hk => ⟨hk.1, fun e hn c' hx => ?_⟩
    by_contra hs
    exact hk.2 ⟨e, c', hk.1.ne_of_executing hx, hx, Or.inl ⟨hno 3 h (by decide), hn, hs⟩⟩
  case h_5 => exact (keeps_sysPageAlloc steady_inKernel.mem _ _ _).pre fun _ h => h.1
  case h_6 => exact (keeps_sysPageMap steady_inKernel.mem _ _ _ _ _).pre fun _ h => h.1
  case h_7 => exact (keeps_sysPageUnmap steady_inKernel.mem _ _).pre fun _ h => h.1
  case h_8 => exact triple_sysExofork.pre fun _ h => h.1
  case h_9 h =>
    refine (triple_sysEnvSetStatus _ _).pre fun k hk => ⟨hk.1, fun hs e hn c' hx => ?_⟩
    exact hk.2 ⟨e, c', hk.1.ne_of_executing hx, hx, Or.inr (Or.inl ⟨hno 8 h (by decide), hn, hs⟩)⟩
  case h_10 => exact (triple_sysEnvSetPgfaultUpcall steady_inKernel _ _).pre fun _ h => h.1
  case h_11 =>
    exact .bind (triple_schedYield.pre fun _ h => h.1) fun _ => .pure fun _ h => h.elim
  case h_12 h =>
    refine (triple_sysIpcTrySend _ _ _ _).pre fun k hk => ⟨hk.1, fun e hn hr ha c' hx => ?_⟩
    exact hk.2 ⟨e, c', hk.1.ne_of_executing hx, hx,
      Or.inr (Or.inr ⟨hno 12 h (by decide), hn, hr, ha⟩)⟩
  case h_13 => exact (triple_sysIpcRecv _).pre fun _ h => h.1
  case h_14 => exact .pure fun _ h => h.1

theorem triple_pageFaultHandler (faultVa : Word) (tf : Trapframe) :
    Triple (InKernel k₀ c) (pageFaultHandler c faultVa tf) (fun _ => InKernel k₀ c) (Leaves k₀ c) := by
  refine .ite_same .halt (.bind triple_curenv fun cur => ?_)
  have hP : Steady fun k => InKernel k₀ c k ∧ (k.cpus c).cpuEnv = some cur :=
    steady_inKernel.and (steady_cpuEnv _)
  refine .bind (.gets_same _) fun upcall => .ite_same ?_ ?_
  · refine (triple_envDestroy cur (some cur)).conseq (fun k hk => ⟨hk.1, hk.2, ?_⟩)
      (fun _ _ h => absurd rfl h.2.2) fun _ h => h
    exact ⟨(hk.1.cur cur hk.2).1, fun c' hx => absurd hx ((hk.1.cur cur hk.2).2 c')⟩
  · refine .bind (triple_userMemAssert cur _ _ _) fun _ => .bind (keeps_envPgdir cur) fun g => ?_
    refine .bind (triple_mem hP.mem (stays_storeBytes _ _ _)) fun _ => ?_
    refine .bind (.modify (Q := fun _ k => InKernel k₀ c k ∧ (k.cpus c).cpuEnv = some cur)
      fun k hk => hP k _ (SameLife.setEnv k cur rfl rfl rfl rfl) hk) fun _ => ?_
    exact (triple_envRun cur).conseq (fun k hk => ⟨hk.1, hk.1.cur cur hk.2⟩) (fun _ _ h => h.elim)
      fun _ h => h

theorem triple_trapDispatch (inp : TrapInput) :
    Triple (fun k => InKernel k₀ c k ∧ (inp.tf.tfTrapno = 48#32 → (k.cpus c).cpuEnv ≠ none →
        ¬ Meddles k c inp.tf.tfRegs)) (trapDispatch c inp) (fun _ => InKernel k₀ c) (Leaves k₀ c) := by
  unfold trapDispatch
  simp only
  split
  case h_1 => exact .halt
  case h_2 => exact (triple_pageFaultHandler _ _).pre fun _ h => h.1
  case h_3 h =>
    have hno : inp.tf.tfTrapno = 48#32 := by
      rw [← BitVec.setWidth_eq inp.tf.tfTrapno, ← BitVec.ofNat_toNat, h]
    refine .bind triple_curenv fun cur => ?_
    refine .bind ((triple_syscall inp.cgetc inp.tf.tfRegs).pre fun k hk =>
      ⟨hk.1.1, hk.1.2 hno (by simp [hk.2])⟩) fun r => ?_
    exact .modify fun k hk => hk.congr (SameLife.setEnv k cur rfl rfl rfl rfl)
  case h_4 => exact .pure fun _ h => h.1
  case h_5 => exact triple_schedYield.conseq (fun _ h => h.1) (fun _ _ h => h.elim) fun _ h => h
  case h_6 =>
    refine .ite_same .halt (.bind (triple_curenv.pre fun _ h => h.1) fun cur => ?_)
    refine (triple_envDestroy cur (some cur)).conseq (fun k hk => ⟨hk.1, hk.2, ?_⟩)
      (fun _ _ h => absurd rfl h.2.2) fun _ h => h
    exact ⟨(hk.1.cur cur hk.2).1, fun c' hx => absurd hx ((hk.1.cur cur hk.2).2 c')⟩

end Steps
end Sisop
