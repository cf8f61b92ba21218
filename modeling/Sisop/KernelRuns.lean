import Sisop.CpuSystem
import Sisop.PageSupply

/-! What the kernel does on the paths without errors: which steps it takes and
what they change. -/
namespace Sisop

/-- Two states that differ in registers, handlers and message fields only. -/
structure SameCore (k k' : Kern) : Prop where
  life : SameLife k k'
  parent : ∀ e, (k'.envs e).envParentId = (k.envs e).envParentId
  mem : k'.mem = k.mem

/-- The message fields of an environment. -/
def Env.mail (env : Env) : Bool × Word × Word × Word × Word :=
  (env.envIpcRecving, env.envIpcDstva, env.envIpcValue, env.envIpcFrom, env.envIpcPerm)

/-- The message fields of all environments. -/
def Kern.mail (k : Kern) (e : EnvIdx) : Bool × Word × Word × Word × Word := (k.envs e).mail

section Runs

variable {k k' : Kern} {c : ℕ} {e cur : EnvIdx} {g : ℕ}

theorem setEnv_mail {f : Env → Env} (i : EnvIdx) :
    (k.setEnv e f).mail i = if i = e then (f (k.envs e)).mail else k.mail i := by
  simp only [Kern.mail, setEnv_envs]
  split_ifs <;> rfl

theorem setEnv_mail_same {f : Env → Env} (hf : (f (k.envs e)).mail = (k.envs e).mail) :
    (k.setEnv e f).mail = k.mail := by
  funext i
  rw [setEnv_mail, hf]
  split_ifs with hi
  · rw [hi, Kern.mail]
  · rfl

theorem setStatus_dirs (k : Kern) (e : EnvIdx) (st : EnvStatus) : (k.setStatus e st).dirs = k.dirs := by
  funext i
  rw [Kern.setStatus, setEnv_dirs]
  split_ifs with hi
  · rw [hi]
    rfl
  · rfl

theorem SameCore.trans {k'' : Kern} (h : SameCore k k') (h' : SameCore k' k'') : SameCore k k'' :=
  ⟨⟨h'.life.status.trans h.life.status, h'.life.dirs.trans h.life.dirs,
    fun e => (h'.life.link e).trans (h.life.link e), fun e => (h'.life.envId e).trans (h.life.envId e),
    h'.life.freeList.trans h.life.freeList, h'.life.cpus.trans h.life.cpus,
    h'.life.lock.trans h.life.lock⟩, fun e => (h'.parent e).trans (h.parent e), h'.mem.trans h.mem⟩

theorem envid2env_run {envid : Word} {checkperm : Bool} (h : Names k c envid checkperm e) :
    envid2env c envid checkperm k = .ret (.ok e) k := by
  unfold envid2env
  rcases h with ⟨h0, hc⟩ | ⟨h0, rfl, hs, hid, hp⟩
  · rw [if_pos h0, Routine.bind_ret (curenv_run hc), Routine.pure_run]
  · have hb : ¬ ((k.envs (envx envid)).envStatus = .free ∨ (k.envs (envx envid)).envId ≠ envid) :=
      not_or.mpr ⟨hs, not_not.mpr hid⟩
    simp only [if_neg h0, Routine.gets_bind_run, if_neg hb]
    cases checkperm with
    | false => rfl
    | true =>
      obtain ⟨cur, hc, hpar⟩ := hp rfl
      rw [if_pos rfl, Routine.bind_ret (curenv_run hc)]
      simp only [Routine.gets_bind_run]
      rw [if_neg]
      · rfl
      · rintro ⟨h1, h2⟩
        exact hpar.elim h1 h2

/-- The state in which `env_run(e)` leaves the kernel when the current environment
keeps its status. -/
def Kern.resumed (k : Kern) (c : ℕ) (e : EnvIdx) : Kern :=
  let k := (k.setCurenv c (some e)).setEnv e fun env =>
    { env with envStatus := .running, envRuns := env.envRuns + 1#32 }
  (({ k with kernelLock := none } : Kern).setEnv e fun env => { env with envCpunum := c }).setCpu c
    fun cpu => { cpu with user := true }

theorem resumed_mail (k : Kern) (c : ℕ) (e : EnvIdx) : (k.resumed c e).mail = k.mail := by
  refine (setEnv_mail_same (k := { (k.setCurenv c (some e)).setEnv e fun env =>
    { env with envStatus := .running, envRuns := env.envRuns + 1#32 } with kernelLock := none })
    (f := fun env => { env with envCpunum := c }) rfl).trans ?_
  exact setEnv_mail_same (k := k.setCurenv c (some e))
    (f := fun env => { env with envStatus := .running, envRuns := env.envRuns + 1#32 }) rfl

/-- What `env_run` changes besides its own environment: nothing but the CPU and the lock. -/
structure Resumes (k : Kern) (c : ℕ) (e : EnvIdx) (k' : Kern) : Prop where
  status : ∀ i, k'.status i = if i = e then .running else k.status i
  env : ∀ i, k'.dirs i = k.dirs i ∧ (k'.envs i).envLink = (k.envs i).envLink ∧
    (k'.envs i).envId = (k.envs i).envId ∧ (k'.envs i).envParentId = (k.envs i).envParentId
  freeList : k'.envFreeList = k.envFreeList
  mem : k'.mem = k.mem
  lock : k'.kernelLock = none
  cpus : ∀ i, k'.cpus i = if i = c then ⟨.started, some e, true⟩ else k.cpus i

theorem resumes_resumed (hc : (k.cpus c).cpuStatus = .started) (e : EnvIdx) :
    Resumes k c e (k.resumed c e) := by
  have henv (i : EnvIdx) : (k.resumed c e).envs i = if i = e then { k.envs e with
      envStatus := .running, envRuns := (k.envs e).envRuns + 1#32, envCpunum := c } else k.envs i := by
    simp only [Kern.resumed, setCpu_envs, setEnv_envs, Kern.setCurenv, if_true]
    split_ifs <;> rfl
  refine ⟨fun i => ?_, fun i => ?_, rfl, rfl, rfl, fun i => ?_⟩
  · simp only [Kern.status, henv]
    split_ifs <;> rfl
  · simp only [Kern.dirs, henv]
    split_ifs with h
    · rw [h]
      exact ⟨rfl, rfl, rfl, rfl⟩
    · exact ⟨rfl, rfl, rfl, rfl⟩
  · simp only [Kern.resumed, setCpu_cpus, setEnv_cpus, Kern.setCurenv, if_true, hc]
    split_ifs <;> rfl

theorem unlockKernel_run (hl : k.kernelLock = some c) :
    envRun.unlockKernel c k = .ret () { k with kernelLock := none } := if_pos hl

theorem envRun_none (hc : (k.cpus c).cpuEnv = none) (hg : k.dirs e = some g)
    (hl : k.kernelLock = some c) : envRun c e k = .left (k.resumed c e) := by
  simp only [envRun, Routine.gets_bind_run, hc, Routine.modify_bind_run]
  rw [Routine.bind_ret (envPgdir_run (g := g) ?_), Routine.bind_ret (unlockKernel_run ?_)]
  · rfl
  · exact hl
  · rw [setEnv_dirs, if_pos rfl]
    exact hg

/-- Running the current environment on. -/
theorem envRun_cur (hc : (k.cpus c).cpuEnv = some e) (hs : k.status e = .running)
    (hg : k.dirs e = some g) (hl : k.kernelLock = some c) :
    envRun c e k = .left ((k.setStatus e .runnable).resumed c e) := by
  simp only [envRun, Routine.gets_bind_run, hc, Routine.modify_bind_run, hs, if_true]
  rw [Routine.bind_ret (envPgdir_run (g := g) ?_), Routine.bind_ret (unlockKernel_run ?_)]
  · rfl
  · exact hl
  · rw [setEnv_dirs, if_pos rfl]
    change (k.setStatus e .runnable).dirs e = some g
    rw [Kern.setStatus, setEnv_dirs, if_pos rfl]
    exact hg

/-- What the first environment found runnable is, from `start` on. -/
theorem nextRunnable_run {start i : ℕ} (hi : i < nenv - 1)
    (hs : k.status (envAt (start + i)) = .runnable)
    (hb : ∀ j < i, k.status (envAt (start + j)) ≠ .runnable) :
    k.nextRunnable start = some (envAt (start + i)) := by
  rw [Kern.nextRunnable, List.find?_map, Option.map_eq_some_iff]
  refine ⟨i, ?_, rfl⟩
  refine List.find?_range_eq_some.mpr ⟨?_, List.mem_range.mpr hi, fun j hj => ?_⟩
  · simpa using hs
  · simpa using hb j hj

/-- What `env_alloc` makes of the head of the free list. -/
theorem envAlloc_run {parentId : Word} {t : Pm} (hf : k.envFreeList = some e)
    (hs : setupDir k.mem = .ret (some g) t) :
    envAlloc parentId k = .ret (.ok e) (k.alloced e parentId g t) := by
  have hvm : envSetupVm e k = .ret (.ok ())
      (({ k with mem := t } : Kern).setEnv e fun env => { env with envPgdir := some g }) := by
    simp only [envSetupVm, Routine.bind_ret (mem_ret hs), Routine.modify_bind_run, Routine.pure_run]
  simp only [envAlloc, Routine.gets_bind_run, hf, Routine.bind_ret hvm, Routine.modify_bind_run,
    Routine.pure_run]
  simp only [Kern.alloced, Kern.setEnv, Function.update_idem, Function.update_self]

/-- The state in which a system call starts. -/
def Kern.atSyscall (k : Kern) (c : ℕ) (cur : EnvIdx) (tf : Trapframe) : Kern :=
  (k.entered c CpuInfo.trapped).setEnv cur fun env => { env with envTf := tf }

theorem trapFromUser_run {tf : Trapframe} (hc : (k.cpus c).cpuEnv = some cur)
    (hl : k.kernelLock = none) (hs : k.status cur ≠ .dying) :
    trapFromUser c tf (k.setCpu c CpuInfo.trapped) = .ret () (k.atSyscall c cur tf) := by
  have hc' : ((k.setCpu c CpuInfo.trapped).cpus c).cpuEnv = some cur := by
    rw [setCpu_cpus, if_pos rfl]
    exact hc
  have hlock : lockKernel c (k.setCpu c CpuInfo.trapped) = .ret () (k.entered c CpuInfo.trapped) :=
    if_pos hl
  have hs' : (k.entered c CpuInfo.trapped).status cur ≠ .dying := hs
  simp only [trapFromUser, Routine.bind_ret (curenv_run hc'), Routine.bind_ret hlock,
    Routine.gets_bind_run, if_neg hs']
  rfl

theorem atSyscall_cpus (tf : Trapframe) :
    (k.atSyscall c cur tf).cpus = (k.setCpu c CpuInfo.trapped).cpus := rfl

theorem atSyscall_mail (tf : Trapframe) : (k.atSyscall c cur tf).mail = k.mail :=
  setEnv_mail_same (k := k.entered c CpuInfo.trapped) (f := fun env => { env with envTf := tf }) rfl

/-- A trap of a live environment goes on to its dispatching, with the registers saved. -/
theorem trap_run {inp : TrapInput} (hcpu : k.cpus c = ⟨.started, some cur, true⟩)
    (hl : k.kernelLock = none) (hs : k.status cur ≠ .dying) (hcs : inp.tf.tfCs &&& 3#16 = 3#16) :
    trap c inp k = (do
      trapDispatch c inp
      match (← Routine.gets fun k => k.curRunning c) with
      | some cur => envRun c cur
      | none => schedYield c : Routine Kern Unit) (k.atSyscall c cur inp.tf) := by
  have hst : (k.cpus c).cpuStatus ≠ .halted := by simp [hcpu]
  have huser : trapFromUser c inp.tf (k.setCpu c CpuInfo.trapped) =
      .ret () (k.atSyscall c cur inp.tf) := trapFromUser_run (by rw [hcpu]) hl hs
  simp only [trap, Routine.gets_bind_run, Routine.modify_bind_run, if_neg hst, if_pos hcs]
  change (trapFromUser c inp.tf >>= _) (k.setCpu c CpuInfo.trapped) = _
  exact Routine.bind_ret huser

/-- In a system call the dispatching is the call, and then its result is put into a register. -/
theorem trapDispatch_syscall {inp : TrapInput} (hcpu : k.cpus c = ⟨.started, some cur, true⟩)
    (hno : inp.tf.tfTrapno = 48#32) : trapDispatch c inp (k.atSyscall c cur inp.tf) = (do
      let result ← syscall c inp.cgetc inp.tf.tfRegs.regEax inp.tf.tfRegs.regEdx inp.tf.tfRegs.regEcx
        inp.tf.tfRegs.regEbx inp.tf.tfRegs.regEdi inp.tf.tfRegs.regEsi
      Routine.modify fun k => k.setEnv cur fun env => { env with envTf :=
        { env.envTf with tfRegs := { env.envTf.tfRegs with regEax := retWord result } } } :
        Routine Kern Unit) (k.atSyscall c cur inp.tf) := by
  have h48 : inp.tf.tfTrapno.toNat = 48 := by
    rw [hno]
    rfl
  have hce : ((k.atSyscall c cur inp.tf).cpus c).cpuEnv = some cur := by
    rw [atSyscall_cpus, setCpu_cpus, if_pos rfl, hcpu]
    rfl
  simp only [trapDispatch, h48]
  rw [Routine.bind_ret (curenv_run hce)]

/-- A system call that does not return is a step. -/
theorem syscall_leave {inp : TrapInput} (hcpu : k.cpus c = ⟨.started, some cur, true⟩)
    (hl : k.kernelLock = none) (hs : k.status cur = .running) (hcs : inp.tf.tfCs &&& 3#16 = 3#16)
    (hno : inp.tf.tfTrapno = 48#32)
    (hcall : syscall c inp.cgetc inp.tf.tfRegs.regEax inp.tf.tfRegs.regEdx inp.tf.tfRegs.regEcx
      inp.tf.tfRegs.regEbx inp.tf.tfRegs.regEdi inp.tf.tfRegs.regEsi (k.atSyscall c cur inp.tf) =
        .left k') : Step k (.trap c inp) k' := by
  refine .trap (Or.inl ⟨by rw [hcpu], hcs⟩) ?_
  have hdisp : trapDispatch c inp (k.atSyscall c cur inp.tf) = .left k' := by
    rw [trapDispatch_syscall hcpu hno, Routine.bind_left hcall]
  rw [trap_run hcpu hl (by rw [hs]; decide) hcs, Routine.bind_left hdisp]

/-- A system call that returns to a running caller is a step; but for the caller's
registers it does what the call does. -/
theorem syscall_step {inp : TrapInput} {r : SysRet} {k₁ : Kern}
    (hcpu : k.cpus c = ⟨.started, some cur, true⟩) (hl : k.kernelLock = none)
    (hs : k.status cur = .running) (hcs : inp.tf.tfCs &&& 3#16 = 3#16)
    (hno : inp.tf.tfTrapno = 48#32)
    (hcall : syscall c inp.cgetc inp.tf.tfRegs.regEax inp.tf.tfRegs.regEdx inp.tf.tfRegs.regEcx
      inp.tf.tfRegs.regEbx inp.tf.tfRegs.regEdi inp.tf.tfRegs.regEsi (k.atSyscall c cur inp.tf) =
        .ret r k₁)
    (hc₁ : k₁.cpus = (k.setCpu c CpuInfo.trapped).cpus) (hl₁ : k₁.kernelLock = some c)
    (hs₁ : k₁.status cur = .running) (hg : k₁.dirs cur = some g) :
    ∃ k', Step k (.trap c inp) k' ∧ SameCore { k₁ with cpus := k.cpus, kernelLock := none } k' ∧
      k'.mail = k₁.mail := by
  obtain ⟨k₂, hk₂⟩ : ∃ k₂, k₂ = k₁.setEnv cur fun env => { env with envTf :=
    { env.envTf with tfRegs := { env.envTf.tfRegs with regEax := retWord r } } } := ⟨_, rfl⟩
  have hlife : SameLife k₁ k₂ := hk₂ ▸ SameLife.setEnv k₁ cur rfl rfl rfl rfl
  have hcur : ((k.setCpu c CpuInfo.trapped).cpus c) = ⟨.started, some cur, false⟩ := by
    rw [setCpu_cpus, if_pos rfl, hcpu]
    rfl
  have hc₂ : (k₂.cpus c).cpuEnv = some cur := by
    rw [hlife.cpus, hc₁, hcur]
  have hs₂ : k₂.status cur = .running := by
    rw [hlife.status, hs₁]
  have hg₂ : k₂.dirs cur = some g := by
    rw [hlife.dirs, hg]
  have hl₂ : k₂.kernelLock = some c := hlife.lock.trans hl₁
  have hdisp : trapDispatch c inp (k.atSyscall c cur inp.tf) = .ret () k₂ := by
    rw [trapDispatch_syscall hcpu hno, Routine.bind_ret hcall, hk₂]
    rfl
  have hrun : trap c inp k = envRun c cur k₂ := by
    have hcr : k₂.curRunning c = some cur := by
      rw [Kern.curRunning, hc₂, Option.filter_some, if_pos (by simpa using hs₂)]
    rw [trap_run hcpu hl (by rw [hs]; decide) hcs, Routine.bind_ret hdisp, Routine.gets_bind_run, hcr]
  have hleave := envRun_cur hc₂ hs₂ hg₂ hl₂
  have hst₂ : ((k₂.setStatus cur .runnable).cpus c).cpuStatus = .started := by
    change (k₂.cpus c).cpuStatus = _
    rw [hlife.cpus, hc₁, hcur]
  have hres := resumes_resumed hst₂ cur
  have hmail : ((k₂.setStatus cur .runnable).resumed c cur).mail = k₁.mail := by
    rw [resumed_mail, Kern.setStatus, setEnv_mail_same (k := k₂) rfl, hk₂]
    exact setEnv_mail_same (k := k₁) rfl
  generalize (k₂.setStatus cur .runnable).resumed c cur = k' at hres hleave hmail
  have hset (i : EnvIdx) : (k₂.setStatus cur .runnable).dirs i = k₁.dirs i ∧
      (((k₂.setStatus cur .runnable).envs i).envLink = (k₁.envs i).envLink ∧
      ((k₂.setStatus cur .runnable).envs i).envId = (k₁.envs i).envId ∧
      ((k₂.setStatus cur .runnable).envs i).envParentId = (k₁.envs i).envParentId) := by
    simp only [hk₂, Kern.dirs, Kern.setStatus, setEnv_envs, if_true]
    split_ifs with h
    · rw [h]
      exact ⟨rfl, rfl, rfl, rfl⟩
    · exact ⟨rfl, rfl, rfl, rfl⟩
  refine ⟨k', .trap (Or.inl ⟨by rw [hcpu], hcs⟩) (hrun.trans hleave), ⟨⟨?_, ?_, ?_, ?_, ?_, ?_, ?_⟩,
    ?_, ?_⟩, hmail⟩
  · funext i
    rw [hres.status]
    split_ifs with h
    · rw [h]
      exact hs₁.symm
    · rw [setStatus_status, if_neg h, hlife.status]
      rfl
  · exact funext fun i => (hres.env i).1.trans (hset i).1
  · exact fun i => (hres.env i).2.1.trans (hset i).2.1
  · exact fun i => (hres.env i).2.2.1.trans (hset i).2.2.1
  · exact hres.freeList.trans hlife.freeList
  · funext i
    rw [hres.cpus]
    change (if i = c then _ else k₂.cpus i) = k.cpus i
    rw [hlife.cpus, hc₁]
    split_ifs with h
    · rw [h, hcpu]
    · rw [setCpu_cpus, if_neg h]
  · exact hres.lock
  · exact fun i => (hres.env i).2.2.2.trans (hset i).2.2.2
  · rw [hres.mem, hk₂]
    rfl

/-- The same change of an environment, which may set its status. -/
theorem SameCore.setEnv_congr (h : SameCore k k') (e : EnvIdx) {f : Env → Env} {st : EnvStatus}
    (hst : ∀ env, (f env).envStatus = st) (hd : ∀ env, (f env).envPgdir = env.envPgdir)
    (hl : ∀ env, (f env).envLink = env.envLink) (hid : ∀ env, (f env).envId = env.envId)
    (hp : ∀ env, (f env).envParentId = env.envParentId) :
    SameCore (k.setEnv e f) (k'.setEnv e f) := by
  refine ⟨⟨funext fun i => ?_, funext fun i => ?_, fun i => ?_, fun i => ?_, h.life.freeList,
    h.life.cpus, h.life.lock⟩, fun i => ?_, h.mem⟩
  · rw [setEnv_status, setEnv_status, hst, hst, h.life.status]
  · rw [setEnv_dirs, setEnv_dirs, hd, hd, h.life.dirs]
    exact if_congr Iff.rfl (congrFun h.life.dirs e) rfl
  · rw [setEnv_link, setEnv_link, hl, hl]
    exact if_congr Iff.rfl (h.life.link e) (h.life.link i)
  · rw [setEnv_envId, setEnv_envId, hid, hid]
    exact if_congr Iff.rfl (h.life.envId e) (h.life.envId i)
  · simp only [setEnv_envs]
    split_ifs
    · rw [hp, hp, h.parent]
    · exact h.parent i

theorem SameCore.setStatus (h : SameCore k k') (e : EnvIdx) (st : EnvStatus) :
    SameCore (k.setStatus e st) (k'.setStatus e st) :=
  h.setEnv_congr e (fun _ => rfl) (fun _ => rfl) (fun _ => rfl) (fun _ => rfl) fun _ => rfl

theorem SameCore.setMem (h : SameCore k k') (t : Pm) :
    SameCore { k with mem := t } { k' with mem := t } :=
  ⟨⟨h.life.status, h.life.dirs, h.life.link, h.life.envId, h.life.freeList, h.life.cpus,
    h.life.lock⟩, h.parent, rfl⟩

theorem SameCore.freed (h : SameCore k k') (e : EnvIdx) (t : Pm) :
    SameCore (k.freed e t) (k'.freed e t) := by
  refine ⟨⟨funext fun i => ?_, funext fun i => ?_, fun i => ?_, fun i => ?_, rfl,
    h.life.cpus, h.life.lock⟩, fun i => ?_, rfl⟩
  · rw [freed_status, freed_status, h.life.status]
  · rw [freed_dirs, freed_dirs, h.life.dirs]
  · rw [freed_link, freed_link]
    exact if_congr Iff.rfl h.life.freeList (h.life.link i)
  · rw [freed_envId, freed_envId]
    exact h.life.envId i
  · have hp (k : Kern) : ((k.freed e t).envs i).envParentId = (k.envs i).envParentId := by
      simp only [Kern.freed, Kern.setEnv, Function.update_apply]
      split_ifs with hi
      · rw [hi]
      · rfl
    rw [hp, hp]
    exact h.parent i

theorem SameCore.alloced (h : SameCore k k') (e : EnvIdx) (parentId : Word) (g : ℕ) (t : Pm) :
    SameCore (k.alloced e parentId g t) (k'.alloced e parentId g t) := by
  refine ⟨⟨funext fun i => ?_, funext fun i => ?_, fun i => ?_, fun i => ?_, h.life.link e,
    h.life.cpus, h.life.lock⟩, fun i => ?_, rfl⟩
  · rw [alloced_status, alloced_status, h.life.status]
  · rw [alloced_dirs, alloced_dirs, h.life.dirs]
  · rw [alloced_link, alloced_link]
    exact h.life.link i
  · rw [alloced_envId, alloced_envId, h.life.envId e]
    exact if_congr Iff.rfl rfl (h.life.envId i)
  · simp only [Kern.alloced, Kern.setEnv, Function.update_apply]
    split_ifs
    · rfl
    · exact h.parent i

theorem SameCore.setEnv (k : Kern) (e : EnvIdx) {f : Env → Env}
    (h : SameLife k (k.setEnv e f)) (hp : (f (k.envs e)).envParentId = (k.envs e).envParentId) :
    SameCore k (k.setEnv e f) := by
  refine ⟨h, fun i => ?_, rfl⟩
  rw [setEnv_envs]
  split_ifs with hi
  · rw [hi, hp]
  · rfl

/-- The state between calls is that of the call, but for the lock and the CPU. -/
theorem sameCore_atSyscall (hl : k.kernelLock = none) (c : ℕ) (cur : EnvIdx) (tf : Trapframe) :
    SameCore k { k.atSyscall c cur tf with cpus := k.cpus, kernelLock := none } := by
  have h := SameCore.setEnv k cur (f := fun env => { env with envTf := tf })
    (SameLife.setEnv k cur rfl rfl rfl rfl) rfl
  exact ⟨⟨h.life.status, h.life.dirs, h.life.link, h.life.envId, h.life.freeList, rfl, hl.symm⟩,
    h.parent, rfl⟩

/-- A trap by `int $T_SYSCALL`. -/
def sysInput (no a1 a2 a3 a4 a5 : Word) : TrapInput where
  tf := { initialTf with
    tfTrapno := 48#32
    tfRegs := { zeroRegs with
      regEax := no, regEdx := a1, regEcx := a2, regEbx := a3, regEdi := a4, regEsi := a5 } }
  cr2 := 0
  cgetc := 0

/-- The parent `p` runs on the CPU `c`, and has a child `q` that never touched its
address space. -/
structure Family (k : Kern) (c : ℕ) (p q : EnvIdx) (st : EnvStatus) : Prop where
  cpu : k.cpus c = ⟨.started, some p, true⟩
  lock : k.kernelLock = none
  running : k.status p = .running
  dir : ∃ g, k.dirs p = some g
  ne : q ≠ p
  child : k.status q = st
  alive : st ≠ .free
  id : (k.envs q).envId ≠ 0#32 ∧ envx (k.envs q).envId = q
  parent : (k.envs q).envParentId = (k.envs p).envId
  childDir : ∃ g, k.dirs q = some g ∧ (∀ d < userPdes, k.mem.word g d = 0#32) ∧
    (k.mem.pages g).ppLink = none

theorem Family.congr {p q : EnvIdx} {st : EnvStatus} (h : Family k c p q st) (hs : SameCore k k') :
    Family k' c p q st := by
  refine ⟨?_, hs.life.lock.trans h.lock, ?_, ?_, h.ne, ?_, h.alive, ?_, ?_, ?_⟩
  · rw [hs.life.cpus, h.cpu]
  · rw [hs.life.status, h.running]
  · rw [hs.life.dirs]
    exact h.dir
  · rw [hs.life.status, h.child]
  · rw [hs.life.envId]
    exact h.id
  · rw [hs.parent, hs.life.envId]
    exact h.parent
  · rw [hs.life.dirs, hs.mem]
    exact h.childDir

theorem Family.setStatus {p q : EnvIdx} {st st' : EnvStatus} (h : Family k c p q st)
    (hst : st' ≠ .free) : Family (k.setStatus q st') c p q st' := by
  have hid (i : EnvIdx) : ((k.setStatus q st').envs i).envId = (k.envs i).envId := by
    rw [Kern.setStatus, setEnv_envId]
    split_ifs with hi
    · rw [hi]
    · rfl
  refine ⟨h.cpu, h.lock, ?_, ?_, h.ne, ?_, hst, ?_, ?_, ?_⟩
  · rw [setStatus_status, if_neg h.ne.symm, h.running]
  · rw [setStatus_dirs]
    exact h.dir
  · rw [setStatus_status, if_pos rfl]
  · rw [hid]
    exact h.id
  · rw [hid, ← h.parent, Kern.setStatus, setEnv_envs, if_pos rfl]
  · rw [setStatus_dirs]
    exact h.childDir

/-- The parent may name its child in a call. -/
theorem Family.names {p q : EnvIdx} {st : EnvStatus} (h : Family k c p q st) (tf : Trapframe) :
    Names (k.atSyscall c p tf) c (k.envs q).envId true q := by
  have hs := (sameCore_atSyscall h.lock c p tf)
  have hcur : ((k.atSyscall c p tf).cpus c).cpuEnv = some p := by
    rw [atSyscall_cpus, setCpu_cpus, if_pos rfl, h.cpu]
    rfl
  refine Or.inr ⟨h.id.1, h.id.2.symm, ?_, hs.life.envId q, fun _ => ⟨p, hcur, Or.inr ?_⟩⟩
  · rw [show (k.atSyscall c p tf).status = k.status from hs.life.status, h.child]
    exact h.alive
  · exact (hs.parent q).trans (h.parent.trans (hs.life.envId p).symm)

theorem sysInput_tfCs (no a1 a2 a3 a4 a5 : Word) :
    (sysInput no a1 a2 a3 a4 a5).tf.tfCs &&& 3#16 = 3#16 := by
  change 0x1B#16 &&& 3#16 = 3#16
  decide

/-- A call of the environment `p` that acts on the kernel by `f`. -/
theorem call_step {p : EnvIdx} {r : SysRet} {f : Kern → Kern} (no a1 a2 a3 a4 a5 : Word)
    (hcpu : k.cpus c = ⟨.started, some p, true⟩) (hl : k.kernelLock = none)
    (hrun : k.status p = .running)
    (hcall : syscall c 0 no a1 a2 a3 a4 a5 (k.atSyscall c p (sysInput no a1 a2 a3 a4 a5).tf) =
      .ret r (f (k.atSyscall c p (sysInput no a1 a2 a3 a4 a5).tf)))
    (hcong : ∀ k k', SameCore k k' → SameCore (f k) (f k'))
    (hcpus : ∀ k x l, f { k with cpus := x, kernelLock := l } =
      { f k with cpus := x, kernelLock := l })
    (hf : ∀ k, (f k).cpus = k.cpus ∧ (f k).kernelLock = k.kernelLock)
    (hs : (f k).status p = .running) (hg : ∃ g, (f k).dirs p = some g) :
    ∃ k', Step k (.trap c (sysInput no a1 a2 a3 a4 a5)) k' ∧ SameCore (f k) k' ∧
      k'.mail = (f (k.atSyscall c p (sysInput no a1 a2 a3 a4 a5).tf)).mail := by
  have hsame := hcong _ _ (sameCore_atSyscall hl c p (sysInput no a1 a2 a3 a4 a5).tf)
  replace hsame : SameCore (f k) { f (k.atSyscall c p (sysInput no a1 a2 a3 a4 a5).tf) with
      cpus := k.cpus, kernelLock := none } := hcpus (k.atSyscall c p _) k.cpus none ▸ hsame
  obtain ⟨g, hg⟩ := hg
  obtain ⟨k', hk', hc, hmail⟩ := syscall_step (g := g) hcpu hl hrun (sysInput_tfCs ..) rfl hcall
    (hf _).1 (hf _).2 ((congrFun hsame.life.status p).trans hs)
    ((congrFun hsame.life.dirs p).trans hg)
  exact ⟨k', hk', hsame.trans hc, hmail⟩

/-- `sys_env_set_status` of an environment that the caller may name. -/
theorem setStatus_call {p q : EnvIdx} {st' : EnvStatus} {envid status : Word}
    (hcpu : k.cpus c = ⟨.started, some p, true⟩) (hl : k.kernelLock = none)
    (hrun : k.status p = .running) (hst : settableStatus status = some st')
    (hn : Names (k.atSyscall c p (sysInput 8#32 envid status 0 0 0).tf) c envid true q)
    (hs : (k.setStatus q st').status p = .running) (hg : ∃ g, (k.setStatus q st').dirs p = some g) :
    ∃ k', Step k (.trap c (sysInput 8#32 envid status 0 0 0)) k' ∧ SameCore (k.setStatus q st') k' ∧
      k'.mail = k.mail := by
  have hcall (k₂ : Kern) (hn : Names k₂ c envid true q) :
      sysEnvSetStatus c envid status k₂ = .ret (.ok 0#32) (k₂.setStatus q st') := by
    simp only [sysEnvSetStatus, hst]
    rw [Routine.bind_ret (envid2env_run hn)]
    rfl
  obtain ⟨k', hk', hs', hmail⟩ := call_step (f := fun k => k.setStatus q st') 8#32 envid
    status 0 0 0 hcpu hl hrun (hcall _ hn) (fun _ _ hc => hc.setStatus q st')
    (fun _ _ _ => rfl) (fun _ => ⟨rfl, rfl⟩) hs hg
  refine ⟨k', hk', hs', hmail.trans ?_⟩
  rw [Kern.setStatus, setEnv_mail_same rfl, atSyscall_mail]

/-- The parent sets the status of its child. -/
theorem Family.setStatus_step {p q : EnvIdx} {st st' : EnvStatus} (h : Family k c p q st)
    {status : Word} (hst : settableStatus status = some st') : ∃ k',
      Step k (.trap c (sysInput 8#32 (k.envs q).envId status 0 0 0)) k' ∧
        SameCore (k.setStatus q st') k' := by
  have hf := h.setStatus (settableStatus_ne_free hst)
  obtain ⟨k', hk', hs, -⟩ := setStatus_call h.cpu h.lock h.running hst (h.names _) hf.running hf.dir
  exact ⟨k', hk', hs⟩

theorem sysEnvDestroy_running {envid : Word} (hn : Names k c envid true e)
    (hs : k.status e = .running) (hc : (k.cpus c).cpuEnv ≠ some e) :
    sysEnvDestroy c envid k = .ret (.ok 0#32) (k.setStatus e .dying) := by
  have hd : decide (k.status e = .running ∧ (k.cpus c).cpuEnv ≠ some e) = true :=
    decide_eq_true ⟨hs, hc⟩
  have hrun : envDestroy c e k = .ret () (k.setStatus e .dying) := by
    simp only [envDestroy, Routine.gets_bind_run, hd, if_true, Routine.modify_run]
  simp only [sysEnvDestroy, Routine.bind_ret (envid2env_run hn), Routine.bind_ret hrun,
    Routine.pure_run]

/-- An environment without page tables is freed. -/
theorem envFree_bare (hg : k.dirs e = some g) (hz : ∀ d < userPdes, k.mem.word g d = 0#32)
    (hl : (k.mem.pages g).ppLink = none) : envFree e k = .ret () (k.freed e (k.mem.decRef g)) := by
  have hloop := mem_ret (k := k) (freeTables_bare hz)
  have hdec := mem_ret (k := k.setEnv e fun env => { env with envPgdir := none }) (pageDecref_run hl)
  simp only [envFree, Routine.bind_ret (envPgdir_run hg), Routine.bind_ret hloop,
    Routine.modify_bind_run, Routine.bind_ret hdec, Routine.modify_run]
  simp only [Kern.freed, Kern.setStatus, Kern.setEnv, Function.update_idem, Function.update_self]

theorem sysEnvDestroy_free {envid : Word} {t : Pm} (hn : Names k c envid true e)
    (hs : k.status e ≠ .running) (hc : (k.cpus c).cpuEnv ≠ some e)
    (hf : envFree e k = .ret () (k.freed e t)) :
    sysEnvDestroy c envid k = .ret (.ok 0#32) (k.freed e t) := by
  have hd : decide (k.status e = .running ∧ (k.cpus c).cpuEnv ≠ some e) = false :=
    decide_eq_false fun h => hs h.1
  have hd' : decide (((k.freed e t).cpus c).cpuEnv = some e) = false := decide_eq_false hc
  have hrun : envDestroy c e k = .ret () (k.freed e t) := by
    simp only [envDestroy, Routine.gets_bind_run, hd, Bool.false_eq_true, if_false,
      Routine.bind_ret hf, hd', Routine.pure_run]
  simp only [sysEnvDestroy, Routine.bind_ret (envid2env_run hn), Routine.bind_ret hrun,
    Routine.pure_run]

theorem Family.cpuEnv_ne {p q : EnvIdx} {st : EnvStatus} (h : Family k c p q st) (tf : Trapframe) :
    ((k.atSyscall c p tf).cpus c).cpuEnv ≠ some q := by
  rw [atSyscall_cpus, setCpu_cpus, if_pos rfl, h.cpu]
  exact fun hp => h.ne (Option.some.inj hp).symm

/-- The parent destroys its running child, which becomes a zombie. -/
theorem Family.destroy_step {p q : EnvIdx} (h : Family k c p q .running) : ∃ k',
    Step k (.trap c (sysInput 3#32 (k.envs q).envId 0 0 0 0)) k' ∧
      SameCore (k.setStatus q .dying) k' := by
  have hf := h.setStatus (by decide : EnvStatus.dying ≠ .free)
  have hs := (sameCore_atSyscall h.lock c p (sysInput 3#32 (k.envs q).envId 0 0 0 0).tf).life.status
  obtain ⟨k', hk', hs', -⟩ := call_step (f := fun k => k.setStatus q .dying) 3#32 (k.envs q).envId
    0 0 0 0 h.cpu h.lock h.running
    (sysEnvDestroy_running (h.names _) ((congrFun hs q).trans h.child) (h.cpuEnv_ne _))
    (fun _ _ hc => hc.setStatus q .dying) (fun _ _ _ => rfl) (fun _ => ⟨rfl, rfl⟩) hf.running hf.dir
  exact ⟨k', hk', hs'⟩

/-- The parent destroys its child, which is not running: the child is freed. -/
theorem Family.free_step {p q : EnvIdx} {st : EnvStatus} (h : Family k c p q st)
    (hst : st ≠ .running) : ∃ t k',
      Step k (.trap c (sysInput 3#32 (k.envs q).envId 0 0 0 0)) k' ∧ SameCore (k.freed q t) k' := by
  obtain ⟨g, hg, hz, hl⟩ := h.childDir
  have hs := (sameCore_atSyscall h.lock c p (sysInput 3#32 (k.envs q).envId 0 0 0 0).tf).life
  have ht := envFree_bare (k := k.atSyscall c p (sysInput 3#32 (k.envs q).envId 0 0 0 0).tf)
    ((congrFun hs.dirs q).trans hg) hz hl
  generalize Pm.decRef _ g = t at ht
  have hstatus : (k.atSyscall c p (sysInput 3#32 (k.envs q).envId 0 0 0 0).tf).status q ≠ .running := by
    rw [show Kern.status (k.atSyscall c p _) q = k.status q from congrFun hs.status q, h.child]
    exact hst
  have hrun : (k.freed q t).status p = .running := by
    rw [freed_status, if_neg h.ne.symm, h.running]
  have hdir : ∃ g, (k.freed q t).dirs p = some g := by
    rw [freed_dirs, if_neg h.ne.symm]
    exact h.dir
  obtain ⟨k', hk', hs', -⟩ := call_step (f := fun k => k.freed q t) 3#32 (k.envs q).envId 0 0 0 0
    h.cpu h.lock h.running (sysEnvDestroy_free (h.names _) hstatus (h.cpuEnv_ne _) ht)
    (fun _ _ hc => hc.freed q t) (fun _ _ _ => rfl) (fun _ => ⟨rfl, rfl⟩) hrun hdir
  exact ⟨t, k', hk', hs'⟩

/-- Without a current environment the scheduler searches from the first slot. -/
theorem schedYield_idle (hc : (k.cpus c).cpuEnv = none) (hn : k.nextRunnable 0 = some e)
    (hg : k.dirs e = some g) (hl : k.kernelLock = some c) :
    schedYield c k = .left (k.resumed c e) := by
  have hnext : k.nextRunnable (k.searchStart c) = some e := by
    rw [Kern.searchStart, hc]
    exact hn
  simp only [schedYield, Routine.gets_bind_run, hnext]
  exact envRun_none hc hg hl

/-- A CPU that enters the kernel without an environment takes up the first runnable one. -/
theorem entered_yield {f : CpuInfo → CpuInfo} (hf : f (k.cpus c) = ⟨.started, none, false⟩)
    (hn : k.nextRunnable 0 = some e) (hg : k.dirs e = some g) : ∃ k',
      schedYield c (k.entered c f) = .left k' ∧ Resumes k c e k' ∧ k'.mail = k.mail := by
  have hcpus (i : ℕ) : (k.entered c f).cpus i = if i = c then ⟨.started, none, false⟩ else k.cpus i := by
    rw [entered_cpus, hf]
  have hcur : ((k.entered c f).cpus c).cpuEnv = none := by
    rw [hcpus, if_pos rfl]
  have hres := resumes_resumed (k := k.entered c f) (c := c) (by rw [hcpus, if_pos rfl]) e
  refine ⟨_, schedYield_idle hcur hn hg rfl, ⟨hres.status, hres.env, hres.freeList, hres.mem, hres.lock,
    fun i => ?_⟩, resumed_mail ..⟩
  rw [hres.cpus]
  split_ifs with hi
  · rfl
  · rw [hcpus, if_neg hi]

/-- A processor that starts takes up the first runnable environment. -/
theorem start_step {c' : ℕ} (hcpu : k.cpus c' = ⟨.unused, none, false⟩) (hl : k.kernelLock = none)
    (hn : k.nextRunnable 0 = some e) (hg : k.dirs e = some g) :
    ∃ k', Step k (.start c') k' ∧ Resumes k c' e k' := by
  obtain ⟨k', hyield, hres, -⟩ := entered_yield (k := k) (c := c')
    (f := fun cpu => { cpu with cpuStatus := .started }) (by rw [hcpu]) hn hg
  have hlock : lockKernel c' (k.setCpu c' fun cpu => { cpu with cpuStatus := .started }) =
      .ret () (k.entered c' fun cpu => { cpu with cpuStatus := .started }) := if_pos hl
  have hrun : mpMain c' k = .left k' := by
    simp only [mpMain, Routine.modify_bind_run, Routine.bind_ret hlock, hyield]
  exact ⟨k', .start (by rw [hcpu]) (by rw [hcpu]) hrun, hres⟩

/-- A timer interrupt. -/
def timerInput : TrapInput where
  tf := { initialTf with tfTrapno := 32#32, tfCs := 0x08#16 }
  cr2 := 0
  cgetc := 0

/-- A halted processor takes up the first runnable environment at the next timer interrupt. -/
theorem wake_step (hcpu : k.cpus c = ⟨.halted, none, false⟩) (hl : k.kernelLock = none)
    (hn : k.nextRunnable 0 = some e) (hg : k.dirs e = some g) :
    ∃ k', Step k (.trap c timerInput) k' ∧ Resumes k c e k' ∧ k'.mail = k.mail := by
  obtain ⟨k', hyield, hres, hmail⟩ := entered_yield (k := k) (c := c) (f := CpuInfo.trapped)
    (by rw [hcpu]; rfl) hn hg
  have hlock : lockKernel c (k.setCpu c CpuInfo.trapped) = .ret () (k.entered c CpuInfo.trapped) :=
    if_pos hl
  have hcs : ¬ timerInput.tf.tfCs &&& 3#16 = 3#16 := by
    change ¬ 0x08#16 &&& 3#16 = 3#16
    decide
  have hdisp : trapDispatch c timerInput (k.entered c CpuInfo.trapped) = .left k' := hyield
  have hrun : trap c timerInput k = .left k' := by
    have hst : (k.cpus c).cpuStatus = .halted := by rw [hcpu]
    simp only [trap, Routine.gets_bind_run, Routine.modify_bind_run, if_pos hst, if_neg hcs]
    change (lockKernel c >>= _) (k.setCpu c CpuInfo.trapped) = _
    rw [Routine.bind_ret hlock, Routine.bind_left hdisp]
  exact ⟨k', .trap (Or.inr ⟨by rw [hcpu], by rw [hcpu], rfl⟩) hrun, hres, hmail⟩

/-- A CPU runs the environment `p`, which may fork: there is a free environment,
and a page for its directory. -/
structure Alone (k : Kern) (c : ℕ) (p : EnvIdx) : Prop where
  cpu : k.cpus c = ⟨.started, some p, true⟩
  lock : k.kernelLock = none
  running : k.status p = .running
  dir : ∃ g, k.dirs p = some g
  next : ∃ q, k.envFreeList = some q ∧ q ≠ p ∧ k.dirs q = none
  memory : MemInv k.mem k.dirs 0
  supply : k.mem.Supply 8

theorem nextEnvId_spec (e : EnvIdx) (envId : Word) :
    nextEnvId e envId ≠ 0#32 ∧ envx (nextEnvId e envId) = e := by
  -- the generation is positive, with ten low bits free for the slot
  obtain ⟨gen, hgen, hpos, hlow⟩ : ∃ gen, nextEnvId e envId = gen ||| BitVec.ofNat 32 e ∧ gen ≠ 0#32 ∧
      gen &&& 0x3FF#32 = 0#32 := by
    refine ⟨_, rfl, ?_, ?_⟩
    · split_ifs with h
      · decide
      · rintro h0
        exact h (by rw [h0]; decide)
    · split_ifs
      · decide
      · rw [BitVec.and_assoc, BitVec.not_and_self]
        exact BitVec.and_zero
  rw [hgen]
  refine ⟨fun h0 => hpos (BitVec.or_eq_zero_iff.mp h0).1, Fin.ext ?_⟩
  have hm : (0x3FF#32).toNat = 2^10 - 1 := rfl
  have hlt : e.val < 1024 := e.isLt
  have hlow' := congrArg BitVec.toNat hlow
  rw [BitVec.toNat_and, hm] at hlow'
  simp only [envx]
  rw [BitVec.toNat_and, BitVec.toNat_or, hm, Nat.and_or_distrib_right, hlow', BitVec.toNat_ofNat,
    BitVec.toNat_ofNat, Nat.and_two_pow_sub_one_eq_mod, Nat.zero_mod, Nat.zero_or]
  omega

theorem sysExofork_run {p q : EnvIdx} {t : Pm} (hc : (k.cpus c).cpuEnv = some p)
    (hf : k.envFreeList = some q) (hs : setupDir k.mem = .ret (some g) t) :
    ∃ r k', sysExofork c k = .ret r k' ∧
      SameCore ((k.alloced q (k.envs p).envId g t).setStatus q .notRunnable) k' ∧ (k'.envs q).envIpcRecving = false := by
  have halloc : envAlloc (k.envs p).envId k = .ret (.ok q) (k.alloced q (k.envs p).envId g t) :=
    envAlloc_run hf hs
  simp only [sysExofork, Routine.bind_ret (curenv_run hc), Routine.gets_bind_run,
    Routine.bind_ret halloc, Routine.modify_bind_run, Routine.pure_run]
  refine ⟨_, _, rfl, SameCore.setEnv _ q (SameLife.setEnv _ q rfl rfl rfl rfl) rfl, ?_⟩
  simp only [Kern.setStatus, Kern.alloced, Kern.setEnv, Function.update_self]

theorem alloced_parent (e : EnvIdx) (parentId : Word) (g : ℕ) (t : Pm) :
    ((k.alloced e parentId g t).envs e).envParentId = parentId := by
  simp only [Kern.alloced, Kern.setEnv, Function.update_self]

/-- `sys_exofork` gives the caller a child. -/
theorem Alone.exofork_step {p : EnvIdx} (h : Alone k c p) : ∃ q k',
    Step k (.trap c (sysInput 7#32 0 0 0 0 0)) k' ∧ k.envFreeList = some q ∧
      Family k' c p q .notRunnable ∧ k'.cpus = k.cpus ∧ (∀ i, i ≠ q → k'.status i = k.status i) ∧
      MemInv k'.mem k'.dirs 0 ∧ k'.mem.Supply 7 ∧
      (∀ gp, k.dirs p = some gp → k'.dirs p = some gp ∧ k'.mem.word gp = k.mem.word gp) ∧
      (k'.envs p).envParentId = (k.envs p).envParentId ∧ (k'.envs q).envIpcRecving = false := by
  obtain ⟨q, hf, hqp, hq⟩ := h.next
  obtain ⟨g, hdir, hinv, hsup, hbare⟩ := h.memory.setupDir_run hq h.supply
  have hold (gp : ℕ) (hgp : gp ≠ g) : (k.mem.newDir g).word gp = k.mem.word gp := newDir_word_ne hgp
  generalize k.mem.newDir g = t at hdir hinv hsup hbare hold
  have hsame := sameCore_atSyscall h.lock c p (sysInput 7#32 0 0 0 0 0).tf
  have hcpu : (k.setCpu c CpuInfo.trapped).cpus c = ⟨.started, some p, false⟩ := by
    rw [setCpu_cpus, if_pos rfl, h.cpu]
    rfl
  obtain ⟨r, k₁, hcall, h₁, hrecv⟩ := sysExofork_run (c := c) (p := p)
    (k := k.atSyscall c p (sysInput 7#32 0 0 0 0 0).tf) (by rw [atSyscall_cpus, hcpu])
    (hsame.life.freeList.trans hf) (g := g) (t := t) hdir
  have hpid : ((k.atSyscall c p (sysInput 7#32 0 0 0 0 0).tf).envs p).envId = (k.envs p).envId :=
    hsame.life.envId p
  rw [hpid] at h₁
  -- seen from outside, the call has allocated `q` in the state before the trap
  obtain ⟨k₂, hk₂⟩ : ∃ k₂, k₂ = (k.alloced q (k.envs p).envId g t).setStatus q .notRunnable := ⟨_, rfl⟩
  have h₂ : SameCore k₂ { k₁ with cpus := k.cpus, kernelLock := none } := by
    rw [hk₂]
    refine ((hsame.alloced q (k.envs p).envId g t).setStatus q .notRunnable).trans ?_
    exact ⟨⟨h₁.life.status, h₁.life.dirs, h₁.life.link, h₁.life.envId, h₁.life.freeList, rfl, rfl⟩,
      h₁.parent, h₁.mem⟩
  have hstatus (i : EnvIdx) : k₂.status i = if i = q then .notRunnable else k.status i := by
    rw [hk₂, setStatus_status]
    split_ifs with hi
    · rfl
    · rw [alloced_status, if_neg hi]
  have hdirs (i : EnvIdx) : k₂.dirs i = if i = q then some g else k.dirs i := by
    rw [hk₂, Kern.setStatus, setEnv_dirs]
    split_ifs with hi
    · rw [← Kern.dirs, alloced_dirs, if_pos rfl]
    · rw [alloced_dirs, if_neg hi]
  have hdirs₂ : k₂.dirs = Function.update k.dirs q (some g) := by
    funext i
    rw [hdirs, Function.update_apply]
  have hmem : k₂.mem = t := by
    rw [hk₂]
    rfl
  have hid (i : EnvIdx) : (k₂.envs i).envId =
      if i = q then nextEnvId q (k.envs q).envId else (k.envs i).envId := by
    rw [hk₂, Kern.setStatus, setEnv_envId]
    split_ifs with hi
    · rw [alloced_envId, if_pos rfl]
    · rw [alloced_envId, if_neg hi]
  have hpar : (k₂.envs q).envParentId = (k.envs p).envId := by
    rw [hk₂, Kern.setStatus, setEnv_envs, if_pos rfl]
    exact alloced_parent q _ g t
  obtain ⟨gp, hgp⟩ := h.dir
  obtain ⟨k', hk', hc', hmail⟩ := syscall_step (g := gp) h.cpu h.lock
    h.running (sysInput_tfCs 7#32 0 0 0 0 0) rfl hcall (h₁.life.cpus.trans rfl) (h₁.life.lock.trans rfl)
    ((congrFun h₂.life.status p).trans (by rw [hstatus, if_neg hqp.symm, h.running]))
    ((congrFun h₂.life.dirs p).trans (by rw [hdirs, if_neg hqp.symm, hgp]))
  have hsame' := h₂.trans hc'
  refine ⟨q, k', hk', hf, Family.congr ⟨?_, ?_, ?_, ⟨gp, ?_⟩, hqp, ?_, by decide, ?_, ?_, g, ?_, ?_, ?_⟩ hsame',
    ?_, fun i hi => ?_, ?_, ?_, fun gp' hgp' => ⟨?_, ?_⟩, ?_, ?_⟩
  · rw [hk₂]
    exact h.cpu
  · rw [hk₂]
    exact h.lock
  · rw [hstatus, if_neg hqp.symm, h.running]
  · rw [hdirs, if_neg hqp.symm, hgp]
  · rw [hstatus, if_pos rfl]
  · rw [hid, if_pos rfl]
    exact nextEnvId_spec q _
  · rw [hid, if_neg hqp.symm, hpar]
  · rw [hdirs, if_pos rfl]
  · rw [hk₂]
    exact hbare
  · rw [hk₂]
    exact hinv.unlinked (i := .dir q) (Function.update_self ..)
  · rw [hsame'.life.cpus, hk₂]
    rfl
  · rw [hsame'.life.status, hstatus, if_neg hi]
  · rw [hsame'.mem, hsame'.life.dirs, hdirs₂, hmem]
    exact hinv
  · rw [hsame'.mem, hmem]
    exact hsup
  · rw [hsame'.life.dirs, hdirs, if_neg hqp.symm, hgp']
  · rw [hsame'.mem, hmem]
    apply hold
    rintro rfl
    -- two environments have two directories
    have hdp : Function.update k.dirs q (some gp') p = some gp' := by
      rw [Function.update_of_ne hqp.symm, hgp']
    have hdir : (Slot.dir q).isTable := trivial
    have hdq : Function.update k.dirs q (some gp') q = some gp' := Function.update_self ..
    cases hinv.tally.slot_unique hdir hdq (show slotMap t _ (.dir p) = _ from hdp)
    exact hqp rfl
  · rw [hsame'.parent, hk₂, Kern.setStatus, setEnv_envs, if_neg hqp.symm]
    exact congrArg Env.envParentId (Function.update_of_ne hqp.symm _ _)
  · exact (congrArg (fun m => m.1) (congrFun hmail q)).trans hrecv

/-- A program without segments gets its stack. -/
theorem loadSegments_nil {s : Pm} {D : EnvIdx → Option ℕ} {n : ℕ} (h : MemInv s D 0)
    (hg : D e = some g) (hz : ∀ d < userPdes, s.word g d = 0#32) (hn : s.Supply (n+2)) :
    ∃ t, loadSegments g [] s = .ret () t ∧ MemInv t D 0 ∧ t.Supply n ∧
      ∀ d, d ≠ 954 → t.word g d = s.word g d := by
  have hstart : rounddown (ustacktop - 4096#32) + BitVec.ofNat 32 (pgsize * 0) = 0xEEBFD000#32 := by
    decide
  have hrounds : pageRounds (rounddown (ustacktop - 4096#32))
    (roundup (ustacktop - 4096#32 + 4096#32)) = 1 := by decide
  have hd : pdx 0xEEBFD000#32 < userPdes := by decide
  obtain ⟨p, q, t, ha, hi, ht, hs, hnew⟩ := h.mapNew_run hg hd regionPerm_lt (hz _ hd) hn
  refine ⟨t, ?_, ht, hs, hnew.dir⟩
  have hpage : allocPage g 0xEEBFD000#32 s = .ret () t := by
    simp only [allocPage, Routine.bind_ret ha, Routine.bind_ret hi, Routine.pure_run]
  simp only [loadSegments, regionAlloc, hrounds, Routine.loop, Routine.pure_bind_run, hstart, hpage]

/-- The first environment, with the page directory `g`, runs on the CPU `c`, and nothing
else has happened yet. -/
structure FirstEnv (k : Kern) (c g : ℕ) : Prop where
  alone : Alone k c 0
  next : k.envFreeList = some 1
  others : ∀ i, i ≠ 0 → k.status i = .free
  unused : ∀ c', c' ≠ c → k.cpus c' = ⟨.unused, none, false⟩
  dir : k.dirs 0 = some g
  blank : ∀ d < 954, k.mem.word g d = 0#32
  parent : (k.envs 0).envParentId = 0#32

/-- The boot processor creates one environment, and leaves the kernel in it. -/
theorem boot_run {m : Machine} {s : Pm} (hm : BootMem m s) (hn : s.Supply 16) (c : ℕ) :
    ∃ k g, startFirst c [(⟨[], 0#32⟩, .user)] (afterMemInit s) = .left k ∧ FirstEnv k c g := by
  obtain ⟨k₀, hk₀⟩ : ∃ k₀, k₀ = (envInit (afterMemInit s)).entered c fun cpu =>
    { cpu with cpuStatus := .started } := ⟨_, rfl⟩
  obtain ⟨g, hdir, hinv, hsup, hbare⟩ := hm.memInv.setupDir_run (e := 0) rfl hn
  generalize s.newDir g = t at hdir hinv hsup hbare
  obtain ⟨t', hload, hinv', hsup', hw⟩ := loadSegments_nil hinv (Function.update_self ..) hbare hsup
  have halloc : envAlloc 0#32 k₀ = .ret (.ok 0) (k₀.alloced 0 0#32 g t) :=
    envAlloc_run (by rw [hk₀]; rfl) (by rw [hk₀]; exact hdir)
  have hdirs : (k₀.alloced 0 0#32 g t).dirs = Function.update noDirs 0 (some g) := by
    funext i
    rw [alloced_dirs, Function.update_apply, hk₀]
    rfl
  obtain ⟨k₁, hk₁, hcreate⟩ : ∃ k₁, SameCore ({ k₀.alloced 0 0#32 g t with mem := t' }) k₁ ∧
      envCreate ⟨[], 0#32⟩ .user k₀ = .ret () k₁ := by
    have hpg := envPgdir_run (e := 0) (g := g) (k := k₀.alloced 0 0#32 g t) (by
      rw [hdirs, Function.update_self])
    have hmem := mem_ret (k := k₀.alloced 0 0#32 g t) hload
    simp only [envCreate, Routine.bind_ret halloc, Routine.bind_ret hpg, Routine.bind_ret hmem,
      Routine.modify_run]
    exact ⟨_, SameCore.setEnv _ 0 (SameLife.setEnv _ 0 rfl rfl rfl rfl) rfl, rfl⟩
  have hstatus (i : EnvIdx) : k₁.status i = if i = 0 then .runnable else .free := by
    rw [hk₁.life.status]
    change (k₀.alloced 0 0#32 g t).status i = _
    rw [alloced_status, hk₀]
    rfl
  have hcpus (i : ℕ) : k₁.cpus i = if i = c then ⟨.started, none, false⟩ else ⟨.unused, none, false⟩ := by
    rw [hk₁.life.cpus]
    change k₀.cpus i = _
    rw [hk₀, entered_cpus]
    rfl
  have hlock : k₁.kernelLock = some c := by
    rw [hk₁.life.lock]
    change k₀.kernelLock = _
    rw [hk₀]
    rfl
  have hcur : (k₁.cpus c).cpuEnv = none := by
    rw [hcpus, if_pos rfl]
  have hd₁ : k₁.dirs = Function.update noDirs 0 (some g) := hk₁.life.dirs.trans hdirs
  have hnext : k₁.nextRunnable 0 = some 0 :=
    nextRunnable_run (i := 0) (by decide) (by rw [hstatus]; rfl) fun j hj => absurd hj (by omega)
  have hyield : schedYield c k₁ = .left (k₁.resumed c 0) :=
    schedYield_idle hcur hnext (by rw [hd₁, Function.update_self]) hlock
  have hrun : startFirst c [(⟨[], 0#32⟩, .user)] (afterMemInit s) = .left (k₁.resumed c 0) := by
    have hlk : lockKernel c ((envInit (afterMemInit s)).setCpu c fun cpu =>
        { cpu with cpuStatus := .started }) = .ret () k₀ := by
      rw [hk₀]
      exact if_pos rfl
    have hcr : createEnvs [(⟨[], 0#32⟩, .user)] k₀ = .ret () k₁ := by
      simp only [createEnvs, Routine.bind_ret hcreate, Routine.pure_run]
    simp only [startFirst, Routine.modify_bind_run, Routine.bind_ret hlk, Routine.bind_ret hcr, hyield]
  have hres := resumes_resumed (k := k₁) (c := c) (by rw [hcpus, if_pos rfl]) 0
  have hfree : (k₁.resumed c 0).envFreeList = some 1 := by
    rw [hres.freeList, hk₁.life.freeList]
    change (k₀.envs 0).envLink = _
    rw [hk₀]
    rfl
  have hdirs' : (k₁.resumed c 0).dirs = Function.update noDirs 0 (some g) := by
    rw [← hd₁]
    exact funext fun i => (hres.env i).1
  have hmem : (k₁.resumed c 0).mem = t' := hres.mem.trans hk₁.mem
  refine ⟨_, g, hrun, ⟨⟨?_, hres.lock, ?_, ⟨g, ?_⟩, ⟨1, hfree, by decide, ?_⟩, ?_, ?_⟩,
    hfree, fun i hi => ?_, fun c' hc' => ?_, ?_, fun d hd => ?_, ?_⟩⟩
  · rw [hres.cpus, if_pos rfl]
  · rw [hres.status, if_pos rfl]
  · rw [hdirs', Function.update_self]
  · rw [hdirs']
    rfl
  · rw [hdirs', hmem]
    exact hinv'
  · rw [hmem]
    exact hsup'.mono (by decide)
  · rw [hres.status, if_neg hi, hstatus, if_neg hi]
  · rw [hres.cpus, if_neg hc', hcpus, if_neg hc']
  · rw [hdirs', Function.update_self]
  · have hu : userPdes = 955 := rfl
    rw [hmem, hw d (by omega), hbare d (by omega)]
  · rw [(hres.env 0).2.2.2, hk₁.parent]
    exact alloced_parent 0 0#32 g t

/-- A machine boots. -/
theorem machine64_boots : ∃ s k g, BootMem machine64 s ∧
    startFirst 0 [(⟨[], 0#32⟩, .user)] (afterMemInit s) = .left k ∧ FirstEnv k 0 g := by
  obtain ⟨s, hm, hn, -⟩ := machine64_bootMem
  obtain ⟨k, g, hrun, hk⟩ := boot_run hm (hn.mono (by decide)) 0
  exact ⟨s, k, g, hm, hrun, hk⟩

theorem first_booted : ∃ k g, Booted k ∧ FirstEnv k 0 g := by
  obtain ⟨s, k, g, hm, hrun, hk⟩ := machine64_boots
  exact ⟨k, g, booted_iff.mpr ⟨_, s, 0, _, hm, hrun⟩, hk⟩

theorem FirstEnv.executing (h : FirstEnv k c g) : Executing k c 0 := by
  rw [Executing, h.alone.cpu]
  exact ⟨rfl, rfl⟩

/-- A step in which a family grows: no CPU meddles with another one, and the system call,
if it is one, is `sys_exofork` or `sys_env_set_status` for an environment that waits for no message. -/
def FamilyStep (k k' : Kern) : Prop := ∃ ev, Step k ev k' ∧ ¬ ev.Meddles k ∧
  ∀ c inp, ev = .trap c inp → inp.tf.tfRegs.regEax = 7#32 ∨ inp.tf.tfRegs.regEax = 8#32 ∧
    ∀ e, Names k c inp.tf.tfRegs.regEdx true e → (k.envs e).envIpcRecving = false

theorem FamilyStep.any (h : FamilyStep k k') : AnyStep k k' := by
  obtain ⟨ev, hs, -⟩ := h
  exact ⟨ev, hs⟩

theorem FamilyStep.quiet (h : FamilyStep k k') : QuietStep k k' := by
  obtain ⟨ev, hs, hm, -⟩ := h
  exact ⟨ev, hs, hm⟩

theorem not_meddles {inp : TrapInput} (h : ∀ c', c' ≠ c → (k.cpus c').user = false) :
    ¬ Event.Meddles k (.trap c inp) := by
  rintro ⟨-, -, e, c', hc, hx, -⟩
  rw [Executing, h c' hc] at hx
  cases hx.1

/-- After booting on the CPU 0 the environment forks, makes its child runnable, and
the CPU 1 starts and takes it up. -/
theorem FirstEnv.start_child {I : Kern → Prop} (h : FirstEnv k 0 g) (hr : Reachable I FamilyStep k) :
    ∃ k', Reachable I FamilyStep k' ∧ Family k' 0 0 1 .running ∧
      k'.cpus 1 = ⟨.started, some 1, true⟩ ∧ (∀ i, i ≠ 0 → i ≠ 1 → k'.status i = .free) ∧
      MemInv k'.mem k'.dirs 0 ∧ k'.mem.Supply 7 ∧ k'.dirs 0 = some g ∧
      k'.mem.word g = k.mem.word g ∧ (k'.envs 0).envParentId = 0#32 := by
  obtain ⟨q, k₁, h₁, hq, hfam₁, hc₁, hs₁, hinv, hsup, hpar, hpid, hrecv⟩ := h.alone.exofork_step
  obtain rfl : q = 1 := Option.some.inj (hq.symm.trans h.next)
  obtain ⟨k₂, h₂, hsame₂⟩ := hfam₁.setStatus_step (show settableStatus 2#32 = some .runnable from rfl)
  have hfam₂ := (hfam₁.setStatus (by decide : EnvStatus.runnable ≠ .free)).congr hsame₂
  have hnext : k₂.nextRunnable 0 = some 1 := by
    refine nextRunnable_run (i := 1) (by decide) hfam₂.child fun j hj => ?_
    obtain rfl : j = 0 := by omega
    rw [show envAt (0 + 0) = 0 from rfl, hfam₂.running]
    decide
  have hdirs₂ : k₂.dirs = k₁.dirs := by
    rw [hsame₂.life.dirs, setStatus_dirs]
  have hmem₂ : k₂.mem = k₁.mem := hsame₂.mem
  have hcpu₂ : k₂.cpus 1 = ⟨.unused, none, false⟩ := by
    rw [hsame₂.life.cpus]
    exact (congrFun hc₁ 1).trans (h.unused 1 (by decide))
  obtain ⟨g', hg, hz, hl⟩ := hfam₂.childDir
  obtain ⟨k₃, h₃, hres⟩ := start_step hcpu₂ hfam₂.lock hnext hg
  have hdirs₃ : k₃.dirs = k₂.dirs := funext fun i => (hres.env i).1
  obtain ⟨hdir, hword⟩ := hpar g h.dir
  have hidle (c' : ℕ) (hc : c' ≠ 0) : (k.cpus c').user = false := by
    rw [h.unused c' hc]
  have hf₁ : FamilyStep k k₁ := ⟨_, h₁, not_meddles hidle, fun c inp hc => by
    cases hc
    exact Or.inl rfl⟩
  have hf₂ : FamilyStep k₁ k₂ := ⟨_, h₂, not_meddles (hc₁.symm ▸ hidle), fun c inp hc => by
    cases hc
    refine Or.inr ⟨rfl, fun e he => ?_⟩
    obtain ⟨hz, -⟩ | ⟨-, rfl, -⟩ := he
    · exact absurd hz hfam₁.id.1
    · change (k₁.envs (envx (k₁.envs 1).envId)).envIpcRecving = false
      rw [hfam₁.id.2]
      exact hrecv⟩
  have hf₃ : FamilyStep k₂ k₃ := ⟨_, h₃, fun hm => hm, fun c inp hc => by cases hc⟩
  refine ⟨k₃, ((hr.step hf₁).step hf₂).step hf₃, ?_, ?_, fun i hi0 hi1 => ?_, ?_, ?_, ?_, ?_, ?_⟩
  · refine ⟨?_, hres.lock, ?_, ?_, by decide, ?_, by decide, ?_, ?_, g', ?_, ?_, ?_⟩
    · rw [hres.cpus, if_neg (by decide), hfam₂.cpu]
    · rw [hres.status, if_neg (by decide), hfam₂.running]
    · rw [hdirs₃]
      exact hfam₂.dir
    · rw [hres.status, if_pos rfl]
    · rw [(hres.env 1).2.2.1]
      exact hfam₂.id
    · rw [(hres.env 1).2.2.2, (hres.env 0).2.2.1, hfam₂.parent]
    · rw [hdirs₃, hg]
    · rw [hres.mem]
      exact hz
    · rw [hres.mem]
      exact hl
  · rw [hres.cpus, if_pos rfl]
  · rw [hres.status, if_neg hi1, hsame₂.life.status, setStatus_status, if_neg hi1, hs₁ i hi1,
      h.others i hi0]
  · rw [hres.mem, hdirs₃, hmem₂, hdirs₂]
    exact hinv
  · rw [hres.mem, hmem₂]
    exact hsup
  · rw [hdirs₃, hdirs₂, hdir]
  · rw [hres.mem, hmem₂, hword]
  · rw [(hres.env 0).2.2.2, hsame₂.parent, Kern.setStatus, setEnv_envs, if_neg (by decide), hpid,
      h.parent]

end Runs
end Sisop
