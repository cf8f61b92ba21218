import Sisop.PageSafety

/-! A parent and its child on two CPUs: what happens when the child waits for a
message, the parent sends one, and the CPU of the child wakes up. -/
namespace Sisop

/-- The environment `p` runs on the CPU 0. Its child `q` has the status `st`, and the
CPU 1 is in the state `cpu`. All other environments are free. -/
structure Pair (k : Kern) (p q : EnvIdx) (st : EnvStatus) (cpu : CpuInfo) (g g' : ℕ) : Prop where
  caller : Caller k 0 p g
  ne : q ≠ p
  cpu : k.cpus 1 = cpu
  child : k.status q = st
  alive : st ≠ .free
  childDir : k.dirs q = some g'
  id : (k.envs q).envId ≠ 0#32 ∧ envx (k.envs q).envId = q
  parent : (k.envs q).envParentId = (k.envs p).envId
  others : ∀ i, i ≠ p → i ≠ q → k.status i = .free

section Pair

variable {k k' : Kern} {c : ℕ} {p q e : EnvIdx} {st : EnvStatus} {cpu : CpuInfo} {g g' : ℕ}
  {dstva srcva perm : Word}

theorem Pair.congr (h : Pair k p q st cpu g g') (hs : SameCore k k') : Pair k' p q st cpu g g' := by
  refine ⟨h.caller.congr hs, h.ne, ?_, ?_, h.alive, ?_, ?_, ?_, fun i hp hq => ?_⟩
  · rw [hs.life.cpus]
    exact h.cpu
  · rw [hs.life.status]
    exact h.child
  · rw [hs.life.dirs]
    exact h.childDir
  · rw [hs.life.envId]
    exact h.id
  · rw [hs.parent, hs.life.envId]
    exact h.parent
  · rw [hs.life.status]
    exact h.others i hp hq

theorem Pair.setMem (h : Pair k p q st cpu g g') (t : Pm) :
    Pair { k with mem := t } p q st cpu g g' :=
  ⟨⟨h.caller.cpu, h.caller.lock, h.caller.running, h.caller.dir⟩, h.ne, h.cpu, h.child, h.alive,
    h.childDir, h.id, h.parent, h.others⟩

/-- The CPU of the child changes. -/
theorem Pair.setCpu (h : Pair k p q st cpu g g') (cpu' : CpuInfo) :
    Pair { k with cpus := Function.update k.cpus 1 cpu' } p q st cpu' g g' := by
  refine ⟨⟨?_, h.caller.lock, h.caller.running, h.caller.dir⟩, h.ne, ?_, h.child, h.alive, h.childDir,
    h.id, h.parent, h.others⟩
  · exact (Function.update_of_ne (by decide : (0 : ℕ) ≠ 1) cpu' k.cpus).trans h.caller.cpu
  · exact Function.update_self 1 cpu' k.cpus

/-- The child changes. -/
theorem Pair.setEnv {st' : EnvStatus} (h : Pair k p q st cpu g g') {f : Env → Env}
    (hst : ∀ env, (f env).envStatus = st') (hd : ∀ env, (f env).envPgdir = env.envPgdir)
    (hid : ∀ env, (f env).envId = env.envId) (hp : ∀ env, (f env).envParentId = env.envParentId)
    (ha : st' ≠ .free) : Pair (k.setEnv q f) p q st' cpu g g' := by
  refine ⟨⟨h.caller.cpu, h.caller.lock, ?_, ?_⟩, h.ne, h.cpu, ?_, ha, ?_, ?_, ?_, fun i hip hiq => ?_⟩
  · rw [setEnv_status, if_neg h.ne.symm]
    exact h.caller.running
  · rw [setEnv_dirs, if_neg h.ne.symm]
    exact h.caller.dir
  · rw [setEnv_status, if_pos rfl, hst]
  · rw [setEnv_dirs, if_pos rfl, hd]
    exact h.childDir
  · rw [setEnv_envId, if_pos rfl, hid]
    exact h.id
  · rw [setEnv_envs, setEnv_envs, if_pos rfl, if_neg h.ne.symm, hp]
    exact h.parent
  · rw [setEnv_status, if_neg hiq]
    exact h.others i hip hiq

/-- The parent may name its child, with or without a permission check. -/
theorem Pair.names (h : Pair k p q st cpu g g') (tf : Trapframe) (checkperm : Bool) :
    Names (k.atSyscall 0 p tf) 0 (k.envs q).envId checkperm q := by
  have hs := (sameCore_atSyscall h.caller.lock 0 p tf)
  have hcur : ((k.atSyscall 0 p tf).cpus 0).cpuEnv = some p := by
    rw [atSyscall_cpus, setCpu_cpus, if_pos rfl, h.caller.cpu]
    rfl
  refine Or.inr ⟨h.id.1, h.id.2.symm, ?_, hs.life.envId q, fun _ => ⟨p, hcur, Or.inr ?_⟩⟩
  · rw [show (k.atSyscall 0 p tf).status = k.status from hs.life.status, h.child]
    exact h.alive
  · exact (hs.parent q).trans (h.parent.trans (hs.life.envId p).symm)

/-- The state in which `sched_halt` leaves the kernel. -/
def Kern.haltedOn (k : Kern) (c : ℕ) : Kern :=
  ({ (k.setCurenv c none).setCpu c fun cpu => { cpu with cpuStatus := .halted } with
    kernelLock := none } : Kern).setCpu c fun cpu => { cpu with user := false }

theorem haltedOn_cpus (i : ℕ) :
    (k.haltedOn c).cpus i = if i = c then ⟨.halted, none, false⟩ else k.cpus i := by
  simp only [Kern.haltedOn, setCpu_cpus, Kern.setCurenv, if_true]
  split_ifs <;> rfl

/-- The scheduler halts the CPU when nobody waits for one but another environment runs. -/
theorem schedYield_halt (hn : ∀ i, k.status i ≠ .runnable)
    (hc : ∀ i, (k.cpus c).cpuEnv = some i → k.status i ≠ .running) (ha : k.status e = .running)
    (hl : k.kernelLock = some c) : schedYield c k = .left (k.haltedOn c) := by
  have hnext : k.nextRunnable (k.searchStart c) = none := by
    refine List.find?_eq_none.mpr fun i _ => ?_
    simpa using hn i
  have hcur : k.curRunning c = none := by
    refine Option.filter_eq_none_iff.mpr fun i hi => ?_
    simpa using hc i hi
  have hawake : decide k.Awake = true := decide_eq_true ⟨e, Or.inr (Or.inl ha)⟩
  have hunlock : envRun.unlockKernel c ((k.setCurenv c none).setCpu c fun cpu =>
      { cpu with cpuStatus := .halted }) = .ret () _ := if_pos hl
  simp only [schedYield, Routine.gets_bind_run, hnext, hcur, schedHalt, hawake, if_true,
    Routine.modify_bind_run, Routine.bind_ret hunlock, Routine.leave_run]
  rfl

/-- The child waits for a message, and its CPU halts. -/
theorem Pair.recv_step (h : Pair k p q .running ⟨.started, some q, true⟩ g g')
    (hd : ¬ (dstva < utop ∧ pgoff dstva ≠ 0)) : ∃ k', Step k (.trap 1 (sysInput 13#32 dstva 0 0 0 0)) k' ∧
      Pair k' p q .notRunnable ⟨.halted, none, false⟩ g g' ∧ k'.mem = k.mem ∧
      (k'.envs q).envIpcRecving = true ∧ (k'.envs q).envIpcDstva = dstva ∧
      (k'.envs q).envIpcPerm = (k.envs q).envIpcPerm := by
  obtain ⟨f, hf⟩ : ∃ f : Env → Env, f = fun env => { env with
    envStatus := .notRunnable
    envIpcRecving := true
    envIpcDstva := dstva
    envTf := { env.envTf with tfRegs := { env.envTf.tfRegs with regEax := 0#32 } } } := ⟨_, rfl⟩
  obtain ⟨k₁, hk₁⟩ : ∃ k₁, k₁ = (k.atSyscall 1 q (sysInput 13#32 dstva 0 0 0 0).tf).setEnv q f := ⟨_, rfl⟩
  have hat : SameCore (k.setEnv q f) { k₁ with cpus := k.cpus, kernelLock := none } := by
    rw [hk₁]
    exact (sameCore_atSyscall h.caller.lock 1 q (sysInput 13#32 dstva 0 0 0 0).tf).setEnv_congr q
      (fun env => show (f env).envStatus = .notRunnable by rw [hf]) (by rw [hf]; exact fun _ => rfl)
      (by rw [hf]; exact fun _ => rfl) (by rw [hf]; exact fun _ => rfl) (by rw [hf]; exact fun _ => rfl)
  have hcpus : (k₁.haltedOn 1).cpus = Function.update k.cpus 1 ⟨.halted, none, false⟩ := by
    funext i
    rw [haltedOn_cpus, Function.update_apply, hk₁, setEnv_cpus, atSyscall_cpus]
    split_ifs with hi
    · rfl
    · rw [setCpu_cpus, if_neg hi]
  have hst (env : Env) : (f env).envStatus = .notRunnable := by rw [hf]
  have hpair := (h.setCpu ⟨.halted, none, false⟩).setEnv hst (by rw [hf]; exact fun _ => rfl)
    (by rw [hf]; exact fun _ => rfl) (by rw [hf]; exact fun _ => rfl) (by decide)
  have hsame : SameCore (({ k with cpus := Function.update k.cpus 1 ⟨.halted, none, false⟩ } :
      Kern).setEnv q f) (k₁.haltedOn 1) := by
    refine ⟨⟨?_, ?_, hat.life.link, hat.life.envId, hat.life.freeList, hcpus, h.caller.lock.symm⟩,
      hat.parent, ?_⟩
    · exact hat.life.status
    · exact hat.life.dirs
    · exact hat.mem
  have hstatus (i : EnvIdx) : k₁.status i = if i = q then .notRunnable else k.status i :=
    (congrFun hat.life.status i).trans (by rw [setEnv_status, hf])
  have hyield : schedYield 1 k₁ = .left (k₁.haltedOn 1) := by
    refine schedYield_halt (e := p) (fun i => ?_) (fun i hi => ?_) ?_ (by rw [hk₁]; rfl)
    · rw [hstatus]
      by_cases hiq : i = q
      · rw [if_pos hiq]
        decide
      · rw [if_neg hiq]
        by_cases hip : i = p
        · rw [hip, h.caller.running]
          decide
        · rw [h.others i hip hiq]
          decide
    · have hq : (k₁.cpus 1).cpuEnv = some q := by
        rw [hk₁, setEnv_cpus, atSyscall_cpus, setCpu_cpus, if_pos rfl, h.cpu]
        rfl
      obtain rfl : q = i := Option.some.inj (hq.symm.trans hi)
      rw [hstatus, if_pos rfl]
      decide
    · rw [hstatus, if_neg h.ne.symm, h.caller.running]
  have hcur : ((k.atSyscall 1 q (sysInput 13#32 dstva 0 0 0 0).tf).cpus 1).cpuEnv = some q := by
    rw [atSyscall_cpus, setCpu_cpus, if_pos rfl, h.cpu]
    rfl
  have hcall : sysIpcRecv 1 dstva (k.atSyscall 1 q (sysInput 13#32 dstva 0 0 0 0).tf) =
      .left (k₁.haltedOn 1) := by
    simp only [sysIpcRecv, if_neg hd, Routine.bind_ret (curenv_run hcur), Routine.modify_bind_run]
    rw [← hf, ← hk₁, Routine.bind_left hyield]
  have hmail : (k₁.haltedOn 1).envs q =
      f ((k.atSyscall 1 q (sysInput 13#32 dstva 0 0 0 0).tf).envs q) := by
    change k₁.envs q = _
    rw [hk₁, setEnv_envs, if_pos rfl]
  have hstep : Step k (.trap 1 (sysInput 13#32 dstva 0 0 0 0)) (k₁.haltedOn 1) :=
    syscall_leave h.cpu h.caller.lock h.child (sysInput_tfCs ..) rfl hcall
  refine ⟨k₁.haltedOn 1, hstep, hpair.congr hsame, hsame.mem, ?_, ?_, ?_⟩
  · rw [hmail, hf]
  · rw [hmail, hf]
  · rw [hmail, hf]
    have hm : (k.atSyscall 1 q (sysInput 13#32 dstva 0 0 0 0).tf).mail = k.mail := atSyscall_mail _
    exact congrArg (fun m => m.2.2.2.2) (congrFun hm q)

/-- The parent sets the status of its child. -/
theorem Pair.setStatus_step {status : Word} {st' : EnvStatus} (h : Pair k p q st cpu g g')
    (hst : settableStatus status = some st') : ∃ k', AnyStep k k' ∧ Pair k' p q st' cpu g g' ∧
      k'.mem = k.mem ∧ k'.mail = k.mail := by
  have hpair : Pair (k.setStatus q st') p q st' cpu g g' :=
    h.setEnv (fun _ => rfl) (fun _ => rfl) (fun _ => rfl) (fun _ => rfl) (settableStatus_ne_free hst)
  obtain ⟨k', hk', hs, hmail⟩ := setStatus_call h.caller.cpu h.caller.lock h.caller.running hst
    (h.names _ true) hpair.caller.running ⟨g, hpair.caller.dir⟩
  exact ⟨k', ⟨_, hk'⟩, hpair.congr hs, hs.mem, hmail⟩

/-- The parent sends a page to its waiting child. -/
theorem Pair.send_step {page : ℕ} {pte : PtePtr} {t : Pm} (h : Pair k p q st cpu g g') (value : Word)
    (hrecv : (k.envs q).envIpcRecving = true) (hdst : (k.envs q).envIpcDstva = dstva)
    (hlt : dstva < utop) (hsrc : srcva < utop) (hargs : pgoff srcva = 0 ∧ CheckPerm perm)
    (hl : pageLookup g srcva k.mem = .ret (some (page, pte)) k.mem)
    (hw : ¬ (has perm pteW ∧ ¬ has (k.mem.load pte) pteW))
    (hi : pageInsert g' page dstva perm k.mem = .ret (.ok ()) t) : ∃ k', AnyStep k k' ∧
      Pair k' p q .runnable cpu g g' ∧ k'.mem = t ∧ (k'.envs q).envIpcPerm = perm := by
  obtain ⟨f, hf⟩ : ∃ f : Env → Env, f = fun env => { env with
    envIpcPerm := perm
    envIpcRecving := false
    envIpcFrom := (k.envs p).envId
    envIpcValue := value
    envStatus := .runnable
    envTf := { env.envTf with tfRegs := { env.envTf.tfRegs with regEax := 0#32 } } } := ⟨_, rfl⟩
  have hst (env : Env) : (f env).envStatus = .runnable := by rw [hf]
  have hpair := (h.setMem t).setEnv hst (by rw [hf]; exact fun _ => rfl)
    (by rw [hf]; exact fun _ => rfl) (by rw [hf]; exact fun _ => rfl) (by decide)
  obtain ⟨ks, hks⟩ : ∃ ks, ks = k.atSyscall 0 p
    (sysInput 12#32 (k.envs q).envId value srcva perm 0).tf := ⟨_, rfl⟩
  have hat : SameCore k { ks with cpus := k.cpus, kernelLock := none } :=
    hks ▸ sameCore_atSyscall h.caller.lock 0 p _
  have hsq : ks.envs q = k.envs q := by
    rw [hks, Kern.atSyscall, setEnv_envs, if_neg h.ne]
    rfl
  have hcur : (ks.cpus 0).cpuEnv = some p := by
    rw [hks, atSyscall_cpus, setCpu_cpus, if_pos rfl, h.caller.cpu]
    rfl
  have hmem : ks.mem = k.mem := hat.mem
  have hdirs : ks.dirs = k.dirs := hat.life.dirs
  have hcdirs : (ks.clearIpcPerm q).dirs = k.dirs := (clearIpcPerm_dirs ks q).trans hdirs
  have hcall : sysIpcTrySend 0 (k.envs q).envId value srcva perm ks =
      .ret (.ok 0#32) (({ ks with mem := t } : Kern).setEnv q f) := by
    have hres : Resolves 0 ks (k.envs q).envId false q := by
      apply envid2env_run
      rw [hks]
      exact h.names _ false
    have hdst' : ((ks.clearIpcPerm q).envs q).envIpcDstva = dstva := by
      rw [clearIpcPerm_dstva, hsq, hdst]
    have hpage : ipcSendPage 0 q srcva perm (ks.clearIpcPerm q) =
        .ret (.ok perm) { ks.clearIpcPerm q with mem := t } := by
      have hlook : mem (pageLookup g srcva) (ks.clearIpcPerm q) =
          .ret (some (page, pte)) (ks.clearIpcPerm q) := by
        refine mem_eq_ret.mpr ⟨ks.mem, ?_, rfl⟩
        change pageLookup g srcva ks.mem = _
        rw [hmem, hl]
      have hins : mem (pageInsert g' page dstva perm) (ks.clearIpcPerm q) =
          .ret (.ok ()) { ks.clearIpcPerm q with mem := t } := by
        apply mem_ret
        change pageInsert g' page dstva perm ks.mem = _
        rw [hmem, hi]
      have hw' : ¬ (has perm pteW ∧ ¬ has ((ks.clearIpcPerm q).mem.load pte) pteW) := by
        change ¬ (has perm pteW ∧ ¬ has (ks.mem.load pte) pteW)
        rwa [hmem]
      rw [ipcSendPage, if_pos hsrc, if_pos hargs, Routine.bind_ret (curenv_run (by exact hcur)),
        Routine.bind_ret (envPgdir_run (g := g) (by rw [hcdirs]; exact h.caller.dir)),
        Routine.bind_ret hlook]
      simp only [Routine.gets_bind_run]
      rw [if_neg hw', Routine.gets_bind_run, hdst', if_pos hlt,
        Routine.bind_ret (envPgdir_run ((congrFun hcdirs q).trans h.childDir)), Routine.bind_ret hins]
      rfl
    rw [sysIpcTrySend_run hres (by rw [hsq]; exact hrecv), Routine.bind_ret hpage]
    simp only [ipcDeliver]
    rw [Routine.bind_ret (curenv_run (by exact hcur))]
    simp only [Routine.gets_bind_run, Routine.modify_bind_run, Routine.pure_run]
    have hid : ((ks.clearIpcPerm q).envs p).envId = (k.envs p).envId := by
      rw [Kern.clearIpcPerm, setEnv_envs, if_neg h.ne.symm]
      exact hat.life.envId p
    rw [hid, hf]
    simp only [Kern.clearIpcPerm, Kern.setEnv, Function.update_idem, Function.update_self]
  rw [hks] at hcall
  obtain ⟨k', hk', hs, hmail⟩ := call_step (f := fun k => ({ k with mem := t } : Kern).setEnv q f)
    12#32 (k.envs q).envId value srcva perm 0 h.caller.cpu h.caller.lock h.caller.running hcall
    (fun _ _ hc => (hc.setMem t).setEnv_congr q hst
      (by rw [hf]; exact fun _ => rfl) (by rw [hf]; exact fun _ => rfl)
      (by rw [hf]; exact fun _ => rfl) (by rw [hf]; exact fun _ => rfl))
    (fun _ _ _ => rfl) (fun _ => ⟨rfl, rfl⟩) hpair.caller.running ⟨g, hpair.caller.dir⟩
  refine ⟨k', ⟨_, hk'⟩, hpair.congr hs, hs.mem, ?_⟩
  have hq := congrArg (fun m => m.2.2.2.2) (congrFun hmail q)
  rw [setEnv_mail, if_pos rfl, hf] at hq
  exact hq

end Pair

section Wake

variable {k : Kern} {g g' : ℕ}

/-- The halted CPU wakes up and runs the child. -/
theorem Pair.wake_step (h : Pair k 0 1 .runnable ⟨.halted, none, false⟩ g g') : ∃ k', AnyStep k k' ∧
    Pair k' 0 1 .running ⟨.started, some 1, true⟩ g g' ∧ k'.mem = k.mem ∧ k'.mail = k.mail := by
  have hnext : k.nextRunnable 0 = some 1 := by
    refine nextRunnable_run (i := 1) (by decide) h.child fun j hj => ?_
    obtain rfl : j = 0 := by omega
    rw [show envAt (0 + 0) = 0 from rfl, h.caller.running]
    decide
  obtain ⟨k', hk', hres, hmail⟩ := Sisop.wake_step h.cpu h.caller.lock hnext h.childDir
  refine ⟨k', ⟨_, hk'⟩, ⟨⟨?_, hres.lock, ?_, ?_⟩, h.ne, ?_, ?_, by decide, ?_, ?_, ?_, fun i hi0 hi1 => ?_⟩,
    hres.mem, hmail⟩
  · rw [hres.cpus, if_neg (by decide), h.caller.cpu]
  · rw [hres.status, if_neg (by decide), h.caller.running]
  · rw [(hres.env 0).1, h.caller.dir]
  · rw [hres.cpus, if_pos rfl]
  · rw [hres.status, if_pos rfl]
  · rw [(hres.env 1).1, h.childDir]
  · rw [(hres.env 1).2.2.1]
    exact h.id
  · rw [(hres.env 1).2.2.2, (hres.env 0).2.2.1, h.parent]
  · rw [hres.status, if_neg hi1, h.others i hi0 hi1]

/-- A machine boots, and starts a parent and its child on two CPUs. No user mapping of
theirs lies below the stack, and pages are left. -/
theorem pair_booted : ∃ k g g', Reachable BootedFit FamilyStep k ∧
    Pair k 0 1 .running ⟨.started, some 1, true⟩ g g' ∧ MemInv k.mem k.dirs 0 ∧ k.mem.Supply 7 ∧
    (∀ d < 954, k.mem.word g d = 0#32 ∧ k.mem.word g' d = 0#32) ∧
    (k.envs 0).envParentId = 0#32 := by
  obtain ⟨k₀, g, hk₀, h⟩ := first_bootedFit
  obtain ⟨k, hk, hfam, hcpu, hfree, hinv, hsup, hg, hw, hpar⟩ := h.start_child (.init hk₀)
  obtain ⟨g', hgc, hzc, -⟩ := hfam.childDir
  refine ⟨k, g, g', hk, ⟨⟨hfam.cpu, hfam.lock, hfam.running, hg⟩, hfam.ne, hcpu, hfam.child, hfam.alive,
    hgc, hfam.id, hfam.parent, hfree⟩, hinv, hsup, fun d hd => ⟨?_, ?_⟩, hpar⟩
  · rw [hw]
    exact h.blank d hd
  · exact hzc d (lt_trans hd (by decide))

end Wake
end Sisop
