import Sisop.Env

/-! The big kernel lock. Kernel code is modelled by its control flow: where it takes
and releases the lock, where it reads and writes `cpu_status`, where it starts another
processor, and how it ends. What the data of the environments decides is left open.
The processors take their steps in any order. -/
namespace Sisop

/-- Control flow. `user`, `hlt` and `stop` do not return: the `iret` to user code, the
`hlt` of an idle processor, and a panic or the monitor. -/
inductive Code where
  | ret
  | lock (next : Code)
  | unlock (next : Code)
  /-- `if (xchg(&thiscpu->cpu_status, CPU_STARTED) == CPU_HALTED) halted else other`. -/
  | xchgStarted (halted other : Code)
  /-- `xchg(&thiscpu->cpu_status, CPU_HALTED)`. -/
  | xchgHalted (next : Code)
  /-- A condition on the kernel's data. -/
  | branch (yes no : Code)
  /-- `lapic_startap(cpu)`. -/
  | startap (cpu : ℕ) (next : Code)
  /-- `while (cpu->cpu_status != CPU_STARTED)`. -/
  | await (cpu : ℕ) (next : Code)
  | user
  | hlt
  | stop

namespace Code

/-- Go on with `d` where `c` returns. -/
def andThen : Code → Code → Code
  | ret, d => d
  | lock c, d => lock (c.andThen d)
  | unlock c, d => unlock (c.andThen d)
  | xchgStarted a b, d => xchgStarted (a.andThen d) (b.andThen d)
  | xchgHalted c, d => xchgHalted (c.andThen d)
  | branch a b, d => branch (a.andThen d) (b.andThen d)
  | startap i c, d => startap i (c.andThen d)
  | await i c, d => await i (c.andThen d)
  | user, _ => user
  | hlt, _ => hlt
  | stop, _ => stop

/-- The processors that the code starts. -/
def targets : Code → List ℕ
  | ret => []
  | lock c => c.targets
  | unlock c => c.targets
  | xchgStarted a b => a.targets ++ b.targets
  | xchgHalted c => c.targets
  | branch a b => a.targets ++ b.targets
  | startap i c => i :: c.targets
  | await _ c => c.targets
  | user => []
  | hlt => []
  | stop => []

/-- From here, with the lock held or not and the given `cpu_status`, the code takes the
lock only when it does not hold it and releases it only when it does; it leaves the kernel
without it, and with the `cpu_status` for what follows; and it returns in `Q`. -/
def Spec (Q : Bool → CpuStatus → Prop) : Bool → CpuStatus → Code → Prop
  | held, st, ret => Q held st
  | held, st, lock c => held = false ∧ c.Spec Q true st
  | held, st, unlock c => held = true ∧ c.Spec Q false st
  | held, st, xchgStarted a b =>
    (st = .halted → a.Spec Q held .started) ∧ (st ≠ .halted → b.Spec Q held .started)
  | held, _, xchgHalted c => c.Spec Q held .halted
  | held, st, branch a b => a.Spec Q held st ∧ b.Spec Q held st
  | held, st, startap _ c => c.Spec Q held st
  | held, st, await _ c => c.Spec Q held st
  | held, st, user => held = false ∧ st = .started
  | held, st, hlt => held = false ∧ st = .halted
  | _, _, stop => True

/-- The code is in order, and does not return. -/
def Ok (held : Bool) (st : CpuStatus) (c : Code) : Prop := c.Spec (fun _ _ => False) held st

section Rules

variable {Q R : Bool → CpuStatus → Prop} {held : Bool} {st : CpuStatus} {c d : Code}

theorem Spec.andThen (hc : c.Spec R held st) (hd : ∀ held st, R held st → d.Spec Q held st) :
    (c.andThen d).Spec Q held st := by
  induction c generalizing held st with
  | ret => exact hd held st hc
  | lock c ih => exact ⟨hc.1, ih hc.2⟩
  | unlock c ih => exact ⟨hc.1, ih hc.2⟩
  | xchgStarted a b iha ihb => exact ⟨fun h => iha (hc.1 h), fun h => ihb (hc.2 h)⟩
  | xchgHalted c ih => exact ih hc
  | branch a b iha ihb => exact ⟨iha hc.1, ihb hc.2⟩
  | startap i c ih => exact ih hc
  | await i c ih => exact ih hc
  | user => exact hc
  | hlt => exact hc
  | stop => trivial

/-- Code that does not return meets any postcondition. -/
theorem Ok.spec (hc : c.Ok held st) : c.Spec Q held st := by
  induction c generalizing held st with
  | ret => exact absurd hc id
  | lock c ih => exact ⟨hc.1, ih hc.2⟩
  | unlock c ih => exact ⟨hc.1, ih hc.2⟩
  | xchgStarted a b iha ihb => exact ⟨fun h => iha (hc.1 h), fun h => ihb (hc.2 h)⟩
  | xchgHalted c ih => exact ih hc
  | branch a b iha ihb => exact ⟨iha hc.1, ihb hc.2⟩
  | startap i c ih => exact ih hc
  | await i c ih => exact ih hc
  | user => exact hc
  | hlt => exact hc
  | stop => trivial

theorem targets_ret : ret.targets = [] := rfl

theorem targets_stop : stop.targets = [] := rfl

theorem targets_lock (c : Code) : (lock c).targets = c.targets := rfl

theorem targets_branch (a b : Code) : (branch a b).targets = a.targets ++ b.targets := rfl

theorem targets_xchgStarted (a b : Code) : (xchgStarted a b).targets = a.targets ++ b.targets := rfl

theorem targets_andThen (hd : d.targets = []) : c.targets = [] → (c.andThen d).targets = [] := by
  induction c with
  | ret => exact fun _ => hd
  | lock c ih => exact ih
  | unlock c ih => exact ih
  | xchgStarted a b iha ihb =>
    intro h
    obtain ⟨ha, hb⟩ := List.append_eq_nil_iff.mp h
    exact List.append_eq_nil_iff.mpr ⟨iha ha, ihb hb⟩
  | xchgHalted c ih => exact ih
  | branch a b iha ihb =>
    intro h
    obtain ⟨ha, hb⟩ := List.append_eq_nil_iff.mp h
    exact List.append_eq_nil_iff.mpr ⟨iha ha, ihb hb⟩
  | startap i c ih => exact fun h => absurd h (List.cons_ne_nil _ _)
  | await i c ih => exact ih
  | user => exact id
  | hlt => exact id
  | stop => exact id

end Rules

/-- `env_run(e)`. -/
def envRun : Code := unlock user

/-- `sched_halt()`. -/
def schedHalt : Code := branch (xchgHalted (unlock hlt)) stop

/-- The rounds of the search of `sched_yield`. -/
def search : ℕ → Code → Code
  | 0, rest => rest
  | n+1, rest => branch envRun (search n rest)

/-- `sched_yield()`. -/
def schedYield : Code := search (nenv - 1) (branch envRun schedHalt)

/-- `env_destroy(e)`. -/
def envDestroy : Code := branch ret (branch schedYield ret)

/-- `user_mem_assert(env, va, len, perm)`. -/
def userMemAssert : Code := branch envDestroy ret

/-- `sys_cputs(s, len)`. -/
def sysCputs : Code := userMemAssert

/-- `sys_env_destroy(envid)`. -/
def sysEnvDestroy : Code := branch ret envDestroy

/-- `sys_yield()`. -/
def sysYield : Code := schedYield

/-- `sys_ipc_recv(dstva)`. -/
def sysIpcRecv : Code := branch ret sysYield

/-- `syscall(..)`. The system calls that are not among these four return. -/
def syscall : Code :=
  branch sysCputs (branch sysEnvDestroy (branch sysYield (branch sysIpcRecv (branch ret stop))))

/-- `page_fault_handler(tf)`. -/
def pageFaultHandler : Code :=
  branch stop ((branch envDestroy ret).andThen (userMemAssert.andThen envRun))

/-- `trap_dispatch(tf)`: a breakpoint, a page fault, a system call, a spurious interrupt, the
timer, and any other trap. -/
def trapDispatch : Code :=
  branch (branch stop ret) (branch pageFaultHandler (branch syscall (branch ret
    (branch schedYield (branch stop envDestroy)))))

/-- The part of `trap` for traps from user mode. -/
def trapFromUser : Code := branch stop (lock (branch schedYield ret))

/-- `trap(tf)`, from user mode or not. Before the lock it may find that the kernel has panicked,
and an assertion may fail. -/
def trap (fromUser : Bool) : Code :=
  branch stop ((xchgStarted (lock ret) ret).andThen ((branch stop ret).andThen
    ((if fromUser then trapFromUser else ret).andThen
      (trapDispatch.andThen (branch envRun schedYield)))))

/-- `mp_main()`. -/
def mpMain : Code := xchgStarted (lock schedYield) (lock schedYield)

/-- `boot_aps()`, for the other processors. -/
def bootAps : List ℕ → Code
  | [] => ret
  | c :: cs => startap c (await c (bootAps cs))

/-- `i386_init()`: creating an environment may panic. -/
def i386Init (aps : List ℕ) : Code :=
  lock ((bootAps aps).andThen (branch stop schedYield))

section Functions

variable {Q : Bool → CpuStatus → Prop} {st : CpuStatus}

/-- The CPU is started, and holds the lock. -/
def InLock (held : Bool) (st : CpuStatus) : Prop := held = true ∧ st = .started

theorem envRun_ok : envRun.Ok true .started := ⟨rfl, rfl, rfl⟩

theorem schedHalt_ok : schedHalt.Ok true st := ⟨⟨rfl, rfl, rfl⟩, trivial⟩

theorem search_ok {rest : Code} (hr : rest.Ok true .started) (n : ℕ) :
    (search n rest).Ok true .started := by
  induction n with
  | zero => exact hr
  | succ n ih => exact ⟨envRun_ok, ih⟩

theorem search_targets {rest : Code} (hr : rest.targets = []) (n : ℕ) :
    (search n rest).targets = [] := by
  induction n with
  | zero => exact hr
  | succ n ih => exact ih

theorem schedYield_ok : schedYield.Ok true .started := by
  have hrest : (branch envRun schedHalt).Ok true .started := ⟨envRun_ok, schedHalt_ok⟩
  exact search_ok hrest _

theorem schedYield_targets : schedYield.targets = [] := search_targets rfl _

-- from here on the rounds of its search do not matter
attribute [irreducible] schedYield

theorem envDestroy_spec : envDestroy.Spec InLock true .started :=
  ⟨⟨rfl, rfl⟩, schedYield_ok.spec, rfl, rfl⟩

theorem userMemAssert_spec : userMemAssert.Spec InLock true .started :=
  ⟨envDestroy_spec, rfl, rfl⟩

theorem syscall_spec : syscall.Spec InLock true .started :=
  ⟨userMemAssert_spec, ⟨⟨rfl, rfl⟩, envDestroy_spec⟩, schedYield_ok.spec,
    ⟨⟨rfl, rfl⟩, schedYield_ok.spec⟩, ⟨rfl, rfl⟩, trivial⟩

theorem pageFaultHandler_ok : pageFaultHandler.Ok true .started := by
  have hrest : (userMemAssert.andThen envRun).Ok true .started := by
    apply userMemAssert_spec.andThen
    rintro _ _ ⟨rfl, rfl⟩
    exact envRun_ok
  have hdestroy : (branch envDestroy ret).Spec InLock true .started := ⟨envDestroy_spec, rfl, rfl⟩
  refine ⟨trivial, hdestroy.andThen ?_⟩
  rintro _ _ ⟨rfl, rfl⟩
  exact hrest

theorem trapDispatch_spec : trapDispatch.Spec InLock true .started :=
  ⟨⟨trivial, rfl, rfl⟩, pageFaultHandler_ok.spec, syscall_spec, ⟨rfl, rfl⟩, schedYield_ok.spec,
    trivial, envDestroy_spec⟩

theorem trapFromUser_spec : trapFromUser.Spec InLock false .started :=
  ⟨trivial, rfl, schedYield_ok.spec, rfl, rfl⟩

/-- What is left of `trap` once the lock is taken. -/
theorem afterDispatch_ok : (trapDispatch.andThen (branch envRun schedYield)).Ok true .started := by
  apply trapDispatch_spec.andThen
  rintro _ _ ⟨rfl, rfl⟩
  exact ⟨envRun_ok, schedYield_ok⟩

/-- A trap from user mode takes the lock once, in the branch for user mode. -/
theorem trap_user_ok : (trap true).Ok false .started := by
  refine ⟨trivial, fun h => (by cases h), fun _ => ⟨trivial, ?_⟩⟩
  apply trapFromUser_spec.andThen
  rintro _ _ ⟨rfl, rfl⟩
  exact afterDispatch_ok

/-- A trap that wakes a halted CPU takes it once, at the beginning. -/
theorem trap_halted_ok : (trap false).Ok false .halted :=
  ⟨trivial, fun _ => ⟨rfl, trivial, afterDispatch_ok⟩, fun h => absurd rfl h⟩

theorem mpMain_ok : mpMain.Ok false st := ⟨fun _ => ⟨rfl, schedYield_ok⟩, fun _ => ⟨rfl, schedYield_ok⟩⟩

theorem i386Init_ok (aps : List ℕ) : (i386Init aps).Ok false .started := by
  refine ⟨rfl, ?_⟩
  have hboot : (bootAps aps).Spec InLock true .started := by
    induction aps with
    | nil => exact ⟨rfl, rfl⟩
    | cons c cs ih => exact ih
  apply hboot.andThen
  rintro _ _ ⟨rfl, rfl⟩
  exact ⟨trivial, schedYield_ok⟩

theorem envDestroy_targets : envDestroy.targets = [] := by
  simp only [envDestroy, targets_branch, targets_ret, schedYield_targets, List.append_nil]

theorem userMemAssert_targets : userMemAssert.targets = [] := by
  rw [userMemAssert, targets_branch, envDestroy_targets, targets_ret, List.append_nil]

theorem trap_targets (fromUser : Bool) : (trap fromUser).targets = [] := by
  have hsyscall : syscall.targets = [] := by
    simp only [syscall, sysCputs, sysEnvDestroy, sysYield, sysIpcRecv, targets_branch, targets_ret, targets_stop,
      schedYield_targets, envDestroy_targets, userMemAssert_targets, List.append_nil]
  have hfault : pageFaultHandler.targets = [] := by
    have hdestroy : (branch envDestroy ret).targets = [] := by
      rw [targets_branch, envDestroy_targets, targets_ret, List.append_nil]
    have hrest : (userMemAssert.andThen envRun).targets = [] := targets_andThen rfl userMemAssert_targets
    rw [pageFaultHandler, targets_branch, targets_stop, targets_andThen hrest hdestroy, List.append_nil]
  have hdispatch : trapDispatch.targets = [] := by
    simp only [trapDispatch, targets_branch, targets_ret, targets_stop, hfault, hsyscall, schedYield_targets, envDestroy_targets,
      List.append_nil]
  have huser : (if fromUser then trapFromUser else ret).targets = [] := by
    cases fromUser with
    | true => simp only [if_true, trapFromUser, targets_branch, targets_lock, targets_ret, targets_stop, schedYield_targets, List.append_nil]
    | false => rfl
  have hend : (branch envRun schedYield).targets = [] := schedYield_targets
  exact targets_andThen (targets_andThen (targets_andThen (targets_andThen hend hdispatch) huser) rfl) rfl

theorem mpMain_targets : mpMain.targets = [] := by
  rw [mpMain, targets_xchgStarted, targets_lock, schedYield_targets, List.append_nil]

theorem i386Init_targets (aps : List ℕ) : (i386Init aps).targets = aps := by
  have hrest : (branch stop schedYield).targets = [] := schedYield_targets
  change ((bootAps aps).andThen (branch stop schedYield)).targets = aps
  induction aps with
  | nil => exact hrest
  | cons c cs ih => exact congrArg (c :: ·) ih

end Functions
end Code

/-- What a processor is doing. -/
inductive CpuMode where
  | off
  | kernel (rest : Code)
  | user
  | halted
  | stopped

/-- A processor. `inside` says that it has acquired the lock and has not released it. -/
structure Cpu where
  mode : CpuMode
  status : CpuStatus
  inside : Bool

/-- The processors, and the holder of the lock as the lock records it. -/
structure Smp where
  cpus : ℕ → Cpu
  holder : Option ℕ

namespace Smp

def set (m : Smp) (c : ℕ) (cpu : Cpu) : Smp := { m with cpus := Function.update m.cpus c cpu }

/-- The processor `c` goes on with `rest`. -/
def goto (m : Smp) (c : ℕ) (rest : Code) : Smp := m.set c { m.cpus c with mode := .kernel rest }

end Smp

open Code (trap mpMain i386Init)

/-- The steps of the processors. `spin_lock` and `spin_unlock` panic when the processor holds
the lock already, or does not hold it; a processor that finds the lock taken by another one
spins, and makes no step. A fault in the kernel panics as well. -/
inductive SmpStep : Smp → Smp → Prop
  | trap {m : Smp} {c : ℕ} (h : (m.cpus c).mode = .user) : SmpStep m (m.goto c (trap true))
  | timer {m : Smp} {c : ℕ} (h : (m.cpus c).mode = .halted) : SmpStep m (m.goto c (trap false))
  | lock {m : Smp} {c : ℕ} {k : Code} (h : (m.cpus c).mode = .kernel (.lock k))
      (hl : m.holder = none) :
      SmpStep m { m.set c { m.cpus c with mode := .kernel k, inside := true } with holder := some c }
  | lockPanic {m : Smp} {c : ℕ} {k : Code} (h : (m.cpus c).mode = .kernel (.lock k))
      (hl : m.holder = some c) : SmpStep m (m.set c { m.cpus c with mode := .stopped })
  | unlock {m : Smp} {c : ℕ} {k : Code} (h : (m.cpus c).mode = .kernel (.unlock k))
      (hl : m.holder = some c) :
      SmpStep m { m.set c { m.cpus c with mode := .kernel k, inside := false } with holder := none }
  | unlockPanic {m : Smp} {c : ℕ} {k : Code} (h : (m.cpus c).mode = .kernel (.unlock k))
      (hl : m.holder ≠ some c) : SmpStep m (m.set c { m.cpus c with mode := .stopped })
  | xchgStarted {m : Smp} {c : ℕ} {a b : Code} (h : (m.cpus c).mode = .kernel (.xchgStarted a b)) :
      SmpStep m (m.set c { m.cpus c with
        mode := .kernel (if (m.cpus c).status = .halted then a else b), status := .started })
  | xchgHalted {m : Smp} {c : ℕ} {k : Code} (h : (m.cpus c).mode = .kernel (.xchgHalted k)) :
      SmpStep m (m.set c { m.cpus c with mode := .kernel k, status := .halted })
  | yes {m : Smp} {c : ℕ} {a b : Code} (h : (m.cpus c).mode = .kernel (.branch a b)) :
      SmpStep m (m.goto c a)
  | no {m : Smp} {c : ℕ} {a b : Code} (h : (m.cpus c).mode = .kernel (.branch a b)) :
      SmpStep m (m.goto c b)
  | startap {m : Smp} {c i : ℕ} {k : Code} (h : (m.cpus c).mode = .kernel (.startap i k)) :
      SmpStep m ((m.goto c k).set i ⟨.kernel mpMain, (m.cpus i).status, false⟩)
  | await {m : Smp} {c i : ℕ} {k : Code} (h : (m.cpus c).mode = .kernel (.await i k))
      (hs : (m.cpus i).status = .started) : SmpStep m (m.goto c k)
  | iret {m : Smp} {c : ℕ} (h : (m.cpus c).mode = .kernel .user) :
      SmpStep m (m.set c { m.cpus c with mode := .user })
  | hlt {m : Smp} {c : ℕ} (h : (m.cpus c).mode = .kernel .hlt) :
      SmpStep m (m.set c { m.cpus c with mode := .halted })
  | stop {m : Smp} {c : ℕ} {k : Code} (h : (m.cpus c).mode = .kernel k) :
      SmpStep m (m.set c { m.cpus c with mode := .stopped })

/-- The processor `b` of `ncpu` processors enters `i386_init`, up to its `lock_kernel`; the
others are off. `mp_init` has marked the boot processor as started. -/
def SmpBoot (ncpu b : ℕ) (m : Smp) : Prop :=
  m.holder = none ∧ ∀ c, m.cpus c =
    if c = b then ⟨.kernel (i386Init ((List.range ncpu).filter (· ≠ b))), .started, false⟩
    else ⟨.off, .unused, false⟩

/-- A processor's code is in order for where it stands. -/
def Cpu.Ok (cpu : Cpu) : Prop :=
  match cpu.mode with
  | .off => cpu.inside = false
  | .kernel rest => rest.Ok cpu.inside cpu.status
  | .user => cpu.inside = false ∧ cpu.status = .started
  | .halted => cpu.inside = false ∧ cpu.status = .halted
  | .stopped => True

/-- The processors that a processor is going to start. -/
def Cpu.targets (cpu : Cpu) : List ℕ :=
  match cpu.mode with
  | .kernel rest => rest.targets
  | _ => []

/-- The invariant: the lock records who is inside, all code is in order, and only the boot
processor starts others, each of them while it is off. -/
structure LockOk (b : ℕ) (m : Smp) : Prop where
  held : ∀ c, (m.cpus c).inside = true ↔ m.holder = some c
  cpu : ∀ c, (m.cpus c).Ok
  quiet : ∀ c, c ≠ b → (m.cpus c).targets = []
  off : ∀ i ∈ (m.cpus b).targets, (m.cpus i).mode = .off
  nodup : (m.cpus b).targets.Nodup

section Invariant

variable {b c ncpu : ℕ} {m m' : Smp} {cpu : Cpu}

theorem set_cpus (m : Smp) (c i : ℕ) (cpu : Cpu) :
    (m.set c cpu).cpus i = if i = c then cpu else m.cpus i := by
  simp only [Smp.set, Function.update_apply]

theorem SmpBoot.lockOk (h : SmpBoot ncpu b m) : LockOk b m := by
  obtain ⟨hl, hc⟩ := h
  have htargets : (m.cpus b).targets = (List.range ncpu).filter (· ≠ b) := by
    rw [hc, if_pos rfl]
    exact Code.i386Init_targets _
  constructor
  · intro c
    rw [hc, hl]
    split_ifs <;> simp
  · intro c
    rw [hc]
    split_ifs
    · exact Code.i386Init_ok _
    · exact rfl
  · intro c hcb
    rw [hc, if_neg hcb]
    rfl
  · intro i hi
    rw [htargets, List.mem_filter, decide_eq_true_eq] at hi
    rw [hc, if_neg hi.2]
  · rw [htargets]
    exact List.Nodup.filter _ List.nodup_range

/-- A step of one processor that leaves the lock as it is: the processor starts no one
it was not going to start. -/
theorem LockOk.set (h : LockOk b m) (hin : cpu.inside = (m.cpus c).inside) (hok : cpu.Ok)
    (hon : (m.cpus c).mode ≠ .off) (ht : cpu.targets.Sublist (m.cpus c).targets) :
    LockOk b (m.set c cpu) := by
  have hb : ((m.set c cpu).cpus b).targets.Sublist (m.cpus b).targets := by
    rw [set_cpus]
    split_ifs with hbc
    · rw [hbc]
      exact ht
    · exact List.Sublist.refl _
  constructor
  · intro i
    rw [set_cpus]
    split_ifs with hi
    · rw [hi, hin]
      exact h.held c
    · exact h.held i
  · intro i
    rw [set_cpus]
    split_ifs
    · exact hok
    · exact h.cpu i
  · intro i hib
    rw [set_cpus]
    split_ifs with hi
    · have hq := h.quiet c (hi ▸ hib)
      rw [hq] at ht
      exact List.sublist_nil.mp ht
    · exact h.quiet i hib
  · intro i hi
    have hoff := h.off i (hb.subset hi)
    rw [set_cpus, if_neg]
    · exact hoff
    · rintro rfl
      exact hon hoff
  · exact h.nodup.sublist hb

/-- A processor inside is the only one, and the one that the lock records. -/
theorem LockOk.inside_unique (h : LockOk b m) {c c' : ℕ} (hc : (m.cpus c).inside = true)
    (hc' : (m.cpus c').inside = true) : c = c' :=
  Option.some.inj (((h.held c).mp hc).symm.trans ((h.held c').mp hc'))

theorem LockOk.code (h : LockOk b m) {k : Code} (hk : (m.cpus c).mode = .kernel k) :
    k.Ok (m.cpus c).inside (m.cpus c).status ∧ (m.cpus c).targets = k.targets := by
  have ho := h.cpu c
  unfold Cpu.Ok at ho
  unfold Cpu.targets
  rw [hk] at ho ⊢
  exact ⟨ho, rfl⟩

/-- The next code of a processor that stays in the kernel and neither takes nor releases
the lock. -/
theorem LockOk.goto (h : LockOk b m) {k rest : Code} (hk : (m.cpus c).mode = .kernel k)
    {st : CpuStatus} (hok : rest.Ok (m.cpus c).inside st) (ht : rest.targets.Sublist k.targets) :
    LockOk b (m.set c ⟨.kernel rest, st, (m.cpus c).inside⟩) := by
  apply h.set
  · rfl
  · exact hok
  · rw [hk]
    exact CpuMode.noConfusion
  · rw [(h.code hk).2]
    exact ht

/-- A processor that leaves the kernel, for good or not. -/
theorem LockOk.leave (h : LockOk b m) {k : Code} (hk : (m.cpus c).mode = .kernel k)
    {mode : CpuMode} (hok : Cpu.Ok { m.cpus c with mode := mode })
    (ht : Cpu.targets { m.cpus c with mode := mode } = []) :
    LockOk b (m.set c { m.cpus c with mode := mode }) := by
  apply h.set
  · rfl
  · exact hok
  · rw [hk]
    exact CpuMode.noConfusion
  · rw [ht]
    exact List.nil_sublist _

/-- A processor that comes in from user code or from its halt. -/
theorem LockOk.enter (h : LockOk b m) {rest : Code} (hon : (m.cpus c).mode ≠ .off)
    (hok : rest.Ok (m.cpus c).inside (m.cpus c).status) (ht : rest.targets = []) :
    LockOk b (m.goto c rest) := by
  apply h.set
  · rfl
  · exact hok
  · exact hon
  · change rest.targets.Sublist _
    rw [ht]
    exact List.nil_sublist _

/-- Who is inside, and what the lock records, when a processor takes or releases it. -/
theorem LockOk.relock (h : LockOk b m) {k rest : Code} (hk : (m.cpus c).mode = .kernel k)
    {inside : Bool} {holder : Option ℕ} (hok : rest.Ok inside (m.cpus c).status)
    (ht : rest.targets = k.targets) (hc : inside = true ↔ holder = some c)
    (hi : ∀ i, i ≠ c → ((m.cpus i).inside = true ↔ holder = some i)) :
    LockOk b { m.set c ⟨.kernel rest, (m.cpus c).status, inside⟩ with holder := holder } := by
  have hcpus (i : ℕ) : (m.set c ⟨.kernel rest, (m.cpus c).status, inside⟩).cpus i =
      if i = c then ⟨.kernel rest, (m.cpus c).status, inside⟩ else m.cpus i := set_cpus m c i _
  have htargets (i : ℕ) : ((m.set c ⟨.kernel rest, (m.cpus c).status, inside⟩).cpus i).targets =
      (m.cpus i).targets := by
    rw [hcpus]
    split_ifs with hic
    · rw [hic, (h.code hk).2, ← ht]
      rfl
    · rfl
  constructor
  · intro i
    change ((m.set c _).cpus i).inside = true ↔ holder = some i
    rw [hcpus]
    split_ifs with hic
    · rw [hic]
      exact hc
    · exact hi i hic
  · intro i
    change ((m.set c _).cpus i).Ok
    rw [hcpus]
    split_ifs
    · exact hok
    · exact h.cpu i
  · intro i hib
    exact (htargets i).trans (h.quiet i hib)
  · intro i hit
    have hoff := h.off i (htargets b ▸ hit)
    change ((m.set c _).cpus i).mode = .off
    rw [hcpus, if_neg]
    · exact hoff
    · rintro rfl
      rw [hk] at hoff
      cases hoff
  · change ((m.set c _).cpus b).targets.Nodup
    rw [htargets]
    exact h.nodup

/-- The boot processor starts another one. -/
theorem LockOk.startap (h : LockOk b m) {i : ℕ} {k : Code}
    (hk : (m.cpus c).mode = .kernel (.startap i k)) :
    LockOk b ((m.goto c k).set i ⟨.kernel mpMain, (m.cpus i).status, false⟩) := by
  obtain ⟨hok, ht⟩ := h.code hk
  have hcb : c = b := by
    by_contra hcb
    rw [h.quiet c hcb] at ht
    cases ht
  subst hcb
  have hoff : (m.cpus i).mode = .off := h.off i (ht ▸ List.mem_cons_self)
  have hin : (m.cpus i).inside = false := by
    have ho := h.cpu i
    unfold Cpu.Ok at ho
    rwa [hoff] at ho
  have hic : i ≠ c := by
    rintro rfl
    rw [hk] at hoff
    cases hoff
  have hnd := h.nodup
  rw [ht] at hnd
  obtain ⟨hik, hnd⟩ := List.nodup_cons.mp hnd
  have h₁ : LockOk c (m.goto c k) := h.goto hk hok (List.sublist_cons_self i k.targets)
  have hcpus (j : ℕ) : ((m.goto c k).set i ⟨.kernel mpMain, (m.cpus i).status, false⟩).cpus j =
      if j = i then ⟨.kernel mpMain, (m.cpus i).status, false⟩ else (m.goto c k).cpus j := set_cpus _ _ _ _
  have hc : (((m.goto c k).set i ⟨.kernel mpMain, (m.cpus i).status, false⟩).cpus c).targets = k.targets := by
    rw [hcpus, if_neg hic.symm, Smp.goto, set_cpus, if_pos rfl]
    rfl
  constructor
  · intro j
    rw [hcpus]
    by_cases hj : j = i
    · have hheld := h.held i
      rw [hin] at hheld
      rw [if_pos hj, hj]
      exact hheld
    · rw [if_neg hj]
      exact h₁.held j
  · intro j
    rw [hcpus]
    split_ifs
    · exact Code.mpMain_ok
    · exact h₁.cpu j
  · intro j hjc
    rw [hcpus]
    split_ifs
    · exact Code.mpMain_targets
    · exact h₁.quiet j hjc
  · intro j hj
    rw [hc] at hj
    have hji : j ≠ i := fun hji => hik (hji ▸ hj)
    have hjoff : (m.cpus j).mode = .off := h.off j (ht ▸ List.mem_cons_of_mem i hj)
    have hjc : j ≠ c := by
      rintro rfl
      rw [hk] at hjoff
      cases hjoff
    rw [hcpus, if_neg hji, Smp.goto, set_cpus, if_neg hjc]
    exact hjoff
  · rw [hc]
    exact hnd

theorem LockOk.step (h : LockOk b m) (hs : SmpStep m m') : LockOk b m' := by
  cases hs with
  | @trap c hm =>
    have ho := h.cpu c
    unfold Cpu.Ok at ho
    rw [hm] at ho
    apply h.enter (by rw [hm]; exact CpuMode.noConfusion) _ (Code.trap_targets true)
    rw [ho.1, ho.2]
    exact Code.trap_user_ok
  | @timer c hm =>
    have ho := h.cpu c
    unfold Cpu.Ok at ho
    rw [hm] at ho
    apply h.enter (by rw [hm]; exact CpuMode.noConfusion) _ (Code.trap_targets false)
    rw [ho.1, ho.2]
    exact Code.trap_halted_ok
  | @lock c k hm hl =>
    apply h.relock hm (h.code hm).1.2 rfl
    · simp
    · intro i hic
      rw [h.held i, hl]
      simp [Ne.symm hic]
  | @lockPanic c k hm hl =>
    have hin := (h.code hm).1.1
    rw [(h.held c).mpr hl] at hin
    cases hin
  | @unlock c k hm hl =>
    apply h.relock hm (h.code hm).1.2 rfl
    · simp
    · intro i hic
      rw [h.held i, hl]
      simp [Ne.symm hic]
  | @unlockPanic c k hm hl => exact absurd ((h.held c).mp (h.code hm).1.1) hl
  | @xchgStarted c x y hm =>
    obtain ⟨hx, hy⟩ := (h.code hm).1
    split_ifs with hst
    · exact h.goto hm (hx hst) (List.sublist_append_left _ _)
    · exact h.goto hm (hy hst) (List.sublist_append_right _ _)
  | @xchgHalted c k hm => exact h.goto hm (h.code hm).1 (List.Sublist.refl _)
  | @yes c x y hm => exact h.goto hm (h.code hm).1.1 (List.sublist_append_left _ _)
  | @no c x y hm => exact h.goto hm (h.code hm).1.2 (List.sublist_append_right _ _)
  | startap hm => exact h.startap hm
  | @await c i k hm hst => exact h.goto hm (h.code hm).1 (List.Sublist.refl _)
  | @iret c hm => exact h.leave hm (h.code hm).1 rfl
  | @hlt c hm => exact h.leave hm (h.code hm).1 rfl
  | @stop c k hm => exact h.leave hm trivial rfl

theorem lockOk_of_reachable (h : Reachable (SmpBoot ncpu b) SmpStep m) : LockOk b m :=
  h.invariant (fun _ hb => hb.lockOk) fun _ _ hk hs => hk.step hs

/-- In every run at most one processor is between its acquire and its release; no processor
gets to `lock_kernel` while it holds the lock, and none to `unlock_kernel` without it. -/
theorem kernel_lock_discipline (h : Reachable (SmpBoot ncpu b) SmpStep m) :
    (∀ c c', (m.cpus c).inside = true → (m.cpus c').inside = true → c = c') ∧
    (∀ c k, (m.cpus c).mode = .kernel (.lock k) → (m.cpus c).inside = false ∧ m.holder ≠ some c) ∧
    ∀ c k, (m.cpus c).mode = .kernel (.unlock k) → (m.cpus c).inside = true ∧ m.holder = some c := by
  have hk := lockOk_of_reachable h
  refine ⟨fun c c' => hk.inside_unique, fun c k hm => ?_, fun c k hm => ?_⟩
  · have hin := (hk.code hm).1.1
    refine ⟨hin, fun hl => ?_⟩
    rw [(hk.held c).mpr hl] at hin
    cases hin
  · have hin := (hk.code hm).1.1
    exact ⟨hin, (hk.held c).mp hin⟩

theorem schedYield_round :
    Code.schedYield = .branch Code.envRun (Code.search 1022 (.branch Code.envRun Code.schedHalt)) := by
  unfold Code.schedYield nenv
  rw [Code.search]

/-- Two processors: the first one boots, starts the second one and leaves the kernel to run an
environment, and then the second one takes the lock. -/
theorem kernel_lock_discipline_boot : ∃ m, Reachable (SmpBoot 2 0) SmpStep m ∧ (m.cpus 0).mode = .user ∧
    (m.cpus 1).inside = true ∧ ∀ c, (m.cpus c).inside = true → c = 1 := by
  have h0 : SmpBoot 2 0 ⟨fun c => if c = 0 then ⟨.kernel (i386Init ((List.range 2).filter (· ≠ 0))), .started, false⟩
      else ⟨.off, .unused, false⟩, none⟩ := ⟨rfl, fun _ => rfl⟩
  have hlock := (Reachable.init h0).step (SmpStep.lock (c := 0) rfl rfl)
  have hstart := (hlock.step (SmpStep.startap (c := 0) rfl)).step (SmpStep.xchgStarted (c := 1) rfl)
  -- boot_aps is through, and there is no panic
  have hawait := (hstart.step (SmpStep.await (c := 0) rfl rfl)).step (SmpStep.no (c := 0) rfl)
  -- the first round of the search finds an environment
  have hyield := hawait.step (SmpStep.yes (c := 0) (congrArg CpuMode.kernel schedYield_round))
  have hrun := (hyield.step (SmpStep.unlock (c := 0) rfl rfl)).step (SmpStep.iret (c := 0) rfl)
  have hr := hrun.step (SmpStep.lock (c := 1) rfl rfl)
  exact ⟨_, hr, rfl, rfl, fun c hc => (kernel_lock_discipline hr).1 c 1 hc rfl⟩

end Invariant
end Sisop
