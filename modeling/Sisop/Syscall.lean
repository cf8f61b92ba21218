import Sisop.Sched

/-! The system calls of `kern/syscall.c`, on the CPU `c`. -/
namespace Sisop

/-- `check_perm(perm) == 0`. -/
def CheckPerm (perm : Word) : Prop := perm &&& ~~~pteSyscall = 0#32 ∧ has perm (pteU ||| pteP)

instance (perm : Word) : Decidable (CheckPerm perm) := inferInstanceAs (Decidable (_ ∧ _))

/-- `check_mem(va) == 0`. -/
def CheckMem (va : Word) : Prop := va < utop ∧ pgoff va = 0

instance (va : Word) : Decidable (CheckMem va) := inferInstanceAs (Decidable (_ ∧ _))

/-- The return values of system calls; a negative one is an error. -/
abbrev SysRet := Except Err Word

/-- `sys_cputs(s, len)`. What it prints is not part of the kernel's state. The page directory that the
CPU has loaded is that of the current environment. -/
def sysCputs (c : ℕ) (s len : Word) : Routine Kern Unit := do
  let cur ← curenv c
  userMemAssert c cur s len pteU
  let g ← envPgdir cur
  mem (cprintfLoads g len s)

/-- `sys_getenvid()`. -/
def sysGetenvid (c : ℕ) : Routine Kern SysRet := do
  let cur ← curenv c
  let id ← Routine.gets fun k => (k.envs cur).envId
  pure (.ok id)

/-- `sys_env_destroy(envid)`. -/
def sysEnvDestroy (c : ℕ) (envid : Word) : Routine Kern SysRet := do
  match (← envid2env c envid true) with
  | .error err => pure (.error err)
  | .ok e =>
    envDestroy c e
    pure (.ok 0#32)

/-- `sys_exofork()`. -/
def sysExofork (c : ℕ) : Routine Kern SysRet := do
  let cur ← curenv c
  let curId ← Routine.gets fun k => (k.envs cur).envId
  match (← envAlloc curId) with
  | .error err => pure (.error err)
  | .ok e =>
    Routine.modify fun k => k.setStatus e .notRunnable
    Routine.modify fun k => k.setEnv e fun env => { env with envTf :=
      { (k.envs cur).envTf with tfRegs := { (k.envs cur).envTf.tfRegs with regEax := 0#32 } } }
    let id ← Routine.gets fun k => (k.envs e).envId
    pure (.ok id)

/-- The statuses that `sys_env_set_status` accepts, with their numbers. -/
def settableStatus (status : Word) : Option EnvStatus :=
  if status = 2#32 then some .runnable else if status = 4#32 then some .notRunnable else none

/-- `sys_env_set_status(envid, status)`. -/
def sysEnvSetStatus (c : ℕ) (envid status : Word) : Routine Kern SysRet :=
  match settableStatus status with
  | none => pure (.error .inval)
  | some st => do
    match (← envid2env c envid true) with
    | .error _ => pure (.error .badEnv)
    | .ok e =>
      Routine.modify fun k => k.setStatus e st
      pure (.ok 0#32)

/-- `sys_env_set_pgfault_upcall(envid, func)`. -/
def sysEnvSetPgfaultUpcall (c : ℕ) (envid func : Word) : Routine Kern SysRet := do
  match (← envid2env c envid true) with
  | .error _ => pure (.error .badEnv)
  | .ok e =>
    Routine.modify fun k => k.setEnv e fun env => { env with envPgfaultUpcall := func }
    pure (.ok 0#32)

/-- `sys_page_alloc(envid, va, perm)`. -/
def sysPageAlloc (c : ℕ) (envid va perm : Word) : Routine Kern SysRet := do
  match (← envid2env c envid true) with
  | .error _ => pure (.error .badEnv)
  | .ok e =>
    if CheckPerm perm ∧ CheckMem va then
      match (← mem pageAlloc) with
      | none => pure (.error .noMem)
      | some page =>
        let g ← envPgdir e
        match (← mem (pageInsert g page va perm)) with
        | .error _ =>
          mem (pageFree page)
          pure (.error .noMem)
        | .ok () => pure (.ok 0#32)
    else pure (.error .inval)

/-- `sys_page_map(srcenvid, srcva, dstenvid, dstva, perm)`. -/
def sysPageMap (c : ℕ) (srcenvid srcva dstenvid dstva perm : Word) : Routine Kern SysRet := do
  match (← envid2env c srcenvid true) with
  | .error _ => pure (.error .badEnv)
  | .ok srcenv =>
    match (← envid2env c dstenvid true) with
    | .error _ => pure (.error .badEnv)
    | .ok dstenv =>
      if CheckPerm perm ∧ CheckMem srcva ∧ CheckMem dstva then
        let gsrc ← envPgdir srcenv
        match (← mem (pageLookup gsrc srcva)) with
        | none => pure (.error .inval)
        | some (page, pte) =>
          let w ← Routine.gets fun k => k.mem.load pte
          if has perm pteW ∧ ¬ has w pteW then pure (.error .inval)
          else
            let gdst ← envPgdir dstenv
            match (← mem (pageInsert gdst page dstva perm)) with
            | .error _ => pure (.error .noMem)
            | .ok () => pure (.ok 0#32)
      else pure (.error .inval)

/-- `sys_page_unmap(envid, va)`. -/
def sysPageUnmap (c : ℕ) (envid va : Word) : Routine Kern SysRet := do
  match (← envid2env c envid true) with
  | .error _ => pure (.error .badEnv)
  | .ok e =>
    if CheckMem va then
      let g ← envPgdir e
      mem (pageRemove g va)
      pure (.ok 0#32)
    else pure (.error .inval)

/-- `env->env_ipc_perm = 0`. -/
def Kern.clearIpcPerm (k : Kern) (e : EnvIdx) : Kern :=
  k.setEnv e fun env => { env with envIpcPerm := 0#32 }

/-- The page part of `sys_ipc_try_send`: map the sender's page, if it sends one, for
the receiver, if it asks for one. The result is the `env_ipc_perm` of the receiver. -/
def ipcSendPage (c : ℕ) (e : EnvIdx) (srcva perm : Word) : Routine Kern SysRet :=
  if srcva < utop then
    if pgoff srcva = 0 ∧ CheckPerm perm then do
      let cur ← curenv c
      let gsrc ← envPgdir cur
      match (← mem (pageLookup gsrc srcva)) with
      | none => pure (.error .inval)
      | some (page, pte) =>
        let w ← Routine.gets fun k => k.mem.load pte
        if has perm pteW ∧ ¬ has w pteW then pure (.error .inval)
        else
          let dstva ← Routine.gets fun k => (k.envs e).envIpcDstva
          if dstva < utop then
            let gdst ← envPgdir e
            match (← mem (pageInsert gdst page dstva perm)) with
            | .error _ => pure (.error .noMem)
            | .ok () => pure (.ok perm)
          else pure (.ok 0#32)
    else pure (.error .inval)
  else pure (.ok 0#32)

/-- The end of `sys_ipc_try_send`: the receiver gets its message and may run. -/
def ipcDeliver (c : ℕ) (e : EnvIdx) (value ipcPerm : Word) : Routine Kern SysRet := do
  let cur ← curenv c
  let curId ← Routine.gets fun k => (k.envs cur).envId
  Routine.modify fun k => k.setEnv e fun env => { env with
    envIpcPerm := ipcPerm
    envIpcRecving := false
    envIpcFrom := curId
    envIpcValue := value
    envStatus := .runnable
    envTf := { env.envTf with tfRegs := { env.envTf.tfRegs with regEax := 0#32 } } }
  pure (.ok 0#32)

/-- `sys_ipc_try_send(envid, value, srcva, perm)`. -/
def sysIpcTrySend (c : ℕ) (envid value srcva perm : Word) : Routine Kern SysRet := do
  match (← envid2env c envid false) with
  | .error err => pure (.error err)
  | .ok e =>
    let recving ← Routine.gets fun k => (k.envs e).envIpcRecving
    if recving then
      Routine.modify fun k => k.clearIpcPerm e
      match (← ipcSendPage c e srcva perm) with
      | .error err => pure (.error err)
      | .ok ipcPerm => ipcDeliver c e value ipcPerm
    else pure (.error .ipcNotRecv)

/-- `sys_ipc_recv(dstva)`, which returns on an error only. -/
def sysIpcRecv (c : ℕ) (dstva : Word) : Routine Kern SysRet := do
  if dstva < utop ∧ pgoff dstva ≠ 0 then pure (.error .inval)
  else
    let cur ← curenv c
    Routine.modify fun k => k.setEnv cur fun env => { env with
      envStatus := .notRunnable
      envIpcRecving := true
      envIpcDstva := dstva
      envTf := { env.envTf with tfRegs := { env.envTf.tfRegs with regEax := 0#32 } } }
    schedYield c
    pure (.ok 0#32)

/-- The numbers of `inc/error.h`. -/
def Err.code : Err → Word
  | .badEnv => 2#32
  | .inval => 3#32
  | .noMem => 4#32
  | .noFreeEnv => 5#32
  | .fault => 6#32
  | .ipcNotRecv => 7#32

/-- The `int32_t` a system call returns. -/
def retWord : SysRet → Word
  | .ok v => v
  | .error err => -err.code

/-- `syscall(syscallno, a1, a2, a3, a4, a5)`; `cgetc` is what the console has to
give. Numbers without a case, among them `SYS_env_set_trapframe`, are invalid. -/
def syscall (c : ℕ) (cgetc : Word) (syscallno a1 a2 a3 a4 a5 : Word) : Routine Kern SysRet :=
  match syscallno.toNat with
  | 0 => do
    sysCputs c a1 a2
    pure (.ok 0#32)
  | 1 => pure (.ok cgetc)
  | 2 => sysGetenvid c
  | 3 => sysEnvDestroy c a1
  | 4 => sysPageAlloc c a1 a2 a3
  | 5 => sysPageMap c a1 a2 a3 a4 a5
  | 6 => sysPageUnmap c a1 a2
  | 7 => sysExofork c
  | 8 => sysEnvSetStatus c a1 a2
  | 10 => sysEnvSetPgfaultUpcall c a1 a2
  | 11 => do
    schedYield c
    pure (.ok 0#32)
  | 12 => sysIpcTrySend c a1 a2 a3 a4
  | 13 => sysIpcRecv c a1
  | _ => pure (.error .inval)

end Sisop
