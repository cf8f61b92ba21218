import Sisop.Boot
import Sisop.Syscall

/-! `kern/trap.c`: every entry into the kernel, from the interrupt to the `iret`
or the `hlt` that ends it. -/
namespace Sisop

/-- What the hardware hands to `trap`: the frame on the kernel stack, the
register `cr2`, and the next character of the console. -/
structure TrapInput where
  tf : Trapframe
  cr2 : Word
  cgetc : Word

/-- The words of `struct UTrapframe`, in order. -/
def utrapframe (faultVa : Word) (tf : Trapframe) : List Word :=
  [faultVa, tf.tfErr, tf.tfRegs.regEdi, tf.tfRegs.regEsi, tf.tfRegs.regEbp, tf.tfRegs.regOesp,
    tf.tfRegs.regEbx, tf.tfRegs.regEdx, tf.tfRegs.regEcx, tf.tfRegs.regEax, tf.tfEip,
    tf.tfEflags, tf.tfEsp]

/-- `sizeof(struct UTrapframe)`. -/
abbrev utfSize : Word := 52#32

/-- Where `page_fault_handler` puts the frame: below the exception stack's top,
or below the frame of the fault that is being handled, with a word between. -/
def utfAddr (esp : Word) : Word :=
  (if uxstacktop - 4096#32 ≤ esp ∧ esp < uxstacktop then esp - 4#32 else uxstacktop) - utfSize

/-- `page_fault_handler(tf)`. -/
def pageFaultHandler (c : ℕ) (faultVa : Word) (tf : Trapframe) : Routine Kern Unit := do
  if tf.tfCs &&& 3#16 = 0#16 then
    Routine.halt
  else
    let cur ← curenv c
    let upcall ← Routine.gets fun k => (k.envs cur).envPgfaultUpcall
    if upcall = 0#32 then
      envDestroy c cur
    else
      let u := utfAddr tf.tfEsp
      userMemAssert c cur u utfSize (pteU ||| pteW)
      let g ← envPgdir cur
      mem (storeBytes g u (wordBytes (utrapframe faultVa tf)))
      Routine.modify fun k => k.setEnv cur fun env =>
        { env with envTf := { env.envTf with tfEip := upcall, tfEsp := u } }
      envRun c cur

/-- `trap_dispatch(tf)`. The frame is that of the current environment, or, in
kernel mode, one on the stack. A breakpoint ends in the monitor, which no command leaves. -/
def trapDispatch (c : ℕ) (inp : TrapInput) : Routine Kern Unit := do
  let tf := inp.tf
  match tf.tfTrapno.toNat with
  | 3 => Routine.halt
  | 14 => pageFaultHandler c inp.cr2 tf
  | 48 =>
    let cur ← curenv c
    let result ← syscall c inp.cgetc tf.tfRegs.regEax tf.tfRegs.regEdx tf.tfRegs.regEcx
      tf.tfRegs.regEbx tf.tfRegs.regEdi tf.tfRegs.regEsi
    Routine.modify fun k => k.setEnv cur fun env => { env with envTf :=
      { env.envTf with tfRegs := { env.envTf.tfRegs with regEax := retWord result } } }
  | 39 => pure ()
  | 32 => schedYield c
  | _ =>
    if tf.tfCs = 0x08#16 then Routine.halt
    else
      let cur ← curenv c
      envDestroy c cur

/-- The part of `trap` for traps from user mode: take the lock, reap the current
environment if it is a zombie, save its registers. -/
def trapFromUser (c : ℕ) (tf : Trapframe) : Routine Kern Unit := do
  let cur ← curenv c
  lockKernel c
  let status ← Routine.gets fun k => k.status cur
  if status = .dying then
    envFree cur
    Routine.modify fun k => k.setCurenv c none
    schedYield c
  else
    Routine.modify fun k => k.setEnv cur fun env => { env with envTf := tf }

/-- `trap(tf)`, which does not return. -/
def trap (c : ℕ) (inp : TrapInput) : Routine Kern Unit := do
  let old ← Routine.gets fun k => (k.cpus c).cpuStatus
  Routine.modify fun k => k.setCpu c fun cpu => { cpu with cpuStatus := .started, user := false }
  if old = .halted then lockKernel c else pure ()
  if inp.tf.tfCs &&& 3#16 = 3#16 then trapFromUser c inp.tf else pure ()
  trapDispatch c inp
  match (← Routine.gets fun k => k.curRunning c) with
  | some cur => envRun c cur
  | none => schedYield c

/-- `mp_main()`, from where the processor says that it is up. -/
def mpMain (c : ℕ) : Routine Kern Unit := do
  Routine.modify fun k => k.setCpu c fun cpu => { cpu with cpuStatus := .started }
  lockKernel c
  schedYield c

/-- The `ENV_CREATE`s of `i386_init`. -/
def createEnvs : List (Elf × EnvType) → Routine Kern Unit
  | [] => pure ()
  | (elf, type) :: programs => do
    envCreate elf type
    createEnvs programs

/-- A routine that uses `base`, the static variable of `mmio_map_region`. It returns the new one. -/
def mapDevices (base : Word) (m : Routine Mmio Unit) : Routine Kern Word := fun k =>
  match m ⟨k.mem, base⟩ with
  | .ret _ s => .ret s.base { k with mem := s.mem }
  | .left s => .left { k with mem := s.mem }
  | .halt => .halt

/-- `boot_aps()`, as far as memory is concerned: it waits for each of the other processors, which
calls `lapic_init` before it says that it is up. -/
def bootAps (base lapicaddr : Word) (others : ℕ) : Routine Kern Unit := do
  let _ ← mapDevices base (Routine.loop others fun _ => lapicInit lapicaddr)
  pure ()

/-- `i386_init()` after `mem_init`, on the boot processor. `mp_init` finds the address of the local
APIC, which is 0 if there is none, and `others` more processors. -/
def i386Init (base lapicaddr : Word) (others c : ℕ) (programs : List (Elf × EnvType)) : Routine Kern Unit := do
  Routine.modify envInit
  Routine.modify fun k => k.setCpu c fun cpu => { cpu with cpuStatus := .started }
  let base ← mapDevices base (lapicInit lapicaddr)
  lockKernel c
  bootAps base lapicaddr others
  createEnvs programs
  schedYield c

/-- A zeroed `struct Env`. -/
def zeroEnv : Env where
  envTf := ⟨zeroRegs, 0, 0, 0, 0, 0, 0, 0, 0, 0⟩
  envLink := none
  envId := 0
  envParentId := 0
  envType := .user
  envStatus := .free
  envRuns := 0
  envCpunum := 0
  envPgdir := none
  envPgfaultUpcall := 0
  envIpcRecving := false
  envIpcDstva := 0
  envIpcValue := 0
  envIpcFrom := 0
  envIpcPerm := 0

/-- The kernel as `mem_init` leaves it. -/
def afterMemInit (s : Pm) : Kern where
  mem := s
  envs := fun _ => zeroEnv
  envFreeList := none
  cpus := fun _ => ⟨.unused, none, false⟩
  kernelLock := none

end Sisop
