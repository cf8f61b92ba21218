import Sisop.IpcCalls

/-! `ipc_send` and `ipc_recv` of `lib/ipc.c`, as programs that run in user mode on the kernel, with any number of environments and
CPUs and in any order of their steps. -/
namespace Sisop

open Routine (Triple Stays)

/-- Where an environment is. `user` is anywhere outside the two functions. -/
inductive IpcPc where
  | user
  | send (toEnv value srcva perm : Word)
  | sent (toEnv value srcva perm : Word)
  | yield (toEnv value srcva perm : Word)
  | recv (dstva : Word)
  | recvd
  | fetch (sender : Word)

/-- The messages are triples of the sender, the receiver and the value: those of the calls of `ipc_send` that have returned,
and those that calls of `ipc_recv` have returned, both in order. -/
structure IpcWorld where
  kern : Kern
  pc : EnvIdx → IpcPc
  sends : List (Word × Word × Word)
  recvs : List (Word × Word × Word)

namespace IpcWorld

def setPc (w : IpcWorld) (e : EnvIdx) (pc : IpcPc) : IpcWorld := { w with pc := Function.update w.pc e pc }

def setKern (w : IpcWorld) (k : Kern) : IpcWorld := { w with kern := k }

def Busy (w : IpcWorld) (e : EnvIdx) : Prop := w.pc e ≠ .user

def letter (w : IpcWorld) (e : EnvIdx) : Letter := (w.kern.envs e).letter

end IpcWorld

/-- `pg ? pg : UTOP`. -/
def pageArg (pg : Word) : Word := if pg = 0#32 then utop else pg

/-- A trap from user code that is the system call `no`. -/
def Calls (tf : Trapframe) (no : Word) : Prop := tf.tfCs &&& 3#16 = 3#16 ∧ tf.tfTrapno = 48#32 ∧ tf.tfRegs.regEax = no

/-- A step of user code that executes, with a trap into the kernel as one step; the start of a processor; an interrupt that
wakes one. Outside the two functions a program does what it likes, but it does not make the system calls of IPC by itself,
does not set the status of an environment that is inside of them or on another CPU, and does not destroy such a one. -/
inductive IpcStep (w : IpcWorld) : IpcWorld → Prop where
  | user {c cur inp k'} (hx : Executing w.kern c cur) (hpc : w.pc cur = .user) (hs : Step w.kern (.trap c inp) k')
      (hm : ¬ Event.Meddles w.kern (.trap c inp))
      (hno : inp.tf.tfTrapno = 48#32 → inp.tf.tfRegs.regEax ≠ 12#32 ∧ inp.tf.tfRegs.regEax ≠ 13#32 ∧
        ¬ Disturbs w.Busy w.kern c inp.tf.tfRegs) : IpcStep w (w.setKern k')
  | store {c va b k'} (hs : Step w.kern (.store c va b) k') : IpcStep w (w.setKern k')
  | start {c k'} (hs : Step w.kern (.start c) k') : IpcStep w (w.setKern k')
  | wake {c inp k'} (hu : (w.kern.cpus c).user = false) (hno : inp.tf.tfTrapno ≠ 48#32) (hs : Step w.kern (.trap c inp) k') :
      IpcStep w (w.setKern k')
  | interrupt {c cur inp k'} (hx : Executing w.kern c cur) (hcs : inp.tf.tfCs &&& 3#16 = 3#16)
      (hirq : inp.tf.tfTrapno = 32#32 ∨ inp.tf.tfTrapno = 39#32)
      (heax : inp.tf.tfRegs.regEax = (w.kern.envs cur).envTf.tfRegs.regEax) (hs : Step w.kern (.trap c inp) k') :
      IpcStep w (w.setKern k')
  /-- `ipc_send(to_env, val, pg, perm)` is called. -/
  | callSend {c cur} (toEnv value pg perm : Word) (hx : Executing w.kern c cur) (hpc : w.pc cur = .user) :
      IpcStep w (w.setPc cur (.send toEnv value (pageArg pg) perm))
  | trapSend {c cur inp k' toEnv value srcva perm} (hx : Executing w.kern c cur) (hpc : w.pc cur = .send toEnv value srcva perm)
      (hc : Calls inp.tf 12#32) (h₁ : inp.tf.tfRegs.regEdx = toEnv) (h₂ : inp.tf.tfRegs.regEcx = value)
      (h₃ : inp.tf.tfRegs.regEbx = srcva) (h₄ : inp.tf.tfRegs.regEdi = perm) (hs : Step w.kern (.trap c inp) k') :
      IpcStep w ((w.setKern k').setPc cur (.sent toEnv value srcva perm))
  | sendReturns {c cur toEnv value srcva perm} (hx : Executing w.kern c cur) (hpc : w.pc cur = .sent toEnv value srcva perm)
      (hr : (w.letter cur).eax.slt 0#32 = false) :
      IpcStep w { w.setPc cur .user with sends := w.sends ++ [((w.letter cur).id, toEnv, value)] }
  | sendRetries {c cur toEnv value srcva perm} (hx : Executing w.kern c cur) (hpc : w.pc cur = .sent toEnv value srcva perm)
      (hr : (w.letter cur).eax = -Err.ipcNotRecv.code) : IpcStep w (w.setPc cur (.yield toEnv value srcva perm))
  /-- `panic("uwu")`. -/
  | sendPanics {c cur toEnv value srcva perm} (hx : Executing w.kern c cur) (hpc : w.pc cur = .sent toEnv value srcva perm)
      (hr : (w.letter cur).eax.slt 0#32 = true) (hne : (w.letter cur).eax ≠ -Err.ipcNotRecv.code) : IpcStep w (w.setPc cur .user)
  | trapYield {c cur inp k' toEnv value srcva perm} (hx : Executing w.kern c cur) (hpc : w.pc cur = .yield toEnv value srcva perm)
      (hc : Calls inp.tf 11#32) (hs : Step w.kern (.trap c inp) k') :
      IpcStep w ((w.setKern k').setPc cur (.send toEnv value srcva perm))
  /-- `ipc_recv(from_env_store, pg, perm_store)` is called. -/
  | callRecv {c cur} (pg : Word) (hx : Executing w.kern c cur) (hpc : w.pc cur = .user) : IpcStep w (w.setPc cur (.recv (pageArg pg)))
  | trapRecv {c cur inp k' dstva} (hx : Executing w.kern c cur) (hpc : w.pc cur = .recv dstva) (hc : Calls inp.tf 13#32)
      (h₁ : inp.tf.tfRegs.regEdx = dstva) (hs : Step w.kern (.trap c inp) k') : IpcStep w ((w.setKern k').setPc cur .recvd)
  | recvFails {c cur} (hx : Executing w.kern c cur) (hpc : w.pc cur = .recvd) (hr : (w.letter cur).eax.slt 0#32 = true) :
      IpcStep w (w.setPc cur .user)
  /-- `thisenv->env_ipc_from` is read. -/
  | recvFetches {c cur} (hx : Executing w.kern c cur) (hpc : w.pc cur = .recvd) (hr : (w.letter cur).eax.slt 0#32 = false) :
      IpcStep w (w.setPc cur (.fetch (w.letter cur).sender))
  /-- `return thisenv->env_ipc_value`. -/
  | recvReturns {c cur sender} (hx : Executing w.kern c cur) (hpc : w.pc cur = .fetch sender) :
      IpcStep w { w.setPc cur .user with recvs := w.recvs ++ [(sender, (w.letter cur).id, (w.letter cur).value)] }

/-- The kernel has booted, and no program has called anything. -/
structure IpcBooted (w : IpcWorld) : Prop where
  kern : Booted w.kern
  pc : ∀ e, w.pc e = .user
  sends : w.sends = []
  recvs : w.recvs = []

/-- What the environment `a` has sent to `b` while the call of `ipc_send` has not returned. -/
def IpcPc.outgoing (pc : IpcPc) (l : Letter) (a b : Word) : List Word :=
  match pc with
  | .sent toEnv value _ _ => if l.id = a ∧ toEnv = b ∧ l.eax.slt 0#32 = false then [value] else []
  | _ => []

/-- What `b` has received from `a` while the call of `ipc_recv` has not returned. -/
def IpcPc.incoming (pc : IpcPc) (l : Letter) (a b : Word) : List Word :=
  match pc with
  | .recvd => if l.id = b ∧ l.sender = a ∧ l.recving = false ∧ l.eax.slt 0#32 = false then [l.value] else []
  | .fetch sender => if l.id = b ∧ sender = a then [l.value] else []
  | _ => []

/-- The values of the messages from `a` to `b`. -/
def valuesOf (l : List (Word × Word × Word)) (a b : Word) : List Word :=
  (l.filter fun m => m.1 = a ∧ m.2.1 = b).map fun m => m.2.2

namespace IpcWorld

def outgoing (w : IpcWorld) (a b : Word) : List Word := (w.pc (envx a)).outgoing (w.letter (envx a)) a b

def incoming (w : IpcWorld) (a b : Word) : List Word := (w.pc (envx b)).incoming (w.letter (envx b)) a b

end IpcWorld

/-- What has been sent from `a` to `b` has been received, in that order, but for messages whose calls have not returned. -/
def Balanced (w : IpcWorld) : Prop := ∀ a b, valuesOf w.sends a b ++ w.outgoing a b = valuesOf w.recvs a b ++ w.incoming a b

structure IpcInv (w : IpcWorld) : Prop where
  rest : AtRest w.kern
  recv : RecvRest w.kern
  posted : Posted w.Busy w.letter w.kern
  waits : ∀ e, (w.letter e).recving = true → w.pc e = .recvd
  balanced : Balanced w

end Sisop
