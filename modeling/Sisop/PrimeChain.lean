import Sisop.FsRpc
import Sisop.Sieve

/-! The prime sieve of `user/primes.c`, over IPC. -/
namespace Sisop

/-- Where a process of the program is: in `umain` in front of `fork`, in front of `ipc_send` and inside of it; in `primeproc` in front
of the first `ipc_recv`, inside of it, behind it, behind `cprintf`, and in the loop in front of `ipc_recv`, inside of it, behind it and
inside of `ipc_send`; or in a `panic`. -/
inductive PrimePc where
  | absent
  | start
  | feed (right i : Word)
  | feeding (right i : Word)
  | top
  | fetching
  | fetched (p : Word)
  | printed (p : Word)
  | loop (p right : Word)
  | receiving (p right : Word)
  | got (p right i : Word)
  | sending (p right i : Word)
  | panicked (pc : PrimePc)

namespace PrimePc

/-- The right neighbour. -/
def right : PrimePc → Option Word
  | .feed right _ => some right
  | .feeding right _ => some right
  | .loop _ right => some right
  | .receiving _ right => some right
  | .got _ right _ => some right
  | .sending _ right _ => some right
  | .panicked pc => pc.right
  | _ => none

/-- The number that has been printed. -/
def shown : PrimePc → Option Word
  | .printed p => some p
  | .loop p _ => some p
  | .receiving p _ => some p
  | .got p _ _ => some p
  | .sending p _ _ => some p
  | .panicked pc => pc.shown
  | _ => none

/-- The number that has been received, and has not been printed, dropped or sent. -/
def held : PrimePc → Option Word
  | .fetched p => some p
  | .got _ _ i => some i
  | .sending _ _ i => some i
  | .panicked pc => pc.held
  | _ => none

/-- The number that `umain` has come to. -/
def next : PrimePc → Word
  | .feed _ i => i
  | .feeding _ i => i
  | .panicked pc => pc.next
  | _ => 2#32

/-- The process is inside of `ipc_send(toEnv, value, 0, 0)`. -/
def Posts : PrimePc → Word → Word → Prop
  | .feeding right i, toEnv, value => toEnv = right ∧ value = i
  | .sending _ right i, toEnv, value => toEnv = right ∧ value = i
  | _, _, _ => False

/-- The process is inside of `ipc_recv`. -/
def Waits : PrimePc → Prop
  | .fetching => True
  | .receiving _ _ => True
  | _ => False

end PrimePc

/-- The processes in the order of their creation, and the lines that they have printed. -/
structure PrimesWorld where
  ipc : IpcWorld
  prog : Word → PrimePc
  chain : List Word
  out : List (Word × Word)

namespace PrimesWorld

def setProg (w : PrimesWorld) (a : Word) (pc : PrimePc) : PrimesWorld := { w with prog := Function.update w.prog a pc }

/-- The process `a` has gone on to `pc` in user mode. -/
def move (w : PrimesWorld) (cur : EnvIdx) (pc : IpcPc) (ppc : PrimePc) : PrimesWorld :=
  { w with ipc := w.ipc.setPc cur pc }.setProg (w.ipc.letter cur).id ppc

/-- `fork` returns `child`, which is at `top`. -/
def fork (w : PrimesWorld) (a child : Word) (pc : PrimePc) : PrimesWorld :=
  { w with prog := Function.update (Function.update w.prog child .top) a pc, chain := w.chain ++ [child] }

/-- `ipc_send` returns. -/
def posted (w : PrimesWorld) (cur : EnvIdx) (toEnv value : Word) (ppc : PrimePc) : PrimesWorld :=
  { w with
    ipc := { w.ipc.setPc cur .user with
             sends := w.ipc.sends ++ [((w.ipc.letter cur).id, toEnv, value)] } }.setProg (w.ipc.letter cur).id ppc

/-- `ipc_recv` returns a value of `sender`. -/
def taken (w : PrimesWorld) (cur : EnvIdx) (sender : Word) (ppc : PrimePc) : PrimesWorld :=
  { w with
    ipc := { w.ipc.setPc cur .user with
             recvs := w.ipc.recvs ++ [(sender, (w.ipc.letter cur).id, (w.ipc.letter cur).value)] } }.setProg (w.ipc.letter cur).id ppc

end PrimesWorld

/-- A step of an execution where the processes of the program have identifiers of `Ours`, which `fork` gives out once. The other
environments run any program, but do not send to these. Past `INT_MAX` the loop of `umain` has no meaning. -/
inductive PrimesStep (Ours : Word → Prop) (w : PrimesWorld) : PrimesWorld → Prop where
  /-- Nobody calls `ipc_send` or `ipc_recv`, and nobody returns from them. -/
  | inside {i'} (h : IpcStep w.ipc i') (hjob : ∀ e, (i'.pc e).job = (w.ipc.pc e).job) : PrimesStep Ours w { w with ipc := i' }
  | other {i' e} (h : IpcStep w.ipc i') (hid : ¬ Ours (w.ipc.letter e).id) (hjob : ∀ o, o ≠ e → (i'.pc o).job = (w.ipc.pc o).job)
      (hto : ∀ toEnv value, (i'.pc e).job = .sending toEnv value → ¬ Ours toEnv) : PrimesStep Ours w { w with ipc := i' }
  | starts {c cur child} (hx : Executing w.ipc.kern c cur) (hpc : w.ipc.pc cur = .user)
      (hs : w.prog (w.ipc.letter cur).id = .start) (hc : Ours child) (hnew : w.prog child = .absent) :
      PrimesStep Ours w (w.fork (w.ipc.letter cur).id child (.feed child 2#32))
  | feeds {c cur right i} (hx : Executing w.ipc.kern c cur) (hpc : w.ipc.pc cur = .user)
      (hs : w.prog (w.ipc.letter cur).id = .feed right i) :
      PrimesStep Ours w (w.move cur (.send right i (pageArg 0#32) 0#32) (.feeding right i))
  | fed {c cur toEnv value srcva perm right i} (hx : Executing w.ipc.kern c cur) (hpc : w.ipc.pc cur = .sent toEnv value srcva perm)
      (hr : (w.ipc.letter cur).eax.slt 0#32 = false) (hs : w.prog (w.ipc.letter cur).id = .feeding right i)
      (hmax : i ≠ 0x7fffffff#32) : PrimesStep Ours w (w.posted cur toEnv value (.feed right (i + 1#32)))
  | fetches {c cur} (hx : Executing w.ipc.kern c cur) (hpc : w.ipc.pc cur = .user) (hs : w.prog (w.ipc.letter cur).id = .top) :
      PrimesStep Ours w (w.move cur (.recv (pageArg 0#32)) .fetching)
  | fetched {c cur sender} (hx : Executing w.ipc.kern c cur) (hpc : w.ipc.pc cur = .fetch sender)
      (hs : w.prog (w.ipc.letter cur).id = .fetching) : PrimesStep Ours w (w.taken cur sender (.fetched (w.ipc.letter cur).value))
  /-- `ipc_recv` returns `-E_INVAL`, here and in the loop. -/
  | fetchFails {c cur} (hx : Executing w.ipc.kern c cur) (hpc : w.ipc.pc cur = .recvd)
      (hr : (w.ipc.letter cur).eax.slt 0#32 = true) (hs : w.prog (w.ipc.letter cur).id = .fetching) :
      PrimesStep Ours w (w.move cur .user (.fetched (-Err.inval.code)))
  | prints {c cur p} (hx : Executing w.ipc.kern c cur) (hpc : w.ipc.pc cur = .user)
      (hs : w.prog (w.ipc.letter cur).id = .fetched p) :
      PrimesStep Ours w { w.setProg (w.ipc.letter cur).id (.printed p) with out := w.out ++ [((w.ipc.letter cur).id, p)] }
  | forks {c cur child p} (hx : Executing w.ipc.kern c cur) (hpc : w.ipc.pc cur = .user)
      (hs : w.prog (w.ipc.letter cur).id = .printed p) (hc : Ours child) (hnew : w.prog child = .absent) :
      PrimesStep Ours w (w.fork (w.ipc.letter cur).id child (.loop p child))
  /-- `fork` does not return an error, but panics. -/
  | forkPanics {c cur} (hx : Executing w.ipc.kern c cur) (hpc : w.ipc.pc cur = .user)
      (hs : w.prog (w.ipc.letter cur).id = .start ∨ ∃ p, w.prog (w.ipc.letter cur).id = .printed p) :
      PrimesStep Ours w (w.setProg (w.ipc.letter cur).id (.panicked (w.prog (w.ipc.letter cur).id)))
  | receives {c cur p right} (hx : Executing w.ipc.kern c cur) (hpc : w.ipc.pc cur = .user)
      (hs : w.prog (w.ipc.letter cur).id = .loop p right) :
      PrimesStep Ours w (w.move cur (.recv (pageArg 0#32)) (.receiving p right))
  | received {c cur sender p right} (hx : Executing w.ipc.kern c cur) (hpc : w.ipc.pc cur = .fetch sender)
      (hs : w.prog (w.ipc.letter cur).id = .receiving p right) :
      PrimesStep Ours w (w.taken cur sender (.got p right (w.ipc.letter cur).value))
  | receiveFails {c cur p right} (hx : Executing w.ipc.kern c cur) (hpc : w.ipc.pc cur = .recvd)
      (hr : (w.ipc.letter cur).eax.slt 0#32 = true) (hs : w.prog (w.ipc.letter cur).id = .receiving p right) :
      PrimesStep Ours w (w.move cur .user (.got p right (-Err.inval.code)))
  | drops {c cur p right i} (hx : Executing w.ipc.kern c cur) (hpc : w.ipc.pc cur = .user)
      (hs : w.prog (w.ipc.letter cur).id = .got p right i) (hd : i.srem p = 0#32) :
      PrimesStep Ours w (w.setProg (w.ipc.letter cur).id (.loop p right))
  | sends {c cur p right i} (hx : Executing w.ipc.kern c cur) (hpc : w.ipc.pc cur = .user)
      (hs : w.prog (w.ipc.letter cur).id = .got p right i) (hd : i.srem p ≠ 0#32) :
      PrimesStep Ours w (w.move cur (.send right i (pageArg 0#32) 0#32) (.sending p right i))
  | sent {c cur toEnv value srcva perm p right i} (hx : Executing w.ipc.kern c cur)
      (hpc : w.ipc.pc cur = .sent toEnv value srcva perm) (hr : (w.ipc.letter cur).eax.slt 0#32 = false)
      (hs : w.prog (w.ipc.letter cur).id = .sending p right i) : PrimesStep Ours w (w.posted cur toEnv value (.loop p right))
  | sendPanics {c cur toEnv value srcva perm} (hx : Executing w.ipc.kern c cur) (hpc : w.ipc.pc cur = .sent toEnv value srcva perm)
      (hid : Ours (w.ipc.letter cur).id) (hr : (w.ipc.letter cur).eax.slt 0#32 = true)
      (hne : (w.ipc.letter cur).eax ≠ -Err.ipcNotRecv.code) :
      PrimesStep Ours w (w.move cur .user (.panicked (w.prog (w.ipc.letter cur).id)))

/-- The environment `M` is at the begin of `umain`. -/
structure PrimesBooted (M : Word) (w : PrimesWorld) : Prop where
  ipc : IpcBooted w.ipc
  prog : w.prog = Function.update (fun _ => .absent) M .start
  chain : w.chain = [M]
  out : w.out = []

/-- A call of `ipc_recv` without a page cannot fail. -/
def IpcPc.NoPage : IpcPc → Letter → Prop
  | .recv dstva, _ => dstva = utop
  | .recvd, l => l.eax = 0#32
  | _, _ => True

/-- What the process of the environment `id` does is what the environment does. -/
def PrimesJob (Ours : Word → Prop) (prog : Word → PrimePc) (id : Word) : IpcJob → Prop
  | .user => True
  | .sending toEnv value => (Ours id → (prog id).Posts toEnv value) ∧ (¬ Ours id → ¬ Ours toEnv)
  | .receiving => Ours id → (prog id).Waits

structure KernOk (Ours : Word → Prop) (i : IpcWorld) (prog : Word → PrimePc) : Prop where
  ipc : IpcInv i
  job : ∀ e, PrimesJob Ours prog (i.letter e).id (i.pc e).job
  noPage : ∀ e, Ours (i.letter e).id → (i.pc e).NoPage (i.letter e)

/-- Each process has the next one as its right neighbour, and has printed its line. -/
structure ChainOk (Ours : Word → Prop) (M : Word) (prog : Word → PrimePc) (chain : List Word) (out : List (Word × Word)) : Prop where
  mem : ∀ a, a ∈ chain ↔ prog a ≠ .absent
  ours : ∀ a ∈ chain, Ours a
  nodup : chain.Nodup
  head : chain[0]? = some M
  links : ∀ k a, chain[k]? = some a → (prog a).right = chain[k + 1]?
  out : ∀ k, out[k]? = chain[k + 1]?.bind fun b => (prog b).shown.map fun p => (b, p)

/-- The numbers that a process with the prime `p` passes on. -/
def through (p : Word) (xs : List Word) : List Word := xs.filter fun i => decide (i.srem p ≠ 0#32)

theorem through_keep {p i : Word} (xs : List Word) (h : i.srem p ≠ 0#32) : through p (xs ++ [i]) = through p xs ++ [i] := by
  rw [through, through, List.filter_append, List.filter_cons_of_pos (by simpa using h), List.filter_nil]

theorem through_drop {p i : Word} (xs : List Word) (h : i.srem p = 0#32) : through p (xs ++ [i]) = through p xs := by
  rw [through, through, List.filter_append, List.filter_cons_of_neg (by simpa using h), List.filter_nil, List.append_nil]

/-- `umain` has sent the numbers from 2 on. -/
def PrimePc.Feeds : PrimePc → (Word → List Word) → Prop
  | .start, _ => True
  | .feed right i, outs => 2 ≤ i.toNat ∧ i.toNat < 2 ^ 31 ∧ outs right = (List.range' 2 (i.toNat - 2)).map (BitVec.ofNat 32)
  | .feeding right i, outs => 2 ≤ i.toNat ∧ i.toNat < 2 ^ 31 ∧ outs right = (List.range' 2 (i.toNat - 2)).map (BitVec.ofNat 32)
  | .panicked pc, outs => pc.Feeds outs
  | _, _ => False

/-- A process has received `ins`, and has sent `outs`. -/
def PrimePc.Fits : PrimePc → List Word → (Word → List Word) → Prop
  | .top, ins, _ => ins = []
  | .fetching, ins, _ => ins = []
  | .fetched p, ins, _ => ins = [p]
  | .printed p, ins, _ => ins = [p]
  | .loop p right, ins, outs => ∃ xs, ins = p :: xs ∧ outs right = through p xs
  | .receiving p right, ins, outs => ∃ xs, ins = p :: xs ∧ outs right = through p xs
  | .got p right i, ins, outs => ∃ xs, ins = p :: (xs ++ [i]) ∧ outs right = through p xs
  | .sending p right i, ins, outs => ∃ xs, ins = p :: (xs ++ [i]) ∧ outs right = through p xs ∧ i.srem p ≠ 0#32
  | .panicked pc, ins, outs => pc.Fits ins outs
  | _, _, _ => False

structure FlowOk (Ours : Word → Prop) (M : Word) (prog : Word → PrimePc) (sends recvs : List (Word × Word × Word)) : Prop where
  feeds : (prog M).Feeds (valuesOf sends M)
  fits : ∀ a b, (prog a).right = some b → (prog b).Fits (valuesOf recvs a b) (valuesOf sends b)
  foreign : ∀ a b, Ours b → (prog a).right ≠ some b → valuesOf sends a b = []

structure PrimesInv (Ours : Word → Prop) (M : Word) (w : PrimesWorld) : Prop where
  kern : KernOk Ours w.ipc w.prog
  chain : ChainOk Ours M w.prog w.chain w.out
  flow : FlowOk Ours M w.prog w.ipc.sends w.ipc.recvs

section Kernel

variable {Ours : Word → Prop} {i i' : IpcWorld} {prog prog' : Word → PrimePc} {e cur : EnvIdx} {c : ℕ} {pc : IpcPc} {k : Kern}

theorem noPage_of_letter {l : Letter} (hok : (i.pc e).NoPage (i.letter e)) (hl : i.Busy e → l = i.letter e) :
    (i.pc e).NoPage l := by
  by_cases hb : i.pc e = .user
  · rw [hb]
    exact trivial
  · rw [hl hb]
    exact hok

/-- Only the environment `cur` has moved. -/
theorem noPage_update (hother : e ≠ cur → (i.pc e).NoPage (k.envs e).letter) (hcur : e = cur → pc.NoPage (k.envs e).letter) :
    (Function.update i.pc cur pc e).NoPage (k.envs e).letter := by
  by_cases he : e = cur
  · rw [he, Function.update_self, ← he]
    exact hcur he
  · rw [Function.update_of_ne he]
    exact hother he

/-- An environment that goes on with what it does asks for no page and cannot fail. -/
theorem IpcStep.noPage (hs : IpcStep i i') (h : IpcInv i) (hok : (i.pc e).NoPage (i.letter e)) (hjob : (i'.pc e).job = (i.pc e).job) :
    (i'.pc e).NoPage (i'.letter e) := by
  have hbusy {o : EnvIdx} {pc : IpcPc} (hpc : i.pc o = pc) (hne : pc ≠ .user) : i.Busy o := by
    rw [IpcWorld.Busy, hpc]
    exact hne
  cases hs with
  | user hx hpc hs hm hno => exact noPage_of_letter (i := i) hok ((h.user_posted hx hpc hs hno).letter e)
  | store hs => exact noPage_of_letter (i := i) hok ((h.store_posted hs).letter e)
  | start hs => exact noPage_of_letter (i := i) hok ((h.start_posted hs).letter e)
  | wake hu hno hs => exact noPage_of_letter (i := i) hok ((h.wake_posted hu hno hs).letter e)
  | interrupt hx hcs hirq heax hs => exact noPage_of_letter (i := i) hok ((h.interrupt_posted hx hcs hirq heax hs).letter e)
  | @trapSend c cur inp k' toEnv value srcva perm hx hpc hc h₁ h₂ _ _ hs =>
    refine noPage_update (i := i) (k := k') (fun he => ?_) fun _ => trivial
    have hcur := hbusy hpc IpcPc.noConfusion
    cases hs with
    | trap _ ht =>
      -- the call has failed, or its message has come
      obtain ⟨v, hv, hp⟩ | ⟨-, -, hrecv, -, hp⟩ :=
        posted_send h.posted hcur (h.notRecving hx) hx.2 h.rest.lock hc.1 hc.2.1 hc.2.2 ht
      · refine noPage_of_letter hok fun hb => ?_
        rw [hp.letter e hb, Function.update_of_ne he]
      · by_cases hd : e = envx inp.tf.tfRegs.regEdx
        · -- the message has come
          have hwait : i.pc e = .recvd := by
            rw [hd]
            exact h.waits _ hrecv
          rw [hp.letter e (hbusy hwait IpcPc.noConfusion), Function.update_of_ne he, hwait, hd, Function.update_self]
          rfl
        · refine noPage_of_letter hok fun hb => ?_
          rw [hp.letter e hb, Function.update_of_ne he, Function.update_of_ne hd]
  | @trapYield c cur inp k' toEnv value srcva perm hx hpc hc hs =>
    refine noPage_update (i := i) (k := k') (fun he => ?_) fun _ => trivial
    have hcur := hbusy hpc IpcPc.noConfusion
    cases hs with
    | trap _ ht =>
      refine noPage_of_letter hok fun hb => ?_
      rw [(posted_yield h.posted hx.2 h.rest.lock hc.1 hc.2.1 hc.2.2 ht).letter e hb, Function.update_of_ne he]
  | @trapRecv c cur inp k' dstva hx hpc hc h₁ hs =>
    have hcur := hbusy hpc IpcPc.noConfusion
    cases hs with
    | trap _ ht =>
      refine noPage_update (i := i) (k := k') (fun he => noPage_of_letter hok fun hb => ?_) fun he => ?_
      · obtain ⟨v, -, -, hp⟩ | hp := posted_recv h.posted hcur hx.2 h.rest.lock hc.1 hc.2.1 hc.2.2 ht
        · rw [hp.letter e hb, Function.update_of_ne he]
        · rw [hp.letter e hb, Function.update_of_ne he]
      · subst he
        rw [hpc] at hok
        -- an address below `UTOP` is the only reason to fail
        obtain ⟨v, -, hpage, -⟩ | hp := posted_recv h.posted hcur hx.2 h.rest.lock hc.1 hc.2.1 hc.2.2 ht
        · rw [h₁, show dstva = utop from hok] at hpage
          exact absurd hpage (Nat.lt_irrefl _)
        · change (k'.envs e).letter.eax = 0#32
          rw [hp.letter e hcur, Function.update_self]
          rfl
  | callRecv pg hx hpc =>
    refine noPage_update (i := i) (k := i.kern) (fun _ => hok) fun he => ?_
    subst he
    change (Function.update i.pc e _ e).job = _ at hjob
    rw [Function.update_self, hpc] at hjob
    cases hjob
  | callSend | sendReturns | sendRetries | sendPanics | recvFails | recvFetches | recvReturns =>
    exact noPage_update (i := i) (k := i.kern) (fun _ => hok) fun _ => trivial

end Kernel

section Own

variable {Ours : Word → Prop} {i i' : IpcWorld} {prog prog' : Word → PrimePc} {e cur : EnvIdx} {c : ℕ} {pc : IpcPc}

theorem PrimesJob.congr {id : Word} {job : IpcJob} (h : PrimesJob Ours prog id job) (hp : prog' id = prog id) :
    PrimesJob Ours prog' id job := by
  cases job with
  | user => exact trivial
  | sending toEnv value =>
    refine ⟨fun ho => ?_, h.2⟩
    rw [hp]
    exact h.1 ho
  | receiving =>
    intro ho
    rw [hp]
    exact h ho

/-- A process that is outside of the two functions is in user mode. -/
theorem PrimesJob.quiet {id : Word} {job : IpcJob} (h : PrimesJob Ours prog id job) (ho : Ours id)
    (hposts : ∀ toEnv value, ¬ (prog id).Posts toEnv value) (hwaits : ¬ (prog id).Waits) : job = .user := by
  cases job with
  | user => rfl
  | sending toEnv value => exact absurd (h.1 ho) (hposts toEnv value)
  | receiving => exact absurd (h ho) hwaits

/-- A process goes on by itself, and its environment with it. -/
theorem KernOk.act (h : KernOk Ours i prog) (hx : Executing i.kern c cur) (hs : IpcStep i i') (hk : i'.kern = i.kern)
    (hpc : i'.pc = Function.update i.pc cur pc) (hprog : ∀ a, a ≠ (i.letter cur).id → prog' a = prog a)
    (hjob : PrimesJob Ours prog' (i.letter cur).id pc.job) (hpage : pc.NoPage (i.letter cur)) : KernOk Ours i' prog' := by
  have hletter : i'.letter = i.letter := by
    unfold IpcWorld.letter
    rw [hk]
  refine ⟨hs.inv h.ipc, fun e => ?_, fun e ho => ?_⟩
  · rw [hletter, hpc]
    by_cases he : e = cur
    · rw [he, Function.update_self]
      exact hjob
    · rw [Function.update_of_ne he]
      -- an environment inside of the two functions belongs to another process
      by_cases hb : i.pc e = .user
      · rw [hb]
        exact trivial
      · exact (h.job e).congr (hprog _ (h.ipc.id_ne hx he hb))
  · rw [hletter] at ho ⊢
    rw [hpc]
    refine noPage_update (i := i) (k := i.kern) (fun _ => h.noPage e ho) fun he => ?_
    rw [he]
    exact hpage

/-- A process goes on in user mode, and others that do nothing with it. -/
theorem KernOk.step (h : KernOk Ours i prog) (hx : Executing i.kern c cur) (hpc : i.pc cur = .user)
    (hprog : ∀ a, a ≠ (i.letter cur).id → prog' a = prog a ∨ Ours a ∧ prog a = .absent) : KernOk Ours i prog' := by
  refine ⟨h.ipc, fun e => ?_, h.noPage⟩
  by_cases he : e = cur
  · rw [he, hpc]
    exact trivial
  by_cases hb : i.pc e = .user
  · rw [hb]
    exact trivial
  -- a process that is new has not called anything
  obtain hsame | ⟨ho, habs⟩ := hprog _ (h.ipc.id_ne hx he hb)
  · exact (h.job e).congr hsame
  · rw [(h.job e).quiet ho (fun _ _ => by rw [habs]; exact id) (by rw [habs]; exact id)]
    exact trivial

/-- Nobody takes notice of a step that no process makes. -/
theorem KernOk.inside (h : KernOk Ours i prog) (hs : IpcStep i i') (hjob : ∀ e, Ours (i.letter e).id → (i'.pc e).job = (i.pc e).job)
    (hto : ∀ e, ¬ Ours (i.letter e).id → PrimesJob Ours prog (i.letter e).id (i'.pc e).job) : KernOk Ours i' prog := by
  refine ⟨hs.inv h.ipc, fun e => ?_, fun e ho => ?_⟩
  · by_cases hb : i'.pc e = .user
    · rw [hb]
      exact trivial
    rw [hs.id h.ipc hb]
    by_cases ho : Ours (i.letter e).id
    · rw [hjob e ho]
      exact h.job e
    · exact hto e ho
  · by_cases hb : i'.pc e = .user
    · rw [hb]
      exact trivial
    rw [hs.id h.ipc hb] at ho
    exact hs.noPage h.ipc (h.noPage e ho) (hjob e ho)

/-- `ipc_recv` does not fail. -/
theorem KernOk.received (h : KernOk Ours i prog) (ho : Ours (i.letter cur).id) (hpc : i.pc cur = .recvd) :
    (i.letter cur).eax.slt 0#32 = false := by
  have hok := h.noPage cur ho
  rw [hpc] at hok
  rw [show (i.letter cur).eax = 0#32 from hok]
  decide

end Own

section Chain

variable {Ours : Word → Prop} {M a b x : Word} {prog : Word → PrimePc} {chain : List Word} {out : List (Word × Word)}
  {pc : PrimePc}

theorem ChainOk.index {k l : ℕ} (h : ChainOk Ours M prog chain out) (hk : chain[k]? = some x) (hl : chain[l]? = some x) : k = l :=
  (List.getElem?_inj (List.getElem?_eq_some_iff.mp hk).1 h.nodup).mp (hk.trans hl.symm)

theorem ChainOk.right_mem (h : ChainOk Ours M prog chain out) (hr : (prog a).right = some b) : b ∈ chain := by
  have ha : a ∈ chain := (h.mem a).mpr fun habs => by rw [habs] at hr; cases hr
  obtain ⟨k, hk⟩ := List.mem_iff_getElem?.mp ha
  exact List.mem_iff_getElem?.mpr ⟨k + 1, (h.links k a hk).symm.trans hr⟩

/-- No process has two left neighbours. -/
theorem ChainOk.left_unique (h : ChainOk Ours M prog chain out) (ha : (prog a).right = some x) (hb : (prog b).right = some x) : a = b := by
  have hpos {y : Word} (hy : (prog y).right = some x) : ∃ k, chain[k]? = some y ∧ chain[k + 1]? = some x := by
    have hmem : y ∈ chain := (h.mem y).mpr fun habs => by rw [habs] at hy; cases hy
    obtain ⟨k, hk⟩ := List.mem_iff_getElem?.mp hmem
    exact ⟨k, hk, (h.links k y hk).symm.trans hy⟩
  obtain ⟨k, hk, hk'⟩ := hpos ha
  obtain ⟨l, hl, hl'⟩ := hpos hb
  rw [Nat.add_right_cancel (h.index hk' hl')] at hk
  exact Option.some.inj (hk.symm.trans hl)

/-- The process in front of another one has it as its right neighbour. -/
theorem ChainOk.before {k : ℕ} (h : ChainOk Ours M prog chain out) (hk : chain[k + 1]? = some x) :
    ∃ l, (prog l).right = some x := by
  have hlt : k < chain.length := Nat.lt_of_succ_lt (List.getElem?_eq_some_iff.mp hk).1
  exact ⟨chain[k], (h.links k _ (List.getElem?_eq_getElem hlt)).trans hk⟩

/-- Every process but the first one has a left neighbour. -/
theorem ChainOk.left (h : ChainOk Ours M prog chain out) (ha : prog a ≠ .absent) (hM : a ≠ M) : ∃ l, (prog l).right = some a := by
  obtain ⟨k, hk⟩ := List.mem_iff_getElem?.mp ((h.mem a).mpr ha)
  cases k with
  | zero => exact absurd (Option.some.inj (hk.symm.trans h.head)) hM
  | succ k => exact h.before hk

theorem ChainOk.mem_update (h : ChainOk Ours M prog chain out) (ha : prog a ≠ .absent) (hpc : pc ≠ .absent) (x : Word) :
    x ∈ chain ↔ Function.update prog a pc x ≠ .absent := by
  by_cases hx : x = a
  · rw [hx, Function.update_self]
    exact ⟨fun _ => hpc, fun _ => (h.mem a).mpr ha⟩
  · rw [Function.update_of_ne hx]
    exact h.mem x

/-- A process goes on with the neighbour and the line that it has. -/
theorem ChainOk.move (h : ChainOk Ours M prog chain out) (ha : prog a ≠ .absent) (hpc : pc ≠ .absent)
    (hright : pc.right = (prog a).right) (hshown : pc.shown = (prog a).shown) :
    ChainOk Ours M (Function.update prog a pc) chain out := by
  have hr (x : Word) : (Function.update prog a pc x).right = (prog x).right := by
    by_cases hx : x = a
    · rw [hx, Function.update_self, hright]
    · rw [Function.update_of_ne hx]
  have hs (x : Word) : (Function.update prog a pc x).shown = (prog x).shown := by
    by_cases hx : x = a
    · rw [hx, Function.update_self, hshown]
    · rw [Function.update_of_ne hx]
  refine ⟨h.mem_update ha hpc, h.ours, h.nodup, h.head, fun k x hk => (hr x).trans (h.links k x hk), fun k => ?_⟩
  rw [h.out k]
  congr 1
  funext x
  rw [hs]

/-- The last process gets a right neighbour. -/
theorem ChainOk.fork (h : ChainOk Ours M prog chain out) (ha : prog a ≠ .absent) (hlast : (prog a).right = none)
    (hb : prog b = .absent) (ho : Ours b) (hright : pc.right = some b) (hshown : a ≠ M → pc.shown = (prog a).shown) :
    ChainOk Ours M (Function.update (Function.update prog b .top) a pc) (chain ++ [b]) out := by
  have hab : a ≠ b := by
    rintro rfl
    exact ha hb
  have hbmem : b ∉ chain := fun hmem => (h.mem b).mp hmem hb
  obtain ⟨n, hn⟩ := List.mem_iff_getElem?.mp ((h.mem a).mpr ha)
  have hnlt : n < chain.length := (List.getElem?_eq_some_iff.mp hn).1
  have hlen : chain.length = n + 1 := by
    have hend : chain[n + 1]? = none := (h.links n a hn).symm.trans hlast
    have := List.getElem?_eq_none_iff.mp hend
    omega
  have hself : Function.update (Function.update prog b .top) a pc a = pc := Function.update_self ..
  have hchild : Function.update (Function.update prog b .top) a pc b = .top := by
    rw [Function.update_of_ne hab.symm, Function.update_self]
  have hother {x : Word} (hxa : x ≠ a) (hxb : x ≠ b) : Function.update (Function.update prog b .top) a pc x = prog x := by
    rw [Function.update_of_ne hxa, Function.update_of_ne hxb]
  -- the new process comes behind the last one
  have hnew : (chain ++ [b])[n + 1]? = some b := by
    rw [← hlen]
    exact List.getElem?_concat_length
  have hold {k : ℕ} (hk : k < chain.length) : (chain ++ [b])[k]? = chain[k]? := List.getElem?_append_left hk
  refine ⟨fun x => ?_, fun x hx => ?_, ?_, ?_, fun k x hk => ?_, fun k => ?_⟩
  · rw [List.mem_append, List.mem_singleton]
    by_cases hxa : x = a
    · rw [hxa, hself]
      refine ⟨fun _ hpc => ?_, fun _ => Or.inl ((h.mem a).mpr ha)⟩
      rw [hpc] at hright
      cases hright
    by_cases hxb : x = b
    · rw [hxb, hchild]
      exact ⟨fun _ => PrimePc.noConfusion, fun _ => Or.inr rfl⟩
    · rw [hother hxa hxb, ← h.mem x]
      exact or_iff_left hxb
  · rcases List.mem_append.mp hx with hx | hx
    · exact h.ours x hx
    · rw [List.mem_singleton.mp hx]
      exact ho
  · exact List.nodup_append.mpr ⟨h.nodup, List.nodup_singleton b, fun x hx y hy hxy => hbmem (by
      rw [← List.mem_singleton.mp hy, ← hxy]
      exact hx)⟩
  · rw [hold (by omega)]
    exact h.head
  · have hklt : k < chain.length + 1 := by
      have := (List.getElem?_eq_some_iff.mp hk).1
      rwa [List.length_append, List.length_singleton] at this
    -- the parent, its child, or one in front of them
    obtain rfl | rfl | hkn : k = n ∨ k = n + 1 ∨ k < n := by omega
    · rw [hold hnlt, hn] at hk
      rw [← Option.some.inj hk, hself, hnew]
      exact hright
    · rw [hnew] at hk
      rw [← Option.some.inj hk, hchild, List.getElem?_eq_none (by rw [List.length_append, List.length_singleton]; omega)]
      rfl
    · rw [hold (by omega)] at hk
      have hxa : x ≠ a := by
        rintro rfl
        exact hkn.ne (h.index hk hn)
      have hxb : x ≠ b := by
        rintro rfl
        exact hbmem (List.mem_iff_getElem?.mpr ⟨k, hk⟩)
      rw [hother hxa hxb, hold (by omega)]
      exact h.links k x hk
  · rw [h.out k]
    by_cases hkn : k < n
    · rw [hold (by omega)]
      have hlt : k + 1 < chain.length := by omega
      rw [List.getElem?_eq_getElem hlt]
      have hxb : chain[k + 1] ≠ b := fun heq => hbmem (heq ▸ List.getElem_mem hlt)
      change Option.map _ (prog chain[k + 1]).shown =
        Option.map _ (Function.update (Function.update prog b .top) a pc chain[k + 1]).shown
      by_cases hxa : chain[k + 1] = a
      · -- `umain`, which prints no line, is behind nobody
        have hM : a ≠ M := by
          intro hM
          have hk : chain[k + 1]? = some M := by rw [List.getElem?_eq_getElem hlt, hxa, hM]
          exact Nat.succ_ne_zero k (h.index hk h.head)
        rw [hxa, hself, hshown hM]
      · rw [hother hxa hxb]
    · -- neither the child nor anything behind it has a line
      have hend : chain[k + 1]? = none := List.getElem?_eq_none (by omega)
      rw [hend]
      by_cases hkn' : k = n
      · rw [hkn', hnew]
        change none = Option.map _ (Function.update (Function.update prog b .top) a pc b).shown
        rw [hchild]
        rfl
      · rw [List.getElem?_eq_none (by rw [List.length_append, List.length_singleton]; omega)]
        rfl

/-- The last process prints its line. -/
theorem ChainOk.print {p : Word} (h : ChainOk Ours M prog chain out) (hpos : ∀ k x, chain[k + 1]? = some x → (prog x).right ≠ none →
      (prog x).shown ≠ none) (ha : prog a = .fetched p) (hM : a ≠ M) :
    ChainOk Ours M (Function.update prog a (.printed p)) chain (out ++ [(a, p)]) := by
  have habs : prog a ≠ .absent := by
    rw [ha]
    exact PrimePc.noConfusion
  obtain ⟨n, hn⟩ := List.mem_iff_getElem?.mp ((h.mem a).mpr habs)
  obtain ⟨k, rfl⟩ : ∃ k, n = k + 1 := by
    cases n with
    | zero => exact absurd (Option.some.inj (hn.symm.trans h.head)) hM
    | succ k => exact ⟨k, rfl⟩
  have hklt : k + 1 < chain.length := (List.getElem?_eq_some_iff.mp hn).1
  -- a process that has not printed has not forked
  have hlast : chain[k + 1 + 1]? = none := by
    rw [← h.links (k + 1) a hn, ha]
    rfl
  have hlen : chain.length = k + 2 := by
    have := List.getElem?_eq_none_iff.mp hlast
    omega
  -- those in front of it have printed theirs
  have hout : out.length = k := by
    have hge : out.length ≤ k := by
      refine List.getElem?_eq_none_iff.mp ?_
      rw [h.out k, hn]
      change Option.map _ (prog a).shown = none
      rw [ha]
      rfl
    refine le_antisymm hge ?_
    cases k with
    | zero => exact Nat.zero_le _
    | succ j =>
      have hj : j + 1 < chain.length := by omega
      have hsome : out[j]? ≠ none := by
        rw [h.out j, List.getElem?_eq_getElem hj]
        change Option.map _ (prog chain[j + 1]).shown ≠ none
        rw [Ne, Option.map_eq_none_iff]
        refine hpos j _ (List.getElem?_eq_getElem hj) ?_
        rw [h.links (j + 1) _ (List.getElem?_eq_getElem hj), hn]
        exact Option.some_ne_none a
      have := mt List.getElem?_eq_none_iff.mpr hsome
      omega
  have hmove : ∀ x, x ≠ a → Function.update prog a (.printed p) x = prog x := fun x hx => Function.update_of_ne hx _ _
  refine ⟨h.mem_update habs PrimePc.noConfusion, h.ours, h.nodup, h.head, fun j x hj => ?_, fun j => ?_⟩
  · by_cases hx : x = a
    · rw [hx] at hj ⊢
      rw [Function.update_self, ← h.links j a hj, ha]
      rfl
    · rw [hmove x hx]
      exact h.links j x hj
  · by_cases hjk : j = k
    · rw [hjk, hn, ← hout, List.getElem?_concat_length]
      change _ = Option.map _ (Function.update prog a (.printed p) a).shown
      rw [Function.update_self]
      rfl
    · by_cases hlt : j < k
      · have hj : j + 1 < chain.length := by omega
        rw [List.getElem?_append_left (by omega), h.out j, List.getElem?_eq_getElem hj]
        have hx : chain[j + 1] ≠ a := by
          intro hx
          exact hjk (Nat.add_right_cancel (h.index (by rw [List.getElem?_eq_getElem hj, hx]) hn))
        change Option.map _ _ = Option.map _ (Function.update prog a (.printed p) chain[j + 1]).shown
        rw [hmove _ hx]
      · rw [List.getElem?_eq_none (by rw [List.length_append, List.length_singleton]; omega),
          List.getElem?_eq_none (by omega : chain.length ≤ j + 1)]
        rfl

end Chain

end Sisop
