import Sisop.IpcDelivery

/-! The requests of `lib/file.c` to the file server and the loop of `serve` in `fs/serv.c`, over IPC. -/
namespace Sisop

/-- What an environment is doing inside of `ipc_send` and `ipc_recv`. -/
inductive IpcJob where
  | user
  | sending (toEnv value : Word)
  | receiving

def IpcPc.job : IpcPc → IpcJob
  | .user => .user
  | .send toEnv value _ _ => .sending toEnv value
  | .sent toEnv value _ _ => .sending toEnv value
  | .yield toEnv value _ _ => .sending toEnv value
  | .recv _ => .receiving
  | .recvd => .receiving
  | .fetch _ => .receiving

/-- Where the loop of `serve` is. -/
inductive ServePc where
  | idle
  | receiving
  | handling (whom req : Word)
  | replying (whom req r : Word)
  | panicked (whom req : Word)

/-- Where a client is: outside of `fsipc`, in its `ipc_send`, behind it, in its `ipc_recv`; or one of the two has failed. -/
inductive FsipcPc where
  | idle
  | asking (type : Word)
  | asked (type : Word)
  | waiting (type : Word)
  | panicked
  | failed (type : Word)

/-- Requests that have been answered, as triples of the client, the request and the reply: those that `serve` has replied to, and
those of the calls of `fsipc` that have returned, both in order. -/
structure RpcWorld where
  ipc : IpcWorld
  srv : ServePc
  cli : Word → FsipcPc
  served : List (Word × Word × Word)
  done : List (Word × Word × Word)

namespace RpcWorld

def setCli (w : RpcWorld) (a : Word) (pc : FsipcPc) : RpcWorld := { w with cli := Function.update w.cli a pc }

end RpcWorld

/-- `&fsipcbuf`, and `PTE_P | PTE_W | PTE_U`. -/
def fsipcPerm : Word := 7#32

/-- A step of an execution where the environment `S` runs `serve`, and those of `IsClient` send and receive by `fsipc` only, from
a page `buf`. The other environments run any program, but do not send to clients. -/
inductive RpcStep (S : Word) (IsClient : Word → Prop) (w : RpcWorld) : RpcWorld → Prop where
  /-- Nobody calls `ipc_send` or `ipc_recv`, and nobody returns from them. -/
  | inside {i'} (h : IpcStep w.ipc i') (hjob : ∀ e, (i'.pc e).job = (w.ipc.pc e).job) : RpcStep S IsClient w { w with ipc := i' }
  | other {i' e} (h : IpcStep w.ipc i') (hid : (w.ipc.letter e).id ≠ S ∧ ¬ IsClient (w.ipc.letter e).id)
      (hjob : ∀ o, o ≠ e → (i'.pc o).job = (w.ipc.pc o).job)
      (hto : ∀ toEnv value, (i'.pc e).job = .sending toEnv value → ¬ IsClient toEnv) : RpcStep S IsClient w { w with ipc := i' }
  | serveRecv {c cur} (fsreq : Word) (hx : Executing w.ipc.kern c cur) (hpc : w.ipc.pc cur = .user)
      (hid : (w.ipc.letter cur).id = S) (hs : w.srv = .idle) :
      RpcStep S IsClient w { w with ipc := w.ipc.setPc cur (.recv (pageArg fsreq)), srv := .receiving }
  /-- `ipc_recv` has failed, and has left no permissions. -/
  | serveFails {c cur} (hx : Executing w.ipc.kern c cur) (hpc : w.ipc.pc cur = .recvd) (hid : (w.ipc.letter cur).id = S)
      (hr : (w.ipc.letter cur).eax.slt 0#32 = true) : RpcStep S IsClient w { w with ipc := w.ipc.setPc cur .user, srv := .idle }
  | serveTakes {c cur whom} (hx : Executing w.ipc.kern c cur) (hpc : w.ipc.pc cur = .fetch whom) (hid : (w.ipc.letter cur).id = S) :
      RpcStep S IsClient w
        { w with
          ipc := { w.ipc.setPc cur .user with
                   recvs := w.ipc.recvs ++ [(whom, (w.ipc.letter cur).id, (w.ipc.letter cur).value)] }
          srv := .handling whom (w.ipc.letter cur).value }
  /-- No argument page. `fsipc` sends one. -/
  | serveDrops {whom req} (hs : w.srv = .handling whom req) (hno : ¬ IsClient whom) : RpcStep S IsClient w { w with srv := .idle }
  /-- The handler has returned `r`. -/
  | serveReplies {c cur whom req} (r pg perm : Word) (hx : Executing w.ipc.kern c cur) (hpc : w.ipc.pc cur = .user)
      (hid : (w.ipc.letter cur).id = S) (hs : w.srv = .handling whom req) :
      RpcStep S IsClient w { w with ipc := w.ipc.setPc cur (.send whom r (pageArg pg) perm), srv := .replying whom req r }
  | serveReplied {c cur toEnv value srcva perm whom req r} (hx : Executing w.ipc.kern c cur)
      (hpc : w.ipc.pc cur = .sent toEnv value srcva perm) (hid : (w.ipc.letter cur).id = S)
      (hr : (w.ipc.letter cur).eax.slt 0#32 = false) (hs : w.srv = .replying whom req r) :
      RpcStep S IsClient w
        { w with
          ipc := { w.ipc.setPc cur .user with sends := w.ipc.sends ++ [((w.ipc.letter cur).id, toEnv, value)] }
          srv := .idle
          served := w.served ++ [(whom, req, r)] }
  | servePanics {c cur toEnv value srcva perm whom req r} (hx : Executing w.ipc.kern c cur)
      (hpc : w.ipc.pc cur = .sent toEnv value srcva perm) (hid : (w.ipc.letter cur).id = S)
      (hr : (w.ipc.letter cur).eax.slt 0#32 = true) (hne : (w.ipc.letter cur).eax ≠ -Err.ipcNotRecv.code)
      (hs : w.srv = .replying whom req r) :
      RpcStep S IsClient w { w with ipc := w.ipc.setPc cur .user, srv := .panicked whom req }
  /-- `fsipc(type, dstva)` is called. -/
  | ask {c cur} (type buf : Word) (hx : Executing w.ipc.kern c cur) (hpc : w.ipc.pc cur = .user)
      (hcl : IsClient (w.ipc.letter cur).id) (hs : w.cli (w.ipc.letter cur).id = .idle) :
      RpcStep S IsClient w
        ({ w with ipc := w.ipc.setPc cur (.send S type (pageArg buf) fsipcPerm) }.setCli (w.ipc.letter cur).id (.asking type))
  | asked {c cur toEnv value srcva perm type} (hx : Executing w.ipc.kern c cur) (hpc : w.ipc.pc cur = .sent toEnv value srcva perm)
      (hcl : IsClient (w.ipc.letter cur).id) (hr : (w.ipc.letter cur).eax.slt 0#32 = false)
      (hs : w.cli (w.ipc.letter cur).id = .asking type) :
      RpcStep S IsClient w
        ({ w with ipc := { w.ipc.setPc cur .user with sends := w.ipc.sends ++ [((w.ipc.letter cur).id, toEnv, value)] } }.setCli
          (w.ipc.letter cur).id (.asked type))
  | askPanics {c cur toEnv value srcva perm} (hx : Executing w.ipc.kern c cur) (hpc : w.ipc.pc cur = .sent toEnv value srcva perm)
      (hcl : IsClient (w.ipc.letter cur).id) (hr : (w.ipc.letter cur).eax.slt 0#32 = true)
      (hne : (w.ipc.letter cur).eax ≠ -Err.ipcNotRecv.code) :
      RpcStep S IsClient w ({ w with ipc := w.ipc.setPc cur .user }.setCli (w.ipc.letter cur).id .panicked)
  | await {c cur type} (dstva : Word) (hx : Executing w.ipc.kern c cur) (hpc : w.ipc.pc cur = .user)
      (hcl : IsClient (w.ipc.letter cur).id) (hs : w.cli (w.ipc.letter cur).id = .asked type) :
      RpcStep S IsClient w
        ({ w with ipc := w.ipc.setPc cur (.recv (pageArg dstva)) }.setCli (w.ipc.letter cur).id (.waiting type))
  | awaitFails {c cur type} (hx : Executing w.ipc.kern c cur) (hpc : w.ipc.pc cur = .recvd) (hcl : IsClient (w.ipc.letter cur).id)
      (hr : (w.ipc.letter cur).eax.slt 0#32 = true) (hs : w.cli (w.ipc.letter cur).id = .waiting type) :
      RpcStep S IsClient w ({ w with ipc := w.ipc.setPc cur .user }.setCli (w.ipc.letter cur).id (.failed type))
  /-- `fsipc` returns. -/
  | answered {c cur sender type} (hx : Executing w.ipc.kern c cur) (hpc : w.ipc.pc cur = .fetch sender)
      (hcl : IsClient (w.ipc.letter cur).id) (hs : w.cli (w.ipc.letter cur).id = .waiting type) :
      RpcStep S IsClient w
        ({ w with
           ipc := { w.ipc.setPc cur .user with
                    recvs := w.ipc.recvs ++ [(sender, (w.ipc.letter cur).id, (w.ipc.letter cur).value)] }
           done := w.done ++ [((w.ipc.letter cur).id, type, (w.ipc.letter cur).value)] }.setCli (w.ipc.letter cur).id .idle)

/-- The kernel has booted, and no program has called anything. -/
structure RpcBooted (w : RpcWorld) : Prop where
  ipc : IpcBooted w.ipc
  srv : w.srv = .idle
  cli : ∀ a, w.cli a = .idle
  served : w.served = []
  done : w.done = []

/-- The requests of a client that have been answered, with their replies. -/
def callsOf (l : List (Word × Word × Word)) (a : Word) : List (Word × Word) := (l.filter fun m => m.1 = a).map fun m => m.2

/-- The request of the client `a` that `serve` has taken and has not replied to. -/
def ServePc.taken (pc : ServePc) (a : Word) : List Word :=
  match pc with
  | .handling whom req => if whom = a then [req] else []
  | .replying whom req _ => if whom = a then [req] else []
  | .panicked whom req => if whom = a then [req] else []
  | _ => []

/-- The reply to `a` that `serve` is sending, with its request. -/
def ServePc.answering (pc : ServePc) (a : Word) : List (Word × Word) :=
  match pc with
  | .replying whom req r => if whom = a then [(req, r)] else []
  | _ => []

/-- The request that a client has sent and has no reply to. -/
def FsipcPc.unanswered (pc : FsipcPc) : List Word :=
  match pc with
  | .asked type => [type]
  | .waiting type => [type]
  | .failed type => [type]
  | _ => []

/-- The request of a client that there is no reply to, also where it is still being sent. -/
def FsipcPc.outstanding (pc : FsipcPc) : List Word :=
  match pc with
  | .asking type => [type]
  | pc => pc.unanswered

section Pairs

variable {α β : Type} {l m : List (α × β)}

theorem prefix_of_maps (h₁ : l.map Prod.fst <+: m.map Prod.fst) (h₂ : l.map Prod.snd <+: m.map Prod.snd) : l <+: m := by
  induction l generalizing m with
  | nil => exact List.nil_prefix
  | cons x l ih =>
    cases m with
    | nil => exact absurd (List.prefix_nil.mp h₁) (List.cons_ne_nil _ _)
    | cons y m =>
      rw [List.map_cons, List.map_cons, List.cons_prefix_cons] at h₁ h₂
      rw [List.cons_prefix_cons]
      exact ⟨Prod.ext h₁.1 h₂.1, ih h₁.2 h₂.2⟩

/-- Two lists of pairs are one in front of the other, if the longer one has in its second components those of the shorter one, and
both stand in front of one list with their first components. -/
theorem prefix_of_balance {q q' : List α} {r : List β} (h₂ : m.map Prod.snd = l.map Prod.snd ++ r)
    (h₁ : l.map Prod.fst ++ q = m.map Prod.fst ++ q') : l <+: m := by
  have hlen : l.length ≤ m.length := by
    have hcount := congrArg List.length h₂
    rw [List.length_append, List.length_map, List.length_map] at hcount
    omega
  apply prefix_of_maps
  · have hpre : m.map Prod.fst <+: l.map Prod.fst ++ q := ⟨q', h₁.symm⟩
    refine List.prefix_of_prefix_length_le (List.prefix_append _ _) hpre ?_
    rw [List.length_map, List.length_map]
    exact hlen
  · exact ⟨r, h₂.symm⟩

theorem callsOf_append (l : List (Word × Word × Word)) (x : Word × Word × Word) (a : Word) :
    callsOf (l ++ [x]) a = callsOf l a ++ if x.1 = a then [x.2] else [] := by
  unfold callsOf
  rw [List.filter_append, List.map_append]
  congr 1
  by_cases hx : x.1 = a
  · rw [if_pos hx, List.filter_cons_of_pos (by simpa using hx)]
    rfl
  · rw [if_neg hx, List.filter_cons_of_neg (by simpa using hx)]
    rfl

end Pairs

section Steps

variable {w w' : IpcWorld} {e cur : EnvIdx} {L : EnvIdx → Letter} {k' : Kern}

theorem Posted.id (hp : Posted w.Busy L k') (hb : w.Busy e) (hL : (L e).id = (w.letter e).id) :
    (k'.envs e).letter.id = (w.letter e).id := by
  rw [hp.letter e hb, hL]

/-- Two environments that are there have two identifiers. -/
theorem IpcInv.id_ne {c : ℕ} (h : IpcInv w) (hx : Executing w.kern c cur) (hne : e ≠ cur) (hb : w.Busy e) :
    (w.letter e).id ≠ (w.letter cur).id := by
  intro hid
  apply hne
  have hcur := h.posted.slot cur (h.rest.exec.notFree c cur hx)
  have he := h.posted.slot e (h.posted.alive e hb)
  calc e = envx (w.letter e).id := he.symm
    _ = envx (w.letter cur).id := by rw [hid]
    _ = cur := hcur

theorem busy_of_setPc {pc : IpcPc} (hcur : w.Busy cur) (hb : ((w.setKern k').setPc cur pc).Busy e) : w.Busy e := by
  by_cases he : e = cur
  · rw [he]
    exact hcur
  · change Function.update w.pc cur pc e ≠ .user at hb
    rw [Function.update_of_ne he] at hb
    exact hb

theorem update_letter_id {l : Letter} (hl : l.id = (L cur).id) : (Function.update L cur l e).id = (L e).id := by
  by_cases he : e = cur
  · rw [he, Function.update_self, hl]
  · rw [Function.update_of_ne he]

/-- A step gives an environment that is in one of the two functions no other identifier. -/
theorem IpcStep.id (hs : IpcStep w w') (h : IpcInv w) (hb : w'.Busy e) : (w'.letter e).id = (w.letter e).id := by
  have hbusy {o : EnvIdx} {pc : IpcPc} (hpc : w.pc o = pc) (hne : pc ≠ .user) : w.Busy o := by
    rw [IpcWorld.Busy, hpc]
    exact hne
  cases hs with
  | user hx hpc hs hm hno => exact (h.user_posted hx hpc hs hno).id hb rfl
  | store hs => exact (h.store_posted hs).id hb rfl
  | start hs => exact (h.start_posted hs).id hb rfl
  | wake hu hno hs => exact (h.wake_posted hu hno hs).id hb rfl
  | interrupt hx hcs hirq heax hs => exact (h.interrupt_posted hx hcs hirq heax hs).id hb rfl
  | @trapSend c cur inp _ toEnv value srcva perm hx hpc hc h₁ h₂ _ _ hs =>
    have hcur := hbusy hpc IpcPc.noConfusion
    have hdeliver (o : EnvIdx) : (Function.update w.letter (envx inp.tf.tfRegs.regEdx)
        ((w.letter (envx inp.tf.tfRegs.regEdx)).deliver (w.letter cur).id inp.tf.tfRegs.regEcx) o).id = (w.letter o).id :=
      update_letter_id rfl
    cases hs with
    | trap _ ht =>
      obtain ⟨v, hv, hp⟩ | ⟨hne, -, -, -, hp⟩ := posted_send h.posted hcur (h.notRecving hx) hx.2 h.rest.lock hc.1 hc.2.1 hc.2.2 ht
      · exact hp.id (busy_of_setPc hcur hb) (update_letter_id rfl)
      · refine hp.id (busy_of_setPc hcur hb) (Eq.trans (update_letter_id ?_) (hdeliver e))
        exact (hdeliver cur).symm
  | trapYield hx hpc hc hs =>
    have hcur := hbusy hpc IpcPc.noConfusion
    cases hs with
    | trap _ ht =>
      exact (posted_yield h.posted hx.2 h.rest.lock hc.1 hc.2.1 hc.2.2 ht).id (busy_of_setPc hcur hb) (update_letter_id rfl)
  | trapRecv hx hpc hc _ hs =>
    have hcur := hbusy hpc IpcPc.noConfusion
    cases hs with
    | trap _ ht =>
      obtain ⟨v, -, -, hp⟩ | hp := posted_recv h.posted hcur hx.2 h.rest.lock hc.1 hc.2.1 hc.2.2 ht
      · exact hp.id (busy_of_setPc hcur hb) (update_letter_id rfl)
      · exact hp.id (busy_of_setPc hcur hb) (update_letter_id rfl)
  | callSend | sendReturns | sendRetries | sendPanics | callRecv | recvFails | recvFetches | recvReturns => rfl

/-- The logs grow where an environment returns from one of the two functions. -/
theorem IpcStep.logs (hs : IpcStep w w') :
    (w'.sends = w.sends ∨ ∃ cur toEnv value, (w.pc cur).job = .sending toEnv value ∧ (w'.pc cur).job = .user ∧
      w'.sends = w.sends ++ [((w.letter cur).id, toEnv, value)]) ∧
    (w'.recvs = w.recvs ∨ ∃ cur sender value, (w.pc cur).job = .receiving ∧ (w'.pc cur).job = .user ∧
      w'.recvs = w.recvs ++ [(sender, (w.letter cur).id, value)]) := by
  cases hs with
  | @sendReturns c cur toEnv value srcva perm hx hpc hr =>
    refine ⟨Or.inr ⟨cur, toEnv, value, by rw [hpc]; rfl, ?_, rfl⟩, Or.inl rfl⟩
    change (Function.update w.pc cur .user cur).job = _
    rw [Function.update_self]
    rfl
  | @recvReturns c cur sender hx hpc =>
    refine ⟨Or.inl rfl, Or.inr ⟨cur, sender, _, by rw [hpc]; rfl, ?_, rfl⟩⟩
    change (Function.update w.pc cur .user cur).job = _
    rw [Function.update_self]
    rfl
  | user | store | start | wake | interrupt | trapSend | trapYield | trapRecv | callSend | sendRetries | sendPanics | callRecv
  | recvFails | recvFetches => exact ⟨Or.inl rfl, Or.inl rfl⟩

end Steps

/-- An environment with the identifier `id` does what its program says: `srv` of `serve`, `cli` of the clients, and the others do
not send to clients. -/
def JobOk (S : Word) (IsClient : Word → Prop) (srv : ServePc) (cli : Word → FsipcPc) (id : Word) : IpcJob → Prop
  | .user => True
  | .sending toEnv value => (id = S → ∃ req, srv = .replying toEnv req value) ∧
      (IsClient id → toEnv = S ∧ cli id = .asking value) ∧ (id ≠ S → ¬ IsClient id → ¬ IsClient toEnv)
  | .receiving => (id = S → srv = .receiving) ∧ (IsClient id → ∃ type, cli id = .waiting type)

/-- The messages between a client `a` and `S` are the requests and the replies. -/
structure MailOk (S : Word) (w : RpcWorld) (a : Word) : Prop where
  asks : valuesOf w.ipc.sends a S = (callsOf w.done a).map Prod.fst ++ (w.cli a).unanswered
  takes : valuesOf w.ipc.recvs a S = (callsOf w.served a).map Prod.fst ++ w.srv.taken a
  replies : valuesOf w.ipc.sends S a = (callsOf w.served a).map Prod.snd
  answers : valuesOf w.ipc.recvs S a = (callsOf w.done a).map Prod.snd
  foreign : ∀ b, b ≠ S → valuesOf w.ipc.sends b a = []

structure RpcInv (S : Word) (IsClient : Word → Prop) (w : RpcWorld) : Prop where
  ipc : IpcInv w.ipc
  job : ∀ e, JobOk S IsClient w.srv w.cli (w.ipc.letter e).id (w.ipc.pc e).job
  mail : ∀ a, IsClient a → MailOk S w a

section Invariant

variable {S : Word} {IsClient : Word → Prop} {w w' : RpcWorld} {i' : IpcWorld} {e cur : EnvIdx} {c : ℕ} {a : Word}
  {srv' : ServePc} {cli' : Word → FsipcPc} {pc : IpcPc}

theorem JobOk.congr {id : Word} {cli : Word → FsipcPc} {srv : ServePc} {job : IpcJob} (h : JobOk S IsClient srv cli id job)
    (hsrv : id = S → srv' = srv) (hcli : cli' id = cli id) : JobOk S IsClient srv' cli' id job := by
  cases job with
  | user => exact trivial
  | sending toEnv value =>
    refine ⟨fun hid => ?_, fun hcl => ?_, h.2.2⟩
    · rw [hsrv hid]
      exact h.1 hid
    · rw [hcli]
      exact h.2.1 hcl
  | receiving =>
    refine ⟨fun hid => ?_, fun hcl => ?_⟩
    · rw [hsrv hid]
      exact h.1 hid
    · rw [hcli]
      exact h.2 hcl

/-- The environment `cur` moves in user mode, and its program with it. -/
theorem RpcInv.jobs (h : RpcInv S IsClient w) (hx : Executing w.ipc.kern c cur)
    (hsrv : (w.ipc.letter cur).id ≠ S → srv' = w.srv) (hcli : ∀ a, a ≠ (w.ipc.letter cur).id → cli' a = w.cli a)
    (hcur : JobOk S IsClient srv' cli' (w.ipc.letter cur).id pc.job) (e : EnvIdx) :
    JobOk S IsClient srv' cli' (w.ipc.letter e).id (Function.update w.ipc.pc cur pc e).job := by
  by_cases he : e = cur
  · rw [he, Function.update_self]
    exact hcur
  · rw [Function.update_of_ne he]
    by_cases hb : w.ipc.pc e = .user
    · rw [hb]
      exact trivial
    · have hid := h.ipc.id_ne hx he hb
      exact (h.job e).congr (fun hS => hsrv fun hcurS => hid (hS.trans hcurS.symm)) (hcli _ hid)

/-- An environment keeps its identifier and its job. -/
theorem RpcInv.jobSame (h : RpcInv S IsClient w) (hs : IpcStep w.ipc i') (hjob : (i'.pc e).job = (w.ipc.pc e).job) :
    JobOk S IsClient w.srv w.cli (i'.letter e).id (i'.pc e).job := by
  by_cases hb : i'.pc e = .user
  · rw [hb]
    exact trivial
  · rw [hjob, hs.id h.ipc hb]
    exact h.job e

theorem RpcInv.inside (h : RpcInv S IsClient w) (hs : IpcStep w.ipc i') (hjob : ∀ e, (i'.pc e).job = (w.ipc.pc e).job) :
    RpcInv S IsClient { w with ipc := i' } := by
  refine ⟨hs.inv h.ipc, fun e => h.jobSame hs (hjob e), fun a ha => ?_⟩
  have hsends : i'.sends = w.ipc.sends := hs.logs.1.resolve_right fun ⟨cur, toEnv, value, hj, hj', _⟩ => by
    rw [hjob cur, hj] at hj'
    cases hj'
  have hrecvs : i'.recvs = w.ipc.recvs := hs.logs.2.resolve_right fun ⟨cur, sender, value, hj, hj', _⟩ => by
    rw [hjob cur, hj] at hj'
    cases hj'
  obtain ⟨hasks, htakes, hreplies, hanswers, hforeign⟩ := h.mail a ha
  rw [← hsends] at hasks hreplies
  rw [← hrecvs] at htakes hanswers
  refine ⟨hasks, htakes, hreplies, hanswers, fun b hb => ?_⟩
  change valuesOf i'.sends b a = []
  rw [hsends]
  exact hforeign b hb

theorem RpcInv.other (h : RpcInv S IsClient w) (hs : IpcStep w.ipc i')
    (hid : (w.ipc.letter e).id ≠ S ∧ ¬ IsClient (w.ipc.letter e).id) (hjob : ∀ o, o ≠ e → (i'.pc o).job = (w.ipc.pc o).job)
    (hto : ∀ toEnv value, (i'.pc e).job = .sending toEnv value → ¬ IsClient toEnv) : RpcInv S IsClient { w with ipc := i' } := by
  refine ⟨hs.inv h.ipc, fun o => ?_, fun a ha => ?_⟩
  · by_cases ho : o = e
    · subst ho
      by_cases hb : i'.pc o = .user
      · change JobOk _ _ _ _ _ (i'.pc o).job
        rw [hb]
        exact trivial
      · change JobOk S IsClient w.srv w.cli (i'.letter o).id (i'.pc o).job
        rw [hs.id h.ipc hb]
        cases hj : (i'.pc o).job with
        | user => exact trivial
        | sending toEnv value =>
          exact ⟨fun hS => absurd hS hid.1, fun hcl => absurd hcl hid.2, fun _ _ => hto toEnv value hj⟩
        | receiving => exact ⟨fun hS => absurd hS hid.1, fun hcl => absurd hcl hid.2⟩
    · exact h.jobSame hs (hjob o ho)
  · -- it is the environment `e` that a message is from, or for
    have hwho {o : EnvIdx} {j : IpcJob} (hj : (w.ipc.pc o).job = j) (hne : j ≠ .user) (hj' : (i'.pc o).job = .user) : o = e := by
      by_contra ho
      rw [hjob o ho, hj] at hj'
      exact hne hj'
    have hsends (x b : Word) (hb : IsClient b ∨ IsClient x ∧ b = S) : valuesOf i'.sends x b = valuesOf w.ipc.sends x b := by
      obtain hsame | ⟨o, toEnv, value, hj, hj', happ⟩ := hs.logs.1
      · rw [hsame]
      · obtain rfl := hwho hj IpcJob.noConfusion hj'
        have hok := h.job o
        rw [hj] at hok
        have hnot := hok.2.2 hid.1 hid.2
        rw [happ, valuesOf_append, if_neg, List.append_nil]
        rintro ⟨rfl, rfl⟩
        rcases hb with hb | ⟨hb, -⟩
        · exact hnot hb
        · exact hid.2 hb
    have hrecvs (x b : Word) (hb : IsClient b ∨ b = S) : valuesOf i'.recvs x b = valuesOf w.ipc.recvs x b := by
      obtain hsame | ⟨o, sender, value, hj, hj', happ⟩ := hs.logs.2
      · rw [hsame]
      · obtain rfl := hwho hj IpcJob.noConfusion hj'
        rw [happ, valuesOf_append, if_neg, List.append_nil]
        rintro ⟨-, rfl⟩
        rcases hb with hb | hb
        · exact hid.2 hb
        · exact hid.1 hb
    obtain ⟨hasks, htakes, hreplies, hanswers, hforeign⟩ := h.mail a ha
    refine ⟨?_, ?_, ?_, ?_, fun b hb => ?_⟩
    · exact (hsends a S (Or.inr ⟨ha, rfl⟩)).trans hasks
    · exact (hrecvs a S (Or.inr rfl)).trans htakes
    · exact (hsends S a (Or.inl ha)).trans hreplies
    · exact (hrecvs S a (Or.inl ha)).trans hanswers
    · exact (hsends b a (Or.inl ha)).trans (hforeign b hb)

theorem MailOk.congr (h : MailOk S w a) (hs : w'.ipc.sends = w.ipc.sends) (hr : w'.ipc.recvs = w.ipc.recvs)
    (hserved : w'.served = w.served) (hdone : w'.done = w.done) (hcli : (w'.cli a).unanswered = (w.cli a).unanswered)
    (hsrv : w'.srv.taken a = w.srv.taken a) : MailOk S w' a := by
  refine ⟨?_, ?_, ?_, ?_, fun b hb => ?_⟩
  · rw [hs, hdone, hcli]
    exact h.asks
  · rw [hr, hserved, hsrv]
    exact h.takes
  · rw [hs, hserved]
    exact h.replies
  · rw [hr, hdone]
    exact h.answers
  · rw [hs]
    exact h.foreign b hb

/-- `serve` moves, and the mail of every client stays as it is. -/
theorem RpcInv.serve (h : RpcInv S IsClient w) (hx : Executing w.ipc.kern c cur) (hid : (w.ipc.letter cur).id = S) (hs : IpcStep w.ipc (w.ipc.setPc cur pc)) (hjob : JobOk S IsClient srv' w.cli S pc.job)
    (hsrv : ∀ a, IsClient a → srv'.taken a = w.srv.taken a) :
    RpcInv S IsClient { w with ipc := w.ipc.setPc cur pc, srv := srv' } := by
  refine ⟨hs.inv h.ipc, h.jobs hx (fun hne => absurd hid hne) (fun _ _ => rfl) ?_, fun a ha => ?_⟩
  · rw [hid]
    exact hjob
  · exact (h.mail a ha).congr rfl rfl rfl rfl rfl (hsrv a ha)

/-- A client moves, and no message of it has come or gone. -/
theorem RpcInv.client {fpc : FsipcPc} (h : RpcInv S IsClient w) (hx : Executing w.ipc.kern c cur) (hs : IpcStep w.ipc (w.ipc.setPc cur pc))
    (hjob : JobOk S IsClient w.srv (Function.update w.cli (w.ipc.letter cur).id fpc) (w.ipc.letter cur).id pc.job)
    (hsame : fpc.unanswered = (w.cli (w.ipc.letter cur).id).unanswered) :
    RpcInv S IsClient ({ w with ipc := w.ipc.setPc cur pc }.setCli (w.ipc.letter cur).id fpc) := by
  refine ⟨hs.inv h.ipc, h.jobs hx (fun _ => rfl) (fun a ha => Function.update_of_ne ha _ _) hjob, fun a ha => ?_⟩
  refine (h.mail a ha).congr rfl rfl rfl rfl ?_ rfl
  change (Function.update w.cli (w.ipc.letter cur).id fpc a).unanswered = _
  by_cases hac : a = (w.ipc.letter cur).id
  · rw [hac, Function.update_self, hsame]
  · rw [Function.update_of_ne hac]

/-- What `serve` is doing is what its environment does. -/
theorem RpcInv.serving (h : RpcInv S IsClient w) (hid : (w.ipc.letter cur).id = S) (hpc : (w.ipc.pc cur).job = .receiving) :
    w.srv = .receiving := by
  have hok := h.job cur
  rw [hpc] at hok
  exact hok.1 hid

theorem RpcInv.replying {toEnv value : Word} (h : RpcInv S IsClient w) (hid : (w.ipc.letter cur).id = S)
    (hpc : (w.ipc.pc cur).job = .sending toEnv value) : ∃ req, w.srv = .replying toEnv req value := by
  have hok := h.job cur
  rw [hpc] at hok
  exact hok.1 hid

theorem RpcInv.asking {toEnv value : Word} (h : RpcInv S IsClient w) (hcl : IsClient (w.ipc.letter cur).id)
    (hpc : (w.ipc.pc cur).job = .sending toEnv value) : toEnv = S ∧ w.cli (w.ipc.letter cur).id = .asking value := by
  have hok := h.job cur
  rw [hpc] at hok
  exact hok.2.1 hcl

theorem RpcInv.serveTakes {whom : Word} (h : RpcInv S IsClient w) (hS : ¬ IsClient S) (hx : Executing w.ipc.kern c cur)
    (hpc : w.ipc.pc cur = .fetch whom) (hid : (w.ipc.letter cur).id = S) : RpcInv S IsClient
      { w with
        ipc := { w.ipc.setPc cur .user with recvs := w.ipc.recvs ++ [(whom, (w.ipc.letter cur).id, (w.ipc.letter cur).value)] }
        srv := .handling whom (w.ipc.letter cur).value } := by
  have hsrv : w.srv = .receiving := h.serving hid (by rw [hpc]; rfl)
  refine ⟨h.ipc.recvReturns hx hpc, h.jobs hx (fun hne => absurd hid hne) (fun _ _ => rfl) trivial, fun a ha => ?_⟩
  obtain ⟨hasks, htakes, hreplies, hanswers, hforeign⟩ := h.mail a ha
  refine ⟨hasks, ?_, hreplies, ?_, hforeign⟩
  · change valuesOf (w.ipc.recvs ++ [_]) a S = _ ++ ServePc.taken (.handling whom _) a
    rw [hsrv] at htakes
    rw [valuesOf_append, htakes, hid]
    simp only [ServePc.taken, List.append_nil, and_true]
  · change valuesOf (w.ipc.recvs ++ [_]) S a = _
    rw [valuesOf_append, if_neg, List.append_nil]
    · exact hanswers
    · rintro ⟨-, hSa⟩
      have hself : S = a := hid.symm.trans hSa
      exact hS (hself ▸ ha)

theorem RpcInv.serveReplied {toEnv value srcva perm whom req r : Word} (h : RpcInv S IsClient w) (hS : ¬ IsClient S)
    (hx : Executing w.ipc.kern c cur) (hpc : w.ipc.pc cur = .sent toEnv value srcva perm) (hid : (w.ipc.letter cur).id = S)
    (hr : (w.ipc.letter cur).eax.slt 0#32 = false) (hs : w.srv = .replying whom req r) : RpcInv S IsClient
      { w with
        ipc := { w.ipc.setPc cur .user with sends := w.ipc.sends ++ [((w.ipc.letter cur).id, toEnv, value)] }
        srv := .idle
        served := w.served ++ [(whom, req, r)] } := by
  obtain ⟨req', hsrv⟩ := h.replying hid (show (w.ipc.pc cur).job = .sending toEnv value by rw [hpc]; rfl)
  obtain ⟨rfl, rfl, rfl⟩ : whom = toEnv ∧ req = req' ∧ r = value := by
    rw [hs] at hsrv
    exact ⟨ServePc.replying.inj hsrv |>.1, ServePc.replying.inj hsrv |>.2.1, ServePc.replying.inj hsrv |>.2.2⟩
  refine ⟨h.ipc.sendReturns hx hpc hr, h.jobs hx (fun hne => absurd hid hne) (fun _ _ => rfl) trivial, fun a ha => ?_⟩
  obtain ⟨hasks, htakes, hreplies, hanswers, hforeign⟩ := h.mail a ha
  have hnot : a ≠ S := by
    rintro rfl
    exact hS ha
  rw [hs] at htakes
  refine ⟨?_, ?_, ?_, hanswers, fun b hb => ?_⟩
  · change valuesOf (w.ipc.sends ++ [_]) a S = _
    rw [valuesOf_append, if_neg, List.append_nil]
    · exact hasks
    · rintro ⟨hSa, -⟩
      exact hnot (hSa.symm.trans hid)
  · change valuesOf w.ipc.recvs a S = (callsOf (w.served ++ [_]) a).map Prod.fst ++ []
    rw [htakes, callsOf_append, List.map_append, List.append_nil]
    congr 1
    simp only [ServePc.taken]
    split_ifs <;> rfl
  · change valuesOf (w.ipc.sends ++ [_]) S a = (callsOf (w.served ++ [_]) a).map Prod.snd
    rw [valuesOf_append, callsOf_append, List.map_append, hreplies, hid]
    simp only [true_and]
    split_ifs <;> rfl
  · change valuesOf (w.ipc.sends ++ [_]) b a = []
    rw [valuesOf_append, if_neg, List.append_nil]
    · exact hforeign b hb
    · rintro ⟨hSb, -⟩
      exact hb (hSb.symm.trans hid)

theorem RpcInv.asked {toEnv value srcva perm type : Word} (h : RpcInv S IsClient w) (hS : ¬ IsClient S)
    (hx : Executing w.ipc.kern c cur) (hpc : w.ipc.pc cur = .sent toEnv value srcva perm) (hcl : IsClient (w.ipc.letter cur).id)
    (hr : (w.ipc.letter cur).eax.slt 0#32 = false) (hs : w.cli (w.ipc.letter cur).id = .asking type) : RpcInv S IsClient
      ({ w with ipc := { w.ipc.setPc cur .user with sends := w.ipc.sends ++ [((w.ipc.letter cur).id, toEnv, value)] } }.setCli
        (w.ipc.letter cur).id (.asked type)) := by
  obtain ⟨rfl, hcli⟩ := h.asking hcl (show (w.ipc.pc cur).job = .sending toEnv value by rw [hpc]; rfl)
  obtain rfl : type = value := FsipcPc.asking.inj (hs.symm.trans hcli)
  refine ⟨h.ipc.sendReturns hx hpc hr, h.jobs hx (fun _ => rfl) (fun a ha => Function.update_of_ne ha _ _) trivial, fun a ha => ?_⟩
  obtain ⟨hasks, htakes, hreplies, hanswers, hforeign⟩ := h.mail a ha
  -- the request is one to the server, and no reply
  have hother (x : Word) : valuesOf (w.ipc.sends ++ [((w.ipc.letter cur).id, toEnv, type)]) x a = valuesOf w.ipc.sends x a := by
    rw [valuesOf_append, if_neg, List.append_nil]
    rintro ⟨-, hSa⟩
    have hself : toEnv = a := hSa
    exact hS (hself ▸ ha)
  refine ⟨?_, htakes, (hother toEnv).trans hreplies, hanswers, fun b hb => (hother b).trans (hforeign b hb)⟩
  change valuesOf (w.ipc.sends ++ [_]) a toEnv = _ ++ (Function.update w.cli (w.ipc.letter cur).id (.asked type) a).unanswered
  rw [valuesOf_append, hasks, List.append_assoc]
  congr 1
  by_cases hac : a = (w.ipc.letter cur).id
  · rw [hac, Function.update_self, hs, if_pos ⟨rfl, rfl⟩]
    rfl
  · rw [Function.update_of_ne hac, if_neg fun hbad => hac hbad.1.symm, List.append_nil]

/-- Only the server sends to a client. -/
theorem RpcInv.sender {sender : Word} (h : RpcInv S IsClient w) (hS : ¬ IsClient S) (hx : Executing w.ipc.kern c cur)
    (hpc : w.ipc.pc cur = .fetch sender) (hcl : IsClient (w.ipc.letter cur).id) : sender = S := by
  by_contra hne
  have hcur : envx (w.ipc.letter cur).id = cur := h.ipc.posted.slot cur (h.ipc.rest.exec.notFree c cur hx)
  have hin : w.ipc.incoming sender (w.ipc.letter cur).id = [(w.ipc.letter cur).value] := by
    unfold IpcWorld.incoming
    rw [hcur, hpc]
    exact if_pos ⟨rfl, rfl⟩
  have hout : w.ipc.outgoing sender (w.ipc.letter cur).id = [] := by
    unfold IpcWorld.outgoing
    have hok := h.job (envx sender)
    cases hsend : w.ipc.pc (envx sender) with
    | sent toEnv value srcva perm =>
      rw [hsend] at hok
      refine if_neg ?_
      rintro ⟨hid, rfl, -⟩
      rw [hid] at hok
      by_cases hsc : IsClient sender
      · exact hS ((hok.2.1 hsc).1 ▸ hcl)
      · exact hok.2.2 hne hsc hcl
    | user | send | yield | recv | recvd | fetch => rfl
  have hbal := h.ipc.balanced sender (w.ipc.letter cur).id
  rw [(h.mail _ hcl).foreign sender hne, hout, hin] at hbal
  exact List.append_ne_nil_of_right_ne_nil _ (List.cons_ne_nil _ _) hbal.symm

theorem RpcInv.answered {sender type : Word} (h : RpcInv S IsClient w) (hS : ¬ IsClient S) (hx : Executing w.ipc.kern c cur)
    (hpc : w.ipc.pc cur = .fetch sender) (hcl : IsClient (w.ipc.letter cur).id)
    (hs : w.cli (w.ipc.letter cur).id = .waiting type) : RpcInv S IsClient
      ({ w with
         ipc := { w.ipc.setPc cur .user with
                  recvs := w.ipc.recvs ++ [(sender, (w.ipc.letter cur).id, (w.ipc.letter cur).value)] }
         done := w.done ++ [((w.ipc.letter cur).id, type, (w.ipc.letter cur).value)] }.setCli (w.ipc.letter cur).id .idle) := by
  obtain rfl := h.sender hS hx hpc hcl
  refine ⟨h.ipc.recvReturns hx hpc, h.jobs hx (fun _ => rfl) (fun a ha => Function.update_of_ne ha _ _) trivial, fun a ha => ?_⟩
  obtain ⟨hasks, htakes, hreplies, hanswers, hforeign⟩ := h.mail a ha
  refine ⟨?_, ?_, hreplies, ?_, hforeign⟩
  · change valuesOf w.ipc.sends a sender = (callsOf (w.done ++ [_]) a).map Prod.fst ++
      (Function.update w.cli (w.ipc.letter cur).id .idle a).unanswered
    rw [hasks, callsOf_append, List.map_append, List.append_assoc]
    congr 1
    by_cases hac : a = (w.ipc.letter cur).id
    · rw [hac, Function.update_self, hs, if_pos rfl]
      rfl
    · rw [Function.update_of_ne hac, if_neg fun hbad => hac hbad.symm]
      rfl
  · change valuesOf (w.ipc.recvs ++ [_]) a sender = _
    rw [valuesOf_append, if_neg, List.append_nil]
    · exact htakes
    · rintro ⟨-, hself⟩
      exact hS (hself ▸ hcl)
  · change valuesOf (w.ipc.recvs ++ [_]) sender a = (callsOf (w.done ++ [_]) a).map Prod.snd
    rw [valuesOf_append, callsOf_append, List.map_append, hanswers]
    simp only [true_and]
    split_ifs <;> rfl

theorem RpcStep.inv (hs : RpcStep S IsClient w w') (hS : ¬ IsClient S) (h : RpcInv S IsClient w) : RpcInv S IsClient w' := by
  cases hs with
  | inside hs hjob => exact h.inside hs hjob
  | other hs hid hjob hto => exact h.other hs hid hjob hto
  | serveRecv fsreq hx hpc hid hs =>
    refine h.serve hx hid (.callRecv fsreq hx hpc) ⟨fun _ => rfl, fun hcl => absurd hcl hS⟩ fun a _ => ?_
    rw [hs]
    rfl
  | serveFails hx hpc hid hr =>
    refine h.serve hx hid (.recvFails hx hpc hr) trivial fun a _ => ?_
    rw [h.serving hid (by rw [hpc]; rfl)]
    rfl
  | serveTakes hx hpc hid => exact h.serveTakes hS hx hpc hid
  | @serveDrops whom req hs hno =>
    refine ⟨h.ipc, fun e => ?_, fun a ha => ?_⟩
    · -- the server is outside of both functions
      have hok := h.job e
      rw [hs] at hok
      change JobOk S IsClient .idle w.cli (w.ipc.letter e).id (w.ipc.pc e).job
      cases hj : (w.ipc.pc e).job with
      | user => exact trivial
      | sending toEnv value =>
        rw [hj] at hok
        exact ⟨fun hid => absurd (hok.1 hid) fun ⟨_, hbad⟩ => ServePc.noConfusion hbad, hok.2⟩
      | receiving =>
        rw [hj] at hok
        exact ⟨fun hid => ServePc.noConfusion (hok.1 hid), hok.2⟩
    · refine (h.mail a ha).congr rfl rfl rfl rfl rfl ?_
      rw [hs]
      refine (if_neg ?_).symm
      rintro rfl
      exact hno ha
  | @serveReplies c cur whom req r pg perm hx hpc hid hs =>
    refine h.serve hx hid (.callSend whom r pg perm hx hpc) ⟨fun _ => ⟨req, rfl⟩, fun hcl => absurd hcl hS, fun hne => absurd rfl hne⟩
      fun a _ => ?_
    rw [hs]
    rfl
  | serveReplied hx hpc hid hr hs => exact h.serveReplied hS hx hpc hid hr hs
  | servePanics hx hpc hid hr hne hs =>
    refine h.serve hx hid (.sendPanics hx hpc hr hne) trivial fun a _ => ?_
    rw [hs]
    rfl
  | @ask c cur type buf hx hpc hcl hs =>
    refine h.client hx (.callSend S type buf fsipcPerm hx hpc) ⟨fun hid => ?_, fun _ => ⟨rfl, Function.update_self ..⟩, ?_⟩ ?_
    · exact absurd (hid ▸ hcl) hS
    · exact fun _ hno => absurd hcl hno
    · rw [hs]
      rfl
  | asked hx hpc hcl hr hs => exact h.asked hS hx hpc hcl hr hs
  | @askPanics c cur toEnv value srcva perm hx hpc hcl hr hne =>
    refine h.client hx (.sendPanics hx hpc hr hne) trivial ?_
    rw [(h.asking hcl (show (w.ipc.pc cur).job = .sending toEnv value by rw [hpc]; rfl)).2]
    rfl
  | await dstva hx hpc hcl hs =>
    refine h.client hx (.callRecv dstva hx hpc) ⟨fun hid => absurd (hid ▸ hcl) hS, fun _ => ⟨_, Function.update_self ..⟩⟩ ?_
    rw [hs]
    rfl
  | awaitFails hx hpc hcl hr hs =>
    refine h.client hx (.recvFails hx hpc hr) trivial ?_
    rw [hs]
    rfl
  | answered hx hpc hcl hs => exact h.answered hS hx hpc hcl hs

theorem outgoing_job (w : IpcWorld) (a b : Word) : w.outgoing a b = [] ∨ ∃ value, w.outgoing a b = [value] ∧
    (w.letter (envx a)).id = a ∧ (w.pc (envx a)).job = .sending b value := by
  unfold IpcWorld.outgoing
  cases hpc : w.pc (envx a) with
  | sent toEnv value srcva perm =>
    unfold IpcPc.outgoing
    dsimp only
    split_ifs with hsent
    · refine Or.inr ⟨value, rfl, hsent.1, ?_⟩
      rw [hsent.2.1]
      rfl
    · exact Or.inl rfl
  | user | send | yield | recv | recvd | fetch => exact Or.inl rfl

/-- What `serve` has taken begins with the request of the reply that it is sending. -/
theorem ServePc.taken_answering (srv : ServePc) (a : Word) : ∃ l, srv.taken a = (srv.answering a).map Prod.fst ++ l := by
  cases srv with
  | replying whom req r =>
    refine ⟨[], ?_⟩
    unfold ServePc.taken ServePc.answering
    dsimp only
    split_ifs <;> rfl
  | idle | receiving | handling | panicked => exact ⟨_, rfl⟩

theorem RpcInv.matched (h : RpcInv S IsClient w) (ha : IsClient a) : callsOf w.done a <+: callsOf w.served a ++ w.srv.answering a := by
  obtain ⟨hasks, htakes, hreplies, hanswers, -⟩ := h.mail a ha
  have hback := h.ipc.balanced S a
  have hforth := h.ipc.balanced a S
  rw [hreplies, hanswers] at hback
  rw [hasks, htakes] at hforth
  obtain ⟨l, htaken⟩ := w.srv.taken_answering a
  have hsnd : ∃ r, (callsOf w.served a ++ w.srv.answering a).map Prod.snd = (callsOf w.done a).map Prod.snd ++ r := by
    rw [List.map_append]
    obtain hnone | ⟨value, hout, hid, hjob⟩ := outgoing_job w.ipc S a
    · rw [hnone, List.append_nil] at hback
      exact ⟨w.ipc.incoming S a ++ (w.srv.answering a).map Prod.snd, by rw [hback, List.append_assoc]⟩
    · obtain ⟨req, hsrv⟩ := h.replying hid hjob
      have hans : (w.srv.answering a).map Prod.snd = [value] := by
        rw [hsrv]
        unfold ServePc.answering
        dsimp only
        rw [if_pos rfl]
        rfl
      rw [hout] at hback
      exact ⟨_, by rw [hans, hback]⟩
  obtain ⟨r, hsnd⟩ := hsnd
  have hfst : (callsOf w.done a).map Prod.fst ++ ((w.cli a).unanswered ++ w.ipc.outgoing a S) =
      (callsOf w.served a ++ w.srv.answering a).map Prod.fst ++ (l ++ w.ipc.incoming a S) := by
    rw [htaken] at hforth
    simpa only [List.map_append, List.append_assoc] using hforth
  exact prefix_of_balance hsnd hfst

theorem RpcInv.inOrder (h : RpcInv S IsClient w) (ha : IsClient a) :
    (callsOf w.served a).map Prod.fst ++ w.srv.taken a <+: (callsOf w.done a).map Prod.fst ++ (w.cli a).outstanding := by
  obtain ⟨hasks, htakes, -, -, -⟩ := h.mail a ha
  have hforth := h.ipc.balanced a S
  rw [hasks, htakes] at hforth
  have hasked : (w.cli a).unanswered ++ w.ipc.outgoing a S <+: (w.cli a).outstanding := by
    obtain hnone | ⟨value, hout, hid, hjob⟩ := outgoing_job w.ipc a S
    · rw [hnone, List.append_nil]
      cases w.cli a with
      | asking type => exact List.nil_prefix
      | idle | asked | waiting | panicked | failed => exact List.prefix_refl _
    · have hcli := (h.asking (by rw [hid]; exact ha) hjob).2
      rw [hid] at hcli
      rw [hout, hcli]
      exact List.prefix_refl _
  obtain ⟨l, hl⟩ := hasked
  refine ⟨w.ipc.incoming a S ++ l, ?_⟩
  calc (callsOf w.served a).map Prod.fst ++ w.srv.taken a ++ (w.ipc.incoming a S ++ l)
      = (callsOf w.served a).map Prod.fst ++ w.srv.taken a ++ w.ipc.incoming a S ++ l := (List.append_assoc _ _ _).symm
    _ = (callsOf w.done a).map Prod.fst ++ (w.cli a).unanswered ++ w.ipc.outgoing a S ++ l := by rw [hforth]
    _ = (callsOf w.done a).map Prod.fst ++ ((w.cli a).unanswered ++ w.ipc.outgoing a S ++ l) := by
      rw [List.append_assoc, List.append_assoc, List.append_assoc]
    _ = (callsOf w.done a).map Prod.fst ++ (w.cli a).outstanding := by rw [hl]

theorem RpcBooted.inv (h : RpcBooted w) : RpcInv S IsClient w := by
  refine ⟨h.ipc.inv, fun e => ?_, fun a _ => ⟨?_, ?_, ?_, ?_, fun b _ => ?_⟩⟩
  · rw [h.ipc.pc e]
    exact trivial
  · rw [h.ipc.sends, h.done, h.cli a]
    rfl
  · rw [h.ipc.recvs, h.served, h.srv]
    rfl
  · rw [h.ipc.sends, h.served]
    rfl
  · rw [h.ipc.recvs, h.done]
    rfl
  · rw [h.ipc.sends]
    rfl

end Invariant

end Sisop
