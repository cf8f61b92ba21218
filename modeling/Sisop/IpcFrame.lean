import Sisop.IpcBlocked

/-! What the kernel leaves alone of the environments that are in the middle of `ipc_send` or `ipc_recv`. -/
namespace Sisop

open Routine (Triple Stays)

/-- What `lib/ipc.c` sees of an environment: its identifier, its IPC fields, and the result of its last system call. -/
structure Letter where
  id : Word
  recving : Bool
  sender : Word
  value : Word
  eax : Word

def Env.letter (env : Env) : Letter where
  id := env.envId
  recving := env.envIpcRecving
  sender := env.envIpcFrom
  value := env.envIpcValue
  eax := env.envTf.tfRegs.regEax

/-- The busy environments `B` are there, with the letters `L`. Only they receive, no environment is a zombie, and the
identifiers of those that are not free name their slots. -/
structure Posted (B : EnvIdx → Prop) (L : EnvIdx → Letter) (k : Kern) : Prop where
  letter : ∀ o, B o → (k.envs o).letter = L o
  alive : ∀ o, B o → k.status o ≠ .free
  recving : ∀ o, (k.envs o).envIpcRecving = true → B o
  zombie : ∀ o, k.status o ≠ .dying
  slot : ∀ o, k.status o ≠ .free → envx (k.envs o).envId = o

/-- A system call that names a busy environment as the one to start, stop or destroy, or one that is running elsewhere as
the one to destroy. -/
def Disturbs (B : EnvIdx → Prop) (k : Kern) (c : ℕ) (regs : PushRegs) : Prop :=
  ∃ e, Names k c regs.regEdx true e ∧
    (regs.regEax = 3#32 ∧ (B e ∨ k.status e = .running ∧ (k.cpus c).cpuEnv ≠ some e) ∨ regs.regEax = 8#32 ∧ B e)

section Frame

variable {B : EnvIdx → Prop} {L L' : EnvIdx → Letter} {k k' : Kern} {c : ℕ} {e : EnvIdx} {f : Env → Env} {E : Kern → Prop}

/-- One environment changes. -/
theorem Posted.setEnv (h : Posted B L k) (hL : ∀ o, o ≠ e → L' o = L o) (hl : B e → (f (k.envs e)).letter = L' e)
    (ha : B e → (f (k.envs e)).envStatus ≠ .free) (hr : (f (k.envs e)).envIpcRecving = true → B e)
    (hz : (f (k.envs e)).envStatus ≠ .dying) (hs : (f (k.envs e)).envStatus ≠ .free → envx (f (k.envs e)).envId = e) :
    Posted B L' (k.setEnv e f) := by
  refine ⟨fun o ho => ?_, fun o ho => ?_, fun o hrecv => ?_, fun o => ?_, fun o ho => ?_⟩
  · rw [setEnv_envs]
    split_ifs with hoe
    · rw [hoe] at ho ⊢
      exact hl ho
    · rw [hL o hoe]
      exact h.letter o ho
  · rw [setEnv_status]
    split_ifs with hoe
    · rw [hoe] at ho
      exact ha ho
    · exact h.alive o ho
  · rw [setEnv_envs] at hrecv
    split_ifs at hrecv with hoe
    · rw [hoe]
      exact hr hrecv
    · exact h.recving o hrecv
  · rw [setEnv_status]
    split_ifs
    · exact hz
    · exact h.zombie o
  · rw [setEnv_status] at ho
    rw [setEnv_envs]
    split_ifs at ho ⊢ with hoe
    · rw [hoe]
      exact hs ho
    · exact h.slot o ho

/-- The letter of the environment that changes stays as it is, and so does whether it is free. -/
theorem Posted.setEnv_same (h : Posted B L k) (hl : (f (k.envs e)).letter = (k.envs e).letter)
    (ha : (f (k.envs e)).envStatus ≠ .free ↔ k.status e ≠ .free) (hz : (f (k.envs e)).envStatus ≠ .dying) :
    Posted B L (k.setEnv e f) := by
  refine h.setEnv (fun _ _ => rfl) (fun he => hl.trans (h.letter e he)) (fun hb => ha.mpr (h.alive e hb))
    (fun hr => h.recving e ?_) hz fun hf => ?_
  · have hrecv : (f (k.envs e)).envIpcRecving = (k.envs e).envIpcRecving := congrArg Letter.recving hl
    rw [← hrecv]
    exact hr
  · have hid : (f (k.envs e)).envId = (k.envs e).envId := congrArg Letter.id hl
    rw [hid]
    exact h.slot e (ha.mp hf)

/-- Registers, counters and handlers may change. -/
theorem Posted.setEnv_inner (h : Posted B L k) (hl : (f (k.envs e)).letter = (k.envs e).letter)
    (hs : (f (k.envs e)).envStatus = (k.envs e).envStatus) : Posted B L (k.setEnv e f) := by
  refine h.setEnv_same hl ?_ ?_
  · rw [hs]
    exact Iff.rfl
  · rw [hs]
    exact h.zombie e

/-- An environment that is not busy changes, but does not start to receive. -/
theorem Posted.setEnv_other (h : Posted B L k) (he : ¬ B e)
    (hr : (f (k.envs e)).envIpcRecving = true → (k.envs e).envIpcRecving = true) (hz : (f (k.envs e)).envStatus ≠ .dying)
    (hs : (f (k.envs e)).envStatus ≠ .free → envx (f (k.envs e)).envId = e) : Posted B L (k.setEnv e f) :=
  h.setEnv (fun _ _ => rfl) (fun hb => absurd hb he) (fun hb => absurd hb he) (fun hf => h.recving e (hr hf)) hz hs

theorem Posted.changeStatus (h : Posted B L k) {st : EnvStatus} (he : k.status e ≠ .free) (hf : st ≠ .free) (hd : st ≠ .dying) :
    Posted B L (k.setStatus e st) := h.setEnv_same rfl (iff_of_true hf he) hd

theorem Posted.congr (h : Posted B L k) (he : k'.envs = k.envs) : Posted B L k' := by
  have hstatus (o : EnvIdx) : k'.status o = k.status o := congrArg Env.envStatus (congrFun he o)
  refine ⟨fun o ho => ?_, fun o ho => ?_, fun o hr => ?_, fun o => ?_, fun o ho => ?_⟩
  · rw [he]
    exact h.letter o ho
  · rw [hstatus]
    exact h.alive o ho
  · rw [he] at hr
    exact h.recving o hr
  · rw [hstatus]
    exact h.zombie o
  · rw [hstatus] at ho
    rw [he]
    exact h.slot o ho

theorem memSteady_posted : MemSteady (Posted B L) := fun _ _ h => h.congr rfl

theorem Posted.freed (h : Posted B L k) (he : ¬ B e) (t : Pm) : Posted B L (k.freed e t) := by
  have hk : Posted B L (k.setEnv e fun env => { env with
      envPgdir := none
      envStatus := .free
      envLink := k.envFreeList }) := h.setEnv_other he (fun hr => hr) (by simp) fun hf => absurd rfl hf
  exact hk.congr rfl

theorem Posted.alloced (h : Posted B L k) (he : ¬ B e) (parentId : Word) (g : ℕ) (t : Pm) :
    Posted B L (k.alloced e parentId g t) := by
  have hk : Posted B L (k.setEnv e fun env => { env with
      envPgdir := some g
      envId := nextEnvId e env.envId
      envParentId := parentId
      envType := .user
      envStatus := .runnable
      envRuns := 0#32
      envTf := initialTf
      envPgfaultUpcall := 0#32
      envIpcRecving := false }) :=
    h.setEnv_other he (fun hr => by cases hr) (by simp) fun _ => (nextEnvId_spec e _).2
  exact hk.congr rfl

/-- Running an environment does not change its letter. -/
theorem posted_envRun (e : EnvIdx) :
    Triple (fun k => Posted B L k ∧ k.status e ≠ .free) (envRun c e) (fun _ _ => False) (Posted B L) := by
  have hrest : Triple (fun k => Posted B L k ∧ k.status e ≠ .free) (do
      Routine.modify fun k => k.setCurenv c (some e)
      Routine.modify fun k => k.setEnv e fun env =>
        { env with envStatus := .running, envRuns := env.envRuns + 1#32 }
      let _ ← envPgdir e
      envRun.unlockKernel c
      Routine.leave fun k => (k.setEnv e fun env => { env with envCpunum := c }).setCpu c fun cpu =>
        { cpu with user := true } : Routine Kern Unit) (fun _ _ => False) (Posted B L) := by
    refine .bind (.modify (Q := fun _ k => Posted B L k ∧ k.status e ≠ .free) fun k hk => ⟨hk.1.congr rfl, hk.2⟩) fun _ => ?_
    refine .bind (.modify (Q := fun _ => Posted B L) fun k hk => ?_) fun _ => ?_
    · exact hk.1.setEnv_same rfl (iff_of_true (by simp) hk.2) (by simp)
    refine .bind (keeps_envPgdir e) fun _ => .bind (triple_unlockKernel fun k hk => hk.congr rfl) fun _ => ?_
    refine .leave fun k hk => ?_
    have hk' : Posted B L (k.setEnv e fun env => { env with envCpunum := c }) := hk.setEnv_inner rfl rfl
    exact hk'.congr rfl
  refine .bind (.gets_same _) fun running => ?_
  cases running with
  | none => exact hrest
  | some running =>
    refine .bind (.modify fun k hk => ?_) fun _ => hrest
    split_ifs with hr
    · refine ⟨hk.1.changeStatus (by rw [hr]; decide) (by decide) (by decide), ?_⟩
      rw [setStatus_status]
      split_ifs
      · decide
      · exact hk.2
    · exact hk

theorem posted_schedHalt : Triple (Posted B L) (schedHalt c) (fun _ _ => False) (Posted B L) := by
  refine .bind (.gets_same _) fun awake => .ite_same ?_ .halt
  refine .bind (.modify (Q := fun _ => Posted B L) fun k hk => hk.congr rfl) fun _ => ?_
  refine .bind (.modify (Q := fun _ => Posted B L) fun k hk => hk.congr rfl) fun _ => ?_
  refine .bind (triple_unlockKernel fun k hk => hk.congr rfl) fun _ => ?_
  exact .leave fun k hk => hk.congr rfl

theorem posted_schedYield : Triple (Posted B L) (schedYield c) (fun _ _ => False) (Posted B L) := by
  refine .bind (Q := fun r k => Posted B L k ∧ ∀ e, r = some e → k.status e ≠ .free) (.gets fun k hk => ⟨hk, fun e he => ?_⟩)
    fun idle => ?_
  · rw [nextRunnable_status he]
    decide
  cases idle with
  | some e => exact (posted_envRun e).pre fun k hk => ⟨hk.1, hk.2 e rfl⟩
  | none =>
    refine .bind (Q := fun r k => Posted B L k ∧ ∀ e, r = some e → k.status e ≠ .free) (.gets fun k hk => ⟨hk.1, fun e he => ?_⟩)
      fun running => ?_
    · rw [(curRunning_some he).2]
      decide
    cases running with
    | some e => exact (posted_envRun e).pre fun k hk => ⟨hk.1, hk.2 e rfl⟩
    | none => exact posted_schedHalt.pre fun k hk => hk.1

/-- The environment to be destroyed is not busy, and not on another CPU. -/
theorem posted_envDestroy (he : ¬ B e) (x : Option EnvIdx) :
    Triple (fun k => Posted B L k ∧ (k.cpus c).cpuEnv = x ∧ (k.status e = .running → x = some e)) (envDestroy c e)
      (fun _ k => Posted B L k ∧ x ≠ some e) (Posted B L) := by
  refine .bind (Q := fun r k => (Posted B L k ∧ (k.cpus c).cpuEnv = x) ∧ r = false) (.gets fun k hk => ?_) fun elsewhere => ?_
  · obtain ⟨hk, rfl, hrun⟩ := hk
    exact ⟨⟨hk, rfl⟩, decide_eq_false fun h => h.2 (hrun h.1)⟩
  refine .assume (fun hr => ?_) fun k hk => hk.2
  subst hr
  refine .bind (Q := fun _ k => Posted B L k ∧ (k.cpus c).cpuEnv = x) (.of_ret (stays_envFree e) fun k _ k' hk h => ?_) fun _ => ?_
  · obtain ⟨g, s, t, -, -, -, rfl⟩ := envFree_ret h
    exact ⟨hk.1.1.freed he t, hk.1.2⟩
  refine .bind (Q := fun r k => Posted B L k ∧ (r = false → x ≠ some e)) (.gets fun k hk => ⟨hk.1, fun hr => ?_⟩) fun current => ?_
  · rw [← hk.2]
    exact of_decide_eq_false hr
  cases current with
  | true =>
    refine .bind (.modify (Q := fun _ => Posted B L) fun k hk => hk.1.congr rfl) fun _ => ?_
    exact posted_schedYield.post fun _ _ h => h.elim
  | false => exact .pure fun k hk => ⟨hk.1, hk.2 rfl⟩

/-- The destruction of the current environment does not return. -/
theorem posted_destroyCurrent (he : ¬ B e) :
    Triple (fun k => Posted B L k ∧ (k.cpus c).cpuEnv = some e) (envDestroy c e) (fun _ _ => False) (Posted B L) :=
  ((posted_envDestroy he (some e)).pre fun _ h => ⟨h.1, h.2, fun _ => rfl⟩).post fun _ _ h => h.2 rfl

theorem posted_userMemAssert (he : ¬ B e) (va len perm : Word) :
    Triple (fun k => (Posted B L k ∧ k.status e ≠ .free) ∧ (k.cpus c).cpuEnv = some e) (userMemAssert c e va len perm)
      (fun _ k => Posted B L k ∧ k.status e ≠ .free) (Posted B L) := by
  have hP : MemSteady fun k => (Posted B L k ∧ k.status e ≠ .free) ∧ (k.cpus c).cpuEnv = some e :=
    fun k t hk => ⟨⟨memSteady_posted k t hk.1.1, hk.1.2⟩, hk.2⟩
  refine .bind (keeps_envPgdir e) fun g => .bind (triple_mem hP (stays_userMemCheckFrom _ _ _ _ _)) ?_
  intro r
  cases r with
  | ok _ => exact .pure fun _ h => h.1
  | error _ => exact (posted_destroyCurrent he).conseq (fun _ h => ⟨h.1.1, h.2⟩) (fun _ _ h => h.elim) fun _ h => h

/-- The caller on the CPU `c`, if there is one, is not busy, and the list of free environments is in order. -/
structure Outside (B : EnvIdx → Prop) (L : EnvIdx → Letter) (c : ℕ) (k : Kern) : Prop where
  posted : Posted B L k
  cur : ∀ e, (k.cpus c).cpuEnv = some e → ¬ B e ∧ k.status e ≠ .free
  free : ∃ l, FreeEnvs k l

/-- The next environment to be handed out is free. -/
theorem FreeEnvs.head_free {l : List EnvIdx} (h : FreeEnvs k l) (he : k.envFreeList = some e) : k.status e = .free := by
  cases l with
  | nil => cases he.symm.trans h.1
  | cons i l =>
    obtain rfl : e = i := Option.some.inj (he.symm.trans h.1.1)
    exact h.2.2 e List.mem_cons_self

theorem posted_sysEnvDestroy (envid : Word) :
    Triple (fun k => Outside B L c k ∧ ∀ e, Names k c envid true e → ¬ B e ∧ (k.status e = .running → (k.cpus c).cpuEnv = some e))
      (sysEnvDestroy c envid) (fun _ => Posted B L) (Posted B L) := by
  refine .bind (triple_envid2env envid true) fun r => ?_
  cases r with
  | error _ => exact .pure fun _ h => h.1.1.posted
  | ok e =>
    refine .assume (fun he => ?_) fun k hk => (hk.1.2 e (hk.2 e rfl)).1
    have hd := Triple.exists_pre fun x => (posted_envDestroy (L := L) (c := c) he x).post (Q := fun _ => Posted B L) fun _ _ h => h.1
    refine .bind (hd.pre fun k hk => ?_) fun _ => .pure fun _ h => h
    exact ⟨_, hk.1.1.posted, rfl, (hk.1.2 e (hk.2 e rfl)).2⟩

theorem posted_sysExofork : Triple (Outside B L c) (sysExofork c) (fun _ => Posted B L) E := by
  refine .bind keeps_curenv fun cur => .bind (.gets_same _) fun curId => ?_
  refine .bind (Q := fun r k => Posted B L k ∧ ∀ e, r = .ok e → ¬ B e ∧ k.status e ≠ .free) (.of_ret (stays_envAlloc curId)
    fun k r k' hk h => ?_) fun r => ?_
  · rcases envAlloc_ret h with ⟨err, rfl, rfl | ⟨t, -, rfl⟩⟩ | ⟨e, g, t, rfl, hf, -, rfl⟩
    · exact ⟨hk.posted, fun _ he => by cases he⟩
    · exact ⟨hk.posted.congr rfl, fun _ he => by cases he⟩
    · -- the head of the free list is free, so it is not busy
      obtain ⟨l, hl⟩ := hk.free
      have hfree : ¬ B e := fun hb => hk.posted.alive e hb (FreeEnvs.head_free hl hf)
      refine ⟨hk.posted.alloced hfree curId g t, fun i hi => ?_⟩
      obtain rfl := Except.ok.inj hi
      refine ⟨hfree, ?_⟩
      rw [alloced_status, if_pos rfl]
      decide
  cases r with
  | error _ => exact .pure fun _ h => h.1
  | ok e =>
    refine .bind (.modify (Q := fun _ k => Posted B L k ∧ ¬ B e) fun k hk => ?_) fun _ => ?_
    · exact ⟨hk.1.changeStatus (hk.2 e rfl).2 (by decide) (by decide), (hk.2 e rfl).1⟩
    refine .bind (.modify (Q := fun _ => Posted B L) fun k hk => ?_) fun _ => .bind (.gets_same _) fun id => .pure fun _ h => h
    exact hk.1.setEnv_other hk.2 (fun h => h) (hk.1.zombie e) (hk.1.slot e)

theorem posted_sysEnvSetStatus (envid status : Word) :
    Triple (fun k => Outside B L c k ∧ ∀ e, Names k c envid true e → ¬ B e) (sysEnvSetStatus c envid status)
      (fun _ => Posted B L) E := by
  unfold sysEnvSetStatus
  rcases Option.eq_none_or_eq_some (settableStatus status) with hs | ⟨st, hs⟩
  · rw [hs]
    exact .pure fun _ h => h.1.posted
  rw [hs]
  refine .bind (triple_envid2env envid true) fun r => ?_
  cases r with
  | error _ => exact .pure fun _ h => h.1.1.posted
  | ok e =>
    refine .bind (.modify (Q := fun _ => Posted B L) fun k hk => ?_) fun _ => .pure fun _ h => h
    have halive : k.status e ≠ .free := by
      rcases hk.2 e rfl with ⟨-, hc⟩ | ⟨-, -, hlive, -⟩
      · exact (hk.1.1.cur e hc).2
      · exact hlive
    refine hk.1.1.posted.changeStatus halive (settableStatus_ne_free hs) ?_
    rcases settableStatus_cases hs with rfl | rfl <;> decide

theorem posted_sysEnvSetPgfaultUpcall (envid func : Word) :
    Triple (Posted B L) (sysEnvSetPgfaultUpcall c envid func) (fun _ => Posted B L) E := by
  refine .bind (keeps_envid2env envid true) fun r => ?_
  cases r with
  | error _ => exact .pure fun _ h => h
  | ok e =>
    refine .bind (.modify (Q := fun _ => Posted B L) fun k hk => ?_) fun _ => .pure fun _ h => h
    exact hk.setEnv_inner rfl rfl

/-- A system call of an environment that is not busy: any but the two of IPC, and none that disturbs. -/
theorem posted_syscall (cgetc : Word) (regs : PushRegs) (hsend : regs.regEax ≠ 12#32) (hrecv : regs.regEax ≠ 13#32) :
    Triple (fun k => Outside B L c k ∧ ¬ Disturbs B k c regs)
      (syscall c cgetc regs.regEax regs.regEdx regs.regEcx regs.regEbx regs.regEdi regs.regEsi)
      (fun _ => Posted B L) (Posted B L) := by
  have hno (n : ℕ) (hn : regs.regEax.toNat = n) : regs.regEax = BitVec.ofNat 32 n := by
    rw [← hn, BitVec.ofNat_toNat, BitVec.setWidth_eq]
  unfold syscall
  split
  case h_1 =>
    refine .bind (Q := fun _ => Posted B L) (.bind (triple_curenv.pre fun _ h => h.1) fun e => ?_) fun _ => .pure fun _ h => h
    refine .assume (p := ¬ B e) (fun he => ?_) fun k hk => (hk.1.cur e hk.2).1
    refine .bind ?_ fun _ => keeps_print e _ _
    exact ((posted_userMemAssert he _ _ _).pre fun k hk => ⟨⟨hk.1.posted, (hk.1.cur e hk.2).2⟩, hk.2⟩).post fun _ _ h => h.1
  case h_2 => exact .pure fun _ h => h.1.posted
  case h_3 => exact .bind keeps_curenv fun _ => .bind (.gets_same _) fun _ => .pure fun _ h => h.1.posted
  case h_4 h =>
    refine (posted_sysEnvDestroy _).pre fun k hk => ⟨hk.1, fun e hn => ⟨fun hb => ?_, fun hr => ?_⟩⟩
    · exact hk.2 ⟨e, hn, Or.inl ⟨hno 3 h, Or.inl hb⟩⟩
    · by_contra hne
      exact hk.2 ⟨e, hn, Or.inl ⟨hno 3 h, Or.inr ⟨hr, hne⟩⟩⟩
  case h_5 => exact (keeps_sysPageAlloc memSteady_posted _ _ _).pre fun _ h => h.1.posted
  case h_6 => exact (keeps_sysPageMap memSteady_posted _ _ _ _ _).pre fun _ h => h.1.posted
  case h_7 => exact (keeps_sysPageUnmap memSteady_posted _ _).pre fun _ h => h.1.posted
  case h_8 => exact posted_sysExofork.pre fun _ h => h.1
  case h_9 h =>
    refine (posted_sysEnvSetStatus _ _).pre fun k hk => ⟨hk.1, fun e hn hb => ?_⟩
    exact hk.2 ⟨e, hn, Or.inr ⟨hno 8 h, hb⟩⟩
  case h_10 => exact (posted_sysEnvSetPgfaultUpcall _ _).pre fun _ h => h.1.posted
  case h_11 => exact .bind (posted_schedYield.pre fun _ h => h.1.posted) fun _ => .pure fun _ h => h.elim
  case h_12 h => exact absurd (hno 12 h) hsend
  case h_13 h => exact absurd (hno 13 h) hrecv
  case h_14 => exact .pure fun _ h => h.1.posted

theorem posted_pageFaultHandler (faultVa : Word) (tf : Trapframe) :
    Triple (Outside B L c) (pageFaultHandler c faultVa tf) (fun _ => Posted B L) (Posted B L) := by
  refine .ite_same .halt (.bind triple_curenv fun e => ?_)
  refine .assume (p := ¬ B e) (fun he => ?_) fun k hk => (hk.1.cur e hk.2).1
  refine .bind (.gets_same _) fun upcall => .ite_same ?_ ?_
  · exact (posted_destroyCurrent he).conseq (fun k hk => ⟨hk.1.posted, hk.2⟩) (fun _ _ h => h.elim) fun _ h => h
  · refine .bind ((posted_userMemAssert he _ _ _).pre fun k hk => ⟨⟨hk.1.posted, (hk.1.cur e hk.2).2⟩, hk.2⟩) fun _ => ?_
    have hP : MemSteady fun k => Posted B L k ∧ k.status e ≠ .free := fun k t hk => ⟨memSteady_posted k t hk.1, hk.2⟩
    refine .bind (keeps_envPgdir e) fun g => .bind (triple_mem hP (stays_storeBytes _ _ _)) fun _ => ?_
    refine .bind (.modify (Q := fun _ k => Posted B L k ∧ k.status e ≠ .free) fun k hk => ⟨?_, ?_⟩) fun _ =>
      (posted_envRun e).post fun _ _ h => h.elim
    · exact hk.1.setEnv_inner rfl rfl
    · rw [setEnv_status, if_pos rfl]
      exact hk.2

/-- A trap that is handled on behalf of an environment that is not busy, or of none. -/
theorem posted_trapDispatch (inp : TrapInput) :
    Triple (fun k => Outside B L c k ∧ (inp.tf.tfTrapno = 48#32 → inp.tf.tfRegs.regEax ≠ 12#32 ∧ inp.tf.tfRegs.regEax ≠ 13#32 ∧
        ¬ Disturbs B k c inp.tf.tfRegs)) (trapDispatch c inp) (fun _ => Posted B L) (Posted B L) := by
  unfold trapDispatch
  simp only
  split
  case h_1 => exact .halt
  case h_2 => exact (posted_pageFaultHandler _ _).pre fun _ h => h.1
  case h_3 h =>
    have hno : inp.tf.tfTrapno = 48#32 := by
      rw [← BitVec.setWidth_eq inp.tf.tfTrapno, ← BitVec.ofNat_toNat, h]
    refine .bind triple_curenv fun cur => .assume (p := ¬ B cur) (fun hcur => ?_) fun k hk =>
      (hk.1.1.cur cur hk.2).1
    refine .assume (fun hnot => ?_) fun k hk => (hk.1.2 hno).1
    refine .assume (fun hnot' => ?_) fun k hk => (hk.1.2 hno).2.1
    refine .bind ((posted_syscall inp.cgetc inp.tf.tfRegs hnot hnot').pre fun k hk => ⟨hk.1.1, (hk.1.2 hno).2.2⟩) fun r => ?_
    exact .modify fun k hk => hk.setEnv_other hcur (fun h => h) (hk.zombie cur) (hk.slot cur)
  case h_4 => exact .pure fun _ h => h.1.posted
  case h_5 => exact posted_schedYield.conseq (fun _ h => h.1.posted) (fun _ _ h => h.elim) fun _ h => h
  case h_6 =>
    refine .ite_same .halt (.bind triple_curenv fun e => .assume (p := ¬ B e) (fun he => ?_) fun k hk =>
      (hk.1.1.cur e hk.2).1)
    exact (posted_destroyCurrent he).conseq (fun k hk => ⟨hk.1.1.posted, hk.2⟩) (fun _ _ h => h.elim) fun _ h => h

/-- Entering the kernel changes nothing but the registers of the caller. -/
theorem Posted.entered {s : Kern} (h : Posted B L k) (he : Entered c k s) (hcur : ∀ e, (k.cpus c).cpuEnv = some e → ¬ B e ∧ k.status e ≠ .free)
    (hfree : ∃ l, FreeEnvs k l) : Outside B L c s := by
  have hstatus (o : EnvIdx) : s.status o = k.status o := (he.call.env o).1
  obtain ⟨l, hl⟩ := hfree
  refine ⟨⟨fun o ho => ?_, fun o ho => ?_, fun o hr => ?_, fun o => ?_, fun o ho => ?_⟩, fun e hc => ?_, l, ?_⟩
  · rw [he.envs o fun hc => (hcur o hc).1 ho]
    exact h.letter o ho
  · rw [hstatus]
    exact h.alive o ho
  · rw [(he.call.env o).2.2.2.1] at hr
    exact h.recving o hr
  · rw [hstatus]
    exact h.zombie o
  · rw [hstatus] at ho
    rw [(he.call.env o).2.1]
    exact h.slot o ho
  · rw [he.call.cpuEnv] at hc
    rw [hstatus]
    exact hcur e hc
  · exact hl.congr (fun e _ => he.call.space.link e) he.call.space.freeList fun e _ => hstatus e

/-- A trap of an environment that is not busy, or of a halted CPU, keeps the letters of the busy ones. -/
theorem posted_trap (h : Posted B L k) (hfree : ∃ l, FreeEnvs k l) {inp : TrapInput}
    (hcur : ∀ e, (k.cpus c).cpuEnv = some e → ¬ B e ∧ k.status e ≠ .free)
    (hno : inp.tf.tfTrapno = 48#32 → inp.tf.tfRegs.regEax ≠ 12#32 ∧ inp.tf.tfRegs.regEax ≠ 13#32 ∧ ¬ Disturbs B k c inp.tf.tfRegs) :
    Triple (fun s => s = k) (trap c inp) (fun _ _ => False) (Posted B L) := by
  refine Entered.trap (Q := Posted B L) (fun cur _ hd => absurd hd (h.zombie cur)) ?_
    (fun e => (posted_envRun e).pre fun s hs => ⟨hs.1, by rw [(curRunning_some hs.2).2]; decide⟩) posted_schedYield
  refine (posted_trapDispatch inp).pre fun s hs => ⟨h.entered hs.1 hcur hfree, fun h48 => ?_⟩
  obtain ⟨h12, h13, hd⟩ := hno h48
  refine ⟨h12, h13, ?_⟩
  rintro ⟨e, hn, hbad⟩
  refine hd ⟨e, hs.1.call.names hn, ?_⟩
  rw [hs.1.call.cpuEnv] at hbad
  have hstatus : s.status e = k.status e := (hs.1.call.env e).1
  rw [hstatus] at hbad
  exact hbad

end Frame
end Sisop
