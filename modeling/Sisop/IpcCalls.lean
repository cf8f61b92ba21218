import Sisop.IpcFrame

/-! The system calls that `lib/ipc.c` makes, and the interrupts that come between them: what they do to the letters. -/
namespace Sisop

open Routine (Triple Stays)

/-- The result of a system call. -/
def Letter.ret (l : Letter) (v : Word) : Letter := { l with eax := v }

/-- A message has come. -/
def Letter.deliver (l : Letter) (sender value : Word) : Letter := ⟨l.id, false, sender, value, 0#32⟩

/-- Waiting for a message. -/
def Letter.wait (l : Letter) : Letter := { l with recving := true, eax := 0#32 }

/-- After `sys_ipc_try_send(to_env, value, ..)` of the environment `cur`, with the result `r`. -/
def Sent (B : EnvIdx → Prop) (L : EnvIdx → Letter) (cur : EnvIdx) (toEnv value : Word) (r : SysRet) (k : Kern) : Prop :=
  (∃ err, r = .error err) ∧ Posted B L k ∨
  r = .ok 0#32 ∧ toEnv ≠ 0#32 ∧ envx toEnv ≠ cur ∧ B (envx toEnv) ∧ (L (envx toEnv)).recving = true ∧ (L (envx toEnv)).id = toEnv ∧
    Posted B (Function.update L (envx toEnv) ((L (envx toEnv)).deliver (L cur).id value)) k

section Calls

variable {B : EnvIdx → Prop} {L L' : EnvIdx → Letter} {k k' : Kern} {c : ℕ} {e cur : EnvIdx} {inp : TrapInput} {E : Kern → Prop}

theorem Posted.congr_letters (h : Posted B L k) (hL : ∀ o, B o → L' o = L o) : Posted B L' k :=
  ⟨fun o ho => (h.letter o ho).trans (hL o ho).symm, h.alive, h.recving, h.zombie, h.slot⟩

/-- A trap of an environment that is no zombie goes on to its dispatching, with the registers saved. -/
theorem trap_left (hcur : (k.cpus c).cpuEnv = some cur) (hl : k.kernelLock = none) (hs : k.status cur ≠ .dying)
    (hcs : inp.tf.tfCs &&& 3#16 = 3#16) (h : trap c inp k = .left k') :
    (do
      trapDispatch c inp
      match (← Routine.gets fun k => k.curRunning c) with
      | some cur => envRun c cur
      | none => schedYield c : Routine Kern Unit) (k.atSyscall c cur inp.tf) = .left k' := by
  have huser : trapFromUser c inp.tf (k.setCpu c CpuInfo.trapped) = .ret () (k.atSyscall c cur inp.tf) := trapFromUser_run hcur hl hs
  have hlock : lockKernel c (k.setCpu c CpuInfo.trapped) = .ret () (k.entered c CpuInfo.trapped) := if_pos hl
  by_cases hst : (k.cpus c).cpuStatus = .halted
  · -- the lock would be taken twice
    have htwice : trapFromUser c inp.tf (k.entered c CpuInfo.trapped) = .halt := by
      have hcur' : ((k.entered c CpuInfo.trapped).cpus c).cpuEnv = some cur := by
        rw [entered_cpus, if_pos rfl]
        exact hcur
      have hheld : lockKernel c (k.entered c CpuInfo.trapped) = .halt := if_neg (by simp [Kern.entered])
      rw [trapFromUser, Routine.bind_ret (curenv_run hcur'), Routine.bind_halt hheld]
    simp only [trap, Routine.gets_bind_run, Routine.modify_bind_run, if_pos hst, if_pos hcs] at h
    change (lockKernel c >>= _) (k.setCpu c CpuInfo.trapped) = _ at h
    rw [Routine.bind_ret hlock, Routine.bind_halt htwice] at h
    cases h
  · simp only [trap, Routine.gets_bind_run, Routine.modify_bind_run, if_neg hst, if_pos hcs] at h
    change (trapFromUser c inp.tf >>= _) (k.setCpu c CpuInfo.trapped) = _ at h
    rw [Routine.bind_ret huser] at h
    exact h

theorem atSyscall_cpuEnv (hcur : (k.cpus c).cpuEnv = some cur) (tf : Trapframe) : ((k.atSyscall c cur tf).cpus c).cpuEnv = some cur := by
  rw [atSyscall_cpus, setCpu_cpus, if_pos rfl]
  exact hcur

theorem Posted.atSyscall (h : Posted B L k) (tf : Trapframe) :
    Posted B (Function.update L cur ((L cur).ret tf.tfRegs.regEax)) (k.atSyscall c cur tf) := by
  have hk : Posted B L (k.entered c CpuInfo.trapped) := h.congr rfl
  refine hk.setEnv (fun o ho => Function.update_of_ne ho _ _) (fun hb => ?_) (h.alive cur) (h.recving cur) (h.zombie cur)
    (h.slot cur)
  rw [Function.update_self, ← h.letter cur hb]
  rfl

/-- The end of a trap. -/
theorem posted_resume {s : Kern} (hs : Posted B L s)
    (h : (do
      match (← Routine.gets fun k => k.curRunning c) with
      | some cur => envRun c cur
      | none => schedYield c : Routine Kern Unit) s = .left k') : Posted B L k' := by
  refine Triple.left (P := Posted B L) (Q := fun _ _ => False) (.bind (Q := fun r s => Posted B L s ∧ s.curRunning c = r)
    (.gets fun s hs => ⟨hs, rfl⟩) fun r => ?_) hs h
  cases r with
  | some e => exact (posted_envRun e).pre fun s hs => ⟨hs.1, by rw [(curRunning_some hs.2).2]; decide⟩
  | none => exact posted_schedYield.pre fun s hs => hs.1

/-- An interrupt of user code does not change its registers. -/
theorem posted_interrupt (h : Posted B L k) (hcur : (k.cpus c).cpuEnv = some cur) (hl : k.kernelLock = none)
    (hcs : inp.tf.tfCs &&& 3#16 = 3#16) (hirq : inp.tf.tfTrapno = 32#32 ∨ inp.tf.tfTrapno = 39#32)
    (heax : inp.tf.tfRegs.regEax = (k.envs cur).envTf.tfRegs.regEax) (ht : trap c inp k = .left k') : Posted B L k' := by
  have hat : Posted B L (k.atSyscall c cur inp.tf) := by
    refine (h.atSyscall inp.tf).congr_letters fun o ho => ?_
    by_cases hoc : o = cur
    · rw [hoc, Function.update_self, heax, ← h.letter cur (hoc ▸ ho)]
      rfl
    · rw [Function.update_of_ne hoc]
  have hleft := trap_left hcur hl (h.zombie cur) hcs ht
  obtain hno | hno := hirq
  · have htoNat : inp.tf.tfTrapno.toNat = 32 := by rw [hno]; rfl
    simp only [trapDispatch, htoNat] at hleft
    cases hy : schedYield c (k.atSyscall c cur inp.tf) with
    | ret a s => exact (posted_schedYield.ret hat hy).elim
    | left s =>
      rw [Routine.bind_left hy] at hleft
      rw [← Outcome.left.inj hleft]
      exact posted_schedYield.left hat hy
    | halt =>
      rw [Routine.bind_halt hy] at hleft
      cases hleft
  · have htoNat : inp.tf.tfTrapno.toNat = 39 := by rw [hno]; rfl
    simp only [trapDispatch, htoNat] at hleft
    exact posted_resume hat hleft

/-- A system call returns to its caller, with a result, or hands the CPU over. -/
theorem call_left (hcur : (k.cpus c).cpuEnv = some cur) (hl : k.kernelLock = none) (hs : k.status cur ≠ .dying)
    (hcs : inp.tf.tfCs &&& 3#16 = 3#16) (hno : inp.tf.tfTrapno = 48#32) (ht : trap c inp k = .left k') {no : Word}
    {m : Routine Kern SysRet} (heax : inp.tf.tfRegs.regEax = no)
    (hm : syscall c inp.cgetc no inp.tf.tfRegs.regEdx inp.tf.tfRegs.regEcx inp.tf.tfRegs.regEbx inp.tf.tfRegs.regEdi
      inp.tf.tfRegs.regEsi = m) {Q : SysRet → Kern → Prop} {F : Kern → Prop}
    (hcall : Triple (fun s => s = k.atSyscall c cur inp.tf) m Q F) :
    F k' ∨ ∃ r s, Q r s ∧ ∀ B L, Posted B L s → Posted B (Function.update L cur ((L cur).ret (retWord r))) k' := by
  have h48 : inp.tf.tfTrapno.toNat = 48 := by rw [hno]; rfl
  have hleft := trap_left hcur hl hs hcs ht
  simp only [trapDispatch, h48, heax, hm] at hleft
  rw [Routine.bind_assoc_run, Routine.bind_ret (curenv_run (atSyscall_cpuEnv hcur inp.tf)), Routine.bind_assoc_run] at hleft
  cases hy : m (k.atSyscall c cur inp.tf) with
  | ret r s =>
    rw [Routine.bind_ret hy, Routine.modify_bind_run] at hleft
    refine Or.inr ⟨r, s, hcall.ret rfl hy, fun B L h => posted_resume ?_ hleft⟩
    refine h.setEnv (fun o ho => Function.update_of_ne ho _ _) (fun hb => ?_) (h.alive cur) (h.recving cur) (h.zombie cur)
      (h.slot cur)
    rw [Function.update_self, ← h.letter cur hb]
    rfl
  | left s =>
    rw [Routine.bind_left hy] at hleft
    rw [← Outcome.left.inj hleft]
    exact Or.inl (hcall.left rfl hy)
  | halt =>
    rw [Routine.bind_halt hy] at hleft
    cases hleft

/-- `sys_ipc_try_send` fails, or delivers its message. -/
theorem sent_sysIpcTrySend (hb : B cur) (hrecv : (L cur).recving = false) (toEnv value srcva perm : Word) :
    Triple (fun s => Posted B L s ∧ (s.cpus c).cpuEnv = some cur) (sysIpcTrySend c toEnv value srcva perm)
      (Sent B L cur toEnv value) E := by
  refine .bind (triple_envid2env toEnv false) fun r => ?_
  cases r with
  | error err => exact .pure fun _ h => Or.inl ⟨⟨err, rfl⟩, h.1.1⟩
  | ok e =>
    refine .bind (Q := fun r s => ((Posted B L s ∧ (s.cpus c).cpuEnv = some cur) ∧ Names s c toEnv false e) ∧ r = (s.envs e).envIpcRecving)
      (.gets fun s hs => ⟨⟨hs.1, hs.2 e rfl⟩, rfl⟩) fun recving => ?_
    cases recving with
    | false => exact .pure fun _ h => Or.inl ⟨⟨.ipcNotRecv, rfl⟩, h.1.1.1⟩
    | true =>
      -- only a busy environment receives, and not the caller
      have hdst (s : Kern) (hs : ((Posted B L s ∧ (s.cpus c).cpuEnv = some cur) ∧ Names s c toEnv false e) ∧
          true = (s.envs e).envIpcRecving) : B e ∧ e ≠ cur ∧ toEnv ≠ 0#32 ∧ e = envx toEnv ∧ (L e).recving = true ∧ (L e).id = toEnv := by
        obtain ⟨⟨⟨hp, hc⟩, hn⟩, hr⟩ := hs
        have hbe : B e := hp.recving e hr.symm
        have hre : (L e).recving = true := by
          rw [← hp.letter e hbe]
          exact hr.symm
        have hne : e ≠ cur := by
          rintro rfl
          rw [hrecv] at hre
          cases hre
        obtain ⟨-, hce⟩ | ⟨h0, he, -, hid, -⟩ := hn
        · exact absurd (Option.some.inj (hce.symm.trans hc)) hne
        · refine ⟨hbe, hne, h0, he, hre, ?_⟩
          rw [← hp.letter e hbe]
          exact hid
      refine .assume (fun hfacts => ?_) hdst
      obtain ⟨hbe, hne, h0, he, hre, hid⟩ := hfacts
      subst he
      have hP : MemSteady fun s => Posted B L s ∧ (s.cpus c).cpuEnv = some cur := fun s t hs => ⟨memSteady_posted s t hs.1, hs.2⟩
      refine .bind (.modify (Q := fun _ s => Posted B L s ∧ (s.cpus c).cpuEnv = some cur) fun s hs => ?_) fun _ => ?_
      · exact ⟨hs.1.1.1.setEnv_inner rfl rfl, hs.1.1.2⟩
      refine .bind (keeps_ipcSendPage hP _ srcva perm) fun r => ?_
      cases r with
      | error err => exact .pure fun _ h => Or.inl ⟨⟨err, rfl⟩, h.1⟩
      | ok ipcPerm =>
        refine .bind triple_curenv fun caller => .assume (fun hcaller => ?_) fun s hs => Option.some.inj (hs.2.symm.trans hs.1.2)
        subst hcaller
        refine .bind (Q := fun id s => Posted B L s ∧ id = (L caller).id) (.gets fun s hs => ⟨hs.1.1, ?_⟩) fun id => ?_
        · rw [← hs.1.1.letter caller hb]
          rfl
        refine .bind (.modify (Q := fun _ s => Posted B (Function.update L (envx toEnv) ((L (envx toEnv)).deliver (L caller).id value)) s)
          fun s hs => ?_) fun _ => .pure fun s hs => Or.inr ⟨rfl, h0, hne, hbe, hre, hid, hs⟩
        obtain ⟨hp, rfl⟩ := hs
        refine hp.setEnv (fun o ho => Function.update_of_ne ho _ _) (fun _ => ?_) (fun _ => by simp) (fun hr => by cases hr) (by simp)
          fun _ => hp.slot _ (hp.alive _ hbe)
        rw [Function.update_self, ← hp.letter _ hbe]
        rfl

theorem retWord_slt (err : Err) : (retWord (.error err)).slt 0#32 = true := by
  cases err <;> decide

/-- `sys_ipc_try_send` from user code: it fails, with a negative result, or its message is delivered. -/
theorem posted_send (h : Posted B L k) (hb : B cur) (hrecv : (L cur).recving = false) (hcur : (k.cpus c).cpuEnv = some cur)
    (hl : k.kernelLock = none) (hcs : inp.tf.tfCs &&& 3#16 = 3#16) (hno : inp.tf.tfTrapno = 48#32)
    (heax : inp.tf.tfRegs.regEax = 12#32) (ht : trap c inp k = .left k') :
    (∃ v : Word, v.slt 0#32 = true ∧ Posted B (Function.update L cur ((L cur).ret v)) k') ∨
    envx inp.tf.tfRegs.regEdx ≠ cur ∧ B (envx inp.tf.tfRegs.regEdx) ∧ (L (envx inp.tf.tfRegs.regEdx)).recving = true ∧
      (L (envx inp.tf.tfRegs.regEdx)).id = inp.tf.tfRegs.regEdx ∧
      Posted B (Function.update (Function.update L (envx inp.tf.tfRegs.regEdx)
        ((L (envx inp.tf.tfRegs.regEdx)).deliver (L cur).id inp.tf.tfRegs.regEcx)) cur ((L cur).ret 0#32)) k' := by
  have hat : Posted B (Function.update L cur ((L cur).ret inp.tf.tfRegs.regEax)) (k.atSyscall c cur inp.tf) := h.atSyscall inp.tf
  have hself : Function.update L cur ((L cur).ret inp.tf.tfRegs.regEax) cur = (L cur).ret inp.tf.tfRegs.regEax := Function.update_self ..
  have hcall := sent_sysIpcTrySend (c := c) (E := fun _ => False) hb
    (L := Function.update L cur ((L cur).ret inp.tf.tfRegs.regEax)) (by rw [hself]; exact hrecv) inp.tf.tfRegs.regEdx
    inp.tf.tfRegs.regEcx inp.tf.tfRegs.regEbx inp.tf.tfRegs.regEdi
  obtain hf | ⟨r, s, hsent, hend⟩ := call_left hcur hl (h.zombie cur) hcs hno ht heax rfl
    (hcall.pre fun s hs => by rw [hs]; exact ⟨hat, atSyscall_cpuEnv hcur inp.tf⟩)
  · exact hf.elim
  obtain ⟨⟨err, rfl⟩, hp⟩ | ⟨rfl, -, hne, hdst, hdrecv, hid, hp⟩ := hsent
  · refine Or.inl ⟨_, retWord_slt err, ?_⟩
    have hk := hend _ _ hp
    rw [hself, Function.update_idem] at hk
    exact hk
  · rw [Function.update_of_ne hne] at hdrecv hid
    refine Or.inr ⟨hne, hdst, hdrecv, hid, (hend _ _ hp).congr_letters fun o _ => ?_⟩
    by_cases hoc : o = cur
    · rw [hoc, Function.update_self, Function.update_self, Function.update_of_ne hne.symm, hself]
      rfl
    · rw [Function.update_of_ne hoc, Function.update_of_ne hoc, Function.update_of_ne hne, hself]
      by_cases hod : o = envx inp.tf.tfRegs.regEdx
      · rw [hod, Function.update_self, Function.update_self]
        rfl
      · rw [Function.update_of_ne hod, Function.update_of_ne hod, Function.update_of_ne hoc]

/-- `sys_yield` from user code gives the CPU up. -/
theorem posted_yield (h : Posted B L k) (hcur : (k.cpus c).cpuEnv = some cur) (hl : k.kernelLock = none)
    (hcs : inp.tf.tfCs &&& 3#16 = 3#16) (hno : inp.tf.tfTrapno = 48#32) (heax : inp.tf.tfRegs.regEax = 11#32)
    (ht : trap c inp k = .left k') : Posted B (Function.update L cur ((L cur).ret 11#32)) k' := by
  have hat : Posted B (Function.update L cur ((L cur).ret inp.tf.tfRegs.regEax)) (k.atSyscall c cur inp.tf) := h.atSyscall inp.tf
  rw [heax] at hat
  have hcall : Triple (fun s => s = k.atSyscall c cur inp.tf) (do
      schedYield c
      pure (.ok 0#32) : Routine Kern SysRet) (fun _ _ => False) (Posted B (Function.update L cur ((L cur).ret 11#32))) :=
    .bind (posted_schedYield.pre fun s hs => by rw [hs]; exact hat) fun _ => .pure fun _ hf => hf
  obtain hk | ⟨r, s, hf, -⟩ := call_left hcur hl (h.zombie cur) hcs hno ht heax rfl hcall
  · exact hk
  · exact hf.elim

/-- `sys_ipc_recv` from user code: it refuses its argument, or the caller waits. -/
theorem posted_recv (h : Posted B L k) (hb : B cur) (hcur : (k.cpus c).cpuEnv = some cur) (hl : k.kernelLock = none)
    (hcs : inp.tf.tfCs &&& 3#16 = 3#16) (hno : inp.tf.tfTrapno = 48#32) (heax : inp.tf.tfRegs.regEax = 13#32)
    (ht : trap c inp k = .left k') :
    (∃ v : Word, v.slt 0#32 = true ∧ inp.tf.tfRegs.regEdx < utop ∧ Posted B (Function.update L cur ((L cur).ret v)) k') ∨
      Posted B (Function.update L cur (L cur).wait) k' := by
  have hat : Posted B (Function.update L cur ((L cur).ret inp.tf.tfRegs.regEax)) (k.atSyscall c cur inp.tf) := h.atSyscall inp.tf
  have hself : Function.update L cur ((L cur).ret inp.tf.tfRegs.regEax) cur = (L cur).ret inp.tf.tfRegs.regEax := Function.update_self ..
  have hcall : Triple (fun s => s = k.atSyscall c cur inp.tf) (sysIpcRecv c inp.tf.tfRegs.regEdx)
      (fun r s => (∃ err, r = .error err) ∧ inp.tf.tfRegs.regEdx < utop ∧ Posted B (Function.update L cur ((L cur).ret inp.tf.tfRegs.regEax)) s)
      (Posted B (Function.update L cur (L cur).wait)) := by
    refine .ite (.pure fun s hs => ⟨⟨_, rfl⟩, hs.2.1, by rw [hs.1]; exact hat⟩) ?_
    refine .bind triple_curenv fun caller => .assume (p := caller = cur) (fun hcaller => ?_) fun s hs => ?_
    · subst hcaller
      refine .bind (.modify (Q := fun _ => Posted B (Function.update L caller (L caller).wait)) fun s hs => ?_) fun _ =>
        .bind posted_schedYield fun _ => .pure fun _ hf => hf.elim
      obtain ⟨⟨rfl, -⟩, -⟩ := hs
      refine hat.setEnv (fun o ho => ?_) (fun _ => ?_) (fun _ => by simp) (fun _ => hb) (by simp)
        fun _ => hat.slot _ (hat.alive _ hb)
      · rw [Function.update_of_ne ho, Function.update_of_ne ho]
      · rw [Function.update_self]
        have hl₁ := hat.letter caller hb
        rw [hself] at hl₁
        have hsame : ((k.atSyscall c caller inp.tf).envs caller).letter.wait = (L caller).wait := by
          rw [hl₁]
          rfl
        rw [← hsame]
        rfl
    · obtain ⟨⟨rfl, -⟩, hc⟩ := hs
      exact Option.some.inj (hc.symm.trans (atSyscall_cpuEnv hcur inp.tf))
  obtain hk | ⟨r, s, ⟨⟨err, rfl⟩, hpage, hp⟩, hend⟩ := call_left hcur hl (h.zombie cur) hcs hno ht heax rfl hcall
  · exact Or.inr hk
  · refine Or.inl ⟨_, retWord_slt err, hpage, ?_⟩
    have hk := hend _ _ hp
    rw [hself, Function.update_idem] at hk
    exact hk

end Calls
end Sisop
