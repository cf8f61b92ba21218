import Sisop.Ipc

/-! IPC delivers every message exactly once. -/
namespace Sisop

open Routine (Triple Stays)

section Messages

variable {w w' : IpcWorld} {k' : Kern} {c : ℕ} {e cur : EnvIdx} {pc pc' : IpcPc} {l l' : Letter} {a b : Word}

theorem valuesOf_append (ms : List (Word × Word × Word)) (m : Word × Word × Word) (a b : Word) :
    valuesOf (ms ++ [m]) a b = valuesOf ms a b ++ if m.1 = a ∧ m.2.1 = b then [m.2.2] else [] := by
  unfold valuesOf
  rw [List.filter_append, List.map_append]
  congr 1
  by_cases hm : m.1 = a ∧ m.2.1 = b
  · rw [if_pos hm, List.filter_cons_of_pos (by simpa using hm)]
    rfl
  · rw [if_neg hm, List.filter_cons_of_neg (by simpa using hm)]
    rfl

/-- Outside the two functions nothing is under way. -/
theorem outgoing_congr (h : pc ≠ .user → l' = l) : pc.outgoing l' a b = pc.outgoing l a b := by
  by_cases hpc : pc = .user
  · rw [hpc]
    rfl
  · rw [h hpc]

theorem incoming_congr (h : pc ≠ .user → l' = l) : pc.incoming l' a b = pc.incoming l a b := by
  by_cases hpc : pc = .user
  · rw [hpc]
    rfl
  · rw [h hpc]

/-- Only the environment `cur` has moved, and no message has. -/
theorem Balanced.move (h : Balanced w) (hother : ∀ e, e ≠ cur → w'.pc e = w.pc e ∧ (w.Busy e → w'.letter e = w.letter e))
    (hs : ∀ a b, envx a ≠ cur → valuesOf w'.sends a b = valuesOf w.sends a b)
    (hr : ∀ a b, envx b ≠ cur → valuesOf w'.recvs a b = valuesOf w.recvs a b)
    (hout : ∀ a b, envx a = cur → valuesOf w'.sends a b ++ (w'.pc cur).outgoing (w'.letter cur) a b =
      valuesOf w.sends a b ++ (w.pc cur).outgoing (w.letter cur) a b)
    (hin : ∀ a b, envx b = cur → valuesOf w'.recvs a b ++ (w'.pc cur).incoming (w'.letter cur) a b =
      valuesOf w.recvs a b ++ (w.pc cur).incoming (w.letter cur) a b) : Balanced w' := by
  intro a b
  have hsend : valuesOf w'.sends a b ++ w'.outgoing a b = valuesOf w.sends a b ++ w.outgoing a b := by
    unfold IpcWorld.outgoing
    by_cases ha : envx a = cur
    · rw [ha]
      exact hout a b ha
    · rw [hs a b ha, (hother _ ha).1, outgoing_congr (hother _ ha).2]
  have hrecv : valuesOf w'.recvs a b ++ w'.incoming a b = valuesOf w.recvs a b ++ w.incoming a b := by
    unfold IpcWorld.incoming
    by_cases hb : envx b = cur
    · rw [hb]
      exact hin a b hb
    · rw [hr a b hb, (hother _ hb).1, incoming_congr (hother _ hb).2]
  rw [hsend, hrecv]
  exact h a b

/-- Nothing is under way before the move, nor after it. -/
theorem Balanced.idle (h : Balanced w) (hother : ∀ e, e ≠ cur → w'.pc e = w.pc e ∧ (w.Busy e → w'.letter e = w.letter e))
    (hs : w'.sends = w.sends) (hr : w'.recvs = w.recvs)
    (hout : ∀ a b, (w'.pc cur).outgoing (w'.letter cur) a b = (w.pc cur).outgoing (w.letter cur) a b)
    (hin : ∀ a b, (w'.pc cur).incoming (w'.letter cur) a b = (w.pc cur).incoming (w.letter cur) a b) : Balanced w' := by
  refine h.move hother (fun a b _ => by rw [hs]) (fun a b _ => by rw [hr]) (fun a b _ => ?_) fun a b _ => ?_
  · rw [hs, hout]
  · rw [hr, hin]

end Messages

section Invariant

variable {w w' : IpcWorld} {k k' : Kern} {c : ℕ} {e cur : EnvIdx} {B B' : EnvIdx → Prop} {L : EnvIdx → Letter} {inp : TrapInput}

theorem Posted.own (h : Posted B L k) : Posted B (fun e => (k.envs e).letter) k :=
  ⟨fun _ _ => rfl, h.alive, h.recving, h.zombie, h.slot⟩

/-- A live environment becomes busy, or one that does not receive ceases to be. -/
theorem Posted.rebase (h : Posted B L k) (hB : ∀ o, o ≠ cur → (B' o ↔ B o)) (halive : k.status cur ≠ .free)
    (hrecv : (k.envs cur).envIpcRecving = false) : Posted B' (fun e => (k.envs e).letter) k := by
  refine ⟨fun _ _ => rfl, fun o ho => ?_, fun o hr => ?_, h.zombie, h.slot⟩
  · by_cases hoc : o = cur
    · rw [hoc]
      exact halive
    · exact h.alive o ((hB o hoc).mp ho)
  · have hoc : o ≠ cur := by
      rintro rfl
      rw [hrecv] at hr
      cases hr
    exact (hB o hoc).mpr (h.recving o hr)

/-- An environment that executes is not waiting. -/
theorem IpcInv.notRecving (h : IpcInv w) (hx : Executing w.kern c cur) : (w.kern.envs cur).envIpcRecving = false := by
  by_contra hr
  exact (h.recv.ok cur (by simpa using hr)).idle c hx

/-- The kernel has been entered and left, and the busy environments have seen nothing of it. -/
theorem IpcInv.setKern (h : IpcInv w) (hrest : AtRest k') (hrecv : RecvRest k') (hp : Posted w.Busy w.letter k') :
    IpcInv (w.setKern k') := by
  refine ⟨hrest, hrecv, hp.own, fun e he => ?_, ?_⟩
  · have hb : w.Busy e := hp.recving e he
    have hl : (k'.envs e).letter = w.letter e := hp.letter e hb
    apply h.waits e
    rw [← hl]
    exact he
  · intro a b
    have hout : (w.setKern k').outgoing a b = w.outgoing a b := outgoing_congr (hp.letter (envx a))
    have hin : (w.setKern k').incoming a b = w.incoming a b := incoming_congr (hp.letter (envx b))
    rw [hout, hin]
    exact h.balanced a b

/-- A step of user code that stays there. -/
theorem IpcInv.setPc (h : IpcInv w) (hx : Executing w.kern c cur) (hk : w'.kern = w.kern) {pc : IpcPc}
    (hpc : w'.pc = Function.update w.pc cur pc) (hbal : Balanced w') : IpcInv w' := by
  have hrecv := h.notRecving hx
  have hl : w'.letter = w.letter := by
    unfold IpcWorld.letter
    rw [hk]
  refine ⟨by rw [hk]; exact h.rest, by rw [hk]; exact h.recv, ?_, fun e he => ?_, hbal⟩
  · rw [hl, hk]
    refine h.posted.rebase (fun o (ho : o ≠ cur) => ?_) (h.rest.exec.notFree c cur hx) hrecv
    unfold IpcWorld.Busy
    rw [hpc, Function.update_of_ne ho]
  · rw [hl] at he
    have hne : e ≠ cur := by
      rintro rfl
      rw [IpcWorld.letter, Env.letter, hrecv] at he
      cases he
    rw [hpc, Function.update_of_ne hne]
    exact h.waits e he

/-- The invariants of the kernel survive every step that neither meddles nor unblocks. -/
theorem IpcInv.kernel (h : IpcInv w) {ev : Event} (hs : Step w.kern ev k') (hm : ¬ ev.Meddles w.kern) (hun : ¬ ev.Unblocks w.kern) :
    AtRest k' ∧ RecvRest k' := ⟨(hs.leaves h.rest hm).1, hs.recvRest h.recv hun⟩

/-- A trap that does not start, stop or destroy anything. -/
theorem IpcInv.quietTrap (h : IpcInv w) (hx : Executing w.kern c cur) (hs : Step w.kern (.trap c inp) k')
    (hno : inp.tf.tfTrapno = 48#32 → inp.tf.tfRegs.regEax ≠ 3#32 ∧ inp.tf.tfRegs.regEax ≠ 8#32) : AtRest k' ∧ RecvRest k' := by
  refine h.kernel hs ?_ ?_
  · rintro ⟨h48, -, e, c', -, hx', ⟨h3, -⟩ | ⟨h8, -⟩ | ⟨-, -, hr, -⟩⟩
    · exact (hno h48).1 h3
    · exact (hno h48).2 h8
    · exact (h.recv.ok e hr).idle c' hx'
  · rintro ⟨h48, -, ⟨h8, -⟩ | ⟨-, -, e, c', hcc, he, hx'⟩⟩
    · exact (hno h48).2 h8
    · obtain rfl : e = cur := Option.some.inj (he.symm.trans hx.2)
      exact hcc (h.rest.exec.exclusive c' c e hx' hx)

theorem IpcInv.user_posted (h : IpcInv w) (hx : Executing w.kern c cur) (hpc : w.pc cur = .user)
    (hs : Step w.kern (.trap c inp) k') (hno : inp.tf.tfTrapno = 48#32 → inp.tf.tfRegs.regEax ≠ 12#32 ∧
      inp.tf.tfRegs.regEax ≠ 13#32 ∧ ¬ Disturbs w.Busy w.kern c inp.tf.tfRegs) : Posted w.Busy w.letter k' := by
  cases hs with
  | trap _ ht =>
    refine (posted_trap h.posted h.rest.free (fun e he => ?_) hno).left rfl ht
    obtain rfl : e = cur := Option.some.inj (he.symm.trans hx.2)
    exact ⟨not_not.mpr hpc, h.rest.exec.notFree c e hx⟩

theorem IpcInv.start_posted (h : IpcInv w) (hs : Step w.kern (.start c) k') : Posted w.Busy w.letter k' := by
  cases hs with
  | start hu _ ht =>
    refine (Entered.mpMain hu (posted_schedYield.pre fun s hs => ?_)).left rfl ht
    refine (h.posted.entered hs (fun e he => ?_) h.rest.free).posted
    cases (h.rest.idle c hu).symm.trans he

theorem IpcInv.wake_posted (h : IpcInv w) (hu : (w.kern.cpus c).user = false) (hno : inp.tf.tfTrapno ≠ 48#32)
    (hs : Step w.kern (.trap c inp) k') : Posted w.Busy w.letter k' := by
  cases hs with
  | trap _ ht =>
    refine (posted_trap h.posted h.rest.free (fun e he => ?_) fun h48 => absurd h48 hno).left rfl ht
    cases (h.rest.idle c hu).symm.trans he

theorem IpcInv.store_posted {va : Word} {b : BitVec 8} (h : IpcInv w) (hs : Step w.kern (.store c va b) k') :
    Posted w.Busy w.letter k' := by
  cases hs with
  | store hx hg ht => exact h.posted.congr rfl

theorem IpcInv.interrupt_posted (h : IpcInv w) (hx : Executing w.kern c cur) (hcs : inp.tf.tfCs &&& 3#16 = 3#16)
    (hirq : inp.tf.tfTrapno = 32#32 ∨ inp.tf.tfTrapno = 39#32)
    (heax : inp.tf.tfRegs.regEax = (w.kern.envs cur).envTf.tfRegs.regEax) (hs : Step w.kern (.trap c inp) k') :
    Posted w.Busy w.letter k' := by
  cases hs with
  | trap _ ht => exact posted_interrupt h.posted hx.2 h.rest.lock hcs hirq heax ht

theorem IpcInv.user (h : IpcInv w) (hx : Executing w.kern c cur) (hpc : w.pc cur = .user) (hs : Step w.kern (.trap c inp) k')
    (hm : ¬ Event.Meddles w.kern (.trap c inp)) (hno : inp.tf.tfTrapno = 48#32 → inp.tf.tfRegs.regEax ≠ 12#32 ∧
      inp.tf.tfRegs.regEax ≠ 13#32 ∧ ¬ Disturbs w.Busy w.kern c inp.tf.tfRegs) : IpcInv (w.setKern k') := by
  obtain ⟨hrest, hrecv⟩ := h.kernel hs hm (by
    rintro ⟨h48, -, ⟨h8, -, e, hn, hr⟩ | ⟨h13, -⟩⟩
    · exact (hno h48).2.2 ⟨e, hn, Or.inr ⟨h8, h.posted.recving e hr⟩⟩
    · exact (hno h48).2.1 h13)
  exact h.setKern hrest hrecv (h.user_posted hx hpc hs hno)

theorem IpcInv.start (h : IpcInv w) (hs : Step w.kern (.start c) k') : IpcInv (w.setKern k') := by
  obtain ⟨hrest, hrecv⟩ := h.kernel hs (fun hm => hm) fun hun => hun
  exact h.setKern hrest hrecv (h.start_posted hs)

theorem IpcInv.wake (h : IpcInv w) (hu : (w.kern.cpus c).user = false) (hno : inp.tf.tfTrapno ≠ 48#32)
    (hs : Step w.kern (.trap c inp) k') : IpcInv (w.setKern k') := by
  obtain ⟨hrest, hrecv⟩ := h.kernel hs (fun hm => hno hm.1) fun hun => hno hun.1
  exact h.setKern hrest hrecv (h.wake_posted hu hno hs)

theorem IpcInv.store {va : Word} {b : BitVec 8} (h : IpcInv w) (hs : Step w.kern (.store c va b) k') : IpcInv (w.setKern k') := by
  obtain ⟨hrest, hrecv⟩ := h.kernel hs (fun hm => hm) fun hun => hun
  exact h.setKern hrest hrecv (h.store_posted hs)

theorem IpcInv.interrupt (h : IpcInv w) (hx : Executing w.kern c cur) (hcs : inp.tf.tfCs &&& 3#16 = 3#16)
    (hirq : inp.tf.tfTrapno = 32#32 ∨ inp.tf.tfTrapno = 39#32)
    (heax : inp.tf.tfRegs.regEax = (w.kern.envs cur).envTf.tfRegs.regEax) (hs : Step w.kern (.trap c inp) k') :
    IpcInv (w.setKern k') := by
  obtain ⟨hrest, hrecv⟩ := h.quietTrap hx hs fun h48 => by
    rcases hirq with hno | hno <;> rw [hno] at h48 <;> cases h48
  exact h.setKern hrest hrecv (h.interrupt_posted hx hcs hirq heax hs)

/-- A busy environment has called the kernel, and goes on from `pc`. -/
theorem IpcInv.of_call {pc : IpcPc} (hb : w.Busy cur) (hk : AtRest k' ∧ RecvRest k') (hp : Posted w.Busy L k')
    (hpc : pc ≠ .user) (hwaits : ∀ e, w.Busy e → (L e).recving = true → (Function.update w.pc cur pc) e = .recvd)
    (hbal : Balanced ((w.setKern k').setPc cur pc)) : IpcInv ((w.setKern k').setPc cur pc) := by
  have hbusy (e : EnvIdx) : ((w.setKern k').setPc cur pc).Busy e ↔ w.Busy e := by
    change Function.update w.pc cur pc e ≠ .user ↔ w.pc e ≠ .user
    by_cases he : e = cur
    · rw [he, Function.update_self]
      exact iff_of_true hpc hb
    · rw [Function.update_of_ne he]
  refine ⟨hk.1, hk.2, ⟨fun _ _ => rfl, fun e he => hp.alive e ((hbusy e).mp he), fun e he => (hbusy e).mpr (hp.recving e he),
    hp.zombie, hp.slot⟩, fun e he => ?_, hbal⟩
  have hb := hp.recving e he
  apply hwaits e hb
  rw [← hp.letter e hb]
  exact he

/-- Other environments have seen nothing of a call that concerns the caller only. -/
theorem IpcInv.ownCall {pc : IpcPc} {l : Letter} (h : IpcInv w) (hb : w.Busy cur) (hk : AtRest k' ∧ RecvRest k')
    (hp : Posted w.Busy (Function.update w.letter cur l) k') (hpc : pc ≠ .user) (hwaits : l.recving = true → pc = .recvd)
    (hout : ∀ a b, pc.outgoing l a b = (w.pc cur).outgoing (w.letter cur) a b)
    (hin : ∀ a b, pc.incoming l a b = (w.pc cur).incoming (w.letter cur) a b) : IpcInv ((w.setKern k').setPc cur pc) := by
  have hl : (k'.envs cur).letter = l := (hp.letter cur hb).trans (Function.update_self ..)
  refine .of_call hb hk hp hpc (fun e _ hr => ?_) ?_
  · by_cases he : e = cur
    · rw [he, Function.update_self] at hr ⊢
      exact hwaits hr
    · rw [Function.update_of_ne he] at hr ⊢
      exact h.waits e hr
  · refine h.balanced.idle (fun e (he : e ≠ cur) => ⟨Function.update_of_ne he _ _, fun hbe => ?_⟩) rfl rfl (fun a b => ?_) fun a b => ?_
    · exact (hp.letter e hbe).trans (Function.update_of_ne he _ _)
    · change (Function.update w.pc cur pc cur).outgoing (k'.envs cur).letter a b = _
      rw [Function.update_self, hl]
      exact hout a b
    · change (Function.update w.pc cur pc cur).incoming (k'.envs cur).letter a b = _
      rw [Function.update_self, hl]
      exact hin a b

section Calls

variable {toEnv value srcva perm dstva : Word}

/-- A message goes from `cur` to the environment `toEnv`, which waits for one. -/
theorem Balanced.deliver (h : Balanced w) (hcur : envx (w.letter cur).id = cur) (hpc : w.pc cur = .send toEnv value srcva perm)
    (hne : envx toEnv ≠ cur) (hwait : w.pc (envx toEnv) = .recvd) (hrecv : (w.letter (envx toEnv)).recving = true)
    (hid : (w.letter (envx toEnv)).id = toEnv)
    (hp : Posted w.Busy (Function.update (Function.update w.letter (envx toEnv)
      ((w.letter (envx toEnv)).deliver (w.letter cur).id value)) cur ((w.letter cur).ret 0#32)) k') :
    Balanced ((w.setKern k').setPc cur (.sent toEnv value srcva perm)) := by
  have hbcur : w.Busy cur := by
    rw [IpcWorld.Busy, hpc]
    exact IpcPc.noConfusion
  have hbdst : w.Busy (envx toEnv) := by
    rw [IpcWorld.Busy, hwait]
    exact IpcPc.noConfusion
  have hlcur : (k'.envs cur).letter = (w.letter cur).ret 0#32 := (hp.letter cur hbcur).trans (Function.update_self ..)
  have hldst : (k'.envs (envx toEnv)).letter = (w.letter (envx toEnv)).deliver (w.letter cur).id value := by
    rw [hp.letter _ hbdst, Function.update_of_ne hne, Function.update_self]
  have hlother (e : EnvIdx) (h₁ : e ≠ cur) (h₂ : e ≠ envx toEnv) (hb : w.Busy e) : (k'.envs e).letter = w.letter e := by
    rw [hp.letter e hb, Function.update_of_ne h₁, Function.update_of_ne h₂]
  intro a b
  -- both sides get the message, if it is one from `a` to `b`
  have hout : ((w.setKern k').setPc cur (.sent toEnv value srcva perm)).outgoing a b =
      w.outgoing a b ++ if (w.letter cur).id = a ∧ toEnv = b then [value] else [] := by
    change (Function.update w.pc cur _ (envx a)).outgoing (k'.envs (envx a)).letter a b = (w.pc (envx a)).outgoing _ a b ++ _
    by_cases ha : envx a = cur
    · rw [ha, Function.update_self, hlcur, hpc]
      simp only [IpcPc.outgoing, Letter.ret, List.nil_append]
      exact if_congr (by simp) rfl rfl
    · have hno : ¬ ((w.letter cur).id = a ∧ toEnv = b) := by
        rintro ⟨rfl, -⟩
        exact ha hcur
      rw [Function.update_of_ne ha, if_neg hno, List.append_nil]
      by_cases ha' : envx a = envx toEnv
      · rw [ha', hwait]
        rfl
      · exact outgoing_congr (hlother _ ha ha')
  have hin : ((w.setKern k').setPc cur (.sent toEnv value srcva perm)).incoming a b =
      w.incoming a b ++ if (w.letter cur).id = a ∧ toEnv = b then [value] else [] := by
    change (Function.update w.pc cur _ (envx b)).incoming (k'.envs (envx b)).letter a b = (w.pc (envx b)).incoming _ a b ++ _
    by_cases hb : envx b = envx toEnv
    · rw [hb, Function.update_of_ne hne, hldst, hwait]
      simp only [IpcPc.incoming, Letter.deliver, hrecv, Bool.true_eq_false, false_and, and_false, if_false, List.nil_append]
      exact if_congr (by rw [hid]; simp [and_comm]) rfl rfl
    · have hno : ¬ ((w.letter cur).id = a ∧ toEnv = b) := by
        rintro ⟨-, rfl⟩
        exact hb rfl
      rw [if_neg hno, List.append_nil]
      by_cases hb' : envx b = cur
      · rw [hb', Function.update_self, hpc]
        rfl
      · rw [Function.update_of_ne hb']
        exact incoming_congr (hlother _ hb' hb)
  change valuesOf w.sends a b ++ _ = valuesOf w.recvs a b ++ _
  rw [hout, hin, ← List.append_assoc, ← List.append_assoc, h a b]

theorem IpcInv.trapSend (h : IpcInv w) (hx : Executing w.kern c cur) (hpc : w.pc cur = .send toEnv value srcva perm)
    (hc : Calls inp.tf 12#32) (h₁ : inp.tf.tfRegs.regEdx = toEnv) (h₂ : inp.tf.tfRegs.regEcx = value)
    (hs : Step w.kern (.trap c inp) k') : IpcInv ((w.setKern k').setPc cur (.sent toEnv value srcva perm)) := by
  obtain ⟨hcs, hno, heax⟩ := hc
  have hb : w.Busy cur := by
    rw [IpcWorld.Busy, hpc]
    exact IpcPc.noConfusion
  have hrecv : (w.letter cur).recving = false := h.notRecving hx
  have hk := h.quietTrap hx hs fun _ => by rw [heax]; decide
  cases hs with
  | trap _ ht =>
    obtain ⟨v, hv, hp⟩ | ⟨hne, hbdst, hdrecv, hid, hp⟩ := posted_send h.posted hb hrecv hx.2 h.rest.lock hcs hno heax ht
    · refine h.ownCall hb hk hp IpcPc.noConfusion (fun hr => ?_) (fun a b => ?_) fun a b => ?_
      · cases hrecv.symm.trans hr
      · rw [hpc]
        exact if_neg fun hbad => absurd (hv.symm.trans hbad.2.2) (by decide)
      · rw [hpc]
        rfl
    · subst h₁ h₂
      have hwait := h.waits _ hdrecv
      have hcur : envx (w.letter cur).id = cur := h.posted.slot cur (h.rest.exec.notFree c cur hx)
      refine .of_call hb hk hp IpcPc.noConfusion (fun e _ hr => ?_) (h.balanced.deliver hcur hpc hne hwait hdrecv hid hp)
      have hec : e ≠ cur := by
        rintro rfl
        rw [Function.update_self] at hr
        cases hrecv.symm.trans hr
      rw [Function.update_of_ne hec] at hr ⊢
      by_cases hed : e = envx inp.tf.tfRegs.regEdx
      · rw [hed, Function.update_self] at hr
        cases hr
      · rw [Function.update_of_ne hed] at hr
        exact h.waits e hr

theorem IpcInv.trapYield (h : IpcInv w) (hx : Executing w.kern c cur) (hpc : w.pc cur = .yield toEnv value srcva perm)
    (hc : Calls inp.tf 11#32) (hs : Step w.kern (.trap c inp) k') :
    IpcInv ((w.setKern k').setPc cur (.send toEnv value srcva perm)) := by
  obtain ⟨hcs, hno, heax⟩ := hc
  have hb : w.Busy cur := by
    rw [IpcWorld.Busy, hpc]
    exact IpcPc.noConfusion
  have hrecv : (w.letter cur).recving = false := h.notRecving hx
  have hk := h.quietTrap hx hs fun _ => by rw [heax]; decide
  cases hs with
  | trap _ ht =>
    refine h.ownCall hb hk (posted_yield h.posted hx.2 h.rest.lock hcs hno heax ht) IpcPc.noConfusion (fun hr => ?_)
      (fun a b => ?_) fun a b => ?_
    · cases hrecv.symm.trans hr
    · rw [hpc]
      rfl
    · rw [hpc]
      rfl

theorem IpcInv.trapRecv (h : IpcInv w) (hx : Executing w.kern c cur) (hpc : w.pc cur = .recv dstva) (hc : Calls inp.tf 13#32)
    (hs : Step w.kern (.trap c inp) k') : IpcInv ((w.setKern k').setPc cur .recvd) := by
  obtain ⟨hcs, hno, heax⟩ := hc
  have hb : w.Busy cur := by
    rw [IpcWorld.Busy, hpc]
    exact IpcPc.noConfusion
  have hk := h.quietTrap hx hs fun _ => by rw [heax]; decide
  cases hs with
  | trap _ ht =>
    obtain ⟨v, hv, -, hp⟩ | hp := posted_recv h.posted hb hx.2 h.rest.lock hcs hno heax ht
    · refine h.ownCall hb hk hp IpcPc.noConfusion (fun _ => rfl) (fun a b => ?_) fun a b => ?_
      · rw [hpc]
        rfl
      · rw [hpc]
        exact if_neg fun hbad => absurd (hv.symm.trans hbad.2.2.2) (by decide)
    · refine h.ownCall hb hk hp IpcPc.noConfusion (fun _ => rfl) (fun a b => ?_) fun a b => ?_
      · rw [hpc]
        rfl
      · rw [hpc]
        exact if_neg fun hbad => absurd (show true = false from hbad.2.2.1) (by decide)

end Calls

/-- What `ipc_send` and `ipc_recv` do between their system calls. -/
theorem IpcInv.sendReturns {toEnv value srcva perm : Word} (h : IpcInv w) (hx : Executing w.kern c cur)
    (hpc : w.pc cur = .sent toEnv value srcva perm) (hr : (w.letter cur).eax.slt 0#32 = false) :
    IpcInv { w.setPc cur .user with sends := w.sends ++ [((w.letter cur).id, toEnv, value)] } := by
  have hcur : envx (w.letter cur).id = cur := h.posted.slot cur (h.rest.exec.notFree c cur hx)
  refine h.setPc hx rfl rfl (h.balanced.move (fun e (he : e ≠ cur) => ⟨Function.update_of_ne he _ _, fun _ => rfl⟩)
    (fun a b ha => ?_) (fun _ _ _ => rfl) (fun a b _ => ?_) fun a b _ => ?_)
  · rw [valuesOf_append, if_neg, List.append_nil]
    rintro ⟨hid, -⟩
    exact ha (hid ▸ hcur)
  · change valuesOf (w.sends ++ [_]) a b ++ (Function.update w.pc cur .user cur).outgoing (w.letter cur) a b = _
    rw [valuesOf_append, Function.update_self, hpc]
    simp only [IpcPc.outgoing, hr, and_true, List.append_nil]
  · change _ ++ (Function.update w.pc cur .user cur).incoming (w.letter cur) a b = _
    rw [Function.update_self, hpc]
    rfl

theorem IpcInv.recvReturns {sender : Word} (h : IpcInv w) (hx : Executing w.kern c cur) (hpc : w.pc cur = .fetch sender) :
    IpcInv { w.setPc cur .user with recvs := w.recvs ++ [(sender, (w.letter cur).id, (w.letter cur).value)] } := by
  have hcur : envx (w.letter cur).id = cur := h.posted.slot cur (h.rest.exec.notFree c cur hx)
  refine h.setPc hx rfl rfl (h.balanced.move (fun e (he : e ≠ cur) => ⟨Function.update_of_ne he _ _, fun _ => rfl⟩)
    (fun _ _ _ => rfl) (fun a b hb => ?_) (fun a b _ => ?_) fun a b _ => ?_)
  · rw [valuesOf_append, if_neg, List.append_nil]
    rintro ⟨-, hid⟩
    exact hb (hid ▸ hcur)
  · change _ ++ (Function.update w.pc cur .user cur).outgoing (w.letter cur) a b = _
    rw [Function.update_self, hpc]
    rfl
  · change valuesOf (w.recvs ++ [_]) a b ++ (Function.update w.pc cur .user cur).incoming (w.letter cur) a b = _
    rw [valuesOf_append, Function.update_self, hpc]
    simp only [IpcPc.incoming, and_comm, List.append_nil]

/-- A move inside of the two functions that no message takes part in. -/
theorem IpcInv.idle {pc : IpcPc} (h : IpcInv w) (hx : Executing w.kern c cur)
    (hout : ∀ a b, pc.outgoing (w.letter cur) a b = (w.pc cur).outgoing (w.letter cur) a b)
    (hin : ∀ a b, pc.incoming (w.letter cur) a b = (w.pc cur).incoming (w.letter cur) a b) : IpcInv (w.setPc cur pc) := by
  refine h.setPc hx rfl rfl (h.balanced.idle (fun e (he : e ≠ cur) => ⟨Function.update_of_ne he _ _, fun _ => rfl⟩) rfl rfl
    (fun a b => ?_) fun a b => ?_)
  · change (Function.update w.pc cur pc cur).outgoing (w.letter cur) a b = _
    rw [Function.update_self]
    exact hout a b
  · change (Function.update w.pc cur pc cur).incoming (w.letter cur) a b = _
    rw [Function.update_self]
    exact hin a b

/-- A call of `ipc_send` that the kernel has refused has nothing under way. -/
theorem IpcInv.refused {toEnv value srcva perm : Word} {pc : IpcPc} (h : IpcInv w) (hx : Executing w.kern c cur)
    (hpc : w.pc cur = .sent toEnv value srcva perm) (hr : (w.letter cur).eax.slt 0#32 = true)
    (hout : ∀ a b, pc.outgoing (w.letter cur) a b = []) (hin : ∀ a b, pc.incoming (w.letter cur) a b = []) :
    IpcInv (w.setPc cur pc) := by
  refine h.idle hx (fun a b => ?_) fun a b => ?_
  · rw [hout, hpc]
    exact (if_neg fun hbad => absurd (hr.symm.trans hbad.2.2) (by decide)).symm
  · rw [hin, hpc]
    rfl

/-- Every step keeps the invariant. -/
theorem IpcStep.inv (hs : IpcStep w w') (h : IpcInv w) : IpcInv w' := by
  cases hs with
  | user hx hpc hs hm hno => exact h.user hx hpc hs hm hno
  | store hs => exact h.store hs
  | start hs => exact h.start hs
  | wake hu hno hs => exact h.wake hu hno hs
  | interrupt hx hcs hirq heax hs => exact h.interrupt hx hcs hirq heax hs
  | callSend toEnv value pg perm hx hpc => exact h.idle hx (fun _ _ => by rw [hpc]; rfl) fun _ _ => by rw [hpc]; rfl
  | trapSend hx hpc hc h₁ h₂ _ _ hs => exact h.trapSend hx hpc hc h₁ h₂ hs
  | sendReturns hx hpc hr => exact h.sendReturns hx hpc hr
  | sendRetries hx hpc hr => exact h.refused hx hpc (by rw [hr]; decide) (fun _ _ => rfl) fun _ _ => rfl
  | sendPanics hx hpc hr _ => exact h.refused hx hpc hr (fun _ _ => rfl) fun _ _ => rfl
  | trapYield hx hpc hc hs => exact h.trapYield hx hpc hc hs
  | callRecv pg hx hpc => exact h.idle hx (fun _ _ => by rw [hpc]; rfl) fun _ _ => by rw [hpc]; rfl
  | trapRecv hx hpc hc _ hs => exact h.trapRecv hx hpc hc hs
  | recvFails hx hpc hr =>
    refine h.idle hx (fun _ _ => by rw [hpc]; rfl) fun a b => ?_
    rw [hpc]
    exact (if_neg fun hbad => absurd (hr.symm.trans hbad.2.2.2) (by decide)).symm
  | recvFetches hx hpc hr =>
    refine h.idle hx (fun _ _ => by rw [hpc]; rfl) fun a b => ?_
    have hrecv : (w.letter _).recving = false := h.notRecving hx
    rw [hpc]
    simp only [IpcPc.incoming, hr, hrecv, and_true]
  | recvReturns hx hpc => exact h.recvReturns hx hpc

theorem posted_createEnvs {E : Kern → Prop} (programs : List (Elf × EnvType)) :
    Triple (Posted (fun _ => False) L) (createEnvs programs) (fun _ => Posted (fun _ => False) L) E := by
  induction programs with
  | nil => exact .pure fun _ h => h
  | cons program programs ih =>
    refine .bind (.bind (Q := fun _ => Posted (fun _ => False) L) (.of_ret (stays_envAlloc 0#32) fun k r k' hk h => ?_)
      fun r => ?_) fun _ => ih
    · rcases envAlloc_ret h with ⟨err, rfl, rfl | ⟨t, -, rfl⟩⟩ | ⟨e, g, t, rfl, hf, -, rfl⟩
      · exact hk
      · exact hk.congr rfl
      · exact hk.alloced (fun hb => hb) 0#32 g t
    · cases r with
      | error _ => exact .halt
      | ok e =>
        refine .bind (keeps_envPgdir e) fun g => ?_
        refine .bind (triple_mem memSteady_posted (stays_loadSegments g program.1.segments)) fun _ => ?_
        exact .modify fun k hk => hk.setEnv_other (fun hb => hb) (fun hr => hr) (hk.zombie e) (hk.slot e)

theorem Booted.posted (h : Booted k) : Posted (fun _ => False) (fun e => (k.envs e).letter) k := by
  obtain ⟨m, s, c, programs, -, h⟩ := booted_iff.mp h
  have hk : Posted (fun _ => False) (fun e => (k.envs e).letter) (envInit (afterMemInit s)) := by
    refine ⟨fun _ hb => hb.elim, fun _ hb => hb.elim, fun o hr => ?_, fun o hd => ?_, fun o hf => ?_⟩
    · cases hr
    · cases hd
    · exact absurd rfl hf
  have ht : Triple (fun k => k = afterMemInit s) (startFirst c programs) (fun _ _ => False)
      (Posted (fun _ => False) (fun e => (k.envs e).letter)) := by
    refine .bind (.modify (Q := fun _ => Posted (fun _ => False) (fun e => (k.envs e).letter)) fun s hs => by rw [hs]; exact hk)
      fun _ => ?_
    refine .bind (.modify (Q := fun _ => Posted (fun _ => False) (fun e => (k.envs e).letter)) fun s hs => hs.congr rfl) fun _ => ?_
    refine .bind (triple_lockKernel.post (Q := fun _ => Posted (fun _ => False) (fun e => (k.envs e).letter)) fun _ s hs => ?_)
      fun _ => .bind (posted_createEnvs programs) fun _ => posted_schedYield
    obtain ⟨_, hs, -, rfl⟩ := hs
    exact hs.congr rfl
  exact ht.left rfl h

theorem IpcBooted.inv (h : IpcBooted w) : IpcInv w := by
  have hidle (e : EnvIdx) : ¬ w.Busy e := not_not.mpr (h.pc e)
  have hp := h.kern.posted
  refine ⟨h.kern.atRest, h.kern.recvRest, ⟨fun _ _ => rfl, fun e he => absurd he (hidle e), fun e he => (hp.recving e he).elim,
    hp.zombie, hp.slot⟩, fun e he => (hp.recving e he).elim, fun a b => ?_⟩
  unfold IpcWorld.outgoing IpcWorld.incoming
  rw [h.sends, h.recvs, h.pc, h.pc]
  rfl

end Invariant
end Sisop
