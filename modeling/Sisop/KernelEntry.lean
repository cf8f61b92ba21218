import Sisop.KernelMemory

/-! The way into the kernel. Between a trap and its dispatching only the CPU, the
lock and the saved registers of the current environment change, so that a property
of the kernel is kept by all traps if it is kept by what follows. -/
namespace Sisop

open Routine (Triple)

/-- The CPU `c` has entered the kernel in the state `k`, and has done no more than that. -/
structure Entered (c : ℕ) (k s : Kern) : Prop where
  call : SameCall c k s
  self : (s.cpus c).user = false
  cpus : ∀ c', c' ≠ c → s.cpus c' = k.cpus c'
  envs : ∀ e, (k.cpus c).cpuEnv ≠ some e → s.envs e = k.envs e

section Entry

variable {k s : Kern} {c : ℕ} {cur : EnvIdx} {inp : TrapInput} {Q E : Kern → Prop}

theorem Entered.setCpu {f : CpuInfo → CpuInfo} (henv : (f (k.cpus c)).cpuEnv = (k.cpus c).cpuEnv)
    (hu : (f (k.cpus c)).user = false) : Entered c k (k.setCpu c f) := by
  refine ⟨⟨SameSpace.setCpu k c f, ?_, fun _ => ⟨rfl, rfl, rfl, rfl, rfl⟩⟩, ?_, fun c' hc => ?_,
    fun _ _ => rfl⟩
  · rw [setCpu_cpus, if_pos rfl, henv]
  · rw [setCpu_cpus, if_pos rfl, hu]
  · rw [setCpu_cpus, if_neg hc]

theorem Entered.saved (h : Entered c k s) (hc : (k.cpus c).cpuEnv = some cur) (tf : Trapframe) :
    Entered c k (s.setEnv cur fun env => { env with envTf := tf }) := by
  refine ⟨h.call.saved cur tf, h.self, h.cpus, fun e he => ?_⟩
  have hne : e ≠ cur := by
    rintro rfl
    exact he hc
  rw [setEnv_envs, if_neg hne]
  exact h.envs e he

theorem Entered.executing (h : Entered c k s) {c' : ℕ} {e : EnvIdx} (hx : Executing s c' e) :
    c' ≠ c ∧ Executing k c' e := by
  have hc : c' ≠ c := by
    rintro rfl
    exact absurd hx.1 (by simp [h.self])
  refine ⟨hc, ?_⟩
  rwa [Executing, h.cpus c' hc] at hx

theorem Entered.lockKernel : Triple (Entered c k) (lockKernel c) (fun _ => Entered c k) E :=
  triple_lockKernel.post fun _ _ hs => by
    obtain ⟨s, h, -, rfl⟩ := hs
    exact ⟨h.call.lock _, h.self, h.cpus, h.envs⟩

theorem triple_unlockKernel {P : Kern → Prop} (hP : ∀ k, P k → P { k with kernelLock := none }) :
    Triple P (envRun.unlockKernel c) (fun _ => P) E := by
  apply Triple.intro
  intro k hk
  unfold envRun.unlockKernel
  by_cases hl : k.kernelLock = some c
  · rw [if_pos hl]
    exact hP k hk
  · rw [if_neg hl]
    trivial

/-- What `trap` does with a zombie that comes back from user code. -/
def reap (c : ℕ) (cur : EnvIdx) : Routine Kern Unit := do
  envFree cur
  Routine.modify fun k => k.setCurenv c none
  schedYield c

/-- The caller of the kernel is an environment that is not a zombie. -/
def Kern.CallerLives (k : Kern) (c : ℕ) : Prop :=
  ∃ cur, (k.cpus c).cpuEnv = some cur ∧ k.status cur ≠ .dying

theorem Entered.trapFromUser (tf : Trapframe)
    (hreap : ∀ cur, (k.cpus c).cpuEnv = some cur → k.status cur = .dying →
      Triple (Entered c k) (reap c cur) (fun _ _ => False) E) :
    Triple (Entered c k) (trapFromUser c tf) (fun _ s => Entered c k s ∧ k.CallerLives c) E := by
  refine .bind triple_curenv fun cur => ?_
  refine .bind (Q := fun _ s => Entered c k s ∧ (k.cpus c).cpuEnv = some cur)
    (triple_lockKernel.post fun _ s hs => ?_) fun _ => ?_
  · obtain ⟨s, ⟨h, hc⟩, -, rfl⟩ := hs
    exact ⟨⟨h.call.lock _, h.self, h.cpus, h.envs⟩, h.call.cpuEnv.symm.trans hc⟩
  refine .bind (Q := fun st s => (Entered c k s ∧ (k.cpus c).cpuEnv = some cur) ∧ st = k.status cur)
    (.gets fun s hs => ⟨hs, (hs.1.call.env cur).1⟩) fun st => .ite ?_ ?_
  · apply Triple.intro
    intro s hs
    obtain ⟨⟨⟨h, hc⟩, rfl⟩, hd⟩ := hs
    have hr := ((hreap cur hc hd).post (Q := fun _ s => Entered c k s ∧ k.CallerLives c)
      fun _ _ hf => hf.elim).run s h
    exact hr
  · refine .modify fun s hs => ?_
    obtain ⟨⟨⟨h, hc⟩, rfl⟩, hd⟩ := hs
    exact ⟨h.saved hc tf, cur, hc, hd⟩

/-- A property is kept by a trap if it is kept by the reaping of zombies, by the
dispatching of the trap, and by the scheduler. -/
theorem Entered.trap
    (hreap : ∀ cur, (k.cpus c).cpuEnv = some cur → k.status cur = .dying →
      Triple (Entered c k) (reap c cur) (fun _ _ => False) E)
    (hdisp : Triple (fun s => Entered c k s ∧ (inp.tf.tfCs &&& 3#16 = 3#16 → k.CallerLives c))
      (trapDispatch c inp) (fun _ => Q) E)
    (hrun : ∀ e, Triple (fun s => Q s ∧ s.curRunning c = some e) (envRun c e) (fun _ _ => False) E)
    (hyield : Triple Q (schedYield c) (fun _ _ => False) E) :
    Triple (fun s => s = k) (trap c inp) (fun _ _ => False) E := by
  refine .bind (.gets_same _) fun old => ?_
  refine .bind (.modify (Q := fun _ => Entered c k) fun s hs => ?_) fun _ => ?_
  · rw [hs]
    exact Entered.setCpu (f := CpuInfo.trapped) rfl rfl
  refine .ite_bind (a := ()) (Q := fun _ => Entered c k) (Entered.lockKernel.pre fun _ h => h.1)
    (fun _ h => h.1) fun _ => ?_
  refine .ite_bind (a := ()) (Q := fun _ s => Entered c k s ∧
      (inp.tf.tfCs &&& 3#16 = 3#16 → k.CallerLives c))
    (((Entered.trapFromUser inp.tf hreap).pre fun _ h => h.1).post fun _ s hs => ⟨hs.1, fun _ => hs.2⟩)
    (fun s hs => ⟨hs.1, fun h => absurd h hs.2⟩) fun _ => ?_
  refine .bind hdisp fun _ => ?_
  refine .bind (Q := fun r s => Q s ∧ s.curRunning c = r) (.gets fun s hs => ⟨hs, rfl⟩) fun r => ?_
  cases r with
  | some e => exact hrun e
  | none => exact hyield.pre fun s hs => hs.1

/-- The same for a processor that starts. -/
theorem Entered.mpMain (hu : (k.cpus c).user = false)
    (hyield : Triple (Entered c k) (schedYield c) (fun _ _ => False) E) :
    Triple (fun s => s = k) (mpMain c) (fun _ _ => False) E := by
  refine .bind (.modify (Q := fun _ => Entered c k) fun s hs => ?_) fun _ =>
    .bind Entered.lockKernel fun _ => hyield
  rw [hs]
  exact Entered.setCpu (f := fun cpu => { cpu with cpuStatus := .started }) rfl hu

end Entry
end Sisop
