import Sisop.BootDevices
import Sisop.CpuSteps

/-! The kernel as a transition system. A step is one whole stay of a CPU in the
kernel, from the trap or the start of the processor to its return to user code or
its halt, or one store by user code. Any CPU may make the next step. -/
namespace Sisop

open Routine (Triple Stays)

inductive Event where
  | trap (c : ℕ) (inp : TrapInput)
  | start (c : ℕ)
  | store (c : ℕ) (va : Word) (b : BitVec 8)

/-- A trap comes from user code, or is an interrupt that wakes a halted CPU. -/
def Traps (k : Kern) (c : ℕ) (tf : Trapframe) : Prop :=
  (k.cpus c).user = true ∧ tf.tfCs &&& 3#16 = 3#16 ∨
    (k.cpus c).user = false ∧ (k.cpus c).cpuStatus = .halted ∧ tf.tfCs = 0x08#16

inductive Step (k : Kern) : Event → Kern → Prop where
  | trap {c inp k'} (ht : Traps k c inp.tf) (h : trap c inp k = .left k') : Step k (.trap c inp) k'
  | start {c k'} (hu : (k.cpus c).user = false) (hs : (k.cpus c).cpuStatus = .unused)
      (h : mpMain c k = .left k') : Step k (.start c) k'
  | store {c e g va b t} (hx : Executing k c e) (hg : k.dirs e = some g)
      (h : userStoreByte g va b k.mem = .ret () t) : Step k (.store c va b) { k with mem := t }

/-- The states in which the boot processor leaves the kernel for the first time. -/
def Booted (k : Kern) : Prop := ∃ m s lapicaddr others c programs, MemInit m s ∧
  i386Init s.base lapicaddr others c programs (afterMemInit s.mem) = .left k

/-- `i386_init()` as if the registers of the local APIC had been mapped first. -/
def startFirst (c : ℕ) (programs : List (Elf × EnvType)) : Routine Kern Unit := do
  Routine.modify envInit
  Routine.modify fun k => k.setCpu c fun cpu => { cpu with cpuStatus := .started }
  lockKernel c
  createEnvs programs
  schedYield c

/-- The CPU that takes the step. -/
def Event.cpu : Event → ℕ
  | .trap c _ => c
  | .start c => c
  | .store c _ _ => c

/-- A trap that is a meddling system call of an environment that is not a zombie. -/
def Event.Meddles (k : Kern) : Event → Prop
  | .trap c inp => inp.tf.tfTrapno = 48#32 ∧
      (∃ cur, (k.cpus c).cpuEnv = some cur ∧ k.status cur ≠ .dying) ∧ Sisop.Meddles k c inp.tf.tfRegs
  | _ => False

/-- Any step. -/
def AnyStep (k k' : Kern) : Prop := ∃ ev, Step k ev k'

/-- A step whose event does not meddle with another CPU. -/
def QuietStep (k k' : Kern) : Prop := ∃ ev, Step k ev k' ∧ ¬ ev.Meddles k

section Entry

variable {k₀ k k' : Kern} {c : ℕ} {e : EnvIdx} {E : Kern → Prop}

theorem AtRest.congr (hk : AtRest k) (h : SameLife k k') : AtRest k' := by
  have hx := h.executing
  refine ⟨⟨fun c₁ c₂ e h₁ h₂ => hk.exec.exclusive c₁ c₂ e ((hx _ _).mp h₁) ((hx _ _).mp h₂),
    fun c₁ e h₁ => ?_, fun c₁ e h₁ => ?_, fun c₁ e h₁ => ?_⟩, ?_, ?_, ?_⟩
  · rw [h.status]
    exact hk.exec.notRunnable c₁ e ((hx _ _).mp h₁)
  · rw [h.status]
    exact hk.exec.notFree c₁ e ((hx _ _).mp h₁)
  · rw [h.dirs]
    exact hk.exec.dir c₁ e ((hx _ _).mp h₁)
  · rw [h.cpus]
    exact hk.idle
  · obtain ⟨l, hl⟩ := hk.free
    exact ⟨l, hl.congr (fun e _ => h.link e) h.freeList fun e _ => congrFun h.status e⟩
  · rw [h.lock]
    exact hk.lock

/-- The state in which a CPU has entered the kernel and taken the lock. -/
def Kern.entered (k : Kern) (c : ℕ) (g : CpuInfo → CpuInfo) : Kern :=
  { k.setCpu c g with kernelLock := some c }

theorem entered_cpus (g : CpuInfo → CpuInfo) (i : ℕ) :
    (k.entered c g).cpus i = if i = c then g (k.cpus c) else k.cpus i := setCpu_cpus g i

theorem AtRest.enter (hk : AtRest k) {g : CpuInfo → CpuInfo}
    (hg : ∀ cpu, (g cpu).cpuEnv = cpu.cpuEnv) (hu : (g (k.cpus c)).user = false) :
    InKernel k c (k.entered c g) := by
  have hcpu := @entered_cpus k c g
  have hx (c₁ : ℕ) (i : EnvIdx) (h : Executing (k.entered c g) c₁ i) :
      c₁ ≠ c ∧ Executing k c₁ i := by
    by_cases hcc : c₁ = c
    · have h1 := h.1
      rw [hcpu, if_pos hcc, hu] at h1
      cases h1
    · rw [Executing, hcpu, if_neg hcc] at h
      exact ⟨hcc, h⟩
  refine ⟨⟨fun c₁ c₂ i h₁ h₂ => hk.exec.exclusive c₁ c₂ i (hx c₁ i h₁).2 (hx c₂ i h₂).2,
    fun c₁ i h => hk.exec.notRunnable c₁ i (hx c₁ i h).2,
    fun c₁ i h => hk.exec.notFree c₁ i (hx c₁ i h).2,
    fun c₁ i h => hk.exec.dir c₁ i (hx c₁ i h).2⟩, fun c₁ hcc => ?_, ?_, fun i hi => ?_, hk.free, rfl,
    ⟨fun c₁ hcc => by rw [hcpu, if_neg hcc], fun _ _ _ _ => ⟨rfl, rfl⟩⟩⟩
  · rw [hcpu, if_neg hcc]
    exact hk.idle c₁
  · rw [hcpu, if_pos rfl, hu]
  · rw [hcpu, if_pos rfl, hg] at hi
    -- a current environment outside the kernel executes, and on this CPU only
    have hxc : Executing k c i := by
      refine ⟨?_, hi⟩
      by_contra hn
      rw [hk.idle c (by simpa using hn)] at hi
      cases hi
    exact ⟨hk.exec.notFree c i hxc, fun c₁ h =>
      (hx c₁ i h).1 (hk.exec.exclusive c₁ c i (hx c₁ i h).2 hxc)⟩

theorem triple_lockKernel {P : Kern → Prop} :
    Triple P (lockKernel c) (fun _ k => ∃ k', P k' ∧ k'.kernelLock = none ∧
      k = { k' with kernelLock := some c }) E := by
  refine Triple.intro fun k hk => ?_
  unfold lockKernel
  by_cases hl : k.kernelLock = none
  · rw [if_pos hl]
    exact ⟨k, hk, hl, rfl⟩
  · rw [if_neg hl]
    trivial

/-- Two states in which the same calls meddle. -/
theorem Meddles.congr {regs : PushRegs} (h : Meddles k' c regs)
    (hc : ∀ c', c' ≠ c → k'.cpus c' = k.cpus c') (hcur : (k'.cpus c).cpuEnv = (k.cpus c).cpuEnv)
    (he : ∀ i, (k'.envs i).envStatus = (k.envs i).envStatus ∧ (k'.envs i).envId = (k.envs i).envId ∧
      (k'.envs i).envParentId = (k.envs i).envParentId ∧
      (k'.envs i).envIpcRecving = (k.envs i).envIpcRecving) : Meddles k c regs := by
  obtain ⟨e, c', hcc, hx, h⟩ := h
  have hst (i : EnvIdx) : k'.status i = k.status i := (he i).1
  have hn (envid : Word) (b : Bool) (hn : Names k' c envid b e) : Names k c envid b e := by
    simp only [Names, hcur, hst, (he _).2.1, (he _).2.2.1] at hn ⊢
    exact hn
  refine ⟨e, c', hcc, ?_, ?_⟩
  · rwa [Executing, hc c' hcc] at hx
  · rcases h with ⟨h1, h2, h3⟩ | ⟨h1, h2, h3⟩ | ⟨h1, h2, h3, h4⟩
    · exact Or.inl ⟨h1, hn _ _ h2, hst e ▸ h3⟩
    · exact Or.inr (Or.inl ⟨h1, hn _ _ h2, h3⟩)
    · exact Or.inr (Or.inr ⟨h1, hn _ _ h2, (he e).2.2.2 ▸ h3, h4⟩)

theorem triple_mpMain (hk : AtRest k) (hu : (k.cpus c).user = false) :
    Triple (fun s => s = k) (mpMain c) (fun _ _ => False) (Leaves k c) := by
  refine .bind (.modify (Q := fun _ s => s = k.setCpu c fun cpu => { cpu with cpuStatus := .started })
    fun s hs => by rw [hs]) fun _ => ?_
  refine .bind triple_lockKernel fun _ => triple_schedYield.pre fun s hs => ?_
  obtain ⟨_, rfl, -, rfl⟩ := hs
  exact hk.enter (g := fun cpu => { cpu with cpuStatus := .started }) (fun _ => rfl) hu

/-- After the saving of the registers a call meddles only if it did so at the trap. -/
def QuietFrom (k : Kern) (c : ℕ) (regs : PushRegs) (s : Kern) : Prop :=
  Sisop.Meddles s c regs → (s.cpus c).cpuEnv ≠ none →
    (∃ cur, (k.cpus c).cpuEnv = some cur ∧ k.status cur ≠ .dying) ∧ Sisop.Meddles k c regs

/-- What `trap` first makes of the CPU. -/
def CpuInfo.trapped (cpu : CpuInfo) : CpuInfo := { cpu with cpuStatus := .started, user := false }

theorem triple_trapFromUser (hk : AtRest k) (tf : Trapframe) :
    Triple (fun s => s = k.setCpu c CpuInfo.trapped ∨ s = k.entered c CpuInfo.trapped)
      (trapFromUser c tf) (fun _ s => InKernel k c s ∧ QuietFrom k c tf.tfRegs s) (Leaves k c) := by
  have hin := hk.enter (c := c) (g := CpuInfo.trapped) (fun _ => rfl) rfl
  have hcur : ((k.entered c CpuInfo.trapped).cpus c).cpuEnv = (k.cpus c).cpuEnv := by
    change ((k.setCpu c CpuInfo.trapped).cpus c).cpuEnv = _
    rw [setCpu_cpus, if_pos rfl]
    rfl
  refine .bind triple_curenv fun cur => .bind triple_lockKernel fun _ => ?_
  refine .bind (Q := fun st s => s = k.entered c CpuInfo.trapped ∧ (k.cpus c).cpuEnv = some cur ∧
    st = k.status cur) (.gets fun s hs => ?_) fun st => ?_
  · obtain ⟨s', ⟨rfl | rfl, hc⟩, hl, rfl⟩ := hs
    · refine ⟨rfl, ?_, rfl⟩
      rw [← hcur]
      exact hc
    · cases hl
  · refine .ite ?_ ?_
    · refine .bind (Q := fun _ s => InKernel k c (s.setCurenv c none)) (.of_ret (stays_envFree cur)
        fun s _ s' hs h => ?_) fun _ => ?_
      · obtain ⟨⟨rfl, hc, -⟩, -⟩ := hs
        exact hin.freeCurrent (hcur.trans hc) h
      · exact .bind (.modify fun _ h => h) fun _ => triple_schedYield.post fun _ _ h => h.elim
    · refine .modify fun s hs => ?_
      obtain ⟨⟨rfl, hc, rfl⟩, hd⟩ := hs
      refine ⟨hin.congr (SameLife.setEnv _ cur rfl rfl rfl rfl), fun h _ => ⟨⟨cur, hc, hd⟩, ?_⟩⟩
      refine h.congr hin.spares.cpus hcur fun i => ?_
      simp only [setEnv_envs]
      split_ifs with hi
      · rw [hi]
        exact ⟨rfl, rfl, rfl, rfl⟩
      · exact ⟨rfl, rfl, rfl, rfl⟩

/-- A trap that does not meddle leaves the kernel with the invariant. -/
theorem triple_trap (hk : AtRest k) (inp : TrapInput) (ht : Traps k c inp.tf)
    (hm : ¬ Event.Meddles k (.trap c inp)) :
    Triple (fun s => s = k) (trap c inp) (fun _ _ => False) (Leaves k c) := by
  have hin := hk.enter (c := c) (g := CpuInfo.trapped) (fun _ => rfl) rfl
  refine .bind (Q := fun old s => s = k ∧ old = (k.cpus c).cpuStatus) (.gets fun s hs => ⟨hs, by rw [hs]⟩)
    fun old => ?_
  refine .bind (.modify (Q := fun _ s => s = k.setCpu c CpuInfo.trapped ∧ old = (k.cpus c).cpuStatus)
    fun s hs => ⟨by rw [hs.1]; rfl, hs.2⟩) fun _ => ?_
  refine .ite_bind (a := ()) (Q := fun _ s => (s = k.setCpu c CpuInfo.trapped ∧ old ≠ .halted ∨
    s = k.entered c CpuInfo.trapped) ∧ old = (k.cpus c).cpuStatus) (triple_lockKernel.post fun _ s hs => ?_)
    (fun s hs => ⟨Or.inl ⟨hs.1.1, hs.2⟩, hs.1.2⟩) fun _ => ?_
  · obtain ⟨_, ⟨⟨rfl, ho⟩, -⟩, -, rfl⟩ := hs
    exact ⟨Or.inr rfl, ho⟩
  refine .ite_bind (a := ()) (Q := fun _ s => InKernel k c s ∧ QuietFrom k c inp.tf.tfRegs s)
    ((triple_trapFromUser hk inp.tf).pre fun s hs => hs.1.1.imp And.left id) (fun s hs => ?_) fun _ => ?_
  · -- a trap from the kernel finds the CPU halted, without an environment
    obtain ⟨⟨hs, ho⟩, hcs⟩ := hs
    obtain ⟨-, h⟩ | ⟨hu, hst, -⟩ := ht
    · exact absurd h hcs
    · obtain ⟨-, hn⟩ | rfl := hs
      · exact absurd (ho.trans hst) hn
      · refine ⟨hin, fun _ hne => absurd ?_ hne⟩
        change ((k.setCpu c CpuInfo.trapped).cpus c).cpuEnv = none
        rw [setCpu_cpus, if_pos rfl]
        exact hk.idle c hu
  refine .bind ((triple_trapDispatch inp).pre fun s hs => ⟨hs.1, fun hno hc hmed => ?_⟩) fun _ => ?_
  · exact hm ⟨hno, hs.2 hmed hc⟩
  refine .bind (Q := fun r s => InKernel k c s ∧ ∀ e, r = some e → Idle s e) (.gets fun s hs => ?_)
    fun r => ?_
  · exact ⟨hs, fun e he => hs.cur e (curRunning_some he).1⟩
  cases r with
  | some e => exact (triple_envRun e).pre fun s hs => ⟨hs.1, hs.2 e rfl⟩
  | none => exact triple_schedYield.pre fun s hs => hs.1

/-- A step that does not meddle keeps the invariant, and spares the other CPUs. -/
theorem Step.leaves {ev : Event} (h : Step k ev k') (hk : AtRest k) (hm : ¬ ev.Meddles k) :
    Leaves k ev.cpu k' := by
  cases h with
  | trap ht h => exact (triple_trap hk _ ht hm).left rfl h
  | start hu _ h => exact (triple_mpMain hk hu).left rfl h
  | store hx hg h =>
    exact ⟨hk.congr (SameLife.setMem k _), fun _ _ => rfl, fun _ _ _ _ => ⟨rfl, rfl⟩⟩

/-- `env_init` links all environments. -/
theorem freeEnvs_envInit (hs : ∀ e, k.status e = .free) : ∃ l, FreeEnvs (envInit k) l := by
  obtain ⟨l, hc, hnd⟩ := Chain.exists_finRange (fun i => show ((envInit k).envs i).envLink = _ from rfl) 0
  exact ⟨l, hc, hnd, fun e _ => hs e⟩

theorem stays_regionAlloc (g : ℕ) (va len : Word) : Stays (regionAlloc g va len) := by
  refine .loop (fun i => .bind stays_pageAlloc fun r => ?_) _
  cases r with
  | none => exact .halt
  | some pp => exact .bind (stays_pageInsert _ _ _ _) fun _ => .pure _

theorem stays_loadSegments (g : ℕ) (segments : List (Word × Word)) :
    Stays (loadSegments g segments) := by
  induction segments with
  | nil => exact stays_regionAlloc _ _ _
  | cons seg segments ih => exact .bind (stays_regionAlloc _ _ _) fun _ => ih

theorem triple_envCreate (elf : Elf) (type : EnvType) :
    Triple (InKernel k₀ c) (envCreate elf type) (fun _ => InKernel k₀ c) E := by
  refine .bind (triple_envAlloc 0#32) fun r => ?_
  cases r with
  | error _ => exact .halt
  | ok e =>
    refine .bind ((keeps_envPgdir e).pre fun _ h => h.1) fun g => ?_
    refine .bind (triple_mem steady_inKernel.mem (stays_loadSegments g elf.segments)) fun _ => ?_
    exact .modify fun k hk => hk.congr (SameLife.setEnv k e rfl rfl rfl rfl)

theorem triple_createEnvs (programs : List (Elf × EnvType)) :
    Triple (InKernel k₀ c) (createEnvs programs) (fun _ => InKernel k₀ c) E := by
  induction programs with
  | nil => exact .pure fun _ h => h
  | cons program programs ih => exact .bind (triple_envCreate _ _) fun _ => ih

theorem mapDevices_bind_run {α : Type} {base : Word} {m : Routine Mmio Unit} {s : Mmio} {f : Word → Routine Kern α}
    (h : m ⟨k.mem, base⟩ = .ret () s) : (mapDevices base m >>= f) k = f s.base { k with mem := s.mem } := by
  have hrun : mapDevices base m k = .ret s.base { k with mem := s.mem } := by
    unfold mapDevices
    rw [h]
  exact Routine.bind_ret hrun

/-- Where the mapping of devices never leaves the kernel, what comes after it does. -/
theorem mapDevices_bind_left {α : Type} {base : Word} {m : Routine Mmio Unit} {f : Word → Routine Kern α}
    (hm : ∀ t, m ⟨k.mem, base⟩ ≠ .left t) (h : (mapDevices base m >>= f) k = .left k') :
    ∃ s, m ⟨k.mem, base⟩ = .ret () s ∧ f s.base { k with mem := s.mem } = .left k' := by
  cases hr : m ⟨k.mem, base⟩ with
  | ret u s => exact ⟨s, rfl, (mapDevices_bind_run hr).symm.trans h⟩
  | left s => exact absurd hr (hm s)
  | halt =>
    have hrun : mapDevices base m k = .halt := by
      unfold mapDevices
      rw [hr]
    rw [Routine.bind_halt hrun] at h
    cases h

section Start

variable {base lapicaddr : Word} {others n : ℕ} {programs : List (Elf × EnvType)} {s t s₀ : Pm}

theorem i386Init_run (h : DevicesMapped lapicaddr others ⟨s, base⟩ t) :
    i386Init base lapicaddr others c programs (afterMemInit s) = startFirst c programs (afterMemInit t) := by
  obtain ⟨s₁, s₂, h₁, h₂, rfl⟩ := h
  have hlock (k : Kern) (hk : k.kernelLock = none) : lockKernel c k = .ret () { k with kernelLock := some c } := if_pos hk
  simp only [i386Init, startFirst, bootAps, Routine.modify_bind_run]
  rw [mapDevices_bind_run h₁, Routine.bind_ret (hlock _ rfl), Routine.bind_ret (hlock _ rfl), Routine.bind_assoc_run,
    mapDevices_bind_run h₂]
  rfl

/-- The registers are mapped in the memory, before or after the lock is taken. -/
theorem i386Init_left (hd : DevicesOk s₀ n ⟨s, base⟩)
    (h : i386Init base lapicaddr others c programs (afterMemInit s) = .left k) :
    ∃ t, DevicesMapped lapicaddr others ⟨s, base⟩ t ∧ startFirst c programs (afterMemInit t) = .left k := by
  have hstay : Triple (DevicesOk s₀ n) (lapicInit lapicaddr) (fun _ => DevicesOk s₀ n) fun _ => False := devicesOk_lapicInit _
  have hloop := Triple.loop (I := fun _ => DevicesOk s₀ n) others fun _ _ => hstay
  have hlock (k : Kern) (hk : k.kernelLock = none) : lockKernel c k = .ret () { k with kernelLock := some c } := if_pos hk
  have hrun := h
  simp only [i386Init, bootAps, Routine.modify_bind_run] at h
  obtain ⟨s₁, h₁, h⟩ := mapDevices_bind_left (fun t ht => hstay.left hd ht) h
  rw [Routine.bind_ret (hlock _ rfl), Routine.bind_assoc_run] at h
  obtain ⟨s₂, h₂, -⟩ := mapDevices_bind_left (fun t ht => hloop.left (hstay.ret hd h₁) ht) h
  have hm : DevicesMapped lapicaddr others ⟨s, base⟩ s₂.mem := ⟨s₁, s₂, h₁, h₂, rfl⟩
  exact ⟨_, hm, (i386Init_run hm).symm.trans hrun⟩

theorem booted_iff : Booted k ↔ ∃ m t c programs, BootMem m t ∧ startFirst c programs (afterMemInit t) = .left k := by
  constructor
  · rintro ⟨m, s, lapicaddr, others, c, programs, hm, h⟩
    obtain ⟨n, hd, -⟩ := hm.devicesOk
    obtain ⟨t, ht, hrun⟩ := i386Init_left hd h
    exact ⟨m, t, c, programs, ⟨s, lapicaddr, others, hm, ht⟩, hrun⟩
  · rintro ⟨m, t, c, programs, ⟨s, lapicaddr, others, hm, ht⟩, hrun⟩
    exact ⟨m, s, lapicaddr, others, c, programs, hm, (i386Init_run ht).trans hrun⟩

end Start

theorem Booted.atRest (h : Booted k) : AtRest k := by
  obtain ⟨m, s, c, programs, -, h⟩ := booted_iff.mp h
  have hx (c' : ℕ) (e : EnvIdx) : ¬ Executing (envInit (afterMemInit s)) c' e := fun hx => by
    cases hx.1
  have hk : AtRest (envInit (afterMemInit s)) :=
    ⟨⟨fun c' _ e h => absurd h (hx c' e), fun c' e h => absurd h (hx c' e),
      fun c' e h => absurd h (hx c' e), fun c' e h => absurd h (hx c' e)⟩, fun _ _ => rfl,
      freeEnvs_envInit fun _ => rfl, rfl⟩
  have ht : Triple (fun k => k = afterMemInit s) (startFirst c programs) (fun _ _ => False)
      (Leaves (envInit (afterMemInit s)) c) := by
    refine .bind (.modify (Q := fun _ k => k = envInit (afterMemInit s)) fun k hk => by rw [hk])
      fun _ => ?_
    refine .bind (.modify (Q := fun _ k => k = (envInit (afterMemInit s)).setCpu c fun cpu =>
      { cpu with cpuStatus := .started }) fun k hk => by rw [hk]) fun _ => ?_
    refine .bind (triple_lockKernel.post (Q := fun _ => InKernel (envInit (afterMemInit s)) c)
      fun _ k hk => ?_) fun _ => .bind (triple_createEnvs programs) fun _ => triple_schedYield
    obtain ⟨_, rfl, -, rfl⟩ := hk
    exact hk.enter (g := fun cpu => { cpu with cpuStatus := .started }) (fun _ => rfl) rfl
  exact (ht.left rfl h).1

theorem atRest_of_reachable (h : Reachable Booted QuietStep k) : AtRest k :=
  h.invariant (fun _ => Booted.atRest) fun _ _ hk ⟨_, hs, hm⟩ => (hs.leaves hk hm).1

end Entry
end Sisop
