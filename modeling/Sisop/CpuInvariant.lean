import Sisop.Chain
import Sisop.Trap

/-! Which CPU executes which environment. Between kernel entries every executing
CPU has an environment of its own that is neither free nor runnable, and whose
page directory exists; inside the kernel the CPU that holds the lock is exempt. -/
namespace Sisop

/-- The CPU is executing user code, in this environment. -/
def Executing (k : Kern) (c : ℕ) (e : EnvIdx) : Prop :=
  (k.cpus c).user = true ∧ (k.cpus c).cpuEnv = some e

/-- The free environments are chained through `env_link`. -/
def FreeEnvs (k : Kern) (l : List EnvIdx) : Prop :=
  Chain (fun e => (k.envs e).envLink) k.envFreeList l ∧ l.Nodup ∧ ∀ e ∈ l, k.status e = .free

/-- What the executing CPUs can rely on. -/
structure ExecInv (k : Kern) : Prop where
  exclusive : ∀ c c' e, Executing k c e → Executing k c' e → c = c'
  notRunnable : ∀ c e, Executing k c e → k.status e ≠ .runnable
  notFree : ∀ c e, Executing k c e → k.status e ≠ .free
  dir : ∀ c e, Executing k c e → k.dirs e ≠ none

/-- What the CPU `c` has spared since the state `k₀`: the other CPUs, and the
identifiers and page directories of the environments they execute. -/
structure Spares (k₀ : Kern) (c : ℕ) (k : Kern) : Prop where
  cpus : ∀ c', c' ≠ c → k.cpus c' = k₀.cpus c'
  kept : ∀ c' e, c' ≠ c → Executing k₀ c' e →
    (k.envs e).envId = (k₀.envs e).envId ∧ k.dirs e = k₀.dirs e

/-- The invariant while the CPU `c`, which entered the kernel in the state `k₀`,
is there. Its current environment, if any, is alive and executes nowhere. -/
structure InKernel (k₀ : Kern) (c : ℕ) (k : Kern) : Prop where
  exec : ExecInv k
  idle : ∀ c', c' ≠ c → (k.cpus c').user = false → (k.cpus c').cpuEnv = none
  self : (k.cpus c).user = false
  cur : ∀ e, (k.cpus c).cpuEnv = some e → k.status e ≠ .free ∧ ∀ c', ¬ Executing k c' e
  free : ∃ l, FreeEnvs k l
  lock : k.kernelLock = some c
  spares : Spares k₀ c k

/-- The invariant between kernel entries. -/
structure AtRest (k : Kern) : Prop where
  exec : ExecInv k
  idle : ∀ c, (k.cpus c).user = false → (k.cpus c).cpuEnv = none
  free : ∃ l, FreeEnvs k l
  lock : k.kernelLock = none

/-- The end of the time in the kernel that began in `k₀`. -/
def Leaves (k₀ : Kern) (c : ℕ) (k : Kern) : Prop := AtRest k ∧ Spares k₀ c k

section Frame

variable {k₀ k k' : Kern} {c : ℕ} {e : EnvIdx} {f : Env → Env}

@[simp] theorem setEnv_cpus : (k.setEnv e f).cpus = k.cpus := rfl
@[simp] theorem setCpu_envs (g : CpuInfo → CpuInfo) : (k.setCpu c g).envs = k.envs := rfl

theorem setEnv_envs (i : EnvIdx) :
    (k.setEnv e f).envs i = if i = e then f (k.envs e) else k.envs i := by
  simp only [Kern.setEnv, Function.update_apply]

theorem setCpu_cpus (g : CpuInfo → CpuInfo) (i : ℕ) :
    (k.setCpu c g).cpus i = if i = c then g (k.cpus c) else k.cpus i := by
  simp only [Kern.setCpu, Function.update_apply]

theorem setEnv_status (i : EnvIdx) :
    (k.setEnv e f).status i = if i = e then (f (k.envs e)).envStatus else k.status i := by
  simp only [Kern.status, setEnv_envs]
  split_ifs <;> rfl

theorem setEnv_dirs (i : EnvIdx) :
    (k.setEnv e f).dirs i = if i = e then (f (k.envs e)).envPgdir else k.dirs i := by
  simp only [Kern.dirs, setEnv_envs]
  split_ifs <;> rfl

theorem setEnv_envId (i : EnvIdx) : ((k.setEnv e f).envs i).envId =
    if i = e then (f (k.envs e)).envId else (k.envs i).envId := by
  rw [setEnv_envs]
  split_ifs <;> rfl

theorem setEnv_link (i : EnvIdx) : ((k.setEnv e f).envs i).envLink =
    if i = e then (f (k.envs e)).envLink else (k.envs i).envLink := by
  rw [setEnv_envs]
  split_ifs <;> rfl

/-- Two states that differ in nothing the life of environments depends on. -/
structure SameLife (k k' : Kern) : Prop where
  status : k'.status = k.status
  dirs : k'.dirs = k.dirs
  link : ∀ e, (k'.envs e).envLink = (k.envs e).envLink
  envId : ∀ e, (k'.envs e).envId = (k.envs e).envId
  freeList : k'.envFreeList = k.envFreeList
  cpus : k'.cpus = k.cpus
  lock : k'.kernelLock = k.kernelLock

/-- Changing registers, handlers or message fields of an environment. -/
theorem SameLife.setEnv (k : Kern) (e : EnvIdx) {f : Env → Env}
    (hs : (f (k.envs e)).envStatus = (k.envs e).envStatus)
    (hd : (f (k.envs e)).envPgdir = (k.envs e).envPgdir)
    (hl : (f (k.envs e)).envLink = (k.envs e).envLink)
    (hid : (f (k.envs e)).envId = (k.envs e).envId) : SameLife k (k.setEnv e f) := by
  refine ⟨funext fun i => ?_, funext fun i => ?_, fun i => ?_, fun i => ?_, rfl, rfl, rfl⟩
  · rw [setEnv_status, hs]
    split_ifs with h
    · rw [h, Kern.status]
    · rfl
  · rw [setEnv_dirs, hd]
    split_ifs with h
    · rw [h, Kern.dirs]
    · rfl
  · rw [setEnv_link, hl]
    split_ifs with h
    · rw [h]
    · rfl
  · rw [setEnv_envId, hid]
    split_ifs with h
    · rw [h]
    · rfl

theorem SameLife.setMem (k : Kern) (t : Pm) : SameLife k { k with mem := t } :=
  ⟨rfl, rfl, fun _ => rfl, fun _ => rfl, rfl, rfl, rfl⟩

theorem FreeEnvs.congr {l : List EnvIdx} (h : FreeEnvs k l)
    (hl : ∀ e ∈ l, (k'.envs e).envLink = (k.envs e).envLink) (hf : k'.envFreeList = k.envFreeList)
    (hs : ∀ e ∈ l, k'.status e = k.status e) : FreeEnvs k' l := by
  refine ⟨?_, h.2.1, fun e he => (hs e he).trans (h.2.2 e he)⟩
  rw [hf]
  exact h.1.congr hl

theorem SameLife.executing (h : SameLife k k') (c : ℕ) (e : EnvIdx) :
    Executing k' c e ↔ Executing k c e := by
  simp only [Executing, h.cpus]

theorem Spares.executing (h : Spares k₀ c k) {c' : ℕ} (hc : c' ≠ c) :
    Executing k c' e ↔ Executing k₀ c' e := by
  simp only [Executing, h.cpus c' hc]

theorem Spares.congr (h : Spares k₀ c k) (hc : ∀ c', c' ≠ c → k'.cpus c' = k.cpus c')
    (hk : ∀ c' e, c' ≠ c → Executing k c' e →
      (k'.envs e).envId = (k.envs e).envId ∧ k'.dirs e = k.dirs e) : Spares k₀ c k' := by
  refine ⟨fun c' hcc => (hc c' hcc).trans (h.cpus c' hcc), fun c' e hcc hx => ?_⟩
  obtain ⟨h1, h2⟩ := h.kept c' e hcc hx
  obtain ⟨h3, h4⟩ := hk c' e hcc ((h.executing hcc).mpr hx)
  exact ⟨h3.trans h1, h4.trans h2⟩

theorem InKernel.congr (hk : InKernel k₀ c k) (h : SameLife k k') : InKernel k₀ c k' := by
  have hx := h.executing
  refine ⟨⟨fun c₁ c₂ e h₁ h₂ => hk.exec.exclusive c₁ c₂ e ((hx _ _).mp h₁) ((hx _ _).mp h₂),
    fun c₁ e h₁ => ?_, fun c₁ e h₁ => ?_, fun c₁ e h₁ => ?_⟩, ?_, ?_, fun e he => ?_, ?_, ?_, ?_⟩
  · rw [h.status]
    exact hk.exec.notRunnable c₁ e ((hx _ _).mp h₁)
  · rw [h.status]
    exact hk.exec.notFree c₁ e ((hx _ _).mp h₁)
  · rw [h.dirs]
    exact hk.exec.dir c₁ e ((hx _ _).mp h₁)
  · rw [h.cpus]
    exact hk.idle
  · rw [h.cpus]
    exact hk.self
  · rw [h.cpus] at he
    obtain ⟨hs, hn⟩ := hk.cur e he
    refine ⟨?_, fun c' hc' => hn c' ((hx _ _).mp hc')⟩
    rw [h.status]
    exact hs
  · obtain ⟨l, hl⟩ := hk.free
    exact ⟨l, hl.congr (fun e _ => h.link e) h.freeList fun e _ => congrFun h.status e⟩
  · rw [h.lock]
    exact hk.lock
  · exact hk.spares.congr (fun c' _ => congrFun h.cpus c') fun _ i _ _ =>
      ⟨h.envId i, congrFun h.dirs i⟩

/-- A live environment gets another status. One that is executed elsewhere must
not become runnable. -/
theorem InKernel.setStatus (hk : InKernel k₀ c k) {st : EnvStatus} (he : k.status e ≠ .free)
    (hst : st ≠ .free) (hx : st = .runnable → ∀ c', ¬ Executing k c' e)
    {f : Env → Env} (hf : (f (k.envs e)).envStatus = st)
    (hd : (f (k.envs e)).envPgdir = (k.envs e).envPgdir)
    (hid : (f (k.envs e)).envId = (k.envs e).envId) : InKernel k₀ c (k.setEnv e f) := by
  have hstatus (i : EnvIdx) : (k.setEnv e f).status i = if i = e then st else k.status i := by
    rw [setEnv_status, hf]
  have hdirs (i : EnvIdx) : (k.setEnv e f).dirs i = k.dirs i := by
    rw [setEnv_dirs, hd]
    split_ifs with h
    · rw [h, Kern.dirs]
    · rfl
  have hsne (i : EnvIdx) (hi : k.status i ≠ .free) : (k.setEnv e f).status i ≠ .free := by
    rw [hstatus]
    split_ifs
    · exact hst
    · exact hi
  refine ⟨⟨hk.exec.exclusive, fun c₁ i h₁ => ?_, fun c₁ i h₁ => hsne i (hk.exec.notFree c₁ i h₁),
    fun c₁ i h₁ => ?_⟩, hk.idle, hk.self, fun i hi => ⟨hsne i (hk.cur i hi).1, (hk.cur i hi).2⟩, ?_,
    hk.lock, hk.spares.congr (fun _ _ => rfl) fun _ i _ _ => ⟨?_, hdirs i⟩⟩
  · rw [hstatus]
    split_ifs with h
    · exact fun hr => hx hr c₁ (h ▸ h₁)
    · exact hk.exec.notRunnable c₁ i h₁
  · rw [hdirs]
    exact hk.exec.dir c₁ i h₁
  · obtain ⟨l, hl'⟩ := hk.free
    have hel (i : EnvIdx) (hi : i ∈ l) : i ≠ e := fun h => he (h ▸ hl'.2.2 i hi)
    refine ⟨l, hl'.congr (fun i hi => ?_) rfl fun i hi => ?_⟩
    · rw [setEnv_link, if_neg (hel i hi)]
    · rw [hstatus, if_neg (hel i hi)]
  · rw [setEnv_envId, hid]
    split_ifs with h
    · rw [h]
    · rfl

theorem setStatus_status (st : EnvStatus) (i : EnvIdx) :
    (k.setStatus e st).status i = if i = e then st else k.status i := setEnv_status i

theorem InKernel.changeStatus (hk : InKernel k₀ c k) {st : EnvStatus} (he : k.status e ≠ .free)
    (hst : st ≠ .free) (hx : st = .runnable → ∀ c', ¬ Executing k c' e) :
    InKernel k₀ c (k.setStatus e st) := hk.setStatus he hst hx rfl rfl rfl

theorem freed_status (t : Pm) (i : EnvIdx) :
    (k.freed e t).status i = if i = e then .free else k.status i := by
  simp only [Kern.status, Kern.freed, Kern.setEnv, Function.update_apply]
  split_ifs <;> rfl

theorem freed_dirs (t : Pm) (i : EnvIdx) :
    (k.freed e t).dirs i = if i = e then none else k.dirs i := by
  simp only [Kern.dirs, Kern.freed, Kern.setEnv, Function.update_apply]
  split_ifs <;> rfl

theorem freed_link (t : Pm) (i : EnvIdx) : ((k.freed e t).envs i).envLink =
    if i = e then k.envFreeList else (k.envs i).envLink := by
  simp only [Kern.freed, Kern.setEnv, Function.update_apply]
  split_ifs <;> rfl

theorem alloced_status (parentId : Word) (g : ℕ) (t : Pm) (i : EnvIdx) :
    (k.alloced e parentId g t).status i = if i = e then .runnable else k.status i := by
  simp only [Kern.status, Kern.alloced, Kern.setEnv, Function.update_apply]
  split_ifs <;> rfl

theorem alloced_dirs (parentId : Word) (g : ℕ) (t : Pm) (i : EnvIdx) :
    (k.alloced e parentId g t).dirs i = if i = e then some g else k.dirs i := by
  simp only [Kern.dirs, Kern.alloced, Kern.setEnv, Function.update_apply]
  split_ifs <;> rfl

theorem alloced_link (parentId : Word) (g : ℕ) (t : Pm) (i : EnvIdx) :
    ((k.alloced e parentId g t).envs i).envLink = (k.envs i).envLink := by
  simp only [Kern.alloced, Kern.setEnv, Function.update_apply]
  split_ifs with h
  · rw [h]
  · rfl

theorem freed_envId (t : Pm) (i : EnvIdx) : ((k.freed e t).envs i).envId = (k.envs i).envId := by
  simp only [Kern.freed, Kern.setEnv, Function.update_apply]
  split_ifs with h
  · rw [h]
  · rfl

theorem alloced_envId (parentId : Word) (g : ℕ) (t : Pm) (i : EnvIdx) :
    ((k.alloced e parentId g t).envs i).envId =
      if i = e then nextEnvId e (k.envs e).envId else (k.envs i).envId := by
  simp only [Kern.alloced, Kern.setEnv, Function.update_apply]
  split_ifs <;> rfl

/-- Reclaiming an environment that executes nowhere and is not the current one. -/
theorem InKernel.freed (hk : InKernel k₀ c k) (he : k.status e ≠ .free)
    (hx : ∀ c', ¬ Executing k c' e) (hcur : (k.cpus c).cpuEnv ≠ some e) (t : Pm) :
    InKernel k₀ c (k.freed e t) := by
  have hstatus := @freed_status k e t
  have hdirs := @freed_dirs k e t
  have hlink := @freed_link k e t
  have hne (c₁ : ℕ) (i : EnvIdx) (hi : Executing k c₁ i) : i ≠ e := fun h => hx c₁ (h ▸ hi)
  refine ⟨⟨hk.exec.exclusive, fun c₁ i hi => ?_, fun c₁ i hi => ?_, fun c₁ i hi => ?_⟩, hk.idle,
    hk.self, fun i hi => ?_, ?_, hk.lock, hk.spares.congr (fun _ _ => rfl) fun c₁ i _ hi =>
      ⟨freed_envId t i, (hdirs i).trans (if_neg (hne c₁ i hi))⟩⟩
  · rw [hstatus, if_neg (hne c₁ i hi)]
    exact hk.exec.notRunnable c₁ i hi
  · rw [hstatus, if_neg (hne c₁ i hi)]
    exact hk.exec.notFree c₁ i hi
  · rw [hdirs, if_neg (hne c₁ i hi)]
    exact hk.exec.dir c₁ i hi
  · have hie : i ≠ e := fun h => hcur (h ▸ hi)
    rw [hstatus, if_neg hie]
    exact hk.cur i hi
  · obtain ⟨l, hl⟩ := hk.free
    have hel : e ∉ l := fun h => he (hl.2.2 e h)
    have hne' (i : EnvIdx) (hi : i ∈ l) : i ≠ e := fun h => hel (h ▸ hi)
    refine ⟨e :: l, ⟨rfl, ?_⟩, List.nodup_cons.mpr ⟨hel, hl.2.1⟩, fun i hi => ?_⟩
    · have he' := hlink e
      rw [if_pos rfl] at he'
      change Chain _ ((k.freed e t).envs e).envLink l
      rw [he']
      exact hl.1.congr fun i hi => by rw [hlink, if_neg (hne' i hi)]
    · rw [hstatus]
      split_ifs with h
      · rfl
      · exact hl.2.2 i ((List.mem_cons.mp hi).resolve_left h)

/-- The head of the free list becomes a new environment. -/
theorem InKernel.alloced (hk : InKernel k₀ c k) (hf : k.envFreeList = some e) (parentId : Word)
    (g : ℕ) (t : Pm) : InKernel k₀ c (k.alloced e parentId g t) ∧ k.status e = .free := by
  obtain ⟨l, hl⟩ := hk.free
  obtain ⟨l, rfl⟩ : ∃ l', l = e :: l' := by
    cases l with
    | nil => exact absurd (hl.1.symm.trans hf) (by simp)
    | cons i l => exact ⟨l, by rw [Option.some.inj (hl.1.1.symm.trans hf)]⟩
  have hfree := hl.2.2 e List.mem_cons_self
  obtain ⟨hel, hnd⟩ := List.nodup_cons.mp hl.2.1
  have hstatus := @alloced_status k e parentId g t
  have hdirs := @alloced_dirs k e parentId g t
  have hne (c₁ : ℕ) (i : EnvIdx) (hi : Executing k c₁ i) : i ≠ e := fun h =>
    hk.exec.notFree c₁ i hi (h ▸ hfree)
  refine ⟨⟨⟨hk.exec.exclusive, fun c₁ i hi => ?_, fun c₁ i hi => ?_, fun c₁ i hi => ?_⟩, hk.idle,
    hk.self, fun i hi => ?_, ⟨l, ?_, hnd, fun i hi => ?_⟩, hk.lock,
    hk.spares.congr (fun _ _ => rfl) fun c₁ i _ hi => ⟨(alloced_envId parentId g t i).trans
      (if_neg (hne c₁ i hi)), (hdirs i).trans (if_neg (hne c₁ i hi))⟩⟩, hfree⟩
  · rw [hstatus, if_neg (hne c₁ i hi)]
    exact hk.exec.notRunnable c₁ i hi
  · rw [hstatus, if_neg (hne c₁ i hi)]
    exact hk.exec.notFree c₁ i hi
  · rw [hdirs, if_neg (hne c₁ i hi)]
    exact hk.exec.dir c₁ i hi
  · have hie : i ≠ e := fun h => (hk.cur i hi).1 (h ▸ hfree)
    rw [hstatus, if_neg hie]
    exact hk.cur i hi
  · exact hl.1.2.congr fun i _ => alloced_link parentId g t i
  · have hie : i ≠ e := fun h => hel (h ▸ hi)
    rw [hstatus, if_neg hie]
    exact hl.2.2 i (List.mem_cons_of_mem e hi)

/-- The CPU in the kernel takes up another current environment, or none. -/
theorem InKernel.setCurenv (hk : InKernel k₀ c k) (x : Option EnvIdx)
    (hx : ∀ i, x = some i → k.status i ≠ .free ∧ ∀ c', ¬ Executing k c' i) :
    InKernel k₀ c (k.setCurenv c x) := by
  have hc (c₁ : ℕ) (h : c₁ ≠ c) : (k.setCurenv c x).cpus c₁ = k.cpus c₁ := by
    rw [Kern.setCurenv, setCpu_cpus, if_neg h]
  have hself : (k.setCurenv c x).cpus c = { k.cpus c with cpuEnv := x } := by
    rw [Kern.setCurenv, setCpu_cpus, if_pos rfl]
  have hx' (c₁ : ℕ) (i : EnvIdx) (h : Executing (k.setCurenv c x) c₁ i) : Executing k c₁ i := by
    by_cases hcc : c₁ = c
    · have h1 := h.1
      rw [hcc, hself] at h1
      exact absurd h1 (by simp [hk.self])
    · rwa [Executing, hc c₁ hcc] at h
  refine ⟨⟨fun c₁ c₂ i h₁ h₂ => hk.exec.exclusive c₁ c₂ i (hx' c₁ i h₁) (hx' c₂ i h₂),
    fun c₁ i h => hk.exec.notRunnable c₁ i (hx' c₁ i h),
    fun c₁ i h => hk.exec.notFree c₁ i (hx' c₁ i h), fun c₁ i h => hk.exec.dir c₁ i (hx' c₁ i h)⟩,
    fun c₁ hcc => ?_, ?_, fun i hi => ?_, hk.free, hk.lock,
    hk.spares.congr hc fun _ _ _ _ => ⟨rfl, rfl⟩⟩
  · rw [hc c₁ hcc]
    exact hk.idle c₁ hcc
  · rw [hself]
    exact hk.self
  · rw [hself] at hi
    exact ⟨(hx i hi).1, fun c' hc' => (hx i hi).2 c' (hx' c' i hc')⟩

/-- The CPU leaves the kernel with its current environment. -/
theorem InKernel.resume (hk : InKernel k₀ c k) (hcur : (k.cpus c).cpuEnv = some e)
    (hs : k.status e = .running) (hd : k.dirs e ≠ none) :
    Leaves k₀ c ((({ k with kernelLock := none } : Kern).setEnv e fun env =>
      { env with envCpunum := c }).setCpu c fun cpu => { cpu with user := true }) := by
  have hl : SameLife k (k.setEnv e fun env => { env with envCpunum := c }) :=
    SameLife.setEnv k e rfl rfl rfl rfl
  generalize hk' : ((({ k with kernelLock := none } : Kern).setEnv e fun env =>
    { env with envCpunum := c }).setCpu c fun cpu => { cpu with user := true }) = k'
  have hstatus : k'.status = k.status := hk' ▸ hl.status
  have hdirs : k'.dirs = k.dirs := hk' ▸ hl.dirs
  have hcpu (c₁ : ℕ) : k'.cpus c₁ = if c₁ = c then { k.cpus c with user := true } else k.cpus c₁ := by
    rw [← hk', setCpu_cpus]
    rfl
  -- an executing CPU was executing before, or it is the one that leaves
  have hx (c₁ : ℕ) (i : EnvIdx) (h : Executing k' c₁ i) :
      c₁ = c ∧ i = e ∨ c₁ ≠ c ∧ Executing k c₁ i := by
    by_cases hcc : c₁ = c
    · have h2 := h.2
      rw [hcpu, if_pos hcc] at h2
      exact Or.inl ⟨hcc, Option.some.inj (h2.symm.trans hcur)⟩
    · rw [Executing, hcpu, if_neg hcc] at h
      exact Or.inr ⟨hcc, h⟩
  have hnot := (hk.cur e hcur).2
  refine ⟨⟨⟨fun c₁ c₂ i h₁ h₂ => ?_, fun c₁ i h => ?_, fun c₁ i h => ?_, fun c₁ i h => ?_⟩,
    fun c₁ h => ?_, ?_, ?_⟩, hk.spares.congr (fun c₁ hcc => ?_) fun c₁ i _ _ => ⟨?_, ?_⟩⟩
  · rcases hx c₁ i h₁ with ⟨rfl, rfl⟩ | ⟨-, h₁'⟩
    · rcases hx c₂ i h₂ with ⟨rfl, -⟩ | ⟨-, h₂'⟩
      · rfl
      · exact absurd h₂' (hnot c₂)
    · rcases hx c₂ i h₂ with ⟨-, rfl⟩ | ⟨-, h₂'⟩
      · exact absurd h₁' (hnot c₁)
      · exact hk.exec.exclusive c₁ c₂ i h₁' h₂'
  · rw [hstatus]
    rcases hx c₁ i h with ⟨-, rfl⟩ | ⟨-, h'⟩
    · rw [hs]
      decide
    · exact hk.exec.notRunnable c₁ i h'
  · rw [hstatus]
    rcases hx c₁ i h with ⟨-, rfl⟩ | ⟨-, h'⟩
    · rw [hs]
      decide
    · exact hk.exec.notFree c₁ i h'
  · rw [hdirs]
    rcases hx c₁ i h with ⟨-, rfl⟩ | ⟨-, h'⟩
    · exact hd
    · exact hk.exec.dir c₁ i h'
  · rw [hcpu] at h ⊢
    by_cases hcc : c₁ = c
    · rw [if_pos hcc] at h
      cases h
    · rw [if_neg hcc] at h ⊢
      exact hk.idle c₁ hcc h
  · obtain ⟨l, hl'⟩ := hk.free
    exact ⟨l, hl'.congr (fun i _ => by rw [← hk']; exact hl.link i) (by rw [← hk']; rfl)
      fun i _ => congrFun hstatus i⟩
  · rw [← hk']
    rfl
  · rw [hcpu, if_neg hcc]
  · rw [← hk']
    exact hl.envId i
  · exact congrFun hdirs i

/-- The CPU halts, without an environment. -/
theorem InKernel.halted (hk : InKernel k₀ c k) {g : CpuInfo → CpuInfo}
    (hg : g (k.cpus c) = ⟨.halted, none, false⟩) :
    Leaves k₀ c (({ k with kernelLock := none } : Kern).setCpu c g) := by
  generalize hk' : ({ k with kernelLock := none } : Kern).setCpu c g = k'
  have hcpu (c₁ : ℕ) : k'.cpus c₁ = if c₁ = c then ⟨.halted, none, false⟩ else k.cpus c₁ := by
    rw [← hk', setCpu_cpus]
    change (if c₁ = c then g (k.cpus c) else _) = _
    rw [hg]
  have hx (c₁ : ℕ) (i : EnvIdx) (h : Executing k' c₁ i) : Executing k c₁ i := by
    by_cases hcc : c₁ = c
    · have h1 := h.1
      rw [hcpu, if_pos hcc] at h1
      cases h1
    · rwa [Executing, hcpu, if_neg hcc] at h
  have hstatus : k'.status = k.status := hk' ▸ rfl
  have hdirs : k'.dirs = k.dirs := hk' ▸ rfl
  refine ⟨⟨⟨fun c₁ c₂ i h₁ h₂ => hk.exec.exclusive c₁ c₂ i (hx c₁ i h₁) (hx c₂ i h₂),
    fun c₁ i h => hstatus ▸ hk.exec.notRunnable c₁ i (hx c₁ i h),
    fun c₁ i h => hstatus ▸ hk.exec.notFree c₁ i (hx c₁ i h),
    fun c₁ i h => hdirs ▸ hk.exec.dir c₁ i (hx c₁ i h)⟩, fun c₁ h => ?_, ?_, hk' ▸ rfl⟩,
    hk.spares.congr (fun c₁ hcc => by rw [hcpu, if_neg hcc]) fun _ i _ _ =>
      ⟨by rw [← hk']; rfl, congrFun hdirs i⟩⟩
  · rw [hcpu] at h ⊢
    split_ifs at h ⊢ with hcc
    · rfl
    · exact hk.idle c₁ hcc h
  · obtain ⟨l, hl⟩ := hk.free
    exact ⟨l, hl.congr (fun _ _ => hk' ▸ rfl) (hk' ▸ rfl) fun i _ => congrFun hstatus i⟩

end Frame
end Sisop
