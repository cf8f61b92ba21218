import Sisop.PageSlots

/-! Environments and CPUs, and the functions of `kern/env.c`. The kernel code
runs on a CPU `c` under the big kernel lock; `curenv` is that CPU's `cpu_env`. -/
namespace Sisop

inductive EnvStatus where
  | free | dying | runnable | running | notRunnable
  deriving DecidableEq, Repr

inductive EnvType where
  | user | fs
  deriving DecidableEq, Repr

structure PushRegs where
  regEdi : Word
  regEsi : Word
  regEbp : Word
  regOesp : Word
  regEbx : Word
  regEdx : Word
  regEcx : Word
  regEax : Word

structure Trapframe where
  tfRegs : PushRegs
  tfEs : BitVec 16
  tfDs : BitVec 16
  tfTrapno : Word
  tfErr : Word
  tfEip : Word
  tfCs : BitVec 16
  tfEflags : Word
  tfEsp : Word
  tfSs : BitVec 16

/-- `struct Env`. The page directory is a page number, or null. -/
structure Env where
  envTf : Trapframe
  envLink : Option EnvIdx
  envId : Word
  envParentId : Word
  envType : EnvType
  envStatus : EnvStatus
  envRuns : Word
  envCpunum : ℕ
  envPgdir : Option ℕ
  envPgfaultUpcall : Word
  envIpcRecving : Bool
  envIpcDstva : Word
  envIpcValue : Word
  envIpcFrom : Word
  envIpcPerm : Word

inductive CpuStatus where
  | unused | started | halted
  deriving DecidableEq, Repr

/-- `struct CpuInfo`; `user` says that the CPU is executing user code. -/
structure CpuInfo where
  cpuStatus : CpuStatus
  cpuEnv : Option EnvIdx
  user : Bool

/-- The state of the kernel. The holder of the big kernel lock is a CPU. -/
structure Kern where
  mem : Pm
  envs : EnvIdx → Env
  envFreeList : Option EnvIdx
  cpus : ℕ → CpuInfo
  kernelLock : Option ℕ

namespace Kern

def setEnv (k : Kern) (e : EnvIdx) (f : Env → Env) : Kern :=
  { k with envs := Function.update k.envs e (f (k.envs e)) }

def setCpu (k : Kern) (c : ℕ) (f : CpuInfo → CpuInfo) : Kern :=
  { k with cpus := Function.update k.cpus c (f (k.cpus c)) }

def setStatus (k : Kern) (e : EnvIdx) (st : EnvStatus) : Kern :=
  k.setEnv e fun env => { env with envStatus := st }

def setCurenv (k : Kern) (c : ℕ) (e : Option EnvIdx) : Kern :=
  k.setCpu c fun cpu => { cpu with cpuEnv := e }

/-- The page directories of all environments. -/
def dirs (k : Kern) (e : EnvIdx) : Option ℕ := (k.envs e).envPgdir

def status (k : Kern) (e : EnvIdx) : EnvStatus := (k.envs e).envStatus

end Kern

/-- Run a routine of `kern/pmap.c`. -/
def mem {α : Type} (m : Routine Pm α) : Routine Kern α :=
  Routine.zoom Kern.mem (fun t k => { k with mem := t }) m

/-- `curenv`, where the code dereferences it. A null pointer faults in the
kernel, which panics. -/
def curenv (c : ℕ) : Routine Kern EnvIdx := fun k =>
  match (k.cpus c).cpuEnv with
  | some e => .ret e k
  | none => .halt

/-- `e->env_pgdir`, where the code dereferences it. -/
def envPgdir (e : EnvIdx) : Routine Kern ℕ := fun k =>
  match (k.envs e).envPgdir with
  | some g => .ret g k
  | none => .halt

/-- `ENVX(envid)`. -/
def envx (envid : Word) : EnvIdx := ⟨(envid &&& 0x3FF#32).toNat, by
  have hm : (0x3FF#32).toNat = 2^10 - 1 := rfl
  rw [BitVec.toNat_and, hm, Nat.and_two_pow_sub_one_eq_mod]
  exact Nat.mod_lt _ (by decide)⟩

/-- `lock_kernel()`: with `DEBUG_SPINLOCK` a second acquisition panics, and a CPU
that finds the lock taken does not get any further. -/
def lockKernel (c : ℕ) : Routine Kern Unit := fun k =>
  if k.kernelLock = none then .ret () { k with kernelLock := some c } else .halt

/-- `envid2env(envid, &e, checkperm)`. -/
def envid2env (c : ℕ) (envid : Word) (checkperm : Bool) : Routine Kern (Except Err EnvIdx) := do
  if envid = 0#32 then
    pure (.ok (← curenv c))
  else
    let e := envx envid
    let env ← Routine.gets fun k => k.envs e
    if env.envStatus = .free ∨ env.envId ≠ envid then
      pure (.error .badEnv)
    else if checkperm then
      let cur ← curenv c
      let curId ← Routine.gets fun k => (k.envs cur).envId
      if e ≠ cur ∧ env.envParentId ≠ curId then pure (.error .badEnv) else pure (.ok e)
    else pure (.ok e)

/-- `env_init()`, on a zeroed `envs` array. -/
def envInit (k : Kern) : Kern :=
  { k with
    envFreeList := some 0
    envs := fun i => { k.envs i with
      envId := 0#32
      envLink := if h : i.val + 1 < nenv then some ⟨i.val + 1, h⟩ else none } }

/-- The part of `env_setup_vm` that builds the page directory: a copy of
`kern_pgdir` that maps itself at `UVPT`. -/
def setupDir : Routine Pm (Option ℕ) := do
  match (← pageAlloc) with
  | none => pure none
  | some p =>
    Routine.modify fun s => s.incRef p
    let g ← page2kva p
    Routine.modify fun s => { s with word := Function.update s.word g (s.word s.kernPgdir) }
    Routine.modify fun s => s.setWord g uvptPde (page2pa g ||| pteP ||| pteU)
    pure (some g)

/-- `env_setup_vm(e)`. -/
def envSetupVm (e : EnvIdx) : Routine Kern (Except Err Unit) := do
  match (← mem setupDir) with
  | none => pure (.error .noMem)
  | some g =>
    Routine.modify fun k => k.setEnv e fun env => { env with envPgdir := some g }
    pure (.ok ())

def zeroRegs : PushRegs := ⟨0, 0, 0, 0, 0, 0, 0, 0⟩

/-- `FL_IF`, interrupts enabled. -/
abbrev flIf : Word := 0x200#32

/-- `FL_IOPL_3`. -/
abbrev flIopl3 : Word := 0x3000#32

/-- The registers a new environment starts with. -/
def initialTf : Trapframe where
  tfRegs := zeroRegs
  tfEs := 0x23#16
  tfDs := 0x23#16
  tfTrapno := 0
  tfErr := 0
  tfEip := 0
  tfCs := 0x1B#16
  tfEflags := flIf
  tfEsp := ustacktop
  tfSs := 0x23#16

/-- The identifier of the next environment in slot `e`; identifiers are positive. -/
def nextEnvId (e : EnvIdx) (envId : Word) : Word :=
  let generation := (envId + 0x1000#32) &&& ~~~(0x3FF#32)
  let generation := if generation.sle 0#32 then 0x1000#32 else generation
  generation ||| BitVec.ofNat 32 e

/-- `env_alloc(&e, parent_id)`. -/
def envAlloc (parentId : Word) : Routine Kern (Except Err EnvIdx) := do
  match (← Routine.gets Kern.envFreeList) with
  | none => pure (.error .noFreeEnv)
  | some e =>
    match (← envSetupVm e) with
    | .error err => pure (.error err)
    | .ok () =>
      Routine.modify fun k => k.setEnv e fun env => { env with
        envId := nextEnvId e env.envId
        envParentId := parentId
        envType := .user
        envStatus := .runnable
        envRuns := 0#32
        envTf := initialTf
        envPgfaultUpcall := 0#32
        envIpcRecving := false }
      Routine.modify fun k => { k with envFreeList := (k.envs e).envLink }
      pure (.ok e)

/-- One round of `region_alloc`. The result of `page_insert` is not looked at. -/
def allocPage (g : ℕ) (address : Word) : Routine Pm Unit := do
  match (← pageAlloc) with
  | none => Routine.halt
  | some pp =>
    let _ ← pageInsert g pp address (pteP ||| pteU ||| pteW)
    pure ()

/-- The pages a loop `for (a = start; a < end; a += PGSIZE)` goes over. -/
def pageRounds (start fin : Word) : ℕ := (fin.toNat - start.toNat) / pgsize

/-- `region_alloc(e, va, len)`. -/
def regionAlloc (g : ℕ) (va len : Word) : Routine Pm Unit :=
  let start := rounddown va
  Routine.loop (pageRounds start (roundup (va + len))) fun i =>
    allocPage g (start + BitVec.ofNat 32 (pgsize * i))

/-- What `load_icode` reads of a program: its loadable segments and its entry. -/
structure Elf where
  segments : List (Word × Word)
  entry : Word

/-- The mappings that `load_icode(e, binary)` makes, segments first and then the stack. -/
def loadSegments (g : ℕ) : List (Word × Word) → Routine Pm Unit
  | [] => regionAlloc g (ustacktop - 4096#32) 4096#32
  | (va, memsz) :: segments => do
    regionAlloc g va memsz
    loadSegments g segments

/-- `env_create(binary, type)`. -/
def envCreate (elf : Elf) (type : EnvType) : Routine Kern Unit := do
  match (← envAlloc 0#32) with
  | .error _ => Routine.halt
  | .ok e =>
    let g ← envPgdir e
    mem (loadSegments g elf.segments)
    Routine.modify fun k => k.setEnv e fun env => { env with
      envType := type
      envTf := { env.envTf with
        tfEip := elf.entry
        tfEflags := if type = .fs then env.envTf.tfEflags ||| flIopl3 else env.envTf.tfEflags } }

/-- The body of the outer loop of `env_free`: unmap what a page table maps, and
give the table back. -/
def freeTable (g pdeno : ℕ) : Routine Pm Unit := do
  let pde ← Routine.gets fun s => s.word g pdeno
  if has pde pteP then
    let pt ← kaddr (pteAddr pde)
    Routine.loop nptentries fun pteno => do
      let pte ← Routine.gets fun s => s.word pt pteno
      if has pte pteP then pageRemove g (pgaddr pdeno pteno 0) else pure ()
    Routine.modify fun s => s.setWord g pdeno 0#32
    let pp ← pa2page (pteAddr pde)
    pageDecref pp
  else pure ()

/-- `env_free(e)`. -/
def envFree (e : EnvIdx) : Routine Kern Unit := do
  let g ← envPgdir e
  mem (Routine.loop userPdes fun pdeno => freeTable g pdeno)
  Routine.modify fun k => k.setEnv e fun env => { env with envPgdir := none }
  mem (pageDecref g)
  Routine.modify fun k => k.setStatus e .free
  Routine.modify fun k => k.setEnv e fun env => { env with envLink := k.envFreeList }
  Routine.modify fun k => { k with envFreeList := some e }

/-- `env_run(e)`, which does not return. A null page directory makes `PADDR`
panic, and so does releasing a lock one does not hold. -/
def envRun (c : ℕ) (e : EnvIdx) : Routine Kern Unit := do
  match (← Routine.gets fun k => (k.cpus c).cpuEnv) with
  | some cur =>
    Routine.modify fun k => if k.status cur = .running then k.setStatus cur .runnable else k
  | none => pure ()
  Routine.modify fun k => k.setCurenv c (some e)
  Routine.modify fun k => k.setEnv e fun env =>
    { env with envStatus := .running, envRuns := env.envRuns + 1#32 }
  let _ ← envPgdir e
  unlockKernel
  Routine.leave fun k => (k.setEnv e fun env => { env with envCpunum := c }).setCpu c fun cpu =>
    { cpu with user := true }
where
  /-- `unlock_kernel()`. -/
  unlockKernel : Routine Kern Unit := fun k =>
    if k.kernelLock = some c then .ret () { k with kernelLock := none } else .halt

section Runs

variable {c : ℕ} {k k' : Kern} {e : EnvIdx} {α : Type}

theorem mem_ret {m : Routine Pm α} {a : α} {t : Pm} (h : m k.mem = .ret a t) :
    mem m k = .ret a { k with mem := t } := by
  simp only [mem, Routine.zoom, h]

theorem mem_eq_ret {m : Routine Pm α} {a : α} :
    mem m k = .ret a k' ↔ ∃ t, m k.mem = .ret a t ∧ k' = { k with mem := t } := by
  simp only [mem, Routine.zoom]
  cases m k.mem with
  | ret b t =>
    simp only [Outcome.ret.injEq]
    constructor
    · rintro ⟨rfl, rfl⟩
      exact ⟨t, ⟨rfl, rfl⟩, rfl⟩
    · rintro ⟨t', ⟨rfl, rfl⟩, rfl⟩
      exact ⟨rfl, rfl⟩
  | left t => simp
  | halt => simp

theorem curenv_eq_ret : curenv c k = .ret e k' ↔ (k.cpus c).cpuEnv = some e ∧ k' = k := by
  unfold curenv
  cases (k.cpus c).cpuEnv with
  | none => simp
  | some cur => simp [eq_comm]

theorem envPgdir_eq_ret {g : ℕ} : envPgdir e k = .ret g k' ↔ k.dirs e = some g ∧ k' = k := by
  unfold envPgdir Kern.dirs
  cases (k.envs e).envPgdir with
  | none => simp
  | some g' => simp [eq_comm]

theorem curenv_run (h : (k.cpus c).cpuEnv = some e) : curenv c k = .ret e k :=
  curenv_eq_ret.mpr ⟨h, rfl⟩

theorem envPgdir_run {g : ℕ} (h : k.dirs e = some g) : envPgdir e k = .ret g k :=
  envPgdir_eq_ret.mpr ⟨h, rfl⟩

/-- What `envid2env` answers: the current environment for 0, and else a live
environment with that identifier. It changes nothing. -/
theorem envid2env_ret {envid : Word} {checkperm : Bool} {r : Except Err EnvIdx}
    (h : envid2env c envid checkperm k = .ret r k') : k' = k ∧ ((∃ e, r = .ok e ∧
      (envid = 0#32 ∧ (k.cpus c).cpuEnv = some e ∨
        envid ≠ 0#32 ∧ e = envx envid ∧ k.status e ≠ .free ∧ (k.envs e).envId = envid)) ∨
      r = .error .badEnv) := by
  unfold envid2env at h
  by_cases h0 : envid = 0#32
  · rw [if_pos h0] at h
    obtain ⟨e, t, hc, hp⟩ := Routine.bind_eq_ret.mp h
    obtain ⟨he, rfl⟩ := curenv_eq_ret.mp hc
    obtain ⟨rfl, rfl⟩ := Outcome.ret.inj hp
    exact ⟨rfl, Or.inl ⟨e, rfl, Or.inl ⟨h0, he⟩⟩⟩
  · simp only [if_neg h0, Routine.gets_bind_run] at h
    by_cases hb : (k.envs (envx envid)).envStatus = .free ∨ (k.envs (envx envid)).envId ≠ envid
    · rw [if_pos hb] at h
      obtain ⟨rfl, rfl⟩ := Outcome.ret.inj h
      exact ⟨rfl, Or.inr rfl⟩
    · have hlive := not_or.mp hb
      have hok : ∃ e, (Except.ok (envx envid) : Except Err EnvIdx) = .ok e ∧
          (envid = 0#32 ∧ (k.cpus c).cpuEnv = some e ∨
            envid ≠ 0#32 ∧ e = envx envid ∧ k.status e ≠ .free ∧ (k.envs e).envId = envid) :=
        ⟨_, rfl, Or.inr ⟨h0, rfl, hlive.1, not_not.mp hlive.2⟩⟩
      rw [if_neg hb] at h
      cases checkperm with
      | false =>
        rw [if_neg (by decide)] at h
        obtain ⟨rfl, rfl⟩ := Outcome.ret.inj h
        exact ⟨rfl, Or.inl hok⟩
      | true =>
        rw [if_pos rfl] at h
        obtain ⟨cur, t, hc, hp⟩ := Routine.bind_eq_ret.mp h
        obtain ⟨-, rfl⟩ := curenv_eq_ret.mp hc
        simp only [Routine.gets_bind_run, Routine.ite_run, Routine.pure_run] at hp
        split_ifs at hp
        · obtain ⟨rfl, rfl⟩ := Outcome.ret.inj hp
          exact ⟨rfl, Or.inr rfl⟩
        · obtain ⟨rfl, rfl⟩ := Outcome.ret.inj hp
          exact ⟨rfl, Or.inl hok⟩

/-- The state after `env_free(e)`, with the memory `t`. -/
def Kern.freed (k : Kern) (e : EnvIdx) (t : Pm) : Kern :=
  { k.setEnv e fun env => { env with
      envPgdir := none
      envStatus := .free
      envLink := k.envFreeList } with
    mem := t
    envFreeList := some e }

/-- What `env_free` has done when it returns. -/
theorem envFree_ret (h : envFree e k = .ret () k') : ∃ g s t, k.dirs e = some g ∧
    Routine.loop userPdes (fun pdeno => freeTable g pdeno) k.mem = .ret () s ∧
    pageDecref g s = .ret () t ∧ k' = k.freed e t := by
  obtain ⟨g, t₁, hd, h₁⟩ := Routine.bind_eq_ret.mp h
  obtain ⟨hg, rfl⟩ := envPgdir_eq_ret.mp hd
  obtain ⟨_, t₂, hl, h₂⟩ := Routine.bind_eq_ret.mp h₁
  obtain ⟨s, hloop, rfl⟩ := mem_eq_ret.mp hl
  simp only [Routine.modify_bind_run] at h₂
  obtain ⟨_, t₃, hp, h₃⟩ := Routine.bind_eq_ret.mp h₂
  obtain ⟨t, hdec, rfl⟩ := mem_eq_ret.mp hp
  simp only [Routine.modify_bind_run, Routine.modify_run] at h₃
  obtain ⟨-, rfl⟩ := Outcome.ret.inj h₃
  refine ⟨g, s, t, hg, hloop, hdec, ?_⟩
  simp only [Kern.freed, Kern.setStatus, Kern.setEnv, Function.update_idem, Function.update_self]

/-- The state after `env_alloc` has turned the free slot `e` into a new environment. -/
def Kern.alloced (k : Kern) (e : EnvIdx) (parentId : Word) (g : ℕ) (t : Pm) : Kern :=
  { k.setEnv e fun env => { env with
      envPgdir := some g
      envId := nextEnvId e env.envId
      envParentId := parentId
      envType := .user
      envStatus := .runnable
      envRuns := 0#32
      envTf := initialTf
      envPgfaultUpcall := 0#32
      envIpcRecving := false } with
    mem := t
    envFreeList := (k.envs e).envLink }

/-- What `env_alloc` has done when it returns: nothing, or it has set up the head
of the free list. -/
theorem envAlloc_ret {parentId : Word} {r : Except Err EnvIdx} (h : envAlloc parentId k = .ret r k') :
    (∃ err, r = .error err ∧ (k' = k ∨ ∃ t, setupDir k.mem = .ret none t ∧
      k' = { k with mem := t })) ∨
    ∃ e g t, r = .ok e ∧ k.envFreeList = some e ∧ setupDir k.mem = .ret (some g) t ∧
      k' = k.alloced e parentId g t := by
  simp only [envAlloc, Routine.gets_bind_run] at h
  rcases Option.eq_none_or_eq_some k.envFreeList with hf | ⟨e, hf⟩
  · rw [hf] at h
    obtain ⟨rfl, rfl⟩ := Outcome.ret.inj h
    exact Or.inl ⟨_, rfl, Or.inl rfl⟩
  · rw [hf] at h
    obtain ⟨o, t₁, hs, h₁⟩ := Routine.bind_eq_ret.mp h
    obtain ⟨d, t₂, hd, h₂⟩ := Routine.bind_eq_ret.mp hs
    obtain ⟨t, hdir, rfl⟩ := mem_eq_ret.mp hd
    cases d with
    | none =>
      obtain ⟨rfl, rfl⟩ := Outcome.ret.inj h₂
      obtain ⟨rfl, rfl⟩ := Outcome.ret.inj h₁
      exact Or.inl ⟨_, rfl, Or.inr ⟨t, hdir, rfl⟩⟩
    | some g =>
      obtain ⟨rfl, rfl⟩ := Outcome.ret.inj h₂
      simp only [Routine.modify_bind_run, Routine.pure_run] at h₁
      obtain ⟨rfl, rfl⟩ := Outcome.ret.inj h₁
      refine Or.inr ⟨e, g, t, rfl, hf, hdir, ?_⟩
      simp only [Kern.alloced, Kern.setEnv, Function.update_idem, Function.update_self]

end Runs

end Sisop
