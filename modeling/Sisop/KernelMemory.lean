import Sisop.KernelSpace
import Sisop.PageGrant

/-! The memory invariant across the whole kernel: whatever a routine does to the
environments, it keeps the tables and the counters of pages in order, unless
`page_lookup` takes an empty entry for a mapping or a counter wraps around. -/
namespace Sisop

open Routine (Triple Stays)

/-- The memory invariant, with the page directories of the environments. The
environments on the free list have none. -/
structure MemOk (k : Kern) : Prop where
  inv : MemInv k.mem k.dirs 0
  free : ∃ l, Chain (fun e => (k.envs e).envLink) k.envFreeList l ∧ l.Nodup ∧ ∀ e ∈ l, k.dirs e = none

section Invariant

variable {k k' : Kern} {c : ℕ} {e : EnvIdx} {g : ℕ} {α : Type}

theorem MemOk.congr (h : MemOk k) (hs : SameSpace k k') : MemOk k' := by
  refine ⟨?_, ?_⟩
  · rw [hs.mem, hs.dirs]
    exact h.inv
  · obtain ⟨l, hc, hnd, hd⟩ := h.free
    refine ⟨l, ?_, hnd, ?_⟩
    · rw [hs.freeList]
      exact hc.congr fun e _ => hs.link e
    · rw [hs.dirs]
      exact hd

/-- A routine on memory that keeps its invariant. -/
theorem MemOk.setMem (h : MemOk k) {t : Pm} (ht : MemInv t k.dirs 0) : MemOk { k with mem := t } :=
  ⟨ht, h.free⟩

theorem MemOk.freed {t : Pm} (h : MemOk k) (hg : k.dirs e = some g)
    (ht : MemInv t (Function.update k.dirs e none) 0) : MemOk (k.freed e t) := by
  obtain ⟨l, hc, hnd, hd⟩ := h.free
  have hel : e ∉ l := fun he => by
    rw [hd e he] at hg
    cases hg
  have hne (i : EnvIdx) (hi : i ∈ l) : i ≠ e := fun h => hel (h ▸ hi)
  have hdirs : (k.freed e t).dirs = Function.update k.dirs e none := by
    funext i
    rw [freed_dirs, Function.update_apply]
  refine ⟨?_, e :: l, ⟨rfl, ?_⟩, List.nodup_cons.mpr ⟨hel, hnd⟩, fun i hi => ?_⟩
  · rw [hdirs]
    exact ht
  · change Chain _ ((k.freed e t).envs e).envLink l
    rw [freed_link, if_pos rfl]
    exact hc.congr fun i hi => by rw [freed_link, if_neg (hne i hi)]
  · rw [freed_dirs]
    split_ifs with h
    · rfl
    · exact hd i ((List.mem_cons.mp hi).resolve_left h)

/-- `env_free` gives back everything an environment has. -/
theorem MemOk.envFree (h : MemOk k) (hr : envFree e k = .ret () k') : MemOk k' := by
  obtain ⟨g, s, t, hg, hloop, hdec, rfl⟩ := envFree_ret hr
  obtain ⟨hs, hempty⟩ := h.inv.freeTables_keep hg hloop
  rw [pageDecref_ret hdec]
  exact h.freed hg (hs.unlinkDir hg hempty).decRef

theorem MemOk.alloced {t : Pm} (h : MemOk k) (hf : k.envFreeList = some e) (parentId : Word)
    (ht : MemInv t (Function.update k.dirs e (some g)) 0) :
    MemOk (k.alloced e parentId g t) := by
  obtain ⟨l, hc, hnd, hd⟩ := h.free
  obtain ⟨l, rfl⟩ : ∃ l', l = e :: l' := by
    cases l with
    | nil => exact absurd (hc.symm.trans hf) (by simp)
    | cons i l => exact ⟨l, by rw [Option.some.inj (hc.1.symm.trans hf)]⟩
  obtain ⟨hel, hnd⟩ := List.nodup_cons.mp hnd
  have hdirs : (k.alloced e parentId g t).dirs = Function.update k.dirs e (some g) := by
    funext i
    rw [alloced_dirs, Function.update_apply]
  refine ⟨?_, l, ?_, hnd, fun i hi => ?_⟩
  · rw [hdirs]
    exact ht
  · exact hc.2.congr fun i _ => alloced_link parentId g t i
  · have hie : i ≠ e := fun h => hel (h ▸ hi)
    rw [alloced_dirs, if_neg hie]
    exact hd i (List.mem_cons_of_mem e hi)

/-- `env_alloc` sets up an address space of its own. -/
theorem MemOk.envAlloc {parentId : Word} {r : Except Err EnvIdx} (h : MemOk k)
    (hr : envAlloc parentId k = .ret r k') :
    MemOk k' ∧ ∀ e, r = .ok e → ∃ g, k'.dirs e = some g := by
  rcases envAlloc_ret hr with ⟨err, rfl, rfl | ⟨t, ht, rfl⟩⟩ | ⟨e, g, t, rfl, hf, ht, rfl⟩
  · exact ⟨h, fun _ he => by cases he⟩
  · refine ⟨h.setMem ?_, fun _ he => by cases he⟩
    rcases h.inv.pageAlloc_cases with ⟨hf, -⟩ | ⟨p, -, ha, -, hfr, -⟩
    · rw [setupDir_none hf] at ht
      rw [← (Outcome.ret.inj ht).2]
      exact h.inv
    · rw [setupDir_some ha hfr.bound h.inv.npages_le] at ht
      cases (Outcome.ret.inj ht).1
  · refine ⟨h.alloced hf parentId ?_, fun i hi => ⟨g, ?_⟩⟩
    · have he : k.dirs e = none := by
        obtain ⟨l, hc, -, hd⟩ := h.free
        cases l with
        | nil => exact absurd (hc.symm.trans hf) (by simp)
        | cons i l =>
          rw [← Option.some.inj (hc.1.symm.trans hf)]
          exact hd i List.mem_cons_self
      rcases h.inv.setupDir_cases he with ⟨-, hn⟩ | ⟨g', -, hs, hi, -⟩
      · rw [hn] at ht
        cases (Outcome.ret.inj ht).1
      · rw [hs] at ht
        obtain ⟨hgg, rfl⟩ := Outcome.ret.inj ht
        rw [← Option.some.inj hgg]
        exact hi
    · rw [← Except.ok.inj hi, alloced_dirs, if_pos rfl]

theorem spaceSteady_memOk : SpaceSteady MemOk := fun _ _ h hk => hk.congr h

variable {P : Kern → Prop} {E : Kern → Prop}

theorem memOk_envFree (e : EnvIdx) (E : Kern → Prop) : Triple MemOk (envFree e) (fun _ => MemOk) E :=
  .of_ret (stays_envFree e) fun _ _ _ hk h => hk.envFree h

/-- The page that a lookup hands out, when the entry is not empty, may be mapped. -/
theorem MemOk.userPage_lookup {va w : Word} (h : MemOk k) (hg : k.dirs e = some g)
    (hd : pdx va < userPdes) (hw : k.mem.pteAt g va = some w) (hz : w ≠ 0#32) :
    UserPage k.mem k.dirs (pgnum w) := by
  have hgz : k.mem.word g (pdx va) ≠ 0#32 := by
    intro hgz
    rw [Pm.pteAt, if_pos hgz] at hw
    cases hw
  rw [Pm.pteAt, if_neg hgz] at hw
  obtain rfl := Option.some.inj hw
  have hp := h.inv.dir_present hg (vaPde va hd) hgz
  exact h.inv.userPage_of_pte (h.inv.pte_present hp (vaPte va) hz)

/-- A `page_lookup` for a mapping with permissions `perm` takes an empty entry for
page 0, or finds a page whose counter is about to wrap around. -/
def SourceSlips (s : Pm) (g : ℕ) (va perm : Word) : Prop :=
  ∃ w, s.pteAt g va = some w ∧ (has perm pteW → has w pteW) ∧
    (w = 0#32 ∨ (s.pages (pgnum w)).ppRef = 65535#16)

theorem pdx_lt_of_utop {va : Word} (h : va < utop) : pdx va < userPdes := by
  have hu : utop.toNat = 955 * 4194304 := rfl
  have hlt : va.toNat < utop.toNat := h
  have hp : userPdes = 955 := rfl
  rw [pdx_eq, hp]
  omega

theorem triple_pageLookup (g : ℕ) (va : Word) : Triple P (mem (pageLookup g va))
    (fun r k => P k ∧ ∀ page pte, r = some (page, pte) →
      k.mem.pteAt g va = some (k.mem.load pte) ∧ page = pgnum (k.mem.load pte)) E := by
  refine .of_ret (Stays.zoom (stays_pageLookup g va)) fun k r k' hk h => ?_
  obtain ⟨t, ht, rfl⟩ := mem_eq_ret.mp h
  rcases r with _ | ⟨page, pte⟩
  · rw [(pageLookup_cases ht).1]
    exact ⟨hk, fun _ _ he => by cases he⟩
  · obtain ⟨hs, -, hp, hpage, -⟩ := pageLookup_some ht
    rw [hs]
    refine ⟨hk, fun page' pte' he => ?_⟩
    obtain ⟨rfl, rfl⟩ := Prod.mk.inj (Option.some.inj he)
    exact ⟨hp, hpage⟩

/-- A mapping made at a user address, of a page that may be mapped. -/
theorem memOk_pageInsert {va perm : Word} {pp : ℕ} (hd : pdx va < userPdes)
    (hperm : perm.toNat < 4096) :
    Triple (fun k => (MemOk k ∧ UserPage k.mem k.dirs pp ∧ (k.mem.pages pp).ppRef ≠ 65535#16) ∧
      k.dirs e = some g) (mem (pageInsert g pp va perm)) (fun _ => MemOk) E := by
  refine .of_ret (Stays.zoom (stays_pageInsert _ _ _ _)) fun k r k' hk h => ?_
  obtain ⟨t, ht, rfl⟩ := mem_eq_ret.mp h
  obtain ⟨⟨hm, hu, hr⟩, hg⟩ := hk
  exact hm.setMem (hm.inv.pageInsert_keep hg hd hu hr hperm ht).1

theorem memOk_sysPageAlloc (envid va perm : Word) :
    Triple MemOk (sysPageAlloc c envid va perm) (fun _ => MemOk) E := by
  refine .bind (keeps_envid2env envid true) fun r => ?_
  cases r with
  | error _ => exact .pure fun _ h => h
  | ok e =>
    refine .ite ?_ (.pure fun _ h => h.1)
    refine .bind (Q := fun r k => MemOk k ∧ (CheckPerm perm ∧ CheckMem va) ∧
      ∀ p, r = some p → Fresh k.mem p) ?_ fun r => ?_
    · refine .of_ret (Stays.zoom stays_pageAlloc) fun k r k' hk h => ?_
      obtain ⟨t, ht, rfl⟩ := mem_eq_ret.mp h
      rcases hk.1.inv.pageAlloc_cases with ⟨-, ha⟩ | ⟨p, -, ha, hi, hf, -⟩
      · rw [ha] at ht
        obtain ⟨rfl, rfl⟩ := Outcome.ret.inj ht
        exact ⟨hk.1, hk.2, fun _ he => by cases he⟩
      · rw [ha] at ht
        obtain ⟨rfl, rfl⟩ := Outcome.ret.inj ht
        exact ⟨hk.1.setMem hi, hk.2, fun p' he => Option.some.inj he ▸ hf⟩
    cases r with
    | none => exact .pure fun _ h => h.1
    | some page =>
      refine .bind (triple_envPgdir e) fun g => ?_
      refine .bind (Q := fun r k => MemOk k ∧ (r ≠ .ok () → Fresh k.mem page)) ?_ fun r => ?_
      · refine .of_ret (Stays.zoom (stays_pageInsert _ _ _ _)) fun k r k' hk h => ?_
        obtain ⟨t, ht, rfl⟩ := mem_eq_ret.mp h
        obtain ⟨⟨hm, hargs, hf⟩, hg⟩ := hk
        have hfr := hf page rfl
        obtain ⟨hi, h⟩ := hm.inv.pageInsert_keep hg (pdx_lt_of_utop hargs.2.1)
          (hm.inv.userPage_of_fresh hfr) (by rw [hfr.zero]; decide) hargs.1.lt ht
        refine ⟨hm.setMem hi, fun hne => ?_⟩
        rcases h with ⟨-, rfl⟩ | ⟨rfl, -⟩
        · exact hfr
        · exact absurd rfl hne
      · cases r with
        | error err =>
          refine .bind (Q := fun _ => MemOk) ?_ fun _ => .pure fun _ h => h
          refine .of_ret (Stays.zoom (stays_pageFree page)) fun k _ k' hk h => ?_
          obtain ⟨t, ht, rfl⟩ := mem_eq_ret.mp h
          exact hk.1.setMem (hk.1.inv.pageFree_keep (hk.2 (by simp)) ht)
        | ok _ => exact .pure fun _ h => h.1

theorem memOk_envAlloc (parentId : Word) :
    Triple MemOk (envAlloc parentId) (fun r k => MemOk k ∧ ∀ e, r = .ok e → ∃ g, k.dirs e = some g) E :=
  .of_ret (stays_envAlloc parentId) fun _ _ _ hk h => hk.envAlloc h

/-- A system call in which `page_lookup` takes an empty entry for a mapping of page
0, or a counter wraps around. -/
def Slips (k : Kern) (c : ℕ) (regs : PushRegs) : Prop :=
  (regs.regEax = 5#32 ∧ ∃ src dst g, Names k c regs.regEdx true src ∧
    Names k c regs.regEbx true dst ∧ CheckPerm regs.regEsi ∧ CheckMem regs.regEcx ∧
      CheckMem regs.regEdi ∧ k.dirs src = some g ∧ SourceSlips k.mem g regs.regEcx regs.regEsi) ∨
  (regs.regEax = 6#32 ∧ ∃ e g, Names k c regs.regEdx true e ∧ CheckMem regs.regEcx ∧
    k.dirs e = some g ∧ k.mem.entryEmpty g regs.regEcx) ∨
  regs.regEax = 12#32 ∧ ∃ e cur g, Names k c regs.regEdx false e ∧
    (k.envs e).envIpcRecving = true ∧ (k.cpus c).cpuEnv = some cur ∧ k.dirs cur = some g ∧
      regs.regEbx < utop ∧ pgoff regs.regEbx = 0 ∧ CheckPerm regs.regEdi ∧
        (k.envs e).envIpcDstva < utop ∧ SourceSlips k.mem g regs.regEbx regs.regEdi

/-- What lies behind a present user entry is no table, so it may be written. -/
theorem MemInv.setUserWord {s : Pm} {D : EnvIdx → Option ℕ} {held : Multiset ℕ} {va : Word} {i : ℕ}
    {w : Word} (h : MemInv s D held) (hg : D e = some g) (hd : pdx va < userPdes)
    (hpde : has (s.word g (pdx va)) pteP)
    (hpte : has (s.word (pgnum (s.word g (pdx va))) (ptx va)) pteP) :
    MemInv (s.setWord (pgnum (s.word (pgnum (s.word g (pdx va))) (ptx va))) i w) D held := by
  have hp : slotMap s D (.pde e (vaPde va hd)) = some (pgnum (s.word g (pdx va))) :=
    h.dir_present hg (vaPde va hd) (ne_zero_of_has_pteP hpde)
  have hu := h.userPage_of_pte (h.pte_present hp (vaPte va) (ne_zero_of_has_pteP hpte))
  refine h.congr_word _ fun p hp => Function.update_of_ne ?_ _ _
  rintro rfl
  rcases hp with hk | ⟨j, hj, hp⟩
  · exact hu.kern hk
  · exact hu.notTable j hj hp

/-- A store to memory changes words of pages and nothing else. -/
theorem storeBytes_words {s t : Pm} {va : Word} {bs : List (BitVec 8)} (hr : storeBytes g va bs s = .ret () t) :
    ∃ w, t = { s with word := w } := by
  induction bs generalizing s va with
  | nil =>
    obtain ⟨-, rfl⟩ := Outcome.ret.inj hr
    exact ⟨s.word, rfl⟩
  | cons b bs ih =>
    obtain ⟨_, s₁, hs, hr₁⟩ := Routine.bind_eq_ret.mp hr
    simp only [storeByte] at hs
    split_ifs at hs
    obtain ⟨-, rfl⟩ := Outcome.ret.inj hs
    obtain ⟨w, rfl⟩ := ih hr₁
    exact ⟨w, rfl⟩

theorem MemInv.storeBytes_keep {s t : Pm} {D : EnvIdx → Option ℕ} {held : Multiset ℕ} {va : Word}
    {bs : List (BitVec 8)} (h : MemInv s D held) (hg : D e = some g)
    (hb : va.toNat + bs.length ≤ utop.toNat) (hr : storeBytes g va bs s = .ret () t) :
    MemInv t D held := by
  have hu : utop.toNat = 4005560320 := rfl
  induction bs generalizing s va with
  | nil =>
    obtain ⟨-, rfl⟩ := Outcome.ret.inj hr
    exact h
  | cons b bs ih =>
    obtain ⟨_, s₁, hs, hr₁⟩ := Routine.bind_eq_ret.mp hr
    rw [List.length_cons] at hb
    have h1 : (va + 1#32).toNat = va.toNat + 1 := by
      rw [BitVec.toNat_add]
      have h1 : (1#32).toNat = 1 := rfl
      omega
    refine ih ?_ (by omega) hr₁
    simp only [storeByte] at hs
    split_ifs at hs with hacc
    obtain ⟨-, rfl⟩ := Outcome.ret.inj hs
    refine h.setUserWord hg (pdx_lt_of_utop ?_) (has_of_or hacc.1) (has_of_or hacc.2)
    change va.toNat < utop.toNat
    omega

/-- The frame of a user fault lies below `UTOP`. -/
theorem utfAddr_bound (esp : Word) : (utfAddr esp).toNat + 52 ≤ utop.toNat := by
  have hu : utop.toNat = 4005560320 := rfl
  have ht : uxstacktop.toNat = 4005560320 := rfl
  have h1 : (uxstacktop - 4096#32).toNat = 4005556224 := by decide
  have h4 : (4#32).toNat = 4 := rfl
  have h52 : utfSize.toNat = 52 := rfl
  unfold utfAddr
  split_ifs with h
  · have hlo : (uxstacktop - 4096#32).toNat ≤ esp.toNat := h.1
    have hhi : esp.toNat < uxstacktop.toNat := h.2
    rw [BitVec.toNat_sub, BitVec.toNat_sub, h4, h52]
    omega
  · rw [BitVec.toNat_sub, h52, ht]

theorem length_wordBytes (ws : List Word) : (wordBytes ws).length = 4 * ws.length := by
  induction ws with
  | nil => rfl
  | cons w ws ih =>
    simp only [wordBytes, List.flatMap_cons, List.length_append, List.length_cons, List.length_nil] at ih ⊢
    omega

/-- A trap that is a slipping system call, of an environment that is not a zombie. -/
def Event.Slips (k : Kern) : Event → Prop
  | .trap c inp => inp.tf.tfTrapno = 48#32 ∧ (inp.tf.tfCs &&& 3#16 = 3#16 →
      ∃ cur, (k.cpus c).cpuEnv = some cur ∧ k.status cur ≠ .dying) ∧ Sisop.Slips k c inp.tf.tfRegs
  | _ => False

/-- A step whose event does not slip. -/
def SoundStep (k k' : Kern) : Prop := ∃ ev, Step k ev k' ∧ ¬ ev.Slips k

/-- Two states in which a call from the CPU `c` does the same. -/
structure SameCall (c : ℕ) (k k' : Kern) : Prop where
  space : SameSpace k k'
  cpuEnv : (k'.cpus c).cpuEnv = (k.cpus c).cpuEnv
  env : ∀ i, (k'.envs i).envStatus = (k.envs i).envStatus ∧ (k'.envs i).envId = (k.envs i).envId ∧
    (k'.envs i).envParentId = (k.envs i).envParentId ∧
    (k'.envs i).envIpcRecving = (k.envs i).envIpcRecving ∧
    (k'.envs i).envIpcDstva = (k.envs i).envIpcDstva

theorem SameCall.names {envid : Word} {checkperm : Bool} (h : SameCall c k k')
    (hn : Names k' c envid checkperm e) : Names k c envid checkperm e := by
  have hst (i : EnvIdx) : k'.status i = k.status i := (h.env i).1
  simp only [Names, h.cpuEnv, hst, (h.env _).2.1, (h.env _).2.2.1] at hn ⊢
  exact hn

theorem SameCall.slips {regs : PushRegs} (h : SameCall c k k') (hs : Slips k' c regs) :
    Slips k c regs := by
  have hn (envid : Word) (b : Bool) (i : EnvIdx) (hn : Names k' c envid b i) : Names k c envid b i :=
    h.names hn
  obtain ⟨hsp, hcur, he⟩ := h
  rcases hs with ⟨h1, src, dst, g, h2, h3, h4, h5, h6, h7, h8⟩ | ⟨h1, e, g, h2, h3, h4, h5⟩ |
    ⟨h1, e, cur, g, h2, h3, h4, h5, h6, h7, h8, h9, h10⟩
  · rw [hsp.dirs] at h7
    rw [hsp.mem] at h8
    exact Or.inl ⟨h1, src, dst, g, hn _ _ _ h2, hn _ _ _ h3, h4, h5, h6, h7, h8⟩
  · rw [hsp.dirs] at h4
    rw [hsp.mem] at h5
    exact Or.inr (Or.inl ⟨h1, e, g, hn _ _ _ h2, h3, h4, h5⟩)
  · rw [(he e).2.2.2.1] at h3
    rw [hcur] at h4
    rw [hsp.dirs] at h5
    rw [(he e).2.2.2.2] at h9
    rw [hsp.mem] at h10
    exact Or.inr (Or.inr ⟨h1, e, cur, g, hn _ _ _ h2, h3, h4, h5, h6, h7, h8, h9, h10⟩)

theorem SameCall.lock (h : SameCall c k k') (l : Option ℕ) : SameCall c k { k' with kernelLock := l } :=
  ⟨⟨h.space.mem, h.space.dirs, h.space.link, h.space.freeList⟩, h.cpuEnv, h.env⟩

theorem SameCall.trapped (c : ℕ) (k : Kern) : SameCall c k (k.setCpu c CpuInfo.trapped) := by
  refine ⟨SameSpace.setCpu k c _, ?_, fun _ => ⟨rfl, rfl, rfl, rfl, rfl⟩⟩
  rw [setCpu_cpus, if_pos rfl]
  rfl

theorem SameCall.saved (h : SameCall c k k') (e : EnvIdx) (tf : Trapframe) :
    SameCall c k (k'.setEnv e fun env => { env with envTf := tf }) := by
  have hs := SameSpace.setEnv k' e (f := fun env => { env with envTf := tf }) rfl rfl
  refine ⟨⟨hs.mem.trans h.space.mem, hs.dirs.trans h.space.dirs,
    fun i => (hs.link i).trans (h.space.link i), hs.freeList.trans h.space.freeList⟩, h.cpuEnv,
    fun i => ?_⟩
  rw [setEnv_envs]
  split_ifs with hi
  · rw [hi]
    exact h.env e
  · exact h.env i

theorem SameCall.lockKernel : Triple (SameCall c k) (lockKernel c) (fun _ => SameCall c k) E :=
  triple_lockKernel.post fun _ _ hs => by
    obtain ⟨s, h, -, rfl⟩ := hs
    exact h.lock _

/-- A property of the kernel that memory and environments have in every state at rest: each of
the routines that changes a page table or a counter keeps it, and nothing else matters to it. -/
structure PageRule (I : Kern → Prop) : Prop where
  ok : ∀ {k}, I k → MemOk k
  steady : SpaceSteady I
  words : ∀ {k w}, I k → MemInv { k.mem with word := w } k.dirs 0 → I { k with mem := { k.mem with word := w } }
  envFree : ∀ e E, Triple I (envFree e) (fun _ => I) E
  envAlloc : ∀ parentId E, Triple I (envAlloc parentId) (fun _ => I) E
  sysPageAlloc : ∀ c envid va perm E, Triple I (sysPageAlloc c envid va perm) (fun _ => I) E
  pageInsert : ∀ {e g pp va perm E}, pdx va < userPdes → perm.toNat < 4096 →
    Triple (fun k => (I k ∧ UserPage k.mem k.dirs pp ∧ (k.mem.pages pp).ppRef ≠ 65535#16) ∧ k.dirs e = some g)
      (mem (pageInsert g pp va perm)) (fun _ => I) E
  pageRemove : ∀ {e g va E}, pdx va < userPdes →
    Triple (fun k => (I k ∧ ¬ k.mem.entryEmpty g va) ∧ k.dirs e = some g) (mem (pageRemove g va)) (fun _ => I) E

theorem memOk_pageRemove {va : Word} (hd : pdx va < userPdes) :
    Triple (fun k => (MemOk k ∧ ¬ k.mem.entryEmpty g va) ∧ k.dirs e = some g) (mem (pageRemove g va))
      (fun _ => MemOk) E := by
  refine .of_ret (Stays.zoom (stays_pageRemove g va)) fun k _ k' hk h => ?_
  obtain ⟨t, ht, rfl⟩ := mem_eq_ret.mp h
  obtain ⟨⟨hm, hne⟩, hg⟩ := hk
  exact hm.setMem (hm.inv.pageRemove_keep hg hd hne ht)

theorem pageRule_memOk : PageRule MemOk where
  ok := id
  steady := spaceSteady_memOk
  words := fun h hw => h.setMem hw
  envFree := memOk_envFree
  envAlloc := fun parentId _ => (memOk_envAlloc parentId).post fun _ _ h => h.1
  sysPageAlloc := fun _ envid va perm _ => memOk_sysPageAlloc envid va perm
  pageInsert := memOk_pageInsert
  pageRemove := memOk_pageRemove

section Rule

variable {I : Kern → Prop} (hI : PageRule I)
include hI

theorem PageRule.keeps_sysPageMap (srcenvid srcva dstenvid dstva perm : Word) :
    Triple (fun k => I k ∧ ∀ src dst g, Names k c srcenvid true src → Names k c dstenvid true dst →
      CheckPerm perm → CheckMem srcva → CheckMem dstva → k.dirs src = some g →
        ¬ SourceSlips k.mem g srcva perm)
      (sysPageMap c srcenvid srcva dstenvid dstva perm) (fun _ => I) E := by
  refine .bind (triple_envid2env srcenvid true) fun r => ?_
  cases r with
  | error _ => exact .pure fun _ h => h.1.1
  | ok src =>
    refine .bind (triple_envid2env dstenvid true) fun r => ?_
    cases r with
    | error _ => exact .pure fun _ h => h.1.1.1
    | ok dst =>
      refine .ite (.bind (triple_envPgdir src) fun gsrc => ?_) (.pure fun _ h => h.1.1.1.1)
      refine .bind (triple_pageLookup gsrc srcva) fun r => ?_
      rcases r with _ | ⟨page, pte⟩
      · exact .pure fun _ h => h.1.1.1.1.1.1
      · refine .bind (Q := fun w k => I k ∧ ((has perm pteW → has w pteW) →
          UserPage k.mem k.dirs page ∧ (k.mem.pages page).ppRef ≠ 65535#16) ∧ CheckPerm perm ∧
            CheckMem dstva) (.gets fun k hk => ?_) fun w => ?_
        · obtain ⟨⟨⟨⟨⟨⟨hm, hslip⟩, hsrc⟩, hdst⟩, hargs⟩, hg⟩, hl⟩ := hk
          obtain ⟨hw, rfl⟩ := hl page pte rfl
          refine ⟨hm, fun hrw => ?_, hargs.1, hargs.2.2⟩
          have hno := hslip src dst gsrc (hsrc src rfl) (hdst dst rfl) hargs.1 hargs.2.1 hargs.2.2 hg
          have hz : k.mem.load pte ≠ 0#32 := fun hz => hno ⟨_, hw, hrw, Or.inl hz⟩
          exact ⟨(hI.ok hm).userPage_lookup hg (pdx_lt_of_utop hargs.2.1.1) hw hz,
            fun hr => hno ⟨_, hw, hrw, Or.inr hr⟩⟩
        · refine .ite (.pure fun _ h => h.1.1) (.bind (triple_envPgdir dst) fun gdst => ?_)
          refine .bind (Q := fun _ => I) (.intro fun k hk => ?_) fun r => ?_
          · obtain ⟨⟨⟨hm, hu, hp, hdst⟩, hrw⟩, hg⟩ := hk
            have hrw' : has perm pteW → has w pteW := fun h => not_not.mp fun hn => hrw ⟨h, hn⟩
            exact (hI.pageInsert (pdx_lt_of_utop hdst.1) hp.lt).run k ⟨⟨hm, hu hrw'⟩, hg⟩
          · cases r <;> exact .pure fun _ h => h

theorem PageRule.keeps_sysPageUnmap (envid va : Word) :
    Triple (fun k => I k ∧ ∀ e g, Names k c envid true e → CheckMem va → k.dirs e = some g →
      ¬ k.mem.entryEmpty g va) (sysPageUnmap c envid va) (fun _ => I) E := by
  refine .bind (triple_envid2env envid true) fun r => ?_
  cases r with
  | error _ => exact .pure fun _ h => h.1.1
  | ok e =>
    refine .ite (.bind (triple_envPgdir e) fun g => ?_) (.pure fun _ h => h.1.1.1)
    refine .bind (Q := fun _ => I) (.intro fun k hk => ?_) fun _ => .pure fun _ h => h
    obtain ⟨⟨⟨⟨hm, hslip⟩, hn⟩, hmem⟩, hg⟩ := hk
    exact (hI.pageRemove (pdx_lt_of_utop hmem.1)).run k ⟨⟨hm, hslip e g (hn e rfl) hmem hg⟩, hg⟩

/-- The page part of `sys_ipc_try_send` to the environment `e`. -/
theorem PageRule.keeps_ipcSendPage (e : EnvIdx) (srcva perm : Word) :
    Triple (fun k => I k ∧ ∀ cur g, (k.cpus c).cpuEnv = some cur → k.dirs cur = some g →
      srcva < utop → pgoff srcva = 0 → CheckPerm perm → (k.envs e).envIpcDstva < utop →
        ¬ SourceSlips k.mem g srcva perm)
      (ipcSendPage c e srcva perm) (fun _ => I) E := by
  refine .ite (.ite (.bind triple_curenv fun cur => ?_) (.pure fun _ h => h.1.1.1))
    (.pure fun _ h => h.1.1)
  refine .bind (triple_envPgdir cur) fun gsrc => .bind (triple_pageLookup gsrc srcva) fun r => ?_
  rcases r with _ | ⟨page, pte⟩
  · exact .pure fun _ h => h.1.1.1.1.1.1
  refine .bind (Q := fun w k => I k ∧ ((has perm pteW → has w pteW) →
    (k.envs e).envIpcDstva < utop → UserPage k.mem k.dirs page ∧
      (k.mem.pages page).ppRef ≠ 65535#16) ∧ CheckPerm perm) (.gets fun k hk => ?_) fun w => ?_
  · obtain ⟨⟨⟨⟨⟨⟨hm, hslip⟩, hlt⟩, hargs⟩, hc⟩, hg⟩, hl⟩ := hk
    obtain ⟨hw, rfl⟩ := hl page pte rfl
    refine ⟨hm, fun hrw hdst => ?_, hargs.2⟩
    have hno := hslip cur gsrc hc hg hlt hargs.1 hargs.2 hdst
    have hz : k.mem.load pte ≠ 0#32 := fun hz => hno ⟨_, hw, hrw, Or.inl hz⟩
    exact ⟨(hI.ok hm).userPage_lookup hg (pdx_lt_of_utop hlt) hw hz, fun hr => hno ⟨_, hw, hrw, Or.inr hr⟩⟩
  refine .ite (.pure fun _ h => h.1.1) ?_
  refine .bind (Q := fun dstva k => I k ∧ (dstva < utop → UserPage k.mem k.dirs page ∧
    (k.mem.pages page).ppRef ≠ 65535#16) ∧ CheckPerm perm) (.gets fun k hk => ?_) fun dstva => ?_
  · obtain ⟨⟨hm, hu, hp⟩, hrw⟩ := hk
    exact ⟨hm, fun hdst => hu (fun h => not_not.mp fun hn => hrw ⟨h, hn⟩) hdst, hp⟩
  refine .ite (.bind (triple_envPgdir e) fun gdst => ?_) (.pure fun _ h => h.1.1)
  refine .bind (Q := fun _ => I) (.intro fun k hk => ?_) fun r => ?_
  · obtain ⟨⟨⟨hm, hu, hp⟩, hdst⟩, hg⟩ := hk
    exact (hI.pageInsert (pdx_lt_of_utop hdst) hp.lt).run k ⟨⟨hm, hu hdst⟩, hg⟩
  · cases r <;> exact .pure fun _ h => h

theorem PageRule.keeps_sysIpcTrySend (envid value srcva perm : Word) :
    Triple (fun k => I k ∧ ∀ e cur g, Names k c envid false e → (k.envs e).envIpcRecving = true →
      (k.cpus c).cpuEnv = some cur → k.dirs cur = some g → srcva < utop → pgoff srcva = 0 →
        CheckPerm perm → (k.envs e).envIpcDstva < utop → ¬ SourceSlips k.mem g srcva perm)
      (sysIpcTrySend c envid value srcva perm) (fun _ => I) E := by
  refine .bind (triple_envid2env envid false) fun r => ?_
  cases r with
  | error _ => exact .pure fun _ h => h.1.1
  | ok e =>
    refine .bind (Q := fun r k => I k ∧ (r = true → ∀ cur g, (k.cpus c).cpuEnv = some cur →
      k.dirs cur = some g → srcva < utop → pgoff srcva = 0 → CheckPerm perm →
        (k.envs e).envIpcDstva < utop → ¬ SourceSlips k.mem g srcva perm)) (.gets fun k hk => ?_)
      fun recving => ?_
    · obtain ⟨⟨hm, hs⟩, hn⟩ := hk
      exact ⟨hm, fun hr cur g => hs e cur g (hn e rfl) hr⟩
    cases recving with
    | false => exact .pure fun _ h => h.1
    | true =>
      refine .bind (.modify (Q := fun _ k => I k ∧ ∀ cur g, (k.cpus c).cpuEnv = some cur →
        k.dirs cur = some g → srcva < utop → pgoff srcva = 0 → CheckPerm perm →
          (k.envs e).envIpcDstva < utop → ¬ SourceSlips k.mem g srcva perm) fun k hk => ?_) fun _ => ?_
      · have hs : SameSpace k (k.clearIpcPerm e) := SameSpace.setEnv k e rfl rfl
        refine ⟨hI.steady _ _ hs hk.1, fun cur g hc hg hlt ho hp hd => hk.2 rfl cur g hc ?_ hlt ho hp ?_⟩
        · rwa [hs.dirs] at hg
        · rwa [clearIpcPerm_dstva] at hd
      · refine .bind (hI.keeps_ipcSendPage e srcva perm) fun r => ?_
        cases r with
        | error _ => exact .pure fun _ h => h
        | ok ipcPerm =>
          refine .bind keeps_curenv fun cur => .bind (.gets_same _) fun curId => ?_
          exact .bind (hI.steady.setEnv e (fun _ => rfl) fun _ => rfl) fun _ => .pure fun _ h => h

theorem PageRule.keeps_sysExofork : Triple I (sysExofork c) (fun _ => I) E := by
  refine .bind keeps_curenv fun cur => .bind (.gets_same _) fun curId => ?_
  refine .bind (hI.envAlloc curId _) fun r => ?_
  cases r with
  | error _ => exact .pure fun _ h => h
  | ok e =>
    refine .bind (Q := fun _ => I) (.modify fun k hk => hI.steady _ _ (SameSpace.setEnv k e rfl rfl) hk) fun _ => ?_
    refine .bind (Q := fun _ => I) (.modify fun k hk => hI.steady _ _ (SameSpace.setEnv k e rfl rfl) hk) fun _ => ?_
    exact .bind (.gets_same _) fun id => .pure fun _ h => h

theorem PageRule.keeps_syscall (cgetc : Word) (regs : PushRegs) :
    Triple (fun k => I k ∧ ¬ Slips k c regs)
      (syscall c cgetc regs.regEax regs.regEdx regs.regEcx regs.regEbx regs.regEdi regs.regEsi)
      (fun _ => I) I := by
  have hno (n : ℕ) (hn : regs.regEax.toNat = n) (hb : n < 2^32) : regs.regEax = BitVec.ofNat 32 n := by
    rw [← hn, BitVec.ofNat_toNat, BitVec.setWidth_eq]
  unfold syscall
  split
  case h_1 => exact .bind ((hI.steady.sysCputs hI.envFree _ _).pre fun _ h => h.1) fun _ => .pure fun _ h => h
  case h_2 => exact .pure fun _ h => h.1
  case h_3 => exact .bind keeps_curenv fun _ => .bind (.gets_same _) fun _ => .pure fun _ h => h.1
  case h_4 => exact (hI.steady.sysEnvDestroy hI.envFree _).pre fun _ h => h.1
  case h_5 => exact (hI.sysPageAlloc _ _ _ _ _).pre fun _ h => h.1
  case h_6 h =>
    refine (hI.keeps_sysPageMap _ _ _ _ _).pre fun k hk => ⟨hk.1, fun src dst g h1 h2 h3 h4 h5 h6 h7 => ?_⟩
    exact hk.2 (Or.inl ⟨hno 5 h (by decide), src, dst, g, h1, h2, h3, h4, h5, h6, h7⟩)
  case h_7 h =>
    refine (hI.keeps_sysPageUnmap _ _).pre fun k hk => ⟨hk.1, fun e g h1 h2 h3 h4 => ?_⟩
    exact hk.2 (Or.inr (Or.inl ⟨hno 6 h (by decide), e, g, h1, h2, h3, h4⟩))
  case h_8 => exact hI.keeps_sysExofork.pre fun _ h => h.1
  case h_9 => exact (hI.steady.sysEnvSetStatus _ _).pre fun _ h => h.1
  case h_10 => exact (hI.steady.sysEnvSetPgfaultUpcall _ _).pre fun _ h => h.1
  case h_11 => exact .bind (hI.steady.schedYield.pre fun _ h => h.1) fun _ => .pure fun _ h => h.elim
  case h_12 h =>
    refine (hI.keeps_sysIpcTrySend _ _ _ _).pre fun k hk =>
      ⟨hk.1, fun e cur g h1 h2 h3 h4 h5 h6 h7 h8 h9 => ?_⟩
    exact hk.2 (Or.inr (Or.inr ⟨hno 12 h (by decide), e, cur, g, h1, h2, h3, h4, h5, h6, h7, h8, h9⟩))
  case h_13 => exact (hI.steady.sysIpcRecv _).pre fun _ h => h.1
  case h_14 => exact .pure fun _ h => h.1

theorem PageRule.keeps_pageFaultHandler (faultVa : Word) (tf : Trapframe) :
    Triple I (pageFaultHandler c faultVa tf) (fun _ => I) I := by
  refine .ite_same .halt (.bind keeps_curenv fun cur => ?_)
  refine .bind (.gets_same _) fun upcall => .ite_same (hI.steady.envDestroy hI.envFree cur) ?_
  refine .bind (hI.steady.userMemAssert hI.envFree cur _ _ _) fun _ => .bind (triple_envPgdir cur) fun g => ?_
  refine .bind (Q := fun _ => I) (.of_ret (Stays.zoom (stays_storeBytes _ _ _))
    fun k _ k' hk h => ?_) fun _ => ?_
  · obtain ⟨t, ht, rfl⟩ := mem_eq_ret.mp h
    obtain ⟨w, rfl⟩ := storeBytes_words ht
    refine hI.words hk.1 ((hI.ok hk.1).inv.storeBytes_keep hk.2 ?_ ht)
    rw [length_wordBytes]
    exact utfAddr_bound tf.tfEsp
  · exact .bind (hI.steady.setEnv cur (fun _ => rfl) fun _ => rfl) fun _ =>
      (hI.steady.envRun cur).post fun _ _ h => h.elim

theorem PageRule.keeps_trapDispatch (inp : TrapInput) :
    Triple (fun k => I k ∧ (inp.tf.tfTrapno = 48#32 → (k.cpus c).cpuEnv ≠ none →
        ¬ Slips k c inp.tf.tfRegs)) (trapDispatch c inp) (fun _ => I) I := by
  unfold trapDispatch
  simp only
  split
  case h_1 => exact .halt
  case h_2 => exact (hI.keeps_pageFaultHandler _ _).pre fun _ h => h.1
  case h_3 h =>
    have hno : inp.tf.tfTrapno = 48#32 := by
      rw [← BitVec.setWidth_eq inp.tf.tfTrapno, ← BitVec.ofNat_toNat, h]
    refine .bind triple_curenv fun cur => ?_
    refine .bind ((hI.keeps_syscall inp.cgetc inp.tf.tfRegs).pre fun k hk =>
      ⟨hk.1.1, hk.1.2 hno (by simp [hk.2])⟩) fun r => ?_
    exact hI.steady.setEnv cur (fun _ => rfl) fun _ => rfl
  case h_4 => exact .pure fun _ h => h.1
  case h_5 => exact hI.steady.schedYield.conseq (fun _ h => h.1) (fun _ _ h => h.elim) fun _ h => h
  case h_6 =>
    exact .ite_same .halt (.bind keeps_curenv fun cur => (hI.steady.envDestroy hI.envFree cur).pre fun _ h => h.1)

theorem PageRule.keeps_trapFromUser (hk : I k) (tf : Trapframe) :
    Triple (SameCall c k) (trapFromUser c tf) (fun _ s => SameCall c k s ∧
      ∃ cur, (k.cpus c).cpuEnv = some cur ∧ k.status cur ≠ .dying) I := by
  refine .bind triple_curenv fun cur => ?_
  refine .bind (Q := fun _ s => SameCall c k s ∧ (k.cpus c).cpuEnv = some cur)
    (triple_lockKernel.post fun _ s hs => ?_) fun _ => ?_
  · obtain ⟨s, ⟨h, hc⟩, -, rfl⟩ := hs
    exact ⟨h.lock _, h.cpuEnv.symm.trans hc⟩
  refine .bind (Q := fun st s => (SameCall c k s ∧ (k.cpus c).cpuEnv = some cur) ∧ st = k.status cur)
    (.gets fun s hs => ⟨hs, (hs.1.env cur).1⟩) fun st => .ite ?_ ?_
  · refine .bind ((hI.envFree cur _).pre fun s hs => hI.steady _ _ hs.1.1.1.space hk) fun _ => ?_
    exact .bind (hI.steady.setCurenv none) fun _ => hI.steady.schedYield.post fun _ _ h => h.elim
  · refine .modify fun s hs => ?_
    obtain ⟨⟨⟨h, hc⟩, rfl⟩, hd⟩ := hs
    exact ⟨h.saved cur tf, cur, hc, hd⟩

/-- A trap that does not slip. -/
theorem PageRule.keeps_trap (hk : I k) (inp : TrapInput) (hslip : ¬ Event.Slips k (.trap c inp)) :
    Triple (fun s => s = k) (trap c inp) (fun _ _ => False) I := by
  refine .bind (.gets_same _) fun old => ?_
  refine .bind (.modify (Q := fun _ => SameCall c k) fun s hs => ?_) fun _ => ?_
  · rw [hs]
    exact SameCall.trapped c k
  refine .ite_bind (a := ()) (Q := fun _ => SameCall c k) (SameCall.lockKernel.pre fun _ h => h.1)
    (fun _ h => h.1) fun _ => ?_
  refine .ite_bind (a := ()) (Q := fun _ s => SameCall c k s ∧ (inp.tf.tfCs &&& 3#16 = 3#16 →
    ∃ cur, (k.cpus c).cpuEnv = some cur ∧ k.status cur ≠ .dying))
    (((hI.keeps_trapFromUser hk inp.tf).pre fun _ h => h.1).post fun _ s hs => ⟨hs.1, fun _ => hs.2⟩)
    (fun s hs => ⟨hs.1, fun h => absurd h hs.2⟩) fun _ => ?_
  refine .bind ((hI.keeps_trapDispatch inp).pre fun s hs => ⟨hI.steady _ _ hs.1.space hk, fun hno _ h => ?_⟩)
    fun _ => ?_
  · exact hslip ⟨hno, hs.2, hs.1.slips h⟩
  refine .bind (.gets_same _) fun r => ?_
  cases r with
  | some e => exact hI.steady.envRun e
  | none => exact hI.steady.schedYield

theorem PageRule.keeps_step {ev : Event} (h : Step k ev k') (hk : I k) (hs : ¬ ev.Slips k) : I k' := by
  cases h with
  | trap _ h => exact (hI.keeps_trap hk _ hs).left rfl h
  | start _ _ h => exact hI.steady.mpMain.left hk h
  | @store c e g va b t hx hg h =>
    simp only [userStoreByte] at h
    split_ifs at h with hacc
    obtain ⟨-, rfl⟩ := Outcome.ret.inj h
    exact hI.words hk ((hI.ok hk).inv.setUserWord hg (pdx_lt_of_utop hacc.1) (has_of_or (has_of_or hacc.2.1))
      (has_of_or (has_of_or hacc.2.2)))

end Rule

/-- The segments of a program lie below `UTOP`. -/
def Elf.Fits (elf : Elf) : Prop := ∀ seg ∈ elf.segments, roundup (seg.1 + seg.2) ≤ utop

theorem MemInv.regionAlloc_keep {s t : Pm} {D : EnvIdx → Option ℕ} {held : Multiset ℕ}
    {va len : Word} (h : MemInv s D held) (hg : D e = some g) (hfit : roundup (va + len) ≤ utop)
    (hr : regionAlloc g va len s = .ret () t) : MemInv t D held := by
  refine Routine.loop_ret (fun _ s => MemInv s D held) _ h (fun i s s' hi hs hb => ?_) hr
  refine hs.allocPage_keep hg (pdx_lt_of_utop ?_) hb
  have hle : (roundup (va + len)).toNat ≤ utop.toNat := hfit
  have hu : utop.toNat = 4005560320 := rfl
  have hp : pgsize = 4096 := rfl
  change (rounddown va + BitVec.ofNat 32 (pgsize * i)).toNat < utop.toNat
  rw [pageRounds, hp] at hi
  rw [BitVec.toNat_add, BitVec.toNat_ofNat, hp]
  omega

theorem MemInv.loadSegments_keep {s t : Pm} {D : EnvIdx → Option ℕ} {held : Multiset ℕ}
    {segments : List (Word × Word)} (h : MemInv s D held) (hg : D e = some g)
    (hfit : ∀ seg ∈ segments, roundup (seg.1 + seg.2) ≤ utop)
    (hr : loadSegments g segments s = .ret () t) : MemInv t D held := by
  induction segments generalizing s with
  | nil => exact h.regionAlloc_keep hg (by decide) hr
  | cons seg segments ih =>
    obtain ⟨_, s₁, hs, hr₁⟩ := Routine.bind_eq_ret.mp hr
    exact ih (h.regionAlloc_keep hg (hfit seg List.mem_cons_self) hs)
      (fun seg' hseg => hfit seg' (List.mem_cons_of_mem seg hseg)) hr₁

theorem memOk_envCreate {elf : Elf} (hfit : elf.Fits) (type : EnvType) :
    Triple MemOk (envCreate elf type) (fun _ => MemOk) E := by
  refine .bind (memOk_envAlloc 0#32) fun r => ?_
  cases r with
  | error _ => exact .halt
  | ok e =>
    refine .bind (triple_envPgdir e) fun g => .bind (Q := fun _ => MemOk) ?_ fun _ =>
      spaceSteady_memOk.setEnv e (fun _ => rfl) fun _ => rfl
    refine .of_ret (Stays.zoom (stays_loadSegments g elf.segments)) fun k _ k' hk h => ?_
    obtain ⟨t, ht, rfl⟩ := mem_eq_ret.mp h
    exact hk.1.1.setMem (hk.1.1.inv.loadSegments_keep hk.2 hfit ht)

theorem memOk_createEnvs {programs : List (Elf × EnvType)} (hfit : ∀ p ∈ programs, p.1.Fits) :
    Triple MemOk (createEnvs programs) (fun _ => MemOk) E := by
  induction programs with
  | nil => exact .pure fun _ h => h
  | cons program programs ih =>
    exact .bind (memOk_envCreate (hfit program List.mem_cons_self) _) fun _ =>
      ih fun p hp => hfit p (List.mem_cons_of_mem program hp)

theorem memOk_envInit {m : Machine} {s : Pm} (h : BootMem m s) : MemOk (envInit (afterMemInit s)) := by
  obtain ⟨l, hc, hnd, -⟩ := freeEnvs_envInit (k := afterMemInit s) fun _ => rfl
  exact ⟨h.memInv, l, hc, hnd, fun _ _ => rfl⟩

/-- The states in which the boot processor leaves the kernel for the first time,
having loaded programs that fit into the user part of an address space. -/
def BootedFit (k : Kern) : Prop := ∃ m s lapicaddr others c programs, MemInit m s ∧ (∀ p ∈ programs, p.1.Fits) ∧
  i386Init s.base lapicaddr others c programs (afterMemInit s.mem) = .left k

theorem BootedFit.booted (h : BootedFit k) : Booted k := by
  obtain ⟨m, s, lapicaddr, others, c, programs, hm, -, h⟩ := h
  exact ⟨m, s, lapicaddr, others, c, programs, hm, h⟩

theorem bootedFit_iff : BootedFit k ↔ ∃ m t c programs, BootMem m t ∧ (∀ p ∈ programs, p.1.Fits) ∧
    startFirst c programs (afterMemInit t) = .left k := by
  constructor
  · rintro ⟨m, s, lapicaddr, others, c, programs, hm, hfit, h⟩
    obtain ⟨n, hd, -⟩ := hm.devicesOk
    obtain ⟨t, ht, hrun⟩ := i386Init_left hd h
    exact ⟨m, t, c, programs, ⟨s, lapicaddr, others, hm, ht⟩, hfit, hrun⟩
  · rintro ⟨m, t, c, programs, ⟨s, lapicaddr, others, hm, ht⟩, hfit, hrun⟩
    exact ⟨m, s, lapicaddr, others, c, programs, hm, hfit, (i386Init_run ht).trans hrun⟩

theorem BootedFit.memOk (h : BootedFit k) : MemOk k := by
  obtain ⟨m, s, c, programs, hm, hfit, h⟩ := bootedFit_iff.mp h
  have ht : Triple (fun k => k = afterMemInit s) (startFirst c programs) (fun _ _ => False) MemOk := by
    refine .bind (.modify (Q := fun _ => MemOk) fun k hk => ?_) fun _ => ?_
    · rw [hk]
      exact memOk_envInit hm
    · refine .bind (.modify (Q := fun _ => MemOk) fun k hk => hk.congr (SameSpace.setCpu k c _)) fun _ => ?_
      exact .bind spaceSteady_memOk.lockKernel fun _ => .bind (memOk_createEnvs hfit) fun _ => spaceSteady_memOk.schedYield
  exact ht.left rfl h

theorem memOk_of_reachable (h : Reachable BootedFit SoundStep k) : MemOk k :=
  h.invariant (fun _ => BootedFit.memOk) fun _ _ hk ⟨_, hs, hev⟩ => pageRule_memOk.keeps_step hs hk hev

end Invariant
end Sisop
