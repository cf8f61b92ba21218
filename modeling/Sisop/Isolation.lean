import Sisop.KernelEntry
import Sisop.KernelPair
import Sisop.TableWrites

/-! Isolation: what a system call of one environment leaves of another environment
that is not its child. -/
namespace Sisop

open Routine (Triple Stays)

/-- The environment is the same as before, but it may have been scheduled. -/
structure Env.Spared (env env' : Env) : Prop where
  tf : env'.envTf = env.envTf
  id : env'.envId = env.envId
  parentId : env'.envParentId = env.envParentId
  pgdir : env'.envPgdir = env.envPgdir
  upcall : env'.envPgfaultUpcall = env.envPgfaultUpcall
  mail : env'.mail = env.mail
  status : env'.envStatus = env.envStatus ∨
    env.envStatus = .runnable ∧ env'.envStatus = .running

/-- Nothing has happened to the environment `o` and its user mappings, but for that. -/
structure Untouched (o : EnvIdx) (k k' : Kern) : Prop where
  env : (k.envs o).Spared (k'.envs o)
  maps : ∀ g va, k.dirs o = some g → va < utop →
    k'.mem.word g (pdx va) = k.mem.word g (pdx va) ∧ k'.mem.pteAt g va = k.mem.pteAt g va

/-- The environment `o` is the one of the state `k`, and so are its tables. -/
structure SameEnv (o : EnvIdx) (k s : Kern) : Prop where
  env : s.envs o = k.envs o
  tables : ∀ g p, k.dirs o = some g → k.mem.TableOf g p → s.mem.word p = k.mem.word p

/-- The same, while the CPU `c` is in the kernel for another environment. -/
structure Kept (c : ℕ) (o : EnvIdx) (k s : Kern) : Prop extends SameEnv o k s where
  cur : (s.cpus c).cpuEnv ≠ some o

/-- The caller on the CPU `c` has no means to get at the environment `o`. -/
structure Guarded (c : ℕ) (o : EnvIdx) (k s : Kern) : Prop extends Kept c o k s where
  inv : MemInv s.mem s.dirs 0
  names : ∀ envid e, Names s c envid true e → e ≠ o
  fresh : ∀ e, s.envFreeList = some e → e ≠ o

section Frame

variable {k s s' : Kern} {c : ℕ} {e o : EnvIdx} {t : Pm} {E : Kern → Prop}

theorem Env.Spared.refl (env : Env) : env.Spared env := ⟨rfl, rfl, rfl, rfl, rfl, rfl, Or.inl rfl⟩

theorem SameEnv.dir (h : SameEnv o k s) : s.dirs o = k.dirs o := congrArg Env.envPgdir h.env

theorem SameEnv.untouched (h : SameEnv o k s) : Untouched o k s := by
  refine ⟨?_, fun g va hg hva => ?_⟩
  · rw [h.env]
    exact .refl _
  · exact pteAt_of_tables (fun p => h.tables g p hg) (pdx_lt_of_utop hva)

theorem SameEnv.congr (h : SameEnv o k s) (he : s'.envs o = s.envs o) (hm : s'.mem = s.mem) :
    SameEnv o k s' := by
  refine ⟨he.trans h.env, ?_⟩
  rw [hm]
  exact h.tables

/-- Memory changes outside the tables of `o`. -/
theorem SameEnv.setMem (h : SameEnv o k s)
    (hw : ∀ g p, s.dirs o = some g → s.mem.TableOf g p → t.word p = s.mem.word p) :
    SameEnv o k { s with mem := t } := by
  refine ⟨h.env, fun g p hg hp => ?_⟩
  have hg' := h.tables g g hg (k.mem.tableOf_dir g)
  rw [← h.tables g p hg hp]
  exact hw g p (h.dir.trans hg) (hp.congr hg'.symm)

theorem Kept.congr (h : Kept c o k s) (he : s'.envs o = s.envs o) (hm : s'.mem = s.mem)
    (hc : s'.cpus = s.cpus) : Kept c o k s' := by
  refine ⟨h.toSameEnv.congr he hm, ?_⟩
  rw [hc]
  exact h.cur

theorem Kept.setEnv (h : Kept c o k s) (hne : e ≠ o) (f : Env → Env) : Kept c o k (s.setEnv e f) := by
  refine h.congr ?_ rfl rfl
  rw [setEnv_envs, if_neg hne.symm]

theorem Kept.setMem (h : Kept c o k s)
    (hw : ∀ g p, s.dirs o = some g → s.mem.TableOf g p → t.word p = s.mem.word p) :
    Kept c o k { s with mem := t } := ⟨h.toSameEnv.setMem hw, h.cur⟩

theorem Kept.setCurenv_none (h : Kept c o k s) : Kept c o k (s.setCurenv c none) := by
  refine ⟨h.toSameEnv.congr rfl rfl, ?_⟩
  rw [Kern.setCurenv, setCpu_cpus, if_pos rfl]
  exact fun hc => by cases hc

/-- The routines that build, change or clear the address space of another environment. -/
theorem Guarded.pageInsert {g pp : ℕ} {va perm : Word} {r : Except Err Unit} (h : Guarded c o k s)
    (hg : s.dirs e = some g) (hne : e ≠ o) (hva : va < utop)
    (hr : pageInsert g pp va perm s.mem = .ret r t) : Kept c o k { s with mem := t } := by
  apply h.setMem
  intro go p hgo hp
  obtain ⟨hf, hother⟩ := h.inv.tableOf_apart hgo hp
  exact h.inv.pageInsert_word hg (pdx_lt_of_utop hva) hr hf (hother e g hg hne)

theorem Guarded.pageRemove {g : ℕ} {va : Word} (h : Guarded c o k s) (hg : s.dirs e = some g)
    (hne : e ≠ o) (hva : va < utop) (hr : pageRemove g va s.mem = .ret () t) :
    Kept c o k { s with mem := t } := by
  apply h.setMem
  intro go p hgo hp
  have hother := (h.inv.tableOf_apart hgo hp).2 e g hg hne
  exact pageRemove_word hr fun hz hpq => hother (Or.inr ⟨_, pdx_lt_of_utop hva, hz, hpq.symm⟩)

theorem Guarded.pageAlloc {r : Option ℕ} (h : Guarded c o k s) (hr : pageAlloc s.mem = .ret r t) :
    Guarded c o k { s with mem := t } := by
  rcases h.inv.pageAlloc_cases with ⟨-, ha⟩ | ⟨p, hf, ha, hi, -, -⟩
  · rw [ha] at hr
    obtain ⟨-, rfl⟩ := Outcome.ret.inj hr
    exact h
  · rw [ha] at hr
    obtain ⟨-, rfl⟩ := Outcome.ret.inj hr
    refine ⟨h.setMem fun g q hg hq => taken_word_ne ?_, hi, h.names, h.fresh⟩
    rintro rfl
    apply (h.inv.tableOf_apart hg hq).1
    rw [Pm.IsFree, hf]
    exact OnChain.here q

theorem Guarded.envFree (h : Guarded c o k s) (hne : e ≠ o) (hr : envFree e s = .ret () s') :
    Kept c o k s' := by
  obtain ⟨g, s₁, t, hg, hloop, hdec, rfl⟩ := envFree_ret hr
  have hmem : Kept c o k { s with mem := t } := by
    apply h.setMem
    intro go p hgo hp
    rw [pageDecref_ret hdec, decRef_word]
    exact h.inv.freeTables_word hg hloop ((h.inv.tableOf_apart hgo hp).2 e g hg hne)
  refine hmem.congr ?_ rfl rfl
  exact Function.update_of_ne hne.symm _ _

theorem Guarded.envAlloc {parentId : Word} {r : Except Err EnvIdx} (h : Guarded c o k s)
    (hr : envAlloc parentId s = .ret r s') : Kept c o k s' ∧ ∀ e, r = .ok e → e ≠ o := by
  have hdir (x : Option ℕ) (t : Pm) (hs : setupDir s.mem = .ret x t) : Kept c o k { s with mem := t } := by
    apply h.setMem
    intro go p hgo hp
    rcases h.inv.pageAlloc_cases with ⟨hf, -⟩ | ⟨q, hf, ha, -, hfr, -⟩
    · rw [setupDir_none hf] at hs
      rw [(Outcome.ret.inj hs).2]
    · rw [setupDir_some ha hfr.bound h.inv.npages_le] at hs
      rw [← (Outcome.ret.inj hs).2]
      apply newDir_word_ne
      rintro rfl
      apply (h.inv.tableOf_apart hgo hp).1
      rw [Pm.IsFree, hf]
      exact OnChain.here p
  rcases envAlloc_ret hr with ⟨err, rfl, rfl | ⟨t, ht, rfl⟩⟩ | ⟨e, g, t, rfl, hf, ht, rfl⟩
  · exact ⟨h.toKept, fun _ he => by cases he⟩
  · exact ⟨hdir _ _ ht, fun _ he => by cases he⟩
  · have hne := h.fresh e hf
    refine ⟨(hdir _ _ ht).congr ?_ rfl rfl, fun i hi => ?_⟩
    · exact Function.update_of_ne hne.symm _ _
    · rw [← Except.ok.inj hi]
      exact hne

end Frame

section Scheduler

variable {k : Kern} {c : ℕ} {o : EnvIdx}

/-- The environment that is taken up may be `o` if it was runnable. -/
theorem kept_envRun (e : EnvIdx) :
    Triple (fun s => Kept c o k s ∧ (e = o → k.status o = .runnable)) (envRun c e)
      (fun _ _ => False) (Untouched o k) := by
  have hrest : Triple (fun s => SameEnv o k s ∧ (e = o → k.status o = .runnable)) (do
      Routine.modify fun k => k.setCurenv c (some e)
      Routine.modify fun k => k.setEnv e fun env =>
        { env with envStatus := .running, envRuns := env.envRuns + 1#32 }
      let _ ← envPgdir e
      envRun.unlockKernel c
      Routine.leave fun k => (k.setEnv e fun env => { env with envCpunum := c }).setCpu c fun cpu =>
        { cpu with user := true } : Routine Kern Unit) (fun _ _ => False) (Untouched o k) := by
    refine .bind (.modify (Q := fun _ s => SameEnv o k s ∧ (e = o → k.status o = .runnable))
      fun s hs => ⟨hs.1.congr rfl rfl, hs.2⟩) fun _ => ?_
    refine .bind (.modify (Q := fun _ => Untouched o k) fun s hs => ?_) fun _ => ?_
    · obtain ⟨h, hrun⟩ := hs
      refine ⟨?_, h.untouched.maps⟩
      rw [setEnv_envs]
      split_ifs with he
      · rw [← he, h.env]
        exact ⟨rfl, rfl, rfl, rfl, rfl, rfl, Or.inr ⟨hrun he.symm, rfl⟩⟩
      · exact h.untouched.env
    refine .bind (keeps_envPgdir e) fun _ => .bind (triple_unlockKernel fun s hs =>
      ⟨hs.env, hs.maps⟩) fun _ => .leave fun s hs => ⟨?_, hs.maps⟩
    change (k.envs o).Spared ((s.setEnv e fun env => { env with envCpunum := c }).envs o)
    rw [setEnv_envs]
    split_ifs with he
    · rw [← he]
      exact ⟨hs.env.tf, hs.env.id, hs.env.parentId, hs.env.pgdir, hs.env.upcall, hs.env.mail,
        hs.env.status⟩
    · exact hs.env
  refine .bind (Q := fun r s => (Kept c o k s ∧ (e = o → k.status o = .runnable)) ∧ r ≠ some o)
    (.gets fun s hs => ⟨hs, hs.1.cur⟩) fun cur => ?_
  cases cur with
  | none => exact hrest.pre fun s hs => ⟨hs.1.1.toSameEnv, hs.1.2⟩
  | some cur =>
    refine .bind (.modify (Q := fun _ s => SameEnv o k s ∧ (e = o → k.status o = .runnable))
      fun s hs => ⟨?_, hs.1.2⟩) fun _ => hrest
    have hne : cur ≠ o := fun h => hs.2 (congrArg some h)
    split_ifs
    · exact (hs.1.1.setEnv hne _).toSameEnv
    · exact hs.1.1.toSameEnv

theorem kept_schedHalt : Triple (Kept c o k) (schedHalt c) (fun _ _ => False) (Untouched o k) := by
  refine .bind (.gets_same _) fun awake => .ite_same ?_ .halt
  refine .bind (.modify (Q := fun _ => SameEnv o k) fun s hs => hs.toSameEnv.congr rfl rfl) fun _ => ?_
  refine .bind (.modify (Q := fun _ => SameEnv o k) fun s hs => hs.congr rfl rfl) fun _ => ?_
  refine .bind (triple_unlockKernel fun s hs => hs.congr rfl rfl) fun _ => .leave fun s hs => ?_
  have h : SameEnv o k (s.setCpu c fun cpu => { cpu with user := false }) := hs.congr rfl rfl
  exact h.untouched

theorem kept_schedYield : Triple (Kept c o k) (schedYield c) (fun _ _ => False) (Untouched o k) := by
  refine .bind (Q := fun r s => Kept c o k s ∧ ∀ e, r = some e → s.status e = .runnable)
    (.gets fun s hs => ⟨hs, fun e he => nextRunnable_status he⟩) fun idle => ?_
  cases idle with
  | some e =>
    refine (kept_envRun e).pre fun s hs => ⟨hs.1, fun he => ?_⟩
    rw [Kern.status, ← hs.1.env, ← he]
    exact hs.2 e rfl
  | none =>
    refine .bind (Q := fun r s => Kept c o k s ∧ ∀ e, r = some e → (s.cpus c).cpuEnv = some e)
      (.gets fun s hs => ⟨hs.1, fun e he => (curRunning_some he).1⟩) fun cur => ?_
    cases cur with
    | some e =>
      refine (kept_envRun e).pre fun s hs => ⟨hs.1, fun he => ?_⟩
      exact absurd (he ▸ hs.2 e rfl) hs.1.cur
    | none => exact kept_schedHalt.pre fun s hs => hs.1

end Scheduler
section Syscalls

variable {k : Kern} {c : ℕ} {e o : EnvIdx} {E : Kern → Prop}

theorem kept_envDestroy (hne : e ≠ o) :
    Triple (Guarded c o k) (envDestroy c e) (fun _ => Kept c o k) (Untouched o k) := by
  refine .bind (.gets_same _) fun elsewhere => .ite_same (.modify fun s hs => hs.setEnv hne _) ?_
  refine .bind (Q := fun _ => Kept c o k) (.of_ret (stays_envFree e) fun s _ s' hs h =>
    hs.envFree hne h) fun _ => .bind (.gets_same _) fun current => .ite_same ?_ (.pure fun _ h => h)
  exact .bind (.modify (Q := fun _ => Kept c o k) fun s hs => hs.setCurenv_none) fun _ =>
    kept_schedYield.post fun _ _ h => h.elim

theorem kept_sysCputs (a len : Word) :
    Triple (Guarded c o k) (sysCputs c a len) (fun _ => Kept c o k) (Untouched o k) := by
  refine .bind (Q := fun cur s => Guarded c o k s ∧ cur ≠ o) (triple_curenv.post fun cur s hs => ?_)
    fun cur => ?_
  · refine ⟨hs.1, ?_⟩
    rintro rfl
    exact hs.1.cur hs.2
  refine .bind (Q := fun _ => Kept c o k) (.bind (keeps_envPgdir cur) fun g => ?_) fun _ => keeps_print cur len a
  refine .bind (Q := fun _ s => Guarded c o k s ∧ cur ≠ o)
    (.of_ret (Stays.zoom (stays_userMemCheckFrom _ _ _ _ _)) fun s r s' hs h => ?_) fun r => ?_
  · obtain ⟨t, ht, rfl⟩ := mem_eq_ret.mp h
    rw [userMemCheckFrom_ret ht]
    exact hs
  · cases r with
    | ok _ => exact .pure fun s hs => hs.1.toKept
    | error _ =>
      apply Triple.intro
      intro s hs
      exact (kept_envDestroy hs.2).run s hs.1

/-- The environments that a system call names with permission. -/
theorem guarded_envid2env (envid : Word) : Triple (Guarded c o k) (envid2env c envid true)
    (fun r s => Guarded c o k s ∧ ∀ e, r = .ok e → e ≠ o) E :=
  (triple_envid2env envid true).post fun _ _ hs => ⟨hs.1, fun e he => hs.1.names envid e (hs.2 e he)⟩

theorem kept_sysEnvDestroy (envid : Word) :
    Triple (Guarded c o k) (sysEnvDestroy c envid) (fun _ => Kept c o k) (Untouched o k) := by
  refine .bind (guarded_envid2env envid) fun r => ?_
  cases r with
  | error _ => exact .pure fun _ hs => hs.1.toKept
  | ok e =>
    apply Triple.intro
    intro s hs
    exact (Triple.bind (kept_envDestroy (hs.2 e rfl)) fun _ =>
      .pure (Q := fun _ => Kept c o k) fun _ h => h).run s hs.1

theorem kept_sysExofork : Triple (Guarded c o k) (sysExofork c) (fun _ => Kept c o k) E := by
  refine .bind keeps_curenv fun cur => .bind (.gets_same _) fun curId => ?_
  refine .bind (Q := fun r s => Kept c o k s ∧ ∀ e, r = .ok e → e ≠ o)
    (.of_ret (stays_envAlloc curId) fun s r s' hs h => hs.envAlloc h) fun r => ?_
  cases r with
  | error _ => exact .pure fun _ hs => hs.1
  | ok e =>
    refine .bind (.modify (Q := fun _ s => Kept c o k s ∧ e ≠ o) fun s hs =>
      ⟨hs.1.setEnv (hs.2 e rfl) _, hs.2 e rfl⟩) fun _ => ?_
    exact .bind (.modify (Q := fun _ => Kept c o k) fun s hs => hs.1.setEnv hs.2 _) fun _ =>
      .bind (.gets_same _) fun id => .pure fun _ h => h

theorem kept_sysEnvSetStatus (envid status : Word) :
    Triple (Guarded c o k) (sysEnvSetStatus c envid status) (fun _ => Kept c o k) E := by
  unfold sysEnvSetStatus
  cases settableStatus status with
  | none => exact .pure fun _ hs => hs.toKept
  | some st =>
    refine .bind (guarded_envid2env envid) fun r => ?_
    cases r with
    | error _ => exact .pure fun _ hs => hs.1.toKept
    | ok e =>
      exact .bind (.modify (Q := fun _ => Kept c o k) fun s hs => hs.1.setEnv (hs.2 e rfl) _) fun _ =>
        .pure fun _ h => h

theorem kept_sysEnvSetPgfaultUpcall (envid func : Word) :
    Triple (Guarded c o k) (sysEnvSetPgfaultUpcall c envid func) (fun _ => Kept c o k) E := by
  refine .bind (guarded_envid2env envid) fun r => ?_
  cases r with
  | error _ => exact .pure fun _ hs => hs.1.toKept
  | ok e =>
    exact .bind (.modify (Q := fun _ => Kept c o k) fun s hs => hs.1.setEnv (hs.2 e rfl) _) fun _ =>
      .pure fun _ h => h

/-- A page is mapped in the address space of another environment than `o`. -/
theorem kept_pageInsert {g pp : ℕ} {va perm : Word} (hva : va < utop) :
    Triple (fun s => (Guarded c o k s ∧ e ≠ o) ∧ s.dirs e = some g) (mem (pageInsert g pp va perm))
      (fun _ => Kept c o k) E :=
  .of_ret (Stays.zoom (stays_pageInsert _ _ _ _)) fun s r s' hs h => by
    obtain ⟨t, ht, rfl⟩ := mem_eq_ret.mp h
    exact hs.1.1.pageInsert hs.2 hs.1.2 hva ht

theorem kept_sysPageAlloc (envid va perm : Word) :
    Triple (Guarded c o k) (sysPageAlloc c envid va perm) (fun _ => Kept c o k) E := by
  refine .bind (guarded_envid2env envid) fun r => ?_
  cases r with
  | error _ => exact .pure fun _ hs => hs.1.toKept
  | ok e =>
    refine .ite_cases (fun hargs => ?_) fun _ => .pure fun _ hs => hs.1.toKept
    refine .bind (Q := fun _ s => Guarded c o k s ∧ e ≠ o)
      (.of_ret (Stays.zoom stays_pageAlloc) fun s r s' hs h => ?_) fun r => ?_
    · obtain ⟨t, ht, rfl⟩ := mem_eq_ret.mp h
      exact ⟨hs.1.pageAlloc ht, hs.2 e rfl⟩
    cases r with
    | none => exact .pure fun _ hs => hs.1.toKept
    | some page =>
      refine .bind (triple_envPgdir e) fun g => .bind (kept_pageInsert hargs.2.1) fun r => ?_
      cases r with
      | ok _ => exact .pure fun _ h => h
      | error _ =>
        refine .bind (Q := fun _ => Kept c o k) (.of_ret (Stays.zoom (stays_pageFree page))
          fun s _ s' hs h => ?_) fun _ => .pure fun _ h => h
        obtain ⟨t, ht, rfl⟩ := mem_eq_ret.mp h
        apply hs.setMem
        intro g p _ _
        unfold pageFree at ht
        split_ifs at ht
        rw [← (Outcome.ret.inj ht).2]
        rfl

theorem kept_sysPageMap (srcenvid srcva dstenvid dstva perm : Word) :
    Triple (Guarded c o k) (sysPageMap c srcenvid srcva dstenvid dstva perm)
      (fun _ => Kept c o k) E := by
  refine .bind (guarded_envid2env srcenvid) fun r => ?_
  cases r with
  | error _ => exact .pure fun _ hs => hs.1.toKept
  | ok src =>
    refine .bind ((guarded_envid2env dstenvid).pre fun _ hs => hs.1) fun r => ?_
    cases r with
    | error _ => exact .pure fun _ hs => hs.1.toKept
    | ok dst =>
      refine .ite_cases (fun hargs => ?_) fun _ => .pure fun _ hs => hs.1.toKept
      refine .bind (keeps_envPgdir src) fun gsrc => ?_
      refine .bind ((triple_pageLookup gsrc srcva).post (Q := fun _ s => Guarded c o k s ∧ dst ≠ o)
        fun _ s hs => ⟨hs.1.1, hs.1.2 dst rfl⟩) fun r => ?_
      rcases r with _ | ⟨page, pte⟩
      · exact .pure fun _ hs => hs.1.toKept
      refine .bind (.gets_same _) fun w => .ite_same (.pure fun _ hs => hs.1.toKept) ?_
      refine .bind (triple_envPgdir dst) fun gdst => .bind (kept_pageInsert hargs.2.2.1) fun r => ?_
      cases r <;> exact .pure fun _ h => h

theorem kept_sysPageUnmap (envid va : Word) :
    Triple (Guarded c o k) (sysPageUnmap c envid va) (fun _ => Kept c o k) E := by
  refine .bind (guarded_envid2env envid) fun r => ?_
  cases r with
  | error _ => exact .pure fun _ hs => hs.1.toKept
  | ok e =>
    refine .ite (.bind (triple_envPgdir e) fun g => ?_) (.pure fun _ hs => hs.1.1.toKept)
    refine .bind (Q := fun _ => Kept c o k) (.of_ret (Stays.zoom (stays_pageRemove g va))
      fun s _ s' hs h => ?_) fun _ => .pure fun _ h => h
    obtain ⟨t, ht, rfl⟩ := mem_eq_ret.mp h
    obtain ⟨⟨⟨hk, hne⟩, hva⟩, hg⟩ := hs
    exact hk.pageRemove hg (hne e rfl) hva.1 ht

/-- A message to an environment that does not wait for one is refused. -/
theorem kept_sysIpcTrySend (envid value srcva perm : Word) :
    Triple (fun s => Guarded c o k s ∧ ∀ e, Names s c envid false e → (s.envs e).envIpcRecving = false)
      (sysIpcTrySend c envid value srcva perm) (fun _ => Kept c o k) E := by
  refine .bind (triple_envid2env envid false) fun r => ?_
  cases r with
  | error _ => exact .pure fun _ hs => hs.1.1.toKept
  | ok e =>
    refine .bind (Q := fun r s => Guarded c o k s ∧ r = false) (.gets fun s hs =>
      ⟨hs.1.1, hs.1.2 e (hs.2 e rfl)⟩) fun recving => ?_
    cases recving with
    | false => exact .pure fun _ hs => hs.1.toKept
    | true =>
      apply Triple.intro
      intro s hs
      cases hs.2

theorem kept_sysIpcRecv (dstva : Word) :
    Triple (Guarded c o k) (sysIpcRecv c dstva) (fun _ => Kept c o k) (Untouched o k) := by
  refine .ite_same (.pure fun _ hs => hs.toKept) (.bind triple_curenv fun cur => ?_)
  refine .bind (.modify (Q := fun _ => Kept c o k) fun s hs => ?_) fun _ =>
    .bind kept_schedYield fun _ => .pure fun _ h => h.elim
  apply hs.1.setEnv
  rintro rfl
  exact hs.1.cur hs.2

/-- The call is a message to an environment that waits for one. -/
def SendsMail (k : Kern) (c : ℕ) (regs : PushRegs) : Prop :=
  regs.regEax = 12#32 ∧ ∃ e, Names k c regs.regEdx false e ∧ (k.envs e).envIpcRecving = true

theorem kept_syscall (cgetc : Word) (regs : PushRegs) :
    Triple (fun s => Guarded c o k s ∧ ¬ SendsMail s c regs)
      (syscall c cgetc regs.regEax regs.regEdx regs.regEcx regs.regEbx regs.regEdi regs.regEsi)
      (fun _ => Kept c o k) (Untouched o k) := by
  unfold syscall
  split
  case h_1 => exact .bind ((kept_sysCputs _ _).pre fun _ h => h.1) fun _ => .pure fun _ h => h
  case h_2 => exact .pure fun _ h => h.1.toKept
  case h_3 =>
    exact .bind keeps_curenv fun _ => .bind (.gets_same _) fun _ => .pure fun _ h => h.1.toKept
  case h_4 => exact (kept_sysEnvDestroy _).pre fun _ h => h.1
  case h_5 => exact (kept_sysPageAlloc _ _ _).pre fun _ h => h.1
  case h_6 => exact (kept_sysPageMap _ _ _ _ _).pre fun _ h => h.1
  case h_7 => exact (kept_sysPageUnmap _ _).pre fun _ h => h.1
  case h_8 => exact kept_sysExofork.pre fun _ h => h.1
  case h_9 => exact (kept_sysEnvSetStatus _ _).pre fun _ h => h.1
  case h_10 => exact (kept_sysEnvSetPgfaultUpcall _ _).pre fun _ h => h.1
  case h_11 => exact .bind (kept_schedYield.pre fun _ h => h.1.toKept) fun _ => .pure fun _ h => h.elim
  case h_12 h =>
    have hno : regs.regEax = 12#32 := by
      rw [← BitVec.setWidth_eq regs.regEax, ← BitVec.ofNat_toNat, h]
    refine (kept_sysIpcTrySend _ _ _ _).pre fun s hs => ⟨hs.1, fun e hn => ?_⟩
    by_contra hr
    exact hs.2 ⟨hno, e, hn, by simpa using hr⟩
  case h_13 => exact (kept_sysIpcRecv _).pre fun _ h => h.1
  case h_14 => exact .pure fun _ h => h.1.toKept

end Syscalls

/-- The environment `cur` on the CPU `c` shares nothing with the environment `o`, which is
alive and not a child of it. -/
structure Stranger (k : Kern) (c : ℕ) (cur o : EnvIdx) : Prop where
  cpu : (k.cpus c).cpuEnv = some cur
  ne : o ≠ cur
  alive : k.status o ≠ .free
  parent : (k.envs o).envParentId ≠ (k.envs cur).envId

/-- A step in which no CPU meddles with another one, and no system call slips. -/
def CleanStep (k k' : Kern) : Prop := ∃ ev, Step k ev k' ∧ ¬ ev.Meddles k ∧ ¬ ev.Slips k

section System

variable {k k' s : Kern} {c : ℕ} {cur o : EnvIdx} {inp : TrapInput}

theorem CleanStep.quiet (h : CleanStep k k') : QuietStep k k' := by
  obtain ⟨ev, hs, hm, -⟩ := h
  exact ⟨ev, hs, hm⟩

theorem CleanStep.sound (h : CleanStep k k') : SoundStep k k' := by
  obtain ⟨ev, hs, -, hl⟩ := h
  exact ⟨ev, hs, hl⟩

/-- The identifiers that the caller may use are its own and those of its children. -/
theorem Stranger.not_named {envid : Word} {e : EnvIdx} (ho : Stranger k c cur o)
    (hn : Names k c envid true e) : e ≠ o := by
  rintro rfl
  rcases hn with ⟨-, hc⟩ | ⟨-, -, -, -, hp⟩
  · exact ho.ne (Option.some.inj (hc.symm.trans ho.cpu))
  · obtain ⟨cur', hc, hcase⟩ := hp rfl
    obtain rfl := Option.some.inj (hc.symm.trans ho.cpu)
    rcases hcase with hcur | hpar
    · exact ho.ne hcur
    · exact ho.parent hpar

theorem Entered.guarded (h : Entered c k s) (hm : MemOk k) (hf : ∃ l, FreeEnvs k l)
    (ho : Stranger k c cur o) : Guarded c o k s := by
  have hcur : (k.cpus c).cpuEnv ≠ some o := by
    rw [ho.cpu]
    exact fun hc => ho.ne (Option.some.inj hc).symm
  refine ⟨⟨⟨h.envs o hcur, fun g p _ _ => ?_⟩, ?_⟩, (hm.congr h.call.space).inv,
    fun envid e hn => ho.not_named (h.call.names hn), fun e he => ?_⟩
  · rw [h.call.space.mem]
  · rw [h.call.cpuEnv]
    exact hcur
  · -- the environments in the list are free
    obtain ⟨l, hc, -, hfree⟩ := hf
    rw [h.call.space.freeList] at he
    rintro rfl
    apply ho.alive
    cases l with
    | nil => cases hc.symm.trans he
    | cons i l =>
      obtain rfl := Option.some.inj (hc.1.symm.trans he)
      exact hfree _ List.mem_cons_self

theorem kept_reap (hne : cur ≠ o) :
    Triple (Guarded c o k) (reap c cur) (fun _ _ => False) (Untouched o k) := by
  refine .bind (Q := fun _ => Kept c o k) (.of_ret (stays_envFree cur) fun s _ s' hs h =>
    hs.envFree hne h) fun _ => ?_
  exact .bind (.modify (Q := fun _ => Kept c o k) fun s hs => hs.setCurenv_none) fun _ =>
    kept_schedYield

theorem kept_trapDispatch (hsys : inp.tf.tfTrapno = 48#32) :
    Triple (fun s => Guarded c o k s ∧ ¬ SendsMail s c inp.tf.tfRegs) (trapDispatch c inp)
      (fun _ => Kept c o k) (Untouched o k) := by
  have hno : inp.tf.tfTrapno.toNat = 48 := by
    rw [hsys]
    rfl
  unfold trapDispatch
  simp only [hno]
  refine .bind (Q := fun cur s => (Guarded c o k s ∧ ¬ SendsMail s c inp.tf.tfRegs) ∧ cur ≠ o)
    (triple_curenv.post fun cur s hs => ⟨hs.1, ?_⟩) fun cur => ?_
  · rintro rfl
    exact hs.1.1.cur hs.2
  apply Triple.intro
  intro s hs
  exact (Triple.bind (kept_syscall inp.cgetc inp.tf.tfRegs) fun r =>
    .modify (Q := fun _ => Kept c o k) fun s hs' => hs'.setEnv hs.2 _).run s hs.1

/-- A system call of `cur`, from its trap to the return to user code. -/
theorem untouched_trap (hm : MemOk k) (hf : ∃ l, FreeEnvs k l) (ho : Stranger k c cur o)
    (hsys : inp.tf.tfTrapno = 48#32) (hsend : ¬ SendsMail k c inp.tf.tfRegs) :
    Triple (fun s => s = k) (trap c inp) (fun _ _ => False) (Untouched o k) := by
  refine Entered.trap (Q := Kept c o k) (fun cur' hc _ => ?_) ?_ (fun e => ?_) kept_schedYield
  · have hne : cur' ≠ o := fun h => ho.ne (h.symm.trans (Option.some.inj (hc.symm.trans ho.cpu)))
    exact (kept_reap hne).pre fun s hs => hs.guarded hm hf ho
  · refine (kept_trapDispatch hsys).pre fun s hs => ⟨hs.1.guarded hm hf ho, fun hmail => hsend ?_⟩
    obtain ⟨hno, e, hn, hr⟩ := hmail
    rw [(hs.1.call.env e).2.2.2.1] at hr
    exact ⟨hno, e, hs.1.call.names hn, hr⟩
  · refine (kept_envRun e).pre fun s hs => ⟨hs.1, fun he => ?_⟩
    exact absurd (he ▸ (curRunning_some hs.2).1) hs.1.cur

end System

section Runs

variable {k : Kern} {p q : EnvIdx} {st : EnvStatus} {cpu : CpuInfo} {g g' h h' pp : ℕ} {s t : Pm}

theorem FamilyStep.clean {k' : Kern} (hk : FamilyStep k k') : CleanStep k k' := by
  obtain ⟨ev, hs, hm, hno⟩ := hk
  refine ⟨ev, hs, hm, fun hl => ?_⟩
  cases ev with
  | trap c inp =>
    obtain ⟨-, -, ⟨h5, -⟩ | ⟨h6, -⟩ | ⟨h12, -⟩⟩ := hl
    · rcases hno c inp rfl with h | ⟨h, -⟩ <;> exact absurd (h.symm.trans h5) (by decide)
    · rcases hno c inp rfl with h | ⟨h, -⟩ <;> exact absurd (h.symm.trans h6) (by decide)
    · rcases hno c inp rfl with h | ⟨h, -⟩ <;> exact absurd (h.symm.trans h12) (by decide)
  | start c => exact hl
  | store c va b => exact hl

/-- The child runs on the CPU 1. -/
theorem Pair.childCaller (hp : Pair k p q .running ⟨.started, some q, true⟩ g g') :
    Caller k 1 q g' := ⟨hp.cpu, hp.caller.lock, hp.child, hp.childDir⟩

/-- A state in which the environments `p` and `q` run on two CPUs, and `p` has no parent. -/
structure Strangers (k : Kern) (g g' : ℕ) : Prop where
  pair : Pair k 0 1 .running ⟨.started, some 1, true⟩ g g'
  parent : (k.envs 0).envParentId = 0#32

theorem Strangers.after {k' : Kern} (hk : Strangers k g g') (hs : SameCore { k with mem := t } k') :
    Strangers k' g g' ∧ k'.mem = t := by
  refine ⟨⟨(hk.pair.setMem t).congr hs, ?_⟩, hs.mem⟩
  rw [hs.parent]
  exact hk.parent

theorem Strangers.stranger (hk : Strangers k g g') : Stranger k 1 1 0 := by
  refine ⟨?_, by decide, ?_, ?_⟩
  · rw [hk.pair.cpu]
  · rw [hk.pair.caller.running]
    decide
  · rw [hk.parent]
    exact hk.pair.id.1.symm

/-- A machine boots, and starts two such environments. -/
theorem strangers_booted : ∃ k g g', Reachable BootedFit FamilyStep k ∧ Strangers k g g' ∧
    MemInv k.mem k.dirs 0 ∧ k.mem.Supply 7 ∧
    ∀ d < 954, k.mem.word g d = 0#32 ∧ k.mem.word g' d = 0#32 := by
  obtain ⟨k, g, g', hk, hp, hinv, hsup, hz, hpar⟩ := pair_booted
  exact ⟨k, g, g', hk, ⟨hp, hpar⟩, hinv, hsup, hz⟩

/-- Two page directories whose first entries lead to two page tables, while page 0, which
is none of the four, is free and will be handed out next. -/
structure ZeroNext (s : Pm) (g h g' h' : ℕ) : Prop where
  npages_le : s.npages ≤ 2^20
  list : s.pageFreeList = some 0
  ref : (s.pages 0).ppRef = 0
  table : s.word g 0 = pdeOf h
  bound : h < s.npages
  table' : s.word g' 0 = pdeOf h'
  bound' : h' < s.npages
  apart : g ≠ 0 ∧ g' ≠ 0 ∧ g' ≠ g ∧ h' ≠ 0 ∧ h' ≠ g

/-- Page 0 becomes a page table of `g`, is freed through `g'`, and is handed out again:
what the page table mapped is lost. -/
theorem ZeroNext.lost_run (hs : ZeroNext s g h g' h') (hpp : pp < s.npages) (hpp0 : pp ≠ 0)
    (hpte : s.word h 0 = pteOf pp 7#32) (hnew : s.word g 1 = 0#32)
    (hempty : s.word h' 3 = 0#32 ∧ s.word h' 4 = 0#32) : ∃ s₁ s₂ s₃,
      pageLookup g 0#32 s = .ret (some (pp, ⟨h, 0⟩)) s ∧
      pageInsert g pp 0x400000#32 5#32 s = .ret (.ok ()) s₁ ∧
      pageRemove g' 0x3000#32 s₁ = .ret () s₂ ∧ pageAlloc s₂ = .ret (some 0) (s₂.taken 0) ∧
      pageInsert g' 0 0x4000#32 7#32 (s₂.taken 0) = .ret (.ok ()) s₃ ∧
      s₂.pteAt g 0x400000#32 ≠ s₃.pteAt g 0x400000#32 := by
  obtain ⟨hg0, hg'0, hgg, hh'0, hh'g⟩ := hs.apart
  have hpos : 0 < s.npages := lt_of_le_of_lt (Nat.zero_le h) hs.bound
  have hppn : pgnum (pteOf pp 7#32) = pp := pgnum_pteOf (lt_of_lt_of_le hpp hs.npages_le) (by decide)
  -- `page_map`: the page of the first entry, and page 0 for a page table
  have hlook : pageLookup g 0#32 s = .ret (some (pp, ⟨h, 0⟩)) s := by
    have hw : pgdirWalk g 0#32 false s = _ := pgdirWalk_pde hs.table hs.bound hs.npages_le false
    have hl := pageLookup_table hw (show pgnum (s.word h 0) < s.npages by
      rw [hpte, hppn]
      exact hpp)
    rwa [show pgnum (s.word h (ptx 0#32)) = pp from (congrArg pgnum hpte).trans hppn] at hl
  obtain ⟨s₁, hs₁⟩ : ∃ s₁, s₁ = ((s.newTable g 1 0).incRef pp).setWord 0 0 (pteOf pp 5#32) := ⟨_, rfl⟩
  have hwalk : pgdirWalk g 0x400000#32 true s = _ :=
    pgdirWalk_new hnew (pageAlloc_some hs.list hpos hs.npages_le) hpos hs.npages_le
  have hins : pageInsert g pp 0x400000#32 5#32 s = .ret (.ok ()) s₁ := by
    rw [hs₁]
    refine pageInsert_empty hwalk ?_
    change (s.newTable g 1 0).word 0 0 = 0#32
    rw [Pm.newTable, setWord_word_ne hg0.symm]
    change (s.taken 0).word 0 0 = 0#32
    rw [taken_word_self]
  have hw₁ (i : ℕ) (hi0 : i ≠ 0) (hig : i ≠ g) : s₁.word i = s.word i := by
    rw [hs₁, setWord_word_ne hi0]
    exact newTable_word_ne hig hi0
  have hg₁ : s₁.word g 1 = pdeOf 0 := by
    rw [hs₁, setWord_word_ne hg0]
    change (s.newTable g 1 0).word g 1 = _
    rw [Pm.newTable, setWord_word_self, if_pos rfl]
  have h₁ : s₁.word 0 0 = pteOf pp 5#32 := by
    rw [hs₁, setWord_word_self, if_pos rfl]
  have hpages : s₁.pages 0 = { ppRef := 1, ppLink := none } := by
    rw [hs₁]
    change ((s.newTable g 1 0).incRef pp).pages 0 = _
    rw [Pm.incRef, setRef_pages, if_neg hpp0.symm]
    change ((s.taken 0).incRef 0).pages 0 = _
    simp only [Pm.incRef, setRef_pages, Pm.taken, Pm.clear, setLink_pages, if_true, hs.ref]
    rfl
  -- `page_unmap` through the other directory frees the page table
  have hn₁ : s₁.npages = s.npages := by
    rw [hs₁]
    rfl
  have htab₁ : s₁.word g' 0 = pdeOf h' := by
    rw [hw₁ g' hg'0 hgg, hs.table']
  have he₁ (i : ℕ) (hi : s.word h' i = 0#32) : s₁.word h' i = 0#32 := by
    rw [hw₁ h' hh'0 hh'g, hi]
  obtain ⟨s₂, hrem, hfree, hw₂, hn₂, -⟩ := pageRemove_zero 0x3000#32 htab₁ (hn₁ ▸ hs.bound')
    (hn₁ ▸ hs.npages_le) (he₁ 3 hempty.1) (hpages ▸ rfl) (hpages ▸ rfl)
  -- `page_alloc` hands it out again, cleared
  have hnp₂ : s₂.npages = s.npages := hn₂.trans hn₁
  have halloc : pageAlloc s₂ = .ret (some 0) (s₂.taken 0) :=
    pageAlloc_some hfree (hnp₂ ▸ hpos) (hnp₂ ▸ hs.npages_le)
  have hw₃ (i : ℕ) (hi : i ≠ 0) : (s₂.taken 0).word i = s₁.word i := by
    rw [taken_word_ne hi, hw₂]
  have htab₃ : (s₂.taken 0).word g' 0 = pdeOf h' := by
    rw [hw₃ g' hg'0, htab₁]
  have hwalk₃ : pgdirWalk g' 0x4000#32 true (s₂.taken 0) = .ret (some ⟨h', 4⟩) (s₂.taken 0) := by
    apply pgdirWalk_pde htab₃
    · change h' < s₂.npages
      rw [hnp₂]
      exact hs.bound'
    · change s₂.npages ≤ 2^20
      rw [hnp₂]
      exact hs.npages_le
  obtain ⟨s₃, hs₃⟩ : ∃ s₃, s₃ = ((s₂.taken 0).incRef 0).setWord h' 4 (pteOf 0 7#32) := ⟨_, rfl⟩
  have hins₃ : pageInsert g' 0 0x4000#32 7#32 (s₂.taken 0) = .ret (.ok ()) s₃ := by
    rw [hs₃]
    exact pageInsert_empty hwalk₃ (show (s₂.taken 0).word h' 4 = 0#32 by
      rw [hw₃ h' hh'0, he₁ 4 hempty.2])
  refine ⟨s₁, s₂, s₃, hlook, hins, hrem, halloc, hins₃, ?_⟩
  have hg₃ : s₃.word g 1 = pdeOf 0 := by
    rw [hs₃, setWord_word_ne hh'g.symm]
    exact (congrFun (hw₃ g hg0) 1).trans hg₁
  have h₃ : s₃.word 0 0 = 0#32 := by
    rw [hs₃, setWord_word_ne hh'0.symm]
    change (s₂.taken 0).word 0 0 = 0#32
    rw [taken_word_self]
  have h0 : (0 : ℕ) < 2^20 := by decide
  have hat₂ : s₂.pteAt g 0x400000#32 = some (s₂.word 0 0) := pteAt_of_pde (hw₂ ▸ hg₁) h0
  have hat₃ : s₃.pteAt g 0x400000#32 = some (s₃.word 0 0) := pteAt_of_pde hg₃ h0
  rw [hat₂, hat₃]
  intro heq
  replace heq : s₂.word 0 0 = s₃.word 0 0 := Option.some.inj heq
  rw [hw₂, h₁, h₃] at heq
  exact ne_zero_of_has_pteP (has_pteP_pteOf pp 5#32) heq

/-- In every run of clean steps, the next system call, whichever it is and whether it
succeeds or not, leaves the environments that are not the caller or a child of it as
they are, unless it sends a message to one that waits for it. -/
theorem isolation (h : Reachable BootedFit CleanStep k) (hx : Executing k c cur) (ho : o ≠ cur)
    (halive : k.status o ≠ .free) (hparent : (k.envs o).envParentId ≠ (k.envs cur).envId)
    (hsys : inp.tf.tfTrapno = 48#32) (hsend : ¬ SendsMail k c inp.tf.tfRegs)
    (hstep : Step k (.trap c inp) k') : Untouched o k k' := by
  have hm := memOk_of_reachable (h.mono (fun _ hk => hk) fun _ _ => CleanStep.sound)
  have hrest := atRest_of_reachable (h.mono (fun _ => BootedFit.booted) fun _ _ => CleanStep.quiet)
  cases hstep with
  | trap _ hrun => exact (untouched_trap hm hrest.free ⟨hx.2, ho, halive, hparent⟩ hsys hsend).left rfl hrun

theorem isolation_booted : ∃ k k' inp g', Reachable BootedFit CleanStep k ∧ Executing k 1 1 ∧
    Step k (.trap 1 inp) k' ∧ k.dirs 1 = some g' ∧ k.mem.pteAt g' 0#32 = none ∧
    k'.mem.pteAt g' 0#32 ≠ none ∧ Untouched 0 k k' := by
  obtain ⟨k, g, g', hk, hst, hinv, hsup, hz⟩ := strangers_booted
  have hx := hst.pair.childCaller.executing
  obtain ⟨pp, h, s, halloc, hins, hinv₁, -, hnew⟩ := hinv.mapNew_run hst.pair.childDir
    (by decide : pdx 0#32 < userPdes) (by decide : (7#32 : Word).toNat < 4096)
    (hz _ (by decide)).2 hsup
  obtain ⟨k', h', hs⟩ := hst.pair.childCaller.mem_run (t := s) 4#32 0#32 0#32 7#32 0#32 0#32
    fun k' hk' hcur hdir => sysPageAlloc_run hcur hdir (by decide) (hk' ▸ halloc) hins
  have hclean : Reachable BootedFit CleanStep k := hk.mono (fun _ h => h) fun _ _ h => h.clean
  have ho := hst.stranger
  refine ⟨k, k', _, g', hclean, hx, h', hst.pair.childDir, ?_, ?_, isolation hclean hx ho.ne ho.alive
    ho.parent rfl (fun hm => absurd hm.1 (by decide)) h'⟩
  · exact if_pos (hz _ (by decide)).2
  · rw [hs.mem, pteAt_of_pde hnew.pde (lt_of_lt_of_le hnew.table hinv₁.npages_le)]
    exact Option.some_ne_none _

/-- The child of `free_page_mapped` on the second CPU: after its parent has got page 0
for a page table, it frees that page and is given it. -/
theorem isolation_broken : ∃ k k' inp, Reachable BootedFit AnyStep k ∧ Executing k 1 1 ∧
    Stranger k 1 1 0 ∧ inp.tf.tfTrapno = 48#32 ∧ ¬ SendsMail k 1 inp.tf.tfRegs ∧
    Step k (.trap 1 inp) k' ∧ ¬ Untouched 0 k k' := by
  obtain ⟨k, g, g', hk, hst, hinv, hsup, hz⟩ := strangers_booted
  have hd0 : pdx 0#32 < userPdes := by decide
  have hperm : (7#32 : Word).toNat < 4096 := by decide
  have hdir := hst.pair.caller.dir
  have hdir' := hst.pair.childDir
  -- both map a page at 0
  obtain ⟨pp, h, s₁, halloc₁, hins₁, hinv₁, hsup₁, hnew₁⟩ :=
    hinv.mapNew_run hdir hd0 hperm (hz _ (by decide)).1 hsup
  obtain ⟨k₁, h₁, hs₁⟩ := hst.pair.caller.mem_run (t := s₁) 4#32 0#32 0#32 7#32 0#32 0#32
    fun k' hk' hcur hdir => sysPageAlloc_run hcur hdir (by decide) (hk' ▸ halloc₁) hins₁
  obtain ⟨hst₁, hm₁⟩ := hst.after hs₁
  have hgg : g' ≠ g := fun hgg => (hinv.tableOf_apart hdir (k.mem.tableOf_dir g)).2 1 g' hdir'
    (by decide) (hgg ▸ k.mem.tableOf_dir g)
  have hz' : s₁.word g' (pdx 0#32) = 0#32 := by
    rw [hnew₁.frame g' hgg (hinv.tableOf_apart hdir' (k.mem.tableOf_dir g')).1]
    exact (hz _ (by decide)).2
  obtain ⟨pp', h', s₂, halloc₂, hins₂, hinv₂, ⟨l, hl, -, hl0, href⟩, hnew₂⟩ :=
    hinv₁.mapNew_run hdir' hd0 hperm hz' hsup₁
  obtain ⟨k₂, h₂, hs₂⟩ := hst₁.pair.childCaller.mem_run (t := s₂) 4#32 0#32 0#32 7#32 0#32 0#32
    fun k' hk' hcur hdir => sysPageAlloc_run hcur hdir (by decide) ((hk'.trans hm₁).symm ▸ halloc₂) hins₂
  obtain ⟨hst₂, hm₂⟩ := hst₁.after hs₂
  -- the child frees page 0
  have hh'g' := hnew₂.table_ne hinv₂ hdir' hd0
  obtain ⟨s₃, s₄, hlook₃, hins₃, hrem₄, hlist, href₄, hn₄, hw₄⟩ := freeZero_run hnew₂.pde
    hinv₂.npages_le hnew₂.table hh'g'.symm hnew₂.blank (hl.unlinked 0 hl0) href
  obtain ⟨k₃, h₃, hs₃⟩ := hst₂.pair.childCaller.mem_run (t := s₃) 5#32 0#32 0x1000#32 0#32
    0x2000#32 5#32 fun k' hk' hcur hdir => sysPageMap_self hcur hdir (by decide) (by decide)
      ((hk'.trans hm₂).symm ▸ hlook₃) ((hk'.trans hm₂).symm ▸ hins₃)
  obtain ⟨hst₃, hm₃⟩ := hst₂.after hs₃
  obtain ⟨k₄, h₄, hs₄⟩ := hst₃.pair.childCaller.mem_run (t := s₄) 6#32 0#32 0x3000#32 0#32 0#32
    0#32 fun k' hk' hcur hdir => sysPageUnmap_run hcur hdir (by decide) ((hk'.trans hm₃).symm ▸ hrem₄)
  obtain ⟨hst₄, hm₄⟩ := hst₃.after hs₄
  -- the five pages are different ones
  have htab₁ : s₁.TableOf g h := Or.inr ⟨0, by decide, hnew₁.pde_ne, hnew₁.pgnum_pde hinv₁.npages_le⟩
  have hapart₁ := hinv₁.tableOf_apart hdir htab₁
  have hhg' : h ≠ g' := fun hh => hapart₁.2 1 g' hdir' (by decide) (Or.inl hh)
  have hwg : s₂.word g = s₁.word g :=
    hnew₂.frame g hgg.symm (hinv₁.tableOf_apart hdir (s₁.tableOf_dir g)).1
  have hwh : s₂.word h = s₁.word h := hnew₂.frame h hhg' hapart₁.1
  have htab₂ : s₂.TableOf g h := htab₁.congr hwg.symm
  have htab' : s₂.TableOf g' h' := Or.inr ⟨0, by decide, hnew₂.pde_ne, hnew₂.pgnum_pde hinv₂.npages_le⟩
  have hapart' := (hinv₂.tableOf_apart hdir' htab').2 0 g hdir (by decide)
  have hzero (e : EnvIdx) (d p : ℕ) (hd : k.dirs e = some d) (hp : s₂.TableOf d p) : p ≠ 0 := by
    rintro rfl
    obtain ⟨i, -, -, hi⟩ := hinv₂.tableOf_slot hd hp
    exact hinv₂.refs_eq_zero href i hi
  have hh'g : h' ≠ g := fun hh => hapart' (Or.inl hh)
  have hh'h : h' ≠ h := fun hh => hapart' (hh ▸ htab₂)
  have hw (p i : ℕ) (hp : p ≠ h') : s₄.word p i = s₂.word p i := by
    rw [hw₄, setWord_word_ne hp]
  have hpage : pp < s₂.npages := hnew₂.npages ▸ hnew₁.page
  have hpte₂ : s₂.word h 0 = pteOf pp 7#32 := by
    rw [hwh]
    exact hnew₁.entry
  have hpp0 : pp ≠ 0 := by
    rintro rfl
    obtain ⟨l₁, -, -, -, href₁⟩ := hsup₁
    exact hnew₁.ref_ne hinv₁ hdir hd0 hperm href₁
  have hnext : ZeroNext s₄ g h g' h' := by
    refine ⟨hn₄ ▸ hinv₂.npages_le, hlist, href₄, ?_, ?_, ?_, hn₄ ▸ hnew₂.table,
      hzero 0 g g hdir (s₂.tableOf_dir g), hzero 1 g' g' hdir' (s₂.tableOf_dir g'), hgg,
      hzero 1 g' h' hdir' htab', hh'g⟩
    · rw [hw g 0 hh'g.symm, hwg]
      exact hnew₁.pde
    · rw [hn₄, hnew₂.npages]
      exact hnew₁.table
    · rw [hw g' 0 hh'g'.symm]
      exact hnew₂.pde
  have hg₁ : s₄.word g 1 = 0#32 := by
    rw [hw g 1 hh'g.symm, hwg, hnew₁.dir 1 (by decide)]
    exact (hz 1 (by decide)).1
  have hempty (i : ℕ) (hi : i ≠ 0) (hi2 : i ≠ 2) : s₄.word h' i = 0#32 := by
    rw [hw₄, setWord_word_self, if_neg hi2]
    exact hnew₂.blank i hi
  obtain ⟨s₅, s₆, s₇, hlook₅, hins₅, hrem₆, halloc₇, hins₇, hlost⟩ := hnext.lost_run
    (hn₄ ▸ hpage) hpp0 ((hw h 0 hh'h.symm).trans hpte₂) hg₁
    ⟨hempty 3 (by decide) (by decide), hempty 4 (by decide) (by decide)⟩
  obtain ⟨k₅, h₅, hs₅⟩ := hst₄.pair.caller.mem_run (t := s₅) 5#32 0#32 0#32 0#32 0x400000#32 5#32
    fun k' hk' hcur hdir => sysPageMap_self hcur hdir (by decide) (by decide)
      ((hk'.trans hm₄).symm ▸ hlook₅) ((hk'.trans hm₄).symm ▸ hins₅)
  obtain ⟨hst₅, hm₅⟩ := hst₄.after hs₅
  obtain ⟨k₆, h₆, hs₆⟩ := hst₅.pair.childCaller.mem_run (t := s₆) 6#32 0#32 0x3000#32 0#32 0#32
    0#32 fun k' hk' hcur hdir => sysPageUnmap_run hcur hdir (by decide) ((hk'.trans hm₅).symm ▸ hrem₆)
  obtain ⟨hst₆, hm₆⟩ := hst₅.after hs₆
  obtain ⟨k₇, h₇, hs₇⟩ := hst₆.pair.childCaller.mem_run (t := s₇) 4#32 0#32 0x4000#32 7#32 0#32
    0#32 fun k' hk' hcur hdir => sysPageAlloc_run hcur hdir (by decide)
      ((hk'.trans hm₆).symm ▸ halloc₇) hins₇
  have hany : Reachable BootedFit AnyStep k := hk.mono (fun _ h => h) fun _ _ h => h.any
  refine ⟨k₆, k₇, _, (((((hany.step ⟨_, h₁⟩).step ⟨_, h₂⟩).step ⟨_, h₃⟩).step ⟨_, h₄⟩).step
    ⟨_, h₅⟩).step ⟨_, h₆⟩, hst₆.pair.childCaller.executing, hst₆.stranger, rfl,
    fun hm => absurd hm.1 (by decide), h₇, fun hun => hlost ?_⟩
  have hmaps := (hun.maps g 0x400000#32 hst₆.pair.caller.dir (by decide)).2
  rw [hs₇.mem, hm₆] at hmaps
  exact hmaps.symm

end Runs
end Sisop
