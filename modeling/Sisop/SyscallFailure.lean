import Sisop.EnvIds
import Sisop.KernelPair
import Sisop.PageGrant
import Sisop.PageRange

/-! System calls that fail: what they leave of the state they found. -/
namespace Sisop

/-- Two states of the kernel that agree but for the contents of free pages. -/
def SameButFree (k k' : Kern) : Prop :=
  ∃ w, k' = { k with mem := { k.mem with word := w } } ∧ ∀ p, ¬ k.mem.IsFree p → w p = k.mem.word p

/-- When the call, made in the state `k`, returns a negative number, it has changed nothing. -/
def FailsClean (k : Kern) (call : Routine Kern SysRet) : Prop :=
  ∀ r k', call k = .ret r k' → (retWord r).toInt < 0 → SameButFree k k'

section Memory

variable {n g p : ℕ} {va perm : Word} {s s' : Pm}

/-- `page_alloc` hands out the head of the free list, whatever else is on it. -/
theorem PmInRange.pageAlloc_run (h : PmInRange n s) (hn : n ≤ 2^20) :
    pageAlloc s = .ret s.pageFreeList (s.pageFreeList.elim s s.taken) := by
  cases hf : s.pageFreeList with
  | none => exact pageAlloc_none hf
  | some p =>
    apply pageAlloc_some hf
    · rw [h.npages]
      exact h.head p hf
    · rw [h.npages]
      exact hn

theorem pageAlloc_fails (hr : pageAlloc s = .ret none s') : s.pageFreeList = none ∧ s' = s := by
  cases hf : s.pageFreeList with
  | none =>
    rw [pageAlloc_none hf] at hr
    exact ⟨rfl, (Outcome.ret.inj hr).2.symm⟩
  | some p =>
    simp only [pageAlloc, Routine.gets_bind_run, hf, Routine.modify_bind_run] at hr
    obtain ⟨q, t, -, h₁⟩ := Routine.bind_eq_ret.mp hr
    simp only [Routine.modify_bind_run, Routine.pure_run] at h₁
    cases (Outcome.ret.inj h₁).1

/-- `pgdir_walk` finds nothing when it cannot allocate a page table. -/
theorem pgdirWalk_fails (hr : pgdirWalk g va true s = .ret none s') :
    s.word g (pdx va) = 0#32 ∧ s.pageFreeList = none ∧ s' = s := by
  simp only [pgdirWalk, Routine.gets_bind_run, if_true, Routine.ite_run] at hr
  split_ifs at hr with hz
  · obtain ⟨o, t, ha, h₁⟩ := Routine.bind_eq_ret.mp hr
    cases o with
    | none =>
      obtain ⟨-, rfl⟩ := Outcome.ret.inj h₁
      exact ⟨hz, pageAlloc_fails ha⟩
    | some q =>
      simp only [Routine.modify_bind_run] at h₁
      obtain ⟨_, _, _, h₂⟩ := Routine.bind_eq_ret.mp h₁
      cases (Outcome.ret.inj h₂).1
  · obtain ⟨_, _, _, h₂⟩ := Routine.bind_eq_ret.mp hr
    cases (Outcome.ret.inj h₂).1

theorem pageInsert_fails {err : Err} (hr : pageInsert g p va perm s = .ret (.error err) s') :
    s.word g (pdx va) = 0#32 ∧ s.pageFreeList = none ∧ s' = s :=
  pgdirWalk_fails (pageInsert_error hr).2

theorem setupDir_fails (hr : setupDir s = .ret none s') : s' = s := by
  obtain ⟨o, t, ha, h₁⟩ := Routine.bind_eq_ret.mp hr
  cases o with
  | none =>
    obtain ⟨-, rfl⟩ := Outcome.ret.inj h₁
    exact (pageAlloc_fails ha).2
  | some p =>
    simp only [Routine.modify_bind_run] at h₁
    obtain ⟨_, _, _, h₂⟩ := Routine.bind_eq_ret.mp h₁
    cases (Outcome.ret.inj h₂).1

/-- A page that is taken from the free list and put back: the list is as it was,
and only the page has been cleared. -/
theorem pageFree_taken (hf : s.pageFreeList = some p) (hr : pageFree p (s.taken p) = .ret () s') :
    s' = { s with word := Function.update s.word p fun _ => 0#32 } := by
  unfold pageFree at hr
  split_ifs at hr
  obtain ⟨-, rfl⟩ := Outcome.ret.inj hr
  have hpages : Function.update s.pages p { s.pages p with ppLink := (s.pages p).ppLink } = s.pages :=
    Function.update_eq_self p s.pages
  simp only [Pm.taken, Pm.clear, Pm.setLink, Function.update_self, Function.update_idem]
  rw [hpages, ← hf]

theorem isFree_head (hf : s.pageFreeList = some p) : s.IsFree p := by
  unfold Pm.IsFree
  rw [hf]
  exact OnChain.here p

end Memory

section Calls

variable {n c : ℕ} {k k' : Kern} {e : EnvIdx} {perm va : Word}

theorem SameButFree.refl (k : Kern) : SameButFree k k := ⟨k.mem.word, rfl, fun _ _ => rfl⟩

theorem SameButFree.of_eq (h : k' = k) : SameButFree k k' := h ▸ SameButFree.refl k

theorem not_neg_zero {P : Prop} (h : (retWord (.ok 0#32)).toInt < 0) : P :=
  absurd h (by decide)

/-- Identifiers are positive whatever the slot held before. -/
theorem nextEnvId_pos (e : EnvIdx) (envId : Word) : 0 < (nextEnvId e envId).toInt := by
  have he : (e : ℕ) < 1024 := e.isLt
  obtain ⟨gen, hgen, hpos, hlow⟩ : ∃ gen : Word, nextEnvId e envId = gen ||| BitVec.ofNat 32 e ∧
      0 < gen.toInt ∧ gen.toNat % 1024 = 0 := by
    refine ⟨_, rfl, ?_, ?_⟩
    · split_ifs with h
      · decide
      · rw [BitVec.sle_iff_toInt_le] at h
        exact not_le.mp h
    · split_ifs
      · decide
      · rw [toNat_generation]
        omega
  have hem : (e : ℕ) % 2^32 = e := Nat.mod_eq_of_lt (by omega)
  have hor := Nat.two_pow_add_eq_or_of_lt (i := 10) he (gen.toNat / 1024)
  have hdiv : 2^10 * (gen.toNat / 1024) = gen.toNat := by omega
  have hnat : (nextEnvId e envId).toNat = gen.toNat + e := by
    rw [hgen, BitVec.toNat_or, BitVec.toNat_ofNat, hem, ← hdiv, ← hor, hdiv]
  rw [BitVec.toInt_eq_toNat_cond] at hpos ⊢
  split_ifs at hpos ⊢ <;> omega

theorem failsClean_sysEnvSetStatus (envid status : Word) :
    FailsClean k (sysEnvSetStatus c envid status) := by
  intro r k' hr hneg
  unfold sysEnvSetStatus at hr
  cases hst : settableStatus status with
  | none =>
    rw [hst] at hr
    exact .of_eq (Outcome.ret.inj hr).2.symm
  | some st =>
    rw [hst] at hr
    obtain ⟨o, t, he, h₁⟩ := Routine.bind_eq_ret.mp hr
    obtain ⟨rfl, -⟩ := envid2env_ret he
    cases o with
    | error err => exact .of_eq (Outcome.ret.inj h₁).2.symm
    | ok e =>
      rw [← (Outcome.ret.inj h₁).1] at hneg
      exact not_neg_zero hneg

theorem failsClean_sysEnvSetPgfaultUpcall (envid func : Word) :
    FailsClean k (sysEnvSetPgfaultUpcall c envid func) := by
  intro r k' hr hneg
  obtain ⟨o, t, he, h₁⟩ := Routine.bind_eq_ret.mp hr
  obtain ⟨rfl, -⟩ := envid2env_ret he
  cases o with
  | error err => exact .of_eq (Outcome.ret.inj h₁).2.symm
  | ok e =>
    rw [← (Outcome.ret.inj h₁).1] at hneg
    exact not_neg_zero hneg

theorem failsClean_sysPageUnmap (envid va : Word) : FailsClean k (sysPageUnmap c envid va) := by
  intro r k' hr hneg
  obtain ⟨o, t, he, h₁⟩ := Routine.bind_eq_ret.mp hr
  obtain ⟨rfl, -⟩ := envid2env_ret he
  cases o with
  | error err => exact .of_eq (Outcome.ret.inj h₁).2.symm
  | ok e =>
    simp only [Routine.ite_run] at h₁
    split_ifs at h₁
    · obtain ⟨g, t, -, h₂⟩ := Routine.bind_eq_ret.mp h₁
      obtain ⟨_, t, -, h₃⟩ := Routine.bind_eq_ret.mp h₂
      rw [← (Outcome.ret.inj h₃).1] at hneg
      exact not_neg_zero hneg
    · exact .of_eq (Outcome.ret.inj h₁).2.symm

theorem failsClean_sysExofork : FailsClean k (sysExofork c) := by
  intro r k' hr hneg
  obtain ⟨cur, k₀, hc, h₁⟩ := Routine.bind_eq_ret.mp hr
  obtain ⟨-, rfl⟩ := curenv_eq_ret.mp hc
  simp only [Routine.gets_bind_run] at h₁
  obtain ⟨o, k₁, ha, h₂⟩ := Routine.bind_eq_ret.mp h₁
  obtain ⟨err, rfl, hk₁⟩ | ⟨e, g, t, rfl, -, -, rfl⟩ := envAlloc_ret ha
  · obtain ⟨-, rfl⟩ := Outcome.ret.inj h₂
    rcases hk₁ with rfl | ⟨t, hdir, rfl⟩
    · exact .refl _
    · rw [setupDir_fails hdir]
      exact .refl _
  · -- a new environment has a positive identifier
    simp only [Routine.modify_bind_run, Routine.gets_bind_run, Routine.pure_run] at h₂
    obtain ⟨rfl, -⟩ := Outcome.ret.inj h₂
    have hid : (((k₀.alloced e (k₀.envs cur).envId g t).setStatus e .notRunnable).envs e).envId =
        nextEnvId e (k₀.envs e).envId := by
      rw [Kern.setStatus, setEnv_envId, if_pos rfl, alloced_envId, if_pos rfl]
    rw [retWord, setEnv_envId, if_pos rfl, hid] at hneg
    exact absurd (nextEnvId_pos e (k₀.envs e).envId) (not_lt.mpr hneg.le)

theorem InRange.failsClean_sysPageAlloc (h : InRange n k) (hn : n ≤ 2^20) (envid va perm : Word) :
    FailsClean k (sysPageAlloc c envid va perm) := by
  intro r k' hr hneg
  obtain ⟨o, k₀, he, h₁⟩ := Routine.bind_eq_ret.mp hr
  obtain ⟨rfl, -⟩ := envid2env_ret he
  cases o with
  | error err => exact .of_eq (Outcome.ret.inj h₁).2.symm
  | ok e =>
    simp only [Routine.ite_run] at h₁
    split_ifs at h₁
    · obtain ⟨o, k₁, hm, h₂⟩ := Routine.bind_eq_ret.mp h₁
      obtain ⟨s₁, ha, rfl⟩ := mem_eq_ret.mp hm
      cases o with
      | none =>
        obtain ⟨-, rfl⟩ := Outcome.ret.inj h₂
        rw [(pageAlloc_fails ha).2]
        exact .refl _
      | some page =>
        rw [h.mem.pageAlloc_run hn] at ha
        obtain ⟨hf, rfl⟩ := Outcome.ret.inj ha
        rw [hf] at h₂
        obtain ⟨g, t, hg, h₃⟩ := Routine.bind_eq_ret.mp h₂
        obtain ⟨-, rfl⟩ := envPgdir_eq_ret.mp hg
        obtain ⟨o, k₂, hm, h₄⟩ := Routine.bind_eq_ret.mp h₃
        obtain ⟨s₂, hins, rfl⟩ := mem_eq_ret.mp hm
        cases o with
        | ok _ =>
          rw [← (Outcome.ret.inj h₄).1] at hneg
          exact not_neg_zero hneg
        | error err =>
          obtain ⟨_, k₃, hm, h₅⟩ := Routine.bind_eq_ret.mp h₄
          obtain ⟨s₃, hfree, rfl⟩ := mem_eq_ret.mp hm
          obtain ⟨-, rfl⟩ := Outcome.ret.inj h₅
          rw [(pageInsert_fails hins).2.2] at hfree
          refine ⟨Function.update k₀.mem.word page fun _ => 0#32, ?_, fun p hp => ?_⟩
          · rw [pageFree_taken hf hfree]
          · apply Function.update_of_ne
            rintro rfl
            exact hp (isFree_head hf)
    · exact .of_eq (Outcome.ret.inj h₁).2.symm

theorem failsClean_sysPageMap (srcenvid srcva dstenvid dstva perm : Word) :
    FailsClean k (sysPageMap c srcenvid srcva dstenvid dstva perm) := by
  intro r k' hr hneg
  obtain ⟨o, t, he, h₁⟩ := Routine.bind_eq_ret.mp hr
  obtain ⟨rfl, -⟩ := envid2env_ret he
  cases o with
  | error err => exact .of_eq (Outcome.ret.inj h₁).2.symm
  | ok src =>
    obtain ⟨o, t, he, h₂⟩ := Routine.bind_eq_ret.mp h₁
    obtain ⟨rfl, -⟩ := envid2env_ret he
    cases o with
    | error err => exact .of_eq (Outcome.ret.inj h₂).2.symm
    | ok dst =>
      simp only [Routine.ite_run] at h₂
      split_ifs at h₂
      swap
      · exact .of_eq (Outcome.ret.inj h₂).2.symm
      obtain ⟨gsrc, t, hg, h₃⟩ := Routine.bind_eq_ret.mp h₂
      obtain ⟨-, rfl⟩ := envPgdir_eq_ret.mp hg
      obtain ⟨o, k₁, hm, h₄⟩ := Routine.bind_eq_ret.mp h₃
      obtain ⟨s₁, hl, rfl⟩ := mem_eq_ret.mp hm
      rw [(pageLookup_cases hl).1] at h₄
      rcases o with _ | ⟨page, pte⟩
      · exact .of_eq (Outcome.ret.inj h₄).2.symm
      · simp only [Routine.gets_bind_run, Routine.ite_run] at h₄
        split_ifs at h₄
        · exact .of_eq (Outcome.ret.inj h₄).2.symm
        obtain ⟨gdst, t, hg, h₅⟩ := Routine.bind_eq_ret.mp h₄
        obtain ⟨-, rfl⟩ := envPgdir_eq_ret.mp hg
        obtain ⟨o, k₂, hm, h₆⟩ := Routine.bind_eq_ret.mp h₅
        obtain ⟨s₂, hins, rfl⟩ := mem_eq_ret.mp hm
        cases o with
        | ok _ =>
          rw [← (Outcome.ret.inj h₆).1] at hneg
          exact not_neg_zero hneg
        | error err =>
          obtain ⟨-, rfl⟩ := Outcome.ret.inj h₆
          rw [(pageInsert_fails hins).2.2]
          exact .refl _

/-- In every reachable state the calls that manage environments and memory either
succeed or change nothing. The call is made in a state `k'` that has the memory and
the environments' directories of the reachable state `k`: the trap has saved the
registers of the caller and taken the lock. -/
theorem syscall_failure_atomic (hk : Reachable Booted AnyStep k) (hs : SameSpace k k') (c : ℕ) :
    FailsClean k' (sysExofork c) ∧
    (∀ envid status, FailsClean k' (sysEnvSetStatus c envid status)) ∧
    (∀ envid func, FailsClean k' (sysEnvSetPgfaultUpcall c envid func)) ∧
    (∀ envid va perm, FailsClean k' (sysPageAlloc c envid va perm)) ∧
    (∀ srcenvid srcva dstenvid dstva perm,
      FailsClean k' (sysPageMap c srcenvid srcva dstenvid dstva perm)) ∧
    ∀ envid va, FailsClean k' (sysPageUnmap c envid va) := by
  obtain ⟨n, hn, hr⟩ := inRange_of_reachable hk
  exact ⟨failsClean_sysExofork, failsClean_sysEnvSetStatus, failsClean_sysEnvSetPgfaultUpcall,
    (spaceSteady_inRange k k' hs hr).failsClean_sysPageAlloc hn, failsClean_sysPageMap,
    failsClean_sysPageUnmap⟩

/-- Parent and child run on two CPUs, and a misaligned address is refused. -/
theorem syscall_failure_atomic_booted : ∃ k, Reachable Booted AnyStep k ∧ Executing k 1 1 ∧
    sysPageAlloc 0 0#32 1#32 7#32 k = .ret (.error .inval) k ∧
    FailsClean k (sysPageAlloc 0 0#32 1#32 7#32) := by
  obtain ⟨k₀, g, hk₀, h⟩ := first_booted
  obtain ⟨k, hk, hfam, hcpu, -⟩ := h.start_child (.init hk₀)
  have hr : Reachable Booted AnyStep k := hk.mono (fun _ h => h) fun _ _ h => h.any
  have hcur : (k.cpus 0).cpuEnv = some 0 := by
    rw [hfam.cpu]
  have he : envid2env 0 0#32 true k = .ret (.ok 0) k := envid2env_run (Or.inl ⟨rfl, hcur⟩)
  have hx : Executing k 1 1 := by
    rw [Executing, hcpu]
    exact ⟨rfl, rfl⟩
  refine ⟨k, hr, hx, ?_, (syscall_failure_atomic hr ⟨rfl, rfl, fun _ => rfl, rfl⟩ 0).2.2.2.1 _ _ _⟩
  simp only [sysPageAlloc, Routine.bind_ret he]
  rw [if_neg (by decide)]
  rfl

end Calls

section Send

variable {c : ℕ} {k k' : Kern} {dst : EnvIdx} {envid value srcva perm : Word}

/-- A failing `sys_ipc_try_send` leaves memory and its target as they are. -/
def SendFailsClean (c : ℕ) (k : Kern) (envid value srcva perm : Word) : Prop :=
  ∀ r k', sysIpcTrySend c envid value srcva perm k = .ret r k' → (retWord r).toInt < 0 →
    k'.mem = k.mem ∧ ∀ dst, Resolves c k envid false dst → k'.envs dst = k.envs dst

/-- The page that a message to `dst` carries is refused: its address is misaligned or the
permissions are illegal; or the sender has no page table for it; or the sender asks for a
writable mapping of a page that it maps read-only; or there is no page left for the page
table that the receiver needs. The two page numbers lie in memory where it comes to that. -/
def IpcPageRefused (c : ℕ) (k : Kern) (dst : EnvIdx) (srcva perm : Word) : Prop :=
  srcva < utop ∧ (¬ (pgoff srcva = 0 ∧ CheckPerm perm) ∨
    pgoff srcva = 0 ∧ CheckPerm perm ∧
    ∃ cur gsrc, (k.cpus c).cpuEnv = some cur ∧ k.dirs cur = some gsrc ∧
      (k.mem.word gsrc (pdx srcva) = 0#32 ∨
        pgnum (k.mem.word gsrc (pdx srcva)) < k.mem.npages ∧
        ∃ w, k.mem.pteAt gsrc srcva = some w ∧ pgnum w < k.mem.npages ∧
          (has perm pteW ∧ ¬ has w pteW ∨
            (k.envs dst).envIpcDstva < utop ∧ k.mem.pageFreeList = none ∧
              ∃ gdst, k.dirs dst = some gdst ∧
                k.mem.word gdst (pdx (k.envs dst).envIpcDstva) = 0#32)))

/-- The calls that lose the `env_ipc_perm` of their target: it waits for a message,
has been sent a page before, and the page of this message is refused. -/
def IpcPermLost (c : ℕ) (k : Kern) (envid srcva perm : Word) : Prop :=
  ∃ dst, Resolves c k envid false dst ∧ (k.envs dst).envIpcRecving = true ∧
    (k.envs dst).envIpcPerm ≠ 0#32 ∧ IpcPageRefused c k dst srcva perm

theorem pteAt_eq_some {s : Pm} {g : ℕ} {va w : Word} (h : s.pteAt g va = some w) :
    s.word g (pdx va) ≠ 0#32 ∧ s.word (pgnum (s.word g (pdx va))) (ptx va) = w := by
  unfold Pm.pteAt at h
  split_ifs at h with hz
  exact ⟨hz, Option.some.inj h⟩

/-- A page transfer that fails has refused the page, and has changed nothing. -/
theorem ipcSendPage_error {err : Err} (h : ipcSendPage c dst srcva perm k = .ret (.error err) k') :
    k' = k ∧ IpcPageRefused c k dst srcva perm := by
  unfold ipcSendPage at h
  by_cases hlt : srcva < utop
  swap
  · rw [if_neg hlt] at h
    cases (Outcome.ret.inj h).1
  by_cases hargs : pgoff srcva = 0 ∧ CheckPerm perm
  swap
  · rw [if_pos hlt, if_neg hargs] at h
    exact ⟨(Outcome.ret.inj h).2.symm, hlt, Or.inl hargs⟩
  rw [if_pos hlt, if_pos hargs] at h
  obtain ⟨cur, t₁, hc, h₁⟩ := Routine.bind_eq_ret.mp h
  obtain ⟨hcur, rfl⟩ := curenv_eq_ret.mp hc
  obtain ⟨gsrc, t₂, hd, h₂⟩ := Routine.bind_eq_ret.mp h₁
  obtain ⟨hg, rfl⟩ := envPgdir_eq_ret.mp hd
  obtain ⟨o, t₃, hm, h₃⟩ := Routine.bind_eq_ret.mp h₂
  obtain ⟨s', hl, rfl⟩ := mem_eq_ret.mp hm
  obtain ⟨rfl, hcase⟩ := pageLookup_cases hl
  rcases o with _ | ⟨page, pte⟩
  · have hz := hcase.resolve_right fun ⟨_, _, _, _, _, ho⟩ => by cases ho
    exact ⟨(Outcome.ret.inj h₃).2.symm, hlt,
      Or.inr ⟨hargs.1, hargs.2, cur, gsrc, hcur, hg, Or.inl hz.1⟩⟩
  · obtain ⟨-, hb, hpte, rfl, hpb⟩ := pageLookup_some hl
    simp only [Routine.gets_bind_run, Routine.ite_run, Routine.pure_run] at h₃
    split_ifs at h₃ with href hdst
    · exact ⟨(Outcome.ret.inj h₃).2.symm, hlt, Or.inr ⟨hargs.1, hargs.2, cur, gsrc, hcur, hg,
        Or.inr ⟨hb, _, hpte, hpb, Or.inl href⟩⟩⟩
    · obtain ⟨gdst, t₄, hd', h₄⟩ := Routine.bind_eq_ret.mp h₃
      obtain ⟨hgd, rfl⟩ := envPgdir_eq_ret.mp hd'
      obtain ⟨o', t₅, hm', h₅⟩ := Routine.bind_eq_ret.mp h₄
      obtain ⟨s'', hins, rfl⟩ := mem_eq_ret.mp hm'
      cases o' with
      | ok u => cases (Outcome.ret.inj h₅).1
      | error err =>
        obtain ⟨hz, hf, rfl⟩ := pageInsert_fails hins
        exact ⟨(Outcome.ret.inj h₅).2.symm, hlt, Or.inr ⟨hargs.1, hargs.2, cur, gsrc, hcur, hg,
          Or.inr ⟨hb, _, hpte, hpb, Or.inr ⟨hdst, hf, gdst, hgd, hz⟩⟩⟩⟩
    · cases (Outcome.ret.inj h₃).1

/-- A refused page is an error. -/
theorem ipcSendPage_fails (h : IpcPageRefused c k dst srcva perm) :
    ∃ err, ipcSendPage c dst srcva perm k = .ret (.error err) k := by
  obtain ⟨hlt, hargs | ⟨hoff, hcp, cur, gsrc, hcur, hg, h⟩⟩ := h
  · refine ⟨.inval, ?_⟩
    rw [ipcSendPage, if_pos hlt, if_neg hargs, Routine.pure_run]
  rw [ipcSendPage, if_pos hlt, if_pos ⟨hoff, hcp⟩, Routine.bind_ret (curenv_run hcur),
    Routine.bind_ret (envPgdir_run hg)]
  rcases h with hz | ⟨hb, w, hw, hwb, h⟩
  · rw [Routine.bind_ret (mem_ret (pageLookup_none hz))]
    exact ⟨.inval, rfl⟩
  · obtain ⟨hz, hload⟩ := pteAt_eq_some hw
    have hl := pageLookup_table (pgdirWalk_table hz hb) (by rw [hload]; exact hwb)
    rw [Routine.bind_ret (mem_ret hl)]
    simp only [Routine.gets_bind_run, Pm.load, hload, Routine.ite_run, Routine.pure_run]
    rcases h with href | ⟨hdst, hf, gdst, hgd, hz'⟩
    · exact ⟨.inval, if_pos href⟩
    · by_cases href : has perm pteW ∧ ¬ has w pteW
      · exact ⟨.inval, if_pos href⟩
      · rw [if_neg href, if_pos hdst, Routine.bind_ret (envPgdir_run hgd),
          Routine.bind_ret (mem_ret (pageInsert_noMem (pgdirWalk_noMem hz' hf)))]
        exact ⟨.noMem, rfl⟩

/-- Refusal does not depend on the `env_ipc_perm` of the target. -/
theorem ipcPageRefused_clearIpcPerm :
    IpcPageRefused c (k.clearIpcPerm dst) dst srcva perm ↔ IpcPageRefused c k dst srcva perm := by
  simp only [IpcPageRefused, clearIpcPerm_dirs, clearIpcPerm_dstva]
  rfl

theorem retWord_error (err : Err) : (retWord (.error err)).toInt < 0 := by
  cases err <;> decide

theorem sendFailsClean_of_not_lost (h : ¬ IpcPermLost c k envid srcva perm) :
    SendFailsClean c k envid value srcva perm := by
  intro r k' hr hneg
  obtain ⟨o, t, he, h₁⟩ := Routine.bind_eq_ret.mp hr
  obtain ⟨rfl, -⟩ := envid2env_ret he
  cases o with
  | error err =>
    obtain ⟨-, rfl⟩ := Outcome.ret.inj h₁
    exact ⟨rfl, fun _ _ => rfl⟩
  | ok e =>
    cases hrecv : (t.envs e).envIpcRecving with
    | false =>
      simp only [Routine.gets_bind_run, hrecv, Bool.false_eq_true, if_false, Routine.pure_run] at h₁
      obtain ⟨-, rfl⟩ := Outcome.ret.inj h₁
      exact ⟨rfl, fun _ _ => rfl⟩
    | true =>
      rw [sysIpcTrySend_run he hrecv] at hr
      obtain ⟨o, k₂, hsend, hr₁⟩ := Routine.bind_eq_ret.mp hr
      cases o with
      | ok ipcPerm =>
        rw [(ipcDeliver_ret hr₁).1] at hneg
        exact not_neg_zero hneg
      | error err =>
        obtain ⟨-, rfl⟩ := Outcome.ret.inj hr₁
        obtain ⟨rfl, href⟩ := ipcSendPage_error hsend
        refine ⟨rfl, fun dst hdst => ?_⟩
        obtain rfl : e = dst := Except.ok.inj (Outcome.ret.inj (he.symm.trans hdst)).1
        have hperm : (t.envs e).envIpcPerm = 0#32 := by
          by_contra hp
          exact h ⟨e, he, hrecv, hp, ipcPageRefused_clearIpcPerm.mp href⟩
        rw [Kern.clearIpcPerm, setEnv_envs, if_pos rfl, ← hperm]

theorem not_sendFailsClean_of_lost (h : IpcPermLost c k envid srcva perm) :
    ¬ SendFailsClean c k envid value srcva perm := by
  intro hclean
  obtain ⟨dst, hdst, hrecv, hperm, href⟩ := h
  obtain ⟨err, hsend⟩ := ipcSendPage_fails (ipcPageRefused_clearIpcPerm.mpr href)
  have hr : sysIpcTrySend c envid value srcva perm k = .ret (.error err) (k.clearIpcPerm dst) := by
    rw [sysIpcTrySend_run hdst hrecv, Routine.bind_ret hsend]
    rfl
  have he := (hclean _ _ hr (retWord_error err)).2 dst hdst
  rw [Kern.clearIpcPerm, setEnv_envs, if_pos rfl] at he
  exact hperm (congrArg Env.envIpcPerm he).symm

/-- A failed send has no effect, exactly if it does not lose the `env_ipc_perm` of a
target that waits for its next message: the field is cleared before the page is looked at. -/
theorem send_fails_clean_iff (c : ℕ) (k : Kern) (envid value srcva perm : Word) :
    SendFailsClean c k envid value srcva perm ↔ ¬ IpcPermLost c k envid srcva perm :=
  ⟨fun h hl => not_sendFailsClean_of_lost hl h, sendFailsClean_of_not_lost⟩

/-- A child that has been sent a page waits for its next message, and the page of that
message is refused. -/
theorem failed_send_loses_perm : ∃ k envid, Reachable Booted AnyStep k ∧ Executing k 0 0 ∧
    ¬ SendFailsClean 0 (k.atSyscall 0 0 (sysInput 12#32 envid 0#32 1#32 7#32 0#32).tf)
      envid 0#32 1#32 7#32 := by
  obtain ⟨k, g, g', hk, hp, hinv, hsup, hz, -⟩ := pair_booted
  have hk' : Reachable Booted AnyStep k :=
    hk.mono (fun _ => BootedFit.booted) fun _ _ h => h.any
  have hd0 : pdx 0#32 < userPdes := by decide
  have hne : g' ≠ g := by
    intro h
    have hdir : (Slot.dir 0).isTable := trivial
    cases hinv.tally.slot_unique hdir hp.caller.dir (j := .dir 1) (h ▸ hp.childDir)
  -- the parent maps a page at 0
  obtain ⟨pp, q, s, halloc, hins, hinv₁, hsup₁, hnew⟩ := hinv.mapNew_run hp.caller.dir hd0
    (by decide : (7#32 : Word).toNat < 4096) (hz _ (by decide)).1 hsup
  obtain ⟨k₁, h₁, hs₁⟩ := hp.caller.mem_run (t := s) 4#32 0#32 0#32 7#32 0#32 0#32
    fun k' hk' hcur hdir => sysPageAlloc_run hcur hdir (by decide) (hk' ▸ halloc) hins
  have hp₁ := (hp.setMem s).congr hs₁
  have hm₁ : k₁.mem = s := hs₁.mem
  -- the child waits for it, with room at 0
  obtain ⟨k₂, h₂, hp₂, hm₂, hrecv₂, hdst₂, -⟩ :=
    hp₁.recv_step (by decide : ¬ (0#32 < utop ∧ pgoff 0#32 ≠ 0))
  have hz' : s.word g' (pdx 0#32) = 0#32 := by
    rw [hnew.frame g' hne fun hf => hinv.not_isFree_of_slot (i := .dir 1) hp.childDir hf]
    exact (hz _ (by decide)).2
  obtain ⟨q', hwalk, -, -, hblank, -⟩ := hinv₁.pgdirWalk_run hp.childDir hd0 hz' hsup₁
  have hins' : pageInsert g' pp 0#32 7#32 s = _ := pageInsert_empty hwalk (hblank _)
  have hlook := hnew.lookup hinv₁.npages_le (by decide)
  have hw : ¬ (has 7#32 pteW ∧ ¬ has (s.load ⟨q, ptx 0#32⟩) pteW) := by
    rw [Pm.load, hnew.entry, pteOf, has_pteW_entry]
    decide
  have hm₂' : k₂.mem = s := hm₂.trans hm₁
  obtain ⟨k₃, h₃, hp₃, -, hperm₃⟩ := hp₂.send_step 0#32 hrecv₂ hdst₂ (by decide)
    (by decide : 0#32 < utop) (by decide : pgoff 0#32 = 0 ∧ CheckPerm 7#32) (by rw [hm₂']; exact hlook) (by rw [hm₂']; exact hw)
    (by rw [hm₂']; exact hins')
  -- and then for the next message
  obtain ⟨k₄, h₄, hp₄, -, hmail⟩ := hp₃.wake_step
  obtain ⟨k₅, h₅, hp₅, -, hrecv₅, -, hperm₅⟩ :=
    hp₄.recv_step (by decide : ¬ (0#32 < utop ∧ pgoff 0#32 ≠ 0))
  have hperm : (k₅.envs 1).envIpcPerm = 7#32 := by
    calc (k₅.envs 1).envIpcPerm = (k₄.envs 1).envIpcPerm := hperm₅
      _ = (k₃.envs 1).envIpcPerm := congrArg (fun m => m.2.2.2.2) (congrFun hmail 1)
      _ = 7#32 := hperm₃
  refine ⟨k₅, (k₅.envs 1).envId, ((((hk'.step ⟨_, h₁⟩).step ⟨_, h₂⟩).step h₃).step h₄).step ⟨_, h₅⟩,
    ⟨?_, ?_⟩, not_sendFailsClean_of_lost ?_⟩
  · rw [hp₅.caller.cpu]
  · rw [hp₅.caller.cpu]
  · obtain ⟨tf, htf⟩ : ∃ tf, tf = (sysInput 12#32 (k₅.envs 1).envId 0#32 1#32 7#32 0#32).tf := ⟨_, rfl⟩
    have hsame : (k₅.atSyscall 0 0 tf).mail = k₅.mail := atSyscall_mail tf
    have hm := congrFun hsame 1
    refine ⟨1, envid2env_run (hp₅.names _ false), ?_, ?_, by decide, Or.inl (by decide)⟩
    · rw [← htf]
      exact (congrArg (fun m => m.1) hm).trans hrecv₅
    · rw [← htf, show ((k₅.atSyscall 0 0 tf).envs 1).envIpcPerm = 7#32 from
        (congrArg (fun m => m.2.2.2.2) hm).trans hperm]
      decide

end Send
end Sisop
