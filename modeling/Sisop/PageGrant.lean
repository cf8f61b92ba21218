import Sisop.PageInsert
import Sisop.Syscall

/-! What `sys_page_map` and `sys_ipc_try_send` hand over: the page behind the
source entry. An absent entry below an existing page table is not noticed. -/
namespace Sisop

/-- The page-table entry for `va` that a walk from the directory `g` comes to. -/
def Pm.pteAt (s : Pm) (g : ℕ) (va : Word) : Option Word :=
  if s.word g (pdx va) = 0#32 then none else some (s.word (pgnum (s.word g (pdx va))) (ptx va))

/-- There is a page table for `va`, but the entry in it is not present. The table,
and the address field of the entry (0 when it is empty), lie in memory. -/
def Pm.PteAbsent (s : Pm) (g : ℕ) (va : Word) : Prop :=
  pgnum (s.word g (pdx va)) < s.npages ∧
    ∃ w, s.pteAt g va = some w ∧ ¬ has w pteP ∧ pgnum w < s.npages

/-- After a call the entry for `va`, the one that the walk through `g` leads to,
maps the page of `w`, and writably only if `w` does. -/
def MapsPageOf (s s' : Pm) (g : ℕ) (va w : Word) : Prop :=
  ∃ entry s₁, pgdirWalk g va true s = .ret (some entry) s₁ ∧ has (s'.load entry) pteP ∧
    pgnum (s'.load entry) = pgnum w ∧ (has (s'.load entry) pteW → has w pteW)

/-- `envid2env` accepts the identifier and finds the environment. -/
def Resolves (c : ℕ) (k : Kern) (envid : Word) (checkperm : Bool) (e : EnvIdx) : Prop :=
  envid2env c envid checkperm k = .ret (.ok e) k

/-- The refusal of a writable mapping of a page that is read-only at the source. -/
def ReadOnlyRefused (s : Pm) (g : ℕ) (va perm : Word) : Prop :=
  has perm pteW ∧ ∀ w, s.pteAt g va = some w → ¬ has w pteW

section Lookup

variable {s s' : Pm} {g : ℕ} {va : Word}

/-- A page table in memory leads `page_lookup` to the entry's page. -/
theorem pageLookup_absent (h : s.PteAbsent g va) : ∃ w, s.pteAt g va = some w ∧
    pageLookup g va s = .ret (some (pgnum w, ⟨pgnum (s.word g (pdx va)), ptx va⟩)) s ∧
      s.load ⟨pgnum (s.word g (pdx va)), ptx va⟩ = w := by
  obtain ⟨hb, w, hw, -, hwb⟩ := h
  have hz : s.word g (pdx va) ≠ 0#32 := by
    intro hz
    rw [Pm.pteAt, if_pos hz] at hw
    cases hw
  have hload : s.word (pgnum (s.word g (pdx va))) (ptx va) = w := by
    rw [Pm.pteAt, if_neg hz] at hw
    exact Option.some.inj hw
  refine ⟨w, hw, ?_, hload⟩
  rw [← hload] at hwb
  rw [pageLookup_table (pgdirWalk_table hz hb) hwb, hload]

/-- What a `page_lookup` that returns a page has found. -/
theorem pageLookup_some {page : ℕ} {pte : PtePtr} (h : pageLookup g va s = .ret (some (page, pte)) s') :
    s' = s ∧ pgnum (s.word g (pdx va)) < s.npages ∧ s.pteAt g va = some (s.load pte) ∧
      page = pgnum (s.load pte) ∧ page < s.npages := by
  obtain ⟨rfl, ⟨-, ho⟩ | ⟨hz, hb, w, rfl, hwb, ho⟩⟩ := pageLookup_cases h
  · cases ho
  · obtain ⟨rfl, rfl⟩ := Prod.mk.inj (Option.some.inj ho)
    exact ⟨rfl, hb, if_neg hz, rfl, hwb⟩

/-- A page that is found and may be handed over lies behind a present entry,
unless the entry is absent and the refusal does not apply. -/
theorem present_of_lookup {page : ℕ} {pte : PtePtr} {perm : Word}
    (h : pageLookup g va s = .ret (some (page, pte)) s') (hr : ¬ (has perm pteW ∧ ¬ has (s.load pte) pteW))
    (hbad : ¬ (s.PteAbsent g va ∧ ¬ ReadOnlyRefused s g va perm)) : has (s.load pte) pteP := by
  obtain ⟨-, hb, hp, rfl, hlt⟩ := pageLookup_some h
  by_contra hn
  refine hbad ⟨⟨hb, _, hp, hn, hlt⟩, ?_⟩
  rintro ⟨hw, hall⟩
  exact hr ⟨hw, hall _ hp⟩

theorem CheckPerm.lt {perm : Word} (h : CheckPerm perm) : perm.toNat < 4096 := by
  have hand : perm &&& pteSyscall = perm := by
    have hsplit : perm &&& pteSyscall ||| perm &&& ~~~pteSyscall = perm := by
      rw [← BitVec.and_or_distrib_left, BitVec.or_not_self, BitVec.and_allOnes]
    rwa [h.1, BitVec.or_zero] at hsplit
  rw [← hand, BitVec.toNat_and]
  exact lt_of_le_of_lt Nat.and_le_right (by decide)

/-- A successful `page_insert` maps the page with the permissions asked for. -/
theorem pageInsert_maps {pp : ℕ} {w perm : Word} (hpp : pp = pgnum w) (hperm : perm.toNat < 4096)
    (hw : has perm pteW → has w pteW) (h : pageInsert g pp va perm s = .ret (.ok ()) s') :
    MapsPageOf s s' g va w := by
  obtain ⟨e, s₁, s₂, hwalk, rfl, -⟩ := pageInsert_ok h
  have hload : (s₂.store e (pteOf pp perm)).load e = pteOf pp perm := by
    rw [Pm.store, Pm.load, setWord_word_self, if_pos rfl]
  have hlt : pp < 2^20 := by
    rw [hpp, pgnum_eq]
    have := w.isLt
    omega
  refine ⟨e, s₁, hwalk, ?_, ?_, ?_⟩
  · rw [hload]
    exact has_pteP_pteOf pp perm
  · rw [hload, pgnum_pteOf hlt hperm, hpp]
  · rw [hload]
    exact fun h => hw ((has_pteW_entry pp perm).mp h)

end Lookup

section Calls

variable {c : ℕ} {k : Kern} {srcenvid srcva dstenvid dstva perm : Word}

/-- No mapping out of nothing, for `sys_page_map`: a successful call has mapped a
page that a present source entry maps, no more writably than there; and a source
entry that is absent is an error that changes nothing. -/
def PageMapSound (c : ℕ) (k : Kern) (srcenvid srcva dstenvid dstva perm : Word) : Prop :=
  (∀ v k', sysPageMap c srcenvid srcva dstenvid dstva perm k = .ret (.ok v) k' →
    ∃ src dst gsrc gdst w, Resolves c k srcenvid true src ∧ Resolves c k dstenvid true dst ∧
      k.dirs src = some gsrc ∧ k.dirs dst = some gdst ∧ k.mem.pteAt gsrc srcva = some w ∧
      has w pteP ∧ MapsPageOf k.mem k'.mem gdst dstva w) ∧
  ∀ src dst gsrc, Resolves c k srcenvid true src → Resolves c k dstenvid true dst →
    k.dirs src = some gsrc → k.mem.PteAbsent gsrc srcva →
      sysPageMap c srcenvid srcva dstenvid dstva perm k = .ret (.error .inval) k

/-- The calls of `sys_page_map` that go wrong: the arguments are in order, the
source entry is absent below an existing page table, and no writable mapping of
a read-only entry is asked for. -/
def PageMapAbsent (c : ℕ) (k : Kern) (srcenvid srcva dstenvid dstva perm : Word) : Prop :=
  CheckPerm perm ∧ CheckMem srcva ∧ CheckMem dstva ∧ ∃ src dst gsrc,
    Resolves c k srcenvid true src ∧ Resolves c k dstenvid true dst ∧ k.dirs src = some gsrc ∧
      k.mem.PteAbsent gsrc srcva ∧ ¬ ReadOnlyRefused k.mem gsrc srcva perm

/-- The end of `sys_page_map`, once the page is known: it does not answer that
the arguments are invalid, and success means that the page has been mapped. -/
theorem pageMap_tail {dst : EnvIdx} {page : ℕ} {r : SysRet} {k' : Kern}
    (h : (do
      let gdst ← envPgdir dst
      match (← mem (pageInsert gdst page dstva perm)) with
      | .error _ => pure (.error .noMem)
      | .ok () => pure (.ok 0#32) : Routine Kern SysRet) k = .ret r k') :
    r ≠ .error .inval ∧ ∀ v, r = .ok v → ∃ gdst, k.dirs dst = some gdst ∧
      pageInsert gdst page dstva perm k.mem = .ret (.ok ()) k'.mem := by
  obtain ⟨gdst, t, hd, hk⟩ := Routine.bind_eq_ret.mp h
  obtain ⟨hdir, rfl⟩ := envPgdir_eq_ret.mp hd
  obtain ⟨o, t', hm, hp⟩ := Routine.bind_eq_ret.mp hk
  obtain ⟨s', hins, rfl⟩ := mem_eq_ret.mp hm
  cases o with
  | error err =>
    obtain ⟨rfl, -⟩ := Outcome.ret.inj hp
    exact ⟨by simp, by simp⟩
  | ok u =>
    obtain ⟨rfl, rfl⟩ := Outcome.ret.inj hp
    exact ⟨by simp, fun _ _ => ⟨gdst, hdir, hins⟩⟩

/-- `sys_page_map` up to `page_lookup`. -/
theorem sysPageMap_run {src dst : EnvIdx} {gsrc page : ℕ} {pte : PtePtr}
    (hsrc : Resolves c k srcenvid true src) (hdst : Resolves c k dstenvid true dst)
    (hg : k.dirs src = some gsrc) (hargs : CheckPerm perm ∧ CheckMem srcva ∧ CheckMem dstva)
    (hl : pageLookup gsrc srcva k.mem = .ret (some (page, pte)) k.mem) :
    sysPageMap c srcenvid srcva dstenvid dstva perm k =
      if has perm pteW ∧ ¬ has (k.mem.load pte) pteW then .ret (.error .inval) k
      else (do
        let gdst ← envPgdir dst
        match (← mem (pageInsert gdst page dstva perm)) with
        | .error _ => pure (.error .noMem)
        | .ok () => pure (.ok 0#32) : Routine Kern SysRet) k := by
  have hm : mem (pageLookup gsrc srcva) k = .ret (some (page, pte)) k := mem_ret hl
  simp only [sysPageMap, Routine.bind_ret hsrc, Routine.bind_ret hdst, if_pos hargs,
    Routine.bind_ret (envPgdir_run hg), Routine.bind_ret hm, Routine.gets_bind_run, Routine.ite_run]
  rfl

/-- `sys_page_map` is sound but for calls with an absent source entry. -/
theorem pageMapSound_of_not_absent
    (h : ¬ PageMapAbsent c k srcenvid srcva dstenvid dstva perm) :
    PageMapSound c k srcenvid srcva dstenvid dstva perm := by
  refine ⟨fun v k' hr => ?_, fun src dst gsrc hsrc hdst hg habs => ?_⟩
  · obtain ⟨o₁, t₁, hsrc, hr₁⟩ := Routine.bind_eq_ret.mp hr
    obtain ⟨rfl, -⟩ := envid2env_ret hsrc
    cases o₁ with
    | error err => cases (Outcome.ret.inj hr₁).1
    | ok src =>
      obtain ⟨o₂, t₂, hdst, hr₂⟩ := Routine.bind_eq_ret.mp hr₁
      obtain ⟨rfl, -⟩ := envid2env_ret hdst
      cases o₂ with
      | error err => cases (Outcome.ret.inj hr₂).1
      | ok dst =>
        by_cases hargs : CheckPerm perm ∧ CheckMem srcva ∧ CheckMem dstva
        · simp only [if_pos hargs] at hr₂
          obtain ⟨gsrc, t₃, hd, hr₃⟩ := Routine.bind_eq_ret.mp hr₂
          obtain ⟨hg, rfl⟩ := envPgdir_eq_ret.mp hd
          obtain ⟨o₃, t₄, hm, hr₄⟩ := Routine.bind_eq_ret.mp hr₃
          obtain ⟨s', hl, rfl⟩ := mem_eq_ret.mp hm
          rcases o₃ with _ | ⟨page, pte⟩
          · cases (Outcome.ret.inj hr₄).1
          · obtain ⟨rfl, -, hpte, hpage, -⟩ := pageLookup_some hl
            simp only [Routine.gets_bind_run, Routine.ite_run, Routine.pure_run] at hr₄
            split_ifs at hr₄ with href
            · cases (Outcome.ret.inj hr₄).1
            · have hpres := present_of_lookup hl href fun hb =>
                h ⟨hargs.1, hargs.2.1, hargs.2.2, src, dst, gsrc, hsrc, hdst, hg, hb⟩
              obtain ⟨gdst, hgd, hins⟩ := (pageMap_tail hr₄).2 v rfl
              exact ⟨src, dst, gsrc, gdst, _, hsrc, hdst, hg, hgd, hpte, hpres,
                pageInsert_maps hpage hargs.1.lt (fun hw => not_not.mp fun hn => href ⟨hw, hn⟩) hins⟩
        · simp only [if_neg hargs] at hr₂
          cases (Outcome.ret.inj hr₂).1
  · by_cases hargs : CheckPerm perm ∧ CheckMem srcva ∧ CheckMem dstva
    · obtain ⟨w, hw, hl, hload⟩ := pageLookup_absent habs
      have href : ReadOnlyRefused k.mem gsrc srcva perm := not_not.mp fun hn =>
        h ⟨hargs.1, hargs.2.1, hargs.2.2, src, dst, gsrc, hsrc, hdst, hg, habs, hn⟩
      rw [sysPageMap_run hsrc hdst hg hargs hl, if_pos ⟨href.1, hload ▸ href.2 w hw⟩]
    · simp only [sysPageMap, Routine.bind_ret hsrc, Routine.bind_ret hdst, if_neg hargs,
        Routine.pure_run]

/-- A call with an absent source entry does not answer that it is invalid. -/
theorem not_pageMapSound_of_absent (h : PageMapAbsent c k srcenvid srcva dstenvid dstva perm) :
    ¬ PageMapSound c k srcenvid srcva dstenvid dstva perm := by
  rintro ⟨-, hinval⟩
  obtain ⟨hp, hs, hd, src, dst, gsrc, hsrc, hdst, hg, habs, hnref⟩ := h
  obtain ⟨w, hw, hl, hload⟩ := pageLookup_absent habs
  have hr := hinval src dst gsrc hsrc hdst hg habs
  have hnot : ¬ (has perm pteW ∧ ¬ has (k.mem.load ⟨pgnum (k.mem.word gsrc (pdx srcva)),
      ptx srcva⟩) pteW) := by
    rintro ⟨hwp, hnw⟩
    rw [hload] at hnw
    refine hnref ⟨hwp, fun w' hw' => ?_⟩
    rwa [← Option.some.inj (hw.symm.trans hw')]
  rw [sysPageMap_run hsrc hdst hg ⟨hp, hs, hd⟩ hl, if_neg hnot] at hr
  exact (pageMap_tail hr).1 rfl

end Calls

section Ipc

variable {c : ℕ} {k k' : Kern} {e : EnvIdx} {envid value srcva perm : Word}

/-- No mapping out of nothing, for `sys_ipc_try_send`. A page has been installed
in the receiver if its `env_ipc_perm` says so. -/
def IpcSendSound (c : ℕ) (k : Kern) (envid value srcva perm : Word) : Prop :=
  (∀ v k' dst, Resolves c k envid false dst →
    sysIpcTrySend c envid value srcva perm k = .ret (.ok v) k' → (k'.envs dst).envIpcPerm ≠ 0#32 →
    ∃ cur gsrc gdst w, (k.cpus c).cpuEnv = some cur ∧ k.dirs cur = some gsrc ∧
      k.dirs dst = some gdst ∧ k.mem.pteAt gsrc srcva = some w ∧ has w pteP ∧
      MapsPageOf k.mem k'.mem gdst (k.envs dst).envIpcDstva w) ∧
  ∀ dst cur gsrc, Resolves c k envid false dst → (k.envs dst).envIpcRecving = true →
    (k.cpus c).cpuEnv = some cur → k.dirs cur = some gsrc → srcva < utop →
    k.mem.PteAbsent gsrc srcva →
      ∃ k', sysIpcTrySend c envid value srcva perm k = .ret (.error .inval) k' ∧ k'.mem = k.mem

/-- The calls of `sys_ipc_try_send` that go wrong. -/
def IpcSendAbsent (c : ℕ) (k : Kern) (envid srcva perm : Word) : Prop :=
  srcva < utop ∧ pgoff srcva = 0 ∧ CheckPerm perm ∧ ∃ dst cur gsrc,
    Resolves c k envid false dst ∧ (k.envs dst).envIpcRecving = true ∧
      (k.cpus c).cpuEnv = some cur ∧ k.dirs cur = some gsrc ∧ k.mem.PteAbsent gsrc srcva ∧
      ¬ ReadOnlyRefused k.mem gsrc srcva perm

/-- A page transfer that succeeds and is not empty has looked the page up at the
sender and has mapped it where the receiver asks for it. -/
theorem ipcSendPage_ok {v : Word} (h : ipcSendPage c e srcva perm k = .ret (.ok v) k')
    (hv : v ≠ 0#32) : srcva < utop ∧ CheckPerm perm ∧ pgoff srcva = 0 ∧
      ∃ cur gsrc gdst page pte, (k.cpus c).cpuEnv = some cur ∧ k.dirs cur = some gsrc ∧
        pageLookup gsrc srcva k.mem = .ret (some (page, pte)) k.mem ∧
        ¬ (has perm pteW ∧ ¬ has (k.mem.load pte) pteW) ∧ k.dirs e = some gdst ∧
        pageInsert gdst page (k.envs e).envIpcDstva perm k.mem = .ret (.ok ()) k'.mem := by
  unfold ipcSendPage at h
  by_cases hlt : srcva < utop
  swap
  · rw [if_neg hlt] at h
    exact absurd (Except.ok.inj (Outcome.ret.inj h).1).symm hv
  by_cases hargs : pgoff srcva = 0 ∧ CheckPerm perm
  swap
  · rw [if_pos hlt, if_neg hargs] at h
    cases (Outcome.ret.inj h).1
  rw [if_pos hlt, if_pos hargs] at h
  obtain ⟨cur, t₁, hc, h₁⟩ := Routine.bind_eq_ret.mp h
  obtain ⟨hcur, rfl⟩ := curenv_eq_ret.mp hc
  obtain ⟨gsrc, t₂, hd, h₂⟩ := Routine.bind_eq_ret.mp h₁
  obtain ⟨hg, rfl⟩ := envPgdir_eq_ret.mp hd
  obtain ⟨o, t₃, hm, h₃⟩ := Routine.bind_eq_ret.mp h₂
  obtain ⟨s', hl, rfl⟩ := mem_eq_ret.mp hm
  rcases o with _ | ⟨page, pte⟩
  · cases (Outcome.ret.inj h₃).1
  · obtain ⟨rfl, -⟩ := pageLookup_some hl
    simp only [Routine.gets_bind_run, Routine.ite_run, Routine.pure_run] at h₃
    split_ifs at h₃ with href hdst
    · cases (Outcome.ret.inj h₃).1
    · obtain ⟨gdst, t₄, hd', h₄⟩ := Routine.bind_eq_ret.mp h₃
      obtain ⟨hgd, rfl⟩ := envPgdir_eq_ret.mp hd'
      obtain ⟨o', t₅, hm', h₅⟩ := Routine.bind_eq_ret.mp h₄
      obtain ⟨s'', hins, rfl⟩ := mem_eq_ret.mp hm'
      cases o' with
      | error err => cases (Outcome.ret.inj h₅).1
      | ok u =>
        obtain ⟨-, rfl⟩ := Outcome.ret.inj h₅
        exact ⟨hlt, hargs.2, hargs.1, cur, gsrc, gdst, page, pte, hcur, hg, hl, href, hgd, hins⟩
    · exact absurd (Except.ok.inj (Outcome.ret.inj h₃).1).symm hv

/-- A page transfer from an absent entry is not an invalid argument, unless it is refused. -/
theorem ipcSendPage_absent {cur : EnvIdx} {gsrc : ℕ} (hcur : (k.cpus c).cpuEnv = some cur)
    (hg : k.dirs cur = some gsrc) (habs : k.mem.PteAbsent gsrc srcva) (hlt : srcva < utop) :
    (¬ (pgoff srcva = 0 ∧ CheckPerm perm) ∨ ReadOnlyRefused k.mem gsrc srcva perm →
      ipcSendPage c e srcva perm k = .ret (.error .inval) k) ∧
    (pgoff srcva = 0 ∧ CheckPerm perm → ¬ ReadOnlyRefused k.mem gsrc srcva perm →
      ∀ k', ipcSendPage c e srcva perm k ≠ .ret (.error .inval) k') := by
  obtain ⟨w, hw, hl, hload⟩ := pageLookup_absent habs
  have hm : mem (pageLookup gsrc srcva) k = .ret _ k := mem_ret hl
  by_cases hargs : pgoff srcva = 0 ∧ CheckPerm perm
  swap
  · refine ⟨fun _ => ?_, fun h => absurd h hargs⟩
    rw [ipcSendPage, if_pos hlt, if_neg hargs, Routine.pure_run]
  have hrun : ipcSendPage c e srcva perm k = if has perm pteW ∧ ¬ has w pteW then
      .ret (.error .inval) k else if (k.envs e).envIpcDstva < utop then (do
        let gdst ← envPgdir e
        match (← mem (pageInsert gdst (pgnum w) (k.envs e).envIpcDstva perm)) with
        | .error _ => pure (.error .noMem)
        | .ok () => pure (.ok perm) : Routine Kern SysRet) k else .ret (.ok 0#32) k := by
    rw [ipcSendPage, if_pos hlt, if_pos hargs, Routine.bind_ret (curenv_run hcur),
      Routine.bind_ret (envPgdir_run hg), Routine.bind_ret hm]
    simp only [Routine.gets_bind_run, hload, Routine.ite_run]
    rfl
  have href : ReadOnlyRefused k.mem gsrc srcva perm ↔ has perm pteW ∧ ¬ has w pteW := by
    refine ⟨fun h => ⟨h.1, h.2 w hw⟩, fun h => ⟨h.1, fun w' hw' => ?_⟩⟩
    rw [← Option.some.inj (hw.symm.trans hw')]
    exact h.2
  constructor
  · rintro (h | h)
    · exact absurd hargs h
    · rw [hrun, if_pos (href.mp h)]
  · intro _ h k' hr
    rw [hrun, if_neg (fun hn => h (href.mpr hn))] at hr
    split_ifs at hr
    · obtain ⟨gdst, t₄, hd', h₄⟩ := Routine.bind_eq_ret.mp hr
      obtain ⟨o', t₅, hm', h₅⟩ := Routine.bind_eq_ret.mp h₄
      cases o' with
      | error err => simp [Outcome.ret.injEq] at h₅
      | ok u => simp [Outcome.ret.injEq] at h₅
    · cases (Outcome.ret.inj hr).1

theorem clearIpcPerm_dirs (k : Kern) (e : EnvIdx) : (k.clearIpcPerm e).dirs = k.dirs := by
  funext i
  simp only [Kern.dirs, Kern.clearIpcPerm, Kern.setEnv, Function.update_apply]
  split_ifs with h
  · rw [h]
  · rfl

theorem clearIpcPerm_dstva (k : Kern) (e : EnvIdx) :
    ((k.clearIpcPerm e).envs e).envIpcDstva = (k.envs e).envIpcDstva := by
  simp only [Kern.clearIpcPerm, Kern.setEnv, Function.update_self]

/-- `sys_ipc_try_send` to an environment that is receiving. -/
theorem sysIpcTrySend_run {dst : EnvIdx} (hdst : Resolves c k envid false dst)
    (hrecv : (k.envs dst).envIpcRecving = true) :
    sysIpcTrySend c envid value srcva perm k = (do
      match (← ipcSendPage c dst srcva perm) with
      | .error err => pure (.error err)
      | .ok ipcPerm => ipcDeliver c dst value ipcPerm : Routine Kern SysRet) (k.clearIpcPerm dst) := by
  simp only [sysIpcTrySend, Routine.bind_ret hdst, Routine.gets_bind_run, hrecv, if_true]
  rfl

theorem ipcDeliver_ret {ipcPerm : Word} {r : SysRet} (h : ipcDeliver c e value ipcPerm k = .ret r k') :
    r = .ok 0#32 ∧ k'.mem = k.mem ∧ (k'.envs e).envIpcPerm = ipcPerm := by
  obtain ⟨cur, t, hc, h₁⟩ := Routine.bind_eq_ret.mp h
  obtain ⟨-, rfl⟩ := curenv_eq_ret.mp hc
  obtain ⟨rfl, rfl⟩ := Outcome.ret.inj h₁
  refine ⟨rfl, rfl, ?_⟩
  simp only [Kern.setEnv, Function.update_self]

/-- `sys_ipc_try_send` is sound but for calls with an absent source entry. -/
theorem ipcSendSound_of_not_absent (h : ¬ IpcSendAbsent c k envid srcva perm) :
    IpcSendSound c k envid value srcva perm := by
  refine ⟨fun v k' dst hdst hr hperm => ?_, fun dst cur gsrc hdst hrecv hcur hg hlt habs => ?_⟩
  · cases hrecv : (k.envs dst).envIpcRecving with
    | false =>
      simp only [sysIpcTrySend, Routine.bind_ret hdst, Routine.gets_bind_run, hrecv,
        Bool.false_eq_true, if_false, Routine.pure_run] at hr
      cases (Outcome.ret.inj hr).1
    | true =>
      rw [sysIpcTrySend_run hdst hrecv] at hr
      obtain ⟨o, k₂, hsend, hr₁⟩ := Routine.bind_eq_ret.mp hr
      cases o with
      | error err => cases (Outcome.ret.inj hr₁).1
      | ok ipcPerm =>
        obtain ⟨-, hmem, hp⟩ := ipcDeliver_ret hr₁
        obtain ⟨hlt, hcp, hoff, cur, gsrc, gdst, page, pte, hcur, hg, hl, href, hgd, hins⟩ :=
          ipcSendPage_ok hsend (hp ▸ hperm)
        rw [clearIpcPerm_dirs] at hg hgd
        rw [clearIpcPerm_dstva] at hins
        obtain ⟨-, -, hpte, hpage, -⟩ := pageLookup_some hl
        have hpres := present_of_lookup hl href fun hb =>
          h ⟨hlt, hoff, hcp, dst, cur, gsrc, hdst, hrecv, hcur, hg, hb⟩
        rw [← hmem] at hins
        exact ⟨cur, gsrc, gdst, _, hcur, hg, hgd, hpte, hpres,
          pageInsert_maps hpage hcp.lt (fun hw => not_not.mp fun hn => href ⟨hw, hn⟩) hins⟩
  · have hg' : (k.clearIpcPerm dst).dirs cur = some gsrc := by rwa [clearIpcPerm_dirs]
    have hcur' : ((k.clearIpcPerm dst).cpus c).cpuEnv = some cur := hcur
    have habs' : (k.clearIpcPerm dst).mem.PteAbsent gsrc srcva := habs
    have hsend : ipcSendPage c dst srcva perm (k.clearIpcPerm dst) =
        .ret (.error .inval) (k.clearIpcPerm dst) := by
      refine (ipcSendPage_absent hcur' hg' habs' hlt).1 ?_
      by_contra hn
      obtain ⟨hargs, href⟩ := not_or.mp hn
      obtain ⟨hoff, hcp⟩ := not_not.mp hargs
      exact h ⟨hlt, hoff, hcp, dst, cur, gsrc, hdst, hrecv, hcur, hg, habs, href⟩
    refine ⟨k.clearIpcPerm dst, ?_, rfl⟩
    rw [sysIpcTrySend_run hdst hrecv, Routine.bind_ret hsend]
    rfl

/-- A call with an absent source entry does not answer that it is invalid. -/
theorem not_ipcSendSound_of_absent (h : IpcSendAbsent c k envid srcva perm) :
    ¬ IpcSendSound c k envid value srcva perm := by
  rintro ⟨-, hinval⟩
  obtain ⟨hlt, hoff, hcp, dst, cur, gsrc, hdst, hrecv, hcur, hg, habs, hnref⟩ := h
  obtain ⟨k', hr, -⟩ := hinval dst cur gsrc hdst hrecv hcur hg hlt habs
  have hg' : (k.clearIpcPerm dst).dirs cur = some gsrc := by rwa [clearIpcPerm_dirs]
  have hcur' : ((k.clearIpcPerm dst).cpus c).cpuEnv = some cur := hcur
  have habs' : (k.clearIpcPerm dst).mem.PteAbsent gsrc srcva := habs
  rw [sysIpcTrySend_run hdst hrecv] at hr
  obtain ⟨o, k₂, hsend, hr₁⟩ := Routine.bind_eq_ret.mp hr
  cases o with
  | error err =>
    obtain ⟨herr, -⟩ := Outcome.ret.inj hr₁
    rw [Except.error.inj herr] at hsend
    exact (ipcSendPage_absent hcur' hg' habs' hlt).2 ⟨hoff, hcp⟩ hnref k₂ hsend
  | ok ipcPerm =>
    obtain ⟨hv, -⟩ := ipcDeliver_ret hr₁
    cases hv

end Ipc

/-- A page is handed over, by `sys_page_map` or with a message, as its present
source entry allows, exactly if no call of the two meets an absent source entry
below an existing page table with arguments that are in order otherwise. -/
theorem page_grant_sound_iff (c : ℕ) (k : Kern) :
    (∀ srcenvid srcva dstenvid dstva perm,
      PageMapSound c k srcenvid srcva dstenvid dstva perm ↔
        ¬ PageMapAbsent c k srcenvid srcva dstenvid dstva perm) ∧
    ∀ envid value srcva perm, IpcSendSound c k envid value srcva perm ↔
      ¬ IpcSendAbsent c k envid srcva perm :=
  ⟨fun _ _ _ _ _ => ⟨fun h hb => not_pageMapSound_of_absent hb h, pageMapSound_of_not_absent⟩,
    fun _ _ _ _ => ⟨fun h hb => not_ipcSendSound_of_absent hb h, ipcSendSound_of_not_absent⟩⟩

/-- One environment with a page table for the low addresses and nothing mapped. -/
def emptyTableKern : Kern where
  mem :=
    { npages := 4
      pages := fun _ => ⟨none, 1⟩
      pageFreeList := none
      kernPgdir := 3
      word := fun p i => if p = 1 ∧ i = 0 then pdeOf 2 else 0#32 }
  envs := fun _ =>
    { envTf := initialTf, envLink := none, envId := 0x1000#32, envParentId := 0#32, envType := .user
      envStatus := .running, envRuns := 1#32, envCpunum := 0, envPgdir := some 1
      envPgfaultUpcall := 0#32, envIpcRecving := false, envIpcDstva := 0#32, envIpcValue := 0#32
      envIpcFrom := 0#32, envIpcPerm := 0#32 }
  envFreeList := none
  cpus := fun _ => ⟨.started, some (envAt 0), false⟩
  kernelLock := some 0

/-- Mapping an empty entry to the next page succeeds, with the page 0. -/
theorem page_map_empty_entry : sysPageMap 0 0#32 0#32 0#32 0x1000#32 5#32 emptyTableKern =
      .ret (.ok 0#32) { emptyTableKern with
        mem := (emptyTableKern.mem.incRef 0).setWord 2 1 (pteOf 0 5#32) } ∧
    ¬ PageMapSound 0 emptyTableKern 0#32 0#32 0#32 0x1000#32 5#32 := by
  refine ⟨rfl, not_pageMapSound_of_absent ⟨by decide, by decide, by decide, 0, 0, 1, rfl, rfl, rfl,
    ⟨by decide, 0#32, rfl, by decide, by decide⟩, ?_⟩⟩
  exact fun h => absurd h.1 (by decide)

end Sisop
