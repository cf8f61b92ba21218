import Sisop.KernelSpace

/-! Pointers to pages stay within the `pages` array, in every run of the kernel,
whatever its callers do. -/
namespace Sisop

open Routine (Triple Stays)

/-- The links of the free list are pages of a memory of `n` pages. -/
structure PmInRange (n : ℕ) (s : Pm) : Prop where
  npages : s.npages = n
  head : ∀ p, s.pageFreeList = some p → p < n
  link : ∀ q p, (s.pages q).ppLink = some p → p < n

/-- So are the page directories of the environments. -/
structure InRange (n : ℕ) (k : Kern) : Prop where
  mem : PmInRange n k.mem
  dir : ∀ e g, k.dirs e = some g → g < n

section Memory

variable {n p g i : ℕ} {va perm w : Word} {s : Pm} {E : Pm → Prop}

theorem PmInRange.setRef (h : PmInRange n s) (p : ℕ) (r : BitVec 16) : PmInRange n (s.setRef p r) := by
  refine ⟨h.npages, h.head, ?_⟩
  intro q p' hl
  rw [setRef_pages] at hl
  split_ifs at hl
  · exact h.link p p' hl
  · exact h.link q p' hl

theorem PmInRange.setLink {l : Option ℕ} (h : PmInRange n s) (p : ℕ)
    (hl : ∀ q, l = some q → q < n) : PmInRange n (s.setLink p l) := by
  refine ⟨h.npages, h.head, ?_⟩
  intro q p' hq
  rw [setLink_pages] at hq
  split_ifs at hq
  · exact hl p' hq
  · exact h.link q p' hq

theorem PmInRange.setWords (h : PmInRange n s) (w : ℕ → ℕ → Word) :
    PmInRange n ({ s with word := w } : Pm) := ⟨h.npages, h.head, h.link⟩

theorem range_kaddr (pa : Word) :
    Triple (PmInRange n) (kaddr pa) (fun p s => PmInRange n s ∧ p < n) E := by
  apply Triple.intro
  intro s hs
  unfold kaddr
  split_ifs with hb
  · exact ⟨hs, hs.npages ▸ hb⟩
  · trivial

theorem range_pageAlloc :
    Triple (PmInRange n) pageAlloc (fun r s => PmInRange n s ∧ ∀ p, r = some p → p < n) E := by
  refine .bind (Q := fun o s => PmInRange n s ∧ ∀ p, o = some p → p < n)
    (.gets fun s hs => ⟨hs, hs.head⟩) fun o => ?_
  cases o with
  | none => exact .pure fun s hs => ⟨hs.1, fun _ h => by cases h⟩
  | some p =>
    refine .bind (Q := fun _ s => PmInRange n s ∧ p < n) (.modify fun s hs => ?_) fun _ => ?_
    · exact ⟨⟨hs.1.npages, hs.1.link p, hs.1.link⟩, hs.2 p rfl⟩
    refine .bind (Q := fun _ s => PmInRange n s ∧ p < n) (.modify fun s hs => ?_) fun _ => ?_
    · exact ⟨hs.1.setLink p (fun _ h => by cases h), hs.2⟩
    refine .bind (Q := fun _ s => PmInRange n s ∧ p < n) (.intro fun s hs => ?_) fun q => ?_
    · have h := (range_kaddr (n := n) (E := fun _ => True) (page2pa p)).run s hs.1
      unfold page2kva
      cases hr : kaddr (page2pa p) s with
      | ret q s' =>
        rw [hr] at h
        exact ⟨h.1, hs.2⟩
      | left s' => exact absurd hr (stays_kaddr _ s s')
      | halt => trivial
    refine .bind (Q := fun _ s => PmInRange n s ∧ p < n) (.modify fun s hs => ?_) fun _ => ?_
    · exact ⟨hs.1.setWords _, hs.2⟩
    · exact .pure fun s hs => ⟨hs.1, fun p' h => Option.some.inj h ▸ hs.2⟩

theorem range_pageFree (hp : p < n) : Triple (PmInRange n) (pageFree p) (fun _ => PmInRange n) E := by
  apply Triple.intro
  intro s hs
  unfold pageFree
  split_ifs
  · trivial
  · trivial
  · have h := hs.setLink p hs.head
    refine ⟨h.npages, fun q hq => ?_, h.link⟩
    rw [← Option.some.inj hq]
    exact hp

theorem range_pageDecref (hp : p < n) :
    Triple (PmInRange n) (pageDecref p) (fun _ => PmInRange n) E :=
  .bind (.modify (Q := fun _ => PmInRange n) fun _ hs => hs.setRef p _) fun _ =>
    .bind (.gets_same _) fun _ => .ite_same (range_pageFree hp) (.pure fun _ h => h)

theorem range_pgdirWalk (create : Bool) :
    Triple (PmInRange n) (pgdirWalk g va create) (fun _ => PmInRange n) E := by
  have htable : Triple (PmInRange n) (pgdirWalk.entryTable g va) (fun _ => PmInRange n) E :=
    .bind (.gets_same _) fun _ => (range_kaddr _).post fun _ _ h => h.1
  refine .bind (.gets_same _) fun pde => .ite_same (.ite_same ?_ (.pure fun _ h => h)) ?_
  · refine .bind range_pageAlloc fun o => ?_
    cases o with
    | none => exact .pure fun _ h => h.1
    | some page =>
      refine .bind (.modify (Q := fun _ => PmInRange n) fun _ hs => hs.1.setRef page _) fun _ => ?_
      refine .bind (.modify (Q := fun _ => PmInRange n) fun _ hs => hs.setWords _) fun _ => ?_
      exact .bind htable fun _ => .pure fun _ h => h
  · exact .bind htable fun _ => .pure fun _ h => h

theorem range_pageLookup : Triple (PmInRange n) (pageLookup g va)
    (fun r s => PmInRange n s ∧ ∀ page pte, r = some (page, pte) → page < n) E := by
  refine .bind (range_pgdirWalk false) fun o => ?_
  cases o with
  | none => exact .pure fun _ h => ⟨h, fun _ _ he => by cases he⟩
  | some pte =>
    refine .bind (.gets_same _) fun w => .bind (range_kaddr (pteAddr w)) fun page => ?_
    refine .pure fun s hs => ⟨hs.1, fun page' pte' he => ?_⟩
    obtain ⟨rfl, -⟩ := Prod.mk.inj (Option.some.inj he)
    exact hs.2

theorem range_pageRemove : Triple (PmInRange n) (pageRemove g va) (fun _ => PmInRange n) E := by
  refine .bind range_pageLookup fun r => ?_
  rcases r with _ | ⟨page, pte⟩
  · exact .pure fun _ h => h.1
  · refine .bind (Q := fun _ => PmInRange n) (.intro fun s hs => ?_) fun _ => ?_
    · exact (range_pageDecref (hs.2 page pte rfl)).run s hs.1
    · exact .modify fun _ hs => hs.setWords _

theorem range_pageInsert (pp : ℕ) :
    Triple (PmInRange n) (pageInsert g pp va perm) (fun _ => PmInRange n) E := by
  refine .bind (range_pgdirWalk true) fun o => ?_
  cases o with
  | none => exact .pure fun _ h => h
  | some entry =>
    refine .bind (.modify (Q := fun _ => PmInRange n) fun _ hs => hs.setRef pp _) fun _ => ?_
    refine .bind (.gets_same _) fun pte => ?_
    refine .ite_bind (a := ()) (Q := fun _ => PmInRange n) (range_pageRemove.pre fun _ h => h.1)
      (fun _ h => h.1) fun _ => ?_
    exact .bind (.modify (Q := fun _ => PmInRange n) fun _ hs => hs.setWords _) fun _ =>
      .pure fun _ h => h

theorem range_freeTable (d : ℕ) : Triple (PmInRange n) (freeTable g d) (fun _ => PmInRange n) E := by
  refine .bind (.gets_same _) fun pde => .ite_same ?_ (.pure fun _ h => h)
  refine .bind ((range_kaddr _).post fun _ _ h => h.1) fun pt => ?_
  refine .bind (.loop (I := fun _ => PmInRange n) _ fun j _ => ?_) fun _ => ?_
  · exact .bind (.gets_same _) fun _ => .ite_same range_pageRemove (.pure fun _ h => h)
  refine .bind (.modify (Q := fun _ => PmInRange n) fun _ hs => hs.setWords _) fun _ => ?_
  refine .bind (range_kaddr (pteAddr pde)) fun pp => .intro fun s hs => ?_
  exact (range_pageDecref hs.2).run s hs.1

theorem range_freeTables (m : ℕ) :
    Triple (PmInRange n) (Routine.loop m fun pdeno => freeTable g pdeno) (fun _ => PmInRange n) E :=
  .loop (I := fun _ => PmInRange n) m fun d _ => range_freeTable d

theorem range_setupDir :
    Triple (PmInRange n) setupDir (fun r s => PmInRange n s ∧ ∀ g, r = some g → g < n) E := by
  refine .bind range_pageAlloc fun o => ?_
  cases o with
  | none => exact .pure fun _ h => ⟨h.1, fun _ he => by cases he⟩
  | some p =>
    refine .bind (.modify (Q := fun _ => PmInRange n) fun _ hs => hs.1.setRef p _) fun _ => ?_
    refine .bind (range_kaddr (page2pa p)) fun g => ?_
    refine .bind (.modify (Q := fun _ s => PmInRange n s ∧ g < n) fun _ hs => ⟨hs.1.setWords _, hs.2⟩)
      fun _ => ?_
    refine .bind (.modify (Q := fun _ s => PmInRange n s ∧ g < n) fun _ hs => ⟨hs.1.setWords _, hs.2⟩)
      fun _ => .pure fun s hs => ⟨hs.1, fun g' he => Option.some.inj he ▸ hs.2⟩

theorem range_regionAlloc (len : Word) :
    Triple (PmInRange n) (regionAlloc g va len) (fun _ => PmInRange n) E := by
  refine .loop (I := fun _ => PmInRange n) _ fun i _ => ?_
  refine .bind range_pageAlloc fun o => ?_
  cases o with
  | none => exact .halt
  | some pp => exact .bind ((range_pageInsert pp).pre fun _ h => h.1) fun _ => .pure fun _ h => h

theorem range_loadSegments (segments : List (Word × Word)) :
    Triple (PmInRange n) (loadSegments g segments) (fun _ => PmInRange n) E := by
  induction segments with
  | nil => exact range_regionAlloc _
  | cons seg segments ih => exact .bind (range_regionAlloc _) fun _ => ih

theorem range_storeBytes (bs : List (BitVec 8)) :
    Triple (PmInRange n) (storeBytes g va bs) (fun _ => PmInRange n) E := by
  induction bs generalizing va with
  | nil => exact .pure fun _ h => h
  | cons b bs ih =>
    refine .bind (Q := fun _ => PmInRange n) (.intro fun s hs => ?_) fun _ => ih
    unfold storeByte
    simp only
    split_ifs
    · exact hs.setWords _
    · trivial

end Memory

section Kernel

variable {n c p : ℕ} {k k' : Kern} {e : EnvIdx} {α : Type} {E : Kern → Prop}

theorem spaceSteady_inRange : SpaceSteady (InRange n) := by
  intro k k' hs hk
  constructor
  · rw [hs.mem]
    exact hk.mem
  · rw [hs.dirs]
    exact hk.dir

theorem InRange.setMem {t : Pm} (h : InRange n k) (ht : PmInRange n t) :
    InRange n { k with mem := t } := ⟨ht, h.dir⟩

/-- A routine on memory. -/
theorem range_mem {m : Routine Pm α} {Q : α → Pm → Prop}
    (hm : Triple (PmInRange n) m Q (fun _ => False)) (hQ : ∀ a s, Q a s → PmInRange n s) :
    Triple (InRange n) (mem m) (fun a k => InRange n k ∧ Q a k.mem) E :=
  .zoom hm (fun _ h => h.mem) (fun _ a t h ht => ⟨h.setMem (hQ a t ht), ht⟩) fun _ _ _ h => h.elim

theorem range_mem' {m : Routine Pm α}
    (hm : Triple (PmInRange n) m (fun _ => PmInRange n) (fun _ => False)) :
    Triple (InRange n) (mem m) (fun _ => InRange n) E :=
  (range_mem hm fun _ _ h => h).post fun _ _ h => h.1

theorem range_envFree (e : EnvIdx) (E : Kern → Prop) :
    Triple (InRange n) (envFree e) (fun _ => InRange n) E := by
  refine .bind (triple_envPgdir e) fun g => ?_
  refine .bind (Q := fun _ k => InRange n k ∧ g < n) ?_ fun _ => ?_
  · have hloop : Triple (InRange n) (mem (Routine.loop userPdes fun pdeno => freeTable g pdeno))
        (fun _ => InRange n) E := range_mem' (range_freeTables userPdes)
    apply Triple.of_ret (Stays.zoom (.loop (fun d => stays_freeTable g d) _))
    intro k _ k' hk hr
    exact ⟨hloop.ret hk.1 hr, hk.1.dir e g hk.2⟩
  refine .bind (Q := fun _ k => InRange n k ∧ g < n) (.modify fun k hk => ⟨⟨hk.1.mem, ?_⟩, hk.2⟩)
    fun _ => ?_
  · intro i g' hg'
    rw [setEnv_dirs] at hg'
    split_ifs at hg'
    exact hk.1.dir i g' hg'
  refine .bind (Q := fun _ => InRange n) (.intro fun k hk => ?_) fun _ => ?_
  · exact (range_mem' (range_pageDecref hk.2)).run k hk.1
  refine .bind (spaceSteady_inRange.setEnv e (fun _ => rfl) fun _ => rfl) fun _ => ?_
  refine .bind (.modify (Q := fun _ => InRange n) fun k hk => ⟨hk.mem, ?_⟩) fun _ => ?_
  · intro i g' hg'
    rw [setEnv_dirs] at hg'
    split_ifs at hg' with hi
    · exact hk.dir e g' hg'
    · exact hk.dir i g' hg'
  · exact .modify fun k hk => ⟨hk.mem, hk.dir⟩

theorem range_envAlloc (parentId : Word) :
    Triple (InRange n) (envAlloc parentId) (fun _ => InRange n) E := by
  refine .of_ret (stays_envAlloc parentId) fun k r k' hk hr => ?_
  obtain ⟨err, rfl, rfl | ⟨t, ht, rfl⟩⟩ | ⟨e, g, t, rfl, hf, ht, rfl⟩ := envAlloc_ret hr
  · exact hk
  · exact hk.setMem ((range_setupDir (E := fun _ => True)).ret hk.mem ht).1
  · obtain ⟨hm, hg⟩ := (range_setupDir (E := fun _ => True)).ret hk.mem ht
    refine ⟨hm, fun i g' hg' => ?_⟩
    rw [alloced_dirs] at hg'
    split_ifs at hg'
    · exact hg g' hg'
    · exact hk.dir i g' hg'

theorem range_sysPageAlloc (envid va perm : Word) :
    Triple (InRange n) (sysPageAlloc c envid va perm) (fun _ => InRange n) E := by
  refine .bind (keeps_envid2env envid true) fun r => ?_
  cases r with
  | error _ => exact .pure fun _ h => h
  | ok e =>
    refine .ite_same ?_ (.pure fun _ h => h)
    refine .bind (range_mem range_pageAlloc fun _ _ h => h.1) fun r => ?_
    cases r with
    | none => exact .pure fun _ h => h.1
    | some page =>
      refine .bind (Q := fun _ k => InRange n k ∧ page < n)
        ((keeps_envPgdir e).post fun _ _ h => ⟨h.1, h.2.2 page rfl⟩) fun g => ?_
      refine .bind (Q := fun _ k => InRange n k ∧ page < n) (.intro fun k hk => ?_) fun r => ?_
      · have hins : Triple (PmInRange n) (pageInsert g page va perm) (fun _ => PmInRange n)
            (fun _ => False) := range_pageInsert page
        have h := (range_mem' (E := fun _ => True) hins).run k hk.1
        cases hr : mem (pageInsert g page va perm) k with
        | ret a k' =>
          rw [hr] at h
          exact ⟨h, hk.2⟩
        | left k' => exact absurd hr (Stays.zoom (stays_pageInsert _ _ _ _) k k')
        | halt => trivial
      cases r with
      | error _ =>
        refine .bind (Q := fun _ => InRange n) (.intro fun k hk => ?_) fun _ => .pure fun _ h => h
        exact (range_mem' (range_pageFree hk.2)).run k hk.1
      | ok _ => exact .pure fun _ h => h.1

theorem range_insertTail (e : EnvIdx) (page : ℕ) (va perm : Word) (v : Word) :
    Triple (InRange n) (do
      let g ← envPgdir e
      match (← mem (pageInsert g page va perm)) with
      | .error _ => pure (.error .noMem)
      | .ok () => pure (.ok v) : Routine Kern SysRet) (fun _ => InRange n) E := by
  refine .bind (keeps_envPgdir e) fun g => .bind (range_mem' (range_pageInsert page)) fun r => ?_
  cases r <;> exact .pure fun _ h => h

theorem range_sysPageMap (srcenvid srcva dstenvid dstva perm : Word) :
    Triple (InRange n) (sysPageMap c srcenvid srcva dstenvid dstva perm) (fun _ => InRange n) E := by
  refine .bind (keeps_envid2env srcenvid true) fun r => ?_
  cases r with
  | error _ => exact .pure fun _ h => h
  | ok src =>
    refine .bind (keeps_envid2env dstenvid true) fun r => ?_
    cases r with
    | error _ => exact .pure fun _ h => h
    | ok dst =>
      refine .ite_same (.bind (keeps_envPgdir src) fun gsrc => ?_) (.pure fun _ h => h)
      refine .bind (range_mem range_pageLookup fun _ _ h => h.1) fun r => ?_
      rcases r with _ | ⟨page, pte⟩
      · exact .pure fun _ h => h.1
      · refine .bind (.gets_same _) fun w => .ite_same (.pure fun _ h => h.1) ?_
        exact (range_insertTail dst page dstva perm _).pre fun _ h => h.1

theorem range_sysPageUnmap (envid va : Word) :
    Triple (InRange n) (sysPageUnmap c envid va) (fun _ => InRange n) E := by
  refine .bind (keeps_envid2env envid true) fun r => ?_
  cases r with
  | error _ => exact .pure fun _ h => h
  | ok e =>
    refine .ite_same (.bind (keeps_envPgdir e) fun g => ?_) (.pure fun _ h => h)
    exact .bind (range_mem' range_pageRemove) fun _ => .pure fun _ h => h

theorem range_sysIpcTrySend (envid value srcva perm : Word) :
    Triple (InRange n) (sysIpcTrySend c envid value srcva perm) (fun _ => InRange n) E := by
  have hpage (e : EnvIdx) : Triple (InRange n) (ipcSendPage c e srcva perm) (fun _ => InRange n) E := by
    refine .ite_same (.ite_same (.bind keeps_curenv fun cur => ?_) (.pure fun _ h => h))
      (.pure fun _ h => h)
    refine .bind (keeps_envPgdir cur) fun gsrc => ?_
    refine .bind (range_mem range_pageLookup fun _ _ h => h.1) fun r => ?_
    rcases r with _ | ⟨page, pte⟩
    · exact .pure fun _ h => h.1
    refine .bind (.gets_same _) fun w => .ite_same (.pure fun _ h => h.1) ?_
    refine .bind (.gets_same _) fun dstva => .ite_same ?_ (.pure fun _ h => h.1)
    exact (range_insertTail e page dstva perm _).pre fun _ h => h.1
  refine .bind (keeps_envid2env envid false) fun r => ?_
  cases r with
  | error _ => exact .pure fun _ h => h
  | ok e =>
    refine .bind (.gets_same _) fun recving => ?_
    cases recving with
    | false => exact .pure fun _ h => h
    | true =>
      refine .bind (spaceSteady_inRange.setEnv e (fun _ => rfl) fun _ => rfl) fun _ =>
        .bind (hpage e) fun r => ?_
      cases r with
      | error _ => exact .pure fun _ h => h
      | ok ipcPerm =>
        refine .bind keeps_curenv fun cur => .bind (.gets_same _) fun curId => ?_
        exact .bind (spaceSteady_inRange.setEnv e (fun _ => rfl) fun _ => rfl) fun _ => .pure fun _ h => h

theorem range_sysExofork : Triple (InRange n) (sysExofork c) (fun _ => InRange n) E := by
  refine .bind keeps_curenv fun cur => .bind (.gets_same _) fun curId => ?_
  refine .bind (range_envAlloc curId) fun r => ?_
  cases r with
  | error _ => exact .pure fun _ h => h
  | ok e =>
    refine .bind (spaceSteady_inRange.setEnv e (fun _ => rfl) fun _ => rfl) fun _ => ?_
    refine .bind (.modify (Q := fun _ => InRange n) fun k hk => ?_) fun _ => ?_
    · exact spaceSteady_inRange _ _ (SameSpace.setEnv k e rfl rfl) hk
    · exact .bind (.gets_same _) fun id => .pure fun _ h => h

theorem range_syscall (cgetc no a1 a2 a3 a4 a5 : Word) :
    Triple (InRange n) (syscall c cgetc no a1 a2 a3 a4 a5) (fun _ => InRange n) (InRange n) := by
  have hP := @spaceSteady_inRange n
  unfold syscall
  split
  case h_1 => exact .bind (hP.sysCputs range_envFree a1 a2) fun _ => .pure fun _ h => h
  case h_2 => exact .pure fun _ h => h
  case h_3 => exact .bind keeps_curenv fun _ => .bind (.gets_same _) fun _ => .pure fun _ h => h
  case h_4 => exact hP.sysEnvDestroy range_envFree a1
  case h_5 => exact range_sysPageAlloc a1 a2 a3
  case h_6 => exact range_sysPageMap a1 a2 a3 a4 a5
  case h_7 => exact range_sysPageUnmap a1 a2
  case h_8 => exact range_sysExofork
  case h_9 => exact hP.sysEnvSetStatus a1 a2
  case h_10 => exact hP.sysEnvSetPgfaultUpcall a1 a2
  case h_11 => exact .bind hP.schedYield fun _ => .pure fun _ h => h.elim
  case h_12 => exact range_sysIpcTrySend a1 a2 a3 a4
  case h_13 => exact hP.sysIpcRecv a1
  case h_14 => exact .pure fun _ h => h

theorem range_pageFaultHandler (faultVa : Word) (tf : Trapframe) :
    Triple (InRange n) (pageFaultHandler c faultVa tf) (fun _ => InRange n) (InRange n) := by
  have hP := @spaceSteady_inRange n
  refine .ite_same .halt (.bind keeps_curenv fun cur => ?_)
  refine .bind (.gets_same _) fun upcall => .ite_same (hP.envDestroy range_envFree cur) ?_
  refine .bind (hP.userMemAssert range_envFree cur _ _ _) fun _ => .bind (keeps_envPgdir cur) fun g => ?_
  refine .bind (range_mem' (range_storeBytes _)) fun _ => ?_
  exact .bind (hP.setEnv cur (fun _ => rfl) fun _ => rfl) fun _ =>
    (hP.envRun cur).post fun _ _ h => h.elim

theorem range_trapDispatch (inp : TrapInput) :
    Triple (InRange n) (trapDispatch c inp) (fun _ => InRange n) (InRange n) := by
  have hP := @spaceSteady_inRange n
  unfold trapDispatch
  simp only
  split
  case h_1 => exact .halt
  case h_2 => exact range_pageFaultHandler _ _
  case h_3 =>
    refine .bind keeps_curenv fun cur => .bind (range_syscall ..) fun r => ?_
    exact hP.setEnv cur (fun _ => rfl) fun _ => rfl
  case h_4 => exact .pure fun _ h => h
  case h_5 => exact hP.schedYield.post fun _ _ h => h.elim
  case h_6 => exact .ite_same .halt (.bind keeps_curenv fun cur => hP.envDestroy range_envFree cur)

theorem range_trapFromUser (tf : Trapframe) :
    Triple (InRange n) (trapFromUser c tf) (fun _ => InRange n) (InRange n) := by
  have hP := @spaceSteady_inRange n
  refine .bind keeps_curenv fun cur => .bind hP.lockKernel fun _ => .bind (.gets_same _) fun st => ?_
  refine .ite_same ?_ (hP.setEnv cur (fun _ => rfl) fun _ => rfl)
  refine .bind (range_envFree cur _) fun _ => .bind (hP.setCurenv none) fun _ => ?_
  exact hP.schedYield.post fun _ _ h => h.elim

theorem range_trap (inp : TrapInput) :
    Triple (InRange n) (trap c inp) (fun _ => InRange n) (InRange n) := by
  have hP := @spaceSteady_inRange n
  have hyield := (hP.schedYield (c := c)).post (Q := fun _ => InRange n) fun _ _ h => h.elim
  refine .bind (.gets_same _) fun old => .bind (.modify (Q := fun _ => InRange n) fun k hk => ?_)
    fun _ => ?_
  · exact hP _ _ (SameSpace.setCpu k c _) hk
  refine .ite_bind (a := ()) (Q := fun _ => InRange n) (hP.lockKernel.pre fun _ h => h.1)
    (fun _ h => h.1) fun _ => ?_
  refine .ite_bind (a := ()) (Q := fun _ => InRange n) ((range_trapFromUser inp.tf).pre fun _ h => h.1)
    (fun _ h => h.1) fun _ => ?_
  refine .bind (range_trapDispatch inp) fun _ => .bind (.gets_same _) fun running => ?_
  cases running with
  | some cur => exact (hP.envRun cur).post fun _ _ h => h.elim
  | none => exact hyield

theorem InRange.userStoreByte {g : ℕ} {va : Word} {b : BitVec 8} {t : Pm} (hk : InRange n k)
    (hr : userStoreByte g va b k.mem = .ret () t) : InRange n { k with mem := t } := by
  unfold Sisop.userStoreByte at hr
  simp only at hr
  split_ifs at hr
  obtain ⟨-, rfl⟩ := Outcome.ret.inj hr
  exact hk.setMem (hk.mem.setWords _)

theorem Step.inRange {ev : Event} (h : Step k ev k') (hk : InRange n k) : InRange n k' := by
  cases h with
  | trap ht h => exact (range_trap _).left hk h
  | start hu hs h => exact spaceSteady_inRange.mpMain.left hk h
  | store hx hg h => exact hk.userStoreByte h

theorem range_createEnvs (programs : List (Elf × EnvType)) :
    Triple (InRange n) (createEnvs programs) (fun _ => InRange n) E := by
  induction programs with
  | nil => exact .pure fun _ h => h
  | cons program programs ih =>
    refine .bind (.bind (range_envAlloc 0#32) fun r => ?_) fun _ => ih
    cases r with
    | error _ => exact .halt
    | ok e =>
      refine .bind (keeps_envPgdir e) fun g => .bind (range_mem' (range_loadSegments _)) fun _ => ?_
      exact spaceSteady_inRange.setEnv e (fun _ => rfl) fun _ => rfl

theorem MemInv.pmInRange {s : Pm} {D : EnvIdx → Option ℕ} {held : Multiset ℕ}
    (h : MemInv s D held) : PmInRange s.npages s := by
  obtain ⟨l, hl⟩ := h.free
  refine ⟨rfl, fun p hp => ?_, fun q p hq => ?_⟩
  · apply hl.bound
    cases l with
    | nil => exact absurd (hp.symm.trans hl.chain) (by simp)
    | cons a l =>
      rw [Option.some.inj (hp.symm.trans hl.chain.1)]
      exact List.mem_cons_self
  · apply hl.bound
    by_cases hql : q ∈ l
    · exact hl.chain.next_mem hql hq
    · rw [hl.unlinked q hql] at hq
      cases hq

theorem Booted.inRange (h : Booted k) : ∃ n ≤ 2^20, InRange n k := by
  obtain ⟨m, s, c, programs, hm, h⟩ := booted_iff.mp h
  refine ⟨s.npages, hm.memInv.npages_le, ?_⟩
  have hP := @spaceSteady_inRange s.npages
  have h0 : InRange s.npages (envInit (afterMemInit s)) := ⟨hm.memInv.pmInRange, fun _ _ hg => by cases hg⟩
  have ht : Triple (fun k => k = afterMemInit s) (startFirst c programs) (fun _ _ => False)
      (InRange s.npages) := by
    refine .bind (.modify (Q := fun _ => InRange s.npages) fun k hk => by rw [hk]; exact h0) fun _ => ?_
    refine .bind (.modify (Q := fun _ => InRange s.npages) fun k hk => ?_) fun _ => ?_
    · exact hP _ _ (SameSpace.setCpu k c _) hk
    · exact .bind hP.lockKernel fun _ => .bind (range_createEnvs programs) fun _ => hP.schedYield
  exact ht.left rfl h

/-- In every run all pointers to pages stay within memory, whatever the callers do. -/
theorem inRange_of_reachable (h : Reachable Booted AnyStep k) : ∃ n ≤ 2^20, InRange n k :=
  h.invariant (fun _ => Booted.inRange) fun _ _ hk ⟨_, hs⟩ => hk.imp fun _ hn => ⟨hn.1, hs.inRange hn.2⟩

end Kernel
end Sisop
