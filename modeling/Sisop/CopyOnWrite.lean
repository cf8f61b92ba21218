import Sisop.ForkPages
import Sisop.Routine

/-! Copy-on-write `fork`, as a system of processes. Every system call of `fork` and of its
page fault handler `pgfault` is a step, and so is every byte that `memcpy` copies and every
byte that a program writes; the processes take their steps in any order. -/
namespace Sisop

/-- Where a process is in `pgfault`, for a fault on page `pn`: before `sys_page_alloc`; in
`memcpy`, after `i` bytes, or behind it; before `sys_page_unmap`. -/
inductive FaultAt where
  | alloc (pn : ℕ)
  | copy (pn i : ℕ)
  | unmap (pn : ℕ)

/-- Where a process is in `fork`: before the `sys_page_alloc` of the child's exception stack;
at page `pn` of the loops; in `duppage`, which has read the entry, before its first
`sys_page_map`; between the two; before `sys_env_set_status`. -/
inductive ForkAt where
  | xstack (child : ℕ)
  | loop (child pn : ℕ)
  | dup (child pn : ℕ) (cow : Bool)
  | remap (child pn : ℕ)
  | start (child : ℕ)

def ForkAt.child : ForkAt → ℕ
  | xstack c => c
  | loop c _ => c
  | dup c _ _ => c
  | remap c _ => c
  | start c => c

/-- An `embryo` has been created, but is not runnable yet. -/
inductive Life where
  | absent | embryo | running
  deriving DecidableEq

/-- The processes, and the bytes of the physical pages. `expected p pn i` is the value that
`p` last wrote to byte `i` of its page `pn` since its creation, or else the value that its
creator had there when the page was duplicated. -/
structure ForkSys where
  life : ℕ → Life
  space : ℕ → Space
  fault : ℕ → Option FaultAt
  fork : ℕ → Option ForkAt
  byte : ℕ → ℕ → BitVec 8
  expected : ℕ → ℕ → ℕ → BitVec 8

namespace ForkSys

/-- Change the entry of `p` for its page `pn`. -/
def setEntry (s : ForkSys) (p pn : ℕ) (e : Option (ℕ × Word)) : ForkSys :=
  { s with space := Function.update s.space p (Function.update (s.space p) pn e) }

def setFault (s : ForkSys) (p : ℕ) (f : Option FaultAt) : ForkSys :=
  { s with fault := Function.update s.fault p f }

def setFork (s : ForkSys) (p : ℕ) (f : Option ForkAt) : ForkSys :=
  { s with fork := Function.update s.fork p f }

def setByte (s : ForkSys) (page i : ℕ) (v : BitVec 8) : ForkSys :=
  { s with byte := Function.update s.byte page (Function.update (s.byte page) i v) }

/-- A page of zeros. -/
def clear (s : ForkSys) (page : ℕ) : ForkSys :=
  { s with byte := Function.update s.byte page fun _ => 0 }

def expect (s : ForkSys) (p pn : ℕ) (f : ℕ → BitVec 8) : ForkSys :=
  { s with expected := Function.update s.expected p (Function.update (s.expected p) pn f) }

/-- No process maps the page. -/
def Unmapped (s : ForkSys) (page : ℕ) : Prop := ∀ p pn pte, s.space p pn ≠ some (page, pte)

/-- The byte that a process reads at an address, where it maps a page. -/
def read (s : ForkSys) (p : ℕ) (va : Word) : Option (BitVec 8) :=
  (s.space p (pgnum va)).map fun e => s.byte e.1 (pgoff va)

end ForkSys

/-- `PTE_W|PTE_U|PTE_P`. -/
abbrev pteWUP : Word := pteW ||| pteU ||| pteP

/-- The steps. A running process takes the steps of its program only outside `pgfault`, and
those of `fork` as well; the handler itself writes to the exception stack only. A process may
die at any time, as it does when a system call fails, or when its exception stack cannot take
another frame. -/
inductive ForkStep : ForkSys → ForkSys → Prop
  /-- A write to a page that is mapped writable. The parent does not write a page between the
  two `sys_page_map` calls of its `duppage`. -/
  | write {s : ForkSys} {p pn page i : ℕ} {pte : Word} (v : BitVec 8) (hp : s.life p = .running)
      (hf : s.fault p = none ∨ pn = uxstackPage) (hm : s.space p pn = some (page, pte))
      (hw : has pte pteW) (hi : i < pgsize) (hd : ∀ c, s.fork p ≠ some (.remap c pn)) :
      ForkStep s ((s.setByte page i v).expect p pn (Function.update (s.expected p pn) i v))
  /-- A write to a copy-on-write page enters `pgfault`. -/
  | fault {s : ForkSys} {p pn page : ℕ} {pte : Word} (hp : s.life p = .running)
      (hf : s.fault p = none) (hx : pn ≠ uxstackPage) (hm : s.space p pn = some (page, pte))
      (hw : ¬ has pte pteW) (hc : has pte pteCow) (hd : ∀ c, s.fork p ≠ some (.remap c pn)) :
      ForkStep s (s.setFault p (some (.alloc pn)))
  /-- `sys_page_alloc(0, PFTEMP, PTE_W|PTE_U|PTE_P)`. -/
  | alloc {s : ForkSys} {p pn page : ℕ} (hf : s.fault p = some (.alloc pn)) (hu : s.Unmapped page) :
      ForkStep s (((s.clear page).setEntry p pftempPage (some (page, pteWUP))).setFault p
        (some (.copy pn 0)))
  /-- A byte of `memcpy(PFTEMP, addr, PGSIZE)`. -/
  | copy {s : ForkSys} {p pn i src dst : ℕ} {pte pte' : Word}
      (hf : s.fault p = some (.copy pn i)) (hi : i < pgsize) (hm : s.space p pn = some (src, pte))
      (ht : s.space p pftempPage = some (dst, pte')) :
      ForkStep s ((s.setByte dst i (s.byte src i)).setFault p (some (.copy pn (i+1))))
  /-- `sys_page_map(0, PFTEMP, 0, addr, PTE_W|PTE_U|PTE_P)`. -/
  | map {s : ForkSys} {p pn dst : ℕ} {pte : Word} (hf : s.fault p = some (.copy pn pgsize))
      (ht : s.space p pftempPage = some (dst, pte)) :
      ForkStep s ((s.setEntry p pn (some (dst, pteWUP))).setFault p (some (.unmap pn)))
  /-- `sys_page_unmap(0, PFTEMP)`. -/
  | unmap {s : ForkSys} {p pn : ℕ} (hf : s.fault p = some (.unmap pn)) :
      ForkStep s ((s.setEntry p pftempPage none).setFault p none)
  /-- `sys_page_alloc(0, UXSTACKTOP - PGSIZE, PTE_U|PTE_W|PTE_P)` in `set_pgfault_handler`. -/
  | handler {s : ForkSys} {p page : ℕ} (hp : s.life p = .running) (hf : s.fault p = none)
      (hk : s.fork p = none) (hu : s.Unmapped page) :
      ForkStep s ((s.clear page).setEntry p uxstackPage (some (page, pteWUP)))
  /-- `sys_exofork()`. -/
  | exofork {s : ForkSys} {p c : ℕ} (hp : s.life p = .running) (hf : s.fault p = none)
      (hk : s.fork p = none) (hc : s.life c = .absent) :
      ForkStep s ({ s with life := Function.update s.life c .embryo }.setFork p (some (.xstack c)))
  /-- `sys_page_alloc(child_id, UXSTACKTOP - PGSIZE, PTE_W|PTE_U|PTE_P)`, whose result is not
  looked at. -/
  | xstack {s : ForkSys} {p c page : ℕ} (hf : s.fault p = none) (hk : s.fork p = some (.xstack c))
      (hu : s.Unmapped page) :
      ForkStep s (((s.clear page).setEntry c uxstackPage (some (page, pteWUP))).setFork p
        (some (.loop c 0)))
  | xstackFails {s : ForkSys} {p c : ℕ} (hf : s.fault p = none) (hk : s.fork p = some (.xstack c)) :
      ForkStep s (s.setFork p (some (.loop c 0)))
  | skip {s : ForkSys} {p c pn : ℕ} (hf : s.fault p = none) (hk : s.fork p = some (.loop c pn))
      (hn : pn < utopPages) (hs : pn = uxstackPage ∨ s.space p pn = none) :
      ForkStep s (s.setFork p (some (.loop c (pn+1))))
  | duppage {s : ForkSys} {p c pn page : ℕ} {pte : Word} (hf : s.fault p = none)
      (hk : s.fork p = some (.loop c pn)) (hn : pn < utopPages) (hx : pn ≠ uxstackPage)
      (hm : s.space p pn = some (page, pte)) :
      ForkStep s (s.setFork p (some (.dup c pn (decide (DupsCow pte)))))
  /-- `sys_page_map(0, addr, envid, addr, ..)`. -/
  | dup {s : ForkSys} {p c pn page : ℕ} {pte : Word} {cow : Bool} (hf : s.fault p = none)
      (hk : s.fork p = some (.dup c pn cow)) (hm : s.space p pn = some (page, pte)) :
      ForkStep s (((s.setEntry c pn (some (page, if cow then pteP ||| pteU ||| pteCow
        else pteP ||| pteU))).expect c pn (s.byte page)).setFork p
          (some (if cow then .remap c pn else .loop c (pn+1))))
  /-- `sys_page_map(0, addr, 0, addr, PTE_P|PTE_U|PTE_COW)`. -/
  | remap {s : ForkSys} {p c pn page : ℕ} {pte : Word} (hf : s.fault p = none)
      (hk : s.fork p = some (.remap c pn)) (hm : s.space p pn = some (page, pte)) :
      ForkStep s ((s.setEntry p pn (some (page, pteP ||| pteU ||| pteCow))).setFork p
        (some (.loop c (pn+1))))
  | done {s : ForkSys} {p c : ℕ} (hf : s.fault p = none) (hk : s.fork p = some (.loop c utopPages)) :
      ForkStep s (s.setFork p (some (.start c)))
  /-- `sys_env_set_status(child_id, ENV_RUNNABLE)`. -/
  | start {s : ForkSys} {p c : ℕ} (hf : s.fault p = none) (hk : s.fork p = some (.start c)) :
      ForkStep s ({ s with life := Function.update s.life c .running }.setFork p none)
  | die {s : ForkSys} {p : ℕ} (hp : s.life p = .running) :
      ForkStep s (({ s with
        life := Function.update s.life p .absent
        space := Function.update s.space p fun _ => none }.setFault p none).setFork p none)

/-- One process, whose pages are mapped once each, and not at `PFTEMP`. -/
structure CowStart (s : ForkSys) : Prop where
  one : ∃ p₀, s.life p₀ = .running ∧ (∀ p, p ≠ p₀ → s.life p = .absent ∧ s.space p = fun _ => none) ∧
    s.space p₀ pftempPage = none ∧
    ∀ pn pn' page pte pte', s.space p₀ pn = some (page, pte) → s.space p₀ pn' = some (page, pte') →
      pn = pn'
  fault : ∀ p, s.fault p = none
  fork : ∀ p, s.fork p = none
  expected : ∀ p pn page pte, s.space p pn = some (page, pte) → s.expected p pn = s.byte page

/-- Two entries that map one page, the first of them writable: they are the same; or the
process is in `pgfault`, which maps the new page at the faulting address and at `PFTEMP`; or
the second belongs to an embryo, and its parent is between the two calls of `duppage`. -/
def SharesWritable (s : ForkSys) (p pn q pn' : ℕ) : Prop :=
  q = p ∧ pn' = pn ∨
    q = p ∧ (∃ v, s.fault p = some (.unmap v) ∧ (pn = v ∧ pn' = pftempPage ∨ pn = pftempPage ∧ pn' = v)) ∨
    s.fork p = some (.remap q pn) ∧ pn' = pn

/-- The page `pn` of a process that handles a write to it. -/
structure Faulting (m : Space) (k : Option ForkAt) (pn : ℕ) : Prop where
  stack : pn ≠ uxstackPage
  temp : pn ≠ pftempPage
  cow : ∃ page pte, m pn = some (page, pte) ∧ ¬ has pte pteW ∧ has pte pteCow
  window : ∀ c, k ≠ some (.remap c pn)

/-- `PFTEMP` is mapped in `pgfault` only, and there to a copy of the faulting page. -/
def FaultOk (s : ForkSys) (p : ℕ) : Prop :=
  match s.fault p with
  | none => s.space p pftempPage = none
  | some (.alloc pn) => s.space p pftempPage = none ∧ Faulting (s.space p) (s.fork p) pn
  | some (.copy pn i) => Faulting (s.space p) (s.fork p) pn ∧
      ∃ dst, s.space p pftempPage = some (dst, pteWUP) ∧
        ∀ j < i, j < pgsize → s.byte dst j = s.expected p pn j
  | some (.unmap pn) => pn ≠ uxstackPage ∧ pn ≠ pftempPage ∧
      ∃ dst, s.space p pftempPage = some (dst, pteWUP) ∧ s.space p pn = some (dst, pteWUP)

/-- A process in `fork` has an embryo; an entry it has seen to be neither writable nor
copy-on-write stays so. -/
structure ForkOk (s : ForkSys) (p : ℕ) (k : ForkAt) : Prop where
  embryo : s.life k.child = .embryo
  stack : ∀ c pn cow, k = .dup c pn cow → pn ≠ uxstackPage
  readOnly : ∀ c pn, k = .dup c pn false →
    ∃ page pte, s.space p pn = some (page, pte) ∧ ¬ DupsCow pte
  window : ∀ c pn, k = .remap c pn → pn ≠ uxstackPage ∧ pn ≠ pftempPage

/-- The invariant. -/
structure CowInv (s : ForkSys) : Prop where
  value : ∀ p pn page pte, s.space p pn = some (page, pte) → pn ≠ uxstackPage → pn ≠ pftempPage →
    ∀ i < pgsize, s.byte page i = s.expected p pn i
  excl : ∀ p pn page pte q pn' pte', s.space p pn = some (page, pte) → has pte pteW →
    s.space q pn' = some (page, pte') → SharesWritable s p pn q pn'
  faultOk : ∀ p, FaultOk s p
  forkOk : ∀ p k, s.fork p = some k → ForkOk s p k
  idle : ∀ p, s.life p ≠ .running → s.fault p = none ∧ s.fork p = none
  absent : ∀ p pn, s.life p = .absent → s.space p pn = none
  child : ∀ p q k l, s.fork p = some k → s.fork q = some l → k.child = l.child → p = q

theorem uxstackPage_ne_pftempPage : uxstackPage ≠ pftempPage := by decide

section Invariant

variable {s : ForkSys} {p q c pn page dst i : ℕ} {pte : Word}

/-- One value of a function of two arguments changes. -/
theorem update_two {α : Type} (f : ℕ → ℕ → α) (p i q j : ℕ) (v : α) :
    Function.update f p (Function.update (f p) i v) q j = if q = p ∧ j = i then v else f q j := by
  by_cases hq : q = p
  · subst hq
    rw [Function.update_self, Function.update_apply]
    simp only [true_and]
  · rw [Function.update_of_ne hq, if_neg fun h => hq h.1]

theorem setEntry_space (s : ForkSys) (p pn q i : ℕ) (e : Option (ℕ × Word)) :
    (s.setEntry p pn e).space q i = if q = p ∧ i = pn then e else s.space q i :=
  update_two s.space p pn q i e

theorem setByte_byte (s : ForkSys) (page i q j : ℕ) (v : BitVec 8) :
    (s.setByte page i v).byte q j = if q = page ∧ j = i then v else s.byte q j :=
  update_two s.byte page i q j v

theorem expect_expected (s : ForkSys) (p pn q i : ℕ) (f : ℕ → BitVec 8) :
    (s.expect p pn f).expected q i = if q = p ∧ i = pn then f else s.expected q i :=
  update_two s.expected p pn q i f

theorem setFork_fork (s : ForkSys) (p q : ℕ) (k : Option ForkAt) :
    (s.setFork p k).fork q = if q = p then k else s.fork q := by
  simp only [ForkSys.setFork, Function.update_apply]

theorem setFork_self (s : ForkSys) (p : ℕ) (k : Option ForkAt) : (s.setFork p k).fork p = k := by
  rw [setFork_fork, if_pos rfl]

theorem CowStart.inv (h : CowStart s) : CowInv s := by
  obtain ⟨p₀, hrun, hrest, htemp, hone⟩ := h.one
  have hp {p pn page pte} (hm : s.space p pn = some (page, pte)) : p = p₀ := by
    by_contra hne
    rw [(hrest p hne).2] at hm
    cases hm
  constructor
  · intro p pn page pte hm _ _ i _
    rw [h.expected p pn page pte hm]
  · intro p pn page pte q pn' pte' hm _ hm'
    obtain rfl := hp hm
    obtain rfl := hp hm'
    exact Or.inl ⟨rfl, (hone _ _ _ _ _ hm hm').symm⟩
  · intro p
    unfold FaultOk
    rw [h.fault p]
    by_cases hpp : p = p₀
    · rw [hpp]
      exact htemp
    · rw [(hrest p hpp).2]
  · intro p k hk
    rw [h.fork p] at hk
    cases hk
  · intro p _
    exact ⟨h.fault p, h.fork p⟩
  · intro p pn hlife
    rw [(hrest p ?_).2]
    rintro rfl
    rw [hrun] at hlife
    cases hlife
  · intro p q k l hk
    rw [h.fork p] at hk
    cases hk

/-- A page that is mapped writable outside the two exceptions is mapped nowhere else. -/
theorem CowInv.private (h : CowInv s) (hm : s.space p pn = some (page, pte)) (hw : has pte pteW)
    (hf : ∀ v, s.fault p = some (.unmap v) → pn ≠ v ∧ pn ≠ pftempPage)
    (hd : ∀ c, s.fork p ≠ some (.remap c pn)) {pn' : ℕ} {pte' : Word}
    (hm' : s.space q pn' = some (page, pte')) : q = p ∧ pn' = pn := by
  rcases h.excl p pn page pte q pn' pte' hm hw hm' with heq | ⟨-, v, hv, hcase⟩ | ⟨hk, -⟩
  · exact heq
  · obtain ⟨hne, hnt⟩ := hf v hv
    rcases hcase with ⟨he, -⟩ | ⟨he, -⟩
    · exact absurd he hne
    · exact absurd he hnt
  · exact absurd hk (hd q)

/-- The exception stack is no faulting page. -/
theorem CowInv.unmap_ne (h : CowInv s) {v : ℕ} (hv : s.fault p = some (.unmap v))
    (hf : s.fault p = none ∨ pn = uxstackPage) : pn ≠ v ∧ pn ≠ pftempPage := by
  have hok := h.faultOk p
  unfold FaultOk at hok
  rw [hv] at hok
  rcases hf with hf | rfl
  · rw [hf] at hv
    cases hv
  · exact ⟨fun he => hok.1 he.symm, uxstackPage_ne_pftempPage⟩

theorem CowInv.temp_none (h : CowInv s) (hf : s.fault p = none) : s.space p pftempPage = none := by
  have hok := h.faultOk p
  unfold FaultOk at hok
  rwa [hf] at hok

theorem CowInv.faulting (h : CowInv s) (hf : s.fault p = some (.copy pn i)) :
    Faulting (s.space p) (s.fork p) pn ∧ ∃ dst, s.space p pftempPage = some (dst, pteWUP) ∧
      ∀ j < i, j < pgsize → s.byte dst j = s.expected p pn j := by
  have hok := h.faultOk p
  unfold FaultOk at hok
  rwa [hf] at hok

/-- No process that handles a fault is in the window of `duppage` on `PFTEMP`. -/
theorem CowInv.temp_private (h : CowInv s) (hf : s.fault p = some (.copy pn i))
    (ht : s.space p pftempPage = some (dst, pte)) {pn' : ℕ} {pte' : Word}
    (hm : s.space q pn' = some (dst, pte')) : q = p ∧ pn' = pftempPage := by
  obtain ⟨-, dst', ht', -⟩ := h.faulting hf
  obtain ⟨rfl, rfl⟩ := Prod.mk.inj (Option.some.inj (ht.symm.trans ht'))
  apply h.private ht (by decide) _ _ hm
  · intro v hv
    rw [hf] at hv
    cases hv
  · intro c hc
    exact ((h.forkOk p _ hc).window c pftempPage rfl).2 rfl

/-- What a fault is at only matters as far as the process itself is concerned. -/
theorem FaultOk.congr {s' : ForkSys} (h : FaultOk s p) (hf : s'.fault p = s.fault p)
    (hs : s'.space p = s.space p) (hk : s'.fork p = s.fork p)
    (hb : ∀ pn i dst, s.fault p = some (.copy pn i) → s.space p pftempPage = some (dst, pteWUP) →
      ∀ j < i, j < pgsize → s.byte dst j = s.expected p pn j →
        s'.byte dst j = s'.expected p pn j) : FaultOk s' p := by
  unfold FaultOk at h ⊢
  rw [hf, hs, hk]
  cases hfa : s.fault p with
  | none =>
    rw [hfa] at h
    exact h
  | some f =>
    rw [hfa] at h
    cases f with
    | alloc pn => exact h
    | copy pn i =>
      obtain ⟨h1, dst, ht, hj⟩ := h
      exact ⟨h1, dst, ht, fun j hji hjp => hb pn i dst hfa ht j hji hjp (hj j hji hjp)⟩
    | unmap pn => exact h

theorem ForkOk.congr {s' : ForkSys} {k : ForkAt} (h : ForkOk s p k) (hl : s'.life k.child = .embryo)
    (hs : ∀ c pn, k = .dup c pn false → s'.space p pn = s.space p pn) : ForkOk s' p k := by
  refine ⟨hl, h.stack, fun c pn hk => ?_, h.window⟩
  rw [hs c pn hk]
  exact h.readOnly c pn hk

theorem FaultOk.of_none (hf : s.fault p = none) (ht : s.space p pftempPage = none) : FaultOk s p := by
  unfold FaultOk
  rw [hf]
  exact ht

theorem SharesWritable.mono {s' : ForkSys} {pn' : ℕ} (h : SharesWritable s p pn q pn')
    (hf : ∀ v, s.fault p = some (.unmap v) → s'.fault p = some (.unmap v))
    (hk : s.fork p = some (.remap q pn) → s'.fork p = some (.remap q pn)) :
    SharesWritable s' p pn q pn' := by
  rcases h with h | ⟨h, v, hv, hcase⟩ | ⟨h, he⟩
  · exact Or.inl h
  · exact Or.inr (Or.inl ⟨h, v, hf v hv, hcase⟩)
  · exact Or.inr (Or.inr ⟨hk h, he⟩)

theorem CowInv.running_of_fork (h : CowInv s) {k : ForkAt} (hk : s.fork p = some k) :
    s.life p = .running := by
  by_contra hn
  rw [(h.idle p hn).2] at hk
  cases hk

theorem CowInv.running_of_fault (h : CowInv s) {f : FaultAt} (hf : s.fault p = some f) :
    s.life p = .running := by
  by_contra hn
  rw [(h.idle p hn).1] at hf
  cases hf

/-- The child of a `fork` is not the process itself, and neither forks nor faults. -/
theorem CowInv.child_idle (h : CowInv s) {k : ForkAt} (hk : s.fork p = some k) :
    k.child ≠ p ∧ s.fault k.child = none ∧ s.fork k.child = none := by
  have hl := (h.forkOk p k hk).embryo
  refine ⟨?_, h.idle _ (by rw [hl]; decide)⟩
  intro he
  rw [he, h.running_of_fork hk] at hl
  cases hl

/-- A running process outside `pgfault` shares no page with a writable entry but its own. -/
theorem CowInv.writer_eq (h : CowInv s) (hp : s.life p = .running) (hf : s.fault p = none)
    (hm : s.space p pn = some (page, pte)) {o a : ℕ} {w : Word} (ho : s.space o a = some (page, w))
    (hw : has w pteW) : o = p ∧ a = pn := by
  rcases h.excl o a page w p pn pte ho hw hm with ⟨he, ha⟩ | ⟨he, v, hv, -⟩ | ⟨hrem, -⟩
  · exact ⟨he.symm, ha.symm⟩
  · rw [← he, hf] at hv
    cases hv
  · have hemb : s.life p = .embryo := (h.forkOk o _ hrem).embryo
    rw [hp] at hemb
    cases hemb

/-- The processes that do not run stay idle when a running one goes on in `fork`. -/
theorem CowInv.idle_setFork (h : CowInv s) (hp : s.life p = .running) (k : Option ForkAt)
    (hq : s.life q ≠ .running) : s.fault q = none ∧ (s.setFork p k).fork q = none := by
  refine ⟨(h.idle q hq).1, ?_⟩
  rw [setFork_fork, if_neg]
  · exact (h.idle q hq).2
  · rintro rfl
    exact hq hp

theorem CowInv.write (h : CowInv s) (hf : s.fault p = none ∨ pn = uxstackPage)
    (hm : s.space p pn = some (page, pte)) (hw : has pte pteW)
    (hd : ∀ c, s.fork p ≠ some (.remap c pn)) (v : BitVec 8) :
    CowInv ((s.setByte page i v).expect p pn (Function.update (s.expected p pn) i v)) := by
  have hpriv (q pn' : ℕ) (pte' : Word) (hm' : s.space q pn' = some (page, pte')) : q = p ∧ pn' = pn :=
    h.private hm hw (fun v hv => h.unmap_ne hv hf) hd hm'
  have hbyte := setByte_byte s page i
  have hexp (q a : ℕ) : ((s.setByte page i v).expect p pn (Function.update (s.expected p pn) i v)).expected q a =
      if q = p ∧ a = pn then Function.update (s.expected p pn) i v else s.expected q a :=
    expect_expected _ p pn q a _
  constructor
  · intro q a pg w hm' hx ht j hj
    change (s.setByte page i v).byte pg j = _
    by_cases hpg : pg = page
    · subst hpg
      obtain ⟨rfl, rfl⟩ := hpriv q a w hm'
      rw [hexp, if_pos ⟨rfl, rfl⟩, Function.update_apply, hbyte]
      by_cases hji : j = i
      · rw [if_pos ⟨rfl, hji⟩, if_pos hji]
      · rw [if_neg fun h => hji h.2, if_neg hji]
        exact h.value _ _ _ _ hm' hx ht j hj
    · rw [hbyte, if_neg fun h => hpg h.1, hexp, if_neg]
      · exact h.value _ _ _ _ hm' hx ht j hj
      · rintro ⟨rfl, rfl⟩
        exact hpg (Prod.mk.inj (Option.some.inj (hm'.symm.trans hm))).1
  · exact h.excl
  · intro q
    refine (h.faultOk q).congr rfl rfl rfl ?_
    intro a k dst hfa ht j hjk hj heq
    change (s.setByte page i v).byte dst j = _
    have hdst : dst ≠ page := by
      rintro rfl
      obtain ⟨rfl, rfl⟩ := hpriv q pftempPage _ ht
      rcases hf with hf | hf
      · rw [hf] at hfa
        cases hfa
      · exact uxstackPage_ne_pftempPage hf.symm
    have hqa : ¬ (q = p ∧ a = pn) := by
      rintro ⟨rfl, rfl⟩
      rcases hf with hf | hf
      · rw [hf] at hfa
        cases hfa
      · exact (h.faulting hfa).1.stack hf
    rw [hbyte, if_neg fun h => hdst h.1, hexp, if_neg hqa]
    exact heq
  · intro q k hk
    exact (h.forkOk q k hk).congr (h.forkOk q k hk).embryo fun _ _ _ => rfl
  · exact h.idle
  · exact h.absent
  · exact h.child

/-- A write to a copy-on-write page. -/
theorem CowInv.fault (h : CowInv s) (hp : s.life p = .running) (hf : s.fault p = none)
    (hx : pn ≠ uxstackPage) (hm : s.space p pn = some (page, pte)) (hw : ¬ has pte pteW)
    (hc : has pte pteCow) (hd : ∀ c, s.fork p ≠ some (.remap c pn)) :
    CowInv (s.setFault p (some (.alloc pn))) := by
  have htemp := h.temp_none hf
  have hfault (q : ℕ) (hq : q ≠ p) : (s.setFault p (some (.alloc pn))).fault q = s.fault q :=
    Function.update_of_ne hq _ _
  have hself : (s.setFault p (some (.alloc pn))).fault p = some (.alloc pn) := Function.update_self ..
  constructor
  · exact h.value
  · intro o a pg w q b w' hm hw hm'
    apply (h.excl o a pg w q b w' hm hw hm').mono
    · intro v hv
      by_cases ho : o = p
      · rw [ho, hf] at hv
        cases hv
      · rw [hfault o ho]
        exact hv
    · exact id
  · intro q
    by_cases hq : q = p
    · subst hq
      unfold FaultOk
      rw [hself]
      refine ⟨htemp, hx, ?_, ⟨page, pte, hm, hw, hc⟩, hd⟩
      rintro rfl
      rw [htemp] at hm
      cases hm
    · exact (h.faultOk q).congr (hfault q hq) rfl rfl fun _ _ _ _ _ _ _ _ heq => heq
  · exact fun q k hk => (h.forkOk q k hk).congr (h.forkOk q k hk).embryo fun _ _ _ => rfl
  · intro q hq
    rw [hfault q]
    · exact h.idle q hq
    · rintro rfl
      exact hq hp
  · exact h.absent
  · exact h.child

/-- A page from the allocator is mapped at one more place: no other entry maps it. -/
theorem CowInv.fresh_excl (h : CowInv s) (hu : s.Unmapped page) {r a o b pg c d : ℕ} {w w' : Word}
    (hm : ((s.clear page).setEntry r a (some (page, pteWUP))).space o b = some (pg, w))
    (hw : has w pteW)
    (hm' : ((s.clear page).setEntry r a (some (page, pteWUP))).space c d = some (pg, w')) :
    SharesWritable s o b c d := by
  rw [setEntry_space] at hm hm'
  split_ifs at hm hm' with h1 h2 h2
  · exact Or.inl ⟨h2.1.trans h1.1.symm, h2.2.trans h1.2.symm⟩
  · obtain ⟨rfl, -⟩ := Prod.mk.inj (Option.some.inj hm)
    exact absurd hm' (hu c d w')
  · obtain ⟨rfl, -⟩ := Prod.mk.inj (Option.some.inj hm')
    exact absurd hm (hu o b w)
  · exact h.excl o b pg w c d w' hm hw hm'

theorem clear_byte {pg : ℕ} (h : pg ≠ page) : (s.clear page).byte pg = s.byte pg :=
  Function.update_of_ne h _ _

theorem CowInv.fresh_value (h : CowInv s) (hu : s.Unmapped page) {r a o b pg : ℕ} {w : Word}
    (ha : a = uxstackPage ∨ a = pftempPage)
    (hm : ((s.clear page).setEntry r a (some (page, pteWUP))).space o b = some (pg, w))
    (hx : b ≠ uxstackPage) (ht : b ≠ pftempPage) (j : ℕ) (hj : j < pgsize) :
    (s.clear page).byte pg j = s.expected o b j := by
  rw [setEntry_space] at hm
  split_ifs at hm with h1
  · rcases ha with ha | ha
    · exact absurd (h1.2.trans ha) hx
    · exact absurd (h1.2.trans ha) ht
  · have hne : pg ≠ page := by
      rintro rfl
      exact hu o b w hm
    rw [clear_byte hne]
    exact h.value o b pg w hm hx ht j hj

/-- The page at the `PFTEMP` of another process is not a fresh one. -/
theorem FaultOk.fresh {s' : ForkSys} (h : FaultOk s q) (hu : s.Unmapped page)
    (hf : s'.fault q = s.fault q) (hs : s'.space q = s.space q) (hk : s'.fork q = s.fork q)
    (hb : s'.byte = (s.clear page).byte) (he : s'.expected = s.expected) : FaultOk s' q := by
  apply h.congr hf hs hk
  intro a k dst hfa ht j _ _ heq
  have hne : dst ≠ page := by
    rintro rfl
    exact hu q pftempPage _ ht
  rw [hb, clear_byte hne, he]
  exact heq

theorem CowInv.alloc (h : CowInv s) (hf : s.fault p = some (.alloc pn)) (hu : s.Unmapped page) :
    CowInv (((s.clear page).setEntry p pftempPage (some (page, pteWUP))).setFault p
      (some (.copy pn 0))) := by
  have hrun := h.running_of_fault hf
  have hok := h.faultOk p
  unfold FaultOk at hok
  rw [hf] at hok
  obtain ⟨htemp, hfa⟩ := hok
  have hspace := setEntry_space (s.clear page) p pftempPage
  have hother (q : ℕ) (hq : q ≠ p) :
      ((s.clear page).setEntry p pftempPage (some (page, pteWUP))).space q = s.space q :=
    Function.update_of_ne hq _ _
  constructor
  · exact fun o b pg w hm hx ht j hj => h.fresh_value hu (Or.inr rfl) hm hx ht j hj
  · intro o a pg w q b w' hm hw hm'
    apply (h.fresh_excl hu hm hw hm').mono
    · intro v hv
      refine (Function.update_of_ne ?_ _ _).trans hv
      rintro rfl
      rw [hf] at hv
      cases hv
    · exact id
  · intro q
    by_cases hq : q = p
    · subst hq
      unfold FaultOk
      have hself : (((s.clear page).setEntry q pftempPage (some (page, pteWUP))).setFault q
        (some (.copy pn 0))).fault q = some (.copy pn 0) := Function.update_self ..
      rw [hself]
      obtain ⟨hstack, htmp, ⟨pg, w, hm, hcow⟩, hwin⟩ := hfa
      refine ⟨⟨hstack, htmp, ⟨pg, w, ?_, hcow⟩, hwin⟩, page, ?_, fun j hj => absurd hj (Nat.not_lt_zero j)⟩
      · exact ((hspace q pn _).trans (if_neg fun h => htmp h.2)).trans hm
      · exact (hspace q pftempPage _).trans (if_pos ⟨rfl, rfl⟩)
    · exact (h.faultOk q).fresh hu (Function.update_of_ne hq _ _) (hother q hq) rfl rfl rfl
  · intro q k hk
    refine (h.forkOk q k hk).congr (h.forkOk q k hk).embryo ?_
    intro c a hka
    refine (hspace q a _).trans (if_neg ?_)
    rintro ⟨rfl, rfl⟩
    obtain ⟨pg, w, hm, -⟩ := (h.forkOk q k hk).readOnly c pftempPage hka
    rw [htemp] at hm
    cases hm
  · intro q hq
    have hqp : q ≠ p := fun hqp => hq (hqp ▸ hrun)
    exact ⟨(Function.update_of_ne hqp _ _).trans (h.idle q hq).1, (h.idle q hq).2⟩
  · intro q a hq
    have hqp : q ≠ p := by
      rintro rfl
      exact absurd (hrun.symm.trans hq) (by decide)
    exact (congrFun (hother q hqp) a).trans (h.absent q a hq)
  · exact h.child

/-- A byte of `memcpy`. -/
theorem CowInv.copy (h : CowInv s) {src : ℕ} {pte' : Word} (hf : s.fault p = some (.copy pn i))
    (hi : i < pgsize) (hm : s.space p pn = some (src, pte))
    (ht : s.space p pftempPage = some (dst, pte')) :
    CowInv ((s.setByte dst i (s.byte src i)).setFault p (some (.copy pn (i+1)))) := by
  have hrun := h.running_of_fault hf
  obtain ⟨hfa, dst', ht', hdone⟩ := h.faulting hf
  obtain ⟨rfl, rfl⟩ := Prod.mk.inj (Option.some.inj (ht.symm.trans ht'))
  have hpriv (q a : ℕ) (w : Word) (hq : s.space q a = some (dst, w)) : q = p ∧ a = pftempPage :=
    h.temp_private hf ht hq
  have hbyte (q j : ℕ) : (s.setByte dst i (s.byte src i)).byte q j =
      if q = dst ∧ j = i then s.byte src i else s.byte q j := setByte_byte s dst i q j _
  constructor
  · intro q a pg w hq hx htmp j hj
    change (s.setByte dst i (s.byte src i)).byte pg j = s.expected q a j
    rw [hbyte, if_neg]
    · exact h.value q a pg w hq hx htmp j hj
    · rintro ⟨rfl, -⟩
      exact htmp (hpriv q a w hq).2
  · intro o a pg w q b w' hq hw hq'
    apply (h.excl o a pg w q b w' hq hw hq').mono
    · intro v hv
      refine (Function.update_of_ne ?_ _ _).trans hv
      rintro rfl
      rw [hf] at hv
      cases hv
    · exact id
  · intro q
    by_cases hq : q = p
    · subst hq
      unfold FaultOk
      have hself : ((s.setByte dst i (s.byte src i)).setFault q (some (.copy pn (i+1)))).fault q =
        some (.copy pn (i+1)) := Function.update_self ..
      rw [hself]
      refine ⟨hfa, dst, ht, fun j hj hjp => ?_⟩
      change (s.setByte dst i (s.byte src i)).byte dst j = s.expected q pn j
      rw [hbyte]
      by_cases hji : j = i
      · rw [if_pos ⟨rfl, hji⟩, hji]
        exact h.value q pn src pte hm hfa.stack hfa.temp i hi
      · rw [if_neg fun h => hji h.2]
        exact hdone j (by omega) hjp
    · refine (h.faultOk q).congr (Function.update_of_ne hq _ _) rfl rfl ?_
      intro a k d hfa htq j _ _ heq
      change (s.setByte dst i (s.byte src i)).byte d j = s.expected q a j
      rw [hbyte, if_neg]
      · exact heq
      · rintro ⟨rfl, -⟩
        exact hq (hpriv q pftempPage _ htq).1
  · exact fun q k hk => (h.forkOk q k hk).congr (h.forkOk q k hk).embryo fun _ _ _ => rfl
  · intro q hq
    have hqp : q ≠ p := fun hqp => hq (hqp ▸ hrun)
    exact ⟨(Function.update_of_ne hqp _ _).trans (h.idle q hq).1, (h.idle q hq).2⟩
  · exact h.absent
  · exact h.child

/-- The copy takes the place of the page that was written to. -/
theorem CowInv.map (h : CowInv s) (hf : s.fault p = some (.copy pn pgsize))
    (ht : s.space p pftempPage = some (dst, pte)) :
    CowInv ((s.setEntry p pn (some (dst, pteWUP))).setFault p (some (.unmap pn))) := by
  have hrun := h.running_of_fault hf
  obtain ⟨hfa, dst', ht', hdone⟩ := h.faulting hf
  obtain ⟨rfl, rfl⟩ := Prod.mk.inj (Option.some.inj (ht.symm.trans ht'))
  have hpriv (q a : ℕ) (w : Word) (hq : s.space q a = some (dst, w)) : q = p ∧ a = pftempPage :=
    h.temp_private hf ht hq
  have hspace (q a : ℕ) : ((s.setEntry p pn (some (dst, pteWUP))).setFault p (some (.unmap pn))).space q a =
      if q = p ∧ a = pn then some (dst, pteWUP) else s.space q a := setEntry_space s p pn q a _
  have hself : ((s.setEntry p pn (some (dst, pteWUP))).setFault p (some (.unmap pn))).fault p =
    some (.unmap pn) := Function.update_self ..
  constructor
  · intro q a pg w hq hx htmp j hj
    rw [hspace] at hq
    split_ifs at hq with hqa
    · obtain ⟨rfl, -⟩ := Prod.mk.inj (Option.some.inj hq)
      rw [hqa.1, hqa.2]
      exact hdone j hj hj
    · exact h.value q a pg w hq hx htmp j hj
  · intro o a pg w q b w' hm hw hm'
    rw [hspace] at hm hm'
    split_ifs at hm hm' with h1 h2 h2
    · exact Or.inl ⟨h2.1.trans h1.1.symm, h2.2.trans h1.2.symm⟩
    · obtain ⟨rfl, -⟩ := Prod.mk.inj (Option.some.inj hm)
      obtain ⟨rfl, rfl⟩ := hpriv q b w' hm'
      rw [h1.1, h1.2]
      exact Or.inr (Or.inl ⟨rfl, pn, hself, Or.inl ⟨rfl, rfl⟩⟩)
    · obtain ⟨rfl, -⟩ := Prod.mk.inj (Option.some.inj hm')
      obtain ⟨rfl, rfl⟩ := hpriv o a w hm
      rw [h2.1, h2.2]
      exact Or.inr (Or.inl ⟨rfl, pn, hself, Or.inr ⟨rfl, rfl⟩⟩)
    · apply (h.excl o a pg w q b w' hm hw hm').mono
      · intro v hv
        refine (Function.update_of_ne ?_ _ _).trans hv
        rintro rfl
        rw [hf] at hv
        cases hv
      · exact id
  · intro q
    by_cases hq : q = p
    · subst hq
      unfold FaultOk
      rw [hself]
      refine ⟨hfa.stack, hfa.temp, dst, ?_, ?_⟩
      · rw [hspace, if_neg fun h => hfa.temp h.2.symm]
        exact ht
      · rw [hspace, if_pos ⟨rfl, rfl⟩]
    · exact (h.faultOk q).congr (Function.update_of_ne hq _ _) (Function.update_of_ne hq _ _) rfl
        fun _ _ _ _ _ _ _ _ heq => heq
  · intro q k hk
    refine (h.forkOk q k hk).congr (h.forkOk q k hk).embryo ?_
    intro c a hka
    rw [hspace, if_neg]
    rintro ⟨rfl, rfl⟩
    -- the page that faulted is copy-on-write
    obtain ⟨pg, w, hm, hdups⟩ := (h.forkOk q k hk).readOnly c a hka
    obtain ⟨pg', w', hm', -, hcow⟩ := hfa.cow
    obtain ⟨-, rfl⟩ := Prod.mk.inj (Option.some.inj (hm.symm.trans hm'))
    exact hdups (Or.inr hcow)
  · intro q hq
    have hqp : q ≠ p := fun hqp => hq (hqp ▸ hrun)
    exact ⟨(Function.update_of_ne hqp _ _).trans (h.idle q hq).1, (h.idle q hq).2⟩
  · intro q a hq
    rw [hspace, if_neg]
    · exact h.absent q a hq
    · rintro ⟨rfl, -⟩
      exact absurd (hrun.symm.trans hq) (by decide)
  · exact h.child

theorem CowInv.unmap (h : CowInv s) (hf : s.fault p = some (.unmap pn)) :
    CowInv ((s.setEntry p pftempPage none).setFault p none) := by
  have hrun := h.running_of_fault hf
  have hok := h.faultOk p
  unfold FaultOk at hok
  rw [hf] at hok
  obtain ⟨hstack, htmp, dst, ht, hm₀⟩ := hok
  have hspace (q a : ℕ) : ((s.setEntry p pftempPage none).setFault p none).space q a =
      if q = p ∧ a = pftempPage then none else s.space q a := setEntry_space s p pftempPage q a _
  have hself : ((s.setEntry p pftempPage none).setFault p none).fault p = none := Function.update_self ..
  constructor
  · intro q a pg w hq hx htmp j hj
    rw [hspace] at hq
    split_ifs at hq
    exact h.value q a pg w hq hx htmp j hj
  · intro o a pg w q b w' hm hw hm'
    rw [hspace] at hm hm'
    split_ifs at hm hm' with h1 h2
    rcases h.excl o a pg w q b w' hm hw hm' with heq | ⟨rfl, v, hv, hcase⟩ | hwin
    · exact Or.inl heq
    · -- the second place of the copy is gone
      by_cases ho : q = p
      · rcases hcase with ⟨-, hb⟩ | ⟨ha, -⟩
        · exact absurd ⟨ho, hb⟩ h2
        · exact absurd ⟨ho, ha⟩ h1
      · exact Or.inr (Or.inl ⟨rfl, v, (Function.update_of_ne ho _ _).trans hv, hcase⟩)
    · exact Or.inr (Or.inr hwin)
  · intro q
    by_cases hq : q = p
    · subst hq
      apply FaultOk.of_none hself
      rw [hspace, if_pos ⟨rfl, rfl⟩]
    · exact (h.faultOk q).congr (Function.update_of_ne hq _ _) (Function.update_of_ne hq _ _) rfl
        fun _ _ _ _ _ _ _ _ heq => heq
  · intro q k hk
    refine (h.forkOk q k hk).congr (h.forkOk q k hk).embryo ?_
    intro c a hka
    rw [hspace, if_neg]
    rintro ⟨rfl, rfl⟩
    -- `PFTEMP` has been mapped writable
    obtain ⟨pg, w, hm, hdups⟩ := (h.forkOk q k hk).readOnly c pftempPage hka
    obtain ⟨-, rfl⟩ := Prod.mk.inj (Option.some.inj (hm.symm.trans ht))
    exact hdups (Or.inl (by decide))
  · intro q hq
    have hqp : q ≠ p := fun hqp => hq (hqp ▸ hrun)
    exact ⟨(Function.update_of_ne hqp _ _).trans (h.idle q hq).1, (h.idle q hq).2⟩
  · intro q a hq
    rw [hspace]
    split_ifs
    · rfl
    · exact h.absent q a hq
  · exact h.child

/-- The children stay different when a process goes on with its own. -/
theorem CowInv.child_update (h : CowInv s) {k k' : ForkAt} (hk : s.fork p = some k)
    (hc : k'.child = k.child) (o q : ℕ) (l m : ForkAt)
    (ho : Function.update s.fork p (some k') o = some l)
    (hq : Function.update s.fork p (some k') q = some m) (he : l.child = m.child) : o = q := by
  rw [Function.update_apply] at ho hq
  split_ifs at ho hq with h1 h2 h2
  · rw [h1, h2]
  · obtain rfl := Option.some.inj ho
    rw [h1]
    exact h.child p q k m hk hq (hc.symm.trans he)
  · obtain rfl := Option.some.inj hq
    rw [h2]
    exact h.child o p l k ho hk (he.trans hc)
  · exact h.child o q l m ho hq he

/-- The program of `fork` goes on, without a system call. -/
theorem CowInv.advance (h : CowInv s) {k k' : ForkAt} (hf : s.fault p = none)
    (hk : s.fork p = some k) (hc : k'.child = k.child) (hr : ∀ c a, k ≠ .remap c a)
    (hok : ForkOk s p k') : CowInv (s.setFork p (some k')) := by
  constructor
  · exact h.value
  · intro o a pg w q b w' hm hw hm'
    apply (h.excl o a pg w q b w' hm hw hm').mono
    · exact fun v hv => hv
    · intro hrem
      rw [setFork_fork, if_neg]
      · exact hrem
      · rintro rfl
        exact hr q a (Option.some.inj (hk.symm.trans hrem))
  · intro q
    by_cases hq : q = p
    · subst hq
      exact FaultOk.of_none hf (h.temp_none hf)
    · exact (h.faultOk q).congr rfl rfl (Function.update_of_ne hq _ _) fun _ _ _ _ _ _ _ _ heq => heq
  · intro q l hl
    rw [setFork_fork] at hl
    split_ifs at hl with hq
    · obtain rfl := Option.some.inj hl
      rw [hq]
      exact hok.congr hok.embryo fun _ _ _ => rfl
    · exact (h.forkOk q l hl).congr (h.forkOk q l hl).embryo fun _ _ _ => rfl
  · exact fun q hq => h.idle_setFork (h.running_of_fork hk) _ hq
  · exact h.absent
  · exact fun o q l m => h.child_update hk hc o q l m

/-- A place of `fork` that is not in `duppage`. -/
theorem ForkOk.outside {k k' : ForkAt} (h : ForkOk s p k) (hc : k'.child = k.child)
    (hd : ∀ c a cow, k' ≠ .dup c a cow) (hr : ∀ c a, k' ≠ .remap c a) : ForkOk s p k' :=
  ⟨by rw [hc]; exact h.embryo, fun c a cow he => absurd he (hd c a cow),
    fun c a he => absurd he (hd c a false), fun c a he => absurd he (hr c a)⟩

theorem CowInv.exofork (h : CowInv s) (hp : s.life p = .running) (hf : s.fault p = none)
    (hk : s.fork p = none) (hc : s.life c = .absent) :
    CowInv ({ s with life := Function.update s.life c .embryo }.setFork p (some (.xstack c))) := by
  have hcp : c ≠ p := by
    rintro rfl
    rw [hp] at hc
    cases hc
  have hlife (q : ℕ) : ({ s with life := Function.update s.life c .embryo }.setFork p
      (some (.xstack c))).life q = if q = c then .embryo else s.life q := Function.update_apply ..
  have hfork (q : ℕ) : ({ s with life := Function.update s.life c .embryo }.setFork p
      (some (.xstack c))).fork q = if q = p then some (.xstack c) else s.fork q := Function.update_apply ..
  have hchild (q : ℕ) (k : ForkAt) (hq : s.fork q = some k) : k.child ≠ c := by
    intro he
    have hl := (h.forkOk q k hq).embryo
    rw [he, hc] at hl
    cases hl
  constructor
  · exact h.value
  · intro o a pg w q b w' hm hw hm'
    apply (h.excl o a pg w q b w' hm hw hm').mono
    · exact fun v hv => hv
    · intro hrem
      rw [hfork, if_neg]
      · exact hrem
      · rintro rfl
        rw [hk] at hrem
        cases hrem
  · intro q
    by_cases hq : q = p
    · subst hq
      exact FaultOk.of_none hf (h.temp_none hf)
    · exact (h.faultOk q).congr rfl rfl (Function.update_of_ne hq _ _) fun _ _ _ _ _ _ _ _ heq => heq
  · intro q l hl
    rw [hfork] at hl
    split_ifs at hl with hq
    · obtain rfl := Option.some.inj hl
      exact ⟨(hlife c).trans (if_pos rfl), fun _ _ _ he => (by cases he), fun _ _ he => (by cases he),
        fun _ _ he => (by cases he)⟩
    · refine (h.forkOk q l hl).congr ?_ fun _ _ _ => rfl
      rw [hlife, if_neg (hchild q l hl)]
      exact (h.forkOk q l hl).embryo
  · intro q hq
    have hqp : q ≠ p := by
      rintro rfl
      rw [hlife, if_neg hcp.symm] at hq
      exact hq hp
    rw [hfork, if_neg hqp]
    by_cases hqc : q = c
    · rw [hqc]
      exact h.idle c (by rw [hc]; decide)
    · rw [hlife, if_neg hqc] at hq
      exact h.idle q hq
  · intro q a hq
    rw [hlife] at hq
    split_ifs at hq
    exact h.absent q a hq
  · intro o q l m ho hq he
    rw [hfork] at ho hq
    split_ifs at ho hq with h1 h2 h2
    · rw [h1, h2]
    · obtain rfl := Option.some.inj ho
      exact absurd he.symm (hchild q m hq)
    · obtain rfl := Option.some.inj hq
      exact absurd he (hchild o l ho)
    · exact h.child o q l m ho hq he

/-- A fresh page as exception stack, of a process or of its child. -/
theorem CowInv.stackPage (h : CowInv s) (hl : s.life c ≠ .absent) (hf : s.fault c = none)
    (hu : s.Unmapped page) :
    CowInv ((s.clear page).setEntry c uxstackPage (some (page, pteWUP))) := by
  have hspace (q a : ℕ) : ((s.clear page).setEntry c uxstackPage (some (page, pteWUP))).space q a =
      if q = c ∧ a = uxstackPage then some (page, pteWUP) else s.space q a :=
    setEntry_space _ c uxstackPage q a _
  have hother (q : ℕ) (hq : q ≠ c) :
      ((s.clear page).setEntry c uxstackPage (some (page, pteWUP))).space q = s.space q :=
    Function.update_of_ne hq _ _
  constructor
  · exact fun o b pg w hm hx ht j hj => h.fresh_value hu (Or.inl rfl) hm hx ht j hj
  · exact fun o a pg w q b w' hm hw hm' => (h.fresh_excl hu hm hw hm').mono (fun _ hv => hv) id
  · intro q
    by_cases hq : q = c
    · subst hq
      refine FaultOk.of_none hf ?_
      rw [hspace, if_neg fun he => uxstackPage_ne_pftempPage he.2.symm]
      exact h.temp_none hf
    · exact (h.faultOk q).fresh hu rfl (hother q hq) rfl rfl rfl
  · intro q l hq
    refine (h.forkOk q l hq).congr (h.forkOk q l hq).embryo ?_
    intro d a hd
    rw [hspace, if_neg]
    rintro ⟨-, rfl⟩
    exact (h.forkOk q l hq).stack d uxstackPage false hd rfl
  · exact h.idle
  · intro q a hq
    rw [hother]
    · exact h.absent q a hq
    · rintro rfl
      exact hl hq
  · exact h.child

/-- The first call of `duppage`: the child gets the page, and what the parent has there. -/
theorem CowInv.dup (h : CowInv s) {cow : Bool} (hf : s.fault p = none)
    (hk : s.fork p = some (.dup c pn cow)) (hm : s.space p pn = some (page, pte)) :
    CowInv (((s.setEntry c pn (some (page, if cow then pteP ||| pteU ||| pteCow
      else pteP ||| pteU))).expect c pn (s.byte page)).setFork p
        (some (if cow then .remap c pn else .loop c (pn+1)))) := by
  have hrun := h.running_of_fork hk
  have hfk := h.forkOk p _ hk
  have hl : s.life c = .embryo := hfk.embryo
  obtain ⟨hcp, hcf, hck⟩ : c ≠ p ∧ s.fault c = none ∧ s.fork c = none := h.child_idle hk
  have hstack : pn ≠ uxstackPage := hfk.stack c pn cow rfl
  have htmp : pn ≠ pftempPage := by
    rintro rfl
    rw [h.temp_none hf] at hm
    cases hm
  -- the child's entry is not writable
  have hperm : ¬ has (if cow then pteP ||| pteU ||| pteCow else pteP ||| pteU) pteW := by
    cases cow <;> decide
  generalize (if cow then pteP ||| pteU ||| pteCow else pteP ||| pteU) = perm at hperm ⊢
  obtain ⟨k', hk', hchild⟩ : ∃ k' : ForkAt, k' = (if cow then .remap c pn else .loop c (pn+1)) ∧
      k'.child = c := ⟨_, rfl, by cases cow <;> rfl⟩
  rw [← hk']
  have hspace (q a : ℕ) : (((s.setEntry c pn (some (page, perm))).expect c pn
      (s.byte page)).setFork p (some k')).space q a =
        if q = c ∧ a = pn then some (page, perm) else s.space q a := setEntry_space s c pn q a _
  have hother (q : ℕ) (hq : q ≠ c) : (((s.setEntry c pn (some (page, perm))).expect c pn
      (s.byte page)).setFork p (some k')).space q = s.space q := Function.update_of_ne hq _ _
  have hexp (q a : ℕ) : (((s.setEntry c pn (some (page, perm))).expect c pn
      (s.byte page)).setFork p (some k')).expected q a =
        if q = c ∧ a = pn then s.byte page else s.expected q a :=
    expect_expected _ c pn q a _
  have hfork (q : ℕ) : (((s.setEntry c pn (some (page, perm))).expect c pn
      (s.byte page)).setFork p (some k')).fork q = if q = p then some k' else s.fork q :=
    setFork_fork _ p q _
  constructor
  · intro q a pg w hq hx ht j hj
    change s.byte pg j = _
    rw [hspace] at hq
    rw [hexp]
    split_ifs at hq ⊢ with hqa
    · obtain ⟨rfl, -⟩ := Prod.mk.inj (Option.some.inj hq)
      rfl
    · exact h.value q a pg w hq hx ht j hj
  · intro o a pg w q b w' ho hw hq
    rw [hspace] at ho hq
    split_ifs at ho hq with h1 h2 h2
    · exact Or.inl ⟨h2.1.trans h1.1.symm, h2.2.trans h1.2.symm⟩
    · obtain ⟨-, rfl⟩ := Prod.mk.inj (Option.some.inj ho)
      exact absurd hw hperm
    · obtain ⟨rfl, -⟩ := Prod.mk.inj (Option.some.inj hq)
      rw [h2.1, h2.2]
      -- the parent's own writable page: this opens the window
      obtain ⟨rfl, rfl⟩ := h.writer_eq hrun hf hm ho hw
      obtain ⟨-, rfl⟩ := Prod.mk.inj (Option.some.inj (hm.symm.trans ho))
      cases cow with
      | true =>
        refine Or.inr (Or.inr ⟨?_, rfl⟩)
        rw [hfork, if_pos rfl, hk']
        rfl
      | false =>
        obtain ⟨pg', w', hm', hdups⟩ := hfk.readOnly c a rfl
        obtain ⟨-, rfl⟩ := Prod.mk.inj (Option.some.inj (hm.symm.trans hm'))
        exact absurd (Or.inl hw) hdups
    · apply (h.excl o a pg w q b w' ho hw hq).mono
      · exact fun v hv => hv
      · intro hrem
        rw [hfork, if_neg]
        · exact hrem
        · rintro rfl
          rw [hk] at hrem
          cases hrem
  · intro q
    by_cases hqp : q = p
    · subst hqp
      refine FaultOk.of_none hf ?_
      rw [hother q hcp.symm]
      exact h.temp_none hf
    · by_cases hqc : q = c
      · subst hqc
        refine FaultOk.of_none hcf ?_
        rw [hspace, if_neg fun he => htmp he.2.symm]
        exact h.temp_none hcf
      · refine (h.faultOk q).congr rfl (hother q hqc) (Function.update_of_ne hqp _ _) ?_
        intro a i dst _ _ j _ _ heq
        rw [hexp, if_neg fun he => hqc he.1]
        exact heq
  · intro q l hq
    rw [hfork] at hq
    split_ifs at hq with hqp
    · obtain rfl := Option.some.inj hq
      refine ⟨by rw [hchild]; exact hl, ?_, ?_, ?_⟩
      · rw [hk']
        cases cow <;> exact fun _ _ _ he => by cases he
      · rw [hk']
        cases cow <;> exact fun _ _ he => by cases he
      · rw [hk']
        intro d a he
        cases cow with
        | true =>
          obtain ⟨-, rfl⟩ := ForkAt.remap.inj he
          exact ⟨hstack, htmp⟩
        | false => cases he
    · refine (h.forkOk q l hq).congr (h.forkOk q l hq).embryo fun d a _ => ?_
      rw [hother]
      rintro rfl
      rw [hck] at hq
      cases hq
  · exact fun q hq => h.idle_setFork hrun _ hq
  · intro q a hq
    rw [hother]
    · exact h.absent q a hq
    · rintro rfl
      exact absurd (hl.symm.trans hq) (by decide)
  · have hc : k'.child = (ForkAt.dup c pn cow).child := hchild
    exact fun o q l m => h.child_update hk hc o q l m

/-- The second call of `duppage` closes the window. -/
theorem CowInv.remap (h : CowInv s) (hf : s.fault p = none) (hk : s.fork p = some (.remap c pn))
    (hm : s.space p pn = some (page, pte)) :
    CowInv ((s.setEntry p pn (some (page, pteP ||| pteU ||| pteCow))).setFork p
      (some (.loop c (pn+1)))) := by
  have hrun := h.running_of_fork hk
  have hfk := h.forkOk p _ hk
  obtain ⟨hstack, htmp⟩ := hfk.window c pn rfl
  have hperm : ¬ has (pteP ||| pteU ||| pteCow) pteW := by decide
  generalize pteP ||| pteU ||| pteCow = perm at hperm ⊢
  have hspace (q a : ℕ) : ((s.setEntry p pn (some (page, perm))).setFork p
      (some (.loop c (pn+1)))).space q a = if q = p ∧ a = pn then some (page, perm) else s.space q a :=
    setEntry_space s p pn q a _
  have hother (q : ℕ) (hq : q ≠ p) : ((s.setEntry p pn (some (page, perm))).setFork p
      (some (.loop c (pn+1)))).space q = s.space q := Function.update_of_ne hq _ _
  have hfork (q : ℕ) : ((s.setEntry p pn (some (page, perm))).setFork p
      (some (.loop c (pn+1)))).fork q = if q = p then some (.loop c (pn+1)) else s.fork q :=
    setFork_fork _ p q _
  constructor
  · intro q a pg w hq hx ht j hj
    rw [hspace] at hq
    split_ifs at hq with hqa
    · obtain ⟨rfl, -⟩ := Prod.mk.inj (Option.some.inj hq)
      rw [hqa.1, hqa.2]
      exact h.value p pn page pte hm hstack htmp j hj
    · exact h.value q a pg w hq hx ht j hj
  · intro o a pg w q b w' ho hw hq
    rw [hspace] at ho hq
    split_ifs at ho hq with h1 h2 h2
    · exact Or.inl ⟨h2.1.trans h1.1.symm, h2.2.trans h1.2.symm⟩
    · obtain ⟨-, rfl⟩ := Prod.mk.inj (Option.some.inj ho)
      exact absurd hw hperm
    · obtain ⟨rfl, -⟩ := Prod.mk.inj (Option.some.inj hq)
      exact absurd (h.writer_eq hrun hf hm ho hw) h1
    · apply (h.excl o a pg w q b w' ho hw hq).mono
      · exact fun v hv => hv
      · intro hrem
        rw [hfork, if_neg]
        · exact hrem
        · rintro rfl
          obtain ⟨-, rfl⟩ := ForkAt.remap.inj (Option.some.inj (hk.symm.trans hrem))
          exact h1 ⟨rfl, rfl⟩
  · intro q
    by_cases hqp : q = p
    · subst hqp
      refine FaultOk.of_none hf ?_
      rw [hspace, if_neg fun he => htmp he.2.symm]
      exact h.temp_none hf
    · exact (h.faultOk q).congr rfl (hother q hqp) (Function.update_of_ne hqp _ _)
        fun _ _ _ _ _ _ _ _ heq => heq
  · intro q l hq
    rw [hfork] at hq
    split_ifs at hq with hqp
    · obtain rfl := Option.some.inj hq
      exact ⟨hfk.embryo, fun _ _ _ he => (by cases he), fun _ _ he => (by cases he),
        fun _ _ he => (by cases he)⟩
    · exact (h.forkOk q l hq).congr (h.forkOk q l hq).embryo fun _ _ _ => hother q hqp ▸ rfl
  · exact fun q hq => h.idle_setFork hrun _ hq
  · intro q a hq
    rw [hother]
    · exact h.absent q a hq
    · rintro rfl
      exact absurd (hrun.symm.trans hq) (by decide)
  · have hc : (ForkAt.loop c (pn+1)).child = (ForkAt.remap c pn).child := rfl
    exact fun o q l m => h.child_update hk hc o q l m

/-- The child is made runnable, with all of its entries read-only. -/
theorem CowInv.start (h : CowInv s) (hf : s.fault p = none) (hk : s.fork p = some (.start c)) :
    CowInv ({ s with life := Function.update s.life c .running }.setFork p none) := by
  have hrun := h.running_of_fork hk
  obtain ⟨hcp, hcf, hck⟩ : c ≠ p ∧ s.fault c = none ∧ s.fork c = none := h.child_idle hk
  have hlife (q : ℕ) : ({ s with life := Function.update s.life c .running }.setFork p none).life q =
      if q = c then .running else s.life q := Function.update_apply ..
  have hfork (q : ℕ) : ({ s with life := Function.update s.life c .running }.setFork p none).fork q =
      if q = p then none else s.fork q := Function.update_apply ..
  constructor
  · exact h.value
  · intro o a pg w q b w' hm hw hm'
    apply (h.excl o a pg w q b w' hm hw hm').mono
    · exact fun v hv => hv
    · intro hrem
      rw [hfork, if_neg]
      · exact hrem
      · rintro rfl
        rw [hk] at hrem
        cases hrem
  · intro q
    by_cases hq : q = p
    · subst hq
      exact FaultOk.of_none hf (h.temp_none hf)
    · exact (h.faultOk q).congr rfl rfl (Function.update_of_ne hq _ _) fun _ _ _ _ _ _ _ _ heq => heq
  · intro q l hq
    rw [hfork] at hq
    split_ifs at hq with hqp
    refine (h.forkOk q l hq).congr ?_ fun _ _ _ => rfl
    have hne : l.child ≠ c := fun he => hqp (h.child q p l _ hq hk he)
    rw [hlife, if_neg hne]
    exact (h.forkOk q l hq).embryo
  · intro q hq
    rw [hlife] at hq
    split_ifs at hq with hqc
    · exact absurd rfl hq
    · rw [hfork]
      refine ⟨(h.idle q hq).1, ?_⟩
      split_ifs
      · rfl
      · exact (h.idle q hq).2
  · intro q a hq
    rw [hlife] at hq
    split_ifs at hq
    exact h.absent q a hq
  · intro o q l m ho hq he
    rw [hfork] at ho hq
    split_ifs at ho hq
    exact h.child o q l m ho hq he

/-- A process is destroyed, and with it its entries. -/
theorem CowInv.die (h : CowInv s) (hp : s.life p = .running) :
    CowInv (({ s with
      life := Function.update s.life p .absent
      space := Function.update s.space p fun _ => none }.setFault p none).setFork p none) := by
  generalize hs' : (({ s with
    life := Function.update s.life p .absent
    space := Function.update s.space p fun _ => none }.setFault p none).setFork p none) = s'
  have hlife (q : ℕ) : s'.life q = if q = p then .absent else s.life q := by
    rw [← hs']
    exact Function.update_apply ..
  have hself : s'.space p = (fun _ => none) ∧ s'.fault p = none ∧ s'.fork p = none := by
    rw [← hs']
    exact ⟨Function.update_self .., Function.update_self .., Function.update_self ..⟩
  have hother (q : ℕ) (hq : q ≠ p) :
      s'.space q = s.space q ∧ s'.fault q = s.fault q ∧ s'.fork q = s.fork q := by
    rw [← hs']
    exact ⟨Function.update_of_ne hq _ _, Function.update_of_ne hq _ _, Function.update_of_ne hq _ _⟩
  have hrest : s'.byte = s.byte ∧ s'.expected = s.expected := by
    rw [← hs']
    exact ⟨rfl, rfl⟩
  have hmapped {q a : ℕ} {e : ℕ × Word} (hq : s'.space q a = some e) : q ≠ p ∧ s.space q a = some e := by
    have hne : q ≠ p := by
      rintro rfl
      rw [hself.1] at hq
      cases hq
    exact ⟨hne, by rw [← (hother q hne).1, hq]⟩
  have hforks {q : ℕ} {l : ForkAt} (hq : s'.fork q = some l) : q ≠ p ∧ s.fork q = some l := by
    have hne : q ≠ p := by
      rintro rfl
      rw [hself.2.2] at hq
      cases hq
    exact ⟨hne, by rw [← (hother q hne).2.2, hq]⟩
  constructor
  · intro q a pg w hq hx ht j hj
    rw [hrest.1, hrest.2]
    exact h.value q a pg w (hmapped hq).2 hx ht j hj
  · intro o a pg w q b w' hm hw hm'
    obtain ⟨hop, hm⟩ := hmapped hm
    apply (h.excl o a pg w q b w' hm hw (hmapped hm').2).mono
    · exact fun v hv => (hother o hop).2.1.trans hv
    · exact fun hrem => (hother o hop).2.2.trans hrem
  · intro q
    by_cases hq : q = p
    · subst hq
      refine FaultOk.of_none hself.2.1 ?_
      rw [hself.1]
    · refine (h.faultOk q).congr (hother q hq).2.1 (hother q hq).1 (hother q hq).2.2 ?_
      intro _ _ _ _ _ j _ _ heq
      rw [hrest.1, hrest.2]
      exact heq
  · intro q l hq
    obtain ⟨hne, hq⟩ := hforks hq
    refine (h.forkOk q l hq).congr ?_ fun _ a _ => congrFun (hother q hne).1 a
    have hl := (h.forkOk q l hq).embryo
    rw [hlife, if_neg]
    · exact hl
    · intro he
      rw [he, hp] at hl
      cases hl
  · intro q hq
    by_cases hqp : q = p
    · rw [hqp]
      exact hself.2
    · rw [hlife, if_neg hqp] at hq
      rw [(hother q hqp).2.1, (hother q hqp).2.2]
      exact h.idle q hq
  · intro q a hq
    by_cases hqp : q = p
    · rw [hqp, hself.1]
    · rw [hlife, if_neg hqp] at hq
      rw [(hother q hqp).1]
      exact h.absent q a hq
  · exact fun o q l m ho hq => h.child o q l m (hforks ho).2 (hforks hq).2

theorem CowInv.step {s' : ForkSys} (h : CowInv s) (hs : ForkStep s s') : CowInv s' := by
  cases hs with
  | write v hp hf hm hw hi hd => exact h.write hf hm hw hd v
  | fault hp hf hx hm hw hc hd => exact h.fault hp hf hx hm hw hc hd
  | alloc hf hu => exact h.alloc hf hu
  | copy hf hi hm ht => exact h.copy hf hi hm ht
  | map hf ht => exact h.map hf ht
  | unmap hf => exact h.unmap hf
  | handler hp hf hk hu => exact h.stackPage (by rw [hp]; decide) hf hu
  | exofork hp hf hk hc => exact h.exofork hp hf hk hc
  | xstack hf hk hu =>
    have hl := (h.forkOk _ _ hk).embryo
    have hstack := h.stackPage (by rw [hl]; decide) (h.child_idle hk).2.1 hu
    exact hstack.advance hf hk rfl (fun _ _ he => by cases he)
      ((hstack.forkOk _ _ hk).outside rfl (fun _ _ _ he => by cases he) fun _ _ he => by cases he)
  | xstackFails hf hk =>
    exact h.advance hf hk rfl (fun _ _ he => by cases he)
      ((h.forkOk _ _ hk).outside rfl (fun _ _ _ he => by cases he) fun _ _ he => by cases he)
  | skip hf hk hn hskip =>
    exact h.advance hf hk rfl (fun _ _ he => by cases he)
      ((h.forkOk _ _ hk).outside rfl (fun _ _ _ he => by cases he) fun _ _ he => by cases he)
  | @duppage p c pn page pte hf hk hn hx hm =>
    refine h.advance hf hk rfl (fun _ _ he => by cases he) ?_
    refine ⟨(h.forkOk _ _ hk).embryo, ?_, ?_, fun _ _ he => by cases he⟩
    · intro d a cow he
      obtain ⟨-, rfl, -⟩ := ForkAt.dup.inj he
      exact hx
    · intro d a he
      obtain ⟨-, rfl, hdec⟩ := ForkAt.dup.inj he
      exact ⟨page, pte, hm, of_decide_eq_false hdec⟩
  | dup hf hk hm => exact h.dup hf hk hm
  | remap hf hk hm => exact h.remap hf hk hm
  | done hf hk =>
    exact h.advance hf hk rfl (fun _ _ he => by cases he)
      ((h.forkOk _ _ hk).outside rfl (fun _ _ _ he => by cases he) fun _ _ he => by cases he)
  | start hf hk => exact h.start hf hk
  | die hp => exact h.die hp

theorem CowStart.run {s₀ : ForkSys} (h : CowStart s₀) (hr : Relation.ReflTransGen ForkStep s₀ s) :
    CowInv s := by
  induction hr with
  | refl => exact h.inv
  | tail _ hs ih => exact ih.step hs

/-- A page that `fork` looks at, and that is no scratch page. -/
structure Ordinary (pn : ℕ) : Prop where
  below : pn < utopPages
  stack : pn ≠ uxstackPage
  temp : pn ≠ pftempPage

/-- `fork` has gone through the page `pn`. -/
def ForkAt.Passed (pn : ℕ) : ForkAt → Prop
  | xstack _ => False
  | loop _ n | dup _ n _ => pn < n
  | remap _ n => pn ≤ n
  | start _ => True

/-- Every process maps the pages of `dom`, and a child those of them that its parent has gone through. -/
structure CowPages (dom : ℕ → Prop) (s : ForkSys) : Prop where
  running : ∀ p, s.life p = .running → ∀ pn, Ordinary pn → (s.space p pn ≠ none ↔ dom pn)
  child : ∀ p k, s.fork p = some k → ∀ pn, Ordinary pn → (s.space k.child pn ≠ none ↔ dom pn ∧ k.Passed pn)

variable {dom : ℕ → Prop}

theorem CowPages.congr {s' : ForkSys} (h : CowPages dom s) (hl : s'.life = s.life) (hk : s'.fork = s.fork)
    (hs : ∀ p pn, Ordinary pn → (s'.space p pn ≠ none ↔ s.space p pn ≠ none)) : CowPages dom s' := by
  refine ⟨fun p hp pn ho => ?_, fun p k hp pn ho => ?_⟩
  · rw [hs p pn ho]
    exact h.running p (hl ▸ hp) pn ho
  · rw [hs _ pn ho]
    exact h.child p k (hk ▸ hp) pn ho

/-- `fork` goes on without mapping anything. -/
theorem CowPages.advance {k k' : ForkAt} (h : CowPages dom s) (hk : s.fork p = some k) (hc : k'.child = k.child)
    (hpass : ∀ pn, Ordinary pn → dom pn → (k'.Passed pn ↔ k.Passed pn)) :
    CowPages dom (s.setFork p (some k')) := by
  refine ⟨h.running, fun q l hl pn ho => ?_⟩
  rw [setFork_fork] at hl
  split_ifs at hl with hq
  · obtain rfl := Option.some.inj hl
    rw [and_congr_right (hpass pn ho), hc]
    exact h.child p k hk pn ho
  · exact h.child q l hl pn ho

/-- An entry that only a scratch page has, or that was mapped before. -/
theorem CowPages.setEntry (h : CowPages dom s) (e : ℕ × Word)
    (hpn : Ordinary pn → s.space p pn ≠ none) : CowPages dom (s.setEntry p pn (some e)) := by
  refine h.congr rfl rfl fun q i ho => ?_
  rw [setEntry_space]
  split_ifs with hq
  · obtain ⟨rfl, rfl⟩ := hq
    exact iff_of_true (Option.some_ne_none e) (hpn ho)
  · rfl

theorem CowPages.dup (h : CowPages dom s) (hinv : CowInv s) {cow : Bool} (hk : s.fork p = some (.dup c pn cow))
    (hm : s.space p pn = some (page, pte)) (w : Word) (f : ℕ → BitVec 8) {k : ForkAt} (hc : k.child = c)
    (hpass : ∀ i, k.Passed i ↔ i ≤ pn) :
    CowPages dom (((s.setEntry c pn (some (page, w))).expect c pn f).setFork p (some k)) := by
  have hspace (q i : ℕ) : (((s.setEntry c pn (some (page, w))).expect c pn f).setFork p (some k)).space q i =
      if q = c ∧ i = pn then some (page, w) else s.space q i := setEntry_space s c pn q i _
  have hfork (q : ℕ) : (((s.setEntry c pn (some (page, w))).expect c pn f).setFork p (some k)).fork q =
      if q = p then some k else s.fork q := setFork_fork _ p q _
  have hold := h.child p _ hk
  refine ⟨fun q hq i ho => ?_, fun q l hl i ho => ?_⟩
  · rw [hspace, if_neg]
    · exact h.running q hq i ho
    · rintro ⟨rfl, -⟩
      have hl : s.life q = .embryo := (hinv.forkOk p _ hk).embryo
      change s.life q = .running at hq
      rw [hl] at hq
      cases hq
  · rw [hfork] at hl
    split_ifs at hl with hq
    · obtain rfl := Option.some.inj hl
      rw [hspace, hc, hpass]
      by_cases hi : i = pn
      · subst hi
        have hdom : dom i := (h.running p (hinv.running_of_fork hk) i ho).mp (by rw [hm]; nofun)
        rw [if_pos ⟨rfl, rfl⟩]
        exact iff_of_true nofun ⟨hdom, le_rfl⟩
      · rw [if_neg fun hi' => hi hi'.2, show s.space c i ≠ none ↔ dom i ∧ i < pn from hold i ho, Nat.le_iff_lt_or_eq,
          or_iff_left hi]
    · rw [hspace, if_neg]
      · exact h.child q l hl i ho
      · rintro ⟨hqc, -⟩
        exact hq (hinv.child q p l _ hl hk hqc)

theorem CowPages.step {s' : ForkSys} (h : CowPages dom s) (hinv : CowInv s) (hs : ForkStep s s') : CowPages dom s' := by
  have hstack (q pg : ℕ) (w : Word) : CowPages dom ((s.clear pg).setEntry q uxstackPage (some (pg, w))) :=
    (h.congr rfl rfl fun _ _ _ => Iff.rfl : CowPages dom (s.clear pg)).setEntry _ fun ho => absurd rfl ho.stack
  cases hs with
  | write | fault | copy => exact h.congr rfl rfl fun _ _ _ => Iff.rfl
  | @alloc p pn page hf hu =>
    have hclear : CowPages dom (s.clear page) := h.congr rfl rfl fun _ _ _ => Iff.rfl
    have htemp : CowPages dom ((s.clear page).setEntry p pftempPage (some (page, pteWUP))) :=
      hclear.setEntry _ fun ho => absurd rfl ho.temp
    exact htemp.congr rfl rfl fun _ _ _ => Iff.rfl
  | @map p pn dst pte hf ht =>
    obtain ⟨⟨-, -, ⟨page, w, hm, -⟩, -⟩, -⟩ := hinv.faulting hf
    exact (h.setEntry _ fun _ => by rw [hm]; nofun).congr rfl rfl fun _ _ _ => Iff.rfl
  | @unmap p pn hf =>
    refine h.congr rfl rfl fun q i ho => ?_
    change (s.setEntry p pftempPage none).space q i ≠ none ↔ _
    rw [setEntry_space, if_neg fun hq => ho.temp hq.2]
  | handler hp hf hk hu => exact hstack _ _ _
  | @exofork p c hp hf hk hc =>
    refine ⟨fun q hq pn ho => ?_, fun q k hq pn ho => ?_⟩
    · change Function.update s.life c .embryo q = .running at hq
      rw [Function.update_apply] at hq
      split_ifs at hq
      exact h.running q hq pn ho
    · rw [setFork_fork] at hq
      split_ifs at hq
      · obtain rfl := Option.some.inj hq
        exact iff_of_false (not_not.mpr (hinv.absent c pn hc)) And.right
      · exact h.child q k hq pn ho
  | xstack hf hk hu => exact (hstack _ _ _).advance hk rfl fun pn _ _ => iff_of_false (Nat.not_lt_zero pn) id
  | xstackFails hf hk => exact h.advance hk rfl fun pn _ _ => iff_of_false (Nat.not_lt_zero pn) id
  | @skip p c pn hf hk hn hskip =>
    refine h.advance hk rfl fun i ho hdom => ?_
    change i < pn + 1 ↔ i < pn
    rw [Nat.lt_succ_iff_lt_or_eq]
    refine or_iff_left ?_
    rintro rfl
    rcases hskip with hx | hnone
    · exact ho.stack hx
    · exact (h.running p (hinv.running_of_fork hk) i ho).mpr hdom hnone
  | duppage hf hk hn hx hm => exact h.advance hk rfl fun _ _ _ => Iff.rfl
  | @dup p c pn page pte cow hf hk hm =>
    refine h.dup hinv hk hm _ _ ?_ ?_
    · cases cow <;> rfl
    · intro i
      cases cow
      · exact Nat.lt_succ_iff
      · exact Iff.rfl
  | @remap p c pn page pte hf hk hm =>
    exact (h.setEntry _ fun _ => by rw [hm]; nofun).advance hk rfl fun _ _ _ => Nat.lt_succ_iff
  | done hf hk => exact h.advance hk rfl fun _ ho _ => iff_of_true trivial ho.below
  | @start p c hf hk =>
    refine ⟨fun q hq pn ho => ?_, fun q k hq pn ho => ?_⟩
    · change Function.update s.life c .running q = .running at hq
      rw [Function.update_apply] at hq
      split_ifs at hq with hqc
      · subst hqc
        exact (h.child p _ hk pn ho).trans (and_iff_left trivial)
      · exact h.running q hq pn ho
    · rw [setFork_fork] at hq
      split_ifs at hq
      exact h.child q k hq pn ho
  | @die p hp =>
    have hspace (q i : ℕ) (hq : q ≠ p) : Function.update s.space p (fun _ => none) q i = s.space q i := by
      rw [Function.update_of_ne hq]
    refine ⟨fun q hq pn ho => ?_, fun q k hq pn ho => ?_⟩
    · change Function.update s.life p .absent q = .running at hq
      rw [Function.update_apply] at hq
      split_ifs at hq with hqp
      change Function.update s.space p (fun _ => none) q pn ≠ none ↔ _
      rw [hspace q pn hqp]
      exact h.running q hq pn ho
    · rw [setFork_fork] at hq
      split_ifs at hq
      change Function.update s.space p (fun _ => none) k.child pn ≠ none ↔ _
      rw [hspace]
      · exact h.child q k hq pn ho
      · intro hkp
        have hl := (hinv.forkOk q k hq).embryo
        rw [hkp, hp] at hl
        cases hl

theorem CowStart.pages {s₀ : ForkSys} (h : CowStart s₀) (hr : Relation.ReflTransGen ForkStep s₀ s) {p₀ : ℕ}
    (hp₀ : s₀.life p₀ = .running) : CowPages (fun pn => s₀.space p₀ pn ≠ none) s := by
  induction hr with
  | refl =>
    obtain ⟨q, -, hrest, -⟩ := h.one
    have honly (p : ℕ) (hp : s₀.life p = .running) : p = q := by
      by_contra hne
      rw [(hrest p hne).1] at hp
      cases hp
    refine ⟨fun p hp pn _ => ?_, fun p k hk => ?_⟩
    · rw [honly p hp, honly p₀ hp₀]
    · rw [h.fork p] at hk
      cases hk
  | tail hr hs ih => exact ih.step (h.run hr) hs

/-- Copy-on-write `fork` isolates the processes: outside its exception stack, and outside
`PFTEMP` while it handles a fault, a process reads what it last wrote, or else what its
creator had there, wherever the first process had a page; and a page that is mapped writable is mapped by no other process, except
by the embryo to which `duppage` has just given it. -/
theorem cow_isolation {s₀ : ForkSys} (h : CowStart s₀) (hr : Relation.ReflTransGen ForkStep s₀ s) :
    (∀ p va v, s.life p = .running → va < utop → pgnum va ≠ uxstackPage →
      (pgnum va = pftempPage → s.fault p = none) → s.read p va = some v →
        v = s.expected p (pgnum va) (pgoff va)) ∧
    (∀ p₀ p va, s₀.life p₀ = .running → s.life p = .running → va < utop → pgnum va ≠ uxstackPage →
      (pgnum va = pftempPage → s.fault p = none) → ((s.read p va).isSome ↔ (s₀.read p₀ va).isSome)) ∧
    ∀ p q pn pn' page pte pte', p ≠ q → s.space p pn = some (page, pte) → has pte pteW →
      s.space q pn' = some (page, pte') →
        s.life q = .embryo ∧ s.fork p = some (.remap q pn) ∧ pn' = pn := by
  have hinv := h.run hr
  refine ⟨?_, ?_, ?_⟩
  · intro p va v _ _ hx ht hread
    obtain ⟨⟨page, pte⟩, hm, rfl⟩ := Option.map_eq_some_iff.mp hread
    have hoff : pgoff va < pgsize := by
      rw [pgoff_eq]
      exact Nat.mod_lt _ (by decide)
    refine hinv.value p _ page pte hm hx ?_ _ hoff
    intro he
    rw [he, hinv.temp_none (ht he)] at hm
    cases hm
  · intro p₀ p va hp₀ hp hva hx ht
    unfold ForkSys.read
    rw [Option.isSome_map, Option.isSome_map, Option.isSome_iff_ne_none, Option.isSome_iff_ne_none]
    by_cases htemp : pgnum va = pftempPage
    · rw [htemp, hinv.temp_none (ht htemp), h.inv.temp_none (h.fault p₀)]
    · refine (h.pages hr hp₀).running p hp _ ⟨?_, hx, htemp⟩
      have hpages : utopPages = 977920 := by decide
      have hutop : utop.toNat = 977920 * 4096 := rfl
      have hlt := BitVec.lt_def.mp hva
      rw [hpages, pgnum_eq]
      omega
  · intro p q pn pn' page pte pte' hne hm hw hm'
    rcases hinv.excl p pn page pte q pn' pte' hm hw hm' with ⟨he, -⟩ | ⟨he, -⟩ | ⟨hk, he⟩
    · exact absurd he.symm hne
    · exact absurd he.symm hne
    · exact ⟨(hinv.forkOk p _ hk).embryo, hk, he⟩

/-- A process whose only page is writable. -/
def onePage : ForkSys where
  life p := if p = 0 then .running else .absent
  space p pn := if p = 0 ∧ pn = 0 then some (5, pteWUP) else none
  fault _ := none
  fork _ := none
  byte _ _ := 0
  expected _ _ _ := 0

theorem onePage_space {p pn page : ℕ} {pte : Word} (h : onePage.space p pn = some (page, pte)) :
    p = 0 ∧ pn = 0 := by
  by_contra hne
  cases (if_neg hne).symm.trans h

theorem onePage_start : CowStart onePage := by
  refine ⟨⟨0, rfl, ?_, ?_, ?_⟩, fun _ => rfl, fun _ => rfl, fun _ _ _ _ _ => rfl⟩
  · intro p hp
    exact ⟨if_neg hp, funext fun pn => if_neg fun h => hp h.1⟩
  · rfl
  · intro pn pn' page pte pte' h h'
    rw [(onePage_space h).2, (onePage_space h').2]

/-- The rest of the loops of `fork` over pages that are not mapped. -/
theorem run_skip (n : ℕ) {pn : ℕ} (hf : s.fault p = none) (hk : s.fork p = some (.loop c pn)) (hn : pn + n = utopPages)
    (hs : ∀ j, pn ≤ j → s.space p j = none) :
    Relation.ReflTransGen ForkStep s (s.setFork p (some (.loop c utopPages))) := by
  induction n generalizing s pn with
  | zero =>
    obtain rfl : pn = utopPages := hn
    have hsame : s.setFork p (some (.loop c utopPages)) = s := by
      unfold ForkSys.setFork
      rw [← hk, Function.update_eq_self]
    rw [hsame]
  | succ n ih =>
    have hstep := ForkStep.skip hf hk (by omega) (Or.inr (hs pn le_rfl))
    have hrest := ih (s := s.setFork p (some (.loop c (pn + 1)))) hf (Function.update_self ..) (by omega)
      fun j hj => hs j (by omega)
    have htwice : (s.setFork p (some (.loop c (pn + 1)))).setFork p (some (.loop c utopPages)) =
        s.setFork p (some (.loop c utopPages)) := by
      unfold ForkSys.setFork
      simp only [Function.update_idem]
    rw [htwice] at hrest
    exact .head hstep hrest

/-- The process forks, up to the first `sys_page_map` of `duppage`. -/
theorem onePage_dup : ∃ s, Relation.ReflTransGen ForkStep onePage s ∧ s.fault 0 = none ∧ s.fork 0 = some (.remap 1 0) ∧
    s.life = Function.update onePage.life 1 .embryo ∧ s.space 0 0 = some (5, pteWUP) ∧
    s.space 1 0 = some (5, pteP ||| pteU ||| pteCow) ∧ ∀ j, 1 ≤ j → s.space 0 j = none := by
  obtain ⟨s₁, hs₁⟩ : ∃ s, s = { onePage with
    life := Function.update onePage.life 1 .embryo }.setFork 0 (some (.xstack 1)) := ⟨_, rfl⟩
  have h₁ : ForkStep onePage s₁ := hs₁ ▸ ForkStep.exofork rfl rfl rfl rfl
  have hm₁ : s₁.space 0 0 = some (5, pteWUP) := by rw [hs₁]; rfl
  have hf₁ : s₁.fault 0 = none := by rw [hs₁]; rfl
  have hk₁ : s₁.fork 0 = some (.xstack 1) := by rw [hs₁]; rfl
  have hl₁ : s₁.life = Function.update onePage.life 1 .embryo := by rw [hs₁]; rfl
  have hz₁ (j : ℕ) (hj : 1 ≤ j) : s₁.space 0 j = none := by
    rw [hs₁]
    exact if_neg fun h => by omega
  have h₂ := ForkStep.xstackFails hf₁ hk₁
  have h₃ := ForkStep.duppage (s := s₁.setFork 0 (some (.loop 1 0))) hf₁ rfl (by decide) (by decide) hm₁
  have hcow : decide (DupsCow pteWUP) = true := by decide
  rw [hcow] at h₃
  have h₄ := ForkStep.dup (s := (s₁.setFork 0 (some (.loop 1 0))).setFork 0 (some (.dup 1 0 true)))
    hf₁ rfl hm₁
  exact ⟨_, ((Relation.ReflTransGen.single h₁).tail h₂).tail h₃ |>.tail h₄, hf₁, rfl, hl₁, hm₁, rfl, hz₁⟩

/-- After a fork both processes read the page. -/
theorem cow_isolation_onePage : ∃ s, Relation.ReflTransGen ForkStep onePage s ∧ s.life 1 = .running ∧
    ∀ p va, p = 0 ∨ p = 1 → va < utop → pgnum va = 0 → s.read p va = some (s.expected p 0 (pgoff va)) := by
  obtain ⟨s, hr, hf, hk, hl, hm, -, hz⟩ := onePage_dup
  have h₅ := ForkStep.remap hf hk hm
  obtain ⟨s₅, hs₅⟩ : ∃ t, t = (s.setEntry 0 0 (some (5, pteP ||| pteU ||| pteCow))).setFork 0 (some (.loop 1 1)) := ⟨_, rfl⟩
  rw [← hs₅] at h₅
  have hf₅ : s₅.fault 0 = none := by rw [hs₅]; exact hf
  have hk₅ : s₅.fork 0 = some (.loop 1 1) := by rw [hs₅]; exact setFork_self _ 0 _
  have hl₅ : s₅.life 0 = .running := by
    rw [hs₅]
    exact congrFun hl 0
  have hz₅ (j : ℕ) (hj : 1 ≤ j) : s₅.space 0 j = none := by
    rw [hs₅]
    change (s.setEntry 0 0 _).space 0 j = none
    rw [setEntry_space, if_neg fun h => by omega]
    exact hz j hj
  have hpages : 1 + 977919 = utopPages := by decide
  have hskip := run_skip 977919 hf₅ hk₅ hpages hz₅
  have hdone := @ForkStep.done (s₅.setFork 0 (some (.loop 1 utopPages))) 0 1 hf₅ (setFork_self s₅ 0 (some (.loop 1 utopPages)))
  have hstart := @ForkStep.start ((s₅.setFork 0 (some (.loop 1 utopPages))).setFork 0 (some (.start 1))) 0 1 hf₅
    (setFork_self (s₅.setFork 0 (some (.loop 1 utopPages))) 0 (some (.start 1)))
  have hrun := (((hr.tail h₅).trans hskip).tail hdone).tail hstart
  have hchild : Function.update s₅.life 1 .running 1 = .running := Function.update_self ..
  have hparent : Function.update s₅.life 1 .running 0 = .running := by
    rw [Function.update_of_ne (by decide)]
    exact hl₅
  refine ⟨_, hrun, hchild, fun p va hp hva hpn => ?_⟩
  have hlife : Function.update s₅.life 1 .running p = .running := by
    rcases hp with rfl | rfl
    · exact hparent
    · exact hchild
  have hx : pgnum va ≠ uxstackPage := by
    rw [hpn]
    decide
  have ht : pgnum va ≠ pftempPage := by
    rw [hpn]
    decide
  obtain ⟨hvalue, hpage, -⟩ := cow_isolation onePage_start hrun
  have hfirst : (onePage.read 0 va).isSome := by
    unfold ForkSys.read
    rw [hpn]
    rfl
  obtain ⟨v, hv⟩ := Option.isSome_iff_exists.mp ((hpage 0 p va rfl hlife hva hx fun h => absurd h ht).mpr hfirst)
  rw [hv, hvalue p va v hlife hva hx (fun h => absurd h ht) hv, hpn]

/-- Between the two calls of `duppage` the child maps a page that the parent can write. -/
theorem duppage_window : ∃ s, Relation.ReflTransGen ForkStep onePage s ∧
    s.space 0 0 = some (5, pteWUP) ∧ has pteWUP pteW ∧
    s.space 1 0 = some (5, pteP ||| pteU ||| pteCow) := by
  obtain ⟨s, hr, -, -, -, hm, hm', -⟩ := onePage_dup
  exact ⟨s, hr, hm, by decide, hm'⟩

end Invariant
end Sisop
