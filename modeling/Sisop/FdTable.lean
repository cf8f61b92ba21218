import Sisop.ForkPages
import Sisop.Syscall
import Sisop.Trace
import Mathlib.Data.Finset.Prod
import Mathlib.Data.Fintype.Basic

/-! The file descriptors of `lib/fd.c`: each has two pages at fixed addresses, and its
operations map and unmap them. Here any number of environments share such pages, and
every page system call of `dup`, `close` and `fork` is a step of its own. -/
namespace Sisop

/-- `MAXFD`. -/
abbrev maxfd : ℕ := 32

/-- `INDEX2FD(i)`, as a page number. -/
def index2fd (i : ℤ) : ℕ := ((0xD0000 + i) % 2^20).toNat

/-- `INDEX2DATA(i)`, as a page number. -/
def index2data (i : ℤ) : ℕ := ((0xD0020 + i) % 2^20).toNat

/-- `fd_lookup(fdnum)` succeeds. -/
def FdLookup (sp : Space) (fdnum : ℤ) : Prop :=
  0 ≤ fdnum ∧ fdnum < maxfd ∧ (sp (index2fd fdnum)).isSome

instance (sp : Space) (fdnum : ℤ) : Decidable (FdLookup sp fdnum) :=
  inferInstanceAs (Decidable (_ ∧ _ ∧ _))

/-- The devices of `devtab`. -/
inductive Dev where
  | file | pipe | cons
  deriving DecidableEq

/-- The page mapped at a page number. -/
def mappedPage (sp : Space) (pn : ℕ) : Option ℕ := (sp pn).map Prod.fst

/-- `uvpt[pn]`. -/
def uvptAt (sp : Space) (pn : ℕ) : Word := ((sp pn).map Prod.snd).getD 0#32

/-- `sys_page_unmap(0, va)`, which does nothing where no page is mapped. -/
def unmapPage (sp : Space) (pn : ℕ) : Space := if pn < utopPages then Function.update sp pn none else sp

/-- `sys_page_map(0, src, 0, dst, perm)`; `mem` says whether a page table can be had. -/
def mapPage (mem : Bool) (sp : Space) (src dst : ℕ) (perm : Word) : Option Space :=
  match sp src with
  | none => none
  | some (page, pte) =>
    if CheckPerm perm ∧ src < utopPages ∧ dst < utopPages ∧ ¬ (has perm pteW ∧ ¬ has pte pteW) ∧
        mem = true then
      some (Function.update sp dst (some (page, perm)))
    else none

/-- Where an environment is. In a `close` that is part of `dup(old, new)` there is a
`some old`; a child is an `embryo` until `fork` has made it runnable. -/
inductive FdPc (E : Type) where
  | idle
  | closeFd (i : ℤ) (k : Option ℤ)
  | closeData (i : ℤ) (k : Option ℤ)
  | closeEnd (i : ℤ) (k : Option ℤ)
  | dupData (old new : ℤ)
  | dupFd (old new : ℤ)
  | errFd (new : ℤ)
  | errData (new : ℤ)
  | dupPage (child : E) (pn : ℕ)
  | remap (child : E) (pn : ℕ)
  | pagerefFd (i : ℤ) (runs : ℕ)
  | pagerefData (i : ℤ) (runs n : ℕ)
  | checkRuns (i : ℤ) (runs : ℕ) (ret : Bool)
  | embryo
  | free

/-- The address spaces of the environments, where they are, and their `env_runs`. -/
structure FdSys (E : Type) where
  space : E → Space
  pc : E → FdPc E
  runs : E → ℕ

inductive FdEvent (E : Type) where
  | close (e : E) (i : ℤ)
  | dup (e : E) (old new : ℤ)
  | fork (e child : E)
  | isClosed (e : E) (i : ℤ)
  | closedRet (e : E) (ret : Bool)
  | exit (e : E)
  | pagerefFd (e : E)
  | tau

section Ops

variable {E : Type}

/-- What comes after `close(i)`. -/
def FdPc.afterClose (i : ℤ) : Option ℤ → FdPc E
  | none => .idle
  | some old => .dupData old i

/-- `close(i)`, up to its first page system call; `dev` finds the device of a descriptor
page. Only `devpipe_close` unmaps pages. -/
def closeStart (dev : ℕ → Option Dev) (sp : Space) (i : ℤ) (k : Option ℤ) : FdPc E :=
  if FdLookup sp i then
    if (mappedPage sp (index2fd i)).bind dev = some .pipe then .closeFd i k else .closeEnd i k
  else FdPc.afterClose i k

/-- The next page system call of `close` or `dup`, and what comes after it. -/
def FdPc.op (mem : Bool) (sp : Space) : FdPc E → Option (Space × FdPc E)
  | .closeFd i k => some (unmapPage sp (index2fd i), .closeData i k)
  | .closeData i k => some (unmapPage sp (index2data i), .closeEnd i k)
  | .closeEnd i k => some (unmapPage sp (index2fd i), FdPc.afterClose i k)
  | .dupData old new =>
    if (sp (index2data old)).isSome then
      match mapPage mem sp (index2data old) (index2data new)
          (uvptAt sp (index2data old) &&& pteSyscall) with
      | some sp' => some (sp', .dupFd old new)
      | none => some (sp, .errFd new)
    else some (sp, .dupFd old new)
  | .dupFd old new =>
    match mapPage mem sp (index2fd old) (index2fd new) (uvptAt sp (index2fd old) &&& pteSyscall) with
    | some sp' => some (sp', .idle)
    | none => some (sp, .errFd new)
  | .errFd new => some (unmapPage sp (index2fd new), .errData new)
  | .errData new => some (unmapPage sp (index2data new), .idle)
  | _ => none

def FdSys.setPc [DecidableEq E] (s : FdSys E) (e : E) (pc : FdPc E) : FdSys E :=
  { s with pc := Function.update s.pc e pc }

def FdSys.setSpace [DecidableEq E] (s : FdSys E) (e : E) (sp : Space) : FdSys E :=
  { s with space := Function.update s.space e sp }

/-- The number of mappings of a page: its `pp_ref`. -/
def FdSys.refs [Fintype E] (s : FdSys E) (p : ℕ) : ℕ :=
  ((Finset.univ ×ˢ Finset.range utopPages).filter fun x => mappedPage (s.space x.1) x.2 = some p).card

/-- `pageref(v)`. -/
def FdSys.pageref [Fintype E] (s : FdSys E) (e : E) (pn : ℕ) : ℕ :=
  match mappedPage (s.space e) pn with
  | none => 0
  | some p => s.refs p

/-- The pages that the loops of `fork` pass over. -/
def Skipped (sp : Space) (pn : ℕ) : Prop := sp pn = none ∨ pn = uxstackPage

/-- The steps of the environments, in any order. -/
inductive FdStep [DecidableEq E] [Fintype E] (dev : ℕ → Option Dev) :
    FdSys E → FdEvent E → FdSys E → Prop where
  | close {s : FdSys E} (e : E) (i : ℤ) (h : s.pc e = .idle) :
    FdStep dev s (.close e i) (s.setPc e (closeStart dev (s.space e) i none))
  | dup {s : FdSys E} (e : E) (old new : ℤ) (h : s.pc e = .idle) (hl : FdLookup (s.space e) old) :
    FdStep dev s (.dup e old new) (s.setPc e (closeStart dev (s.space e) new (some old)))
  | op {s : FdSys E} (e : E) (mem : Bool) {sp : Space} {pc : FdPc E}
      (h : (s.pc e).op mem (s.space e) = some (sp, pc)) :
    FdStep dev s .tau ((s.setSpace e sp).setPc e pc)
  | exit {s : FdSys E} (e : E) (h : s.pc e ≠ .free) (hc : s.pc e ≠ .embryo) :
    FdStep dev s (.exit e) ((s.setSpace e fun _ => none).setPc e .free)
  | fork {s : FdSys E} (e child : E) (h : s.pc e = .idle) (hc : s.pc child = .free) :
    FdStep dev s (.fork e child) ((s.setPc child .embryo).setPc e (.dupPage child 0))
  -- `duppage` of the next page that is mapped
  | dupPage {s : FdSys E} (e : E) {child : E} {pn q page : ℕ} {pte : Word}
      (h : s.pc e = .dupPage child pn) (hle : pn ≤ q) (hlt : q < utopPages) (hx : q ≠ uxstackPage)
      (hq : s.space e q = some (page, pte)) (hskip : ∀ u, pn ≤ u → u < q → Skipped (s.space e) u) :
    FdStep dev s .tau ((s.setSpace child
      (Function.update (s.space child) q (some (page, dupPerm pte)))).setPc e
        (if DupsCow pte then .remap child q else .dupPage child (q + 1)))
  | remap {s : FdSys E} (e : E) {child : E} {q page : ℕ} {pte : Word}
      (h : s.pc e = .remap child q) (hq : s.space e q = some (page, pte)) :
    FdStep dev s .tau ((s.setSpace e
      (Function.update (s.space e) q (some (page, dupPerm pte)))).setPc e (.dupPage child (q + 1)))
  | forkEnd {s : FdSys E} (e : E) {child : E} {pn : ℕ} (h : s.pc e = .dupPage child pn)
      (hskip : ∀ u, pn ≤ u → u < utopPages → Skipped (s.space e) u) :
    FdStep dev s .tau ((s.setPc child .idle).setPc e .idle)
  -- `_pipeisclosed`
  | isClosed {s : FdSys E} (e : E) (i : ℤ) (h : s.pc e = .idle) (hl : FdLookup (s.space e) i) :
    FdStep dev s (.isClosed e i) (s.setPc e (.pagerefFd i (s.runs e)))
  | pagerefFd {s : FdSys E} (e : E) {i : ℤ} {runs : ℕ} (h : s.pc e = .pagerefFd i runs) :
    FdStep dev s (.pagerefFd e) (s.setPc e (.pagerefData i runs (s.pageref e (index2fd i))))
  | pagerefData {s : FdSys E} (e : E) {i : ℤ} {runs n : ℕ} (h : s.pc e = .pagerefData i runs n) :
    FdStep dev s .tau (s.setPc e (.checkRuns i runs (decide (n = s.pageref e (index2data i)))))
  | again {s : FdSys E} (e : E) {i : ℤ} {runs : ℕ} {ret : Bool} (h : s.pc e = .checkRuns i runs ret)
      (hr : s.runs e ≠ runs) : FdStep dev s .tau (s.setPc e (.pagerefFd i (s.runs e)))
  | closedRet {s : FdSys E} (e : E) {i : ℤ} {runs : ℕ} {ret : Bool} (h : s.pc e = .checkRuns i runs ret)
      (hr : s.runs e = runs) : FdStep dev s (.closedRet e ret) (s.setPc e .idle)
  -- the environment is interrupted and run again
  | resched {s : FdSys E} (e : E) :
    FdStep dev s .tau { s with runs := Function.update s.runs e (s.runs e + 1) }

end Ops

end Sisop
