import Mathlib.Data.Int.Notation
import Mathlib.Logic.Function.Basic
import Mathlib.Tactic.Common
import Sisop.Processes

/-! `exec_pipeline` of the shell: the process that runs it, the commands that it launches
and the pipes between them. Every system call is a step. -/
namespace Sisop

def fdAt {ε : Type} (t : ℕ → Option ε) (fd : ℤ) : Option ε := if 0 ≤ fd then t fd.toNat else none

def closeFd {ε : Type} (fd : ℤ) (t : ℕ → Option ε) : ℕ → Option ε := if 0 ≤ fd then Function.update t fd.toNat none else t

/-- A system call on file descriptors. -/
inductive FdCall where
  | close (fd : ℤ)
  | dup2 (fd : ℤ) (fd' : ℕ)

def FdCall.run {ε : Type} : FdCall → (ℕ → Option ε) → Option (ℕ → Option ε)
  | .close fd, t => some (closeFd fd t)
  | .dup2 fd fd', t => (fdAt t fd).map fun h => Function.update t fd' (some h)

/-- The lowest descriptor that is free, below the limit of a process. -/
def freeFd (nofile : ℕ) (t : FdTab) : Option ℕ := (List.range nofile).find? fun f => (t f).isNone

/-- The descriptors that `pipe` would return, if any are left. -/
def pipeFds (nofile : ℕ) (t : FdTab) : Option (ℕ × ℕ) :=
  (freeFd nofile t).bind fun r =>
    (freeFd nofile (Function.update t r (some .file))).map fun w => (r, w)

/-- `fds`, with `READ` and `WRITE` as its first and second place. -/
abbrev PipeFds := ℤ × ℤ

/-- `int fds[2] = {-1}`. -/
def noFds : PipeFds := (-1, 0)

/-- `pipeline_error`. -/
def pipelineError (fds : PipeFds) (fd : ℤ) (t : FdTab) : FdTab := closeFd fd (closeFd fds.2 (closeFd fds.1 t))

/-- What the child does with its descriptors before it runs command `i`. -/
def childCalls (i : ℕ) (last : Bool) (fd : ℤ) (fds : PipeFds) : List FdCall :=
  (if i ≠ 0 then [.dup2 fd 0, .close fd] else []) ++
    (if last then [] else [.dup2 fds.2 1, .close fds.2, .close fds.1])

/-- What the parent does with its descriptors before it waits for command `i`. -/
def parentCalls (i : ℕ) (last : Bool) (fd : ℤ) (fds : PipeFds) : List FdCall :=
  (if i ≠ 0 then [.close fd] else []) ++ (if last then [] else [.close fds.2])

section Processes

variable {α : Type}

/-- A command, which reads from its standard input and writes to its standard output. -/
inductive Proc (α : Type) where
  | exit
  | read (n : ℕ) (k : List α → Proc α)
  | write (xs : List α) (k : Proc α)

/-- Where the process of the pipeline is: at the call `exec_pipeline(fd, i, commands)`, at
`fork`, at what comes between `fork` and `waitpid`, or at its end. -/
inductive ShellPc where
  | call (fd : ℤ) (i : ℕ)
  | fork (fd : ℤ) (i : ℕ) (fds : PipeFds)
  | parent (calls : List FdCall) (i : ℕ) (fds : PipeFds) (pid : Option ℕ)
  | done

inductive KidPc (α : Type) where
  | setpgid (i : ℕ) (fd : ℤ) (fds : PipeFds)
  | child (calls : List FdCall) (i : ℕ)
  | run (P : Proc α)
  | exited

structure Kid (α : Type) where
  pc : KidPc α
  tab : FdTab

/-- The process of the pipeline, its children in the order of their launch, what is in the
pipes, and what is left of the original standard input. -/
structure Pipeline (α : Type) where
  shell : ShellPc
  tab : FdTab
  kids : List (Kid α)
  npipes : ℕ
  pipe : ℕ → List α
  input : List α

/-- Some process has the end of a pipe open. -/
def Pipeline.HasEnd (s : Pipeline α) (h : FdEnd) : Prop :=
  s.shell ≠ .done ∧ (∃ f, s.tab f = some h) ∨ ∃ kid ∈ s.kids, kid.pc ≠ .exited ∧ ∃ f, kid.tab f = some h

def Pipeline.setKid (s : Pipeline α) (k : ℕ) (kid : Kid α) : Pipeline α := { s with kids := s.kids.set k kid }

def Pipeline.setPipe (s : Pipeline α) (p : ℕ) (xs : List α) : Pipeline α :=
  { s with pipe := Function.update s.pipe p xs }

/-- Child `k` is `kid`. -/
def Pipeline.IsKid (s : Pipeline α) (k : ℕ) (kid : Kid α) : Prop := s.kids[k]? = some kid

/-- The child that was waited for has exited, or there was none. -/
def Pipeline.Waited (s : Pipeline α) (pid : Option ℕ) : Prop :=
  ∀ k, pid = some k → ∃ tab, s.IsKid k ⟨.exited, tab⟩

/-- The steps of `exec_pipeline` for the commands `cmds`. Those with `false` are system calls
that fail for want of resources. -/
inductive ShellStep (nofile : ℕ) (cmds : List (Proc α)) : Pipeline α → Bool → Pipeline α → Prop where
  | finish {s : Pipeline α} {fd : ℤ} {i : ℕ} (h : s.shell = .call fd i) (hi : cmds.length ≤ i) :
    ShellStep nofile cmds s true { s with shell := .done }
  | pipe {s : Pipeline α} {fd : ℤ} {i r w : ℕ} (h : s.shell = .call fd i) (hi : i + 1 < cmds.length)
      (hp : pipeFds nofile s.tab = some (r, w)) :
    ShellStep nofile cmds s true
      { s with
        shell := .fork fd i (r, w)
        tab := Function.update (Function.update s.tab r (some (.readEnd s.npipes))) w
          (some (.writeEnd s.npipes))
        npipes := s.npipes + 1 }
  | pipeFail {s : Pipeline α} {fd : ℤ} {i : ℕ} (h : s.shell = .call fd i) (hi : i + 1 < cmds.length) :
    ShellStep nofile cmds s false
      { s with shell := .fork fd i noFds, tab := pipelineError noFds fd s.tab }
  | noPipe {s : Pipeline α} {fd : ℤ} {i : ℕ} (h : s.shell = .call fd i) (hi : i + 1 = cmds.length) :
    ShellStep nofile cmds s true { s with shell := .fork fd i noFds }
  | fork {s : Pipeline α} {fd : ℤ} {i : ℕ} {fds : PipeFds} (h : s.shell = .fork fd i fds) :
    ShellStep nofile cmds s true
      { s with
        shell := .parent (parentCalls i (i + 1 = cmds.length) fd fds) i fds (some s.kids.length)
        kids := s.kids ++ [⟨.setpgid i fd fds, s.tab⟩] }
  | forkFail {s : Pipeline α} {fd : ℤ} {i : ℕ} {fds : PipeFds} (h : s.shell = .fork fd i fds) :
    ShellStep nofile cmds s false
      { s with
        shell := .parent (parentCalls i (i + 1 = cmds.length) fd fds) i fds none
        tab := pipelineError fds fd s.tab }
  | parent {s : Pipeline α} {c : FdCall} {calls : List FdCall} {i : ℕ} {fds : PipeFds} {pid : Option ℕ}
      {tab : FdTab} (h : s.shell = .parent (c :: calls) i fds pid) (hc : c.run s.tab = some tab) :
    ShellStep nofile cmds s true { s with shell := .parent calls i fds pid, tab := tab }
  | wait {s : Pipeline α} {i : ℕ} {fds : PipeFds} {pid : Option ℕ} (h : s.shell = .parent [] i fds pid)
      (hw : s.Waited pid) :
    ShellStep nofile cmds s true { s with shell := .call fds.1 (i + 1) }

/-- The steps of child `k`, with pipes of capacity `cap`. -/
inductive KidStep (cap : ℕ) (cmds : List (Proc α)) (k : ℕ) : Pipeline α → Bool → Pipeline α → Prop where
  | setpgid {s : Pipeline α} {i : ℕ} {fd : ℤ} {fds : PipeFds} {tab : FdTab}
      (h : s.IsKid k ⟨.setpgid i fd fds, tab⟩) :
    KidStep cap cmds k s true
      (s.setKid k ⟨.child (childCalls i (i + 1 = cmds.length) fd fds) i, tab⟩)
  | setpgidFail {s : Pipeline α} {i : ℕ} {fd : ℤ} {fds : PipeFds} {tab : FdTab}
      (h : s.IsKid k ⟨.setpgid i fd fds, tab⟩) : KidStep cap cmds k s false (s.setKid k ⟨.exited, tab⟩)
  | child {s : Pipeline α} {i : ℕ} {c : FdCall} {calls : List FdCall} {tab tab' : FdTab}
      (h : s.IsKid k ⟨.child (c :: calls) i, tab⟩) (hc : c.run tab = some tab') :
    KidStep cap cmds k s true (s.setKid k ⟨.child calls i, tab'⟩)
  | childFail {s : Pipeline α} {i : ℕ} {c : FdCall} {calls : List FdCall} {tab : FdTab}
      (h : s.IsKid k ⟨.child (c :: calls) i, tab⟩) (hc : c.run tab = none) :
    KidStep cap cmds k s true (s.setKid k ⟨.exited, tab⟩)
  | exec {s : Pipeline α} {i : ℕ} {P : Proc α} {tab : FdTab} (h : s.IsKid k ⟨.child [] i, tab⟩)
      (hP : cmds[i]? = some P) : KidStep cap cmds k s true (s.setKid k ⟨.run P, tab⟩)
  | exit {s : Pipeline α} {tab : FdTab} (h : s.IsKid k ⟨.run .exit, tab⟩) :
    KidStep cap cmds k s true (s.setKid k ⟨.exited, tab⟩)
  -- the original standard input
  | readFile {s : Pipeline α} {n : ℕ} {next : List α → Proc α} {tab : FdTab}
      (h : s.IsKid k ⟨.run (.read n next), tab⟩) (hf : tab 0 = some .file) :
    KidStep cap cmds k s true
      { s.setKid k ⟨.run (next (s.input.take n)), tab⟩ with input := s.input.drop n }
  | readPipe {s : Pipeline α} {n p : ℕ} {next : List α → Proc α} {tab : FdTab}
      (h : s.IsKid k ⟨.run (.read n next), tab⟩) (hf : tab 0 = some (.readEnd p))
      (hd : s.pipe p ≠ [] ∨ n = 0 ∨ ¬ s.HasEnd (.writeEnd p)) :
    KidStep cap cmds k s true
      ((s.setKid k ⟨.run (next ((s.pipe p).take n)), tab⟩).setPipe p ((s.pipe p).drop n))
  | readBad {s : Pipeline α} {n : ℕ} {next : List α → Proc α} {tab : FdTab}
      (h : s.IsKid k ⟨.run (.read n next), tab⟩) (hf : tab 0 = none ∨ ∃ p, tab 0 = some (.writeEnd p)) :
    KidStep cap cmds k s true (s.setKid k ⟨.run (next []), tab⟩)
  | writeFile {s : Pipeline α} {xs : List α} {P : Proc α} {tab : FdTab}
      (h : s.IsKid k ⟨.run (.write xs P), tab⟩) (hf : tab 1 = some .file) :
    KidStep cap cmds k s true (s.setKid k ⟨.run P, tab⟩)
  -- as much as there is room for, or less
  | writePipe {s : Pipeline α} {p m : ℕ} {xs : List α} {P : Proc α} {tab : FdTab}
      (h : s.IsKid k ⟨.run (.write xs P), tab⟩) (hf : tab 1 = some (.writeEnd p))
      (hr : s.HasEnd (.readEnd p)) (hm : 0 < m) (hxs : m ≤ xs.length) (hcap : (s.pipe p).length + m ≤ cap) :
    KidStep cap cmds k s true
      ((s.setKid k ⟨.run (.write (xs.drop m) P), tab⟩).setPipe p (s.pipe p ++ xs.take m))
  | written {s : Pipeline α} {p : ℕ} {P : Proc α} {tab : FdTab}
      (h : s.IsKid k ⟨.run (.write [] P), tab⟩) (hf : tab 1 = some (.writeEnd p)) :
    KidStep cap cmds k s true (s.setKid k ⟨.run P, tab⟩)
  | sigpipe {s : Pipeline α} {p : ℕ} {xs : List α} {P : Proc α} {tab : FdTab}
      (h : s.IsKid k ⟨.run (.write xs P), tab⟩) (hf : tab 1 = some (.writeEnd p))
      (hr : ¬ s.HasEnd (.readEnd p)) (hxs : xs ≠ []) :
    KidStep cap cmds k s true (s.setKid k ⟨.exited, tab⟩)
  | writeBad {s : Pipeline α} {xs : List α} {P : Proc α} {tab : FdTab}
      (h : s.IsKid k ⟨.run (.write xs P), tab⟩) (hf : tab 1 = none ∨ ∃ p, tab 1 = some (.readEnd p)) :
    KidStep cap cmds k s true (s.setKid k ⟨.run P, tab⟩)

/-- The steps of the whole pipeline. -/
inductive PipelineStep (nofile cap : ℕ) (cmds : List (Proc α)) (s : Pipeline α) (ok : Bool) (s' : Pipeline α) :
    Prop where
  | shell (h : ShellStep nofile cmds s ok s')
  | kid (k : ℕ) (h : KidStep cap cmds k s ok s')

/-- The shell has forked the process that runs the pipeline. -/
structure PipelineStart (t : FdTab) (input : List α) (s : Pipeline α) : Prop where
  shell : s.shell = .call (-1) 0
  tab : s.tab = t
  kids : s.kids = []
  npipes : s.npipes = 0
  pipe : ∀ p, s.pipe p = []
  input : s.input = input

end Processes

end Sisop
