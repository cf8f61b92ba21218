import Sisop.PipelineProgress

/-! The descriptors of `exec_pipeline` with what they refer to: each command starts with the ends of its own two pipes, and the
process that runs the pipeline has its old descriptors in the end. -/
namespace Sisop

/-- What a descriptor refers to: what a descriptor referred to before the pipeline, or an end of one of its pipes. -/
inductive FdObject (β : Type) where
  | original (o : β)
  | readEnd (p : ℕ)
  | writeEnd (p : ℕ)

def FdObject.kind {β : Type} : FdObject β → FdEnd
  | .original _ => .file
  | .readEnd p => .readEnd p
  | .writeEnd p => .writeEnd p

/-- The descriptors before the pipeline. -/
def originals {β : Type} (t : ℕ → Option β) : ℕ → Option (FdObject β) := fun f => (t f).map .original

/-- The table without the identity of the files. -/
def kinds {β : Type} (t : ℕ → Option (FdObject β)) : FdTab := fun f => (t f).map FdObject.kind

/-- `fds`, after the call of `pipe` that there is for every command but the last one. -/
def openPipe {β : Type} (nofile i : ℕ) (last : Bool) (tab : ℕ → Option (FdObject β)) : Option (PipeFds × (ℕ → Option (FdObject β))) :=
  if last then some (noFds, tab)
  else (pipeFds nofile (kinds tab)).map fun fds =>
    (((fds.1 : ℤ), (fds.2 : ℤ)), Function.update (Function.update tab fds.1 (some (.readEnd i))) fds.2 (some (.writeEnd i)))

/-- `exec_pipeline(fd, i, commands)` for the commands from `i` on, where every system call succeeds: with which descriptors
each of them gets to `exec_cmd`, and those of the process in the end. It fails where `pipe` or `dup2` cannot succeed. -/
def execPipeline {γ β : Type} (nofile : ℕ) : List γ → ℤ → ℕ → (ℕ → Option (FdObject β)) →
    Option (List (γ × (ℕ → Option (FdObject β))) × (ℕ → Option (FdObject β)))
  | [], _, _, tab => some ([], tab)
  | c :: commands, fd, i, tab => do
    let (fds, tab) ← openPipe nofile i commands.isEmpty tab
    -- what the child and the parent do after `fork`, each with its own table
    let child ← runCalls (childCalls i commands.isEmpty fd fds) tab
    let tab ← runCalls (parentCalls i commands.isEmpty fd fds) tab
    let (started, tab) ← execPipeline nofile commands fds.1 (i + 1) tab
    some ((c, child) :: started, tab)

section Plumbing

variable {γ β : Type} {nofile n i : ℕ} {fd : ℤ} {t : ℕ → Option β} {tab tab' : ℕ → Option (FdObject β)} {commands : List γ}
  {started : List (γ × (ℕ → Option (FdObject β)))}

theorem originals_ne_none {f : ℕ} (h : t f ≠ none) : originals t f ≠ none := by
  unfold originals
  rwa [ne_eq, Option.map_eq_none_iff]

theorem kinds_none {f : ℕ} : kinds tab f = none ↔ tab f = none := Option.map_eq_none_iff

/-- The ends of the pipe of a command, if it is not the last one. -/
theorem AtCall.openPipe (h : AtCall FdObject.readEnd (originals t) n i fd tab) {fds : PipeFds}
    (hpipe : openPipe nofile i (i + 1 = n) tab = some (fds, tab')) :
    AtFork FdObject.readEnd FdObject.writeEnd (originals t) n i fd fds tab' := by
  refine ⟨tab, h, ?_⟩
  unfold Sisop.openPipe at hpipe
  by_cases hn : i + 1 = n
  · rw [if_pos (decide_eq_true hn)] at hpipe
    obtain ⟨rfl, rfl⟩ := Prod.mk.inj (Option.some.inj hpipe)
    rw [if_pos hn]
    exact ⟨rfl, rfl⟩
  · rw [if_neg (by rwa [decide_eq_true_eq])] at hpipe
    obtain ⟨⟨r, w⟩, hfds, hpair⟩ := Option.map_eq_some_iff.mp hpipe
    obtain ⟨rfl, rfl⟩ := Prod.mk.inj hpair
    obtain ⟨hr, hw, hrw⟩ := pipeFds_free hfds
    rw [if_neg hn]
    exact ⟨r, w, rfl, kinds_none.mp hr, kinds_none.mp hw, hrw, rfl⟩

/-- From the call for command `i` on: every command starts with its own descriptors, and the original ones are back in the end. -/
theorem execPipeline_spec (h0 : t 0 ≠ none) (h1 : t 1 ≠ none) (commands : List γ) : ∀ {i fd tab started tab'},
    n = i + commands.length → AtCall FdObject.readEnd (originals t) n i fd tab →
    execPipeline nofile commands fd i tab = some (started, tab') →
    tab' = originals t ∧ started = (commands.zipIdx i).map fun c => (c.1, commandTab FdObject.readEnd FdObject.writeEnd (originals t) n c.2) := by
  induction commands with
  | nil =>
    intro i fd tab started tab' hn hcall hrun
    obtain ⟨rfl, rfl⟩ := Prod.mk.inj (Option.some.inj hrun)
    unfold AtCall at hcall
    rw [List.length_nil] at hn
    rw [if_neg (by omega)] at hcall
    exact ⟨hcall.2, rfl⟩
  | cons c commands ih =>
    intro i fd tab started tab' hn hcall hrun
    rw [List.length_cons] at hn
    have hlast : commands.isEmpty = decide (i + 1 = n) := by
      rw [Bool.eq_iff_iff, List.isEmpty_iff_length_eq_zero, decide_eq_true_eq]
      omega
    rw [execPipeline, hlast] at hrun
    simp only [Option.bind_eq_bind] at hrun
    obtain ⟨⟨fds, tab₁⟩, hpipe, hrun⟩ := Option.bind_eq_some_iff.mp hrun
    obtain ⟨child, hchild, hrun⟩ := Option.bind_eq_some_iff.mp hrun
    obtain ⟨tab₂, hparent, hrun⟩ := Option.bind_eq_some_iff.mp hrun
    obtain ⟨⟨rest, tab₃⟩, hrest, hrun⟩ := Option.bind_eq_some_iff.mp hrun
    obtain ⟨rfl, rfl⟩ := Prod.mk.inj (Option.some.inj hrun)
    have hfork := hcall.openPipe hpipe
    have hchild' := hfork.child (originals_ne_none h0) (originals_ne_none h1) (by omega)
    obtain ⟨T, hT, hnext⟩ := hfork.parent (originals_ne_none h0) (originals_ne_none h1) (by omega)
    obtain rfl := Option.some.inj (hchild.symm.trans hchild')
    obtain rfl := Option.some.inj (hparent.symm.trans hT)
    obtain ⟨htab, hstarted⟩ := ih (by omega) hnext hrest
    refine ⟨htab, ?_⟩
    rw [List.zipIdx_cons, List.map_cons, hstarted]

theorem kinds_update (f : ℕ) (x : FdObject β) : kinds (Function.update tab f (some x)) = Function.update (kinds tab) f (some x.kind) := by
  funext g
  unfold kinds
  rw [Function.update_apply, Function.update_apply]
  split_ifs <;> rfl

/-- Without the identity of the files the tables are those of the processes that run together. -/
theorem AtCall.kinds (h : AtCall FdObject.readEnd (originals t) n i fd tab) :
    StageTab (Sisop.kinds (originals t)) n i fd (Sisop.kinds tab) := by
  unfold AtCall at h
  unfold StageTab
  split_ifs at h ⊢
  · obtain ⟨r, hr, hfd, rfl⟩ := h
    exact ⟨r, kinds_none.mpr hr, hfd, kinds_update r _⟩
  · exact ⟨h.1, congrArg Sisop.kinds h.2⟩

/-- With three descriptors free no system call fails. -/
theorem execPipeline_returns (h0 : t 0 ≠ none) (h1 : t 1 ≠ none) (hroom : FdRoom nofile (kinds (originals t))) (commands : List γ) :
    ∀ {i fd tab}, n = i + commands.length → AtCall FdObject.readEnd (originals t) n i fd tab →
    ∃ started tab', execPipeline nofile commands fd i tab = some (started, tab') := by
  induction commands with
  | nil => exact fun _ _ => ⟨_, _, rfl⟩
  | cons c commands ih =>
    intro i fd tab hn hcall
    rw [List.length_cons] at hn
    have hlast : commands.isEmpty = decide (i + 1 = n) := by
      rw [Bool.eq_iff_iff, List.isEmpty_iff_length_eq_zero, decide_eq_true_eq]
      omega
    have hpipe : ∃ fds tab₁, openPipe nofile i (i + 1 = n) tab = some (fds, tab₁) := by
      obtain ⟨r, w, hfds⟩ := hroom.pipeFds hcall.kinds
      unfold openPipe
      split_ifs
      · exact ⟨_, _, rfl⟩
      · exact ⟨_, _, congrArg _ hfds⟩
    obtain ⟨fds, tab₁, hpipe⟩ := hpipe
    have hfork := hcall.openPipe hpipe
    have hchild := hfork.child (originals_ne_none h0) (originals_ne_none h1) (by omega)
    obtain ⟨T, hparent, hnext⟩ := hfork.parent (originals_ne_none h0) (originals_ne_none h1) (by omega)
    obtain ⟨rest, tab', hrest⟩ := ih (by omega) hnext
    refine ⟨(c, commandTab .readEnd .writeEnd (originals t) n i) :: rest, tab', ?_⟩
    rw [execPipeline, hlast]
    simp only [Option.bind_eq_bind, hpipe, Option.bind_some, hchild, hparent, hrest]

theorem atCall_start (t : ℕ → Option β) (n : ℕ) : AtCall FdObject.readEnd (originals t) n 0 (-1) (originals t) :=
  atCall_out (fun h => absurd h.1 (Nat.lt_irrefl 0)) rfl

/-- Where no system call fails: every command is started, command `i` has the read end of pipe `i - 1` as its standard input
and the write end of pipe `i` as its standard output, but for the original ones at the two ends of the pipeline, and all its
other descriptors are the original ones. The process that runs the pipeline has its old descriptors in the end. -/
theorem exec_pipeline_plumbing (h0 : t 0 ≠ none) (h1 : t 1 ≠ none)
    (hrun : execPipeline nofile commands (-1) 0 (originals t) = some (started, tab')) :
    tab' = originals t ∧ started.map Prod.fst = commands ∧ ∀ i c tab, started[i]? = some (c, tab) →
      tab 0 = (if i = 0 then (t 0).map .original else some (.readEnd (i - 1))) ∧
      tab 1 = (if i + 1 = commands.length then (t 1).map .original else some (.writeEnd i)) ∧
      ∀ f, f ≠ 0 → f ≠ 1 → tab f = (t f).map .original := by
  obtain ⟨htab, rfl⟩ := execPipeline_spec h0 h1 commands (Nat.zero_add _).symm (atCall_start t commands.length) hrun
  refine ⟨htab, ?_, fun i c tab hi => ?_⟩
  · rw [List.map_map]
    exact List.zipIdx_map_fst 0 commands
  · rw [List.getElem?_map, List.getElem?_zipIdx, Option.map_map] at hi
    obtain ⟨c', -, heq⟩ := Option.map_eq_some_iff.mp hi
    obtain ⟨-, rfl⟩ := Prod.mk.inj heq
    change commandTab _ _ _ _ (0 + i) 0 = _ ∧ commandTab _ _ _ _ (0 + i) 1 = _ ∧ ∀ f, f ≠ 0 → f ≠ 1 → commandTab _ _ _ _ (0 + i) f = _
    unfold commandTab
    rw [Nat.zero_add]
    refine ⟨?_, Function.update_self .., fun f hf0 hf1 => ?_⟩
    · rw [Function.update_of_ne (by decide), Function.update_self]
      rfl
    · rw [Function.update_of_ne hf1, Function.update_of_ne hf0]
      rfl

/-- Three commands, from a process that has its three standard descriptors. -/
theorem exec_pipeline_three : ∃ (started : List (String × (ℕ → Option (FdObject ℕ)))) (tab' : ℕ → Option (FdObject ℕ)), started.map Prod.fst = ["ls", "sort", "wc"] ∧
    tab' = originals (fun f => if f < 3 then some f else none) ∧ ∀ i c tab, started[i]? = some (c, tab) →
      tab 0 = (if i = 0 then (some 0).map .original else some (.readEnd (i - 1))) ∧
      tab 1 = (if i + 1 = 3 then (some 1).map .original else some (.writeEnd i)) ∧
      ∀ f, f ≠ 0 → f ≠ 1 → tab f = (if f < 3 then some f else none).map .original := by
  let t : ℕ → Option ℕ := fun f => if f < 3 then some f else none
  have h0 : t 0 ≠ none := Option.some_ne_none 0
  have h1 : t 1 ≠ none := Option.some_ne_none 1
  have hroom : FdRoom 8 (kinds (originals t)) := ⟨3, 4, 5, by decide, by decide, by decide, rfl, rfl, rfl⟩
  obtain ⟨started, tab', hrun⟩ :=
    execPipeline_returns h0 h1 hroom ["ls", "sort", "wc"] (Nat.zero_add _).symm (atCall_start t 3)
  obtain ⟨htab, hnames, hstarted⟩ := exec_pipeline_plumbing h0 h1 hrun
  exact ⟨started, tab', hnames, htab, hstarted⟩

end Plumbing
end Sisop
