import Sisop.PipelineRun

/-! A pipeline gets stuck when, and only when, a command that is not the last one has more to
write than its pipe can hold: nobody reads from the pipe before the command has exited. -/
namespace Sisop

variable {α : Type} {nofile cap : ℕ} {cmds : List (Proc α)} {t : FdTab} {input : List α}
  {s s' : Pipeline α} {i k : ℕ} {kid : Kid α}

def Pipeline.Finished (s : Pipeline α) : Prop := s.shell = .done ∧ ∀ kid ∈ s.kids, kid.pc = .exited

/-- A step in which no system call fails. -/
abbrev QuietPipelineStep (nofile cap : ℕ) (cmds : List (Proc α)) (s s' : Pipeline α) : Prop :=
  PipelineStep nofile cap cmds s true s'

def Pipeline.CanStep (nofile cap : ℕ) (cmds : List (Proc α)) (s : Pipeline α) : Prop :=
  ∃ s', QuietPipelineStep nofile cap cmds s s'

/-- Three descriptors are free: one from which the next command is to read, and two for its
own pipe. -/
def FdRoom (nofile : ℕ) (t : FdTab) : Prop :=
  ∃ x y z, x < y ∧ y < z ∧ z < nofile ∧ t x = none ∧ t y = none ∧ t z = none

section Descriptors

theorem freeFd_some {x : ℕ} (hx : x < nofile) (h : t x = none) : ∃ f, freeFd nofile t = some f := by
  rw [← Option.isSome_iff_exists]
  unfold freeFd
  rw [List.find?_isSome]
  refine ⟨x, List.mem_range.mpr hx, ?_⟩
  rw [h]
  rfl

theorem pipeFds_some {x y : ℕ} (hx : x < nofile) (hy : y < nofile) (hxy : x ≠ y) (htx : t x = none)
    (hty : t y = none) : ∃ r w, pipeFds nofile t = some (r, w) := by
  obtain ⟨r, hr⟩ := freeFd_some hx htx
  -- the first end takes one of the two at most
  have hleft : ∃ z < nofile, Function.update t r (some .file) z = none := by
    by_cases hrx : x = r
    · exact ⟨y, hy, by rw [Function.update_of_ne (by omega), hty]⟩
    · exact ⟨x, hx, by rw [Function.update_of_ne hrx, htx]⟩
  obtain ⟨z, hz, htz⟩ := hleft
  obtain ⟨w, hw⟩ := freeFd_some hz htz
  refine ⟨r, w, ?_⟩
  unfold pipeFds
  rw [hr, Option.bind_some, hw]
  rfl

/-- The shell has at most one descriptor of its own between two commands. -/
theorem FdRoom.pipeFds {n : ℕ} {fd : ℤ} {tab : FdTab} (h : FdRoom nofile t) (htab : StageTab t n i fd tab) :
    ∃ r w, pipeFds nofile tab = some (r, w) := by
  obtain ⟨x, y, z, hxy, hyz, hz, htx, hty, htz⟩ := h
  unfold StageTab at htab
  split_ifs at htab
  · obtain ⟨r, -, -, rfl⟩ := htab
    by_cases hrx : r = x
    · exact pipeFds_some (x := y) (y := z) (by omega) hz (by omega)
        (by rw [Function.update_of_ne (by omega), hty]) (by rw [Function.update_of_ne (by omega), htz])
    · by_cases hry : r = y
      · exact pipeFds_some (x := x) (y := z) (by omega) hz (by omega)
          (by rw [Function.update_of_ne (by omega), htx]) (by rw [Function.update_of_ne (by omega), htz])
      · exact pipeFds_some (x := x) (y := y) (by omega) (by omega) (by omega)
          (by rw [Function.update_of_ne (by omega), htx]) (by rw [Function.update_of_ne (by omega), hty])
  · obtain ⟨-, rfl⟩ := htab
    exact pipeFds_some (x := x) (y := y) (by omega) (by omega) (by omega) htx hty

end Descriptors

section Progress

/-- At `waitpid` nobody can write to the pipe from which the command reads: it sees the end
of its input. -/
theorem not_hasEnd_before {fds : PipeFds} (ht : PlainTab t) (hstage : StageTab t cmds.length (i + 1) fds.1 s.tab)
    (hlast : s.LastKid i kid) (hkid : kid.tab = kidTab t cmds.length i) (hi : i ≠ 0) :
    ¬ s.HasEnd (.writeEnd (i - 1)) := by
  rintro (⟨-, f, hf⟩ | ⟨kid', hmem, halive, f, hf⟩)
  · unfold StageTab at hstage
    split_ifs at hstage
    · obtain ⟨r, -, -, htab⟩ := hstage
      rw [htab, Function.update_apply] at hf
      split_ifs at hf
      · cases hf
      · cases ht.plain f _ hf
    · rw [hstage.2] at hf
      cases ht.plain f _ hf
  · obtain ⟨k, hlt, hk⟩ := List.getElem_of_mem hmem
    obtain ⟨-, rfl⟩ := hlast.eq (List.getElem?_eq_some_iff.mpr ⟨hlt, hk⟩) halive
    rw [hkid] at hf
    have := kidTab_writeEnd ht hf
    omega

/-- While the shell waits for command `i`, this command can take a step. -/
theorem kid_progress {fds : PipeFds} (ht : PlainTab t) (hi : i < cmds.length)
    (hshell : s.shell = .parent [] i fds (some i)) (hstage : StageTab t cmds.length (i + 1) fds.1 s.tab)
    (hlast : s.LastKid i kid) (hok : KidOk cap cmds t input i (s.source i) (s.pipe i) kid)
    (hfit : i + 1 < cmds.length → (cmdInput cmds input (i + 1)).length ≤ cap) (halive : kid.pc ≠ .exited) :
    ∃ s', KidStep cap cmds i s true s' := by
  have hkid := hlast.isKid
  obtain ⟨pc, tab⟩ := kid
  cases pc with
  | setpgid i' fd fds => exact ⟨_, .setpgid hkid⟩
  | child calls i' =>
    obtain ⟨rfl, -, -, hcalls⟩ := hok
    cases calls with
    | nil => exact ⟨_, .exec hkid (List.getElem?_eq_getElem hi)⟩
    | cons c calls =>
      obtain ⟨tab', hc, -⟩ := runCalls_cons hcalls
      exact ⟨_, .child hkid hc⟩
  | run P =>
    obtain ⟨htab, hout⟩ := hok
    change tab = _ at htab
    cases P with
    | exit => exact ⟨_, .exit hkid⟩
    | read n next =>
      have hstdin := kidTab_stdin t cmds.length i
      rw [← htab] at hstdin
      by_cases hzero : i = 0
      · rw [if_pos hzero] at hstdin
        exact ⟨_, .readFile hkid hstdin⟩
      · rw [if_neg hzero] at hstdin
        exact ⟨_, .readPipe hkid hstdin (Or.inr (Or.inr (not_hasEnd_before ht hstage hlast htab hzero)))⟩
    | write xs P =>
      have hstdout := kidTab_stdout t cmds.length i
      rw [← htab] at hstdout
      by_cases hend : i + 1 = cmds.length
      · rw [if_pos hend] at hstdout
        exact ⟨_, .writeFile hkid hstdout⟩
      · rw [if_neg hend] at hstdout
        cases xs with
        | nil => exact ⟨_, .written hkid hstdout⟩
        | cons x xs =>
          -- the pipe has room for all that the command writes
          obtain ⟨hall, -⟩ := hout (by omega)
          have hroom := hfit (by omega)
          rw [← hall, Proc.output, List.length_append, List.length_append, List.length_cons] at hroom
          have hreader : s.HasEnd (.readEnd i) :=
            hasEnd_of_stage hshell (fun c hc => absurd hc List.not_mem_nil) rfl hstage (by omega)
          exact ⟨_, .writePipe (m := 1) hkid hstdout hreader Nat.one_pos (by rw [List.length_cons]; omega)
            (by omega)⟩
  | exited => exact absurd rfl halive

theorem PipelineInv.progress (ht : PlainTab t) (hroom : FdRoom nofile t) (h : PipelineInv cap cmds t input s)
    (hfit : ∀ i, i + 1 < cmds.length → (cmdInput cmds input (i + 1)).length ≤ cap) :
    s.Finished ∨ s.CanStep nofile cap cmds := by
  cases h with
  | @call fd i hshell hi htab hk hsrc hp =>
    by_cases hdone : cmds.length ≤ i
    · exact Or.inr ⟨_, .shell (.finish hshell hdone)⟩
    · by_cases hlast : i + 1 = cmds.length
      · exact Or.inr ⟨_, .shell (.noPipe hshell hlast)⟩
      · obtain ⟨r, w, hfds⟩ := hroom.pipeFds htab
        exact Or.inr ⟨_, .shell (.pipe hshell (by omega) hfds)⟩
  | fork hshell => exact Or.inr ⟨_, .shell (.fork hshell)⟩
  | @parent calls i fds hshell hi hc htab hk hp =>
    obtain ⟨T, hT, hstage⟩ := htab
    cases calls with
    | cons c calls =>
      obtain ⟨tab', hrun, -⟩ := runCalls_cons hT
      exact Or.inr ⟨_, .shell (.parent hshell hrun)⟩
    | nil =>
      cases hT
      obtain ⟨⟨pc, tab⟩, hlast, hok⟩ := hk
      by_cases halive : pc = .exited
      · subst halive
        refine Or.inr ⟨_, .shell (.wait hshell fun k hk => ?_)⟩
        cases hk
        exact ⟨tab, hlast.isKid⟩
      · obtain ⟨s', hs⟩ := kid_progress ht hi hshell hstage hlast hok (hfit i) halive
        exact Or.inr ⟨s', .kid i hs⟩
  | done hshell hk => exact Or.inl ⟨hshell, hk.2⟩

/-- The states that a pipeline reaches while no system call fails. -/
abbrev PipelineReach (nofile cap : ℕ) (cmds : List (Proc α)) (t : FdTab) (input : List α)
    (s : Pipeline α) : Prop := Reachable (PipelineStart t input) (QuietPipelineStep nofile cap cmds) s

theorem PipelineReach.inv (ht : PlainTab t) (h : PipelineReach nofile cap cmds t input s) :
    PipelineInv cap cmds t input s :=
  Reachable.invariant (fun _ h => h.inv) (fun _ _ hinv hs => hinv.step ht hs) h

end Progress

section Completion

/-- What one step makes of a command. -/
inductive Proc.Goes : Proc α → KidPc α → Prop where
  | exit : Goes .exit .exited
  | read {n : ℕ} {next : List α → Proc α} (xs : List α) : Goes (.read n next) (.run (next xs))
  | write {xs : List α} {P : Proc α} : Goes (.write xs P) (.run P)
  | part {xs : List α} {P : Proc α} {m : ℕ} (hm : 0 < m) (hxs : m ≤ xs.length) :
    Goes (.write xs P) (.run (.write (xs.drop m) P))
  | sigpipe {xs : List α} {P : Proc α} : Goes (.write xs P) .exited

theorem KidStep.goes {P : Proc α} {tab : FdTab} (hs : KidStep cap cmds k s true s')
    (hlast : s.LastKid i ⟨.run P, tab⟩) :
    s'.shell = s.shell ∧ ∃ pc, s'.LastKid i ⟨pc, tab⟩ ∧ P.Goes pc := by
  obtain ⟨kid, hk, halive⟩ := hs.alive
  obtain ⟨rfl, rfl⟩ := hlast.eq hk halive
  cases hs with
  | setpgid h | child h | childFail h | exec h => cases hk.symm.trans h
  | exit h =>
    cases hk.symm.trans h
    exact ⟨rfl, _, hlast.set _, .exit⟩
  | readFile h | readPipe h | readBad h =>
    cases hk.symm.trans h
    exact ⟨rfl, _, hlast.set _, .read _⟩
  | writeFile h | written h | writeBad h =>
    cases hk.symm.trans h
    exact ⟨rfl, _, hlast.set _, .write⟩
  | writePipe h _ _ hm hxs =>
    cases hk.symm.trans h
    exact ⟨rfl, _, hlast.set _, .part hm hxs⟩
  | sigpipe h =>
    cases hk.symm.trans h
    exact ⟨rfl, _, hlast.set _, .sigpipe⟩

/-- The shell waits for command `i`, its last child. -/
def Pipeline.Waits (s : Pipeline α) (i : ℕ) (fds : PipeFds) (pc : KidPc α) : Prop :=
  s.shell = .parent [] i fds (some i) ∧ ∃ tab, s.LastKid i ⟨pc, tab⟩

variable {fds : PipeFds}

/-- The shell closes its descriptors after `fork`. -/
theorem parent_closes (calls : List FdCall) (hc : ∀ c ∈ calls, c.IsClose)
    (h : PipelineReach nofile cap cmds t input s) (hshell : s.shell = .parent calls i fds (some i))
    (hlast : s.LastKid i kid) :
    ∃ s', PipelineReach nofile cap cmds t input s' ∧ s'.shell = .parent [] i fds (some i) ∧ s'.LastKid i kid := by
  induction calls generalizing s with
  | nil => exact ⟨s, h, hshell, hlast⟩
  | cons c calls ih =>
    cases c with
    | close fd =>
      exact ih (fun c hmem => hc c (List.mem_cons_of_mem _ hmem)) (h.step (.shell (.parent hshell rfl))) rfl hlast
    | dup2 => exact (hc _ List.mem_cons_self).elim

variable (hlive : ∀ s, PipelineReach nofile cap cmds t input s → s.Finished ∨ s.CanStep nofile cap cmds)

include hlive

/-- If nothing gets stuck, the command takes its next step. -/
theorem waits_step {P : Proc α} (h : PipelineReach nofile cap cmds t input s) (hw : s.Waits i fds (.run P)) :
    ∃ s', PipelineReach nofile cap cmds t input s' ∧ ∃ pc, s'.Waits i fds pc ∧ P.Goes pc := by
  obtain ⟨hshell, tab, hlast⟩ := hw
  rcases hlive s h with hdone | ⟨s', hs⟩
  · rw [hdone.1] at hshell
    cases hshell
  · refine ⟨s', h.step hs, ?_⟩
    cases hs with
    | shell hs =>
      cases hs with
      | finish h | pipe h | noPipe h | fork h | parent h => cases hshell.symm.trans h
      | wait h hwait =>
        cases hshell.symm.trans h
        obtain ⟨tab', hexit⟩ := hwait i rfl
        cases hlast.isKid.symm.trans hexit
    | kid k hs =>
      obtain ⟨hshell', pc, hlast', hgoes⟩ := hs.goes hlast
      exact ⟨pc, ⟨hshell'.trans hshell, tab, hlast'⟩, hgoes⟩

/-- If nothing gets stuck, a command that is running exits. -/
theorem run_exits (P : Proc α) (h : PipelineReach nofile cap cmds t input s) (hw : s.Waits i fds (.run P)) :
    ∃ s', PipelineReach nofile cap cmds t input s' ∧ s'.Waits i fds .exited := by
  induction P generalizing s with
  | exit =>
    obtain ⟨s', h', pc, hw', hgoes⟩ := waits_step hlive h hw
    cases hgoes
    exact ⟨s', h', hw'⟩
  | read n next ih =>
    obtain ⟨s', h', pc, hw', hgoes⟩ := waits_step hlive h hw
    cases hgoes with
    | read xs => exact ih xs h' hw'
  | write xs P ih =>
    -- a write may take several steps, each of which leaves less to write
    induction hn : xs.length using Nat.strongRecOn generalizing s xs with
    | _ n ihn =>
      obtain ⟨s', h', pc, hw', hgoes⟩ := waits_step hlive h hw
      cases hgoes with
      | write => exact ih h' hw'
      | @part _ _ m hm hxs =>
        apply ihn (xs.drop m).length ?_ (xs.drop m) h' hw' rfl
        rw [List.length_drop]
        omega
      | sigpipe => exact ⟨s', h', hw'⟩

/-- The child sets up its descriptors and exits in the end. -/
theorem child_exits (calls : List FdCall) (hi : i < cmds.length) (h : PipelineReach nofile cap cmds t input s)
    (hw : s.Waits i fds (.child calls i)) :
    ∃ s', PipelineReach nofile cap cmds t input s' ∧ s'.Waits i fds .exited := by
  induction calls generalizing s with
  | nil =>
    obtain ⟨hshell, tab, hlast⟩ := hw
    have hs : KidStep cap cmds i s true _ := .exec hlast.isKid (List.getElem?_eq_getElem hi)
    exact run_exits hlive cmds[i] (h.step (.kid i hs)) ⟨hshell, tab, hlast.set _⟩
  | cons c calls ih =>
    obtain ⟨hshell, tab, hlast⟩ := hw
    cases hc : c.run tab with
    | none =>
      have hs : KidStep cap cmds i s true _ := .childFail hlast.isKid hc
      exact ⟨_, h.step (.kid i hs), hshell, tab, hlast.set _⟩
    | some tab' =>
      have hs : KidStep cap cmds i s true _ := .child hlast.isKid hc
      exact ih (h.step (.kid i hs)) ⟨hshell, tab', hlast.set _⟩

/-- If nothing gets stuck, the shell goes on to the next command. -/
theorem stage_completes {fd : ℤ} (ht : PlainTab t) (hroom : FdRoom nofile t) (hi : i < cmds.length)
    (h : PipelineReach nofile cap cmds t input s) (hshell : s.shell = .call fd i) :
    ∃ s', PipelineReach nofile cap cmds t input s' ∧ ∃ fd', s'.shell = .call fd' (i + 1) := by
  have hinv := h.inv ht
  cases hinv with
  | @call fd' i' hcall hle htab hk =>
    cases hshell.symm.trans hcall
    have hfork : ∃ s', PipelineReach nofile cap cmds t input s' ∧ (∃ fds, s'.shell = .fork fd i fds) ∧
        s'.kids = s.kids := by
      by_cases hlast : i + 1 = cmds.length
      · exact ⟨_, h.step (.shell (.noPipe hshell hlast)), ⟨_, rfl⟩, rfl⟩
      · obtain ⟨r, w, hfds⟩ := hroom.pipeFds htab
        exact ⟨_, h.step (.shell (.pipe hshell (by omega) hfds)), ⟨_, rfl⟩, rfl⟩
    obtain ⟨s₁, h₁, ⟨fds, hshell₁⟩, hkids⟩ := hfork
    have h₂ := h₁.step (.shell (.fork hshell₁))
    have hlen : s₁.kids.length = i := by
      rw [hkids, hk.1]
    rw [hlen] at h₂
    obtain ⟨s₃, h₃, hshell₃, hlast⟩ := parent_closes _ (parentCalls_close _ _ _ _) h₂ rfl
      ⟨s₁.kids, rfl, hlen, by rw [hkids]; exact hk.2⟩
    have hs : KidStep cap cmds i s₃ true _ := .setpgid hlast.isKid
    obtain ⟨s₄, h₄, hshell₄, tab, hexit⟩ :=
      child_exits hlive _ hi (h₃.step (.kid i hs)) ⟨hshell₃, _, hlast.set _⟩
    refine ⟨_, h₄.step (.shell (.wait hshell₄ fun k hk => ?_)), _, rfl⟩
    cases hk
    exact ⟨tab, hexit.isKid⟩
  | fork h | parent h | done h => cases hshell.symm.trans h

/-- If nothing gets stuck, the shell reaches every command. -/
theorem all_stages (ht : PlainTab t) (hroom : FdRoom nofile t) (hi : i ≤ cmds.length) :
    ∃ s, PipelineReach nofile cap cmds t input s ∧ ∃ fd, s.shell = .call fd i := by
  induction i with
  | zero =>
    have hstart : PipelineStart t input (⟨.call (-1) 0, t, [], 0, fun _ => [], input⟩ : Pipeline α) :=
      ⟨rfl, rfl, rfl, rfl, fun _ => rfl, rfl⟩
    exact ⟨_, .init hstart, _, rfl⟩
  | succ i ih =>
    obtain ⟨s, h, fd, hshell⟩ := ih (by omega)
    exact stage_completes hlive ht hroom hi h hshell

end Completion

/-- A pipeline gets stuck in some run if and only if a command that is not the last one
writes, on the input that it gets, more than a pipe can hold. -/
theorem pipeline_progress_iff (nofile cap : ℕ) (cmds : List (Proc α)) (input : List α) (ht : PlainTab t)
    (hroom : FdRoom nofile t) :
    (∀ s, Reachable (PipelineStart t input) (QuietPipelineStep nofile cap cmds) s →
        s.Finished ∨ s.CanStep nofile cap cmds) ↔
      ∀ i, i + 1 < cmds.length → (cmdInput cmds input (i + 1)).length ≤ cap := by
  constructor
  · intro hlive i hi
    obtain ⟨s, h, fd, hshell⟩ := all_stages hlive ht hroom (Nat.le_refl cmds.length)
    have hinv := PipelineReach.inv ht h
    cases hinv with
    | call hcall hle htab hk hsrc hp hfit =>
      cases hshell.symm.trans hcall
      exact hfit i (by omega) hi
    | fork h | parent h | done h => cases hshell.symm.trans h
  · intro hfit s h
    exact (PipelineReach.inv ht h).progress ht hroom hfit

section Example

/-- Standard input, output and error. -/
def stdTab : FdTab := fun f => if f < 3 then some .file else none

/-- A command that writes two bytes to one that reads them. -/
def writeTwo : List (Proc ℕ) := [.write [0, 1] .exit, .read 2 fun _ => .exit]

theorem stdTab_plain : PlainTab stdTab := by
  refine ⟨rfl, rfl, fun f h hf => ?_⟩
  unfold stdTab at hf
  split_ifs at hf
  exact (Option.some.inj hf).symm

theorem stdTab_room : FdRoom 8 stdTab := ⟨3, 4, 5, by decide, by decide, by decide, rfl, rfl, rfl⟩

theorem pipeline_progress_two :
    ((∀ s, Reachable (PipelineStart stdTab []) (QuietPipelineStep 8 2 writeTwo) s →
        s.Finished ∨ s.CanStep 8 2 writeTwo) ↔
      ∀ i, i + 1 < writeTwo.length → (cmdInput writeTwo [] (i + 1)).length ≤ 2) ∧
    ∀ i, i + 1 < writeTwo.length → (cmdInput writeTwo [] (i + 1)).length ≤ 2 :=
  ⟨pipeline_progress_iff 8 2 writeTwo [] stdTab_plain stdTab_room, fun i hi => by
    obtain rfl : i = 0 := by
      change i + 1 < 2 at hi
      omega
    decide⟩

/-- The shell waits for the first command, which waits for room in the pipe. -/
def fullPipeline : Pipeline ℕ where
  shell := .parent [] 0 (3, 4) (some 0)
  tab := closeFd 4 (Function.update (Function.update stdTab 3 (some (.readEnd 0))) 4 (some (.writeEnd 0)))
  kids := [⟨.run (.write [1] .exit), closeFd 3 (closeFd 4 (Function.update
    (Function.update (Function.update stdTab 3 (some (.readEnd 0))) 4 (some (.writeEnd 0)))
    1 (some (.writeEnd 0))))⟩]
  npipes := 1
  pipe := Function.update (fun _ => []) 0 [0]
  input := []

theorem pipeline_stuck : ∃ s, Reachable (PipelineStart stdTab []) (QuietPipelineStep 8 1 writeTwo) s ∧
    ¬ s.Finished ∧ ∀ ok s', ¬ PipelineStep 8 1 writeTwo s ok s' := by
  have hstart : PipelineStart stdTab [] (⟨.call (-1) 0, stdTab, [], 0, fun _ => [], []⟩ : Pipeline ℕ) :=
    ⟨rfl, rfl, rfl, rfl, fun _ => rfl, rfl⟩
  have h₀ : Reachable (PipelineStart stdTab []) (QuietPipelineStep 8 1 writeTwo) _ := .init hstart
  have h₁ := h₀.step (.shell (.pipe (r := 3) (w := 4) rfl (by decide) (by decide)))
  have h₂ := h₁.step (.shell (.fork rfl))
  have h₃ := h₂.step (.shell (.parent rfl rfl))
  have h₄ := h₃.step (.kid 0 (.setpgid rfl))
  have h₅ := h₄.step (.kid 0 (.child rfl rfl))
  have h₆ := h₅.step (.kid 0 (.child rfl rfl))
  have h₇ := h₆.step (.kid 0 (.child rfl rfl))
  have h₈ := h₇.step (.kid 0 (.exec rfl rfl))
  have h₉ := h₈.step (.kid 0 (.writePipe (m := 1) rfl rfl (Or.inl ⟨nofun, 3, rfl⟩) (by decide) (by decide)
    (by decide)))
  refine ⟨fullPipeline, h₉, ?_, ?_⟩
  · rintro ⟨hdone, -⟩
    cases hdone
  intro ok s' hs
  cases hs with
  | shell hs =>
    cases hs with
    | finish h | pipe h | pipeFail h | noPipe h | fork h | forkFail h | parent h => cases h
    | wait h hw =>
      cases h
      obtain ⟨tab, hk⟩ := hw 0 rfl
      cases hk
  | kid k hs =>
    obtain ⟨kid, hk, -⟩ := hs.alive
    have hkid : k = 0 := by
      have hlt := (List.getElem?_eq_some_iff.mp hk).1
      exact Nat.lt_one_iff.mp hlt
    subst hkid
    cases hs with
    | setpgid h | setpgidFail h | child h | childFail h | exec h | exit h | readFile h | readPipe h | readBad h =>
      cases h
    | written h => cases h
    | writeFile h hf =>
      cases h
      cases hf
    | writePipe h hf hr hm hxs hcap =>
      cases h
      cases hf
      -- the one byte in the pipe fills it
      have hfull : 1 + _ ≤ 1 := hcap
      omega
    | sigpipe h hf hr =>
      cases h
      cases hf
      exact hr (Or.inl ⟨nofun, 3, rfl⟩)
    | writeBad h hf =>
      cases h
      rcases hf with hf | ⟨p, hf⟩ <;> cases hf

end Example

end Sisop
