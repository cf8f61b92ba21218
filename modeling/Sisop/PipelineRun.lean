import Sisop.PipelineTables
import Sisop.Routine

/-! Runs of a pipeline in which no system call fails: the shell launches a command only
when the one before it has exited, with all its output in the pipe between them. -/
namespace Sisop

variable {α : Type}

/-- What a command writes in all, when it can read these data up to their end. -/
def Proc.output : Proc α → List α → List α
  | .exit, _ => []
  | .read n k, xs => (k (xs.take n)).output (xs.drop n)
  | .write ys P, xs => ys ++ P.output xs

/-- What command `i` has on its standard input. -/
def cmdInput (cmds : List (Proc α)) (input : List α) : ℕ → List α
  | 0 => input
  | i+1 => match cmds[i]? with
    | some P => P.output (cmdInput cmds input i)
    | none => []

theorem cmdInput_succ {cmds : List (Proc α)} {input : List α} {i : ℕ} {P : Proc α} (h : cmds[i]? = some P) :
    cmdInput cmds input (i + 1) = P.output (cmdInput cmds input i) := by
  rw [cmdInput, h]

section Tables

/-- The descriptors of a process without pipes, with its standard input and output open. -/
structure PlainTab (t : FdTab) : Prop where
  stdin : t 0 = some .file
  stdout : t 1 = some .file
  plain : ∀ f h, t f = some h → h = .file

def FdCall.IsClose : FdCall → Prop
  | .close _ => True
  | .dup2 .. => False

variable {t tab tab' T : FdTab} {calls : List FdCall} {c : FdCall} {r w f i n : ℕ} {fd : ℤ} {fds : PipeFds}

/-- What is open after some calls of `close` was open before. -/
theorem open_before {h : FdEnd} (hc : ∀ c ∈ calls, c.IsClose) (hrun : runCalls calls tab = some T)
    (hT : T f = some h) : tab f = some h := by
  induction calls generalizing tab with
  | nil =>
    cases hrun
    exact hT
  | cons c calls ih =>
    obtain ⟨tab', hrun, hrest⟩ := runCalls_cons hrun
    have htab' := ih (fun c hc' => hc c (List.mem_cons_of_mem _ hc')) hrest
    cases c with
    | close fd =>
      cases hrun
      unfold closeFd at htab'
      split_ifs at htab' with h0
      · rw [Function.update_apply] at htab'
        split_ifs at htab'
        exact htab'
      · exact htab'
    | dup2 => exact (hc _ List.mem_cons_self).elim

theorem parentCalls_close (i : ℕ) (last : Bool) (fd : ℤ) (fds : PipeFds) :
    ∀ c ∈ parentCalls i last fd fds, c.IsClose := by
  intro c hc
  unfold parentCalls at hc
  rcases List.mem_append.mp hc with hc | hc
  · split_ifs at hc
    · cases List.mem_singleton.mp hc
      trivial
    · cases hc
  · split_ifs at hc
    · cases hc
    · cases List.mem_singleton.mp hc
      trivial

/-- The descriptors of the shell at the call for command `i`: besides the original ones, the
end from which this command is to read. -/
def StageTab (t : FdTab) (n i : ℕ) (fd : ℤ) (tab : FdTab) : Prop :=
  if 0 < i ∧ i < n then
    ∃ r : ℕ, t r = none ∧ fd = r ∧ tab = Function.update t r (some (.readEnd (i - 1)))
  else fd = -1 ∧ tab = t

/-- The descriptors of the shell at `fork`. -/
def ForkTab (t : FdTab) (n i : ℕ) (fd : ℤ) (fds : PipeFds) (tab : FdTab) : Prop :=
  ∃ tab₀, StageTab t n i fd tab₀ ∧
    if i + 1 = n then fds = noFds ∧ tab = tab₀
    else ∃ r w : ℕ, fds = ((r : ℤ), (w : ℤ)) ∧ tab₀ r = none ∧ tab₀ w = none ∧ r ≠ w ∧
      tab = Function.update (Function.update tab₀ r (some (.readEnd i))) w (some (.writeEnd i))

/-- The descriptors with which command `i` starts: besides the original ones, it has the
ends of its pipes as its standard input and output. -/
def kidTab (t : FdTab) (n i : ℕ) : FdTab :=
  Function.update (Function.update t 0 (some (if i = 0 then .file else .readEnd (i - 1)))) 1
    (some (if i + 1 = n then .file else .writeEnd i))

theorem kidTab_eq (ht : PlainTab t) (n i : ℕ) : kidTab t n i = commandTab .readEnd .writeEnd t n i := by
  unfold kidTab commandTab
  rw [ht.stdin, ht.stdout]
  split_ifs <;> rfl

/-- The child gets the ends of its pipes, and closes all others. -/
theorem childCalls_run (ht : PlainTab t) (hi : i < n) (h : ForkTab t n i fd fds tab) :
    runCalls (childCalls i (i + 1 = n) fd fds) tab = some (kidTab t n i) := by
  rw [kidTab_eq ht]
  exact AtFork.child (ht.stdin ▸ Option.some_ne_none _) (ht.stdout ▸ Option.some_ne_none _) hi h

/-- The shell keeps the end of the pipe from which the next command is to read. -/
theorem parentCalls_run (ht : PlainTab t) (hi : i < n) (h : ForkTab t n i fd fds tab) :
    ∃ T, runCalls (parentCalls i (i + 1 = n) fd fds) tab = some T ∧ StageTab t n (i + 1) fds.1 T :=
  AtFork.parent (ht.stdin ▸ Option.some_ne_none _) (ht.stdout ▸ Option.some_ne_none _) hi h

end Tables

/-- What command `i` reads from. -/
def Pipeline.source (s : Pipeline α) (i : ℕ) : List α := if i = 0 then s.input else s.pipe (i - 1)

/-- All commands so far, `i` in number, have exited. -/
def Pipeline.AllExited (s : Pipeline α) (i : ℕ) : Prop := s.kids.length = i ∧ ∀ kid ∈ s.kids, kid.pc = .exited

/-- The last child is `kid`, command `i`; the others have exited. -/
def Pipeline.LastKid (s : Pipeline α) (i : ℕ) (kid : Kid α) : Prop :=
  ∃ kids, s.kids = kids ++ [kid] ∧ kids.length = i ∧ ∀ kid ∈ kids, kid.pc = .exited

section Invariant

variable {nofile cap : ℕ} {cmds : List (Proc α)} {t : FdTab} {input : List α} {s s' : Pipeline α}
  {i k : ℕ} {kid kid' : Kid α}

/-- Every command before `i` but the last one has had room for its output. -/
def FitsBefore (cap : ℕ) (cmds : List (Proc α)) (input : List α) (i : ℕ) : Prop :=
  ∀ j < i, j + 1 < cmds.length → (cmdInput cmds input (j + 1)).length ≤ cap

/-- The pipes when there are `made` of them. -/
structure PipesMade (cmds : List (Proc α)) (made : ℕ) (s : Pipeline α) : Prop where
  npipes : s.npipes = min made (cmds.length - 1)
  fresh : ∀ p, s.npipes ≤ p → s.pipe p = []

/-- Child `i`, which has the data `xs` left to read and has written `ys` to its pipe. -/
def KidOk (cap : ℕ) (cmds : List (Proc α)) (t : FdTab) (input : List α) (i : ℕ) (xs ys : List α)
    (kid : Kid α) : Prop :=
  match kid.pc with
  | .setpgid i' fd fds => i' = i ∧ xs = cmdInput cmds input i ∧ ys = [] ∧
      runCalls (childCalls i (i + 1 = cmds.length) fd fds) kid.tab = some (kidTab t cmds.length i)
  | .child calls i' => i' = i ∧ xs = cmdInput cmds input i ∧ ys = [] ∧
      runCalls calls kid.tab = some (kidTab t cmds.length i)
  | .run P => kid.tab = kidTab t cmds.length i ∧
      (i + 1 < cmds.length → ys ++ P.output xs = cmdInput cmds input (i + 1) ∧ ys.length ≤ cap)
  | .exited => i + 1 < cmds.length → ys = cmdInput cmds input (i + 1) ∧ ys.length ≤ cap

/-- How far the pipeline has come. -/
inductive PipelineInv (cap : ℕ) (cmds : List (Proc α)) (t : FdTab) (input : List α) (s : Pipeline α) : Prop where
  | call {fd : ℤ} {i : ℕ} (h : s.shell = .call fd i) (hi : i ≤ cmds.length)
      (htab : StageTab t cmds.length i fd s.tab) (hk : s.AllExited i)
      (hsrc : i < cmds.length → s.source i = cmdInput cmds input i) (hp : PipesMade cmds i s)
      (hfit : FitsBefore cap cmds input i)
  | fork {fd : ℤ} {i : ℕ} {fds : PipeFds} (h : s.shell = .fork fd i fds) (hi : i < cmds.length)
      (htab : ForkTab t cmds.length i fd fds s.tab) (hk : s.AllExited i)
      (hsrc : s.source i = cmdInput cmds input i) (hempty : s.pipe i = []) (hp : PipesMade cmds (i + 1) s)
      (hfit : FitsBefore cap cmds input i)
  | parent {calls : List FdCall} {i : ℕ} {fds : PipeFds} (h : s.shell = .parent calls i fds (some i))
      (hi : i < cmds.length) (hc : ∀ c ∈ calls, c.IsClose)
      (htab : ∃ T, runCalls calls s.tab = some T ∧ StageTab t cmds.length (i + 1) fds.1 T)
      (hk : ∃ kid, s.LastKid i kid ∧ KidOk cap cmds t input i (s.source i) (s.pipe i) kid)
      (hp : PipesMade cmds (i + 1) s) (hfit : FitsBefore cap cmds input i)
  | done (h : s.shell = .done) (hk : s.AllExited cmds.length) (hfit : FitsBefore cap cmds input cmds.length)

theorem KidStep.alive {ok : Bool} (h : KidStep cap cmds k s ok s') :
    ∃ kid, s.IsKid k kid ∧ kid.pc ≠ .exited := by
  cases h with
  | setpgid h | setpgidFail h | child h | childFail h | exec h | exit h | readFile h | readPipe h | readBad h
  | writeFile h | writePipe h | written h | sigpipe h | writeBad h => exact ⟨_, h, nofun⟩

theorem Pipeline.AllExited.not_alive (h : s.AllExited i) (hk : s.IsKid k kid) : kid.pc = .exited :=
  h.2 kid (List.mem_of_getElem? hk)

/-- The child that is alive is the last one. -/
theorem Pipeline.LastKid.eq (h : s.LastKid i kid) (hk : s.IsKid k kid') (ha : kid'.pc ≠ .exited) : k = i ∧ kid' = kid := by
  obtain ⟨kids, hkids, hlen, hex⟩ := h
  unfold Pipeline.IsKid at hk
  rw [hkids] at hk
  by_cases hlt : k < kids.length
  · rw [List.getElem?_append_left hlt] at hk
    exact absurd (hex kid' (List.mem_of_getElem? hk)) ha
  · rw [List.getElem?_append_right (Nat.le_of_not_lt hlt)] at hk
    have hzero : k - kids.length = 0 := by
      by_contra hne
      rw [List.getElem?_eq_none (by rw [List.length_singleton]; omega)] at hk
      cases hk
    rw [hzero] at hk
    cases hk
    exact ⟨by omega, rfl⟩

theorem Pipeline.LastKid.isKid (h : s.LastKid i kid) : s.IsKid i kid := by
  obtain ⟨kids, hkids, hlen, -⟩ := h
  unfold Pipeline.IsKid
  rw [hkids, List.getElem?_append_right (by omega), hlen, Nat.sub_self]
  rfl

theorem Pipeline.LastKid.set (h : s.LastKid i kid) (kid' : Kid α) : (s.setKid i kid').LastKid i kid' := by
  obtain ⟨kids, hkids, hlen, hex⟩ := h
  refine ⟨kids, ?_, hlen, hex⟩
  unfold Pipeline.setKid
  rw [hkids, List.set_append_right _ _ (by omega), hlen, Nat.sub_self]
  rfl

/-- The shell starts command `i`, waits for it and goes on to the next one. -/
theorem PipelineInv.shell (ht : PlainTab t) (h : PipelineInv cap cmds t input s)
    (hs : ShellStep nofile cmds s true s') : PipelineInv cap cmds t input s' := by
  cases h with
  | @call fd i hshell hi htab hk hsrc hp hfit =>
    cases hs with
    | @finish fd' i' h hi' =>
      rw [hshell] at h
      cases h
      obtain rfl : i = cmds.length := by omega
      exact .done rfl hk hfit
    | @pipe fd' i' r w h hi' hfds =>
      rw [hshell] at h
      cases h
      obtain ⟨hr, hw, hrw⟩ := pipeFds_free hfds
      have hn : s.npipes = i := by
        rw [hp.npipes]
        omega
      refine .fork rfl (by omega) ⟨s.tab, htab, ?_⟩ hk (hsrc (by omega)) (hp.fresh i (by omega)) ⟨?_, ?_⟩ hfit
      · rw [if_neg (by omega), hn]
        exact ⟨r, w, rfl, hr, hw, hrw, rfl⟩
      · change s.npipes + 1 = _
        rw [hn]
        omega
      · intro p hle
        apply hp.fresh p
        change s.npipes + 1 ≤ p at hle
        omega
    | @noPipe fd' i' h hi' =>
      rw [hshell] at h
      cases h
      have hn := hp.npipes
      refine .fork rfl (by omega) ⟨s.tab, htab, ?_⟩ hk (hsrc (by omega)) (hp.fresh i (by omega)) ⟨?_, hp.fresh⟩ hfit
      · rw [if_pos hi']
        exact ⟨rfl, rfl⟩
      · change s.npipes = _
        omega
    | fork h | parent h | wait h =>
      rw [hshell] at h
      cases h
  | @fork fd i fds hshell hi htab hk hsrc hempty hp hfit =>
    cases hs with
    | @fork fd' i' fds' h =>
      rw [hshell] at h
      cases h
      rw [hk.1]
      refine .parent rfl hi (parentCalls_close _ _ _ _) (parentCalls_run ht hi htab)
        ⟨_, ⟨s.kids, rfl, hk.1, hk.2⟩, rfl, hsrc, hempty, childCalls_run ht hi htab⟩ ⟨hp.npipes, hp.fresh⟩ hfit
    | finish h | pipe h | noPipe h | parent h | wait h =>
      rw [hshell] at h
      cases h
  | @parent calls i fds hshell hi hc htab hk hp hfit =>
    cases hs with
    | @parent c calls' i' fds' pid' tab' h hrun =>
      rw [hshell] at h
      cases h
      obtain ⟨T, hT, hstage⟩ := htab
      obtain ⟨tab'', hrun', hrest⟩ := runCalls_cons hT
      rw [hrun] at hrun'
      cases hrun'
      exact .parent rfl hi (fun c hc' => hc c (List.mem_cons_of_mem _ hc')) ⟨T, hrest, hstage⟩ hk
        ⟨hp.npipes, hp.fresh⟩ hfit
    | @wait i' fds' pid' h hw =>
      rw [hshell] at h
      cases h
      obtain ⟨T, hT, hstage⟩ := htab
      cases hT
      obtain ⟨kid, hlast, hkid⟩ := hk
      obtain ⟨tab, hexit⟩ := hw i rfl
      obtain ⟨kids, hkids, hlen, hex⟩ := hlast
      have hsame : kid = ⟨.exited, tab⟩ := by
        have hk' := Pipeline.LastKid.isKid ⟨kids, hkids, hlen, hex⟩
        unfold Pipeline.IsKid at hk' hexit
        rw [hexit] at hk'
        exact (Option.some.inj hk').symm
      subst hsame
      -- the output of the command is in its pipe
      have hout : i + 1 < cmds.length →
          s.pipe i = cmdInput cmds input (i + 1) ∧ (s.pipe i).length ≤ cap := hkid
      refine .call rfl hi hstage ⟨?_, ?_⟩ (fun hlt => (hout hlt).1) ⟨hp.npipes, hp.fresh⟩ fun j hj hlt => ?_
      · change s.kids.length = _
        rw [hkids, List.length_append, hlen]
        rfl
      · intro kid hmem
        change kid ∈ s.kids at hmem
        rw [hkids] at hmem
        rcases List.mem_append.mp hmem with hmem | hmem
        · exact hex kid hmem
        · rw [List.mem_singleton.mp hmem]
      · by_cases hji : j = i
        · subst hji
          rw [← (hout hlt).1]
          exact (hout hlt).2
        · exact hfit j (by omega) hlt
    | finish h | pipe h | noPipe h | fork h =>
      rw [hshell] at h
      cases h
  | done hshell =>
    cases hs with
    | finish h | pipe h | noPipe h | fork h | parent h | wait h =>
      rw [hshell] at h
      cases h

theorem kidTab_stdin (t : FdTab) (n i : ℕ) :
    kidTab t n i 0 = some (if i = 0 then .file else .readEnd (i - 1)) := by
  unfold kidTab
  rw [Function.update_of_ne (by decide), Function.update_self]

theorem kidTab_stdout (t : FdTab) (n i : ℕ) :
    kidTab t n i 1 = some (if i + 1 = n then .file else .writeEnd i) := Function.update_self ..

theorem kidTab_writeEnd (ht : PlainTab t) {n f p : ℕ} (h : kidTab t n i f = some (.writeEnd p)) : p = i := by
  unfold kidTab at h
  rw [Function.update_apply, Function.update_apply] at h
  split_ifs at h
  · cases h
  · cases h
    rfl
  · cases h
  · cases h
  · cases ht.plain f _ h

/-- While a command runs, the shell has the other end of the pipe that it writes to. -/
theorem hasEnd_of_stage {calls : List FdCall} {fds : PipeFds} {n : ℕ} {T : FdTab}
    (hshell : s.shell = .parent calls i fds (some i)) (hc : ∀ c ∈ calls, c.IsClose)
    (hT : runCalls calls s.tab = some T) (hstage : StageTab t n (i + 1) fds.1 T) (hi : i + 1 < n) :
    s.HasEnd (.readEnd i) := by
  unfold StageTab at hstage
  rw [if_pos ⟨Nat.succ_pos i, hi⟩] at hstage
  obtain ⟨r, -, -, rfl⟩ := hstage
  refine Or.inl ⟨by rw [hshell]; exact nofun, r, ?_⟩
  exact open_before hc hT (Function.update_self ..)

theorem PipesMade.congr {made : ℕ} (h : PipesMade cmds made s) (hn : s'.npipes = s.npipes)
    (hp : ∀ p, s.npipes ≤ p → s'.pipe p = s.pipe p) : PipesMade cmds made s' := by
  refine ⟨hn.trans h.npipes, fun p hle => ?_⟩
  rw [hn] at hle
  rw [hp p hle]
  exact h.fresh p hle

/-- A step of command `i`, while the shell is before or at `waitpid`. -/
theorem KidOk.step (h : KidOk cap cmds t input i (s.source i) (s.pipe i) kid) (hlast : s.LastKid i kid)
    (hi : i < cmds.length) (hend : i + 1 < cmds.length → s.HasEnd (.readEnd i))
    (hp : PipesMade cmds (i + 1) s) (hs : KidStep cap cmds k s true s') :
    s'.shell = s.shell ∧ s'.tab = s.tab ∧ PipesMade cmds (i + 1) s' ∧
      ∃ kid', s'.LastKid i kid' ∧ KidOk cap cmds t input i (s'.source i) (s'.pipe i) kid' := by
  have hn := hp.npipes
  cases hs with
  | setpgid hk =>
    obtain ⟨rfl, rfl⟩ := hlast.eq hk nofun
    obtain ⟨rfl, hsrc, hempty, hcalls⟩ := h
    exact ⟨rfl, rfl, ⟨hp.npipes, hp.fresh⟩, _, hlast.set _, rfl, hsrc, hempty, hcalls⟩
  | child hk hc =>
    obtain ⟨rfl, rfl⟩ := hlast.eq hk nofun
    obtain ⟨rfl, hsrc, hempty, hcalls⟩ := h
    obtain ⟨tab', hrun, hrest⟩ := runCalls_cons hcalls
    rw [hc] at hrun
    cases hrun
    exact ⟨rfl, rfl, ⟨hp.npipes, hp.fresh⟩, _, hlast.set _, rfl, hsrc, hempty, hrest⟩
  | childFail hk hc =>
    obtain ⟨rfl, rfl⟩ := hlast.eq hk nofun
    obtain ⟨-, -, -, hcalls⟩ := h
    obtain ⟨tab', hrun, -⟩ := runCalls_cons hcalls
    rw [hc] at hrun
    cases hrun
  | exec hk hP =>
    obtain ⟨rfl, rfl⟩ := hlast.eq hk nofun
    obtain ⟨rfl, hsrc, hempty, hcalls⟩ := h
    refine ⟨rfl, rfl, ⟨hp.npipes, hp.fresh⟩, _, hlast.set _, Option.some.inj hcalls, fun _ => ?_⟩
    change s.pipe _ ++ Proc.output _ (s.source _) = _ ∧ (s.pipe _).length ≤ cap
    rw [hempty, hsrc, List.nil_append, cmdInput_succ hP]
    exact ⟨rfl, Nat.zero_le _⟩
  | exit hk =>
    obtain ⟨rfl, rfl⟩ := hlast.eq hk nofun
    obtain ⟨-, hout⟩ := h
    refine ⟨rfl, rfl, ⟨hp.npipes, hp.fresh⟩, _, hlast.set _, fun hlt => ?_⟩
    obtain ⟨hall, hlen⟩ := hout hlt
    rw [Proc.output, List.append_nil] at hall
    exact ⟨hall, hlen⟩
  | @readFile n next tab hk hf =>
    obtain ⟨rfl, rfl⟩ := hlast.eq hk nofun
    obtain ⟨htab, hout⟩ := h
    obtain rfl : k = 0 := by
      by_contra hne
      change tab = _ at htab
      rw [htab, kidTab_stdin, if_neg hne] at hf
      cases hf
    exact ⟨rfl, rfl, ⟨hp.npipes, hp.fresh⟩, _, hlast.set _, htab, hout⟩
  | @readPipe n p next tab hk hf hd =>
    obtain ⟨rfl, rfl⟩ := hlast.eq hk nofun
    obtain ⟨htab, hout⟩ := h
    change tab = _ at htab
    rw [htab, kidTab_stdin] at hf
    split_ifs at hf with hzero
    · cases hf
    cases hf
    have hsrc : s.source k = s.pipe (k - 1) := if_neg hzero
    refine ⟨rfl, rfl, hp.congr rfl fun p hle => ?_, _, hlast.set _, htab, fun hlt => ?_⟩
    · exact Function.update_of_ne (by omega) _ _
    · obtain ⟨hall, hlen⟩ := hout hlt
      have hpipe : Function.update s.pipe (k - 1) ((s.pipe (k - 1)).drop n) k = s.pipe k :=
        Function.update_of_ne (by omega) _ _
      have hsrc' : (if k = 0 then s.input else
          Function.update s.pipe (k - 1) ((s.pipe (k - 1)).drop n) (k - 1)) = (s.pipe (k - 1)).drop n := by
        rw [if_neg hzero, Function.update_self]
      change Function.update s.pipe (k - 1) ((s.pipe (k - 1)).drop n) k ++ Proc.output _
        (if k = 0 then s.input else Function.update s.pipe (k - 1) ((s.pipe (k - 1)).drop n) (k - 1)) = _ ∧
        (Function.update s.pipe (k - 1) ((s.pipe (k - 1)).drop n) k).length ≤ cap
      rw [hpipe, hsrc']
      rw [hsrc] at hall
      exact ⟨hall, hlen⟩
  | @readBad n next tab hk hf =>
    obtain ⟨rfl, rfl⟩ := hlast.eq hk nofun
    obtain ⟨htab, -⟩ := h
    change tab = _ at htab
    rw [htab, kidTab_stdin] at hf
    rcases hf with hf | ⟨p, hf⟩
    · cases hf
    · split_ifs at hf <;> cases hf
  | @writeFile xs P tab hk hf =>
    obtain ⟨rfl, rfl⟩ := hlast.eq hk nofun
    obtain ⟨htab, -⟩ := h
    refine ⟨rfl, rfl, ⟨hp.npipes, hp.fresh⟩, _, hlast.set _, htab, fun hlt => ?_⟩
    change tab = _ at htab
    rw [htab, kidTab_stdout, if_neg (by omega)] at hf
    cases hf
  | @writePipe p m xs P tab hk hf hr hm hxs hcap =>
    obtain ⟨rfl, rfl⟩ := hlast.eq hk nofun
    obtain ⟨htab, hout⟩ := h
    change tab = _ at htab
    rw [htab, kidTab_stdout] at hf
    split_ifs at hf with hlast'
    · cases hf
    cases hf
    refine ⟨rfl, rfl, hp.congr rfl fun p hle => ?_, _, hlast.set _, htab, fun hlt => ?_⟩
    · exact Function.update_of_ne (by omega) _ _
    · obtain ⟨hall, -⟩ := hout hlt
      have hpipe : Function.update s.pipe k (s.pipe k ++ xs.take m) k = s.pipe k ++ xs.take m :=
        Function.update_self ..
      have hsrc' : (if k = 0 then s.input else Function.update s.pipe k (s.pipe k ++ xs.take m) (k - 1)) =
          s.source k := by
        unfold Pipeline.source
        split_ifs
        · rfl
        · exact Function.update_of_ne (by omega) _ _
      change Function.update s.pipe k (s.pipe k ++ xs.take m) k ++ (xs.drop m ++ P.output
        (if k = 0 then s.input else Function.update s.pipe k (s.pipe k ++ xs.take m) (k - 1))) = _ ∧
        (Function.update s.pipe k (s.pipe k ++ xs.take m) k).length ≤ cap
      rw [hpipe, hsrc']
      rw [Proc.output] at hall
      refine ⟨?_, ?_⟩
      · rw [List.append_assoc, ← List.append_assoc (xs.take m), List.take_append_drop, hall]
      · rw [List.length_append, List.length_take]
        omega
  | written hk hf =>
    obtain ⟨rfl, rfl⟩ := hlast.eq hk nofun
    obtain ⟨htab, hout⟩ := h
    exact ⟨rfl, rfl, ⟨hp.npipes, hp.fresh⟩, _, hlast.set _, htab, hout⟩
  | @sigpipe p xs P tab hk hf hr hxs =>
    obtain ⟨rfl, rfl⟩ := hlast.eq hk nofun
    obtain ⟨htab, -⟩ := h
    change tab = _ at htab
    rw [htab, kidTab_stdout] at hf
    split_ifs at hf with hlast'
    · cases hf
    cases hf
    exact absurd (hend (by omega)) hr
  | @writeBad xs P tab hk hf =>
    obtain ⟨rfl, rfl⟩ := hlast.eq hk nofun
    obtain ⟨htab, -⟩ := h
    change tab = _ at htab
    rw [htab, kidTab_stdout] at hf
    rcases hf with hf | ⟨p, hf⟩
    · cases hf
    · split_ifs at hf <;> cases hf

theorem PipelineInv.step (ht : PlainTab t) (h : PipelineInv cap cmds t input s)
    (hs : PipelineStep nofile cap cmds s true s') : PipelineInv cap cmds t input s' := by
  cases hs with
  | shell hs => exact h.shell ht hs
  | kid k hs =>
    obtain ⟨kid, hk, halive⟩ := hs.alive
    cases h with
    | call hshell hi htab hex => exact absurd (hex.not_alive hk) halive
    | fork hshell hi htab hex => exact absurd (hex.not_alive hk) halive
    | done hshell hex => exact absurd (hex.not_alive hk) halive
    | @parent calls i fds hshell hi hc htab hkid hp hfit =>
      obtain ⟨kid, hlast, hok⟩ := hkid
      have hend (hlt : i + 1 < cmds.length) : s.HasEnd (.readEnd i) := by
        obtain ⟨T, hT, hstage⟩ := htab
        exact hasEnd_of_stage hshell hc hT hstage hlt
      obtain ⟨hshell', htab', hp', hkid'⟩ := hok.step hlast hi hend hp hs
      exact .parent (hshell'.trans hshell) hi hc (by rw [htab']; exact htab) hkid' hp' hfit

theorem PipelineStart.inv (h : PipelineStart t input s) : PipelineInv cap cmds t input s := by
  refine .call h.shell (Nat.zero_le _) (atCall_out (by omega) h.tab) ⟨?_, ?_⟩ (fun _ => h.input)
    ⟨?_, fun p _ => h.pipe p⟩ fun j hj => absurd hj (Nat.not_lt_zero j)
  · rw [h.kids]
    rfl
  · rw [h.kids]
    exact nofun
  · rw [h.npipes, Nat.zero_min]

end Invariant

end Sisop
