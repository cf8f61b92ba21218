import Sisop.ShTokens
import Mathlib.Logic.Relation
import Mathlib.Logic.Function.Basic

/-! `runcmd` of `user/sh.c`, for the lines that `readline` delivers, with the stores into its
two arrays. -/
namespace Sisop

/-- `BUFLEN` of `lib/readline.c`. -/
abbrev buflen : ℕ := 1024

/-- `MAXARGS` and `BUFSIZ` of `user/sh.c`. -/
abbrev maxargs : ℕ := 16
abbrev bufsiz : ℕ := 1024

/-- The loop of `readline`, with what is in `buf` already. `getchar` returns a character, or fails. -/
def readline : List (Option (BitVec 8)) → List (BitVec 8) → Option (List (BitVec 8))
  | [], _ => none
  | none :: _, _ => none
  | some c :: cs, buf =>
    if (c = 0x08#8 ∨ c = 0x7f#8) ∧ 0 < buf.length then readline cs buf.dropLast
    else if 0x20#8 ≤ c ∧ buf.length < buflen - 1 then readline cs (buf ++ [c])
    else if c = 0x0a#8 ∨ c = 0x0d#8 then some buf
    else readline cs buf

/-- A store into `argv` or `argv0buf`. -/
inductive RunStore where
  | argv (i : ℕ)
  | argv0buf (i : ℕ)
  deriving DecidableEq

def RunStore.InBounds : RunStore → Prop
  | .argv i => i < maxargs
  | .argv0buf i => i < bufsiz

/-- Why `runcmd` has printed a message and called `exit`. -/
inductive RunError where
  | tooManyArguments | inNotWord | outNotWord | openFailed | pipeFailed | forkFailed
  deriving DecidableEq

inductive RunPc where
  | again
  | runit
  | exited (e : RunError)
  | panicked
  | returned
  | spawn
  deriving DecidableEq

/-- The variables of `runcmd`, with the stores it has made. -/
structure RunState where
  sh : Sh
  argc : ℕ
  argv : ℕ → Option ℕ
  stores : List RunStore
  pc : RunPc

/-- What the system calls of one step return. -/
structure RunCalls where
  openRet : ℤ
  pipeRet : ℤ
  forkRet : ℤ

/-- `strlen(s)`. -/
def strlen (mem : List (BitVec 8)) (s : ℕ) : ℕ := ((mem.drop s).takeWhile (· != 0#8)).length

/-- The next token and what is done with it, or the preparation of the command. After `fork` the
child goes on with the next command, and the parent runs this one. -/
def runStep (r : RunCalls) (s : RunState) : Option RunState :=
  match s.pc with
  | .again => do
    let ((c, t), sh) ← gettoken s.sh
    if c = 0x77#8 then
      if s.argc = maxargs then some { s with sh := sh, pc := .exited .tooManyArguments }
      else some { s with
        sh := sh
        argv := Function.update s.argv s.argc t
        argc := s.argc + 1
        stores := s.stores ++ [.argv s.argc] }
    else if c = 0x3c#8 then do
      let ((c', _), sh) ← gettoken sh
      if c' ≠ 0x77#8 then some { s with sh := sh, pc := .exited .inNotWord }
      else some { s with sh := sh, pc := .panicked }
    else if c = 0x3e#8 then do
      let ((c', _), sh) ← gettoken sh
      if c' ≠ 0x77#8 then some { s with sh := sh, pc := .exited .outNotWord }
      else if r.openRet < 0 then some { s with sh := sh, pc := .exited .openFailed }
      else some { s with sh := sh }
    else if c = 0x7c#8 then
      if r.pipeRet < 0 then some { s with sh := sh, pc := .exited .pipeFailed }
      else if r.forkRet < 0 then some { s with sh := sh, pc := .exited .forkFailed }
      else if r.forkRet = 0 then some { s with sh := sh, argc := 0 }
      else some { s with sh := sh, pc := .runit }
    else if c = 0#8 then some { s with sh := sh, pc := .runit }
    else some { s with sh := sh, pc := .panicked }
  | .runit =>
    if s.argc = 0 then some { s with pc := .returned }
    else do
      let t ← s.argv 0
      let c ← s.sh.mem[t]?
      -- a slash is put before the name, and `strcpy` copies the NUL as well
      let slash := if c = 0x2f#8 then []
        else .argv0buf 0 :: (List.range (strlen s.sh.mem t + 1)).map (fun i => .argv0buf (1 + i)) ++ [.argv 0]
      some { s with stores := s.stores ++ slash ++ [.argv s.argc], pc := .spawn }
  | _ => none

/-- The steps, whatever the system calls return. -/
def RunNext (s s' : RunState) : Prop := ∃ r, runStep r s = some s'

/-- `runcmd(line)`, as far as its first token. -/
def runStart (sh : Sh) : RunState := ⟨sh, 0, fun _ => none, [], .again⟩

/-- The words of the commands that can be run, when no system call fails; `acc` are those that are there already. -/
def commands : List (List (BitVec 8)) → List (Token (BitVec 8)) → List (List (List (BitVec 8)))
  | acc, [] => [acc]
  | acc, .word w :: ts => if acc.length = maxargs then [] else commands (acc ++ [w]) ts
  | acc, .sym c :: ts =>
    if c = 0x7c#8 then acc :: commands [] ts
    else if c = 0x3e#8 then
      match ts with
      | .word _ :: ts => commands acc ts
      | _ => []
    else []

/-- There is room for the null pointer behind the arguments, and for the name with its slash and its NUL. -/
def CommandFits (words : List (List (BitVec 8))) : Prop :=
  words.length ≠ maxargs ∧ ∀ w ∈ words.head?, w.head? = some 0x2f#8 ∨ w.length + 2 ≤ bufsiz

section Lines

variable {cs : List (Option (BitVec 8))} {l buf : List (BitVec 8)}

/-- The lines that can be delivered. -/
theorem readline_line (hlen : buf.length < buflen) (hnul : 0#8 ∉ buf) (h : readline cs buf = some l) :
    l.length < buflen ∧ 0#8 ∉ l := by
  fun_induction readline cs buf with
  | case1 | case2 => cases h
  | case3 c cs buf hback ih =>
    apply ih _ _ h
    · rw [List.length_dropLast]
      omega
    · exact fun hmem => hnul (List.dropLast_subset _ hmem)
  | case4 c cs buf hback hchar ih =>
    obtain ⟨hprint, hroom⟩ := hchar
    apply ih _ _ h
    · rw [List.length_append]
      change buf.length + 1 < buflen
      omega
    · intro hmem
      obtain hmem | hmem := List.mem_append.mp hmem
      · exact hnul hmem
      · rw [← List.mem_singleton.mp hmem] at hprint
        exact absurd hprint (by decide)
  | case5 c cs buf hback hchar hend =>
    obtain rfl := Option.some.inj h
    exact ⟨hlen, hnul⟩
  | case6 c cs buf hback hchar hend ih => exact ih hlen hnul h

end Lines

/-- There is no step after these. -/
def RunPc.Stopped (pc : RunPc) : Prop := pc ≠ .again ∧ pc ≠ .runit

/-- What one round of the loop does, by the tokens that are ahead. -/
inductive AgainCase (r : RunCalls) (s : RunState) : List (Token (BitVec 8)) → RunState → Prop
  | done {sh' : Sh} (kept : ∀ t w, Held s.sh t w → Held sh' t w) : AgainCase r s [] { s with sh := sh', pc := .runit }
  | word {w : List (BitVec 8)} {ts : List (Token (BitVec 8))} {sh' : Sh} {t : ℕ} (room : s.argc ≠ maxargs) (ahead : Ahead sh' ts)
      (held : Held sh' t w) (kept : ∀ t w, Held s.sh t w → Held sh' t w) : AgainCase r s (.word w :: ts) { s with
        sh := sh'
        argv := Function.update s.argv s.argc (some t)
        argc := s.argc + 1
        stores := s.stores ++ [.argv s.argc]
        pc := .again }
  | child {ts : List (Token (BitVec 8))} {sh' : Sh} (ahead : Ahead sh' ts) (kept : ∀ t w, Held s.sh t w → Held sh' t w)
      (hr : r.forkRet = 0) : AgainCase r s (.sym 0x7c#8 :: ts) { s with sh := sh', argc := 0, pc := .again }
  | parent {ts : List (Token (BitVec 8))} {sh' : Sh} (kept : ∀ t w, Held s.sh t w → Held sh' t w)
      (hr : r.forkRet ≠ 0) : AgainCase r s (.sym 0x7c#8 :: ts) { s with sh := sh', pc := .runit }
  | out {w : List (BitVec 8)} {ts : List (Token (BitVec 8))} {sh' : Sh} (ahead : Ahead sh' ts)
      (kept : ∀ t w, Held s.sh t w → Held sh' t w) : AgainCase r s (.sym 0x3e#8 :: .word w :: ts)
        { s with sh := sh', pc := .again }
  -- the line has an error, or a system call has failed
  | stop {toks : List (Token (BitVec 8))} {s' : RunState} (hstop : s'.pc.Stopped) (hstores : s'.stores = s.stores) (hne : toks ≠ [])
      (hword : ∀ w ts, toks = .word w :: ts → s.argc = maxargs)
      (hpipe : ∀ ts, toks = .sym 0x7c#8 :: ts → r.pipeRet < 0 ∨ r.forkRet < 0)
      (hout : ∀ w ts, toks = .sym 0x3e#8 :: .word w :: ts → r.openRet < 0) : AgainCase r s toks s'

section Rounds

variable {s s' : RunState} {sh sh' : Sh} {toks : List (Token (BitVec 8))}

/-- Only a word is returned as `w`. -/
theorem Ahead.word_of_id (h : Ahead sh toks) (hid : toks.head?.elim 0#8 Token.id = 0x77#8) : ∃ w ts, toks = .word w :: ts := by
  cases h with
  | done => exact absurd hid (by decide)
  | sym hnc hnp2 hmem hc hrest =>
    obtain rfl : _ = 0x77#8 := hid
    exact absurd hc (by decide)
  | word => exact ⟨_, _, rfl⟩

/-- A round that ends the loop with an error. -/
theorem AgainCase.stopped {r : RunCalls} {pc : RunPc} (hstop : pc.Stopped) (hne : toks ≠ [])
    (hword : ∀ w ts, toks = .word w :: ts → s.argc = maxargs)
    (hpipe : ∀ ts, toks = .sym 0x7c#8 :: ts → r.pipeRet < 0 ∨ r.forkRet < 0)
    (hout : ∀ w ts, toks = .sym 0x3e#8 :: .word w :: ts → r.openRet < 0) : AgainCase r s toks { s with sh := sh, pc := pc } :=
  .stop hstop rfl hne hword hpipe hout

/-- The loop goes round, whatever the line is. -/
theorem runStep_again (r : RunCalls) (hpc : s.pc = .again) (ahead : Ahead s.sh toks) :
    ∃ s', runStep r s = some s' ∧ AgainCase r s toks s' := by
  obtain ⟨⟨c, t⟩, sh', hrun, hnext⟩ := ahead.next
  have hid := hnext.id
  have hstop (e : RunError) : (RunPc.exited e).Stopped := ⟨nofun, nofun⟩
  have hpanic : RunPc.panicked.Stopped := ⟨nofun, nofun⟩
  unfold runStep
  rw [hpc]
  dsimp only
  rw [hrun]
  dsimp only [Option.bind_eq_bind, Option.bind_some]
  cases toks with
  | nil =>
    obtain rfl : c = 0#8 := hid
    exact ⟨_, rfl, .done hnext.kept⟩
  | cons tok ts =>
    cases tok with
    | word w =>
      obtain rfl : c = 0x77#8 := hid
      obtain ⟨t', ht, hheld⟩ := hnext.word w rfl
      obtain rfl : t = some t' := ht
      rw [if_pos rfl]
      by_cases hfull : s.argc = maxargs
      · rw [if_pos hfull]
        exact ⟨_, rfl, .stopped (hstop _) (List.cons_ne_nil _ _) (fun _ _ _ => hfull) nofun nofun⟩
      · rw [if_neg hfull]
        exact ⟨_, rfl, .word hfull hnext.ahead hheld hnext.kept⟩
    | sym d =>
      obtain rfl : c = d := hid
      have hsym : strchr symbols c = true := by
        cases ahead with
        | sym hnc hnp2 hmem hc hrest => exact hc
      have hword : c ≠ 0x77#8 := by
        rintro rfl
        exact absurd hsym (by decide)
      have hnul : c ≠ 0#8 := by
        rintro rfl
        exact absurd hsym (by decide)
      obtain ⟨⟨c', t'⟩, sh₂, hrun', hnext'⟩ := hnext.ahead.next
      have hid' : c' = ts.head?.elim 0#8 Token.id := hnext'.id
      rw [if_neg hword]
      by_cases hin : c = 0x3c#8
      · -- `<` is not implemented
        rw [if_pos hin, hrun']
        dsimp only [Option.bind_some]
        subst hin
        split
        · exact ⟨_, rfl, .stopped (hstop _) (List.cons_ne_nil _ _) nofun (fun _ h => absurd h (by simp)) (fun _ _ h => absurd h (by simp))⟩
        · exact ⟨_, rfl, .stopped hpanic (List.cons_ne_nil _ _) nofun (fun _ h => absurd h (by simp)) (fun _ _ h => absurd h (by simp))⟩
      rw [if_neg hin]
      by_cases hout : c = 0x3e#8
      · rw [if_pos hout, hrun']
        dsimp only [Option.bind_some]
        subst hout
        by_cases hc' : c' = 0x77#8
        · obtain ⟨w, ts', rfl⟩ := hnext.ahead.word_of_id (hid'.symm.trans hc')
          rw [if_neg (not_not_intro hc')]
          by_cases hopen : r.openRet < 0
          · rw [if_pos hopen]
            exact ⟨_, rfl, .stopped (hstop _) (List.cons_ne_nil _ _) nofun (fun _ h => absurd h (by simp)) (fun _ _ _ => hopen)⟩
          · rw [if_neg hopen]
            exact ⟨_, rfl, .out hnext'.ahead fun t w h => hnext'.kept t w (hnext.kept t w h)⟩
        · rw [if_pos hc']
          refine ⟨_, rfl, .stopped (hstop _) (List.cons_ne_nil _ _) nofun (fun _ h => absurd h (by simp)) fun w ts' h => ?_⟩
          obtain rfl := (List.cons.inj h).2
          exact absurd hid' hc'
      rw [if_neg hout]
      by_cases hpipe : c = 0x7c#8
      · rw [if_pos hpipe]
        subst hpipe
        by_cases hr1 : r.pipeRet < 0
        · rw [if_pos hr1]
          exact ⟨_, rfl, .stopped (hstop _) (List.cons_ne_nil _ _) nofun (fun _ _ => Or.inl hr1) (fun _ _ h => absurd h (by simp))⟩
        rw [if_neg hr1]
        by_cases hr2 : r.forkRet < 0
        · rw [if_pos hr2]
          exact ⟨_, rfl, .stopped (hstop _) (List.cons_ne_nil _ _) nofun (fun _ _ => Or.inr hr2) (fun _ _ h => absurd h (by simp))⟩
        rw [if_neg hr2]
        by_cases hr3 : r.forkRet = 0
        · rw [if_pos hr3]
          exact ⟨_, rfl, .child hnext.ahead hnext.kept hr3⟩
        · rw [if_neg hr3]
          exact ⟨_, rfl, .parent hnext.kept hr3⟩
      · rw [if_neg hpipe, if_neg hnul]
        refine ⟨_, rfl, .stopped hpanic (List.cons_ne_nil _ _) nofun (fun ts' h => ?_) fun w ts' h => ?_⟩
        · exact absurd (Token.sym.inj (List.cons.inj h).1) hpipe
        · exact absurd (Token.sym.inj (List.cons.inj h).1) hout

/-- The words of the present command are in `argv`. -/
structure Args (acc : List (List (BitVec 8))) (s : RunState) : Prop where
  argc : acc.length = s.argc
  le : s.argc ≤ maxargs
  word : ∀ i w, acc[i]? = some w → ∃ t, s.argv i = some t ∧ Held s.sh t w

/-- The stores that put a slash before the name of the command. -/
def slashStores (w : List (BitVec 8)) : List RunStore :=
  if w.head? = some 0x2f#8 then []
  else .argv0buf 0 :: (List.range (w.length + 1)).map (fun i => .argv0buf (1 + i)) ++ [.argv 0]

variable {acc : List (List (BitVec 8))} {w : List (BitVec 8)} {t : ℕ}

theorem strlen_of_held (h : Held sh t w) : strlen sh.mem t = w.length := by
  obtain ⟨post, hmem⟩ := h.string
  have hne : ∀ c ∈ w, (c != 0#8) = true := by
    intro c hc
    apply bne_iff_ne.mpr
    rintro rfl
    exact h.noNul hc
  unfold strlen
  rw [← hmem, List.append_assoc, List.takeWhile_append_of_pos hne, List.singleton_append,
    List.takeWhile_cons_of_neg (by decide), List.append_nil]

/-- The first character of a word, or its NUL. -/
theorem first_of_held (h : Held sh t w) : ∃ c, sh.mem[t]? = some c ∧ (c = 0x2f#8 ↔ w.head? = some 0x2f#8) := by
  obtain ⟨post, hmem⟩ := h.string
  have hget : sh.mem[t]? = (w ++ [0#8] ++ post).head? := by
    rw [hmem, List.head?_drop]
  rw [hget]
  cases w with
  | nil => exact ⟨0#8, rfl, by decide⟩
  | cons c w => exact ⟨c, rfl, Option.some_inj.symm⟩

theorem runStep_runit (r : RunCalls) (hpc : s.pc = .runit) (args : Args acc s) : ∃ s', runStep r s = some s' ∧ s'.pc.Stopped ∧
    s'.stores = match acc with
      | [] => s.stores
      | w :: _ => s.stores ++ slashStores w ++ [.argv s.argc] := by
  unfold runStep
  rw [hpc]
  dsimp only
  cases acc with
  | nil =>
    have hzero : s.argc = 0 := args.argc.symm
    rw [if_pos hzero]
    exact ⟨_, rfl, ⟨nofun, nofun⟩, rfl⟩
  | cons w ws =>
    have hpos : s.argc ≠ 0 := by
      rw [← args.argc]
      exact Nat.succ_ne_zero _
    obtain ⟨t, ht, hheld⟩ := args.word 0 w rfl
    obtain ⟨c, hc, hiff⟩ := first_of_held hheld
    rw [if_neg hpos, ht]
    dsimp only [Option.bind_eq_bind, Option.bind_some]
    rw [hc]
    dsimp only [Option.bind_some]
    refine ⟨_, rfl, ⟨nofun, nofun⟩, ?_⟩
    unfold slashStores
    rw [strlen_of_held hheld]
    simp only [hiff]

theorem Args.kept (h : Args acc s) (hkept : ∀ t w, Held s.sh t w → Held sh' t w) (pc : RunPc) :
    Args acc { s with sh := sh', pc := pc } := by
  refine ⟨h.argc, h.le, fun i w hi => ?_⟩
  obtain ⟨t, ht, hheld⟩ := h.word i w hi
  exact ⟨t, ht, hkept t w hheld⟩

theorem Args.word_added (h : Args acc s) (hroom : s.argc ≠ maxargs) (hheld : Held sh' t w)
    (hkept : ∀ t w, Held s.sh t w → Held sh' t w) (stores : List RunStore) (pc : RunPc) :
    Args (acc ++ [w]) ⟨sh', s.argc + 1, Function.update s.argv s.argc (some t), stores, pc⟩ := by
  have hargc := h.argc
  have hle := h.le
  constructor
  · rw [List.length_append]
    exact congrArg (· + 1) hargc
  · change s.argc + 1 ≤ maxargs
    omega
  · intro i w' hi
    rcases Nat.lt_trichotomy i acc.length with hlt | rfl | hgt
    · rw [List.getElem?_append_left hlt] at hi
      obtain ⟨t', ht', hheld'⟩ := h.word i w' hi
      refine ⟨t', ?_, hkept t' w' hheld'⟩
      change Function.update s.argv s.argc (some t) i = some t'
      rw [Function.update_of_ne (by omega)]
      exact ht'
    · rw [List.getElem?_append_right (Nat.le_refl _), Nat.sub_self, List.getElem?_cons_zero] at hi
      obtain rfl := Option.some.inj hi
      refine ⟨t, ?_, hheld⟩
      change Function.update s.argv s.argc (some t) acc.length = some t
      rw [hargc, Function.update_self]
    · rw [List.getElem?_eq_none (by rw [List.length_append]; exact hgt)] at hi
      cases hi

theorem args_nil (sh : Sh) (argv : ℕ → Option ℕ) (stores : List RunStore) (pc : RunPc) : Args [] ⟨sh, 0, argv, stores, pc⟩ :=
  ⟨rfl, Nat.zero_le _, nofun⟩

theorem commands_nil (acc : List (List (BitVec 8))) : commands acc [] = [acc] := by rw [commands]

theorem commands_word {ts : List (Token (BitVec 8))} (h : acc.length ≠ maxargs) :
    commands acc (.word w :: ts) = commands (acc ++ [w]) ts := by rw [commands, if_neg h]

theorem commands_pipe (acc : List (List (BitVec 8))) (ts : List (Token (BitVec 8))) :
    commands acc (.sym 0x7c#8 :: ts) = acc :: commands [] ts := by
  conv_lhs => unfold commands
  rw [if_pos rfl]

theorem commands_out (acc : List (List (BitVec 8))) (w : List (BitVec 8)) (ts : List (Token (BitVec 8))) :
    commands acc (.sym 0x3e#8 :: .word w :: ts) = commands acc ts := by rw [commands, if_neg (by decide), if_pos rfl]

/-- The commands of the line include those that can still be run. -/
inductive RunInv (cmds : List (List (List (BitVec 8)))) (s : RunState) : Prop
  | again {acc : List (List (BitVec 8))} {toks : List (Token (BitVec 8))} (hpc : s.pc = .again) (ahead : Ahead s.sh toks)
      (args : Args acc s) (sub : commands acc toks ⊆ cmds)
  | runit {acc : List (List (BitVec 8))} (hpc : s.pc = .runit) (args : Args acc s) (mem : acc ∈ cmds)
  | stopped (hstop : s.pc.Stopped)

def RunState.InBounds (s : RunState) : Prop := ∀ st ∈ s.stores, st.InBounds

theorem RunState.InBounds.append {new : List RunStore} {s s' : RunState} (h : s.InBounds) (hs : s'.stores = s.stores ++ new)
    (hnew : ∀ st ∈ new, st.InBounds) : s'.InBounds := by
  intro st hst
  rw [hs] at hst
  obtain hst | hst := List.mem_append.mp hst
  · exact h st hst
  · exact hnew st hst

theorem slashStores_inBounds (h : w.head? = some 0x2f#8 ∨ w.length + 2 ≤ bufsiz) : ∀ st ∈ slashStores w, st.InBounds := by
  intro st hst
  unfold slashStores at hst
  split at hst
  · cases hst
  · next hslash =>
    have hlen := h.resolve_left hslash
    change w.length + 2 ≤ 1024 at hlen
    obtain hst | hst := List.mem_append.mp hst
    · obtain rfl | hst := List.mem_cons.mp hst
      · exact Nat.succ_pos 1023
      · obtain ⟨i, hi, rfl⟩ := List.mem_map.mp hst
        have hlt := List.mem_range.mp hi
        change 1 + i < 1024
        omega
    · rw [List.mem_singleton.mp hst]
      exact Nat.succ_pos 15

theorem RunInv.next {cmds : List (List (List (BitVec 8)))} (hfits : ∀ cmd ∈ cmds, CommandFits cmd) (h : RunInv cmds s)
    (hin : s.InBounds) (hs : RunNext s s') : RunInv cmds s' ∧ s'.InBounds := by
  obtain ⟨r, hstep⟩ := hs
  cases h with
  | again hpc ahead args sub =>
    obtain ⟨s₁, hstep', hcase⟩ := runStep_again r hpc ahead
    obtain rfl : s₁ = s' := Option.some.inj (hstep'.symm.trans hstep)
    cases hcase with
    | done kept =>
      rw [commands_nil] at sub
      exact ⟨.runit rfl (args.kept kept _) (sub List.mem_cons_self), hin⟩
    | word room ahead' held kept =>
      rw [commands_word (by rw [args.argc]; exact room)] at sub
      have hle := args.le
      refine ⟨.again rfl ahead' (args.word_added room held kept _ _) sub, hin.append rfl ?_⟩
      intro st hst
      rw [List.mem_singleton.mp hst]
      change s.argc < maxargs
      omega
    | child ahead' kept hr =>
      rw [commands_pipe] at sub
      exact ⟨.again rfl ahead' (args_nil _ _ _ _) (List.cons_subset.mp sub).2, hin⟩
    | parent kept hr =>
      rw [commands_pipe] at sub
      exact ⟨.runit rfl (args.kept kept _) (List.cons_subset.mp sub).1, hin⟩
    | out ahead' kept =>
      rw [commands_out] at sub
      exact ⟨.again rfl ahead' (args.kept kept _) sub, hin⟩
    | stop hstop hstores =>
      refine ⟨.stopped hstop, fun st hst => ?_⟩
      rw [hstores] at hst
      exact hin st hst
  | @runit acc hpc args mem =>
    obtain ⟨s₁, hstep', hstop, hstores⟩ := runStep_runit r hpc args
    obtain rfl : s₁ = s' := Option.some.inj (hstep'.symm.trans hstep)
    refine ⟨.stopped hstop, ?_⟩
    obtain ⟨hcount, hname⟩ := hfits acc mem
    cases acc with
    | nil =>
      intro st hst
      rw [hstores] at hst
      exact hin st hst
    | cons w ws =>
      have hall : s₁.stores = s.stores ++ (slashStores w ++ [.argv s.argc]) := by
        rw [← List.append_assoc]
        exact hstores
      apply hin.append hall
      intro st hst
      obtain hst | hst := List.mem_append.mp hst
      · exact slashStores_inBounds (hname w rfl) st hst
      · rw [List.mem_singleton.mp hst]
        have hle := args.le
        have hargc := args.argc
        change s.argc < maxargs
        omega
  | stopped hstop =>
    unfold runStep at hstep
    obtain ⟨hagain, hrunit⟩ := hstop
    split at hstep
    · next hpc => exact absurd hpc hagain
    · next hpc => exact absurd hpc hrunit
    · cases hstep

theorem RunInv.reach {cmds : List (List (List (BitVec 8)))} (hfits : ∀ cmd ∈ cmds, CommandFits cmd) (h : RunInv cmds s)
    (hin : s.InBounds) (hs : Relation.ReflTransGen RunNext s s') : RunInv cmds s' ∧ s'.InBounds := by
  induction hs with
  | refl => exact ⟨h, hin⟩
  | tail _ hstep ih => exact ih.1.next hfits ih.2 hstep

/-- Every one of the commands is run, when the system calls return what it takes. -/
theorem command_runs (cmd : List (List (BitVec 8))) (hpc : s.pc = .again) (ahead : Ahead s.sh toks) (args : Args acc s)
    (hcmd : cmd ∈ commands acc toks) : ∃ s', Relation.ReflTransGen RunNext s s' ∧ s'.pc = .runit ∧ Args cmd s' := by
  fun_induction commands acc toks generalizing s with
  | case1 acc =>
    obtain rfl := List.mem_singleton.mp hcmd
    obtain ⟨s', hstep, hcase⟩ := runStep_again ⟨0, 0, 0⟩ hpc ahead
    cases hcase with
    | done kept => exact ⟨_, .single ⟨_, hstep⟩, rfl, args.kept kept _⟩
    | stop hstop hstores hne => exact absurd rfl hne
  | case2 acc w ts hfull => cases hcmd
  | case3 acc w ts hroom ih =>
    obtain ⟨s', hstep, hcase⟩ := runStep_again ⟨0, 0, 0⟩ hpc ahead
    cases hcase with
    | word room ahead' held kept =>
      obtain ⟨s'', hrun, hpc', hargs⟩ := ih rfl ahead' (args.word_added room held kept _ _) hcmd
      exact ⟨s'', .head ⟨_, hstep⟩ hrun, hpc', hargs⟩
    | stop hstop hstores hne hword =>
      rw [args.argc] at hroom
      exact absurd (hword w ts rfl) hroom
  | case4 acc ts ih =>
    obtain rfl | hcmd := List.mem_cons.mp hcmd
    · -- the parent runs the command before the `|`
      obtain ⟨s', hstep, hcase⟩ := runStep_again ⟨0, 0, 1⟩ hpc ahead
      cases hcase with
      | child ahead' kept hr => exact absurd hr (by decide)
      | parent kept hr => exact ⟨_, .single ⟨_, hstep⟩, rfl, args.kept kept _⟩
      | stop hstop hstores hne hword hpipe => exact absurd (hpipe ts rfl) (by decide)
    · obtain ⟨s', hstep, hcase⟩ := runStep_again ⟨0, 0, 0⟩ hpc ahead
      cases hcase with
      | child ahead' kept hr =>
        obtain ⟨s'', hrun, hpc', hargs⟩ := ih rfl ahead' (args_nil _ _ _ _) hcmd
        exact ⟨s'', .head ⟨_, hstep⟩ hrun, hpc', hargs⟩
      | parent kept hr => exact absurd rfl hr
      | stop hstop hstores hne hword hpipe => exact absurd (hpipe ts rfl) (by decide)
  | case5 acc w ts hpipe ih =>
    obtain ⟨s', hstep, hcase⟩ := runStep_again ⟨0, 0, 0⟩ hpc ahead
    cases hcase with
    | out ahead' kept =>
      obtain ⟨s'', hrun, hpc', hargs⟩ := ih rfl ahead' (args.kept kept _) hcmd
      exact ⟨s'', .head ⟨_, hstep⟩ hrun, hpc', hargs⟩
    | stop hstop hstores hne hword hpipe hout => exact absurd (hout w ts rfl) (by decide)
  | case6 | case7 => cases hcmd

/-- A command whose stores are all in bounds fits. -/
theorem commandFits_of_inBounds (hpc : s.pc = .runit) (args : Args acc s)
    (hin : ∀ s', Relation.ReflTransGen RunNext s s' → s'.InBounds) : CommandFits acc := by
  obtain ⟨s', hstep, -, hstores⟩ := runStep_runit ⟨0, 0, 0⟩ hpc args
  have hin' := hin s' (.single ⟨_, hstep⟩)
  cases acc with
  | nil => exact ⟨nofun, nofun⟩
  | cons w ws =>
    have hargv : (RunStore.argv s.argc).InBounds := by
      apply hin'
      rw [hstores]
      exact List.mem_append_right _ List.mem_cons_self
    constructor
    · have hargc := args.argc
      change s.argc < maxargs at hargv
      omega
    · intro w' hw'
      obtain rfl : w = w' := Option.some.inj hw'
      by_cases hslash : w.head? = some 0x2f#8
      · exact Or.inl hslash
      · right
        -- the NUL is the last character that is copied
        have hlast : (RunStore.argv0buf (1 + w.length)).InBounds := by
          apply hin'
          rw [hstores]
          apply List.mem_append_left
          apply List.mem_append_right
          unfold slashStores
          rw [if_neg hslash]
          apply List.mem_append_left
          apply List.mem_cons_of_mem
          exact List.mem_map.mpr ⟨w.length, List.mem_range.mpr (Nat.lt_succ_self _), rfl⟩
        change 1 + w.length < 1024 at hlast
        change w.length + 2 ≤ 1024
        omega

/-- A word too many ends the run with a message. -/
def RejectsWord (s : RunState) : Prop :=
  s.pc = .again → s.argc = maxargs → ∀ t sh', gettoken s.sh = some ((0x77#8, t), sh') →
    ∀ r, ∃ s', runStep r s = some s' ∧ s'.pc = .exited .tooManyArguments

theorem rejectsWord (s : RunState) : RejectsWord s := by
  intro hpc hfull t sh' hrun r
  unfold runStep
  rw [hpc]
  dsimp only
  rw [hrun]
  dsimp only [Option.bind_eq_bind, Option.bind_some]
  rw [if_pos rfl, if_pos hfull]
  exact ⟨_, rfl, rfl⟩

/-- No store is out of bounds, and a word too many is rejected, if and only if no command of the line has 16
words, or as its name all 1023 characters that a line can have, the first of them no slash. -/
theorem runcmd_iff {cs : List (Option (BitVec 8))} {l : List (BitVec 8)} (h : readline cs [] = some l) (sh : Sh) :
    (∀ sh₀ s, gettokenFrom (some 0) { sh with mem := l ++ [0#8] } = some sh₀ →
      Relation.ReflTransGen RunNext (runStart sh₀) s → s.InBounds ∧ RejectsWord s) ↔
    ∀ cmd ∈ commands [] (shTokens l), CommandFits cmd := by
  obtain ⟨-, hnul⟩ := readline_line (show ([] : List (BitVec 8)).length < buflen by decide) List.not_mem_nil h
  obtain ⟨sh₀, hstart, htok⟩ := gettoken_start hnul sh
  have hahead : Ahead (runStart sh₀).sh (shTokens l) := htok.ahead
  have hargs : Args [] (runStart sh₀) := args_nil _ _ _ _
  constructor
  · intro hin cmd hcmd
    obtain ⟨s, hrun, hpc, hargs'⟩ := command_runs cmd rfl hahead hargs hcmd
    exact commandFits_of_inBounds hpc hargs' fun s' hs' => (hin sh₀ s' hstart (hrun.trans hs')).1
  · intro hfits sh₁ s hstart' hrun
    obtain rfl : sh₀ = sh₁ := Option.some.inj (hstart.symm.trans hstart')
    have hinv : RunInv (commands [] (shTokens l)) (runStart sh₀) := .again rfl hahead hargs (List.Subset.refl _)
    exact ⟨(hinv.reach hfits (fun _ hst => nomatch hst) hrun).2, rejectsWord s⟩

/-- The line `ls -l|wc`. -/
theorem runcmd_short : ∃ sh s, gettokenFrom (some 0)
      ⟨0#8, none, none, [0x6c#8, 0x73#8, 0x20#8, 0x2d#8, 0x6c#8, 0x7c#8, 0x77#8, 0x63#8] ++ [0#8]⟩ = some sh ∧
    Relation.ReflTransGen RunNext (runStart sh) s ∧ s.pc = .runit ∧ s.argc = 2 ∧ s.InBounds := by
  generalize hl : [0x6c#8, 0x73#8, 0x20#8, 0x2d#8, 0x6c#8, 0x7c#8, 0x77#8, 0x63#8] = l
  have htokens : shTokens l = [.word [0x6c#8, 0x73#8], .word [0x2d#8, 0x6c#8], .sym 0x7c#8, .word [0x77#8, 0x63#8]] := by
    rw [← hl]
    decide +kernel
  have hread : readline (l.map some ++ [some 0x0a#8]) [] = some l := by
    rw [← hl]
    decide
  have hnul : 0#8 ∉ l := by
    rw [← hl]
    decide
  have hcommands : commands [] (shTokens l) = [[[0x6c#8, 0x73#8], [0x2d#8, 0x6c#8]], [[0x77#8, 0x63#8]]] := by
    rw [htokens, commands_word (by decide), commands_word (by decide), commands_pipe, commands_word (by decide),
      commands_nil]
    rfl
  have hfits : ∀ cmd ∈ commands [] (shTokens l), CommandFits cmd := by
    rw [hcommands, List.forall_mem_cons, List.forall_mem_singleton]
    exact ⟨⟨by decide, fun w hw => by cases hw; exact Or.inr (by decide)⟩,
      ⟨by decide, fun w hw => by cases hw; exact Or.inr (by decide)⟩⟩
  obtain ⟨sh₀, hstart, htok⟩ := gettoken_start hnul ⟨0#8, none, none, []⟩
  obtain ⟨s, hrun, hpc, hargs⟩ := command_runs [[0x6c#8, 0x73#8], [0x2d#8, 0x6c#8]] rfl htok.ahead (args_nil _ _ _ _)
    (show _ ∈ commands [] (shTokens l) by rw [hcommands]; exact List.mem_cons_self)
  exact ⟨sh₀, s, hstart, hrun, hpc, hargs.argc.symm,
    ((runcmd_iff hread ⟨0#8, none, none, []⟩).mpr hfits _ s hstart hrun).1⟩

/-- A line of printable characters is delivered as it is. -/
theorem readline_chars {l : List (BitVec 8)} (buf : List (BitVec 8)) (hlen : buf.length + l.length < buflen) (hl : ∀ c ∈ l, c = 0x61#8 ∨ c = 0x20#8) :
    readline (l.map some ++ [some 0x0a#8]) buf = some (buf ++ l) := by
  induction l generalizing buf with
  | nil =>
    rw [List.append_nil]
    change readline [some 0x0a#8] buf = some buf
    unfold readline
    rw [if_neg (fun h => absurd h.1 (by decide)), if_neg (fun h => absurd h.1 (by decide)), if_pos (Or.inl rfl)]
  | cons c l ih =>
    rw [List.length_cons] at hlen
    have hc := hl c List.mem_cons_self
    have hback : ¬ (c = 0x08#8 ∨ c = 0x7f#8) := by
      obtain rfl | rfl := hc <;> decide
    have hprint : 0x20#8 ≤ c := by
      obtain rfl | rfl := hc <;> decide
    rw [List.map_cons, List.cons_append, readline, if_neg fun h => hback h.1, if_pos ⟨hprint, by change _ < 1023; change _ < 1024 at hlen; omega⟩,
      ih _ (by rw [List.length_append]; change _ < 1024; change _ < 1024 at hlen; rw [List.length_singleton]; omega)
        fun d hd => hl d (List.mem_cons_of_mem _ hd), List.append_assoc, List.singleton_append]

/-- A command that does not fit is found by a run. -/
theorem overrun_of_not_fits {l : List (BitVec 8)} (cmd : List (List (BitVec 8))) (hl : ∀ c ∈ l, c = 0x61#8 ∨ c = 0x20#8)
    (hlen : l.length < buflen) (hcmd : cmd ∈ commands [] (shTokens l)) (hfits : ¬ CommandFits cmd) :
    ∃ cs sh₀ s, readline cs [] = some l ∧ gettokenFrom (some 0) ⟨0#8, none, none, l ++ [0#8]⟩ = some sh₀ ∧
      Relation.ReflTransGen RunNext (runStart sh₀) s ∧ ¬ s.InBounds := by
  have hnul : 0#8 ∉ l := by
    intro hmem
    obtain h | h := hl _ hmem
    · exact absurd h (by decide)
    · exact absurd h (by decide)
  have hread := readline_chars [] (show 0 + l.length < buflen by omega) hl
  obtain ⟨sh₀, hstart, htok⟩ := gettoken_start hnul ⟨0#8, none, none, []⟩
  obtain ⟨s, hrun, hpc, hargs⟩ := command_runs cmd rfl htok.ahead (args_nil _ _ _ _) hcmd
  have hbad : ∃ s', Relation.ReflTransGen RunNext s s' ∧ ¬ s'.InBounds := by
    by_contra hno
    apply hfits
    apply commandFits_of_inBounds hpc hargs
    intro s' hs'
    by_contra hout
    exact hno ⟨s', hs', hout⟩
  obtain ⟨s', hrun', hout⟩ := hbad
  exact ⟨_, sh₀, s', hread, hstart, hrun.trans hrun', hout⟩

/-- Sixteen words, and a name of 1023 characters. -/
theorem runcmd_overruns :
    (∃ cs sh₀ s, readline cs [] = some (List.replicate 16 [0x61#8, 0x20#8]).flatten ∧
      gettokenFrom (some 0) ⟨0#8, none, none, (List.replicate 16 [0x61#8, 0x20#8]).flatten ++ [0#8]⟩ = some sh₀ ∧
      Relation.ReflTransGen RunNext (runStart sh₀) s ∧ ¬ s.InBounds) ∧
    (∃ cs sh₀ s, readline cs [] = some (List.replicate 1023 0x61#8) ∧
      gettokenFrom (some 0) ⟨0#8, none, none, List.replicate 1023 0x61#8 ++ [0#8]⟩ = some sh₀ ∧
      Relation.ReflTransGen RunNext (runStart sh₀) s ∧ ¬ s.InBounds) := by
  constructor
  · apply overrun_of_not_fits (List.replicate 16 [0x61#8])
    · decide
    · decide
    · decide +kernel
    · exact fun h => h.1 List.length_replicate
  · have hplain : shPlain 0x61#8 = true := by decide
    have htokens : shTokens (List.replicate 1023 0x61#8) = [.word (List.replicate 1023 0x61#8)] := by
      rw [List.replicate_succ]
      unfold shTokens
      rw [tokens_word (by decide) (by decide), ← List.replicate_succ, List.takeWhile_replicate, List.dropWhile_replicate,
        if_pos hplain, if_pos hplain, tokens_nil]
    apply overrun_of_not_fits [List.replicate 1023 0x61#8]
    · exact fun c hc => Or.inl (List.eq_of_mem_replicate hc)
    · rw [List.length_replicate]
      decide
    · rw [htokens, commands_word (by decide), commands_nil]
      exact List.mem_cons_self
    · intro h
      obtain hslash | hlen := h.2 _ rfl
      · rw [List.replicate_succ] at hslash
        exact absurd hslash (by decide)
      · rw [List.length_replicate] at hlen
        exact absurd hlen (by decide)

end Rounds

end Sisop
