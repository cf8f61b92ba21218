import Sisop.ShellPlaces

/-! The bounds of the buffers and arrays of the shell. -/
namespace Sisop
namespace Shell

/-- A line fits into the buffer, with its NUL. At the end of the input there is none. -/
def LineFits (input : List (BitVec 8)) : Prop :=
  if input.contains (chr '\n') then (input.takeWhile (· ≠ chr '\n')).length < buflen else input.length ≤ buflen

instance (input : List (BitVec 8)) : Decidable (LineFits input) := inferInstanceAs (Decidable (ite _ _ _))

/-- A word that is neither a redirection nor an assignment to `parse_exec`. -/
def takenAsArg (w : List (BitVec 8)) : Bool :=
  !w.contains (chr '>') && !w.contains (chr '<') && !(decide (IsAssignment w) && !w.contains (chr '-'))

/-- A word that is an assignment to `parse_exec`. -/
def takenAsAssign (w : List (BitVec 8)) : Bool :=
  !w.contains (chr '>') && !w.contains (chr '<') && decide (IsAssignment w) && !w.contains (chr '-')

section Bounds

variable {env : Env} {buffer line input : List (BitVec 8)} {i : ℕ}

/-- With `i` characters in the buffer, what is left of the line is stored exactly if it fits. -/
theorem readLoop_iff (input : List (BitVec 8)) : ∀ {buffer i}, buffer.length = buflen → i ≤ buflen →
    (readLoop buffer i input ≠ none ↔
      if chr '\n' ∈ input then i + (input.takeWhile (· ≠ chr '\n')).length < buflen else i + input.length ≤ buflen) := by
  induction input with
  | nil =>
    intro buffer i _ hi
    exact iff_of_true nofun hi
  | cons c input ih =>
    intro buffer i hbuf hi
    have hstore : ∀ d, storeAt buffer i d = if i < buflen then some (buffer.set i d) else none := by
      intro d
      rw [← hbuf]
      rfl
    by_cases hc : c = chr '\n'
    · subst hc
      have hfits : (if chr '\n' ∈ chr '\n' :: input then
          i + ((chr '\n' :: input).takeWhile (· ≠ chr '\n')).length < buflen else i + (chr '\n' :: input).length ≤ buflen) ↔
            i < buflen := by
        rw [if_pos List.mem_cons_self, List.takeWhile_cons_of_neg (by simp)]
        exact Iff.rfl
      rw [hfits, readLoop, if_neg (not_not.mpr rfl), hstore]
      by_cases hlt : i < buflen
      · rw [if_pos hlt]
        exact iff_of_true nofun hlt
      · rw [if_neg hlt]
        exact iff_of_false (fun h => h rfl) hlt
    · have hmem : chr '\n' ∈ c :: input ↔ chr '\n' ∈ input := by
        rw [List.mem_cons, or_iff_right fun h => hc h.symm]
      have hfits : (if chr '\n' ∈ c :: input then
          i + ((c :: input).takeWhile (· ≠ chr '\n')).length < buflen else i + (c :: input).length ≤ buflen) ↔
            if chr '\n' ∈ input then i + 1 + (input.takeWhile (· ≠ chr '\n')).length < buflen else i + 1 + input.length ≤ buflen := by
        rw [if_congr hmem rfl rfl, List.takeWhile_cons_of_pos (by simpa using hc), List.length_cons, List.length_cons,
          Nat.add_right_comm, Nat.add_right_comm i 1, Nat.add_assoc, Nat.add_assoc]
      rw [hfits, readLoop, if_pos hc, hstore]
      by_cases hlt : i < buflen
      · rw [if_pos hlt, Option.bind_eq_bind, Option.bind_some]
        exact ih (List.length_set.trans hbuf) hlt
      · rw [if_neg hlt]
        refine iff_of_false (fun h => h rfl) ?_
        split
        next => omega
        next => omega

theorem readLine_iff (input : List (BitVec 8)) : readLine input ≠ none ↔ LineFits input := by
  have hiff := @readLoop_iff input _ 0 (@List.length_replicate _ buflen 0#8) (Nat.zero_le _)
  rw [Nat.zero_add, Nat.zero_add] at hiff
  unfold LineFits
  simp only [List.contains_iff_mem]
  exact hiff

/-- What is delivered is a line with NULs behind it. -/
theorem readLoop_line (input : List (BitVec 8)) : ∀ {line b}, line.length ≤ buflen →
    readLoop (line ++ List.replicate (buflen - line.length) 0#8) line.length input = some (some b) →
    ∃ l, l.length < buflen ∧ b = l ++ List.replicate (buflen - l.length) 0#8 := by
  induction input with
  | nil => exact fun _ h => nomatch h
  | cons c input ih =>
    intro line b hline h
    have hlen : (line ++ List.replicate (buflen - line.length) 0#8).length = buflen := by
      rw [List.length_append, List.length_replicate]
      omega
    unfold readLoop storeAt at h
    rw [hlen] at h
    by_cases hlt : line.length < buflen
    · have hset : ∀ d, (line ++ List.replicate (buflen - line.length) 0#8).set line.length d =
          (line ++ [d]) ++ List.replicate (buflen - (line.length + 1)) 0#8 := by
        intro d
        have hroom : buflen - line.length = buflen - (line.length + 1) + 1 := by omega
        rw [hroom, List.set_append_right _ _ (Nat.le_refl _), Nat.sub_self, List.replicate_succ, List.set_cons_zero,
          ← List.append_cons]
      rw [if_pos hlt, if_pos hlt] at h
      by_cases hc : c = chr '\n'
      · rw [if_neg (not_not.mpr hc)] at h
        refine ⟨line, hlt, ?_⟩
        have hb := (Option.some.inj (Option.some.inj h)).symm
        rw [hset, ← List.append_cons, ← List.replicate_succ] at hb
        rw [hb]
        congr 2
        omega
      · rw [if_pos hc, Option.bind_eq_bind, Option.bind_some] at h
        have hlen' : (line ++ [c]).length = line.length + 1 := List.length_append
        rw [hset, ← hlen'] at h
        exact ih (hlen'.trans_le hlt) h
    · rw [if_neg hlt, if_neg hlt] at h
      split at h <;> cases h

theorem takenAsArg_eq (w : List (BitVec 8)) :
    takenAsArg w = decide ((chr '>' ∉ w ∧ chr '<' ∉ w) ∧ ¬ (IsAssignment w ∧ chr '-' ∉ w)) := by
  rw [Bool.eq_iff_iff]
  simp only [takenAsArg, Bool.and_eq_true, Bool.not_eq_true', List.contains_eq_mem, decide_eq_false_iff_not, decide_eq_true_eq,
    Bool.and_eq_false_iff, not_and_or, Bool.not_eq_false', not_not]

theorem takenAsAssign_eq (w : List (BitVec 8)) :
    takenAsAssign w = decide ((chr '>' ∉ w ∧ chr '<' ∉ w) ∧ IsAssignment w ∧ chr '-' ∉ w) := by
  rw [Bool.eq_iff_iff]
  simp only [takenAsAssign, Bool.and_eq_true, Bool.not_eq_true', List.contains_eq_mem, decide_eq_false_iff_not, decide_eq_true_eq,
    and_assoc]

/-- What a word adds to the counters. -/
theorem execWord_counts (env : Env) (c : Execcmd) (w : List (BitVec 8)) :
    (execWord env c w).argv.length = c.argv.length + (if takenAsArg w then 1 else 0) ∧
    (execWord env c w).eargv.length = c.eargv.length + (if takenAsAssign w then 1 else 0) := by
  rw [takenAsArg_eq, takenAsAssign_eq]
  by_cases hredir : chr '>' ∉ w ∧ chr '<' ∉ w
  · rw [execWord_kept env c hredir.1 hredir.2]
    by_cases ha : IsAssignment w ∧ chr '-' ∉ w
    · rw [if_pos ha, decide_eq_false fun h => h.2 ha, decide_eq_true ⟨hredir, ha⟩]
      exact ⟨rfl, List.length_append⟩
    · rw [if_neg ha, decide_eq_true ⟨hredir, ha⟩, decide_eq_false fun h => ha h.2]
      exact ⟨List.length_append, rfl⟩
  · have hor : chr '>' ∈ w ∨ chr '<' ∈ w := by
      rw [not_and_or, not_not, not_not] at hredir
      exact hredir
    obtain ⟨-, hargv, heargv, -⟩ := execWord_redirected env c hor
    rw [hargv, heargv, decide_eq_false fun h => hredir h.1, decide_eq_false fun h => hredir h.1]
    exact ⟨rfl, rfl⟩

theorem foldl_counts (env : Env) (ws : List (List (BitVec 8))) (c : Execcmd) :
    (ws.foldl (execWord env) c).argv.length = c.argv.length + ws.countP takenAsArg ∧
    (ws.foldl (execWord env) c).eargv.length = c.eargv.length + ws.countP takenAsAssign := by
  induction ws generalizing c with
  | nil => exact ⟨rfl, rfl⟩
  | cons w ws ih =>
    obtain ⟨hargv, heargv⟩ := ih (execWord env c w)
    obtain ⟨wargv, weargv⟩ := execWord_counts env c w
    rw [List.foldl_cons, hargv, heargv, wargv, weargv, List.countP_cons, List.countP_cons]
    omega

end Bounds

/-- `read_line` stays inside of its buffer exactly if the line fits, and delivers strings that `get_token` can take, whatever
their words. `parse_exec` stays inside of its arrays exactly if there is room for the arguments, with the null pointer behind them,
and for the assignments. -/
theorem shell_bounds_iff (env : Env) :
    (∀ input, readLine input ≠ none ↔ LineFits input) ∧
    (∀ input b, readLine input = some (some b) → ∃ l, l.length < buflen ∧ b = l ++ List.replicate (buflen - l.length) 0#8) ∧
    ∀ s, 0#8 ∉ s → s.length < buflen → ∀ junk, ∃ c, parseExec env (s ++ 0#8 :: junk) = some c ∧
      (c.Inside ↔ (execWords s).countP takenAsArg + 1 ≤ maxargs ∧ (execWords s).countP takenAsAssign ≤ maxargs) := by
  refine ⟨readLine_iff, fun input b h => ?_, fun s hs hlen junk => ?_⟩
  · exact @readLoop_line input [] b (Nat.zero_le _) h
  · refine ⟨_, parseExec_words env hs hlen junk, ?_⟩
    obtain ⟨hargv, heargv⟩ := foldl_counts env (execWords s) ⟨false, s, [], [], [], [], []⟩
    unfold Execcmd.Inside
    rw [hargv, heargv, List.length_nil, Nat.zero_add, Nat.zero_add]

/-- A line with an argument. -/
theorem shell_bounds_arg :
    let s := "ls -l".toList.map chr
    (∃ l, l.length < buflen ∧ s ++ List.replicate (buflen - s.length) 0#8 = l ++ List.replicate (buflen - l.length) 0#8) ∧
      ∃ c, parseExec ⟨fun _ => none, 0#32⟩ (s ++ 0#8 :: []) = some c ∧
      (c.Inside ↔ (execWords s).countP takenAsArg + 1 ≤ maxargs ∧ (execWords s).countP takenAsAssign ≤ maxargs) :=
  ⟨(shell_bounds_iff ⟨fun _ => none, 0#32⟩).2.1 ("ls -l\n".toList.map chr) _ (by decide +kernel),
    (shell_bounds_iff ⟨fun _ => none, 0#32⟩).2.2 _ (by decide +kernel) (by decide +kernel) []⟩

/-- A line of 1024 letters goes outside of the buffer, and twenty words outside of `argv`. -/
theorem shell_overflows : readLine (List.replicate 1024 (chr 'a') ++ [chr '\n']) = none ∧
    (parseExec ⟨fun _ => none, 0#32⟩ (segment (List.replicate 20 [chr 'a']) ++ [0#8])).map (fun c => decide c.Inside) = some false := by
  constructor
  · have hlong : ¬ LineFits (List.replicate 1024 (chr 'a') ++ [chr '\n']) := by decide +kernel
    generalize List.replicate 1024 (chr 'a') ++ [chr '\n'] = input at *
    exact not_ne_iff.mp fun h => hlong ((readLine_iff input).mp h)
  · decide +kernel

end Shell
end Sisop
