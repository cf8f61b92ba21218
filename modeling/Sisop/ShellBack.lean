import Sisop.ShellPlaces

/-! The `&` of a command that is to run in the background. -/
namespace Sisop
namespace Shell

/-- The first `&` that is not immediately preceded by `>`. -/
def firstMark (prev : Option (BitVec 8)) : List (BitVec 8) → Option ℕ
  | [] => none
  | b :: s => if b = chr '&' ∧ prev ≠ some (chr '>') then some 0 else (firstMark (some b) s).map (· + 1)

/-- What `parse_cmd` should return. -/
def background (env : Env) (s : List (BitVec 8)) : Option (Option Cmd) :=
  if s = [] then some none
  else match firstMark none s with
    | none => (parseExec env (s ++ [0#8])).map fun c => some (.exec c)
    | some i => (parseExec env (s.take i ++ [0#8])).map fun c => some (.back c.scmd c)

section Marks

variable {s : List (BitVec 8)} {prev : Option (BitVec 8)} {i : ℕ}

theorem firstMark_none (h : chr '&' ∉ s) : firstMark prev s = none := by
  induction s generalizing prev with
  | nil => exact rfl
  | cons b s ih =>
    have hb : b ≠ chr '&' := fun heq => h (heq ▸ List.mem_cons_self)
    unfold firstMark
    rw [if_neg fun hm => hb hm.1, ih fun hmem => h (List.mem_cons_of_mem _ hmem)]
    rfl

/-- The first `&` of all marks the command, if it has no `>` in front of it. -/
theorem firstMark_first (h : blockContains s (chr '&') = some (i + 1)) (hgt : s[i]? ≠ some (chr '>')) :
    firstMark prev s = some (i + 1) := by
  induction s generalizing prev i with
  | nil => cases h
  | cons b s ih =>
    unfold blockContains at h
    by_cases hb : b = chr '&'
    · rw [if_pos hb] at h
      cases h
    · rw [if_neg hb] at h
      obtain ⟨k, hk, hki⟩ := Option.map_eq_some_iff.mp h
      obtain rfl := Nat.succ.inj hki
      unfold firstMark
      rw [if_neg fun hm => hb hm.1]
      cases k with
      | zero =>
        have hfirst := blockContains_zero.mp hk
        cases s with
        | nil => cases hfirst
        | cons d s =>
          unfold firstMark
          rw [if_pos ⟨Option.some.inj hfirst, hgt⟩]
          rfl
      | succ k =>
        rw [ih hk hgt]
        rfl

/-- In front of a `&` that marks the command there is no `>`. -/
theorem firstMark_prev (h : firstMark prev s = some (i + 1)) : s[i]? ≠ some (chr '>') := by
  induction s generalizing prev i with
  | nil => cases h
  | cons b s ih =>
    unfold firstMark at h
    by_cases hm : b = chr '&' ∧ prev ≠ some (chr '>')
    · rw [if_pos hm] at h
      cases h
    · rw [if_neg hm] at h
      obtain ⟨k, hk, hki⟩ := Option.map_eq_some_iff.mp h
      obtain rfl := Nat.succ.inj hki
      cases k with
      | zero =>
        cases s with
        | nil => cases hk
        | cons d s =>
          unfold firstMark at hk
          by_cases hd : d = chr '&' ∧ some b ≠ some (chr '>')
          · exact hd.2
          · rw [if_neg hd] at hk
            obtain ⟨j, -, hj⟩ := Option.map_eq_some_iff.mp hk
            cases hj
      | succ k => exact ih hk

/-- The text in front of the first mark has no mark. -/
theorem firstMark_take (h : firstMark prev s = some i) : firstMark prev (s.take i) = none := by
  induction s generalizing prev i with
  | nil => cases h
  | cons b s ih =>
    unfold firstMark at h
    by_cases hm : b = chr '&' ∧ prev ≠ some (chr '>')
    · rw [if_pos hm] at h
      obtain rfl := Option.some.inj h
      rfl
    · rw [if_neg hm] at h
      obtain ⟨k, hk, rfl⟩ := Option.map_eq_some_iff.mp h
      rw [List.take_succ_cons, firstMark, if_neg hm, ih hk]
      rfl

end Marks

section Parse

variable {env : Env} {s : List (BitVec 8)} {i : ℕ}

/-- What stands behind the string does not count. -/
theorem parseExec_junk (env : Env) (hs : 0#8 ∉ s) (hlen : s.length < buflen) (junk : List (BitVec 8)) :
    parseExec env (s ++ 0#8 :: junk) = parseExec env (s ++ [0#8]) := by
  rw [parseExec_words env hs hlen, parseExec_words env hs hlen]

theorem blockContains_lt {c : BitVec 8} (h : blockContains s c = some i) : i < s.length ∧ (s.takeWhile (· ≠ c)).length = i := by
  induction s generalizing i with
  | nil => cases h
  | cons b s ih =>
    unfold blockContains at h
    by_cases hb : b = c
    · rw [if_pos hb] at h
      obtain rfl := Option.some.inj h
      refine ⟨Nat.zero_lt_succ _, ?_⟩
      rw [List.takeWhile_cons_of_neg (by simpa using hb)]
      rfl
    · rw [if_neg hb] at h
      obtain ⟨k, hk, rfl⟩ := Option.map_eq_some_iff.mp h
      obtain ⟨hlt, hlen⟩ := ih hk
      refine ⟨Nat.succ_lt_succ hlt, ?_⟩
      rw [List.takeWhile_cons_of_pos (by simpa using hb), List.length_cons, hlen]

/-- `parse_back` cuts the command off at its first `&`. -/
theorem parseBack_eq (env : Env) (hs : 0#8 ∉ s) (hlen : s.length < buflen) (h : blockContains s (chr '&') = some i)
    (junk : List (BitVec 8)) :
    parseBack env (s ++ 0#8 :: junk) = (parseExec env (s.take i ++ [0#8])).map fun c => .back c.scmd c := by
  obtain ⟨hlt, htake⟩ := blockContains_lt h
  have hi : ((s ++ 0#8 :: junk).takeWhile (· ≠ chr '&')).length = i := by
    rw [List.takeWhile_append, if_neg (by omega), htake]
  have hstore : storeAt (s ++ 0#8 :: junk) i 0#8 = some (s.take i ++ 0#8 :: (s.drop (i + 1) ++ 0#8 :: junk)) := by
    unfold storeAt
    rw [if_pos (by rw [List.length_append]; omega), List.set_append_left _ _ hlt, List.set_eq_take_append_cons_drop, if_pos hlt,
      List.append_assoc, List.cons_append]
  have hpre : 0#8 ∉ s.take i := fun hmem => hs (List.mem_of_mem_take hmem)
  have hprelen : (s.take i).length < buflen := (List.length_take_le' _ _).trans_lt hlen
  unfold parseBack
  simp only [hi, hstore, Option.bind_eq_bind, Option.bind_some, parseExec_junk env hpre hprelen]
  exact Option.map_eq_bind.symm

/-- `parse_cmd` by the first `&` of the command. -/
theorem parseCmd_first (env : Env) (before : Option (BitVec 8)) (hs : 0#8 ∉ s) (hne : s ≠ []) (hlen : s.length < buflen)
    (junk : List (BitVec 8)) : parseCmd env before (s ++ 0#8 :: junk) =
      match blockContains s (chr '&') with
      | none => (parseExec env (s ++ [0#8])).map fun c => some (.exec c)
      | some 0 => before.bind fun prev =>
        if prev ≠ chr '>' then (parseExec env [0#8]).map fun c => some (.back c.scmd c)
        else (parseExec env (s ++ [0#8])).map fun c => some (.exec c)
      | some (i + 1) =>
        if s[i]? ≠ some (chr '>') then (parseExec env (s.take (i + 1) ++ [0#8])).map fun c => some (.back c.scmd c)
        else (parseExec env (s ++ [0#8])).map fun c => some (.exec c) := by
  have hlen0 : ¬ s.length = 0 := fun h => hne (List.length_eq_zero_iff.mp h)
  unfold parseCmd
  rw [cstr_append hs, Option.bind_eq_bind, Option.bind_some, if_neg hlen0, parseExec_junk env hs hlen]
  cases hamp : blockContains s (chr '&') with
  | none => exact rfl
  | some i =>
    have hback : (parseBack env (s ++ 0#8 :: junk)).map some = (parseExec env (s.take i ++ [0#8])).map fun c => some (.back c.scmd c) := by
      rw [parseBack_eq env hs hlen hamp, Option.map_map]
      rfl
    simp only [hback]
    cases i with
    | zero => exact rfl
    | succ i =>
      have hi : i < s.length := (Nat.lt_succ_self i).trans (blockContains_lt hamp).1
      have hget : (s ++ 0#8 :: junk)[i]? = s[i]? := List.getElem?_append_left hi
      simp only [Nat.succ_ne_zero, if_false, Nat.add_sub_cancel, hget, List.getElem?_eq_getElem hi, Ne, Option.some.injEq]
      exact rfl

theorem map_exec_ne_back (x y : Option Execcmd) (hx : x ≠ none) :
    (x.map fun c => some (Cmd.exec c)) ≠ y.map fun c => some (Cmd.back c.scmd c) := by
  obtain ⟨c, rfl⟩ := Option.ne_none_iff_exists'.mp hx
  cases y <;> simp

theorem parseExec_ne_none (env : Env) (hs : 0#8 ∉ s) (hlen : s.length < buflen) : parseExec env (s ++ [0#8]) ≠ none := by
  rw [parseExec_words env hs hlen]
  nofun

end Parse

/-- `parse_cmd` decides by the first `&` alone. It is right, whatever stands in front of the command, exactly if the command does
not start with `&` and, where some `&` has no `>` in front of it, the first one has none. -/
theorem parseCmd_back_iff (env : Env) {s : List (BitVec 8)} (hs : 0#8 ∉ s) (hlen : s.length < buflen) :
    (∀ i, firstMark none s = some i → firstMark none (s.take i) = none) ∧
    ((∀ before junk, parseCmd env before (s ++ 0#8 :: junk) = background env s) ↔
      s[0]? ≠ some (chr '&') ∧ (firstMark none s ≠ none → blockContains s (chr '&') = firstMark none s)) := by
  refine ⟨fun i h => firstMark_take h, ?_⟩
  by_cases hne : s = []
  · subst hne
    exact iff_of_true (fun _ _ => rfl) ⟨nofun, fun h => absurd rfl h⟩
  have hback : background env s = match firstMark none s with
      | none => (parseExec env (s ++ [0#8])).map fun c => some (.exec c)
      | some i => (parseExec env (s.take i ++ [0#8])).map fun c => some (.back c.scmd c) := if_neg hne
  have hexec := parseExec_ne_none env hs hlen
  cases hamp : blockContains s (chr '&') with
  | none =>
    have hnot := blockContains_none.mp hamp
    have hmark := @firstMark_none s none hnot
    refine iff_of_true (fun before junk => ?_) ⟨fun h => hnot (List.mem_of_getElem? h), fun h => absurd hmark h⟩
    rw [parseCmd_first env before hs hne hlen, hback, hmark, hamp]
  | some i =>
    cases i with
    | zero =>
      -- The character in front of the command is read.
      refine iff_of_false (fun h => ?_) fun h => h.1 (blockContains_zero.mp hamp)
      have hnone := h none []
      rw [parseCmd_first env none hs hne hlen, hamp, hback] at hnone
      cases hmark : firstMark none s with
      | none =>
        rw [hmark] at hnone
        exact hexec (Option.map_eq_none_iff.mp hnone.symm)
      | some j =>
        rw [hmark] at hnone
        have htake : (s.take j).length < buflen := (List.length_take_le' _ _).trans_lt hlen
        exact parseExec_ne_none env (fun hmem => hs (List.mem_of_mem_take hmem)) htake (Option.map_eq_none_iff.mp hnone.symm)
    | succ i =>
      have hfirst : s[0]? ≠ some (chr '&') := by
        rw [Ne, ← blockContains_zero, hamp]
        nofun
      rw [and_iff_right hfirst]
      by_cases hgt : s[i]? = some (chr '>')
      · have hiff : (∀ before junk, parseCmd env before (s ++ 0#8 :: junk) = background env s) ↔ firstMark none s = none := by
          constructor
          · intro h
            have hcmd := h none []
            rw [parseCmd_first env none hs hne hlen, hamp, hback] at hcmd
            simp only [hgt, ne_eq, not_true_eq_false, if_false] at hcmd
            cases hmark : firstMark none s with
            | none => exact rfl
            | some j =>
              rw [hmark] at hcmd
              exact absurd hcmd (map_exec_ne_back _ _ hexec)
          · intro hmark before junk
            rw [parseCmd_first env before hs hne hlen, hamp, hback, hmark]
            simp only [hgt, ne_eq, not_true_eq_false, if_false]
        rw [hiff]
        constructor
        · exact fun hmark h => absurd hmark h
        · intro h
          by_contra hmark
          exact firstMark_prev (h hmark).symm hgt
      · have hmark := @firstMark_first s none i hamp hgt
        refine iff_of_true (fun before junk => ?_) fun _ => hmark.symm
        rw [parseCmd_first env before hs hne hlen, hamp, hback, hmark]
        exact if_pos hgt

/-- `cmd 2>&1` is run in the foreground, and `cmd -o &` in the background. -/
theorem parseCmd_back_redir :
    let fore := "cmd 2>&1".toList.map chr
    let back := "cmd -o &".toList.map chr
    (∀ before junk, parseCmd ⟨fun _ => none, 0#32⟩ before (fore ++ 0#8 :: junk) = background ⟨fun _ => none, 0#32⟩ fore) ∧
    (∀ before junk, parseCmd ⟨fun _ => none, 0#32⟩ before (back ++ 0#8 :: junk) = background ⟨fun _ => none, 0#32⟩ back) ∧
    (∃ c, background ⟨fun _ => none, 0#32⟩ fore = some (some (.exec c)) ∧ c.argv = ["cmd".toList.map chr]) ∧
    ∃ c, background ⟨fun _ => none, 0#32⟩ back = some (some (.back c.scmd c)) ∧
      c.argv = ["cmd".toList.map chr, "-o".toList.map chr] := by
  refine ⟨?_, ?_, ?_, ?_⟩
  · refine (parseCmd_back_iff ⟨fun _ => none, 0#32⟩ ?_ ?_).2.mpr ⟨?_, ?_⟩ <;> decide +kernel
  · refine (parseCmd_back_iff ⟨fun _ => none, 0#32⟩ ?_ ?_).2.mpr ⟨?_, ?_⟩ <;> decide +kernel
  · exact ⟨⟨true, "cmd 2>&1".toList.map chr, ["cmd".toList.map chr], [], [], [], "&1".toList.map chr⟩, by decide +kernel, rfl⟩
  · exact ⟨⟨false, "cmd -o ".toList.map chr, ["cmd".toList.map chr, "-o".toList.map chr], [], [], [], []⟩, by decide +kernel, rfl⟩

/-- `cmd 2>&1 &` is not run in the background. -/
theorem parseCmd_back_both :
    (∃ c, parseCmd ⟨fun _ => none, 0#32⟩ none (cstring "cmd 2>&1 &") = some (some (.exec c)) ∧
      c.argv = ["cmd".toList.map chr, "&".toList.map chr]) ∧
    ∃ c, background ⟨fun _ => none, 0#32⟩ ("cmd 2>&1 &".toList.map chr) = some (some (.back c.scmd c)) ∧
      c.argv = ["cmd".toList.map chr] := by
  constructor
  · exact ⟨⟨true, "cmd 2>&1 &".toList.map chr, ["cmd".toList.map chr, "&".toList.map chr], [], [], [], "&1".toList.map chr⟩,
      by decide +kernel, rfl⟩
  · exact ⟨⟨true, "cmd 2>&1 ".toList.map chr, ["cmd".toList.map chr], [], [], [], "&1".toList.map chr⟩, by decide +kernel, rfl⟩

end Shell
end Sisop
