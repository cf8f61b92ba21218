import Mathlib.Data.List.Forall2
import Sisop.ShellBack

/-! The commands of a line, between its `|`. -/
namespace Sisop
namespace Shell

/-- A text without its leading spaces. -/
def strip (s : List (BitVec 8)) : List (BitVec 8) := s.dropWhile (· = chr ' ')

/-- What `parse_cmd` makes of a segment without its leading spaces. -/
def entry (env : Env) (w : List (BitVec 8)) : Option (Option Cmd) := parseCmd env (some (chr ' ')) (strip w ++ [0#8])

/-- What `parse_line` is to do with a line `s` at the start of its buffer. -/
def PipeParsed (env : Env) (s junk : List (BitVec 8)) : Prop :=
  ∃ l, parseLine env (s ++ 0#8 :: junk) = some l ∧ l ≠ .cmd none ∧
    (1 ≤ countC s (chr '|') → (∀ w ∈ s.splitOn (chr '|'), w ≠ []) → ∃ cs : List Cmd, l = .pipe (cs.map some ++ [none]) ∧
      cs.length = countC s (chr '|') + 1 ∧ List.Forall₂ (fun w c => entry env w = some (some c)) (s.splitOn (chr '|')) cs)

/-- The lines that `parse_line` is right about. -/
structure Pipeable (s junk : List (BitVec 8)) : Prop where
  amp : s[0]? ≠ some (chr '&')
  behind : strip junk ≠ []
  first : ∀ w ws, s.splitOn (chr '|') = [] :: w :: ws → strip w ≠ []
  words : 1 ≤ countC s (chr '|') → (∀ w ∈ s.splitOn (chr '|'), w ≠ []) →
    s[0]? ≠ some (chr ' ') ∧ ∀ w ∈ s.splitOn (chr '|'), strip w ≠ []

section Segments

variable {env : Env} {s w r junk : List (BitVec 8)} {before : Option (BitVec 8)} {b : BitVec 8}

theorem strip_space (r : List (BitVec 8)) : strip (chr ' ' :: r) = strip r := List.dropWhile_cons_of_pos (by decide)

theorem strip_word (hb : b ≠ chr ' ') (r : List (BitVec 8)) : strip (b :: r) = b :: r :=
  List.dropWhile_cons_of_neg (by simpa using hb)

/-- The spaces in front of a line are those in front of its first segment. -/
theorem splitOn_strip (r : List (BitVec 8)) : (strip r).splitOn (chr '|') = (r.splitOn (chr '|')).modifyHead strip := by
  induction r with
  | nil => exact rfl
  | cons b r ih =>
    obtain ⟨w, ws, hws⟩ := List.exists_cons_of_ne_nil (List.splitOn_ne_nil (chr '|') r)
    rw [List.splitOn_cons_eq_if_modifyHead, hws]
    by_cases hb : b = chr ' '
    · subst hb
      rw [strip_space, ih, hws, if_neg (by decide), List.modifyHead_cons, List.modifyHead_cons, List.modifyHead_cons, strip_space]
    · rw [strip_word hb, List.splitOn_cons_eq_if_modifyHead, hws]
      split
      next => exact rfl
      next => rw [List.modifyHead_cons, List.modifyHead_cons, strip_word hb]

/-- A line either has no `|`, or a first segment. -/
theorem segment_cases (s : List (BitVec 8)) : chr '|' ∉ s ∨ ∃ w r, s = w ++ chr '|' :: r ∧ chr '|' ∉ w := by
  induction s with
  | nil => exact .inl nofun
  | cons b s ih =>
    by_cases hb : chr '|' = b
    · exact .inr ⟨[], s, by rw [hb]; rfl, nofun⟩
    rcases ih with hs | ⟨w, r, hs, hw⟩
    · exact .inl (List.not_mem_cons_of_ne_of_not_mem hb hs)
    · exact .inr ⟨b :: w, r, by rw [hs]; rfl, List.not_mem_cons_of_ne_of_not_mem hb hw⟩

theorem countC_append (hw : chr '|' ∉ w) (r : List (BitVec 8)) : countC (w ++ chr '|' :: r) (chr '|') = countC r (chr '|') + 1 := by
  have hzero : w.countP (· = chr '|') = 0 := by
    apply List.countP_eq_zero.mpr
    intro b hb heq
    exact hw (of_decide_eq_true heq ▸ hb)
  unfold countC
  rw [List.countP_append, hzero, List.countP_cons_of_pos (by decide), Nat.zero_add]

theorem countC_strip (r : List (BitVec 8)) : countC (strip r) (chr '|') = countC r (chr '|') := by
  induction r with
  | nil => exact rfl
  | cons b r ih =>
    by_cases hb : b = chr ' '
    · subst hb
      rw [strip_space, ih]
      exact (List.countP_cons_of_neg (by decide)).symm
    · rw [strip_word hb]

theorem splitOn_sublist (hw : w ∈ s.splitOn (chr '|')) : w.Sublist s := by
  induction s generalizing w with
  | nil =>
    obtain rfl := List.mem_singleton.mp hw
    exact List.Sublist.slnil
  | cons b s ih =>
    obtain ⟨v, vs, hvs⟩ := List.exists_cons_of_ne_nil (List.splitOn_ne_nil (chr '|') s)
    rw [List.splitOn_cons_eq_if_modifyHead] at hw
    split at hw
    next =>
      rcases List.mem_cons.mp hw with rfl | hmem
      · exact List.nil_sublist _
      · exact (ih hmem).cons b
    next =>
      rw [hvs, List.modifyHead_cons] at hw
      rcases List.mem_cons.mp hw with rfl | hmem
      · exact (ih (hvs ▸ List.mem_cons_self)).cons_cons b
      · exact (ih (hvs ▸ List.mem_cons_of_mem _ hmem)).cons b

theorem strip_sublist (s : List (BitVec 8)) : (strip s).Sublist s := List.dropWhile_sublist _

theorem splitOn_length (s : List (BitVec 8)) : (s.splitOn (chr '|')).length = countC s (chr '|') + 1 := by
  induction s with
  | nil => exact rfl
  | cons b s ih =>
    rw [List.splitOn_cons_eq_if_modifyHead]
    unfold countC at ih ⊢
    rw [List.countP_cons]
    by_cases hb : b = chr '|'
    · rw [if_pos (beq_iff_eq.mpr hb), if_pos (decide_eq_true hb), List.length_cons, ih]
    · rw [if_neg fun h => hb (beq_iff_eq.mp h), if_neg fun h => hb (of_decide_eq_true h), List.length_modifyHead, ih]

theorem strip_append (r junk : List (BitVec 8)) : strip (r ++ 0#8 :: junk) = strip r ++ 0#8 :: junk := by
  induction r with
  | nil => exact strip_word (by decide) junk
  | cons b r ih =>
    by_cases hb : b = chr ' '
    · subst hb
      rw [List.cons_append, strip_space, strip_space, ih]
    · rw [List.cons_append, strip_word hb, strip_word hb, List.cons_append]

/-- `split_line` cuts a line at its first `|` or at its end, and goes on over the spaces behind. -/
theorem splitLine_at (hw : 0#8 ∉ w) (hbar : chr '|' ∉ w) (hb : ¬ (b ≠ chr '|' ∧ b ≠ 0#8)) (r : List (BitVec 8)) :
    splitLine (w ++ b :: r) (chr '|') = if strip r = [] then none else some (w ++ 0#8 :: r, strip r) := by
  have hi : ((w ++ b :: r).takeWhile fun c => c ≠ chr '|' ∧ c ≠ 0#8).length = w.length := by
    rw [List.takeWhile_append_of_pos]
    · rw [List.takeWhile_cons_of_neg (by simpa using hb), List.append_nil]
    · intro b hb
      exact decide_eq_true ⟨fun heq => hbar (heq ▸ hb), fun heq => hw (heq ▸ hb)⟩
  have hdrop : (w ++ b :: r).drop (w.length + 1) = r := by
    rw [List.drop_append, List.drop_eq_nil_of_le (Nat.le_succ _), Nat.add_sub_cancel_left]
    rfl
  have hset : (w ++ b :: r).set w.length 0#8 = w ++ 0#8 :: r := by
    rw [List.set_append_right _ _ le_rfl, Nat.sub_self]
    rfl
  unfold splitLine
  simp only [hi, hdrop, hset]
  rw [if_pos (by rw [List.length_append, List.length_cons]; omega)]
  unfold strip
  cases r.dropWhile (· = chr ' ') with
  | nil => exact rfl
  | cons => exact rfl

theorem splitLine_last (hs : 0#8 ∉ s) (hbar : chr '|' ∉ s) (junk : List (BitVec 8)) : splitLine (s ++ 0#8 :: junk) (chr '|') =
    if strip junk = [] then none else some (s ++ 0#8 :: junk, strip junk) :=
  splitLine_at hs hbar (by decide) junk

theorem splitLine_first (hw : 0#8 ∉ w) (hbar : chr '|' ∉ w) (r junk : List (BitVec 8)) :
    splitLine (w ++ chr '|' :: (r ++ 0#8 :: junk)) (chr '|') =
      some (w ++ 0#8 :: (r ++ 0#8 :: junk), strip r ++ 0#8 :: junk) := by
  rw [splitLine_at hw hbar (by decide), strip_append, if_neg (by simp)]

/-- In front of what `split_line` returns is the end of the segment it has cut off, or a space. -/
theorem splitLine_before (w r junk : List (BitVec 8)) :
    let left := w ++ 0#8 :: (r ++ 0#8 :: junk)
    ∃ p, left[left.length - (strip r ++ 0#8 :: junk).length - 1]? = some p ∧ p ≠ chr '>' := by
  intro left
  have hr : r.takeWhile (· = chr ' ') ++ strip r = r := List.takeWhile_append_dropWhile
  have hleft : left = (w ++ 0#8 :: r.takeWhile (· = chr ' ')) ++ (strip r ++ 0#8 :: junk) := by
    rw [List.append_assoc, List.cons_append, ← List.append_assoc (r.takeWhile _), hr]
  have hlen : left.length - (strip r ++ 0#8 :: junk).length = (w ++ 0#8 :: r.takeWhile (· = chr ' ')).length := by
    rw [hleft, List.length_append, Nat.add_sub_cancel]
  have hne : 0#8 :: r.takeWhile (· = chr ' ') ≠ [] := nofun
  refine ⟨(0#8 :: r.takeWhile (· = chr ' ')).getLast hne, ?_, ?_⟩
  · rw [hlen, hleft, List.getElem?_append_left (by rw [List.length_append, List.length_cons]; omega), ← List.getLast?_eq_getElem?,
      List.getLast?_append, List.getLast?_eq_some_getLast hne]
    rfl
  · intro hgt
    rcases List.mem_cons.mp (hgt ▸ List.getLast_mem hne) with h | h
    · exact absurd h (by decide)
    · have hsp := List.mem_takeWhile_imp h
      exact absurd hsp (by decide)

end Segments

section Text

variable {env : Env} {s : List (BitVec 8)} {before : Option (BitVec 8)} {c : Execcmd} {p : BitVec 8}

theorem scmd_step (env : Env) (c : Execcmd) (w : List (BitVec 8)) : (execWord env c w).scmd = c.scmd := by
  by_cases hredir : chr '>' ∈ w ∨ chr '<' ∈ w
  · exact (execWord_redirected env c hredir).scmd
  · rw [not_or] at hredir
    rw [execWord_kept env c hredir.1 hredir.2]
    split
    next => exact rfl
    next => exact rfl

theorem scmd_run (env : Env) (ws : List (List (BitVec 8))) : (ws.foldl (execWord env) c).scmd = c.scmd := by
  induction ws generalizing c with
  | nil => exact rfl
  | cons w ws ih => exact ih.trans (scmd_step env c w)

/-- A command that is executed has its own text. -/
theorem parseExec_scmd (env : Env) (hs : 0#8 ∉ s) (hlen : s.length < buflen) :
    ∃ c, parseExec env (s ++ [0#8]) = some c ∧ c.scmd = s :=
  ⟨_, parseExec_words env hs hlen [], scmd_run env _⟩

/-- `scmd` of the command. -/
def Cmd.scmd : Cmd → List (BitVec 8)
  | exec c => c.scmd
  | back scmd _ => scmd

theorem parseCmd_nil (env : Env) (before : Option (BitVec 8)) (junk : List (BitVec 8)) :
    parseCmd env before (0#8 :: junk) = some none := by
  unfold parseCmd
  have h := cstr_append (s := []) nofun junk
  rw [List.nil_append] at h
  rw [h]
  rfl

theorem parseCmd_junk (env : Env) (before : Option (BitVec 8)) (hs : 0#8 ∉ s) (hlen : s.length < buflen) (junk : List (BitVec 8)) :
    parseCmd env before (s ++ 0#8 :: junk) = parseCmd env before (s ++ [0#8]) := by
  by_cases hne : s = []
  · rw [hne, List.nil_append, List.nil_append, parseCmd_nil, parseCmd_nil]
  · rw [parseCmd_first env before hs hne hlen, parseCmd_first env before hs hne hlen]

/-- The character in front of a command only counts if it is a `>`. -/
theorem parseCmd_before (env : Env) (hp : p ≠ chr '>') (hs : 0#8 ∉ s) (hlen : s.length < buflen) :
    parseCmd env (some p) (s ++ [0#8]) = parseCmd env (some (chr ' ')) (s ++ [0#8]) := by
  by_cases hne : s = []
  · rw [hne, List.nil_append, parseCmd_nil, parseCmd_nil]
  · rw [parseCmd_first env _ hs hne hlen, parseCmd_first env _ hs hne hlen]
    split
    · exact rfl
    · rw [Option.bind_some, Option.bind_some, if_pos hp, if_pos (by decide)]
    · exact rfl

/-- A command that does not start with `&` does not depend on the character in front of it. -/
theorem parseCmd_inside (env : Env) (before : Option (BitVec 8)) (hamp : s[0]? ≠ some (chr '&')) (hs : 0#8 ∉ s)
    (hlen : s.length < buflen) : parseCmd env before (s ++ [0#8]) = parseCmd env (some (chr ' ')) (s ++ [0#8]) := by
  by_cases hne : s = []
  · rw [hne, List.nil_append, parseCmd_nil, parseCmd_nil]
  · rw [parseCmd_first env _ hs hne hlen, parseCmd_first env _ hs hne hlen]
    split
    next => exact rfl
    next h => exact absurd (blockContains_zero.mp h) hamp
    next => exact rfl

theorem parseCmd_outside (env : Env) (hamp : s[0]? = some (chr '&')) (hs : 0#8 ∉ s) (hlen : s.length < buflen) :
    parseCmd env none (s ++ [0#8]) = none := by
  have hne : s ≠ [] := fun h => by cases h ▸ hamp
  rw [parseCmd_first env _ hs hne hlen, blockContains_zero.mpr hamp]
  rfl

/-- The text of a command is the front of its segment, up to its `&`. -/
theorem parseCmd_scmd (env : Env) (before : Option (BitVec 8)) (hne : s ≠ []) (hbefore : before = none → s[0]? ≠ some (chr '&')) (hs : 0#8 ∉ s)
    (hlen : s.length < buflen) : ∃ c, parseCmd env before (s ++ [0#8]) = some (some c) ∧
      ∃ i, c.scmd = s.take i ∧ (i = 0 → s[0]? = some (chr '&')) := by
  have hexec : ∃ c, (parseExec env (s ++ [0#8])).map (fun c => some (Cmd.exec c)) = some (some c) ∧
      ∃ i, c.scmd = s.take i ∧ (i = 0 → s[0]? = some (chr '&')) := by
    obtain ⟨c, hc, hscmd⟩ := parseExec_scmd env hs hlen
    refine ⟨.exec c, by rw [hc]; rfl, s.length, hscmd.trans List.take_length.symm, fun h => ?_⟩
    exact absurd (List.length_eq_zero_iff.mp h) hne
  have hback (i : ℕ) (hi : i = 0 → s[0]? = some (chr '&')) :
      ∃ c, (parseExec env (s.take i ++ [0#8])).map (fun c => some (Cmd.back c.scmd c)) = some (some c) ∧
      ∃ i, c.scmd = s.take i ∧ (i = 0 → s[0]? = some (chr '&')) := by
    obtain ⟨c, hc, hscmd⟩ := parseExec_scmd env (fun h => hs (List.mem_of_mem_take h)) ((List.length_take_le' i s).trans_lt hlen)
    exact ⟨.back c.scmd c, by rw [hc]; rfl, i, hscmd, hi⟩
  rw [parseCmd_first env before hs hne hlen]
  cases hamp : blockContains s (chr '&') with
  | none => exact hexec
  | some i =>
    cases i with
    | zero =>
      have hfirst := blockContains_zero.mp hamp
      obtain ⟨p, rfl⟩ := Option.ne_none_iff_exists'.mp fun h => hbefore h hfirst
      dsimp only [Option.bind_some]
      split
      next => exact hback 0 fun _ => hfirst
      next => exact hexec
    | succ i =>
      dsimp only
      split
      next => exact hback (i + 1) nofun
      next => exact hexec

end Text

section Pipes

variable {env : Env} {s w : List (BitVec 8)} {before : Option (BitVec 8)} {ws : List (List (BitVec 8))}
  {cs : List (Option Cmd)}

theorem entry_nil (env : Env) (h : strip w = []) : entry env w = some none := by
  unfold entry
  rw [h, List.nil_append, parseCmd_nil]

theorem entry_word (env : Env) (hne : strip w ≠ []) (hw : 0#8 ∉ w) (hlen : w.length < buflen) :
    ∃ c, entry env w = some (some c) ∧ ∃ i, c.scmd = (strip w).take i := by
  obtain ⟨c, hc, i, hi, -⟩ := parseCmd_scmd env (some (chr ' ')) hne nofun (fun hmem => hw ((strip_sublist w).subset hmem))
    ((strip_sublist w).length_le.trans_lt hlen)
  exact ⟨c, hc, i, hi⟩

/-- A segment has no entry in the array exactly if it is blank. -/
theorem entry_cases (env : Env) (hw : 0#8 ∉ w) (hlen : w.length < buflen) :
    ∃ c, entry env w = some c ∧ (c = none ↔ strip w = []) := by
  by_cases hne : strip w = []
  · exact ⟨none, entry_nil env hne, iff_of_true rfl hne⟩
  · obtain ⟨c, hc, -⟩ := entry_word env hne hw hlen
    exact ⟨some c, hc, iff_of_false nofun hne⟩

/-- What `parse_line` stores for a line in its buffer, with `cs` for the segments behind the first one. -/
theorem lineLoop_segments (env : Env) (before : Option (BitVec 8)) (junk : List (BitVec 8)) (hs : 0#8 ∉ s) (hlen : s.length < buflen)
    (hsplit : s.splitOn (chr '|') = w :: ws) :
    ∃ cs, List.Forall₂ (fun w c => entry env w = some c) ws cs ∧
      lineLoop env (countC s (chr '|') + 1) before (s ++ 0#8 :: junk) =
        if strip junk = [] then none else (parseCmd env before (w ++ [0#8])).map fun c => c :: cs := by
  induction ws generalizing s w before with
  | nil =>
    rcases segment_cases s with hbar | ⟨w', r, rfl, hbar⟩
    · rw [List.splitOn_eq_singleton hbar] at hsplit
      obtain rfl := (List.cons.inj hsplit).1
      have hcount : countC s (chr '|') = 0 := List.countP_eq_zero.mpr fun b hb heq => hbar (of_decide_eq_true heq ▸ hb)
      refine ⟨[], .nil, ?_⟩
      rw [hcount, lineLoop, splitLine_last hs hbar]
      by_cases hjunk : strip junk = []
      · rw [if_pos hjunk, if_pos hjunk]
        exact rfl
      · rw [if_neg hjunk, if_neg hjunk, Option.bind_eq_bind, Option.bind_some]
        dsimp only
        rw [parseCmd_junk env before hs hlen]
        exact (Option.map_eq_bind).symm
    · rw [List.splitOn_append_cons_self_of_not_mem hbar] at hsplit
      exact absurd (List.cons.inj hsplit).2 (List.splitOn_ne_nil _ r)
  | cons w₁ ws ih =>
    rcases segment_cases s with hbar | ⟨w', r, rfl, hbar⟩
    · rw [List.splitOn_eq_singleton hbar] at hsplit
      cases (List.cons.inj hsplit).2
    · rw [List.splitOn_append_cons_self_of_not_mem hbar] at hsplit
      obtain ⟨rfl, hr⟩ := List.cons.inj hsplit
      have hw : 0#8 ∉ w' := fun h => hs (List.mem_append_left _ h)
      have hrest : 0#8 ∉ strip r := fun h =>
        hs (List.mem_append_right _ (List.mem_cons_of_mem _ ((strip_sublist r).subset h)))
      have hstrip := (strip_sublist r).length_le
      rw [List.length_append, List.length_cons] at hlen
      have hsplit' : (strip r).splitOn (chr '|') = strip w₁ :: ws := by
        rw [splitOn_strip, hr]
        rfl
      obtain ⟨p, hp, hgt⟩ := splitLine_before w' r junk
      obtain ⟨cs, hcs, hloop⟩ := ih (some p) hrest (by omega) hsplit'
      have hmem := splitOn_sublist (hr ▸ List.mem_cons_self : w₁ ∈ r.splitOn (chr '|'))
      have hw₁ : 0#8 ∉ w₁ := fun h => hs (List.mem_append_right _ (List.mem_cons_of_mem _ (hmem.subset h)))
      have hw₁len : w₁.length < buflen := hmem.length_le.trans_lt (by omega)
      obtain ⟨c, hc, -⟩ := entry_cases env hw₁ hw₁len
      have hparse : parseCmd env (some p) (strip w₁ ++ [0#8]) = some c :=
        (parseCmd_before env hgt (fun h => hw₁ ((strip_sublist w₁).subset h)) ((strip_sublist w₁).length_le.trans_lt hw₁len)).trans hc
      refine ⟨c :: cs, .cons hc hcs, ?_⟩
      rw [hparse, countC_strip] at hloop
      rw [countC_append hbar, List.append_assoc, List.cons_append, lineLoop, splitLine_first hw hbar, Option.bind_eq_bind, Option.bind_some]
      dsimp only
      rw [parseCmd_junk env before hw (by omega), hp, hloop]
      by_cases hjunk : strip junk = []
      · rw [if_pos hjunk, if_pos hjunk]
        exact Option.bind_fun_none _
      · rw [if_neg hjunk, if_neg hjunk]
        exact Option.map_eq_bind.symm

/-- The first segment starts where the line does. -/
theorem first_char (hsplit : s.splitOn (chr '|') = w :: ws) : w[0]? = s[0]? ∨ w = [] ∧ s[0]? = some (chr '|') := by
  rcases segment_cases s with hbar | ⟨w', r, rfl, hbar⟩
  · rw [List.splitOn_eq_singleton hbar] at hsplit
    rw [(List.cons.inj hsplit).1]
    exact .inl rfl
  · rw [List.splitOn_append_cons_self_of_not_mem hbar] at hsplit
    rw [← (List.cons.inj hsplit).1]
    cases w' with
    | nil => exact .inr ⟨rfl, rfl⟩
    | cons => exact .inl rfl

theorem strip_head (w : List (BitVec 8)) : (strip w)[0]? ≠ some (chr ' ') := by
  intro h
  obtain ⟨hlt, hget⟩ := List.getElem?_eq_some_iff.mp h
  have hnot := List.dropWhile_get_zero_not (fun b => decide (b = chr ' ')) w hlt
  exact hnot (decide_eq_true hget)

theorem strip_eq_self (h : w[0]? ≠ some (chr ' ')) : strip w = w := by
  cases w with
  | nil => exact rfl
  | cons b w => exact strip_word (fun hb => h (congrArg some hb)) w

/-- The first entry is that of the first segment without its leading spaces exactly if there are none. -/
theorem first_entry (env : Env) (hne : w ≠ []) (hamp : w[0]? ≠ some (chr '&')) (hw : 0#8 ∉ w) (hlen : w.length < buflen) :
    parseCmd env none (w ++ [0#8]) = entry env w ↔ w[0]? ≠ some (chr ' ') := by
  constructor
  · intro h hsp
    obtain ⟨c, hc, i, hi, hzero⟩ := parseCmd_scmd env none hne (fun _ => hamp) hw hlen
    rw [hc] at h
    have hblank : strip w ≠ [] := fun hnil => by cases h.trans (entry_nil env hnil)
    obtain ⟨c', hc', j, hj⟩ := entry_word env hblank hw hlen
    obtain rfl := Option.some.inj (Option.some.inj (h.trans hc'))
    have hpos : 0 < i := Nat.pos_of_ne_zero fun h0 => hamp (hzero h0)
    -- The text of the command starts with a space, the text of the entry does not.
    have htext : ((strip w).take j)[0]? = some (chr ' ') := by
      rw [← hj, hi, List.getElem?_take_of_lt hpos, hsp]
    rw [List.getElem?_take] at htext
    split at htext
    next => exact strip_head w htext
    next => cases htext
  · intro h
    unfold entry
    rw [strip_eq_self h]
    exact parseCmd_inside env none hamp hw hlen

theorem entries_some (hcs : List.Forall₂ (fun w c => entry env w = some c) ws cs)
    (hws : ∀ w ∈ ws, 0#8 ∉ w ∧ w.length < buflen ∧ strip w ≠ []) :
    ∃ cs', cs = cs'.map some ∧ List.Forall₂ (fun w c => entry env w = some (some c)) ws cs' := by
  induction hcs with
  | nil => exact ⟨[], rfl, .nil⟩
  | @cons w c ws cs hc _ ih =>
    obtain ⟨hw, hlen, hne⟩ := hws w List.mem_cons_self
    obtain ⟨d, hd, -⟩ := entry_word env hne hw hlen
    obtain rfl := Option.some.inj (hc.symm.trans hd)
    obtain ⟨cs', rfl, hall⟩ := ih fun w hmem => hws w (List.mem_cons_of_mem _ hmem)
    exact ⟨d :: cs', rfl, .cons hd hall⟩

theorem entries_word {ds : List Cmd} (hds : List.Forall₂ (fun w c => entry env w = some (some c)) ws ds) :
    ∀ w ∈ ws, strip w ≠ [] := by
  induction hds with
  | nil => nofun
  | @cons w c ws ds hc _ ih =>
    intro v hv hnil
    rcases List.mem_cons.mp hv with rfl | hmem
    · cases hc.symm.trans (entry_nil env hnil)
    · exact ih v hmem hnil

/-- What `parse_line` returns, by the first two entries. -/
theorem parseLine_entries (env : Env) (hs : 0#8 ∉ s) (hlen : s.length < buflen) (junk : List (BitVec 8)) (hjunk : strip junk ≠ [])
    (hsplit : s.splitOn (chr '|') = w :: ws) : ∃ cs, List.Forall₂ (fun w c => entry env w = some c) ws cs ∧
      parseLine env (s ++ 0#8 :: junk) = (parseCmd env none (w ++ [0#8])).bind fun c => pipeCmdCreate (c :: cs ++ [none]) := by
  obtain ⟨cs, hcs, hloop⟩ := lineLoop_segments env none junk hs hlen hsplit
  refine ⟨cs, hcs, ?_⟩
  unfold parseLine
  rw [cstr_append hs, Option.bind_eq_bind, Option.bind_some, hloop, if_neg hjunk, Option.bind_eq_bind, Option.bind_map]
  rfl

theorem parseLine_behind (env : Env) {junk : List (BitVec 8)} (hs : 0#8 ∉ s) (hlen : s.length < buflen)
    (hsplit : s.splitOn (chr '|') = w :: ws) (hjunk : strip junk = []) : parseLine env (s ++ 0#8 :: junk) = none := by
  obtain ⟨cs, -, hloop⟩ := lineLoop_segments env none junk hs hlen hsplit
  unfold parseLine
  rw [cstr_append hs, Option.bind_eq_bind, Option.bind_some, hloop, if_pos hjunk]
  rfl

/-- The entries of a pipe are what they are to be exactly if no segment is blank and the line does not start with a space. -/
theorem pipe_entries (env : Env) {c : Cmd} (hs : 0#8 ∉ s) (hlen : s.length < buflen) (hsplit : s.splitOn (chr '|') = w :: ws)
    (hne : w ≠ []) (hamp : w[0]? ≠ some (chr '&')) (hc : parseCmd env none (w ++ [0#8]) = some (some c))
    (hcs : List.Forall₂ (fun w c => entry env w = some c) ws cs) :
    (∃ ds : List Cmd, some c :: cs = ds.map some ∧ ds.length = countC s (chr '|') + 1 ∧
      List.Forall₂ (fun w c => entry env w = some (some c)) (w :: ws) ds) ↔
    s[0]? ≠ some (chr ' ') ∧ ∀ v ∈ w :: ws, strip v ≠ [] := by
  have hall : ∀ v ∈ w :: ws, 0#8 ∉ v ∧ v.length < buflen := fun v hv =>
    have hsub := splitOn_sublist (hsplit ▸ hv)
    ⟨fun h => hs (hsub.subset h), hsub.length_le.trans_lt hlen⟩
  obtain ⟨hw, hwlen⟩ := hall w List.mem_cons_self
  have hchar : w[0]? = s[0]? := (first_char hsplit).resolve_right fun h => hne h.1
  have hfirst := first_entry env hne hamp hw hwlen
  rw [hc, hchar] at hfirst
  rw [← hfirst]
  constructor
  · rintro ⟨ds, hmap, -, hds⟩
    refine ⟨?_, entries_word hds⟩
    cases hds with
    | cons hd _ =>
      rw [hd]
      exact congrArg some (List.cons.inj hmap).1
  · rintro ⟨hw₀, hwords⟩
    have hentries : List.Forall₂ (fun w c => entry env w = some c) (w :: ws) (some c :: cs) := .cons hw₀.symm hcs
    obtain ⟨ds, hmap, hds⟩ := entries_some hentries fun v hv => ⟨(hall v hv).1, (hall v hv).2, hwords v hv⟩
    refine ⟨ds, hmap, ?_, hds⟩
    rw [← hds.length_eq, ← hsplit, splitOn_length]

theorem bars_pos {w₁ : List (BitVec 8)} (hsplit : s.splitOn (chr '|') = w :: w₁ :: ws) : 1 ≤ countC s (chr '|') := by
  have h := (splitOn_length s).symm.trans (congrArg List.length hsplit)
  simp only [List.length_cons] at h
  omega

theorem entry_blank (env : Env) {c : Option Cmd} (hs : 0#8 ∉ s) (hlen : s.length < buflen) (hw : w ∈ s.splitOn (chr '|'))
    (hc : entry env w = some c) : c = none ↔ strip w = [] := by
  have hsub := splitOn_sublist hw
  obtain ⟨d, hd, hblank⟩ := entry_cases env (fun h => hs (hsub.subset h)) (hsub.length_le.trans_lt hlen)
  obtain rfl := Option.some.inj (hc.symm.trans hd)
  exact hblank

/-- A line that starts with a bar is parsed to a null pointer if nothing stands before the next one. -/
theorem pipeParsed_bar (env : Env) {w₁ junk : List (BitVec 8)} {c₁ : Option Cmd} (hs : 0#8 ∉ s) (hlen : s.length < buflen)
    (hsplit : s.splitOn (chr '|') = [] :: w₁ :: ws) (hc₁ : entry env w₁ = some c₁)
    (hline : parseLine env (s ++ 0#8 :: junk) = pipeCmdCreate (none :: c₁ :: cs ++ [none])) :
    PipeParsed env s junk ↔ strip w₁ ≠ [] := by
  have hblank := entry_blank env hs hlen (hsplit ▸ List.mem_cons_of_mem _ List.mem_cons_self) hc₁
  cases c₁ with
  | none =>
    refine iff_of_false (fun h => ?_) fun h => h (hblank.mp rfl)
    obtain ⟨l, hl, hnull, -⟩ := h
    exact hnull (Option.some.inj (hl.symm.trans hline))
  | some c₁ =>
    refine iff_of_true ⟨_, hline, nofun, fun _ hall => ?_⟩ fun h => nomatch hblank.mpr h
    exact absurd rfl (hall [] (hsplit ▸ List.mem_cons_self))

/-- A line with a command in front of its first bar. -/
theorem pipeParsed_bars (env : Env) {w₁ junk : List (BitVec 8)} {c : Cmd} {c₁ : Option Cmd} (hs : 0#8 ∉ s) (hlen : s.length < buflen)
    (hsplit : s.splitOn (chr '|') = w :: w₁ :: ws) (hne : w ≠ []) (hamp : w[0]? ≠ some (chr '&'))
    (hc : parseCmd env none (w ++ [0#8]) = some (some c)) (hc₁ : entry env w₁ = some c₁)
    (hcs : List.Forall₂ (fun w c => entry env w = some c) ws cs)
    (hline : parseLine env (s ++ 0#8 :: junk) = pipeCmdCreate (some c :: c₁ :: cs ++ [none])) :
    PipeParsed env s junk ↔ ((∀ w ∈ s.splitOn (chr '|'), w ≠ []) →
      s[0]? ≠ some (chr ' ') ∧ ∀ w ∈ s.splitOn (chr '|'), strip w ≠ []) := by
  have hcount := bars_pos hsplit
  have hmem₁ : w₁ ∈ s.splitOn (chr '|') := hsplit ▸ List.mem_cons_of_mem _ List.mem_cons_self
  have hblank := entry_blank env hs hlen hmem₁ hc₁
  cases c₁ with
  | none =>
    -- The null pointer of a blank segment is taken for the end of the array.
    constructor
    · intro ⟨l, hl, _, hpipe⟩ hall
      obtain ⟨ds, rfl, -⟩ := hpipe hcount hall
      cases hl.symm.trans hline
    · intro h
      refine ⟨_, hline, nofun, fun _ hall => ?_⟩
      exact absurd (hblank.mp rfl) ((h hall).2 w₁ hmem₁)
  | some c₁ =>
    have hiff := pipe_entries env hs hlen hsplit hne hamp hc (.cons hc₁ hcs)
    rw [← hsplit] at hiff
    constructor
    · intro ⟨l, hl, _, hpipe⟩ hall
      obtain ⟨ds, rfl, hlength, hds⟩ := hpipe hcount hall
      have heq := Line.pipe.inj (Option.some.inj (hline.symm.trans hl))
      exact hiff.mp ⟨ds, List.append_cancel_right heq, hlength, hds⟩
    · intro h
      refine ⟨_, hline, nofun, fun _ hall => ?_⟩
      obtain ⟨ds, hmap, hlength, hds⟩ := hiff.mpr (h hall)
      exact ⟨ds, by rw [hmap], hlength, hds⟩

end Pipes

/-- A line is parsed to a command, and with something in each of its segments to a pipe of them, exactly if it does not start with
`&`, there is something other than spaces behind it in its buffer, there is a command in front of its first bar or before the
second one, and no segment of a pipe is blank and the line of one does not start with a space. -/
theorem parseLine_pipe_iff (env : Env) {s : List (BitVec 8)} (hne : s ≠ []) (hs : 0#8 ∉ s) (hlen : s.length < buflen)
    (junk : List (BitVec 8)) : PipeParsed env s junk ↔ Pipeable s junk := by
  obtain ⟨w, ws, hsplit⟩ := List.exists_cons_of_ne_nil (List.splitOn_ne_nil (chr '|') s)
  have hchar := first_char hsplit
  by_cases hjunk : strip junk = []
  · refine iff_of_false (fun h => ?_) fun h => h.behind hjunk
    obtain ⟨l, hl, -⟩ := h
    rw [parseLine_behind env hs hlen hsplit hjunk] at hl
    cases hl
  obtain ⟨cs, hcs, hline⟩ := parseLine_entries env hs hlen junk hjunk hsplit
  have hsub := splitOn_sublist (hsplit ▸ List.mem_cons_self : w ∈ s.splitOn (chr '|'))
  have hw : 0#8 ∉ w := fun h => hs (hsub.subset h)
  have hwlen : w.length < buflen := hsub.length_le.trans_lt hlen
  by_cases hamp : w[0]? = some (chr '&')
  · -- The character in front of the buffer is read.
    have hfirst : s[0]? = some (chr '&') := by
      rcases hchar with h | h
      · rw [← h, hamp]
      · rw [h.1] at hamp
        cases hamp
    refine iff_of_false (fun h => ?_) fun h => h.amp hfirst
    obtain ⟨l, hl, -⟩ := h
    rw [hline, parseCmd_outside env hamp hw hwlen] at hl
    cases hl
  have hs₀ : s[0]? ≠ some (chr '&') := by
    rcases hchar with h | h
    · rw [← h]
      exact hamp
    · rw [h.2]
      decide
  cases hcs with
  | nil =>
    have hcount := (splitOn_length s).symm.trans (congrArg List.length hsplit)
    rw [List.length_singleton] at hcount
    have hws : w = s := by
      have h := @List.intercalate_splitOn _ s _ _ (chr '|')
      rwa [hsplit, List.intercalate_singleton] at h
    subst hws
    obtain ⟨c, hc, -⟩ := parseCmd_scmd env none hne (fun _ => hs₀) hs hlen
    rw [hc] at hline
    refine iff_of_true ⟨.cmd (some c), hline, nofun, fun h => ?_⟩ ⟨hs₀, hjunk, fun v vs h => ?_, fun h => ?_⟩
    · omega
    · cases hsplit.symm.trans h
    · omega
  | cons hc₁ hcs =>
    by_cases hwne : w = []
    · subst hwne
      rw [List.nil_append, parseCmd_nil, Option.bind_some] at hline
      rw [pipeParsed_bar env hs hlen hsplit hc₁ hline]
      constructor
      · intro h
        refine ⟨hs₀, hjunk, fun v vs hv => ?_, fun _ hall => ?_⟩
        · rw [← (List.cons.inj (List.cons.inj (hsplit.symm.trans hv)).2).1]
          exact h
        · exact absurd rfl (hall [] (hsplit ▸ List.mem_cons_self))
      · exact fun h => h.first _ _ hsplit
    · obtain ⟨c, hc, -⟩ := parseCmd_scmd env none hwne (fun _ => hamp) hw hwlen
      rw [hc, Option.bind_some] at hline
      rw [pipeParsed_bars env hs hlen hsplit hwne hamp hc hc₁ hcs hline]
      constructor
      · intro h
        refine ⟨hs₀, hjunk, fun v vs hv => ?_, fun _ hall => h hall⟩
        exact absurd (List.cons.inj (hsplit.symm.trans hv)).1 hwne
      · exact fun h hall => h.words (bars_pos hsplit) hall

/-- `ls | wc` is parsed to a pipe. -/
theorem parseLine_pipe_words :
    PipeParsed ⟨fun _ => none, 0#32⟩ ("ls | wc".toList.map chr) [0#8] ↔ Pipeable ("ls | wc".toList.map chr) [0#8] :=
  parseLine_pipe_iff ⟨fun _ => none, 0#32⟩ (by decide +kernel) (by decide +kernel) (by decide +kernel) [0#8]

/-- The line `|` has no command. -/
theorem parseLine_pipe_bar :
    parseLine ⟨fun _ => none, 0#32⟩ ("|".toList.map chr ++ [0#8, 0#8]) = some (.cmd none) ∧
    ¬ PipeParsed ⟨fun _ => none, 0#32⟩ ("|".toList.map chr) [0#8] := by
  have hline : parseLine ⟨fun _ => none, 0#32⟩ ("|".toList.map chr ++ [0#8, 0#8]) = some (.cmd none) := by decide +kernel
  refine ⟨hline, fun h => ?_⟩
  obtain ⟨l, hl, hnull, -⟩ := h
  exact hnull (Option.some.inj (hl.symm.trans hline))

end Shell
end Sisop
