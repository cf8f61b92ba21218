import Sisop.ShellWords

/-! Where the words of a command should go, and where `parse_exec` puts them. -/
namespace Sisop
namespace Shell

/-- Where a word goes. -/
inductive Place
  | out (file : List (BitVec 8))
  | err (file : List (BitVec 8))
  | inp (file : List (BitVec 8))
  | assign (word : List (BitVec 8))
  | arg (word : List (BitVec 8))
  deriving DecidableEq

/-- `KEY=VALUE`, with a nonempty `KEY` that has no `-`. -/
def IsAssignment (w : List (BitVec 8)) : Prop :=
  chr '=' ∈ w ∧ w.takeWhile (· ≠ chr '=') ≠ [] ∧ chr '-' ∉ w.takeWhile (· ≠ chr '=')

instance (w : List (BitVec 8)) : Decidable (IsAssignment w) := inferInstanceAs (Decidable (_ ∧ _ ∧ _))

/-- The place that a word should get. -/
def place (w : List (BitVec 8)) : Place :=
  if w[0]? = some (chr '>') ∧ 1 < w.length then .out (w.drop 1)
  else if (w[0]? = some (chr '2') ∧ w[1]? = some (chr '>')) ∧ 2 < w.length then .err (w.drop 2)
  else if w[0]? = some (chr '<') ∧ 1 < w.length then .inp (w.drop 1)
  else if IsAssignment w then .assign w
  else .arg w

def Place.isRedir : Place → Bool
  | .out _ => true
  | .err _ => true
  | .inp _ => true
  | _ => false

def Place.isAssign : Place → Bool
  | .assign _ => true
  | _ => false

def Place.isArg : Place → Bool
  | .arg _ => true
  | _ => false

/-- A word is put into its place. -/
def put (env : Env) (c : Execcmd) : Place → Execcmd
  | .out file => { c with outFile := file, redir := true }
  | .err file => { c with errFile := file, redir := true }
  | .inp file => { c with inFile := file, redir := true }
  | .assign word => { c with eargv := c.eargv ++ [word] }
  | .arg word => { c with argv := c.argv ++ [expandEnvironVar env word] }

/-- Each word is put into its place and stays there, and the type of the command is right. -/
structure Classified (env : Env) (c : Execcmd) (ws : List (List (BitVec 8))) : Prop where
  placed : ∀ pre w post, ws = pre ++ w :: post →
    execWord env (pre.foldl (execWord env) c) w = put env (pre.foldl (execWord env) c) (place w)
  type : (ws.foldl (execWord env) c).redir = true ↔ ∃ w ∈ ws, (place w).isRedir = true
  inside : (ws.foldl (execWord env) c).Inside

/-- A word with its special characters where `parse_exec` expects them: the first `>` in front of a name, at the start or
behind a `2`; without a `>`, the first `<` at the start in front of a name; and without both no `-` in an assignment. -/
def Plain (w : List (BitVec 8)) : Prop :=
  match blockContains w (chr '>') with
  | some 0 => 1 < w.length
  | some 1 => w[0]? = some (chr '2') ∧ 2 < w.length
  | some _ => False
  | none =>
    match blockContains w (chr '<') with
    | some 0 => 1 < w.length
    | some _ => False
    | none => IsAssignment w → chr '-' ∉ w

section Find

variable {w : List (BitVec 8)} {c : BitVec 8} {i : ℕ}

theorem blockContains_none : blockContains w c = none ↔ c ∉ w := by
  induction w with
  | nil => exact iff_of_true rfl fun hmem => nomatch hmem
  | cons b w ih =>
    unfold blockContains
    by_cases hb : b = c
    · rw [if_pos hb]
      exact iff_of_false nofun fun h => h (hb ▸ List.mem_cons_self)
    · rw [if_neg hb, Option.map_eq_none_iff, ih, List.mem_cons, not_or]
      exact (and_iff_right fun heq => hb heq.symm).symm

theorem blockContains_mem (h : blockContains w c = some i) : c ∈ w := by
  by_contra hnot
  rw [blockContains_none.mpr hnot] at h
  cases h

theorem blockContains_zero : blockContains w c = some 0 ↔ w[0]? = some c := by
  cases w with
  | nil => exact iff_of_false nofun nofun
  | cons b w =>
    unfold blockContains
    by_cases hb : b = c
    · rw [if_pos hb]
      exact iff_of_true rfl (congrArg some hb)
    · rw [if_neg hb]
      refine iff_of_false (fun h => ?_) fun h => hb (Option.some.inj h)
      obtain ⟨k, -, hk⟩ := Option.map_eq_some_iff.mp h
      exact absurd hk (Nat.succ_ne_zero k)

theorem blockContains_one : blockContains w c = some 1 ↔ w[0]? ≠ some c ∧ w[1]? = some c := by
  cases w with
  | nil => exact iff_of_false nofun fun h => nomatch h.2
  | cons b w =>
    unfold blockContains
    by_cases hb : b = c
    · rw [if_pos hb]
      exact iff_of_false nofun fun h => h.1 (congrArg some hb)
    · have hne : (b :: w)[0]? ≠ some c := fun h => hb (Option.some.inj h)
      rw [if_neg hb, and_iff_right hne, List.getElem?_cons_succ, ← blockContains_zero]
      cases blockContains w c with
      | none => exact iff_of_false nofun nofun
      | some k => exact ⟨fun h => congrArg some (Nat.succ.inj (Option.some.inj h)), fun h => congrArg (Option.map (· + 1)) h⟩

/-- The key of an assignment is not empty. -/
theorem key_ne_nil (hmem : c ∈ w) : w.takeWhile (· ≠ c) ≠ [] ↔ blockContains w c ≠ some 0 := by
  rw [Ne, Ne, blockContains_zero]
  cases w with
  | nil => cases hmem
  | cons b w =>
    rw [List.takeWhile_eq_nil_iff]
    apply not_congr
    constructor
    · intro h
      have hb := h (Nat.zero_lt_succ _)
      simpa using hb
    · intro h _
      have hb := Option.some.inj h
      simpa using hb

end Find

section Placing

variable {env : Env} {c c' : Execcmd} {w : List (BitVec 8)} {ws : List (List (BitVec 8))}

theorem parseEnvironVar_some (c : Execcmd) (ha : IsAssignment w) (hdash : chr '-' ∉ w) :
    parseEnvironVar c w = some { c with eargv := c.eargv ++ [w] } := by
  have hkey := (key_ne_nil ha.1).mp ha.2.1
  unfold parseEnvironVar
  cases heq : blockContains w (chr '=') with
  | none => exact absurd ha.1 (blockContains_none.mp heq)
  | some k =>
    cases k with
    | zero => exact absurd heq hkey
    | succ k => rw [blockContains_none.mpr hdash]

theorem parseEnvironVar_none (c : Execcmd) (h : IsAssignment w → chr '-' ∈ w) : parseEnvironVar c w = none := by
  unfold parseEnvironVar
  cases heq : blockContains w (chr '=') with
  | none => exact rfl
  | some k =>
    cases k with
    | zero => exact rfl
    | succ k =>
      have hmem := blockContains_mem heq
      have hkey : w.takeWhile (· ≠ chr '=') ≠ [] := by
        rw [key_ne_nil hmem, heq]
        nofun
      cases hdash : blockContains w (chr '-') with
      | some _ => exact rfl
      | none =>
        have hnot := blockContains_none.mp hdash
        exact absurd (h ⟨hmem, hkey, fun hk => hnot (List.takeWhile_subset _ hk)⟩) hnot

/-- What a redirection does to a command. -/
structure Redirected (w : List (BitVec 8)) (c c' : Execcmd) : Prop where
  scmd : c'.scmd = c.scmd
  argv : c'.argv = c.argv
  eargv : c'.eargv = c.eargv
  redir : c'.redir = true
  kept : chr '>' ∈ w → c'.inFile = c.inFile
  inFile : chr '>' ∉ c.inFile → chr '>' ∉ c'.inFile

theorem parseRedirFlow_some (c : Execcmd) (h : chr '>' ∈ w ∨ chr '<' ∈ w) : ∃ c', parseRedirFlow c w = some c' ∧ Redirected w c c' := by
  unfold parseRedirFlow
  split
  next => exact ⟨_, rfl, rfl, rfl, rfl, rfl, fun _ => rfl, fun h => h⟩
  next => exact ⟨_, rfl, rfl, rfl, rfl, rfl, fun _ => rfl, fun h => h⟩
  next => exact ⟨_, rfl, rfl, rfl, rfl, rfl, fun _ => rfl, fun h => h⟩
  next hgt =>
    have hgt' := blockContains_none.mp hgt
    cases hlt : blockContains w (chr '<') with
    | none => exact absurd (h.resolve_left hgt') (blockContains_none.mp hlt)
    | some _ =>
      refine ⟨_, rfl, rfl, rfl, rfl, rfl, fun hmem => absurd hmem hgt', fun _ hmem => hgt' ?_⟩
      exact List.mem_of_mem_drop hmem

theorem parseRedirFlow_none (c : Execcmd) (hgt : chr '>' ∉ w) (hlt : chr '<' ∉ w) : parseRedirFlow c w = none := by
  unfold parseRedirFlow
  rw [blockContains_none.mpr hgt, blockContains_none.mpr hlt]

theorem execWord_redirected (env : Env) (c : Execcmd) (h : chr '>' ∈ w ∨ chr '<' ∈ w) : Redirected w c (execWord env c w) := by
  obtain ⟨c', hc', hredir⟩ := parseRedirFlow_some c h
  unfold execWord
  rw [hc']
  exact hredir

theorem execWord_kept (env : Env) (c : Execcmd) (hgt : chr '>' ∉ w) (hlt : chr '<' ∉ w) :
    execWord env c w = put env c (if IsAssignment w ∧ chr '-' ∉ w then .assign w else .arg w) := by
  unfold execWord
  rw [parseRedirFlow_none c hgt hlt]
  by_cases h : IsAssignment w ∧ chr '-' ∉ w
  · rw [parseEnvironVar_some c h.1 h.2, if_pos h]
    exact rfl
  · rw [parseEnvironVar_none c fun ha => by_contra fun hd => h ⟨ha, hd⟩, if_neg h]
    exact rfl

theorem place_kept (hgt : chr '>' ∉ w) (hlt : chr '<' ∉ w) : place w = if IsAssignment w then .assign w else .arg w := by
  unfold place
  rw [if_neg fun h => hgt (List.mem_of_getElem? h.1), if_neg fun h => hgt (List.mem_of_getElem? h.1.2),
    if_neg fun h => hlt (List.mem_of_getElem? h.1)]

/-- A plain word is put into its place. -/
theorem execWord_plain (env : Env) (c : Execcmd) (h : Plain w) : execWord env c w = put env c (place w) := by
  unfold Plain at h
  cases hgt : blockContains w (chr '>') with
  | some i =>
    have hexec : ∀ c', parseRedirFlow c w = some c' → execWord env c w = c' := by
      intro c' hc'
      unfold execWord
      rw [hc']
    rw [hgt] at h
    match i with
    | 0 =>
      have hplace : place w = .out (w.drop 1) := if_pos ⟨blockContains_zero.mp hgt, h⟩
      rw [hplace]
      apply hexec
      unfold parseRedirFlow
      rw [hgt]
      exact rfl
    | 1 =>
      have hfirst := blockContains_one.mp hgt
      have hplace : place w = .err (w.drop 2) := (if_neg fun h => hfirst.1 h.1).trans (if_pos ⟨⟨h.1, hfirst.2⟩, h.2⟩)
      rw [hplace]
      apply hexec
      unfold parseRedirFlow
      rw [hgt]
      exact rfl
    | _ + 2 => exact h.elim
  | none =>
    have hgt' := blockContains_none.mp hgt
    rw [hgt] at h
    cases hlt : blockContains w (chr '<') with
    | some i =>
      rw [hlt] at h
      match i with
      | 0 =>
        have hfirst := blockContains_zero.mp hlt
        have hplace : place w = .inp (w.drop 1) := by
          unfold place
          rw [if_neg fun h => hgt' (List.mem_of_getElem? h.1), if_neg fun h => hgt' (List.mem_of_getElem? h.1.2),
            if_pos ⟨hfirst, h⟩]
        rw [hplace]
        unfold execWord parseRedirFlow
        rw [hgt, hlt]
        exact rfl
      | _ + 1 => exact h.elim
    | none =>
      have hlt' := blockContains_none.mp hlt
      rw [hlt] at h
      rw [execWord_kept env c hgt' hlt', place_kept hgt' hlt']
      by_cases ha : IsAssignment w
      · rw [if_pos ⟨ha, h ha⟩, if_pos ha]
      · rw [if_neg fun h => ha h.1, if_neg ha]

/-- How a word that is not plain goes astray: it is dropped or taken for a name of a file, its name of a file is, or an
assignment is taken for an argument. -/
theorem not_plain_cases (h : ¬ Plain w) :
    ((chr '>' ∈ w ∨ chr '<' ∈ w) ∧ (place w = .assign w ∨ place w = .arg w)) ∨
    (∃ file, place w = .inp file ∧ chr '>' ∈ file ∧ chr '>' ∈ w) ∨
    (chr '>' ∉ w ∧ chr '<' ∉ w ∧ IsAssignment w ∧ chr '-' ∈ w) := by
  have hout : ¬ (w[0]? = some (chr '>') ∧ 1 < w.length) := by
    intro hout
    apply h
    unfold Plain
    rw [blockContains_zero.mpr hout.1]
    exact hout.2
  have herr : ¬ ((w[0]? = some (chr '2') ∧ w[1]? = some (chr '>')) ∧ 2 < w.length) := by
    intro herr
    apply h
    have hfirst : w[0]? ≠ some (chr '>') := by
      rw [herr.1.1]
      decide
    unfold Plain
    rw [blockContains_one.mpr ⟨hfirst, herr.1.2⟩]
    exact ⟨herr.1.1, herr.2⟩
  by_cases hinp : w[0]? = some (chr '<') ∧ 1 < w.length
  · have hplace : place w = .inp (w.drop 1) := by
      unfold place
      rw [if_neg hout, if_neg herr, if_pos hinp]
    by_cases hgt : chr '>' ∈ w
    · -- The name of a file has a `>`.
      refine .inr (.inl ⟨w.drop 1, hplace, ?_, hgt⟩)
      obtain ⟨hfirst, hlen⟩ := hinp
      cases w with
      | nil => cases hgt
      | cons b w =>
        obtain rfl := Option.some.inj hfirst
        exact (List.mem_cons.mp hgt).resolve_left (by decide)
    · exfalso
      apply h
      unfold Plain
      rw [blockContains_none.mpr hgt, blockContains_zero.mpr hinp.1]
      exact hinp.2
  · have hplace : place w = .assign w ∨ place w = .arg w := by
      unfold place
      rw [if_neg hout, if_neg herr, if_neg hinp]
      split
      next => exact .inl rfl
      next => exact .inr rfl
    by_cases hredir : chr '>' ∈ w ∨ chr '<' ∈ w
    · exact .inl ⟨hredir, hplace⟩
    · rw [not_or] at hredir
      unfold Plain at h
      rw [blockContains_none.mpr hredir.1, blockContains_none.mpr hredir.2] at h
      obtain ⟨ha, hdash⟩ := Classical.not_imp.mp h
      exact .inr (.inr ⟨hredir.1, hredir.2, ha, not_not.mp hdash⟩)

theorem append_ne {α : Type} (l : List α) (x : α) : l ++ [x] ≠ l := by
  intro heq
  have hlen := congrArg List.length heq
  rw [List.length_append, List.length_singleton] at hlen
  omega

/-- A word that is not plain is not put into its place. -/
theorem execWord_not_plain (env : Env) (h : ¬ Plain w) (hc : chr '>' ∉ c.inFile) : execWord env c w ≠ put env c (place w) := by
  intro heq
  obtain ⟨hredir, hplace⟩ | ⟨file, hplace, hfile, hgt⟩ | ⟨hgt, hlt, ha, hdash⟩ := not_plain_cases h
  · have hr := execWord_redirected env c hredir
    rw [heq] at hr
    obtain hplace | hplace := hplace
    · rw [hplace] at hr
      exact append_ne _ _ hr.eargv
    · rw [hplace] at hr
      exact append_ne _ _ hr.argv
  · have hr := execWord_redirected env c (.inl hgt)
    rw [heq, hplace] at hr
    exact hr.inFile hc hfile
  · rw [execWord_kept env c hgt hlt, place_kept hgt hlt, if_pos ha, if_neg fun h => h.2 hdash] at heq
    exact append_ne _ _ (congrArg Execcmd.argv heq)

theorem inFile_step (env : Env) (w : List (BitVec 8)) (hc : chr '>' ∉ c.inFile) : chr '>' ∉ (execWord env c w).inFile := by
  by_cases hredir : chr '>' ∈ w ∨ chr '<' ∈ w
  · exact (execWord_redirected env c hredir).inFile hc
  · rw [not_or] at hredir
    rw [execWord_kept env c hredir.1 hredir.2]
    split
    next => exact hc
    next => exact hc

theorem inFile_run (env : Env) (ws : List (List (BitVec 8))) (hc : chr '>' ∉ c.inFile) :
    chr '>' ∉ (ws.foldl (execWord env) c).inFile := by
  induction ws generalizing c with
  | nil => exact hc
  | cons w ws ih => exact ih (inFile_step env w hc)

/-- What a place adds to the counters. -/
theorem put_counts (env : Env) (c : Execcmd) (p : Place) :
    (put env c p).argv.length = c.argv.length + (if p.isArg then 1 else 0) ∧
    (put env c p).eargv.length = c.eargv.length + (if p.isAssign then 1 else 0) ∧
    ((put env c p).redir = true ↔ c.redir = true ∨ p.isRedir = true) := by
  cases p with
  | out => exact ⟨rfl, rfl, iff_of_true rfl (.inr rfl)⟩
  | err => exact ⟨rfl, rfl, iff_of_true rfl (.inr rfl)⟩
  | inp => exact ⟨rfl, rfl, iff_of_true rfl (.inr rfl)⟩
  | assign => exact ⟨rfl, List.length_append, (or_iff_left nofun).symm⟩
  | arg => exact ⟨List.length_append, rfl, (or_iff_left nofun).symm⟩

/-- The counters after a run over plain words. -/
theorem plain_run (env : Env) (ws : List (List (BitVec 8))) (h : ∀ w ∈ ws, Plain w) :
    (ws.foldl (execWord env) c).argv.length = c.argv.length + ws.countP (fun w => (place w).isArg) ∧
    (ws.foldl (execWord env) c).eargv.length = c.eargv.length + ws.countP (fun w => (place w).isAssign) ∧
    ((ws.foldl (execWord env) c).redir = true ↔ c.redir = true ∨ ∃ w ∈ ws, (place w).isRedir = true) := by
  induction ws generalizing c with
  | nil => exact ⟨rfl, rfl, by simp⟩
  | cons w ws ih =>
    obtain ⟨hargv, heargv, hredir⟩ := @ih (put env c (place w)) fun x hx => h x (List.mem_cons_of_mem _ hx)
    obtain ⟨pargv, peargv, predir⟩ := put_counts env c (place w)
    rw [List.foldl_cons, execWord_plain env c (h w List.mem_cons_self)]
    rw [hargv, heargv, hredir, pargv, peargv, predir, List.countP_cons, List.countP_cons]
    refine ⟨by omega, by omega, ?_⟩
    simp only [List.mem_cons, exists_eq_or_imp, or_assoc]

/-- All words are put into their places exactly if all are plain, and there is room for them. -/
theorem classified_iff (env : Env) (ws : List (List (BitVec 8))) (hargv : c.argv = []) (heargv : c.eargv = [])
    (hredir : c.redir = false) (hin : chr '>' ∉ c.inFile) :
    Classified env c ws ↔ (∀ w ∈ ws, Plain w) ∧ ws.countP (fun w => (place w).isArg) < maxargs ∧
      ws.countP (fun w => (place w).isAssign) ≤ maxargs := by
  have hcounts : (∀ w ∈ ws, Plain w) → ((ws.foldl (execWord env) c).Inside ↔ ws.countP (fun w => (place w).isArg) < maxargs ∧
      ws.countP (fun w => (place w).isAssign) ≤ maxargs) := by
    intro h
    obtain ⟨ha, he, -⟩ := plain_run (c := c) env ws h
    rw [hargv, List.length_nil, Nat.zero_add] at ha
    rw [heargv, List.length_nil, Nat.zero_add] at he
    unfold Execcmd.Inside
    rw [ha, he]
    exact Iff.rfl
  constructor
  · intro h
    have hplain : ∀ w ∈ ws, Plain w := by
      intro w hw
      by_contra hnot
      obtain ⟨pre, post, hsplit⟩ := List.append_of_mem hw
      exact execWord_not_plain env hnot (inFile_run env pre hin) (h.placed pre w post hsplit)
    exact ⟨hplain, (hcounts hplain).mp h.inside⟩
  · rintro ⟨hplain, hroom⟩
    refine ⟨fun pre w post hsplit => ?_, ?_, (hcounts hplain).mpr hroom⟩
    · apply execWord_plain
      apply hplain
      rw [hsplit]
      exact List.mem_append_right _ List.mem_cons_self
    · rw [(plain_run env ws hplain).2.2, hredir]
      exact or_iff_right nofun

end Placing

/-- A command: its words, with a space between each two. -/
def segment : List (List (BitVec 8)) → List (BitVec 8)
  | [] => []
  | [w] => w
  | w :: ws => w ++ chr ' ' :: segment ws

section Segment

variable {w s : List (BitVec 8)} {ws : List (List (BitVec 8))}

theorem execWords_last (hne : w ≠ []) (hsp : chr ' ' ∉ w) : execWords w = [w] := by
  have hall : ∀ c ∈ w, decide (c ≠ chr ' ') = true := fun c hc => decide_eq_true fun heq => hsp (heq ▸ hc)
  obtain ⟨b, r, rfl⟩ := List.exists_cons_of_ne_nil hne
  rw [execWords_cons, List.takeWhile_eq_self_iff.mpr hall, List.dropWhile_eq_nil_iff.mpr hall, List.tail_nil, execWords]

theorem execWords_first (hne : w ≠ []) (hsp : chr ' ' ∉ w) (s : List (BitVec 8)) :
    execWords (w ++ chr ' ' :: s) = w :: execWords s := by
  have hall : ∀ c ∈ w, decide (c ≠ chr ' ') = true := fun c hc => decide_eq_true fun heq => hsp (heq ▸ hc)
  obtain ⟨b, r, rfl⟩ := List.exists_cons_of_ne_nil hne
  rw [List.cons_append, execWords_cons, ← List.cons_append, List.takeWhile_append_of_pos hall, List.dropWhile_append_of_pos hall,
    List.takeWhile_cons_of_neg (by simp), List.dropWhile_cons_of_neg (by simp), List.append_nil, List.tail_cons]

theorem execWords_segment (ws : List (List (BitVec 8))) (hne : ∀ w ∈ ws, w ≠ []) (hsp : ∀ w ∈ ws, chr ' ' ∉ w) :
    execWords (segment ws) = ws := by
  fun_induction segment ws with
  | case1 => rw [execWords]
  | case2 w => exact execWords_last (hne w List.mem_cons_self) (hsp w List.mem_cons_self)
  | case3 w ws _ ih =>
    rw [execWords_first (hne w List.mem_cons_self) (hsp w List.mem_cons_self),
      ih (fun x hx => hne x (List.mem_cons_of_mem _ hx)) fun x hx => hsp x (List.mem_cons_of_mem _ hx)]

theorem segment_nul (ws : List (List (BitVec 8))) (hnul : ∀ w ∈ ws, 0#8 ∉ w) : 0#8 ∉ segment ws := by
  fun_induction segment ws with
  | case1 => exact fun hmem => nomatch hmem
  | case2 w => exact hnul w List.mem_cons_self
  | case3 w ws _ ih =>
    intro hmem
    obtain hmem | hmem := List.mem_append.mp hmem
    · exact hnul w List.mem_cons_self hmem
    · obtain heq | hmem := List.mem_cons.mp hmem
      · exact absurd heq (by decide)
      · exact ih (fun x hx => hnul x (List.mem_cons_of_mem _ hx)) hmem

end Segment

/-- `parse_exec` puts every word of a command into its place exactly if all words are plain, and there is room for the
arguments and the assignments. -/
theorem parseExec_places_iff (env : Env) {ws : List (List (BitVec 8))} (hws : ∀ w ∈ ws, w ≠ [] ∧ chr ' ' ∉ w ∧ 0#8 ∉ w)
    (hlen : (segment ws).length < buflen) (junk : List (BitVec 8)) :
    ∃ c, c = ⟨false, segment ws, [], [], [], [], []⟩ ∧
      parseExec env (segment ws ++ 0#8 :: junk) = some (ws.foldl (execWord env) c) ∧
      (Classified env c ws ↔ (∀ w ∈ ws, Plain w) ∧ ws.countP (fun w => (place w).isArg) < maxargs ∧
        ws.countP (fun w => (place w).isAssign) ≤ maxargs) := by
  refine ⟨_, rfl, ?_, classified_iff env ws rfl rfl rfl fun hmem => nomatch hmem⟩
  rw [parseExec_words env (segment_nul ws fun w hw => (hws w hw).2.2) hlen junk,
    execWords_segment ws (fun w hw => (hws w hw).1) fun w hw => (hws w hw).2.1]

/-- A program with an argument, an assignment and a redirection. -/
theorem parseExec_places_plain :
    let ws := ["A=1".toList.map chr, "ls".toList.map chr, "2>err".toList.map chr]
    ∃ c, c = ⟨false, segment ws, [], [], [], [], []⟩ ∧
      parseExec ⟨fun _ => none, 0#32⟩ (segment ws ++ 0#8 :: []) = some (ws.foldl (execWord ⟨fun _ => none, 0#32⟩) c) ∧
      (Classified ⟨fun _ => none, 0#32⟩ c ws ↔ (∀ w ∈ ws, Plain w) ∧ ws.countP (fun w => (place w).isArg) < maxargs ∧
        ws.countP (fun w => (place w).isAssign) ≤ maxargs) :=
  parseExec_places_iff ⟨fun _ => none, 0#32⟩ (by decide +kernel) (by decide +kernel) []

/-- `echo ab>c`: the second word is neither an argument nor the name of a file. -/
theorem parseExec_lostWord :
    (parseExec ⟨fun _ => none, 0#32⟩ (cstring "echo ab>c")) =
      some ⟨true, "echo ab>c".toList.map chr, ["echo".toList.map chr], [], [], [], []⟩ ∧
    place ("ab>c".toList.map chr) = .arg ("ab>c".toList.map chr) := by
  constructor
  · decide +kernel
  · decide +kernel

end Shell
end Sisop
