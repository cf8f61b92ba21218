import Mathlib.Data.List.TakeWhile
import Sisop.Shell
import Sisop.Tokens

/-! The words that `parse_exec` gets out of a command, and when these are the words that there are. -/
namespace Sisop
namespace Shell

/-- The words that the loop of `parse_exec` goes through: each one ends at the next space, and one space is skipped. -/
def execWords : List (BitVec 8) → List (List (BitVec 8))
  | [] => []
  | b :: s => (b :: s).takeWhile (· ≠ chr ' ') :: execWords ((b :: s).dropWhile (· ≠ chr ' ')).tail
termination_by s => s.length
decreasing_by
  have hlen := (List.dropWhile_suffix (· ≠ chr ' ') (l := b :: s)).length_le
  rw [List.length_tail]
  rw [List.length_cons] at hlen
  exact Nat.lt_succ_of_le (by omega)

/-- The words of a command: what the spaces separate. -/
def words (s : List (BitVec 8)) : List (Token (BitVec 8)) := tokens (fun c => decide (c = chr ' ')) (fun _ => false) s

/-- No space comes first or behind another space. -/
def SingleSpaced (s : List (BitVec 8)) : Prop := s.head? ≠ some (chr ' ') ∧ ¬ [chr ' ', chr ' '] <:+: s

section Loop

variable {env : Env} {c : Execcmd} {s junk w rest tok : List (BitVec 8)} {b e : BitVec 8} {n i : ℕ}

/-- A token is stored to its array from `i` on. -/
theorem getTokenLoop_word (he : e = chr ' ' ∨ e = 0#8) (w : List (BitVec 8)) : ∀ done, chr ' ' ∉ w → 0#8 ∉ w → w.length ≤ n →
    getTokenLoop (done ++ List.replicate n 0#8) done.length (w ++ e :: rest) =
      some (done ++ w ++ List.replicate (n - w.length) 0#8) := by
  induction w generalizing n with
  | nil =>
    intro done _ _ _
    have hend : ¬ (e ≠ chr ' ' ∧ e ≠ 0#8) := fun h => he.elim h.1 h.2
    rw [List.append_nil]
    exact if_neg hend
  | cons c w ih =>
    intro done hsp hnul hlen
    have hc : c ≠ chr ' ' ∧ c ≠ 0#8 :=
      ⟨fun heq => hsp (heq ▸ List.mem_cons_self), fun heq => hnul (heq ▸ List.mem_cons_self)⟩
    obtain ⟨n, rfl⟩ : ∃ m, n = m + 1 := ⟨n - 1, by rw [List.length_cons] at hlen; omega⟩
    have hset : storeAt (done ++ List.replicate (n + 1) 0#8) done.length c = some ((done ++ [c]) ++ List.replicate n 0#8) := by
      unfold storeAt
      rw [if_pos (by simp), List.set_append_right _ _ (Nat.le_refl _), Nat.sub_self, List.replicate_succ, List.set_cons_zero,
        ← List.append_cons]
    have hnext := ih (n := n) (done ++ [c]) (fun hmem => hsp (List.mem_cons_of_mem _ hmem))
      (fun hmem => hnul (List.mem_cons_of_mem _ hmem)) (Nat.le_of_succ_le_succ hlen)
    rw [List.length_append] at hnext
    rw [List.cons_append, getTokenLoop, if_pos hc, hset, Option.bind_eq_bind, Option.bind_some, List.length_cons,
      Nat.add_sub_add_right, List.append_cons done c w]
    exact hnext

/-- `get_token` gets the characters up to the next space. -/
theorem getToken_word (he : e = chr ' ' ∨ e = 0#8) (hsp : chr ' ' ∉ w) (hnul : 0#8 ∉ w) (hlen : w.length < buflen) :
    getToken (w ++ e :: rest) = some (w ++ List.replicate (argsize - w.length) 0#8) :=
  getTokenLoop_word he w [] hsp hnul (Nat.le_of_lt hlen)

theorem cstr_token (hnul : 0#8 ∉ w) (hlen : w.length < buflen) : cstr (w ++ List.replicate (argsize - w.length) 0#8) = some w := by
  obtain ⟨k, hk⟩ : ∃ k, argsize - w.length = k + 1 := by
    have hlen' : w.length < argsize := hlen
    exact ⟨argsize - w.length - 1, by omega⟩
  rw [hk, List.replicate_succ]
  exact cstr_append hnul _

theorem execWords_cons (b : BitVec 8) (s : List (BitVec 8)) :
    execWords (b :: s) = (b :: s).takeWhile (· ≠ chr ' ') :: execWords ((b :: s).dropWhile (· ≠ chr ' ')).tail := by
  rw [execWords]

/-- The loop goes through `execWords`. -/
theorem execLoop_words (n : ℕ) : ∀ {c s}, 0#8 ∉ s → s.length < n → s.length < buflen →
    execLoop env n c (s ++ 0#8 :: junk) = some ((execWords s).foldl (execWord env) c) := by
  induction n with
  | zero => exact fun _ h => absurd h (Nat.not_lt_zero _)
  | succ n ih =>
    intro c s hs hn hlen
    cases s with
    | nil =>
      rw [execWords]
      exact if_neg (not_not.mpr rfl)
    | cons b s =>
      have hb : b ≠ 0#8 := fun heq => hs (heq ▸ List.mem_cons_self)
      rw [execWords_cons, List.foldl_cons]
      have hsplit := List.takeWhile_append_dropWhile (p := (· ≠ chr ' ')) (l := b :: s)
      have hsp : chr ' ' ∉ (b :: s).takeWhile (· ≠ chr ' ') := fun hmem => absurd (List.mem_takeWhile_imp hmem) (by decide)
      have hhead := List.head?_dropWhile_not (· ≠ chr ' ') (b :: s)
      generalize (b :: s).takeWhile (· ≠ chr ' ') = w at *
      generalize (b :: s).dropWhile (· ≠ chr ' ') = r at *
      have hnul : 0#8 ∉ w := fun hmem => hs (hsplit ▸ List.mem_append_left _ hmem)
      have hlens : w.length + r.length = (b :: s).length := by rw [← List.length_append, hsplit]
      have hwlen : w.length < buflen := by omega
      have hround : ∀ {e rest}, r ++ 0#8 :: junk = e :: rest → e = chr ' ' ∨ e = 0#8 →
          execLoop env (n + 1) c ((b :: s) ++ 0#8 :: junk) =
            (skipChar (e :: rest) >>= fun next => execLoop env n (execWord env c w) next) := by
        intro e rest hr he
        have hbuf : b :: (s ++ 0#8 :: junk) = w ++ e :: rest := by
          rw [← hr, ← List.append_assoc, hsplit]
          rfl
        rw [List.cons_append, execLoop, if_pos hb, hbuf, getToken_word he hsp hnul hwlen]
        simp only [Option.bind_eq_bind, Option.bind_some, cstr_token hnul hwlen, List.drop_left]
      cases r with
      | nil =>
        rw [hround rfl (.inr rfl)]
        rw [List.length_cons] at hn
        exact ih (s := []) (fun hmem => nomatch hmem) (Nat.zero_lt_of_lt (Nat.lt_of_succ_lt_succ hn)) (by decide)
      | cons e r =>
        have he : e = chr ' ' := by simpa using hhead
        subst he
        rw [hround rfl (.inl rfl)]
        rw [List.length_cons] at hlens
        exact ih (fun hmem => hs (hsplit ▸ List.mem_append_right _ (List.mem_cons_of_mem _ hmem))) (by omega) (by omega)

/-- `parse_exec` goes through `execWords`. -/
theorem parseExec_words (env : Env) (hs : 0#8 ∉ s) (hlen : s.length < buflen) (junk : List (BitVec 8)) :
    parseExec env (s ++ 0#8 :: junk) = some ((execWords s).foldl (execWord env) ⟨false, s, [], [], [], [], []⟩) := by
  unfold parseExec execCmdCreate
  simp only [cstr_append hs, Option.bind_eq_bind, Option.bind_some, if_pos hlen]
  apply execLoop_words _ hs _ hlen
  rw [List.length_append]
  omega

end Loop

section Words

variable {s w : List (BitVec 8)} {b : BitVec 8}

/-- No word is empty. -/
theorem words_ne_nil (s : List (BitVec 8)) : Token.word [] ∉ words s := by
  unfold words
  fun_induction tokens (fun c => decide (c = chr ' ')) (fun _ => false) s with
  | case1 => exact fun hmem => nomatch hmem
  | case2 c cs hc ih => exact ih
  | case3 c cs hc hsym => cases hsym
  | case4 c cs hc hsym ih =>
    intro hmem
    obtain heq | hmem := List.mem_cons.mp hmem
    · cases heq
    · exact ih hmem

theorem double_space (hw : chr ' ' ∉ w) (s : List (BitVec 8)) :
    [chr ' ', chr ' '] <:+: w ++ chr ' ' :: s ↔ s.head? = some (chr ' ') ∨ [chr ' ', chr ' '] <:+: s := by
  induction w with
  | nil =>
    rw [List.nil_append, List.infix_cons_iff, List.cons_prefix_cons, and_iff_right rfl]
    apply or_congr_left
    cases s with
    | nil => exact ⟨fun h => absurd (List.prefix_nil.mp h) (by decide), fun h => nomatch h⟩
    | cons c s =>
      rw [List.cons_prefix_cons, and_iff_left (List.nil_prefix), List.head?_cons, Option.some_inj]
      exact eq_comm
  | cons c w ih =>
    have hc : chr ' ' ≠ c := fun heq => hw (heq ▸ List.mem_cons_self)
    rw [List.cons_append, List.infix_cons_iff, List.cons_prefix_cons, or_iff_right fun h => hc h.1,
      ih fun hmem => hw (List.mem_cons_of_mem _ hmem)]

/-- A word, and what stands behind the space that ends it. -/
theorem words_word (hb : b ≠ chr ' ') (s : List (BitVec 8)) : words (b :: s) =
    .word ((b :: s).takeWhile (· ≠ chr ' ')) :: words (((b :: s).dropWhile (· ≠ chr ' ')).tail) := by
  have hplain : plain (fun c : BitVec 8 => decide (c = chr ' ')) (fun _ => false) = fun c => decide (c ≠ chr ' ') := by
    funext c
    unfold plain
    rw [Bool.not_false, Bool.and_true, decide_not]
  have hword := @tokens_word _ (fun c : BitVec 8 => decide (c = chr ' ')) (fun _ => false) b s (decide_eq_false hb) rfl
  unfold words
  rw [hword, hplain]
  congr 1
  have hhead := List.head?_dropWhile_not (· ≠ chr ' ') (b :: s)
  generalize (b :: s).dropWhile (· ≠ chr ' ') = r at *
  cases r with
  | nil => exact rfl
  | cons e r =>
    have he : e = chr ' ' := by simpa using hhead
    exact tokens_white (decide_eq_true he)

theorem singleSpaced_word (hb : b ≠ chr ' ') (s : List (BitVec 8)) :
    SingleSpaced (b :: s) ↔ SingleSpaced ((b :: s).dropWhile (· ≠ chr ' ')).tail := by
  have hsplit := List.takeWhile_append_dropWhile (p := (· ≠ chr ' ')) (l := b :: s)
  have hsp : chr ' ' ∉ (b :: s).takeWhile (· ≠ chr ' ') := fun hmem => absurd (List.mem_takeWhile_imp hmem) (by decide)
  have hhead := List.head?_dropWhile_not (· ≠ chr ' ') (b :: s)
  have hfirst : (b :: s).head? ≠ some (chr ' ') := fun heq => hb (Option.some.inj heq)
  unfold SingleSpaced
  rw [and_iff_right hfirst]
  generalize (b :: s).takeWhile (· ≠ chr ' ') = w at *
  generalize (b :: s).dropWhile (· ≠ chr ' ') = r at *
  rw [← hsplit]
  cases r with
  | nil =>
    rw [List.append_nil]
    refine iff_of_true (fun hinf => hsp (hinf.subset List.mem_cons_self)) ⟨nofun, fun hinf => ?_⟩
    exact absurd (List.infix_nil.mp hinf) (by decide)
  | cons e r =>
    have he : e = chr ' ' := by simpa using hhead
    subst he
    rw [double_space hsp, not_or]
    exact Iff.rfl

/-- The words that the loop goes through are the words that there are, unless one of them is empty. -/
theorem execWords_iff (s : List (BitVec 8)) : (execWords s).map Token.word = words s ↔ SingleSpaced s := by
  fun_induction execWords s with
  | case1 =>
    have hwords : words [] = [] := tokens_nil
    rw [hwords]
    exact iff_of_true rfl ⟨nofun, fun hinf => absurd (List.infix_nil.mp hinf) (by decide)⟩
  | case2 b s ih =>
    by_cases hb : b = chr ' '
    · refine iff_of_false (fun heq => ?_) fun h => h.1 (congrArg some hb)
      apply words_ne_nil (b :: s)
      rw [← heq, List.map_cons, List.takeWhile_cons_of_neg (by simpa using hb)]
      exact List.mem_cons_self
    · rw [List.map_cons, words_word hb, List.cons_inj_right, ih, singleSpaced_word hb]

end Words

/-- `parse_exec` splits a command into words, one space at a time. It gets the words that there are exactly if no space comes
first or behind another space. An `Execcmd` lists what is stored; from 20 arguments on the stores run over the end of `argv`. -/
theorem parseExec_words_iff (env : Env) {s : List (BitVec 8)} (hs : 0#8 ∉ s) (hlen : s.length < buflen) (junk : List (BitVec 8)) :
    parseExec env (s ++ 0#8 :: junk) = some ((execWords s).foldl (execWord env) ⟨false, s, [], [], [], [], []⟩) ∧
    ((execWords s).map Token.word = words s ↔ SingleSpaced s) :=
  ⟨parseExec_words env hs hlen junk, execWords_iff s⟩

/-- A command with a trailing space. -/
theorem parseExec_words_trailing :
    let s := "ls -l ".toList.map chr
    parseExec ⟨fun _ => none, 0#32⟩ (s ++ 0#8 :: []) =
      some ((execWords s).foldl (execWord ⟨fun _ => none, 0#32⟩) ⟨false, s, [], [], [], [], []⟩) ∧
    ((execWords s).map Token.word = words s ↔ SingleSpaced s) :=
  parseExec_words_iff ⟨fun _ => none, 0#32⟩ (by decide +kernel) (by decide +kernel) []

/-- Two spaces between two words: an empty argument. -/
theorem parseExec_doubleSpace :
    (parseExec ⟨fun _ => none, 0#32⟩ (cstring "ls  -l")).map Execcmd.argv =
      some ["ls".toList.map chr, [], "-l".toList.map chr] ∧
    (execWords ("ls  -l".toList.map chr)).map Token.word ≠ words ("ls  -l".toList.map chr) := by
  constructor
  · decide +kernel
  · intro heq
    apply ((execWords_iff _).mp heq).2
    exact ⟨"ls".toList.map chr, "-l".toList.map chr, by decide +kernel⟩

end Shell
end Sisop
