import Mathlib.Tactic.Common

/-! Splitting a list into tokens: single symbols, and words, which are as long as possible. -/
namespace Sisop

inductive Token (α : Type) where
  | sym (c : α)
  | word (w : List α)
  deriving DecidableEq

section Tokens

variable {α : Type} (white sym : α → Bool)

/-- A part of a word. -/
def plain (c : α) : Bool := !white c && !sym c

theorem length_dropWhile_le (p : α → Bool) (l : List α) : (l.dropWhile p).length ≤ l.length :=
  (List.dropWhile_suffix p).length_le

def tokens : List α → List (Token α)
  | [] => []
  | c :: cs =>
    if white c then tokens cs
    else if sym c then .sym c :: tokens cs
    else .word (c :: cs.takeWhile (plain white sym)) :: tokens (cs.dropWhile (plain white sym))
termination_by l => l.length
decreasing_by
  · exact Nat.lt_succ_self _
  · exact Nat.lt_succ_self _
  · exact Nat.lt_succ_of_le (length_dropWhile_le _ _)

variable {white sym} {c : α} {cs l : List α}

theorem tokens_nil : tokens white sym [] = [] := by rw [tokens]

theorem tokens_white (h : white c = true) : tokens white sym (c :: cs) = tokens white sym cs := by
  rw [tokens, if_pos h]

theorem tokens_sym (h : white c = false) (hs : sym c = true) :
    tokens white sym (c :: cs) = .sym c :: tokens white sym cs := by
  rw [tokens, if_neg (by rw [h]; decide), if_pos hs]

/-- A word is as long as possible. -/
theorem tokens_word (h : white c = false) (hs : sym c = false) : tokens white sym (c :: cs) =
    .word ((c :: cs).takeWhile (plain white sym)) :: tokens white sym ((c :: cs).dropWhile (plain white sym)) := by
  have hplain : plain white sym c = true := by
    unfold plain
    rw [h, hs]
    rfl
  rw [tokens, if_neg (by rw [h]; decide), if_neg (by rw [hs]; decide), List.takeWhile_cons_of_pos hplain,
    List.dropWhile_cons_of_pos hplain]

/-- What separates tokens does not count. -/
theorem tokens_dropWhile (l : List α) : tokens white sym (l.dropWhile white) = tokens white sym l := by
  induction l with
  | nil => rfl
  | cons c cs ih =>
    by_cases h : white c = true
    · rw [List.dropWhile_cons_of_pos h, ih, tokens_white h]
    · rw [List.dropWhile_cons_of_neg h]

end Tokens

end Sisop
