import Mathlib.Data.List.TakeWhile
import Mathlib.Tactic.Common

/-! Characters and strings as a C program has them. -/
namespace Sisop

/-- A character constant. -/
abbrev chr (c : Char) : BitVec 8 := BitVec.ofNat 8 c.toNat

/-- A string constant, with its NUL. -/
def cstring (s : String) : List (BitVec 8) := s.toList.map chr ++ [0#8]

/-- A store to the buffer. -/
def storeAt (buf : List (BitVec 8)) (i : ℕ) (c : BitVec 8) : Option (List (BitVec 8)) :=
  if i < buf.length then some (buf.set i c) else none

theorem storeAt_some {buf : List (BitVec 8)} {i : ℕ} (h : i < buf.length) (c : BitVec 8) : storeAt buf i c = some (buf.set i c) :=
  if_pos h

/-- The string at the start of a buffer. -/
def cstr (buf : List (BitVec 8)) : Option (List (BitVec 8)) :=
  if buf.contains 0#8 then some (buf.takeWhile (· ≠ 0#8)) else none

/-- The string of a buffer that is known. -/
theorem cstr_append {s : List (BitVec 8)} (hs : 0#8 ∉ s) (junk : List (BitVec 8)) : cstr (s ++ 0#8 :: junk) = some s := by
  unfold cstr
  rw [if_pos (List.contains_iff_mem.mpr (List.mem_append_right _ List.mem_cons_self)), List.takeWhile_append_of_pos]
  · exact congrArg some (List.append_nil s)
  · intro c hc
    apply decide_eq_true
    rintro rfl
    exact hs hc

end Sisop
