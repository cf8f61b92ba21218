import Mathlib.Tactic.Common

/-! Spans of given lengths, one behind the other. -/
namespace Sisop

/-- Where span `i` starts when the first one starts at `b`. -/
def spanStart (b : ℕ) (sizes : List ℕ) (i : ℕ) : ℕ := (sizes.take i).foldl (· + ·) b

variable {b v i j k l : ℕ} {sizes : List ℕ}

theorem le_foldl_add (b : ℕ) (sizes : List ℕ) : b ≤ sizes.foldl (· + ·) b := by
  induction sizes generalizing b with
  | nil => exact Nat.le_refl b
  | cons size sizes ih => exact Nat.le_trans (Nat.le_add_right b size) (ih (b + size))

theorem spanStart_zero : spanStart b sizes 0 = b := rfl

theorem spanStart_succ (h : i < sizes.length) : spanStart b sizes (i + 1) = spanStart b sizes i + sizes[i] := by
  rw [spanStart, List.take_succ_eq_append_getElem h, List.foldl_append]
  rfl

theorem spanStart_mono (h : i ≤ j) : spanStart b sizes i ≤ spanStart b sizes j := by
  obtain ⟨c, rfl⟩ := Nat.exists_eq_add_of_le h
  rw [spanStart, spanStart, List.take_add, List.foldl_append]
  exact le_foldl_add _ _

theorem le_spanStart (i : ℕ) : b ≤ spanStart b sizes i := le_foldl_add _ _

theorem spanStart_append (more : List ℕ) (h : i ≤ sizes.length) :
    spanStart b (sizes ++ more) i = spanStart b sizes i := by
  rw [spanStart, spanStart, List.take_append_of_le_length h]

/-- A span ends before the next ones start. -/
theorem spanStart_disjoint (hi : i < sizes.length) (h : i < j) :
    spanStart b sizes i + sizes[i] ≤ spanStart b sizes j := by
  rw [← spanStart_succ hi]
  exact spanStart_mono h

/-- A place is in one span only. -/
theorem span_unique (hi : i < sizes.length) (hj : j < sizes.length) (hk : k < sizes[i]) (hl : l < sizes[j])
    (h : spanStart b sizes i + k = spanStart b sizes j + l) : i = j ∧ k = l := by
  rcases Nat.lt_trichotomy i j with hij | rfl | hij
  · have hd := spanStart_disjoint (b := b) hi hij
    omega
  · omega
  · have hd := spanStart_disjoint (b := b) hj hij
    omega

/-- Every place before the end is in a span. -/
theorem exists_span (hb : b ≤ v) (h : v < spanStart b sizes sizes.length) :
    ∃ i k, ∃ hi : i < sizes.length, k < sizes[i] ∧ v = spanStart b sizes i + k := by
  obtain ⟨n, hn⟩ : ∃ n, n = sizes.length := ⟨_, rfl⟩
  have hle : n ≤ sizes.length := Nat.le_of_eq hn
  rw [← hn] at h
  clear hn
  induction n with
  | zero =>
    rw [spanStart_zero] at h
    omega
  | succ n ih =>
    by_cases hv : v < spanStart b sizes n
    · exact ih hv (by omega)
    · rw [spanStart_succ hle] at h
      exact ⟨n, v - spanStart b sizes n, hle, by omega, by omega⟩

end Sisop
