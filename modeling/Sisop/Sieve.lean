import Mathlib.Data.List.Range
import Mathlib.Data.Nat.Prime.Basic

/-! The sieve on lists: the first number stays, and its multiples go. -/
namespace Sisop

/-- What is left of `xs` when the multiples of `p` are taken out. -/
def sift (p : ℕ) (xs : List ℕ) : List ℕ := xs.filter fun x => decide (x % p ≠ 0)

theorem sift_length_le (p : ℕ) (xs : List ℕ) : (sift p xs).length ≤ xs.length := List.length_filter_le _ xs

theorem sift_keep {p x : ℕ} (h : x % p ≠ 0) (xs : List ℕ) : sift p (x :: xs) = x :: sift p xs :=
  List.filter_cons_of_pos (decide_eq_true h)

theorem sift_drop {p x : ℕ} (h : ¬ x % p ≠ 0) (xs : List ℕ) : sift p (x :: xs) = sift p xs :=
  List.filter_cons_of_neg fun hne => h (of_decide_eq_true hne)

def sieve : List ℕ → List ℕ
  | [] => []
  | p :: xs => p :: sieve (sift p xs)
termination_by xs => xs.length
decreasing_by exact Nat.lt_succ_of_le (sift_length_le p xs)

@[simp] theorem sieve_nil : sieve [] = [] := by rw [sieve]

theorem sieve_cons (p : ℕ) (xs : List ℕ) : sieve (p :: xs) = p :: sieve (sift p xs) := by rw [sieve]

/-- No prime below `a` divides `x`. -/
def Rough (a x : ℕ) : Prop := ∀ q < a, q.Prime → ¬ q ∣ x

section Primes

variable {a x : ℕ}

theorem rough_succ : Rough (a + 1) x ↔ Rough a x ∧ (a.Prime → ¬ a ∣ x) := by
  constructor
  · exact fun h => ⟨fun q hq => h q (by omega), h a (Nat.lt_succ_self a)⟩
  · rintro ⟨h, ha⟩ q hq hprime
    rcases Nat.lt_succ_iff_lt_or_eq.mp hq with hlt | rfl
    · exact h q hlt hprime
    · exact ha hprime

/-- A number that has no smaller prime in it is a prime. -/
theorem rough_self (ha : 2 ≤ a) : Rough a a ↔ a.Prime := by
  constructor
  · intro h
    have hmin : a.minFac.Prime := Nat.minFac_prime (by omega)
    rcases (Nat.minFac_le (by omega : 0 < a)).lt_or_eq with hlt | heq
    · exact absurd (Nat.minFac_dvd a) (h _ hlt hmin)
    · rwa [heq] at hmin
  · intro hprime q hq hq' hdvd
    exact hq.ne ((Nat.prime_dvd_prime_iff_eq hq' hprime).mp hdvd)

open scoped Classical in
/-- The numbers from `a` on that have come through the sieve so far become the primes among them. -/
theorem sieve_rough (l : ℕ) : ∀ {a}, 2 ≤ a →
    sieve ((List.range' a l).filter fun x => decide (Rough a x)) = (List.range' a l).filter fun x => decide x.Prime := by
  induction l with
  | zero =>
    intro a _
    exact sieve_nil
  | succ l ih =>
    intro a ha
    have hnext : (List.range' (a + 1) l).filter (fun x => decide (Rough (a + 1) x)) =
        if a.Prime then sift a ((List.range' (a + 1) l).filter fun x => decide (Rough a x))
        else (List.range' (a + 1) l).filter fun x => decide (Rough a x) := by
      split_ifs with hprime
      · unfold sift
        rw [List.filter_filter]
        refine List.filter_congr fun x _ => ?_
        rw [← Bool.decide_and, decide_eq_decide, rough_succ, Nat.dvd_iff_mod_eq_zero, and_comm]
        exact and_congr_left' ⟨fun h => h hprime, fun h _ => h⟩
      · refine List.filter_congr fun x _ => ?_
        rw [decide_eq_decide, rough_succ]
        exact and_iff_left fun h => absurd h hprime
    rw [List.range'_succ]
    by_cases hprime : a.Prime
    · have hrough : (a :: List.range' (a + 1) l).filter (fun x => decide (Rough a x)) =
          a :: (List.range' (a + 1) l).filter fun x => decide (Rough a x) :=
        List.filter_cons_of_pos (decide_eq_true ((rough_self ha).mpr hprime))
      have hhead : (a :: List.range' (a + 1) l).filter (fun x => decide x.Prime) =
          a :: (List.range' (a + 1) l).filter fun x => decide x.Prime := List.filter_cons_of_pos (decide_eq_true hprime)
      rw [hrough, hhead, sieve_cons, ← ih (by omega), hnext, if_pos hprime]
    · have hrough : (a :: List.range' (a + 1) l).filter (fun x => decide (Rough a x)) =
          (List.range' (a + 1) l).filter fun x => decide (Rough a x) :=
        List.filter_cons_of_neg fun h => hprime ((rough_self ha).mp (of_decide_eq_true h))
      have hhead : (a :: List.range' (a + 1) l).filter (fun x => decide x.Prime) =
          (List.range' (a + 1) l).filter fun x => decide x.Prime := List.filter_cons_of_neg fun h => hprime (of_decide_eq_true h)
      rw [hrough, hhead, ← ih (by omega), hnext, if_neg hprime]

/-- The sieve turns the numbers from two on into the primes. -/
theorem sieve_range (n : ℕ) : sieve (List.range' 2 (n - 2)) = (List.range n).filter fun x => decide x.Prime := by
  classical
  have hall : (List.range' 2 (n - 2)).filter (fun x => decide (Rough 2 x)) = List.range' 2 (n - 2) := by
    refine List.filter_eq_self.mpr fun x _ => decide_eq_true fun q hq hprime => ?_
    exact absurd hprime.two_le (by omega)
  -- neither 0 nor 1 is a prime
  have hsplit : (List.range n).filter (fun x => decide x.Prime) = (List.range' 2 (n - 2)).filter fun x => decide x.Prime := by
    have hsmall : (List.range' 0 (min 2 n)).filter (fun x => decide x.Prime) = [] := by
      refine List.filter_eq_nil_iff.mpr fun x hx hprime => ?_
      obtain ⟨-, hx⟩ := List.mem_range'_1.mp hx
      have := (of_decide_eq_true hprime).two_le
      omega
    have happend : List.range n = List.range' 0 (min 2 n) ++ List.range' 2 (n - 2) := by
      rw [List.range_eq_range']
      rcases Nat.le_total 2 n with h | h
      · rw [min_eq_left h]
        conv_lhs => rw [← Nat.add_sub_cancel' h]
        exact List.range'_append_1.symm
      · rw [min_eq_right h, Nat.sub_eq_zero_of_le h, List.range'_zero, List.append_nil]
    rw [happend, List.filter_append, hsmall, List.nil_append]
  rw [hsplit, ← sieve_rough (n - 2) le_rfl, hall]

end Primes

section Rounds

variable {xs ys : List ℕ} {q : ℕ}

/-- The first number goes, and its multiples with it. -/
def sifted (xs : List ℕ) : List ℕ := sift (xs.headD 0) xs.tail

theorem sifted_mono (h : xs <+: ys) : sifted xs <+: sifted ys := by
  obtain ⟨zs, rfl⟩ := h
  cases xs with
  | nil => exact List.nil_prefix
  | cons x xs => exact (List.prefix_append xs zs).filter _

theorem sifted_sublist (xs : List ℕ) : (sifted xs).Sublist xs := List.filter_sublist.trans (List.tail_sublist xs)

theorem iterate_sifted_nil (k : ℕ) : sifted^[k] [] = [] := by
  induction k with
  | zero => rfl
  | succ k ih => exact ih

theorem iterate_sifted_sublist (k : ℕ) (xs : List ℕ) : (sifted^[k] xs).Sublist xs := by
  induction k with
  | zero => exact List.Sublist.refl xs
  | succ k ih =>
    rw [Function.iterate_succ_apply']
    exact (sifted_sublist _).trans ih

/-- The numbers that the sieve keeps are the first ones of its rounds. -/
theorem sieve_getElem? (k : ℕ) (xs : List ℕ) : (sieve xs)[k]? = (sifted^[k] xs).head? := by
  induction k generalizing xs with
  | zero =>
    cases xs with
    | nil => rw [sieve_nil]; rfl
    | cons p xs => rw [sieve_cons]; rfl
  | succ k ih =>
    cases xs with
    | nil => rw [sieve_nil, iterate_sifted_nil]; rfl
    | cons p xs =>
      rw [sieve_cons, List.getElem?_cons_succ, ih, Function.iterate_succ_apply]
      rfl

/-- A prime is no multiple of a smaller number. -/
theorem prime_mod_ne_zero {p : ℕ} (hq : q.Prime) (hp : 2 ≤ p) (hne : q ≠ p) : q % p ≠ 0 := by
  intro hmod
  rcases (Nat.dvd_prime hq).mp (Nat.dvd_of_mod_eq_zero hmod) with h | h
  · omega
  · exact hne h.symm

end Rounds
end Sisop
