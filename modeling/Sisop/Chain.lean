import Mathlib.Data.List.FinRange
import Mathlib.Data.List.Nodup
import Mathlib.Logic.Function.Basic
import Mathlib.Tactic.Common

/-! Singly linked lists: a head and a `next` function that thread through a list
of nodes. -/
namespace Sisop

variable {α : Type}

/-- The nodes met from `head` on, in order, up to the null link. -/
def Chain (next : α → Option α) : Option α → List α → Prop
  | head, [] => head = none
  | head, a :: l => head = some a ∧ Chain next (next a) l

/-- A node met from `head` on, also when the links run in a circle. -/
inductive OnChain (next : α → Option α) : Option α → α → Prop where
  | here (a : α) : OnChain next (some a) a
  | there {a b : α} (h : OnChain next (next a) b) : OnChain next (some a) b

/-- Cutting a link makes no new node reachable. -/
theorem OnChain.of_cut [DecidableEq α] {next : α → Option α} {head : Option α} {a b : α}
    (h : OnChain (Function.update next a none) head b) : OnChain next head b := by
  induction h with
  | here b => exact OnChain.here b
  | @there c b h ih =>
    by_cases hc : c = a
    · subst hc
      rw [Function.update_self] at h
      cases h
    · rw [Function.update_of_ne hc] at ih
      exact OnChain.there ih

namespace Chain

variable {next next' : α → Option α} {head : Option α} {l : List α}

theorem onChain_iff (h : Chain next head l) (b : α) : OnChain next head b ↔ b ∈ l := by
  induction l generalizing head with
  | nil =>
    have hn : head = none := h
    subst hn
    exact ⟨fun hb => (by cases hb), fun hb => absurd hb (by simp)⟩
  | cons a l ih =>
    obtain ⟨rfl, ht⟩ := h
    constructor
    · intro hb
      cases hb with
      | here => exact List.mem_cons_self
      | there hb => exact List.mem_cons_of_mem a ((ih ht).mp hb)
    · intro hb
      rcases List.mem_cons.mp hb with rfl | hb
      · exact OnChain.here b
      · exact OnChain.there ((ih ht).mpr hb)

/-- The next node of a node on a chain is on it. -/
theorem next_mem (h : Chain next head l) {a b : α} (ha : a ∈ l) (hb : next a = some b) : b ∈ l := by
  induction l generalizing head with
  | nil => cases ha
  | cons x l ih =>
    apply List.mem_cons_of_mem
    rcases List.mem_cons.mp ha with rfl | ha
    · cases l with
      | nil => exact absurd (hb.symm.trans h.2) (by simp)
      | cons y l =>
        rw [Option.some.inj (hb.symm.trans h.2.1)]
        exact List.mem_cons_self
    · exact ih h.2 ha

/-- The last node of a chain is the one that is not linked on. -/
theorem next_eq_none_iff (h : Chain next head l) (hnd : l.Nodup) {a : α} (ha : a ∈ l) :
    next a = none ↔ l.getLast? = some a := by
  induction l generalizing head with
  | nil => cases ha
  | cons x l ih =>
    obtain ⟨-, ht⟩ := h
    obtain ⟨hx, hnd⟩ := List.nodup_cons.mp hnd
    cases l with
    | nil =>
      obtain rfl := List.mem_singleton.mp ha
      exact ⟨fun _ => rfl, fun _ => ht⟩
    | cons y l =>
      rw [List.getLast?_cons_cons]
      rcases List.mem_cons.mp ha with rfl | ha
      · constructor
        · intro hn
          exact absurd (hn.symm.trans ht.1) (by simp)
        · intro hl
          exact absurd (List.mem_of_getLast? hl) hx
      · exact ih ht hnd ha

/-- From a node that is met a chain goes on that is no longer. -/
theorem from_onChain (h : Chain next head l) {b : α} (hb : OnChain next head b) :
    ∃ l', l'.length ≤ l.length ∧ Chain next (some b) l' := by
  induction hb generalizing l with
  | here b => exact ⟨l, le_rfl, h⟩
  | there hb ih =>
    cases l with
    | nil => cases h
    | cons x l =>
      obtain ⟨hx, ht⟩ := h
      obtain rfl := Option.some.inj hx
      obtain ⟨l', hle, hl'⟩ := ih ht
      exact ⟨l', Nat.le_succ_of_le hle, hl'⟩

/-- No chain goes on from a node in a circle. -/
theorem not_of_circle {a : α} (ha : OnChain next (next a) a) (l : List α) : ¬ Chain next (some a) l := by
  induction hn : l.length using Nat.strong_induction_on generalizing l with
  | _ n ih =>
    intro h
    cases l with
    | nil => cases h
    | cons x l =>
      obtain ⟨hx, ht⟩ := h
      obtain rfl := Option.some.inj hx
      obtain ⟨l', hle, hl'⟩ := ht.from_onChain ha
      exact ih l'.length (by rw [← hn, List.length_cons]; omega) l' rfl hl'

/-- The last node is still met when only its own link changes. -/
theorem onChain_last {l : List α} {a : α} (h : Chain next head (l ++ [a])) (hn : ∀ b ∈ l, next' b = next b) :
    OnChain next' head a := by
  induction l generalizing head with
  | nil =>
    obtain ⟨rfl, -⟩ := h
    exact OnChain.here a
  | cons x l ih =>
    obtain ⟨rfl, ht⟩ := h
    apply OnChain.there
    rw [hn x List.mem_cons_self]
    exact ih ht fun b hb => hn b (List.mem_cons_of_mem x hb)

/-- A chain does not see links that change off it. -/
theorem congr (h : Chain next head l) (hn : ∀ a ∈ l, next' a = next a) : Chain next' head l := by
  induction l generalizing head with
  | nil => exact h
  | cons a l ih =>
    refine ⟨h.1, ?_⟩
    rw [hn a List.mem_cons_self]
    exact ih h.2 fun b hb => hn b (List.mem_cons_of_mem a hb)

/-- A node that is linked from the last one becomes the last one. -/
theorem snoc (h : Chain next head l) {a b : α} (hl : l.getLast? = some a) (hnd : l.Nodup)
    (hb : b ∉ l) (ha : next' a = some b) (hb' : next' b = none)
    (hn : ∀ c ∈ l, c ≠ a → next' c = next c) : Chain next' head (l ++ [b]) := by
  induction l generalizing head with
  | nil => simp at hl
  | cons c l ih =>
    obtain ⟨rfl, ht⟩ := h
    obtain ⟨hc, hnd⟩ := List.nodup_cons.mp hnd
    refine ⟨rfl, ?_⟩
    cases l with
    | nil =>
      obtain rfl : c = a := by simpa using hl
      exact ⟨ha, hb'⟩
    | cons d l =>
      have hl' : (d :: l).getLast? = some a := by simpa [List.getLast?_cons_cons] using hl
      have hca : c ≠ a := fun h => hc (h ▸ List.mem_of_getLast? hl')
      rw [hn c List.mem_cons_self hca]
      exact ih ht hl' hnd (fun h => hb (List.mem_cons_of_mem c h))
        fun e he => hn e (List.mem_cons_of_mem c he)

/-- Every element of an array linked to the one behind it, from `i` on. -/
theorem finRange_drop {n : ℕ} {next : Fin n → Option (Fin n)}
    (hn : ∀ i : Fin n, next i = if h : i.val + 1 < n then some ⟨i.val + 1, h⟩ else none) (j : ℕ) :
    ∀ i : Fin n, i.val + j + 1 = n → Chain next (some i) ((List.finRange n).drop i) := by
  have hdrop (i : Fin n) : (List.finRange n).drop i = i :: (List.finRange n).drop (i.val + 1) := by
    rw [List.drop_eq_getElem_cons (by simp)]
    simp
  induction j with
  | zero =>
    intro i hi
    rw [hdrop i, List.drop_of_length_le (by simp; omega)]
    exact ⟨rfl, (hn i).trans (dif_neg (by omega))⟩
  | succ j ih =>
    intro i hi
    have hlt : i.val + 1 < n := by omega
    rw [hdrop i]
    refine ⟨rfl, ?_⟩
    rw [hn i, dif_pos hlt]
    exact ih ⟨i.val + 1, hlt⟩ (by simp; omega)

theorem exists_finRange {n : ℕ} {next : Fin n → Option (Fin n)}
    (hn : ∀ i : Fin n, next i = if h : i.val + 1 < n then some ⟨i.val + 1, h⟩ else none)
    (i : Fin n) : ∃ l, Chain next (some i) l ∧ l.Nodup :=
  ⟨_, finRange_drop hn (n - i.val - 1) i (by have := i.isLt; omega),
    (List.nodup_finRange n).sublist (List.drop_sublist _ _)⟩

end Chain
end Sisop
