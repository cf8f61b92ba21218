import Mathlib.Data.Fintype.Card
import Mathlib.Data.Multiset.Count
import Mathlib.Tactic.Common

/-! Counting references. A table gives each slot the object it refers to, if
any; `refs` counts the slots that refer to one object. `Tally` says that stored
counters agree with the table, up to references that are held outside it. -/
namespace Sisop

section RefTable

variable {ι α : Type} [Fintype ι] [DecidableEq α]

/-- The number of slots that refer to `a`. -/
def refs (m : ι → Option α) (a : α) : ℕ := (Finset.univ.filter fun i => m i = some a).card

theorem refs_eq_zero {m : ι → Option α} {a : α} : refs m a = 0 ↔ ∀ i, m i ≠ some a := by
  simp only [refs, Finset.card_eq_zero, Finset.filter_eq_empty_iff, Finset.mem_univ, true_implies,
    ne_eq]

theorem refs_pos_of {m : ι → Option α} {a : α} {i : ι} (h : m i = some a) : 0 < refs m a :=
  Finset.card_pos.mpr ⟨i, Finset.mem_filter.mpr ⟨Finset.mem_univ i, h⟩⟩

/-- An object referred to once is referred to from one slot only. -/
theorem slot_unique_of_refs_le_one {m : ι → Option α} {a : α} (h : refs m a ≤ 1) {i j : ι}
    (hi : m i = some a) (hj : m j = some a) : i = j :=
  Finset.card_le_one.mp h i (Finset.mem_filter.mpr ⟨Finset.mem_univ i, hi⟩) j
    (Finset.mem_filter.mpr ⟨Finset.mem_univ j, hj⟩)

/-- The references from slots with a property, and those from the others. -/
theorem refs_split (P : ι → Prop) [DecidablePred P] (m : ι → Option α) (a : α) :
    refs (fun i => if P i then m i else none) a + refs (fun i => if P i then none else m i) a = refs m a := by
  have hin : (Finset.univ.filter fun i => (if P i then m i else none) = some a) =
      (Finset.univ.filter fun i => m i = some a).filter P := by
    ext i
    simp only [Finset.mem_filter, Finset.mem_univ, true_and]
    by_cases hi : P i
    · simp only [hi, if_true, and_true]
    · simp only [hi, if_false, reduceCtorEq, and_false]
  have hout : (Finset.univ.filter fun i => (if P i then none else m i) = some a) =
      (Finset.univ.filter fun i => m i = some a).filter fun i => ¬ P i := by
    ext i
    simp only [Finset.mem_filter, Finset.mem_univ, true_and]
    by_cases hi : P i
    · simp only [hi, if_true, reduceCtorEq, not_true_eq_false, and_false]
    · simp only [hi, if_false, not_false_eq_true, and_true]
  unfold refs
  rw [hin, hout]
  exact Finset.card_filter_add_card_filter_not _

theorem exists_of_card_filter_pos {P : ι → Prop} [DecidablePred P] (h : 0 < (Finset.univ.filter P).card) :
    ∃ i, P i := by
  obtain ⟨i, hi⟩ := Finset.card_pos.mp h
  exact ⟨i, (Finset.mem_filter.mp hi).2⟩

/-- Counting the slots of one kind by what they are made from. -/
theorem card_filter_of_range {κ : Type} [Fintype κ] {P : ι → Prop} {Q : κ → Prop} [DecidablePred P]
    [DecidablePred Q] (f : κ → ι) (hf : Function.Injective f) (hQ : ∀ j, Q j ↔ P (f j))
    (hP : ∀ i, P i → ∃ j, f j = i) : (Finset.univ.filter P).card = (Finset.univ.filter Q).card := by
  symm
  apply Finset.card_bij fun j _ => f j
  · intro j hj
    simp only [Finset.mem_filter, Finset.mem_univ, true_and] at hj ⊢
    exact (hQ j).mp hj
  · exact fun i _ j _ hij => hf hij
  · intro i hi
    simp only [Finset.mem_filter, Finset.mem_univ, true_and] at hi ⊢
    obtain ⟨j, rfl⟩ := hP i hi
    exact ⟨j, (hQ j).mpr hi, rfl⟩

variable [DecidableEq ι]

/-- The slots other than `i` do not see an update at `i`. -/
theorem refs_eq_erase (m : ι → Option α) (i : ι) (a : α) :
    refs m a = ((Finset.univ.erase i).filter fun j => m j = some a).card +
      if m i = some a then 1 else 0 := by
  have hu : (Finset.univ : Finset ι) = insert i (Finset.univ.erase i) :=
    (Finset.insert_erase (Finset.mem_univ i)).symm
  rw [refs, hu, Finset.filter_insert]
  split_ifs with h
  · rw [Finset.card_insert_of_notMem (by simp)]
    simp
  · simp

/-- One slot changes: the old target loses a reference and the new one gains it. -/
theorem refs_update (m : ι → Option α) (i : ι) (x : Option α) (a : α) :
    refs (Function.update m i x) a + (if m i = some a then 1 else 0) =
      refs m a + if x = some a then 1 else 0 := by
  have hrest : ((Finset.univ.erase i).filter fun j => Function.update m i x j = some a) =
      (Finset.univ.erase i).filter fun j => m j = some a := by
    apply Finset.filter_congr
    intro j hj
    rw [Function.update_of_ne (Finset.ne_of_mem_erase hj)]
  rw [refs_eq_erase (Function.update m i x) i a, refs_eq_erase m i a, hrest,
    Function.update_self]
  omega

/-- Filling an empty slot adds one reference. -/
theorem refs_link {m : ι → Option α} {i : ι} (h : m i = none) (b a : α) :
    refs (Function.update m i (some b)) a = refs m a + if b = a then 1 else 0 := by
  have hu := refs_update m i (some b) a
  simpa only [h, reduceCtorEq, ↓reduceIte, Nat.add_zero, Option.some.injEq] using hu

/-- Emptying a slot takes one reference away. -/
theorem refs_unlink {m : ι → Option α} {i : ι} {b : α} (h : m i = some b) (a : α) :
    refs (Function.update m i none) a + (if b = a then 1 else 0) = refs m a := by
  have hu := refs_update m i none a
  simpa only [h, reduceCtorEq, ↓reduceIte, Nat.add_zero, Option.some.injEq] using hu

/-- The counters `ref` count the references of `m` and those in `held`. The
target of a `sole` slot has that slot's reference and no other. -/
structure Tally (m : ι → Option α) (sole : ι → Prop) (ref : α → ℕ) (held : Multiset α) : Prop where
  count : ∀ a, ref a = refs m a + held.count a
  sole : ∀ i a, sole i → m i = some a → ref a = 1

namespace Tally

variable {m : ι → Option α} {sole : ι → Prop} {ref : α → ℕ} {held : Multiset α} {a : α}

omit [DecidableEq ι] in
theorem ref_pos {i : ι} (h : Tally m sole ref held) (hi : m i = some a) : 0 < ref a := by
  rw [h.count]
  exact Nat.add_pos_left (refs_pos_of hi) _

omit [DecidableEq ι] in
/-- Two slots with one target are the same slot if one of them is sole. -/
theorem slot_unique {i j : ι} (h : Tally m sole ref held) (hs : sole i) (hi : m i = some a)
    (hj : m j = some a) : i = j := by
  have hc := h.count a
  rw [h.sole i a hs hi] at hc
  exact slot_unique_of_refs_le_one (by omega) hi hj

omit [DecidableEq ι] in
/-- An object held outside the table is the target of no sole slot. -/
theorem not_sole_of_held {i : ι} (h : Tally m sole ref (a ::ₘ held)) (hs : sole i) :
    m i ≠ some a := by
  intro hi
  have hc := h.count a
  have hp := refs_pos_of hi
  rw [h.sole i a hs hi, Multiset.count_cons_self] at hc
  omega

omit [DecidableEq ι] in
/-- Taking a reference in hand. -/
theorem hold (h : Tally m sole ref held) (ha : ∀ i, sole i → m i ≠ some a) :
    Tally m sole (Function.update ref a (ref a + 1)) (a ::ₘ held) := by
  refine ⟨fun b => ?_, fun i b hs hi => ?_⟩
  · by_cases hb : b = a
    · subst hb
      rw [Function.update_self, h.count, Multiset.count_cons_self, Nat.add_assoc]
    · rw [Function.update_of_ne hb, h.count, Multiset.count_cons_of_ne hb]
  · have hb : b ≠ a := fun hb => ha i hs (hb ▸ hi)
    rw [Function.update_of_ne hb]
    exact h.sole i b hs hi

omit [DecidableEq ι] in
/-- Giving up a reference in hand. -/
theorem drop (h : Tally m sole ref (a ::ₘ held)) :
    Tally m sole (Function.update ref a (ref a - 1)) held := by
  refine ⟨fun b => ?_, fun i b hs hi => ?_⟩
  · by_cases hb : b = a
    · subst hb
      rw [Function.update_self, h.count, Multiset.count_cons_self]
      omega
    · rw [Function.update_of_ne hb, h.count, Multiset.count_cons_of_ne hb]
  · have hb : b ≠ a := fun hb => h.not_sole_of_held hs (hb ▸ hi)
    rw [Function.update_of_ne hb]
    exact h.sole i b hs hi

/-- A reference in hand goes into an empty slot. -/
theorem link (h : Tally m sole ref (a ::ₘ held)) {i : ι} (hi : m i = none)
    (hs : sole i → ref a = 1) : Tally (Function.update m i (some a)) sole ref held := by
  refine ⟨fun b => ?_, fun j b hj hb => ?_⟩
  · rw [h.count, refs_link hi]
    by_cases hb : a = b
    · subst hb
      rw [Multiset.count_cons_self, if_pos rfl]
      omega
    · rw [Multiset.count_cons_of_ne (Ne.symm hb), if_neg hb, Nat.add_zero]
  · by_cases hji : j = i
    · subst hji
      rw [Function.update_self, Option.some.injEq] at hb
      exact hb ▸ hs hj
    · rw [Function.update_of_ne hji] at hb
      exact h.sole j b hj hb

/-- The reference of a slot is taken out of it. -/
theorem unlink (h : Tally m sole ref held) {i : ι} (hi : m i = some a) :
    Tally (Function.update m i none) sole ref (a ::ₘ held) := by
  refine ⟨fun b => ?_, fun j b hj hb => ?_⟩
  · have hu := refs_unlink hi b
    rw [h.count]
    by_cases hb : a = b
    · subst hb
      rw [Multiset.count_cons_self]
      rw [if_pos rfl] at hu
      omega
    · rw [Multiset.count_cons_of_ne (Ne.symm hb)]
      rw [if_neg hb] at hu
      omega
  · by_cases hji : j = i
    · subst hji
      simp only [Function.update_self, reduceCtorEq] at hb
    · rw [Function.update_of_ne hji] at hb
      exact h.sole j b hj hb

end Tally
end RefTable
end Sisop
