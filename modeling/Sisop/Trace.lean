import Sisop.Routine
import Mathlib.Data.List.Induction

/-! Runs of a system whose steps emit events. -/
namespace Sisop

section Run

variable {σ ε : Type} {step step' : σ → ε → σ → Prop} {s t u : σ} {e : ε} {es es' : List ε}

/-- The system goes from the state `s` to another one, and emits the events of the list. -/
inductive Run (step : σ → ε → σ → Prop) (s : σ) : List ε → σ → Prop where
  | nil : Run step s [] s
  | snoc {es : List ε} {e : ε} {t u : σ} (h : Run step s es t) (hs : step t e u) :
    Run step s (es ++ [e]) u

theorem Run.single (h : step s e t) : Run step s [e] t := Run.nil.snoc h

theorem Run.trans (h : Run step s es t) (h' : Run step t es' u) : Run step s (es ++ es') u := by
  induction h' with
  | nil => rwa [List.append_nil]
  | snoc _ hs ih =>
    rw [← List.append_assoc]
    exact ih.snoc hs

theorem Run.append_inv (h : Run step s (es ++ es') u) : ∃ t, Run step s es t ∧ Run step t es' u := by
  induction es' using List.reverseRecOn generalizing u with
  | nil => exact ⟨u, by rwa [List.append_nil] at h, .nil⟩
  | append_singleton es' e ih =>
    rw [← List.append_assoc] at h
    generalize hl : es ++ es' ++ [e] = l at h
    cases h with
    | nil => exact absurd hl (List.append_ne_nil_of_right_ne_nil _ (List.cons_ne_nil e []))
    | snoc h hs =>
      obtain ⟨rfl, heq⟩ := List.append_inj' hl rfl
      cases heq
      obtain ⟨t, h₁, h₂⟩ := ih h
      exact ⟨t, h₁, h₂.snoc hs⟩

theorem Run.cons_inv (h : Run step s (e :: es) u) : ∃ t, step s e t ∧ Run step t es u := by
  obtain ⟨t, h₁, h₂⟩ := Run.append_inv (show Run step s ([e] ++ es) u from h)
  generalize hl : [e] = l at h₁
  cases h₁ with
  | nil => cases hl
  | @snoc es' e' v _ h hs =>
    obtain ⟨hnil, heq⟩ := List.append_inj' (show [] ++ [e] = es' ++ [e'] from hl) rfl
    cases heq
    cases h with
    | nil => exact ⟨t, hs, h₂⟩
    | snoc => exact absurd hnil.symm (List.append_ne_nil_of_right_ne_nil _ (List.cons_ne_nil _ _))

/-- What holds at first and is kept by every step holds at the end of every run. -/
theorem Run.invariant {I : List ε → σ → Prop} (h : Run step s es t) (h0 : I [] s)
    (hs : ∀ es e t u, I es t → step t e u → I (es ++ [e]) u) : I es t := by
  induction h with
  | nil => exact h0
  | snoc _ hst ih => exact hs _ _ _ _ ih hst

/-- A system whose runs are only so long comes to a state in which it can take no step. -/
theorem Run.exists_last {m : ℕ} (h : ∀ es t, Run step s es t → es.length ≤ m) : ∃ es t, Run step s es t ∧ ∀ e u, ¬ step t e u := by
  by_contra! hne
  -- a run of every length
  have hrun (l : ℕ) : ∃ es t, Run step s es t ∧ es.length = l := by
    induction l with
    | zero => exact ⟨[], s, .nil, rfl⟩
    | succ l ih =>
      obtain ⟨es, t, hst, hl⟩ := ih
      obtain ⟨e, u, hs⟩ := hne es t hst
      exact ⟨es ++ [e], u, hst.snoc hs, by rw [List.length_append, List.length_singleton, hl]⟩
  obtain ⟨es, t, hst, hl⟩ := hrun (m + 1)
  have := h es t hst
  omega

/-- A step that writes down the state it leads to, beside its event. -/
def Logged (step : σ → ε → σ → Prop) (s : σ) (x : ε × σ) (t : σ) : Prop := step s x.1 t ∧ x.2 = t

end Run
end Sisop
