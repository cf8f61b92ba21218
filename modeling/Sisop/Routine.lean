import Mathlib.Tactic.Common

/-! Routines that return, leave for good, or stop the machine, with rules of pre-
and postconditions for them, and invariants of transition systems. Nothing here
depends on a particular state. -/
namespace Sisop

/-- How a routine ends. `left` is the end of a routine that does not return to
its caller but hands the machine over in a state of its own; `halt` is the end
of one after which nothing more happens. -/
inductive Outcome (σ α : Type) where
  | ret (a : α) (s : σ)
  | left (s : σ)
  | halt

def Outcome.returns {σ α : Type} : Outcome σ α → Bool
  | .ret _ _ => true
  | _ => false

theorem Outcome.returns_iff {σ α : Type} {o : Outcome σ α} : o.returns = true ↔ ∃ a s, o = .ret a s := by
  cases o with
  | ret a s => exact iff_of_true rfl ⟨a, s, rfl⟩
  | left s => exact iff_of_false Bool.false_ne_true fun ⟨_, _, h⟩ => nomatch h
  | halt => exact iff_of_false Bool.false_ne_true fun ⟨_, _, h⟩ => nomatch h

/-- What is returned, if anything is. -/
def Outcome.value? {σ α : Type} : Outcome σ α → Option α
  | .ret a _ => some a
  | _ => none

theorem Outcome.value?_eq_some {σ α : Type} {o : Outcome σ α} {a : α} : o.value? = some a ↔ ∃ s, o = .ret a s := by
  cases o with
  | ret b s =>
    constructor
    · intro h
      cases h
      exact ⟨s, rfl⟩
    · rintro ⟨_, h⟩
      cases h
      rfl
  | left s => exact iff_of_false nofun nofun
  | halt => exact iff_of_false nofun nofun

def Routine (σ α : Type) := σ → Outcome σ α

namespace Routine

variable {σ τ : Type} {α β : Type}

protected def pure (a : α) : Routine σ α := fun s => .ret a s

protected def bind (m : Routine σ α) (k : α → Routine σ β) : Routine σ β := fun s =>
  match m s with
  | .ret a s' => k a s'
  | .left s' => .left s'
  | .halt => .halt

instance : Monad (Routine σ) where
  pure := Routine.pure
  bind := Routine.bind

def get : Routine σ σ := fun s => .ret s s

def gets (f : σ → α) : Routine σ α := fun s => .ret (f s) s

def modify (f : σ → σ) : Routine σ Unit := fun s => .ret () (f s)

/-- The machine stops here. -/
def halt : Routine σ α := fun _ => .halt

/-- Go on only if `p` holds. -/
def panicUnless (p : Prop) [Decidable p] : Routine σ Unit := if p then pure () else halt

/-- Leave with the state `f` makes of the present one. -/
def leave (f : σ → σ) : Routine σ α := fun s => .left (f s)

/-- Run a routine of a component on the state that contains it. -/
def zoom (get : σ → τ) (put : τ → σ → σ) (m : Routine τ α) : Routine σ α := fun s =>
  match m (get s) with
  | .ret a t => .ret a (put t s)
  | .left t => .left (put t s)
  | .halt => .halt

/-- `for (i = 0; i < n; i++) body(i)`. -/
def loop : ℕ → (ℕ → Routine σ Unit) → Routine σ Unit
  | 0, _ => pure ()
  | n+1, body => do
    loop n body
    body n

@[simp] theorem pure_run (a : α) (s : σ) : (pure a : Routine σ α) s = .ret a s := rfl

@[simp] theorem get_run (s : σ) : (get : Routine σ σ) s = .ret s s := rfl

@[simp] theorem modify_run (f : σ → σ) (s : σ) : modify f s = .ret () (f s) := rfl

@[simp] theorem halt_run (s : σ) : (halt : Routine σ α) s = .halt := rfl

@[simp] theorem leave_run (f : σ → σ) (s : σ) : (leave f : Routine σ α) s = .left (f s) := rfl

theorem bind_run (m : Routine σ α) (k : α → Routine σ β) (s : σ) :
    (m >>= k) s = match m s with
      | .ret a s' => k a s'
      | .left s' => .left s'
      | .halt => .halt := rfl

theorem bind_ret {m : Routine σ α} {k : α → Routine σ β} {s s' : σ} {a : α}
    (h : m s = .ret a s') : (m >>= k) s = k a s' := by
  rw [bind_run, h]

theorem bind_halt {m : Routine σ α} {k : α → Routine σ β} {s : σ} (h : m s = .halt) :
    (m >>= k) s = .halt := by
  rw [bind_run, h]

theorem bind_left {m : Routine σ α} {k : α → Routine σ β} {s s' : σ} (h : m s = .left s') :
    (m >>= k) s = .left s' := by
  rw [bind_run, h]

@[simp] theorem gets_bind_run (f : σ → α) (k : α → Routine σ β) (s : σ) :
    (gets f >>= k) s = k (f s) s := rfl

@[simp] theorem modify_bind_run (f : σ → σ) (k : Unit → Routine σ β) (s : σ) :
    (modify f >>= k) s = k () (f s) := rfl

@[simp] theorem pure_bind_run (a : α) (k : α → Routine σ β) (s : σ) :
    ((pure a : Routine σ α) >>= k) s = k a s := rfl

theorem panicUnless_run {p : Prop} [Decidable p] (h : p) (s : σ) : panicUnless p s = .ret () s := by
  unfold panicUnless
  rw [if_pos h]
  rfl

theorem panicUnless_bind {p : Prop} [Decidable p] (h : p) (k : Unit → Routine σ β) (s : σ) :
    (panicUnless p >>= k) s = k () s := by
  unfold panicUnless
  rw [if_pos h]
  rfl

theorem panicUnless_bind_not {p : Prop} [Decidable p] (h : ¬ p) (k : Unit → Routine σ β) (s : σ) :
    (panicUnless p >>= k) s = .halt := by
  unfold panicUnless
  rw [if_neg h]
  rfl

theorem bind_assoc_run {γ : Type} (m : Routine σ α) (k : α → Routine σ β) (l : β → Routine σ γ)
    (s : σ) : ((m >>= k) >>= l) s = (m >>= fun a => k a >>= l) s := by
  simp only [bind_run]
  cases m s <;> rfl

theorem ite_run (c : Prop) [Decidable c] (m n : Routine σ α) (s : σ) :
    (if c then m else n) s = if c then m s else n s := by
  split <;> rfl

/-- A returning composition splits into two returning halves. -/
theorem bind_eq_ret {m : Routine σ α} {k : α → Routine σ β} {s s' : σ} {b : β} :
    (m >>= k) s = .ret b s' ↔ ∃ a t, m s = .ret a t ∧ k a t = .ret b s' := by
  rw [bind_run]
  cases hm : m s with
  | ret a t => simp
  | left t => simp
  | halt => simp

/-- The invariant rule for the returns of a counted loop. -/
theorem loop_ret (I : ℕ → σ → Prop) {body : ℕ → Routine σ Unit} (n : ℕ) {s s' : σ} (h0 : I 0 s)
    (hb : ∀ i t t', i < n → I i t → body i t = .ret () t' → I (i+1) t')
    (hr : loop n body s = .ret () s') : I n s' := by
  induction n generalizing s' with
  | zero =>
    obtain ⟨-, rfl⟩ := Outcome.ret.inj hr
    exact h0
  | succ n ih =>
    obtain ⟨_, t, hl, hs⟩ := bind_eq_ret.mp hr
    exact hb n t s' (by omega) (ih (fun i t t' hi => hb i t t' (by omega)) hl) hs

/-- The same for a loop whose body always returns. -/
theorem loop_total (I : ℕ → σ → Prop) {body : ℕ → Routine σ Unit} (n : ℕ) {s : σ} (h0 : I 0 s)
    (hb : ∀ i t, i < n → I i t → ∃ t', body i t = .ret () t' ∧ I (i+1) t') :
    ∃ s', loop n body s = .ret () s' ∧ I n s' := by
  induction n with
  | zero => exact ⟨s, rfl, h0⟩
  | succ n ih =>
    obtain ⟨t, hl, ht⟩ := ih fun i t hi => hb i t (by omega)
    obtain ⟨t', hs, ht'⟩ := hb n t (by omega) ht
    exact ⟨t', (bind_ret hl).trans hs, ht'⟩

/-- From `P`, a return ends in `Q` and a leaving end in `E`. A routine that
halts owes nothing. -/
def Triple (P : σ → Prop) (m : Routine σ α) (Q : α → σ → Prop) (E : σ → Prop) : Prop :=
  ∀ s, P s → match m s with
    | .ret a s' => Q a s'
    | .left s' => E s'
    | .halt => True

namespace Triple

variable {P P' : σ → Prop} {Q Q' : α → σ → Prop} {E E' : σ → Prop}
  {m : Routine σ α} {k : α → Routine σ β} {R : β → σ → Prop}

theorem intro (h : ∀ s, P s → match m s with
    | .ret a s' => Q a s'
    | .left s' => E s'
    | .halt => True) : Triple P m Q E := h

theorem run (h : Triple P m Q E) (s : σ) (hP : P s) : match m s with
    | .ret a s' => Q a s'
    | .left s' => E s'
    | .halt => True := h s hP

theorem ret (h : Triple P m Q E) {s s' : σ} {a : α} (hP : P s) (hm : m s = .ret a s') :
    Q a s' := by
  have hs := h s hP
  rwa [hm] at hs

theorem left (h : Triple P m Q E) {s s' : σ} (hP : P s) (hm : m s = .left s') : E s' := by
  have hs := h s hP
  rwa [hm] at hs

theorem pure {a : α} (h : ∀ s, P s → Q a s) : Triple P (pure a) Q E := fun s hP => h s hP

theorem bind (hm : Triple P m Q E) (hk : ∀ a, Triple (Q a) (k a) R E) :
    Triple P (m >>= k) R E := by
  intro s hP
  have hs := hm s hP
  rw [bind_run]
  cases h : m s with
  | ret a s' =>
    rw [h] at hs
    exact hk a s' hs
  | left s' =>
    rw [h] at hs
    exact hs
  | halt => trivial

theorem conseq (h : Triple P' m Q' E') (hP : ∀ s, P s → P' s) (hQ : ∀ a s, Q' a s → Q a s)
    (hE : ∀ s, E' s → E s) : Triple P m Q E := by
  intro s hs
  have hm := h s (hP s hs)
  cases hr : m s with
  | ret a s' =>
    rw [hr] at hm
    exact hQ a s' hm
  | left s' =>
    rw [hr] at hm
    exact hE s' hm
  | halt => trivial

theorem pre (h : Triple P' m Q E) (hP : ∀ s, P s → P' s) : Triple P m Q E :=
  h.conseq hP (fun _ _ hq => hq) (fun _ he => he)

theorem post (h : Triple P m Q' E) (hQ : ∀ a s, Q' a s → Q a s) : Triple P m Q E :=
  h.conseq (fun _ hp => hp) hQ (fun _ he => he)

theorem exists_pre {ι : Type} {P : ι → σ → Prop} (h : ∀ i, Triple (P i) m Q E) :
    Triple (fun s => ∃ i, P i s) m Q E := fun s ⟨i, hi⟩ => h i s hi

/-- A fact about the state that is none of it may be assumed. -/
theorem assume {p : Prop} (h : p → Triple P m Q E) (hp : ∀ s, P s → p) : Triple P m Q E :=
  fun s hs => h (hp s hs) s hs

theorem gets {f : σ → α} (h : ∀ s, P s → Q (f s) s) : Triple P (Routine.gets f) Q E :=
  fun s hP => h s hP

theorem gets_same (f : σ → α) : Triple P (Routine.gets f) (fun _ => P) E := gets fun _ h => h

theorem modify {f : σ → σ} {Q : Unit → σ → Prop} (h : ∀ s, P s → Q () (f s)) :
    Triple P (Routine.modify f) Q E := fun s hP => h s hP

theorem halt : Triple P (Routine.halt : Routine σ α) Q E := fun _ _ => trivial

theorem leave {f : σ → σ} (h : ∀ s, P s → E (f s)) :
    Triple P (Routine.leave f : Routine σ α) Q E := fun s hP => h s hP

theorem ite {c : Prop} [Decidable c] {m n : Routine σ α}
    (ht : Triple (fun s => P s ∧ c) m Q E) (hf : Triple (fun s => P s ∧ ¬ c) n Q E) :
    Triple P (if c then m else n) Q E := by
  split
  · exact ht.pre fun s hs => ⟨hs, ‹_›⟩
  · exact hf.pre fun s hs => ⟨hs, ‹_›⟩

/-- A condition that the state has no part in. -/
theorem ite_cases {c : Prop} [Decidable c] {m n : Routine σ α} (ht : c → Triple P m Q E)
    (hf : ¬ c → Triple P n Q E) : Triple P (if c then m else n) Q E :=
  ite (fun s hs => ht hs.2 s hs.1) fun s hs => hf hs.2 s hs.1

/-- A conditional statement in front of the rest `k` of a routine. -/
theorem ite_bind {c : Prop} [Decidable c] {a : α} (ht : Triple (fun s => P s ∧ c) m Q E)
    (hf : ∀ s, P s ∧ ¬ c → Q a s) (hk : ∀ a, Triple (Q a) (k a) R E) :
    Triple P (if c then m >>= k else k a) R E :=
  ite (bind ht hk) ((hk a).pre hf)

theorem ite_same {c : Prop} [Decidable c] {m n : Routine σ α} (ht : Triple P m Q E)
    (hf : Triple P n Q E) : Triple P (if c then m else n) Q E := by
  split
  · exact ht
  · exact hf

/-- A routine of a component keeps what holds of the rest of the state. -/
theorem zoom {get : σ → τ} {put : τ → σ → σ} {m : Routine τ α} {P₀ : τ → Prop}
    {Q₀ : α → τ → Prop} {E₀ : τ → Prop} (h : Triple P₀ m Q₀ E₀)
    (hP : ∀ s, P s → P₀ (get s)) (hQ : ∀ s a t, P s → Q₀ a t → Q a (put t s))
    (hE : ∀ s t, P s → E₀ t → E (put t s)) : Triple P (zoom get put m) Q E := by
  intro s hs
  have hm := h (get s) (hP s hs)
  unfold Routine.zoom
  cases hr : m (get s) with
  | ret a t =>
    rw [hr] at hm
    exact hQ s a t hs hm
  | left t =>
    rw [hr] at hm
    exact hE s t hs hm
  | halt => trivial

/-- The invariant rule for a counted loop. -/
theorem loop {I : ℕ → σ → Prop} {body : ℕ → Routine σ Unit} (n : ℕ)
    (hb : ∀ i, i < n → Triple (I i) (body i) (fun _ => I (i+1)) E) :
    Triple (I 0) (loop n body) (fun _ => I n) E := by
  induction n with
  | zero => exact pure fun _ h => h
  | succ n ih =>
    exact bind (ih fun i hi => hb i (by omega)) fun _ => hb n (by omega)

end Triple

/-- A routine that returns or halts, but does not leave for good. -/
def Stays (m : Routine σ α) : Prop := ∀ s s', m s ≠ .left s'

namespace Stays

variable {m : Routine σ α} {k : α → Routine σ β}

theorem pure (a : α) : Stays (pure a : Routine σ α) := fun _ _ h => by cases h

theorem gets (f : σ → α) : Stays (Routine.gets f) := fun _ _ h => by cases h

theorem modify (f : σ → σ) : Stays (Routine.modify f) := fun _ _ h => by cases h

theorem halt : Stays (Routine.halt : Routine σ α) := fun _ _ h => by cases h

theorem bind (hm : Stays m) (hk : ∀ a, Stays (k a)) : Stays (m >>= k) := by
  intro s s' h
  rw [bind_run] at h
  cases hr : m s with
  | ret a t =>
    rw [hr] at h
    exact hk a t s' h
  | left t => exact hm s t hr
  | halt =>
    rw [hr] at h
    cases h

theorem ite {c : Prop} [Decidable c] {m n : Routine σ α} (hm : Stays m) (hn : Stays n) :
    Stays (if c then m else n) := by
  split
  · exact hm
  · exact hn

theorem loop {body : ℕ → Routine σ Unit} (hb : ∀ i, Stays (body i)) (n : ℕ) :
    Stays (Routine.loop n body) := by
  induction n with
  | zero => exact pure ()
  | succ n ih => exact bind ih fun _ => hb n

theorem zoom {get : σ → τ} {put : τ → σ → σ} {m : Routine τ α} (hm : Stays m) :
    Stays (Routine.zoom get put m) := by
  intro s s' h
  unfold Routine.zoom at h
  cases hr : m (get s) with
  | ret a t => simp only [hr, reduceCtorEq] at h
  | left t => exact hm _ t hr
  | halt => simp only [hr, reduceCtorEq] at h

end Stays

/-- A routine that returns in the state it was called in. -/
def Reads (m : Routine σ α) : Prop := ∀ s a s', m s = .ret a s' → s' = s

namespace Reads

variable {m : Routine σ α} {k : α → Routine σ β}

theorem pure (a : α) : Reads (pure a : Routine σ α) := fun _ _ _ h => (Outcome.ret.inj h).2.symm

theorem gets (f : σ → α) : Reads (Routine.gets f) := fun _ _ _ h => (Outcome.ret.inj h).2.symm

theorem bind (hm : Reads m) (hk : ∀ a, Reads (k a)) : Reads (m >>= k) := by
  intro s b s' h
  obtain ⟨a, t, ht, hs⟩ := bind_eq_ret.mp h
  rw [hk a t b s' hs, hm s a t ht]

theorem ite {c : Prop} [Decidable c] {m n : Routine σ α} (hm : Reads m) (hn : Reads n) :
    Reads (if c then m else n) := by
  split
  · exact hm
  · exact hn

end Reads

/-- For a routine that stays, a triple is about its returns. -/
theorem Triple.of_ret {P : σ → Prop} {m : Routine σ α} {Q : α → σ → Prop} {E : σ → Prop}
    (hm : Stays m) (h : ∀ s a s', P s → m s = .ret a s' → Q a s') : Triple P m Q E := by
  intro s hs
  cases hr : m s with
  | ret a s' => exact h s a s' hs hr
  | left s' => exact absurd hr (hm s s')
  | halt => trivial

attribute [irreducible] Triple

end Routine

/-- The states a system reaches from its initial ones. -/
inductive Reachable {σ : Type} (init : σ → Prop) (step : σ → σ → Prop) : σ → Prop where
  | init {s : σ} (h : init s) : Reachable init step s
  | step {s s' : σ} (h : Reachable init step s) (hs : step s s') : Reachable init step s'

/-- More initial states and more steps reach more states. -/
theorem Reachable.mono {σ : Type} {init init' : σ → Prop} {step step' : σ → σ → Prop} {s : σ}
    (h : Reachable init step s) (hi : ∀ s, init s → init' s) (hs : ∀ s s', step s s' → step' s s') :
    Reachable init' step' s := by
  induction h with
  | init h => exact .init (hi _ h)
  | step _ hst ih => exact ih.step (hs _ _ hst)

/-- What holds at first and is kept by every step holds in every reachable state. -/
theorem Reachable.invariant {σ : Type} {init : σ → Prop} {step : σ → σ → Prop} {I : σ → Prop}
    (h0 : ∀ s, init s → I s) (hs : ∀ s s', I s → step s s' → I s') {s : σ}
    (h : Reachable init step s) : I s := by
  induction h with
  | init h => exact h0 _ h
  | step _ hst ih => exact hs _ _ ih hst

end Sisop
