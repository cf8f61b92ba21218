import Sisop.Mmu

/-! `stab_binsearch` of `kern/kdebug.c`: a binary search among the stabs of one type, which
stand between others. -/
namespace Sisop

/-- `struct Stab`. -/
structure Stab where
  nStrx : Word
  nType : BitVec 8
  nOther : BitVec 8
  nDesc : BitVec 16
  nValue : Word

/-- `while (m >= l && !p(m)) m--;`, and what `m` is then. -/
def scanBack (p : ℤ → Prop) [DecidablePred p] (l m : ℤ) : ℤ :=
  if l ≤ m ∧ ¬ p m then scanBack p l (m - 1) else m
termination_by (m - l + 1).toNat
decreasing_by omega

/-- The variables of `stab_binsearch`, with what `region_left` and `region_right` point to.
An `int` has room for the sum of two indices of an array of stabs. -/
structure StabState where
  l : ℤ
  r : ℤ
  regionLeft : ℤ
  regionRight : ℤ
  addr : Word
  anyMatches : Bool

section Search

variable (stabs : ℤ → Stab) (type : ℤ)

/-- `stabs[i].n_type == type`. -/
def IsType (i : ℤ) : Prop := ((stabs i).nType.toNat : ℤ) = type

instance (i : ℤ) : Decidable (IsType stabs type i) := inferInstanceAs (Decidable (_ = _))

def trueMid (l r : ℤ) : ℤ := (l + r).tdiv 2

/-- One round of the loop. -/
def stabRound (s : StabState) : StabState :=
  let m := scanBack (IsType stabs type) s.l (trueMid s.l s.r)
  if m < s.l then
    { s with l := trueMid s.l s.r + 1 }
  else if (stabs m).nValue < s.addr then
    { s with anyMatches := true, regionLeft := m, l := trueMid s.l s.r + 1 }
  else if s.addr < (stabs m).nValue then
    { s with anyMatches := true, regionRight := m - 1, r := m - 1 }
  else
    { s with anyMatches := true, regionLeft := m, l := m, addr := s.addr + 1#32 }

/-- How far the loop has to go. A match leaves the range as it is when it is at its left end. -/
def stabMeasure (s : StabState) : ℕ :=
  2 * (s.r - s.l + 1).toNat + if (stabs s.l).nValue = s.addr then 1 else 0

variable {stabs type} {s : StabState} {l m r i : ℤ}

theorem trueMid_bounds (h : l ≤ r) : l ≤ trueMid l r ∧ trueMid l r ≤ r := by
  unfold trueMid
  by_cases h0 : 0 ≤ l + r
  · rw [Int.tdiv_eq_ediv_of_nonneg h0]
    omega
  · have hneg : (l + r).tdiv 2 = -((-(l + r)) / 2) := by
      rw [← Int.tdiv_eq_ediv_of_nonneg (by omega), Int.neg_tdiv, neg_neg]
    rw [hneg]
    omega

theorem scanBack_spec (p : ℤ → Prop) [DecidablePred p] (h : l ≤ m + 1) :
    scanBack p l m ≤ m ∧ (∀ i, scanBack p l m < i → i ≤ m → ¬ p i) ∧
      (scanBack p l m = l - 1 ∨ l ≤ scanBack p l m ∧ p (scanBack p l m)) := by
  fun_induction scanBack p l m with
  | case1 m hm ih =>
    obtain ⟨hle, hnone, hend⟩ := ih (by omega)
    refine ⟨by omega, fun i hi him => ?_, hend⟩
    by_cases heq : i = m
    · rw [heq]
      exact hm.2
    · exact hnone i hi (by omega)
  | case2 m hm =>
    refine ⟨Int.le_refl m, fun i hi him => absurd hi (by omega), ?_⟩
    by_cases hlm : l ≤ m
    · exact Or.inr ⟨hlm, by_contra fun hp => hm ⟨hlm, hp⟩⟩
    · exact Or.inl (by omega)

theorem scanBack_of_lt (p : ℤ → Prop) [DecidablePred p] (h : m < l) : scanBack p l m = m := by
  rw [scanBack, if_neg]
  omega

/-- A round looks at the last stab of the type up to the middle of the range. -/
theorem stabRound_cases (h : s.l ≤ s.r) :
    ((∀ i, s.l ≤ i → i ≤ trueMid s.l s.r → ¬ IsType stabs type i) ∧
      stabRound stabs type s = { s with l := trueMid s.l s.r + 1 }) ∨
    ∃ m, s.l ≤ m ∧ m ≤ trueMid s.l s.r ∧ IsType stabs type m ∧
      (∀ i, m < i → i ≤ trueMid s.l s.r → ¬ IsType stabs type i) ∧
      ((stabs m).nValue < s.addr ∧ stabRound stabs type s =
          { s with anyMatches := true, regionLeft := m, l := trueMid s.l s.r + 1 } ∨
        s.addr < (stabs m).nValue ∧ stabRound stabs type s =
          { s with anyMatches := true, regionRight := m - 1, r := m - 1 } ∨
        (stabs m).nValue = s.addr ∧ stabRound stabs type s =
          { s with anyMatches := true, regionLeft := m, l := m, addr := s.addr + 1#32 }) := by
  have hmid := trueMid_bounds h
  obtain ⟨hle, hnone, hend⟩ := scanBack_spec (IsType stabs type) (show s.l ≤ trueMid s.l s.r + 1 by omega)
  unfold stabRound
  rcases hend with hend | ⟨hlm, htype⟩
  · left
    rw [hend] at hnone
    refine ⟨fun i hi him => hnone i (by omega) him, ?_⟩
    rw [if_pos (by omega)]
  · right
    refine ⟨_, hlm, hle, htype, hnone, ?_⟩
    rw [if_neg (by omega)]
    by_cases hlt : (stabs (scanBack (IsType stabs type) s.l (trueMid s.l s.r))).nValue < s.addr
    · left
      rw [if_pos hlt]
      exact ⟨hlt, rfl⟩
    · right
      rw [if_neg hlt]
      by_cases hgt : s.addr < (stabs (scanBack (IsType stabs type) s.l (trueMid s.l s.r))).nValue
      · left
        rw [if_pos hgt]
        exact ⟨hgt, rfl⟩
      · right
        rw [if_neg hgt]
        exact ⟨BitVec.le_antisymm (BitVec.not_lt.mp hgt) (BitVec.not_lt.mp hlt), rfl⟩

theorem stabMeasure_round (h : s.l ≤ s.r) : stabMeasure stabs (stabRound stabs type s) < stabMeasure stabs s := by
  have hmid := trueMid_bounds h
  unfold stabMeasure
  rcases @stabRound_cases stabs type s h with ⟨-, heq⟩ |
    ⟨m, hlm, hmm, -, -, ⟨-, heq⟩ | ⟨-, heq⟩ | ⟨hval, heq⟩⟩
  · rw [heq]
    dsimp only
    split_ifs <;> omega
  · rw [heq]
    dsimp only
    split_ifs <;> omega
  · rw [heq]
    dsimp only
    split_ifs <;> omega
  · have hne : (stabs m).nValue ≠ s.addr + 1#32 := by
      rw [hval]
      bv_omega
    rw [heq]
    dsimp only
    rw [if_neg hne]
    by_cases hm : m = s.l
    · rw [← hm, if_pos hval]
      omega
    · split_ifs <;> omega

variable (stabs type)

/-- `while (l <= r)`. -/
def stabLoop (s : StabState) : StabState :=
  if s.l ≤ s.r then stabLoop (stabRound stabs type s) else s
termination_by stabMeasure stabs s
decreasing_by exact stabMeasure_round ‹_›

/-- What comes after the loop. -/
def stabFinish (s : StabState) : ℤ × ℤ :=
  if s.anyMatches then
    (scanBack (IsType stabs type) (s.regionLeft + 1) s.regionRight, s.regionRight)
  else
    (s.regionLeft, s.regionLeft - 1)

/-- `stab_binsearch`, with what `region_left` and `region_right` point to in the end. -/
def stabBinsearch (regionLeft regionRight : ℤ) (addr : Word) : ℤ × ℤ :=
  stabFinish stabs type (stabLoop stabs type ⟨regionLeft, regionRight, regionLeft, regionRight, addr, false⟩)

variable {stabs type}

theorem stabLoop_step (h : s.l ≤ s.r) : stabLoop stabs type s = stabLoop stabs type (stabRound stabs type s) := by
  rw [stabLoop, if_pos h]

theorem stabLoop_done (h : ¬ s.l ≤ s.r) : stabLoop stabs type s = s := by
  rw [stabLoop, if_neg h]

end Search

/-- The state after a match. -/
def StabState.hit (s : StabState) (m : ℤ) : StabState :=
  { s with anyMatches := true, regionLeft := m, l := m, addr := s.addr + 1#32 }

section Invariant

variable (stabs : ℤ → Stab) (type L R : ℤ)

/-- The stabs of the type in the range are in the order of their values. -/
def InOrder : Prop :=
  ∀ i j, L ≤ i → i < j → j ≤ R → IsType stabs type i → IsType stabs type j →
    (stabs i).nValue < (stabs j).nValue

/-- What the search knows: on the left of its range values are smaller than `addr`, on the
right of it they are not. -/
structure StabInv (s : StabState) : Prop where
  lo : L ≤ s.l
  next : s.l ≤ s.r + 1
  hi : s.r ≤ R
  right : s.regionRight = s.r
  below : ∀ i, L ≤ i → i < s.l → IsType stabs type i → (stabs i).nValue < s.addr
  above : ∀ i, s.r < i → i ≤ R → IsType stabs type i → s.addr ≤ (stabs i).nValue
  edge : s.r = R ∨ IsType stabs type (s.r + 1)
  left : s.regionLeft = L ∨ L ≤ s.regionLeft ∧ s.regionLeft ≤ s.r ∧ IsType stabs type s.regionLeft ∧
    (stabs s.regionLeft).nValue < s.addr
  any : s.anyMatches = false → s.regionLeft = L ∧ s.r = R ∧ ∀ i, L ≤ i → i < s.l → ¬ IsType stabs type i
  some : s.anyMatches = true → ∃ i, L ≤ i ∧ i ≤ R ∧ IsType stabs type i

variable {stabs type L R} {s : StabState} {p q m : ℤ}

theorem InOrder.lt_of_value (h : InOrder stabs type L R) (hp : L ≤ p) (hpt : IsType stabs type p) (hpR : p ≤ R)
    (hq : L ≤ q) (hqt : IsType stabs type q) (hlt : (stabs p).nValue < (stabs q).nValue) : p < q := by
  by_contra hle
  rcases Int.lt_or_eq_of_le (Int.not_lt.mp hle) with hgt | rfl
  · exact absurd hlt (BitVec.lt_asymm (h q p hq hgt hpR hqt hpt))
  · exact absurd hlt (BitVec.lt_irrefl _)

/-- The state after a round that looks at a smaller value. -/
theorem StabInv.smaller (h : StabInv stabs type L R s) (hord : InOrder stabs type L R) {t : ℤ} (hle : s.l ≤ m)
    (hmt : m ≤ t) (htr : t ≤ s.r) (htype : IsType stabs type m)
    (hnone : ∀ i, m < i → i ≤ t → ¬ IsType stabs type i) (hval : (stabs m).nValue < s.addr) :
    StabInv stabs type L R { s with anyMatches := true, regionLeft := m, l := t + 1 } := by
  have hlo := h.lo
  have hhi := h.hi
  refine ⟨?_, ?_, h.hi, h.right, fun i hi hit hti => ?_, h.above, h.edge, Or.inr ⟨?_, ?_, htype, hval⟩,
    fun hany => (by cases hany), fun _ => ⟨m, by omega, by omega, htype⟩⟩
  · change L ≤ t + 1
    omega
  · change t + 1 ≤ s.r + 1
    omega
  · change i < t + 1 at hit
    change (stabs i).nValue < s.addr
    rcases Int.lt_trichotomy i m with him | rfl | him
    · exact BitVec.lt_trans (hord i m hi him (by omega) hti htype) hval
    · exact hval
    · exact absurd hti (hnone i him (by omega))
  · change L ≤ m
    omega
  · change m ≤ s.r
    omega

/-- The state after a round that looks at a larger value. -/
theorem StabInv.larger (h : StabInv stabs type L R s) (hord : InOrder stabs type L R) (hle : s.l ≤ m)
    (hmr : m ≤ s.r) (htype : IsType stabs type m) (hval : s.addr < (stabs m).nValue) :
    StabInv stabs type L R { s with anyMatches := true, regionRight := m - 1, r := m - 1 } := by
  have hlo := h.lo
  have hhi := h.hi
  have hmem : L ≤ m ∧ m ≤ R := by omega
  refine ⟨h.lo, ?_, ?_, rfl, h.below, fun i hi hiR hti => ?_, Or.inr ?_, ?_, fun hany => (by cases hany),
    fun _ => ⟨m, hmem.1, hmem.2, htype⟩⟩
  · change s.l ≤ m - 1 + 1
    omega
  · change m - 1 ≤ R
    omega
  · change m - 1 < i at hi
    change s.addr ≤ (stabs i).nValue
    rcases Int.lt_or_eq_of_le (show m ≤ i by omega) with him | rfl
    · exact BitVec.le_of_lt (BitVec.lt_trans hval (hord m i hmem.1 him hiR htype hti))
    · exact BitVec.le_of_lt hval
  · change IsType stabs type (m - 1 + 1)
    rw [Int.sub_add_cancel]
    exact htype
  · rcases h.left with heq | ⟨h1, h2, h3, h4⟩
    · exact Or.inl heq
    · right
      refine ⟨h1, ?_, h3, h4⟩
      have hlt := hord.lt_of_value h1 h3 (by omega) hmem.1 htype (BitVec.lt_trans h4 hval)
      change s.regionLeft ≤ m - 1
      omega

/-- The state after a match, unless the address wraps around. -/
theorem StabInv.hit (h : StabInv stabs type L R s) (hord : InOrder stabs type L R) (hle : s.l ≤ m)
    (hmr : m ≤ s.r) (htype : IsType stabs type m) (hval : (stabs m).nValue = s.addr) (hwrap : s.addr + 1#32 ≠ 0#32) :
    StabInv stabs type L R (s.hit m) := by
  have hlo := h.lo
  have hhi := h.hi
  have hstep {w : Word} (hw : w ≤ s.addr) : w < s.addr + 1#32 := by bv_omega
  have hmem : L ≤ m ∧ m ≤ R := by omega
  refine ⟨hmem.1, ?_, h.hi, h.right, fun i hi him hti => ?_, fun i hi hiR hti => ?_, h.edge,
    Or.inr ⟨hmem.1, hmr, htype, hstep (BitVec.le_of_eq hval)⟩, fun hany => (by cases hany),
    fun _ => ⟨m, hmem.1, hmem.2, htype⟩⟩
  · change m ≤ s.r + 1
    omega
  · apply hstep
    rw [← hval]
    exact BitVec.le_of_lt (hord i m hi him hmem.2 hti htype)
  · change s.r < i at hi
    change s.addr + 1#32 ≤ (stabs i).nValue
    have hlt := hord m i hmem.1 (by omega) hiR htype hti
    rw [hval] at hlt
    bv_omega

theorem StabInv.none (h : StabInv stabs type L R s) {t : ℤ} (hlt : s.l ≤ t) (htr : t ≤ s.r)
    (hnone : ∀ i, s.l ≤ i → i ≤ t → ¬ IsType stabs type i) : StabInv stabs type L R { s with l := t + 1 } := by
  have hlo := h.lo
  refine ⟨?_, ?_, h.hi, h.right, fun i hi hit hti => ?_, h.above, h.edge, h.left, fun hany => ?_, h.some⟩
  · change L ≤ t + 1
    omega
  · change t + 1 ≤ s.r + 1
    omega
  · change i < t + 1 at hit
    by_cases hil : i < s.l
    · exact h.below i hi hil hti
    · exact absurd hti (hnone i (by omega) (by omega))
  · obtain ⟨h1, h2, h3⟩ := h.any hany
    refine ⟨h1, h2, fun i hi hit => ?_⟩
    change i < t + 1 at hit
    by_cases hil : i < s.l
    · exact h3 i hi hil
    · exact hnone i (by omega) (by omega)

/-- The loop without a match. -/
theorem StabInv.loop (h : StabInv stabs type L R s) (hord : InOrder stabs type L R)
    (hno : ∀ i, s.l ≤ i → i ≤ s.r → IsType stabs type i → (stabs i).nValue ≠ s.addr) :
    StabInv stabs type L R (stabLoop stabs type s) ∧ (stabLoop stabs type s).addr = s.addr ∧
      (stabLoop stabs type s).l = (stabLoop stabs type s).r + 1 ∧
      ∀ q, q ≤ s.l → q ≤ s.regionLeft → q ≤ (stabLoop stabs type s).regionLeft := by
  induction hn : stabMeasure stabs s using Nat.strong_induction_on generalizing s with
  | _ n ih =>
    subst hn
    by_cases hle : s.l ≤ s.r
    swap
    · have hnext := h.next
      rw [stabLoop_done hle]
      exact ⟨h, rfl, by omega, fun q _ hq => hq⟩
    have hmid := trueMid_bounds hle
    have hsmall := @stabMeasure_round stabs type s hle
    rw [stabLoop_step hle]
    rcases @stabRound_cases stabs type s hle with ⟨hnone, heq⟩ |
      ⟨m, hlm, hmm, htype, hnone, ⟨hval, heq⟩ | ⟨hval, heq⟩ | ⟨hval, heq⟩⟩
    · rw [heq] at hsmall ⊢
      obtain ⟨h1, h2, h3, h4⟩ := ih _ hsmall (h.none hmid.1 hmid.2 hnone)
        (fun i hi => hno i (by change trueMid s.l s.r + 1 ≤ i at hi; omega)) rfl
      refine ⟨h1, h2, h3, fun q hql => h4 q ?_⟩
      change q ≤ trueMid s.l s.r + 1
      omega
    · rw [heq] at hsmall ⊢
      obtain ⟨h1, h2, h3, h4⟩ := ih _ hsmall (h.smaller hord hlm hmm hmid.2 htype hnone hval)
        (fun i hi => hno i (by change trueMid s.l s.r + 1 ≤ i at hi; omega)) rfl
      refine ⟨h1, h2, h3, fun q hql _ => h4 q ?_ (Int.le_trans hql hlm)⟩
      change q ≤ trueMid s.l s.r + 1
      omega
    · rw [heq] at hsmall ⊢
      obtain ⟨h1, h2, h3, h4⟩ := ih _ hsmall (h.larger hord hlm (by omega) htype hval)
        (fun i hi hir => hno i hi (by change i ≤ m - 1 at hir; omega)) rfl
      exact ⟨h1, h2, h3, h4⟩
    · exact absurd hval (hno m hlm (by omega) htype)

end Invariant

/-- Bisection of the range from `l` to `r` tries stab `p` before the next one of its type, `q`. -/
inductive TriedFirst (typed : ℤ → Prop) (p q : ℤ) : ℤ → ℤ → Prop where
  | here {l r : ℤ} (hp : p ≤ trueMid l r) (hq : trueMid l r < q) (hr : q ≤ r) : TriedFirst typed p q l r
  | right {l r : ℤ} (hp : trueMid l r < p) (h : TriedFirst typed p q (trueMid l r + 1) r) : TriedFirst typed p q l r
  | left {l r m : ℤ} (hq : q < m) (hm : m ≤ trueMid l r) (hr : m ≤ r) (ht : typed m)
    (hnone : ∀ i, m < i → i ≤ trueMid l r → ¬ typed i) (h : TriedFirst typed p q l (m - 1)) : TriedFirst typed p q l r

section Matches

variable {stabs : ℤ → Stab} {type L R : ℤ} {s : StabState} {l r p q : ℤ}

theorem TriedFirst.le {typed : ℤ → Prop} (h : TriedFirst typed p q l r) : q ≤ r := by
  induction h with
  | here _ _ hr => exact hr
  | right _ _ ih => exact ih
  | left _ _ hr _ _ _ ih => omega

theorem triedFirst_up {typed : ℤ → Prop} (hpq : p < q) (hmid : trueMid l r < p) :
    TriedFirst typed p q l r ↔ TriedFirst typed p q (trueMid l r + 1) r := by
  constructor
  · intro h
    cases h with
    | here hp => exact absurd hp (by omega)
    | right _ h => exact h
    | left hq hm => exact absurd hm (by omega)
  · exact TriedFirst.right hmid

theorem triedFirst_down {typed : ℤ → Prop} {m : ℤ} (hpq : p < q) (hq : q < m) (hm : m ≤ trueMid l r)
    (hr : m ≤ r) (ht : typed m) (hnone : ∀ i, m < i → i ≤ trueMid l r → ¬ typed i) :
    TriedFirst typed p q l r ↔ TriedFirst typed p q l (m - 1) := by
  constructor
  · intro h
    cases h with
    | here _ hmq => exact absurd hmq (by omega)
    | right hmp => exact absurd hmp (by omega)
    | @left _ _ m' hq' hm' _ ht' hnone' h =>
      rcases Int.lt_trichotomy m m' with hlt | rfl | hlt
      · exact absurd ht' (hnone m' hlt hm')
      · exact h
      · exact absurd ht (hnone' m hlt hm)
  · exact TriedFirst.left hq hm hr ht hnone

/-- The later one of the two is tried. -/
theorem not_triedFirst {typed : ℤ → Prop} (hpq : p < q) (hm : q ≤ trueMid l r)
    (hnone : ∀ i, q < i → i ≤ trueMid l r → ¬ typed i) : ¬ TriedFirst typed p q l r := by
  intro h
  cases h with
  | here _ hmq => exact absurd hmq (by omega)
  | right hmp => exact absurd hmp (by omega)
  | @left _ _ m' hq' hm' _ ht' => exact hnone m' hq' hm' ht'

/-- A stab with the address that is searched for is found. The next one is still in the
range then if it has not been tried before. -/
theorem StabInv.reach (h : StabInv stabs type L R s) (hord : InOrder stabs type L R) (hlp : s.l ≤ p) (hpr : p ≤ s.r)
    (hpt : IsType stabs type p) (hval : (stabs p).nValue = s.addr) :
    ∃ t, StabInv stabs type L R t ∧ t.addr = s.addr ∧ t.l ≤ p ∧ p ≤ t.r ∧ t.r ≤ s.r ∧
      stabLoop stabs type s = stabLoop stabs type (t.hit p) ∧
      ∀ q, p < q → IsType stabs type q → (∀ i, p < i → i < q → ¬ IsType stabs type i) →
        (TriedFirst (IsType stabs type) p q s.l s.r ↔ q ≤ t.r) := by
  induction hn : stabMeasure stabs s using Nat.strong_induction_on generalizing s with
  | _ n ih =>
    subst hn
    have hle : s.l ≤ s.r := Int.le_trans hlp hpr
    have hlo := h.lo
    have hhi := h.hi
    have hpR : p ≤ R := Int.le_trans hpr hhi
    have hmid := trueMid_bounds hle
    have hsmall := @stabMeasure_round stabs type s hle
    rw [stabLoop_step hle]
    rcases @stabRound_cases stabs type s hle with ⟨hnone, heq⟩ |
      ⟨m, hlm, hmm, htype, hnone, ⟨hm, heq⟩ | ⟨hm, heq⟩ | ⟨hm, heq⟩⟩
    · have hup : trueMid s.l s.r < p := by
        by_contra hge
        exact hnone p hlp (by omega) hpt
      rw [heq] at hsmall ⊢
      obtain ⟨t, h1, h2, h3, h4, h5, h6, h7⟩ := ih _ hsmall (h.none hmid.1 hmid.2 hnone)
        (by change trueMid s.l s.r + 1 ≤ p; omega) hpr hval rfl
      exact ⟨t, h1, h2, h3, h4, h5, h6, fun q hpq hqt hq => (triedFirst_up hpq hup).trans (h7 q hpq hqt hq)⟩
    · have hmp : m < p := hord.lt_of_value (by omega) htype (by omega) (by omega) hpt (by rw [hval]; exact hm)
      have hup : trueMid s.l s.r < p := by
        by_contra hge
        exact hnone p hmp (by omega) hpt
      rw [heq] at hsmall ⊢
      obtain ⟨t, h1, h2, h3, h4, h5, h6, h7⟩ := ih _ hsmall (h.smaller hord hlm hmm hmid.2 htype hnone hm)
        (by change trueMid s.l s.r + 1 ≤ p; omega) hpr hval rfl
      exact ⟨t, h1, h2, h3, h4, h5, h6, fun q hpq hqt hq => (triedFirst_up hpq hup).trans (h7 q hpq hqt hq)⟩
    · have hpm : p < m := hord.lt_of_value (by omega) hpt hpR (by omega) htype (by rw [hval]; exact hm)
      rw [heq] at hsmall ⊢
      obtain ⟨t, h1, h2, h3, h4, h5, h6, h7⟩ := ih _ hsmall (h.larger hord hlm (by omega) htype hm)
        hlp (by change p ≤ m - 1; omega) hval rfl
      have hrm : t.r ≤ m - 1 := h5
      refine ⟨t, h1, h2, h3, h4, by omega, h6, fun q hpq hqt hq => ?_⟩
      rcases Int.lt_trichotomy q m with hqm | rfl | hqm
      · exact (triedFirst_down hpq hqm hmm (by omega) htype hnone).trans (h7 q hpq hqt hq)
      · exact ⟨fun ht => absurd ht (not_triedFirst hpq hmm hnone), fun hqr => absurd hqr (by omega)⟩
      · exact absurd htype (hq m hpm hqm)
    · have hmp : m = p := by
        rcases Int.lt_trichotomy m p with hlt | heq | hlt
        · have hv := hord m p (by omega) hlt hpR htype hpt
          rw [hm, hval] at hv
          exact absurd hv (BitVec.lt_irrefl _)
        · exact heq
        · have hv := hord p m (by omega) hlt (by omega) hpt htype
          rw [hm, hval] at hv
          exact absurd hv (BitVec.lt_irrefl _)
      subst hmp
      refine ⟨s, h, rfl, hlm, hpr, Int.le_refl _, by rw [heq]; rfl, fun q hpq hqt hq => ⟨TriedFirst.le, fun hqr => ?_⟩⟩
      apply TriedFirst.here hmm _ hqr
      by_contra hge
      exact hnone q hpq (by omega) hqt

/-- What comes after the loop, when some stab of the type is not past the address. -/
theorem StabInv.finish_found (h : StabInv stabs type L R s) (hl : s.l = s.r + 1) (hp : L ≤ p) (hpR : p ≤ R)
    (hpt : IsType stabs type p) (hval : (stabs p).nValue < s.addr)
    (hlast : ∀ i, p < i → i ≤ R → IsType stabs type i → s.addr ≤ (stabs i).nValue) :
    stabFinish stabs type s = (p, s.r) ∧ p ≤ s.r ∧ (∀ i, p < i → i ≤ s.r → ¬ IsType stabs type i) ∧
      (s.r = R ∨ s.r < R ∧ IsType stabs type (s.r + 1)) := by
  have hhi := h.hi
  have hpr : p ≤ s.r := by
    by_contra hgt
    exact absurd hval (BitVec.not_lt.mpr (h.above p (by omega) hpR hpt))
  have hnone (i : ℤ) (hi : p < i) (hir : i ≤ s.r) : ¬ IsType stabs type i := by
    intro hti
    exact absurd (h.below i (by omega) (by omega) hti) (BitVec.not_lt.mpr (hlast i hi (by omega) hti))
  have hany : s.anyMatches = true := by
    apply Bool.eq_true_of_not_eq_false
    intro hany
    exact (h.any hany).2.2 p hp (by omega) hpt
  have hleft : s.regionLeft ≤ p := by
    rcases h.left with heq | ⟨-, hle, ht, -⟩
    · omega
    · by_contra hgt
      exact hnone _ (by omega) hle ht
  refine ⟨?_, hpr, hnone, ?_⟩
  · unfold stabFinish
    rw [if_pos hany, h.right]
    obtain ⟨hle, hno, hend⟩ := scanBack_spec (IsType stabs type) (show s.regionLeft + 1 ≤ s.r + 1 by omega)
    -- the scan back from the end of the region stops at the stab, or it has got there before
    have heq : scanBack (IsType stabs type) (s.regionLeft + 1) s.r = p := by
      rcases hend with hend | ⟨hge, ht⟩
      · by_contra hne
        exact hno p (by omega) hpr hpt
      · rcases Int.lt_trichotomy (scanBack (IsType stabs type) (s.regionLeft + 1) s.r) p with hlt | heq | hlt
        · exact absurd hpt (hno p hlt hpr)
        · exact heq
        · exact absurd ht (hnone _ hlt hle)
    rw [heq]
  · rcases h.edge with heq | ht
    · exact Or.inl heq
    · by_cases heq : s.r = R
      · exact Or.inl heq
      · exact Or.inr ⟨by omega, ht⟩

/-- After a match of the largest address the search is for address 0. It takes back the match. -/
theorem stabFinish_wrap (hle : p ≤ s.r) (hpt : IsType stabs type p) (hnone : ∀ i, p < i → i ≤ s.r → ¬ IsType stabs type i)
    (hval : (stabs p).nValue = s.addr) (hwrap : s.addr + 1#32 = 0#32) :
    stabFinish stabs type (stabLoop stabs type (s.hit p)) = (p - 1, p - 1) := by
  have hmid := trueMid_bounds hle
  have hround : stabRound stabs type (s.hit p) = ⟨p, p - 1, p, p - 1, 0#32, true⟩ := by
    rcases @stabRound_cases stabs type (s.hit p) (show (s.hit p).l ≤ (s.hit p).r from hle) with ⟨hno, -⟩ |
      ⟨m, hlm, hmm, htype, -, hcase⟩
    · exact absurd hpt (hno p (Int.le_refl p) hmid.1)
    · have hmp : m = p := by
        by_contra hne
        change p ≤ m at hlm
        exact hnone m (by omega) (Int.le_trans hmm hmid.2) htype
      subst hmp
      have haddr : (s.hit m).addr = 0#32 := hwrap
      have hpos : 0#32 < (stabs m).nValue := by
        rw [hval]
        bv_omega
      rw [haddr] at hcase
      rcases hcase with ⟨hlt, -⟩ | ⟨-, heq⟩ | ⟨heq, -⟩
      · exact absurd hlt BitVec.not_lt_zero
      · exact heq
      · rw [heq] at hpos
        exact absurd hpos (BitVec.lt_irrefl _)
  rw [stabLoop_step (show (s.hit p).l ≤ (s.hit p).r from hle), hround, stabLoop_done]
  · unfold stabFinish
    rw [if_pos rfl]
    change (scanBack (IsType stabs type) (p + 1) (p - 1), p - 1) = _
    rw [scanBack_of_lt _ (by omega)]
  · change ¬ p ≤ p - 1
    omega

/-- There is no stab after one with the largest address. -/
theorem InOrder.last (hord : InOrder stabs type L R) (hp : L ≤ p) (hpt : IsType stabs type p)
    (hval : (stabs p).nValue + 1#32 = 0#32) {i : ℤ} (hi : p < i) (hiR : i ≤ R) : ¬ IsType stabs type i := by
  intro hti
  have hlt := hord p i hp hi hiR hpt hti
  bv_omega

/-- Once the search has matched a stab it does not go back behind it, unless it takes back
this match. -/
theorem StabInv.late (h : StabInv stabs type L R s) (hord : InOrder stabs type L R) (hleft : s.regionLeft = s.l)
    (hlr : s.l ≤ s.r) (htype : IsType stabs type s.l) (hval : (stabs s.l).nValue < s.addr) :
    s.l ≤ (stabFinish stabs type (stabLoop stabs type s)).1 := by
  induction hn : (R - s.l).toNat using Nat.strong_induction_on generalizing s with
  | _ n ih =>
    subst hn
    have hlo := h.lo
    have hhi := h.hi
    by_cases hmatch : ∃ e, s.l ≤ e ∧ e ≤ s.r ∧ IsType stabs type e ∧ (stabs e).nValue = s.addr
    · obtain ⟨e, hle, her, het, heq⟩ := hmatch
      have hlt : s.l < e := hord.lt_of_value hlo htype (by omega) (by omega) het (by rw [heq]; exact hval)
      obtain ⟨t, ht, haddr, htl, her', htr, hloop, -⟩ := h.reach hord hle her het heq
      have hval' : (stabs e).nValue = t.addr := heq.trans haddr.symm
      rw [hloop]
      by_cases hwrap : t.addr + 1#32 = 0#32
      · have hnone (i : ℤ) (hi : e < i) (hir : i ≤ t.r) : ¬ IsType stabs type i :=
          hord.last (by omega) het (by rw [hval']; exact hwrap) hi (by omega)
        rw [stabFinish_wrap her' het hnone hval' hwrap]
        change s.l ≤ e - 1
        omega
      · have hhit := ht.hit hord htl her' het hval' hwrap
        have hnext : e ≤ (stabFinish stabs type (stabLoop stabs type (t.hit e))).1 := by
          refine ih _ ?_ hhit rfl her' het ?_ rfl
          · change (R - e).toNat < _
            omega
          · change (stabs e).nValue < t.addr + 1#32
            rw [hval']
            bv_omega
        omega
    · have hno (i : ℤ) (hi : s.l ≤ i) (hir : i ≤ s.r) (hti : IsType stabs type i) : (stabs i).nValue ≠ s.addr :=
        fun heq => hmatch ⟨i, hi, hir, hti, heq⟩
      obtain ⟨ht, haddr, hl, hge⟩ := h.loop hord hno
      generalize stabLoop stabs type s = t at ht haddr hl hge ⊢
      have hge' : s.l ≤ t.regionLeft := hge _ (Int.le_refl _) (by rw [hleft])
      have hlt : s.l ≤ t.r := by
        by_contra hgt
        have habove := ht.above s.l (by omega) (by omega) htype
        rw [haddr] at habove
        exact absurd hval (BitVec.not_lt.mpr habove)
      have hany : t.anyMatches = true := by
        apply Bool.eq_true_of_not_eq_false
        intro hany
        exact (ht.any hany).2.2 s.l hlo (by omega) htype
      have hle : t.regionLeft ≤ t.r := by
        rcases ht.left with heq | ⟨-, hle, -⟩
        · omega
        · exact hle
      unfold stabFinish
      rw [if_pos hany, ht.right]
      obtain ⟨-, -, hend⟩ := scanBack_spec (IsType stabs type) (show t.regionLeft + 1 ≤ t.r + 1 by omega)
      change s.l ≤ scanBack (IsType stabs type) (t.regionLeft + 1) t.r
      rcases hend with hend | ⟨hend, -⟩
      · omega
      · omega

end Matches

/-- What `stab_binsearch` is for: the region of the stab that contains the address, or an
empty one. -/
structure Brackets (stabs : ℤ → Stab) (type L R : ℤ) (addr : Word) (region : ℤ × ℤ) : Prop where
  found : ∀ p, L ≤ p → p ≤ R → IsType stabs type p → (stabs p).nValue ≤ addr →
    (∀ i, p < i → i ≤ R → IsType stabs type i → addr < (stabs i).nValue) →
    region.1 = p ∧ p ≤ region.2 ∧ (∀ i, p < i → i ≤ region.2 → ¬ IsType stabs type i) ∧
      (region.2 = R ∨ region.2 < R ∧ IsType stabs type (region.2 + 1))
  missed : (∀ i, L ≤ i → i ≤ R → IsType stabs type i → addr < (stabs i).nValue) → region.2 < region.1

/-- When the search does what it is for. Not all stabs of the type may be past the address;
and one with this address must not be the last possible one, or be tried before one with the
next address, unless that is the last possible one and stands right behind it. -/
structure SearchFits (stabs : ℤ → Stab) (type L R : ℤ) (addr : Word) : Prop where
  start : (∀ i, L ≤ i → i ≤ R → IsType stabs type i → addr < (stabs i).nValue) →
    ∀ i, L ≤ i → i ≤ R → ¬ IsType stabs type i
  last : ∀ p, L ≤ p → p ≤ R → IsType stabs type p → (stabs p).nValue = addr → addr + 1#32 ≠ 0#32
  adjacent : ∀ p q, L ≤ p → p < q → q ≤ R → IsType stabs type p → IsType stabs type q →
    (stabs p).nValue = addr → (stabs q).nValue = addr + 1#32 →
    ¬ TriedFirst (IsType stabs type) p q L R ∨ addr + 2#32 = 0#32 ∧ q = p + 1

section Result

variable {stabs : ℤ → Stab} {type L R : ℤ} {s : StabState} {addr : Word} {l r p q : ℤ}

theorem StabInv.start (h : L ≤ R + 1) (stabs : ℤ → Stab) (type : ℤ) (addr : Word) :
    StabInv stabs type L R ⟨L, R, L, R, addr, false⟩ := by
  refine ⟨Int.le_refl L, h, Int.le_refl R, rfl, fun i hi hil => ?_, fun i hi hiR => ?_, Or.inl rfl, Or.inl rfl,
    fun _ => ⟨rfl, rfl, fun i hi hil => ?_⟩, fun hany => (by cases hany)⟩
  · exact absurd hil (Int.not_lt.mpr hi)
  · exact absurd hiR (Int.not_le.mpr hi)
  · exact absurd hil (Int.not_lt.mpr hi)

/-- The result of a search that ends without taking a later stab for a match. -/
theorem StabInv.brackets (h : StabInv stabs type L R s) (hl : s.l = s.r + 1)
    (hlt : ∀ i, L ≤ i → i ≤ R → IsType stabs type i → ((stabs i).nValue ≤ addr ↔ (stabs i).nValue < s.addr)) :
    (∃ i, L ≤ i ∧ i ≤ R ∧ IsType stabs type i ∧ (stabs i).nValue ≤ addr) →
      Brackets stabs type L R addr (stabFinish stabs type s) := by
  rintro ⟨i, hi, hiR, hti, hval⟩
  refine ⟨fun p hp hpR hpt hpv hlast => ?_, fun hnone => absurd hval (BitVec.not_le.mpr (hnone i hi hiR hti))⟩
  obtain ⟨heq, hpr, hno, hedge⟩ := h.finish_found hl hp hpR hpt ((hlt p hp hpR hpt).mp hpv)
    fun i hi hiR hti => BitVec.not_lt.mp fun hv =>
      absurd ((hlt i (by omega) hiR hti).mpr hv) (BitVec.not_le.mpr (hlast i hi hiR hti))
  rw [heq]
  exact ⟨rfl, hpr, hno, hedge⟩

theorem InOrder.eq_of_value (hord : InOrder stabs type L R) (hp : L ≤ p) (hpR : p ≤ R) (hpt : IsType stabs type p)
    (hq : L ≤ q) (hqR : q ≤ R) (hqt : IsType stabs type q) (heq : (stabs p).nValue = (stabs q).nValue) : p = q := by
  rcases Int.lt_trichotomy p q with hlt | hpq | hlt
  · have hv := hord p q hp hlt hqR hpt hqt
    rw [heq] at hv
    exact absurd hv (BitVec.lt_irrefl _)
  · exact hpq
  · have hv := hord q p hq hlt hpR hqt hpt
    rw [heq] at hv
    exact absurd hv (BitVec.lt_irrefl _)

/-- A stab with the address is the last one that is not past it. -/
theorem InOrder.past (hord : InOrder stabs type L R) (hp : L ≤ p) (hpt : IsType stabs type p)
    (hval : (stabs p).nValue = addr) {i : ℤ} (hi : p < i) (hiR : i ≤ R) (hti : IsType stabs type i) :
    addr < (stabs i).nValue := by
  rw [← hval]
  exact hord p i hp hi hiR hpt hti

/-- The region of a stab with the address starts there. -/
theorem Brackets.first_eq {region : ℤ × ℤ} (h : Brackets stabs type L R addr region) (hord : InOrder stabs type L R)
    (hp : L ≤ p) (hpR : p ≤ R) (hpt : IsType stabs type p) (hval : (stabs p).nValue = addr) : region.1 = p :=
  (h.found p hp hpR hpt (BitVec.le_of_eq hval) fun _ hi hiR hti => hord.past hp hpt hval hi hiR hti).1

/-- The search when no stab has the address. -/
theorem brackets_iff_of_no_match (hord : InOrder stabs type L R) (hLR : L ≤ R)
    (hno : ∀ i, L ≤ i → i ≤ R → IsType stabs type i → (stabs i).nValue ≠ addr) :
    Brackets stabs type L R addr (stabBinsearch stabs type L R addr) ↔ SearchFits stabs type L R addr := by
  obtain ⟨ht, haddr, hl, -⟩ := (StabInv.start (show L ≤ R + 1 by omega) stabs type addr).loop hord hno
  unfold stabBinsearch
  generalize stabLoop stabs type ⟨L, R, L, R, addr, false⟩ = t at ht haddr hl ⊢
  change t.addr = addr at haddr
  by_cases hsome : ∃ i, L ≤ i ∧ i ≤ R ∧ IsType stabs type i ∧ (stabs i).nValue ≤ addr
  · have hb := @StabInv.brackets stabs type L R t addr ht hl (fun i hi hiR hti => by
      have hne := hno i hi hiR hti
      rw [haddr]
      bv_omega) hsome
    obtain ⟨i, hi, hiR, hti, hval⟩ := hsome
    refine iff_of_true hb ⟨fun hpast => absurd hval (BitVec.not_le.mpr (hpast i hi hiR hti)),
      fun p hp hpR hpt heq => absurd heq (hno p hp hpR hpt),
      fun p q hp hpq hqR hpt _ heq => absurd heq (hno p hp (by omega) hpt)⟩
  · have hpast (i : ℤ) (hi : L ≤ i) (hiR : i ≤ R) (hti : IsType stabs type i) : addr < (stabs i).nValue :=
      BitVec.not_le.mp fun hval => hsome ⟨i, hi, hiR, hti, hval⟩
    by_cases hany : t.anyMatches = true
    · -- the region is not empty although all stabs of the type are past the address
      refine iff_of_false (fun hb => ?_) fun hfit => ?_
      · have hlt := hb.missed hpast
        have hle : scanBack (IsType stabs type) (t.regionLeft + 1) t.regionRight ≤ t.regionRight := by
          by_cases hlr : t.regionLeft ≤ t.regionRight
          · exact (scanBack_spec _ (by omega)).1
          · rw [scanBack_of_lt _ (by omega)]
        unfold stabFinish at hlt
        rw [if_pos hany] at hlt
        change t.regionRight < scanBack _ _ _ at hlt
        omega
      · obtain ⟨i, hi, hiR, hti⟩ := ht.some hany
        exact hfit.start hpast i hi hiR hti
    · have hnone := (ht.any (Bool.eq_false_of_not_eq_true hany)).2
      have hnt (i : ℤ) (hi : L ≤ i) (hiR : i ≤ R) : ¬ IsType stabs type i := hnone.2 i hi (by omega)
      refine iff_of_true ⟨fun p hp hpR hpt => absurd hpt (hnt p hp hpR), fun _ => ?_⟩
        ⟨fun _ => hnt, fun p hp hpR hpt => absurd hpt (hnt p hp hpR),
          fun p q hp hpq hqR hpt => absurd hpt (hnt p hp (by omega))⟩
      unfold stabFinish
      rw [if_neg hany]
      change t.regionLeft - 1 < t.regionLeft
      omega

/-- The search when stab `p` has the address. -/
theorem brackets_iff_of_match (hord : InOrder stabs type L R) (hp : L ≤ p) (hpR : p ≤ R)
    (hpt : IsType stabs type p) (hval : (stabs p).nValue = addr) :
    Brackets stabs type L R addr (stabBinsearch stabs type L R addr) ↔ SearchFits stabs type L R addr := by
  obtain ⟨t, ht, haddr, htl, hpr, htr, hloop, htried⟩ :=
    (StabInv.start (show L ≤ R + 1 by omega) stabs type addr).reach hord hp hpR hpt hval
  change t.addr = addr at haddr
  change t.r ≤ R at htr
  have hval' : (stabs p).nValue = t.addr := hval.trans haddr.symm
  have hmin : (∀ i, L ≤ i → i ≤ R → IsType stabs type i → addr < (stabs i).nValue) → False := fun hpast =>
    absurd (BitVec.le_of_eq hval) (BitVec.not_le.mpr (hpast p hp hpR hpt))
  unfold stabBinsearch
  rw [hloop]
  by_cases hwrap : addr + 1#32 = 0#32
  · -- the match is taken back
    have hnone (i : ℤ) (hi : p < i) (hir : i ≤ t.r) : ¬ IsType stabs type i :=
      hord.last hp hpt (by rw [hval]; exact hwrap) hi (by omega)
    rw [stabFinish_wrap hpr hpt hnone hval' (by rw [haddr]; exact hwrap)]
    refine iff_of_false (fun hb => ?_) fun hfit => hfit.last p hp hpR hpt hval hwrap
    have hfirst : p - 1 = p := hb.first_eq hord hp hpR hpt hval
    omega
  have hhit := ht.hit hord htl hpr hpt hval' (by rw [haddr]; exact hwrap)
  have hbetween {q : ℤ} (hqR : q ≤ R) (hqt : IsType stabs type q) (hqv : (stabs q).nValue = addr + 1#32) (i : ℤ)
      (hi : p < i) (hiq : i < q) : ¬ IsType stabs type i := by
    intro hti
    have hlo := hord.past hp hpt hval hi (by omega) hti
    have hhi := hord i q (by omega) hiq hqR hti hqt
    rw [hqv] at hhi
    bv_omega
  by_cases hnext : ∃ q, p ≤ q ∧ q ≤ t.r ∧ IsType stabs type q ∧ (stabs q).nValue = addr + 1#32
  · -- the stab with the next address is taken for a match as well
    obtain ⟨q, hpq, hqr, hqt, hqv⟩ := hnext
    have hlt : p < q := by
      refine hord.lt_of_value hp hpt hpR (by omega) hqt ?_
      rw [hval, hqv]
      bv_omega
    have htf : TriedFirst (IsType stabs type) p q L R :=
      (htried q hlt hqt (hbetween (by omega) hqt hqv)).mpr hqr
    have hqL : L ≤ q := by omega
    have hqR : q ≤ R := by omega
    obtain ⟨u, hu, huaddr, hul, hqur, hur, hloop', -⟩ := hhit.reach hord hpq hqr hqt
      (by change _ = t.addr + 1#32; rw [haddr]; exact hqv)
    change u.addr = t.addr + 1#32 at huaddr
    rw [haddr] at huaddr
    have hqv' : (stabs q).nValue = u.addr := hqv.trans huaddr.symm
    have hnot : q ≠ p + 1 ∨ addr + 2#32 ≠ 0#32 → ¬ SearchFits stabs type L R addr := by
      intro hne hfit
      rcases hfit.adjacent p q hp hlt hqR hpt hqt hval hqv with hn | ⟨h2, h1⟩
      · exact hn htf
      · exact hne.elim (fun h => h h1) fun h => h h2
    have htwo : u.addr + 1#32 = addr + 2#32 := by
      rw [huaddr]
      bv_omega
    rw [hloop']
    by_cases hwrap' : addr + 2#32 = 0#32
    · have hnone (i : ℤ) (hi : q < i) (hir : i ≤ u.r) : ¬ IsType stabs type i := by
        change u.r ≤ t.r at hur
        exact hord.last hqL hqt (by rw [hqv', htwo]; exact hwrap') hi (by omega)
      rw [stabFinish_wrap hqur hqt hnone hqv' (by rw [htwo]; exact hwrap')]
      by_cases hright : q = p + 1
      · subst hright
        refine iff_of_true ⟨fun p' hp' hpR' hpt' hv' hlast' => ?_, fun hpast => (hmin hpast).elim⟩
          ⟨fun hpast => (hmin hpast).elim, fun _ _ _ _ _ => hwrap, fun p' q' hp' hpq' hqR' hpt' hqt' hv' hqv'' => ?_⟩
        · have hpp : p' = p := by
            rcases Int.lt_trichotomy p' p with h | h | h
            · exact absurd (hlast' p h hpR hpt) (BitVec.not_lt.mpr (BitVec.le_of_eq hval))
            · exact h
            · exact absurd hv' (BitVec.not_le.mpr (hord.past hp hpt hval h hpR' hpt'))
          rw [hpp]
          refine ⟨by change p + 1 - 1 = p; omega, by change p ≤ p + 1 - 1; omega, fun i hi hir => ?_, Or.inr ?_⟩
          · change i ≤ p + 1 - 1 at hir
            omega
          · change p + 1 - 1 < R ∧ IsType stabs type (p + 1 - 1 + 1)
            rw [Int.add_sub_cancel]
            exact ⟨by omega, hqt⟩
        · right
          have hpp := hord.eq_of_value hp' (by omega) hpt' hp hpR hpt (hv'.trans hval.symm)
          have hqq := hord.eq_of_value (by omega) hqR' hqt' hqL hqR hqt (hqv''.trans hqv.symm)
          exact ⟨hwrap', by rw [hqq, hpp]⟩
      · refine iff_of_false (fun hb => ?_) (hnot (Or.inl hright))
        have hfirst : q - 1 = p := hb.first_eq hord hp hpR hpt hval
        omega
    · have hhit' := hu.hit hord hul hqur hqt hqv' (by rw [htwo]; exact hwrap')
      refine iff_of_false (fun hb => ?_) (hnot (Or.inr hwrap'))
      have hfirst := hb.first_eq hord hp hpR hpt hval
      have hlate := hhit'.late hord rfl hqur hqt (by
        change (stabs q).nValue < u.addr + 1#32
        rw [htwo, hqv]
        bv_omega)
      rw [hfirst] at hlate
      change q ≤ p at hlate
      omega
  · obtain ⟨hv, hvaddr, hvl, -⟩ := hhit.loop hord fun i hi hir hti heq => hnext ⟨i, hi, hir, hti, by
      rw [heq, ← haddr]
      rfl⟩
    have hb := @StabInv.brackets stabs type L R _ addr hv hvl (fun i hi hiR hti => by
      rw [hvaddr]
      change _ ↔ _ < t.addr + 1#32
      rw [haddr]
      bv_omega) ⟨p, hp, hpR, hpt, BitVec.le_of_eq hval⟩
    refine iff_of_true hb ⟨fun hpast => (hmin hpast).elim, fun _ _ _ _ _ => hwrap,
      fun p' q hp' hpq hqR hpt' hqt hv' hqv => Or.inl fun htf => ?_⟩
    obtain rfl := hord.eq_of_value hp' (by omega) hpt' hp hpR hpt (hv'.trans hval.symm)
    have hqr := (htried q hpq hqt (hbetween hqR hqt hqv)).mp htf
    exact hnext ⟨q, by omega, hqr, hqt, hqv⟩

/-- `stab_binsearch` finds the region of the address exactly when the stabs of its type are
not all past the address, and when the address that it goes on with after a match does not
match again. -/
theorem stab_binsearch_iff (hord : InOrder stabs type L R) :
    Brackets stabs type L R addr (stabBinsearch stabs type L R addr) ↔ SearchFits stabs type L R addr := by
  by_cases hLR : L ≤ R
  · by_cases hmatch : ∃ p, L ≤ p ∧ p ≤ R ∧ IsType stabs type p ∧ (stabs p).nValue = addr
    · obtain ⟨p, hp, hpR, hpt, hval⟩ := hmatch
      exact brackets_iff_of_match hord hp hpR hpt hval
    · exact brackets_iff_of_no_match hord hLR fun i hi hiR hti hval => hmatch ⟨i, hi, hiR, hti, hval⟩
  · have hresult : stabBinsearch stabs type L R addr = (L, L - 1) := by
      unfold stabBinsearch
      rw [stabLoop_done (show ¬ L ≤ R from hLR)]
      rfl
    rw [hresult]
    refine iff_of_true ⟨fun p hp hpR => absurd hpR (by omega), fun _ => ?_⟩
      ⟨fun _ i hi hiR => absurd hiR (by omega), fun p hp hpR => absurd hpR (by omega),
        fun p q hp hpq hqR => absurd hqR (by omega)⟩
    change L - 1 < L
    omega

end Result

/-- Stabs of type `N_SO`, one for each address from `0xf0100000` on. -/
def denseStabs : ℤ → Stab := fun i => ⟨0#32, 0x64#8, 0#8, 0#16, 0xf0100000#32 + BitVec.ofInt 32 i⟩

theorem denseStabs_inOrder : InOrder denseStabs 0x64 0 1 := by
  intro i j hi hij hj _ _
  obtain ⟨rfl, rfl⟩ : i = 0 ∧ j = 1 := by omega
  decide

/-- The second of two stabs is taken for the one that contains the address of the first. -/
theorem stab_binsearch_adjacent : ¬ Brackets denseStabs 0x64 0 1 0xf0100000#32
    (stabBinsearch denseStabs 0x64 0 1 0xf0100000#32) := by
  intro h
  have hfit := (brackets_iff_of_match (p := 0) denseStabs_inOrder (by decide) (by decide) rfl (by decide)).mp h
  rcases hfit.adjacent 0 1 (by decide) (by decide) (by decide) rfl rfl (by decide) (by decide) with hn | ⟨h2, -⟩
  · exact hn (.here (by decide) (by decide) (by decide))
  · exact absurd h2 (by decide)

theorem stab_binsearch_second : Brackets denseStabs 0x64 0 1 0xf0100001#32
    (stabBinsearch denseStabs 0x64 0 1 0xf0100001#32) := by
  refine (stab_binsearch_iff denseStabs_inOrder).mpr ⟨fun hpast => ?_, fun _ _ _ _ _ => by decide,
    fun p q hp hpq hq _ _ hpv _ => ?_⟩
  · exact absurd (hpast 0 (by decide) (by decide) rfl) (by decide)
  · obtain ⟨rfl, rfl⟩ : p = 0 ∧ q = 1 := by omega
    exact absurd hpv (by decide)

end Sisop
