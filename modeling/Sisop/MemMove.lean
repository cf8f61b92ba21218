import Sisop.ByteMem

/-! `memset` and `memmove` of `lib/string.c`, in the version with string instructions and in the portable one. -/
namespace Sisop

/-- `(int)a%4 == 0`. -/
def IntAligned (a : Word) : Prop := a.toInt.tmod 4 = 0

instance (a : Word) : Decidable (IntAligned a) := inferInstanceAs (Decidable (_ = _))

/-- `movsb` or `movsl`, for a unit of `w` bytes. -/
def movs (w : ℕ) (m : ByteMem) (d s : Word) : ByteMem :=
  writeBytes m d ((List.range w).map fun i => m (s + BitVec.ofNat 32 i))

/-- `rep movs`, where the direction flag decides on the step. -/
def repMovs (w : ℕ) (step : Word) (m : ByteMem) (d s : Word) : ℕ → ByteMem
  | 0 => m
  | n + 1 => repMovs w step (movs w m d s) (d + step) (s + step) n

/-- `memmove(dst, src, n)`, with string instructions. -/
def memmove (m : ByteMem) (dst src n : Word) : ByteMem :=
  if src < dst ∧ dst < src + n then
    if IntAligned (src + n) ∧ IntAligned (dst + n) ∧ n % 4#32 = 0#32 then
      repMovs 4 (-4#32) m (dst + n - 4#32) (src + n - 4#32) (n / 4#32).toNat
    else repMovs 1 (-1#32) m (dst + n - 1#32) (src + n - 1#32) n.toNat
  else if IntAligned src ∧ IntAligned dst ∧ n % 4#32 = 0#32 then repMovs 4 4#32 m dst src (n / 4#32).toNat
  else repMovs 1 1#32 m dst src n.toNat

/-- `while (n-- > 0) *--d = *--s;` -/
def copyDown (m : ByteMem) (d s : Word) : ℕ → ByteMem
  | 0 => m
  | n + 1 => copyDown (Function.update m (d - 1#32) (m (s - 1#32))) (d - 1#32) (s - 1#32) n

/-- `while (n-- > 0) *d++ = *s++;` -/
def copyUp (m : ByteMem) (d s : Word) : ℕ → ByteMem
  | 0 => m
  | n + 1 => copyUp (Function.update m d (m s)) (d + 1#32) (s + 1#32) n

/-- `memmove(dst, src, n)`, the portable one. -/
def memmovePortable (m : ByteMem) (dst src n : Word) : ByteMem :=
  if src < dst ∧ dst < src + n then copyDown m (dst + n) (src + n) n.toNat else copyUp m dst src n.toNat

/-- `rep stos`. -/
def repStos (bs : List (BitVec 8)) (m : ByteMem) (d : Word) : ℕ → ByteMem
  | 0 => m
  | n + 1 => repStos bs (writeBytes m d bs) (d + BitVec.ofNat 32 bs.length) n

/-- `c &= 0xFF; c = (c<<24)|(c<<16)|(c<<8)|c;` -/
def fillWord (c : Word) : Word :=
  let c := c &&& 0xFF#32
  (c <<< 24) ||| (c <<< 16) ||| (c <<< 8) ||| c

/-- `memset(v, c, n)`, with string instructions. -/
def memset (m : ByteMem) (v c n : Word) : ByteMem :=
  if n = 0#32 then m
  else if IntAligned v ∧ n % 4#32 = 0#32 then repStos (wordBytes [fillWord c]) m v (n / 4#32).toNat
  else repStos [c.setWidth 8] m v n.toNat

theorem toInt_nonneg_iff (x : Word) : 0 ≤ x.toInt ↔ x.toNat < 2^31 := by
  have hlt := x.isLt
  rw [BitVec.toInt_eq_toNat_cond]
  split
  next => omega
  next => omega

theorem sub_one_toNat {x : Word} (h : x.toNat ≠ 0) : (x - 1#32).toNat = x.toNat - 1 := by
  have hlt := x.isLt
  rw [BitVec.toNat_sub, BitVec.toNat_ofNat]
  omega

/-- `while (--k >= 0) *p++ = c;`, where `k` is an `int`. -/
def fillWhile (m : ByteMem) (p c k : Word) : ByteMem :=
  if 0 ≤ (k - 1#32).toInt then fillWhile (Function.update m p (c.setWidth 8)) (p + 1#32) c (k - 1#32) else m
termination_by if 0 ≤ (k - 1#32).toInt then (k - 1#32).toNat + 1 else 0
decreasing_by
  rename_i h
  rw [if_pos h]
  split
  next h' =>
    have hpos : (k - 1#32).toNat ≠ 0 := by
      intro h0
      rw [BitVec.eq_of_toNat_eq (y := 0#32) h0] at h'
      exact absurd h' (by decide)
    rw [sub_one_toNat hpos]
    omega
  next => exact Nat.zero_lt_succ _

/-- `memset(v, c, n)`, the portable one. -/
def memsetPortable (m : ByteMem) (v c n : Word) : ByteMem := fillWhile m v c n

/-- The memory with the bytes moved. -/
def moved (m : ByteMem) (dst src n : Word) : ByteMem := fun x => if InSpan dst n.toNat x then m (src + (x - dst)) else m x

/-- The memory with the bytes set. -/
def filled (m : ByteMem) (v : Word) (c : BitVec 8) (n : ℕ) : ByteMem := fun x => if InSpan v n x then c else m x

/-- A range of addresses does not wrap. -/
def NoWrap (a n : Word) : Prop := a.toNat + n.toNat ≤ 2^32

section Move

variable {m : ByteMem} {d s x v c : Word} {w k : ℕ}

theorem movs_apply (w : ℕ) (m : ByteMem) (d s x : Word) :
    movs w m d s x = if InSpan d w x then m (s + (x - d)) else m x := by
  unfold movs writeBytes
  by_cases hin : InSpan d w x
  · have hlt : (x - d).toNat < w := hin
    rw [if_pos hin, List.getElem?_map, List.getElem?_range hlt, Option.map_some, Option.getD_some, BitVec.ofNat_toNat,
      BitVec.setWidth_eq]
  · have hle : w ≤ (x - d).toNat := Nat.le_of_not_lt hin
    rw [if_neg hin, List.getElem?_eq_none]
    · rfl
    · rw [List.length_map, List.length_range]
      exact hle

/-- Where a byte of a span is. -/
theorem span_offset (x d s : Word) : s + (x - d) = s + BitVec.ofNat 32 (x - d).toNat := by
  rw [BitVec.ofNat_toNat, BitVec.setWidth_eq]

/-- The bytes are copied from the first unit on, where nothing is written to before it has been read. -/
theorem repMovs_up (n : ℕ) : ∀ {m d s}, w * n < 2^32 →
    (∀ i j, j < i → i < w * n → s + BitVec.ofNat 32 i ≠ d + BitVec.ofNat 32 j) → ∀ x,
    repMovs w (BitVec.ofNat 32 w) m d s n x = if InSpan d (w * n) x then m (s + (x - d)) else m x := by
  induction n with
  | zero =>
    intro m d s _ _ x
    exact (if_neg (Nat.not_lt_zero (x - d).toNat)).symm
  | succ n ih =>
    intro m d s hn hsep x
    rw [Nat.mul_succ] at hn hsep ⊢
    have hnext : ∀ a : Word, ∀ i, a + BitVec.ofNat 32 w + BitVec.ofNat 32 i = a + BitVec.ofNat 32 (w + i) := by
      intro a i
      rw [BitVec.add_assoc, BitVec.ofNat_add]
    have hsep' : ∀ i j, j < i → i < w * n → s + BitVec.ofNat 32 w + BitVec.ofNat 32 i ≠ d + BitVec.ofNat 32 w + BitVec.ofNat 32 j := by
      intro i j hji hi
      rw [hnext, hnext]
      exact hsep _ _ (by omega) (by omega)
    unfold repMovs
    rw [ih (by omega) hsep', movs_apply, movs_apply]
    by_cases hfirst : (x - d).toNat < w
    · have hout : ¬ InSpan (d + BitVec.ofNat 32 w) (w * n) x := by
        unfold InSpan
        bv_omega
      have hin : InSpan d (w * n + w) x := Nat.lt_add_left _ hfirst
      have hunit : InSpan d w x := hfirst
      rw [if_neg hout, if_pos hunit, if_pos hin]
    · have hiff : InSpan (d + BitVec.ofNat 32 w) (w * n) x ↔ InSpan d (w * n + w) x := by
        unfold InSpan
        bv_omega
      by_cases hin : InSpan d (w * n + w) x
      · have haddr : s + BitVec.ofNat 32 w + (x - (d + BitVec.ofNat 32 w)) = s + (x - d) := by bv_omega
        have hread : ¬ InSpan d w (s + (x - d)) := by
          intro hread
          have hlt : (s + (x - d) - d).toNat < w := hread
          apply hsep (x - d).toNat (s + (x - d) - d).toNat (by omega) hin
          rw [← span_offset, ← span_offset]
          exact (add_sub_cancel d (s + (x - d))).symm
        rw [if_pos (hiff.mpr hin), haddr, if_neg hread, if_pos hin]
      · rw [if_neg fun h => hin (hiff.mp h), if_neg hin]
        exact if_neg hfirst

/-- The bytes are copied from the last unit on. -/
theorem repMovs_down (n : ℕ) : ∀ {m}, w * n < 2^32 →
    (∀ i j, i < j → j < w * n → s + BitVec.ofNat 32 i ≠ d + BitVec.ofNat 32 j) → ∀ x,
    repMovs w (-BitVec.ofNat 32 w) m (d + BitVec.ofNat 32 (w * n) - BitVec.ofNat 32 w)
      (s + BitVec.ofNat 32 (w * n) - BitVec.ofNat 32 w) n x = if InSpan d (w * n) x then m (s + (x - d)) else m x := by
  induction n with
  | zero =>
    intro m _ _ x
    exact (if_neg (Nat.not_lt_zero (x - d).toNat)).symm
  | succ n ih =>
    intro m hn hsep x
    rw [Nat.mul_succ] at hn hsep ⊢
    have htop : ∀ a : Word, a + BitVec.ofNat 32 (w * n + w) - BitVec.ofNat 32 w = a + BitVec.ofNat 32 (w * n) := by
      intro a
      rw [BitVec.ofNat_add, ← BitVec.add_assoc]
      exact add_sub_cancel_right _ _
    unfold repMovs
    rw [htop, htop, ← sub_eq_add_neg, ← sub_eq_add_neg, ih (by omega) fun i j hij hj => hsep i j hij (by omega)]
    have happly := movs_apply w m (d + BitVec.ofNat 32 (w * n)) (s + BitVec.ofNat 32 (w * n))
    by_cases hlow : InSpan d (w * n) x
    · have hlt : (x - d).toNat < w * n := hlow
      have hin : InSpan d (w * n + w) x := Nat.lt_add_right w hlt
      have hread : ¬ InSpan (d + BitVec.ofNat 32 (w * n)) w (s + (x - d)) := by
        intro hread
        have hlt' : (s + (x - d) - (d + BitVec.ofNat 32 (w * n))).toNat < w := hread
        apply hsep (x - d).toNat (w * n + (s + (x - d) - (d + BitVec.ofNat 32 (w * n))).toNat) (by omega) (by omega)
        rw [← span_offset, BitVec.ofNat_add, ← BitVec.add_assoc, ← span_offset]
        exact (add_sub_cancel _ _).symm
      rw [if_pos hlow, if_pos hin, happly, if_neg hread]
    · have hle : w * n ≤ (x - d).toNat := Nat.le_of_not_lt hlow
      have hiff : InSpan (d + BitVec.ofNat 32 (w * n)) w x ↔ InSpan d (w * n + w) x := by
        unfold InSpan
        bv_omega
      have haddr : s + BitVec.ofNat 32 (w * n) + (x - (d + BitVec.ofNat 32 (w * n))) = s + (x - d) := by bv_omega
      rw [if_neg hlow, happly, haddr]
      by_cases hin : InSpan d (w * n + w) x
      · rw [if_pos hin, if_pos (hiff.mpr hin)]
      · rw [if_neg hin, if_neg fun h => hin (hiff.mp h)]

theorem movs_byte (m : ByteMem) (d s : Word) : movs 1 m d s = Function.update m d (m s) := by
  funext x
  rw [movs_apply, Function.update_apply]
  by_cases hx : x = d
  · have hin : InSpan d 1 x := by
      unfold InSpan
      rw [hx, BitVec.sub_self]
      exact Nat.one_pos
    rw [if_pos hin, if_pos hx, hx, BitVec.sub_self, BitVec.add_zero]
  · have hout : ¬ InSpan d 1 x := by
      intro hin
      have hzero : (x - d).toNat < 1 := hin
      exact hx (by bv_omega)
    rw [if_neg hout, if_neg hx]

theorem copyUp_eq (n : ℕ) : ∀ {m d s}, copyUp m d s n = repMovs 1 1#32 m d s n := by
  induction n with
  | zero => exact rfl
  | succ n ih =>
    intro m d s
    unfold copyUp repMovs
    rw [movs_byte, ih]

theorem copyDown_eq (n : ℕ) : ∀ {m d s}, copyDown m d s n = repMovs 1 (-1#32) m (d - 1#32) (s - 1#32) n := by
  induction n with
  | zero => exact rfl
  | succ n ih =>
    intro m d s
    unfold copyDown repMovs
    rw [movs_byte, ih, sub_eq_add_neg (d - 1#32), sub_eq_add_neg (s - 1#32)]

/-- Upwards, in units that make up the range. -/
theorem moved_up {dst src n : Word} (hsrc : NoWrap src n) (hdst : NoWrap dst n) (hdir : ¬ (src < dst ∧ dst < src + n))
    (hk : w * k = n.toNat) (m : ByteMem) : repMovs w (BitVec.ofNat 32 w) m dst src k = moved m dst src n := by
  unfold NoWrap at hsrc hdst
  have hlt := n.isLt
  have hdir' : dst.toNat ≤ src.toNat ∨ src.toNat + n.toNat ≤ dst.toNat := by
    by_contra hnot
    rw [not_or] at hnot
    apply hdir
    refine ⟨Nat.lt_of_not_le hnot.1, ?_⟩
    change dst.toNat < (src + n).toNat
    rw [BitVec.toNat_add]
    omega
  funext x
  rw [repMovs_up k (by omega), hk]
  · rfl
  · intro i j hji hi heq
    rw [hk] at hi
    have heq' := congrArg BitVec.toNat heq
    rw [BitVec.toNat_add, BitVec.toNat_add, BitVec.toNat_ofNat, BitVec.toNat_ofNat] at heq'
    omega

/-- Downwards, from the end of the range. -/
theorem moved_down {dst src n : Word} (hsrc : NoWrap src n) (hdst : NoWrap dst n) (hdir : src < dst) (hk : w * k = n.toNat)
    (m : ByteMem) : repMovs w (-BitVec.ofNat 32 w) m (dst + n - BitVec.ofNat 32 w) (src + n - BitVec.ofNat 32 w) k =
      moved m dst src n := by
  unfold NoWrap at hsrc hdst
  have hlt := n.isLt
  have hdir' : src.toNat < dst.toNat := hdir
  have hn : n = BitVec.ofNat 32 (w * k) := by rw [hk, BitVec.ofNat_toNat, BitVec.setWidth_eq]
  funext x
  conv_lhs => rw [hn]
  rw [repMovs_down k (by omega), hk]
  · rfl
  · intro i j hij hj heq
    rw [hk] at hj
    have heq' := congrArg BitVec.toNat heq
    rw [BitVec.toNat_add, BitVec.toNat_add, BitVec.toNat_ofNat, BitVec.toNat_ofNat] at heq'
    omega

theorem words_of_range {n : Word} (h : n % 4#32 = 0#32) : 4 * (n / 4#32).toNat = n.toNat := by
  have hmod := congrArg BitVec.toNat h
  rw [BitVec.toNat_umod] at hmod
  change n.toNat % 4 = 0 at hmod
  rw [BitVec.toNat_udiv]
  change 4 * (n.toNat / 4) = n.toNat
  omega

/-- Whatever the unit and the direction, the bytes are moved. -/
theorem memmove_moved {dst src n : Word} (hsrc : NoWrap src n) (hdst : NoWrap dst n) (m : ByteMem) :
    memmove m dst src n = moved m dst src n := by
  unfold memmove
  split
  next hdir =>
    split
    next hal => exact moved_down hsrc hdst hdir.1 (words_of_range hal.2.2) m
    next => exact moved_down hsrc hdst hdir.1 (Nat.one_mul _) m
  next hdir =>
    split
    next hal => exact moved_up hsrc hdst hdir (words_of_range hal.2.2) m
    next => exact moved_up hsrc hdst hdir (Nat.one_mul _) m

theorem memmovePortable_moved {dst src n : Word} (hsrc : NoWrap src n) (hdst : NoWrap dst n) (m : ByteMem) :
    memmovePortable m dst src n = moved m dst src n := by
  unfold memmovePortable
  split
  next hdir =>
    rw [copyDown_eq]
    exact moved_down hsrc hdst hdir.1 (Nat.one_mul _) m
  next hdir =>
    rw [copyUp_eq]
    exact moved_up hsrc hdst hdir (Nat.one_mul _) m

end Move

section Fill

variable {m : ByteMem} {v c x : Word} {b : BitVec 8} {w k : ℕ}

theorem writeBytes_replicate (m : ByteMem) (v : Word) (b : BitVec 8) (w : ℕ) :
    writeBytes m v (List.replicate w b) = filled m v b w := by
  funext x
  unfold writeBytes filled
  by_cases hin : InSpan v w x
  · rw [if_pos hin, List.getElem?_replicate_of_lt hin]
    rfl
  · rw [if_neg hin, List.getElem?_eq_none]
    · rfl
    · rw [List.length_replicate]
      exact Nat.le_of_not_lt hin

/-- Behind a range that has been filled. -/
theorem filled_filled (h : w + k < 2^32) : filled (filled m v b w) (v + BitVec.ofNat 32 w) b k = filled m v b (w + k) := by
  funext x
  unfold filled
  have hiff : InSpan v (w + k) x ↔ InSpan v w x ∨ InSpan (v + BitVec.ofNat 32 w) k x := by
    unfold InSpan
    bv_omega
  by_cases h₂ : InSpan (v + BitVec.ofNat 32 w) k x
  · rw [if_pos h₂, if_pos (hiff.mpr (.inr h₂))]
  · by_cases h₁ : InSpan v w x
    · rw [if_neg h₂, if_pos h₁, if_pos (hiff.mpr (.inl h₁))]
    · rw [if_neg h₂, if_neg h₁, if_neg fun h => (hiff.mp h).elim h₁ h₂]

theorem filled_zero (m : ByteMem) (v : Word) (b : BitVec 8) : filled m v b 0 = m := by
  funext x
  exact if_neg (Nat.not_lt_zero _)

theorem repStos_filled (w : ℕ) (b : BitVec 8) (n : ℕ) : ∀ {m v}, w * n < 2^32 →
    repStos (List.replicate w b) m v n = filled m v b (w * n) := by
  induction n with
  | zero => exact fun _ => (filled_zero _ _ _).symm
  | succ n ih =>
    intro m v hn
    rw [Nat.mul_succ] at hn
    unfold repStos
    rw [writeBytes_replicate, List.length_replicate, ih (by omega), filled_filled (by omega), Nat.mul_succ, Nat.add_comm]

theorem getLsbD_lowByte (c : Word) (j : ℕ) : (c &&& 0xFF#32).getLsbD j = (decide (j < 8) && c.getLsbD j) := by
  rw [BitVec.getLsbD_and]
  by_cases hj : j < 8
  · have hones : ∀ j < 8, (0xFF#32).getLsbD j = true := by decide
    rw [hones j hj, decide_eq_true hj, Bool.and_true, Bool.true_and]
  · have hzeros : ∀ j < 32, ¬ j < 8 → (0xFF#32).getLsbD j = false := by decide
    rw [decide_eq_false hj, Bool.false_and]
    by_cases hj' : j < 32
    · rw [hzeros j hj' hj, Bool.and_false]
    · rw [BitVec.getLsbD_of_ge c _ (Nat.le_of_not_lt hj'), Bool.false_and]

/-- The word that `stosl` stores is the low byte four times. -/
theorem fillWord_bytes (c : Word) : wordBytes [fillWord c] = List.replicate 4 (c.setWidth 8) := by
  have hbyte : ∀ i < 4, byteOf (fillWord c) i = c.setWidth 8 := by
    intro i hi
    apply BitVec.eq_of_getLsbD_eq
    intro j hj
    unfold byteOf fillWord
    rw [BitVec.getLsbD_extractLsb', BitVec.getLsbD_setWidth]
    simp only [BitVec.getLsbD_or, BitVec.getLsbD_shiftLeft, getLsbD_lowByte]
    -- Only the copy that has been shifted to byte `i` has bits there.
    have hcase : i = 0 ∨ i = 1 ∨ i = 2 ∨ i = 3 := by omega
    obtain rfl | rfl | rfl | rfl := hcase <;> grind
  change [byteOf (fillWord c) 0, byteOf (fillWord c) 1, byteOf (fillWord c) 2, byteOf (fillWord c) 3] = _
  rw [hbyte 0 (by decide), hbyte 1 (by decide), hbyte 2 (by decide), hbyte 3 (by decide)]
  rfl

theorem memset_filled (m : ByteMem) (v c n : Word) : memset m v c n = filled m v (c.setWidth 8) n.toNat := by
  have hlt := n.isLt
  unfold memset
  split
  next hn => rw [hn]; exact (filled_zero _ _ _).symm
  next =>
    split
    next hal =>
      have hw := words_of_range hal.2
      rw [fillWord_bytes, repStos_filled 4 _ _ (by omega), hw]
    next => rw [show [c.setWidth 8] = List.replicate 1 (c.setWidth 8) from rfl, repStos_filled 1 _ _ (by omega), Nat.one_mul]

theorem update_eq_filled (m : ByteMem) (v : Word) (b : BitVec 8) : Function.update m v b = filled m v b 1 := by
  funext x
  unfold filled
  rw [Function.update_apply]
  have hiff : x = v ↔ InSpan v 1 x := by
    unfold InSpan
    bv_omega
  by_cases hx : x = v
  · rw [if_pos hx, if_pos (hiff.mp hx)]
  · rw [if_neg hx, if_neg fun h => hx (hiff.mpr h)]

/-- The loop with `k` rounds left. At `2^31` the first decrement wraps to the greatest `int`. -/
theorem fillWhile_filled (c : Word) (k : ℕ) : ∀ {m v}, k ≤ 2^31 → fillWhile m v c (BitVec.ofNat 32 k) = filled m v (c.setWidth 8) k := by
  induction k with
  | zero =>
    intro m v _
    unfold fillWhile
    rw [if_neg (by decide)]
    exact (filled_zero _ _ _).symm
  | succ k ih =>
    intro m v hk
    have hpred : BitVec.ofNat 32 (k + 1) - 1#32 = BitVec.ofNat 32 k := by
      rw [BitVec.ofNat_add]
      exact add_sub_cancel_right _ _
    have hpos : 0 ≤ (BitVec.ofNat 32 k).toInt := by
      rw [toInt_nonneg_iff, BitVec.toNat_ofNat]
      omega
    unfold fillWhile
    rw [hpred, if_pos hpos, ih (by omega), update_eq_filled]
    rw [show v + 1#32 = v + BitVec.ofNat 32 1 from rfl, filled_filled (by omega), Nat.add_comm]

theorem memsetPortable_filled (m : ByteMem) (v c : Word) {n : Word} (hn : n.toNat ≤ 2^31) :
    memsetPortable m v c n = filled m v (c.setWidth 8) n.toNat := by
  have hfill := fillWhile_filled c n.toNat (m := m) (v := v) hn
  rw [BitVec.ofNat_toNat, BitVec.setWidth_eq] at hfill
  exact hfill

/-- A length that is negative as an `int` ends the loop before its first round. -/
theorem memsetPortable_huge (m : ByteMem) (v c : Word) {n : Word} (hn : 2^31 < n.toNat) : memsetPortable m v c n = m := by
  have hneg : ¬ 0 ≤ (n - 1#32).toInt := by
    rw [toInt_nonneg_iff, sub_one_toNat (by omega)]
    omega
  unfold memsetPortable fillWhile
  exact if_neg hneg

theorem memset_ne {m : ByteMem} {v c n : Word} (hn : 2^31 < n.toNat) (hv : m v ≠ c.setWidth 8) :
    memset m v c n ≠ memsetPortable m v c n := by
  intro heq
  rw [memset_filled, memsetPortable_huge m v c hn] at heq
  have hin : InSpan v n.toNat v := by
    unfold InSpan
    rw [BitVec.sub_self]
    exact Nat.lt_of_le_of_lt (Nat.zero_le _) hn
  apply hv
  rw [← congrFun heq v]
  exact if_pos hin

end Fill

/-- Both `memmove`s move the bytes, however the ranges overlap. The two `memset`s agree up to `2^31` bytes. -/
theorem memops_agree_iff (n : Word) :
    (∀ (m : ByteMem) (dst src : Word), NoWrap src n → NoWrap dst n →
      memmove m dst src n = moved m dst src n ∧ memmovePortable m dst src n = moved m dst src n) ∧
    ∀ v c : Word, (∀ m, memset m v c n = memsetPortable m v c n) ↔ n.toNat ≤ 2^31 := by
  constructor
  · intro m dst src hsrc hdst
    exact ⟨memmove_moved hsrc hdst m, memmovePortable_moved hsrc hdst m⟩
  · intro v c
    constructor
    · intro hagree
      by_contra hn
      apply memset_ne (m := fun _ => c.setWidth 8 + 1#8) (Nat.lt_of_not_le hn) _ (hagree _)
      simp
    · intro hn m
      rw [memset_filled, memsetPortable_filled m v c hn]

/-- Two words forward by a byte, over each other. -/
theorem memops_agree_overlap :
    let m : ByteMem := fun x => x.setWidth 8
    memmove m 0x1001#32 0x1000#32 8#32 = moved m 0x1001#32 0x1000#32 8#32 ∧
      memmovePortable m 0x1001#32 0x1000#32 8#32 = moved m 0x1001#32 0x1000#32 8#32 :=
  (memops_agree_iff 8#32).1 (fun x => x.setWidth 8) 0x1001#32 0x1000#32 (by unfold NoWrap; decide) (by unfold NoWrap; decide)

theorem memset_twoGiB : memset (fun _ => 1#8) 0x1000#32 0#32 0x80000001#32 ≠ memsetPortable (fun _ => 1#8) 0x1000#32 0#32 0x80000001#32 :=
  memset_ne (by decide) (by decide)

end Sisop
