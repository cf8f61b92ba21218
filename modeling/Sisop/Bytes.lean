import Mathlib.Tactic.IntervalCases
import Sisop.ByteMem

/-! Arrays of bytes without an end, and the words in them. -/
namespace Sisop

abbrev Bytes : Type := ℕ → BitVec 8

/-- The bytes `bs` from `a` on. -/
def putBytes (m : Bytes) (a : ℕ) (bs : List (BitVec 8)) : Bytes := fun x =>
  if a ≤ x then (bs[x - a]?).getD (m x) else m x

/-- The word at `a`, its lowest byte first. -/
def getWord (m : Bytes) (a : ℕ) : Word := m (a + 3) ++ m (a + 2) ++ m (a + 1) ++ m a

/-- The words `ws` from `a` on. -/
def putWords (m : Bytes) (a : ℕ) (ws : List Word) : Bytes := putBytes m a (wordBytes ws)

variable {m m' : Bytes} {a b x k : ℕ} {bs cs : List (BitVec 8)} {ws vs : List Word} {w : Word}

theorem putBytes_outside (h : x < a ∨ a + bs.length ≤ x) : putBytes m a bs x = m x := by
  unfold putBytes
  split_ifs with hx
  · rw [List.getElem?_eq_none (by omega)]
    rfl
  · rfl

theorem putBytes_inside (h : k < bs.length) : putBytes m a bs (a + k) = bs[k] := by
  rw [putBytes, if_pos (Nat.le_add_right a k), Nat.add_sub_cancel_left, List.getElem?_eq_getElem h]
  rfl

/-- Bytes behind those that are there already. -/
theorem putBytes_append (m : Bytes) (a : ℕ) (bs cs : List (BitVec 8)) :
    putBytes (putBytes m a bs) (a + bs.length) cs = putBytes m a (bs ++ cs) := by
  funext x
  unfold putBytes
  by_cases hx : a ≤ x
  · by_cases hb : a + bs.length ≤ x
    · rw [if_pos hb, if_pos hx, if_pos hx, List.getElem?_append_right (by omega),
        List.getElem?_eq_none (show bs.length ≤ x - a by omega), Nat.sub_sub]
      rfl
    · rw [if_neg hb, if_pos hx, if_pos hx, List.getElem?_append_left (by omega)]
  · rw [if_neg (by omega), if_neg hx, if_neg hx]

theorem getWord_congr (h : ∀ i < 4, m' (a + i) = m (b + i)) : getWord m' a = getWord m b := by
  unfold getWord
  rw [h 3 (by decide), h 2 (by decide), h 1 (by decide), show m' a = m b from h 0 (by decide)]

theorem getWord_of_bytes (h : ∀ i < 4, m (a + i) = byteOf w i) : getWord m a = w := by
  unfold getWord
  rw [h 3 (by decide), h 2 (by decide), h 1 (by decide), show m a = byteOf w 0 from h 0 (by decide)]
  exact bytes_append w

theorem getWord_zero (h : ∀ i < 4, m (a + i) = 0#8) : getWord m a = 0#32 :=
  getWord_of_bytes fun i hi => (h i hi).trans (byteOf_zero i).symm

theorem putWords_outside (h : x < a ∨ a + 4 * ws.length ≤ x) : putWords m a ws x = m x := by
  apply putBytes_outside
  rwa [wordBytes_length]

theorem getWord_putWords_outside (h : x + 4 ≤ a ∨ a + 4 * ws.length ≤ x) :
    getWord (putWords m a ws) x = getWord m x :=
  getWord_congr fun i hi => putWords_outside (by omega)

theorem getWord_putBytes_outside (h : x + 4 ≤ a ∨ a + bs.length ≤ x) :
    getWord (putBytes m a bs) x = getWord m x :=
  getWord_congr fun i hi => putBytes_outside (by omega)

theorem getWord_putWords (h : k < ws.length) : getWord (putWords m a ws) (a + 4 * k) = ws[k] := by
  apply getWord_of_bytes
  intro i hi
  rw [putWords, putBytes, if_pos (by omega), show a + 4 * k + i - a = 4 * k + i by omega, wordBytes_getElem? ws k i hi,
    List.getElem?_eq_getElem h]
  rfl

theorem getWord_putWord (m : Bytes) (a : ℕ) (w : Word) : getWord (putWords m a [w]) a = w := by
  have h := @getWord_putWords m a 0 [w] Nat.one_pos
  rwa [Nat.mul_zero, Nat.add_zero] at h

theorem putWords_append (m : Bytes) (a : ℕ) (ws vs : List Word) :
    putWords (putWords m a ws) (a + 4 * ws.length) vs = putWords m a (ws ++ vs) := by
  have happ : wordBytes (ws ++ vs) = wordBytes ws ++ wordBytes vs := List.flatMap_append
  rw [putWords, putWords, putWords, happ, ← wordBytes_length, putBytes_append]

/-- The words `v`, `v + 1` and so on, `n` of them. -/
def countFrom (v : Word) (n : ℕ) : List Word := (List.range n).map fun i => v + BitVec.ofNat 32 i

theorem countFrom_length (v : Word) (n : ℕ) : (countFrom v n).length = n := by
  rw [countFrom, List.length_map, List.length_range]

theorem countFrom_getElem {v : Word} {n : ℕ} (h : k < (countFrom v n).length) :
    (countFrom v n)[k] = v + BitVec.ofNat 32 k := by
  simp only [countFrom, List.getElem_map, List.getElem_range]

theorem countFrom_succ (v : Word) (n : ℕ) : countFrom v (n + 1) = countFrom v n ++ [v + BitVec.ofNat 32 n] := by
  rw [countFrom, List.range_succ, List.map_append]
  rfl

theorem getWord_toNat (m : Bytes) (a : ℕ) : (getWord m a).toNat =
    (m a).toNat + 256 * (m (a + 1)).toNat + 65536 * (m (a + 2)).toNat + 16777216 * (m (a + 3)).toNat := by
  unfold getWord
  rw [BitVec.toNat_append, BitVec.toNat_append, BitVec.toNat_append,
    ← Nat.shiftLeft_add_eq_or_of_lt (m a).isLt, ← Nat.shiftLeft_add_eq_or_of_lt (m (a + 1)).isLt,
    ← Nat.shiftLeft_add_eq_or_of_lt (m (a + 2)).isLt]
  simp only [Nat.shiftLeft_eq]
  omega

/-- A word that is not aligned, by the two words that it is in. -/
theorem getWord_between (m : Bytes) (a : ℕ) {r : ℕ} (hr : r < 4) : (getWord m (a + r)).toNat =
    (getWord m a).toNat / 256^r + 256^(4 - r) * ((getWord m (a + 4)).toNat % 256^r) := by
  have hbytes (x : ℕ) : (m x).toNat < 256 := (m x).isLt
  have h0 := hbytes a
  have h1 := hbytes (a + 1)
  have h2 := hbytes (a + 2)
  have h3 := hbytes (a + 3)
  have h4 := hbytes (a + 4)
  have h5 := hbytes (a + 5)
  rw [getWord_toNat m a, getWord_toNat m (a + 4), getWord_toNat m (a + r)]
  interval_cases r
  all_goals simp only [Nat.add_zero, Nat.add_assoc, Nat.reduceAdd, Nat.reduceSub, Nat.reducePow]
  all_goals omega

end Sisop
