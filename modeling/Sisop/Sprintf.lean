import Mathlib.Data.Nat.Digits.Lemmas
import Sisop.PrintfmtTotal

/-! `printnum` and `vsnprintf` of `lib/printfmt.c`. -/
namespace Sisop

/-- The digits of a number in a base, the first one first. -/
def numeral (base num : ℕ) : List ℕ := if num = 0 then [0] else (Nat.digits base num).reverse

/-- The value of a character that is a digit. -/
def digitValue (c : BitVec 8) : ℕ := if c < chr 'a' then c.toNat - 0x30 else c.toNat - 0x57

/-- What `printnum` has to print. -/
structure PrintsNumber (base num : ℕ) (width : ℤ) (padc : BitVec 8) (out : List (BitVec 8)) : Prop where
  length : (out.length : ℤ) = max width (numeral base num).length
  text : out = List.replicate (out.length - (numeral base num).length) padc ++ (numeral base num).map hexDigit
  value : Nat.ofDigits base ((out.drop (out.length - (numeral base num).length)).map digitValue).reverse = num
  first : (numeral base num).head? = some 0 → numeral base num = [0]

section Numeral

variable {base num i : ℕ}

theorem numeral_of_lt (h : num < base) : numeral base num = [num] := by
  unfold numeral
  by_cases hnum : num = 0
  · rw [if_pos hnum, hnum]
  · rw [if_neg hnum, Nat.digits_of_lt base num hnum h, List.reverse_singleton]

theorem numeral_of_le (hbase : 1 < base) (h : base ≤ num) :
    numeral base num = numeral base (num / base) ++ [num % base] := by
  have hquot : num / base ≠ 0 := (Nat.div_pos h (by omega)).ne'
  unfold numeral
  rw [if_neg (by omega), if_neg hquot, Nat.digits_def' hbase (by omega), List.reverse_cons]

theorem numeral_length_pos : 0 < (numeral base num).length := by
  unfold numeral
  split
  next => exact Nat.succ_pos 0
  next hnum =>
    rw [List.length_reverse]
    exact List.length_pos_of_ne_nil (Nat.digits_ne_nil_iff_ne_zero.mpr hnum)

theorem numeral_length_le (hbase : 1 < base) (hnum : num < 2^64) : (numeral base num).length ≤ 64 := by
  unfold numeral
  split
  next => exact Nat.succ_le_of_lt (by decide)
  next =>
    rw [List.length_reverse]
    exact (Nat.digits_length_le_iff hbase num).mpr (hnum.trans_le (Nat.pow_le_pow_left hbase 64))

theorem numeral_lt (hbase : 1 < base) (hi : i ∈ numeral base num) : i < base := by
  unfold numeral at hi
  split at hi
  next =>
    rw [List.mem_singleton.mp hi]
    omega
  next => exact Nat.digits_lt_base hbase (List.mem_reverse.mp hi)

/-- Only zero begins with a zero. -/
theorem numeral_first (h : (numeral base num).head? = some 0) : numeral base num = [0] := by
  unfold numeral at h ⊢
  split at h
  next hnum => rw [if_pos hnum]
  next hnum =>
    rw [List.head?_reverse, List.getLast?_eq_some_getLast (Nat.digits_ne_nil_iff_ne_zero.mpr hnum)] at h
    exact absurd (Option.some.inj h) (Nat.getLast_digit_ne_zero base hnum)

theorem digitValue_hexDigit (hi : i < 16) : digitValue (hexDigit i) = i := by
  interval_cases i <;> decide

theorem numeral_value (hbase : 1 < base) (hle : base ≤ 16) :
    Nat.ofDigits base (((numeral base num).map hexDigit).map digitValue).reverse = num := by
  have hread : ((numeral base num).map hexDigit).map digitValue = numeral base num := by
    rw [List.map_map]
    conv_rhs => rw [← List.map_id (numeral base num)]
    exact List.map_congr_left fun i hi => digitValue_hexDigit ((numeral_lt hbase hi).trans_le hle)
  rw [hread]
  unfold numeral
  split
  next hnum => rw [hnum, List.reverse_singleton, Nat.ofDigits_singleton]
  next => rw [List.reverse_reverse, Nat.ofDigits_digits]

/-- The width that is left for the first digit is the width without the other digits. -/
theorem printnum_eq (hbase : 1 < base) (num : ℕ) (width : Word) (padc : BitVec 8) :
    printnum base hbase num width padc =
      List.replicate (width - BitVec.ofNat 32 (numeral base num).length).toInt.toNat padc ++ (numeral base num).map hexDigit := by
  induction num using Nat.strong_induction_on generalizing width with
  | _ num ih =>
    rw [printnum]
    by_cases h : base ≤ num
    · have hdiv : num / base < num := Nat.div_lt_self (by omega) hbase
      rw [if_pos h, ih _ hdiv, numeral_of_le hbase h, List.length_append, List.length_singleton, List.map_append, List.append_assoc,
        List.map_singleton, Nat.add_comm, BitVec.ofNat_add, BitVec.sub_sub]
    · rw [if_neg h, numeral_of_lt (Nat.lt_of_not_le h), Nat.mod_eq_of_lt (Nat.lt_of_not_le h)]
      rfl

/-- How many pad characters there are, for a number of at most 64 digits. -/
theorem padding (width : Word) {d : ℕ} (hd : d ≤ 64) : (width - BitVec.ofNat 32 d).toInt =
    if -2^31 ≤ width.toInt - d then width.toInt - d else width.toInt - d + 2^32 := by
  have hlt := BitVec.toInt_lt (x := width)
  have hge := BitVec.le_toInt width
  rw [BitVec.toInt_sub, toInt_ofNat_of_lt (by omega), Int.bmod_def]
  split <;> split <;> omega

theorem printnum_iff (hbase : 1 < base) (hle : base ≤ 16) (num : BitVec 64) (width : Word) (padc : BitVec 8) :
    PrintsNumber base num.toNat width.toInt padc (printnum base hbase num.toNat width padc) ↔
      -2^31 ≤ width.toInt - (numeral base num.toNat).length := by
  have hd := numeral_length_le hbase num.isLt
  have hpad := padding width hd
  have hlength : (printnum base hbase num.toNat width padc).length =
      (width - BitVec.ofNat 32 (numeral base num.toNat).length).toInt.toNat + (numeral base num.toNat).length := by
    rw [printnum_eq, List.length_append, List.length_replicate, List.length_map]
  constructor
  · intro h
    by_contra hneg
    have hout := h.length
    have hge := BitVec.le_toInt width
    rw [if_neg hneg] at hpad
    rw [hlength, hpad] at hout
    omega
  · intro hfits
    rw [if_pos hfits] at hpad
    refine ⟨?_, ?_, ?_, numeral_first⟩
    · rw [hlength, hpad]
      omega
    · rw [hlength, Nat.add_sub_cancel]
      exact printnum_eq hbase _ width padc
    · rw [hlength, Nat.add_sub_cancel, printnum_eq, List.drop_left' List.length_replicate]
      exact numeral_value hbase hle

end Numeral

/-- `-E_INVAL`. -/
def negEInval : Word := -3#32

/-- `struct sprintbuf`: the positions in the buffer, and what the buffer holds. -/
structure Sprintbuf where
  buf : ℕ
  ebuf : ℤ
  cnt : Word
  chars : List (BitVec 8)

/-- `sprintputch`. -/
def sprintputch (b : Sprintbuf) (ch : BitVec 8) : Option Sprintbuf :=
  let b := { b with cnt := b.cnt + 1#32 }
  if (b.buf : ℤ) < b.ebuf then do
    let chars ← storeAt b.chars b.buf ch
    some { b with chars, buf := b.buf + 1 }
  else some b

/-- `vsnprintf`, where `vprintfmt` reads at most `m` characters of the format. The buffer is not part of what the format and
the arguments point to, and a null pointer has none. -/
def vsnprintf (m : ℕ) (mem : Word → List (BitVec 8)) (buf : Option (List (BitVec 8))) (n : Word) (fmt : List (BitVec 8))
    (va : ℕ → Word) : Option (Word × Option (List (BitVec 8))) :=
  match buf with
  | none => some (negEInval, none)
  | some chars =>
    if n.toInt < 1 then some (negEInval, some chars)
    else do
      let out ← vprintfmt m mem va (Vprintfmt.start fmt)
      let b ← out.foldlM sprintputch ⟨0, n.toInt - 1, 0#32, chars⟩
      let chars ← storeAt b.chars b.buf 0#8
      some (b.cnt, some chars)

/-- `vsnprintf` has returned the length of the output, and has left in the first `n` characters of the buffer as much of
the output as they have room for. -/
structure PrintsToBuffer (out chars : List (BitVec 8)) (n : ℤ) (rc : Word) (chars' : List (BitVec 8)) : Prop where
  length : chars'.length = chars.length
  text : chars'.take (min (n.toNat - 1) out.length + 1) = out.take (n.toNat - 1) ++ [0#8]
  beyond : chars'.drop n.toNat = chars.drop n.toNat
  result : rc.toInt = out.length

section Vsnprintf

variable {mem : Word → List (BitVec 8)} {va : ℕ → Word} {fmt out p chars : List (BitVec 8)} {n : Word} {b : Sprintbuf}

/-- What the buffer holds once `p` has been handed to `sprintputch`. -/
structure Sprinted (chars : List (BitVec 8)) (n : ℤ) (p : List (BitVec 8)) (b : Sprintbuf) : Prop where
  buf : b.buf = min (n.toNat - 1) p.length
  ebuf : b.ebuf = n - 1
  cnt : b.cnt = BitVec.ofNat 32 p.length
  chars : b.chars = p.take (n.toNat - 1) ++ chars.drop b.buf

/-- Every character is counted, and it is stored where there is room. -/
theorem Sprinted.putch {k : ℤ} (h : Sprinted chars k p b) (hk : 1 ≤ k) (hchars : k ≤ chars.length) (ch : BitVec 8) :
    ∃ b', sprintputch b ch = some b' ∧ Sprinted chars k (p ++ [ch]) b' := by
  have hbuf := h.buf
  have hebuf := h.ebuf
  have hcnt : b.cnt + 1#32 = BitVec.ofNat 32 (p ++ [ch]).length := by
    rw [h.cnt, List.length_append, List.length_singleton, BitVec.ofNat_add]
  by_cases hroom : (b.buf : ℤ) < b.ebuf
  · have hp : b.buf = p.length := by omega
    have htake : p.take (k.toNat - 1) = p := List.take_of_length_le (by omega)
    have hold := h.chars
    rw [htake, hp] at hold
    have hlength : b.chars.length = chars.length := by
      rw [hold, List.length_append, List.length_drop]
      omega
    have hlt : b.buf < b.chars.length := by omega
    have hset : b.chars.set b.buf ch = p ++ [ch] ++ chars.drop (p.length + 1) := by
      have hdrop : chars.drop p.length = chars.get ⟨p.length, by omega⟩ :: chars.drop (p.length + 1) := List.drop_eq_getElem_cons (by omega)
      rw [hold, hp, List.set_append_right _ _ le_rfl, Nat.sub_self, hdrop, List.set_cons_zero, List.append_assoc, List.singleton_append]
    refine ⟨⟨b.buf + 1, b.ebuf, b.cnt + 1#32, b.chars.set b.buf ch⟩, ?_, ?_, hebuf, hcnt, ?_⟩
    · unfold sprintputch
      rw [if_pos hroom, storeAt_some hlt, Option.bind_eq_bind, Option.bind_some]
    · change b.buf + 1 = _
      rw [List.length_append, List.length_singleton]
      omega
    · change b.chars.set b.buf ch = List.take _ _ ++ List.drop (b.buf + 1) chars
      rw [hset, hp, List.take_of_length_le]
      rw [List.length_append, List.length_singleton]
      omega
  · refine ⟨⟨b.buf, b.ebuf, b.cnt + 1#32, b.chars⟩, if_neg hroom, ?_, hebuf, hcnt, ?_⟩
    · change b.buf = _
      rw [List.length_append, List.length_singleton]
      omega
    · change b.chars = List.take _ _ ++ List.drop b.buf chars
      rw [List.take_append_of_le_length (by omega)]
      exact h.chars

theorem Sprinted.run {k : ℤ} (hk : 1 ≤ k) (hchars : k ≤ chars.length) (x : List (BitVec 8)) :
    ∀ {p b}, Sprinted chars k p b → ∃ b', x.foldlM sprintputch b = some b' ∧ Sprinted chars k (p ++ x) b' := by
  induction x with
  | nil =>
    intro p b h
    exact ⟨b, rfl, by rwa [List.append_nil]⟩
  | cons ch x ih =>
    intro p b h
    obtain ⟨b₁, hput, h₁⟩ := h.putch hk hchars ch
    obtain ⟨b', hrun, h'⟩ := ih h₁
    refine ⟨b', ?_, ?_⟩
    · rw [List.foldlM_cons, hput]
      exact hrun
    · rwa [List.append_assoc, List.singleton_append] at h'

/-- The NUL goes behind what has been stored. -/
theorem Sprinted.terminated {k : ℤ} (h : Sprinted chars k p b) (hk : 1 ≤ k) (hchars : k ≤ chars.length) :
    ∃ chars', storeAt b.chars b.buf 0#8 = some chars' ∧ chars'.length = chars.length ∧
      chars'.take (min (k.toNat - 1) p.length + 1) = p.take (k.toNat - 1) ++ [0#8] ∧
      chars'.drop k.toNat = chars.drop k.toNat := by
  have hbuf := h.buf
  have htake : (p.take (k.toNat - 1)).length = b.buf := by rw [List.length_take, hbuf]
  have hdrop : chars.drop b.buf = chars.get ⟨b.buf, by omega⟩ :: chars.drop (b.buf + 1) := List.drop_eq_getElem_cons (by omega)
  have hlength : b.chars.length = chars.length := by
    rw [h.chars, List.length_append, htake, List.length_drop]
    omega
  have hset : b.chars.set b.buf 0#8 = p.take (k.toNat - 1) ++ [0#8] ++ chars.drop (b.buf + 1) := by
    rw [h.chars, List.set_append_right _ _ htake.le, htake, Nat.sub_self, hdrop, List.set_cons_zero, List.append_assoc,
      List.singleton_append]
  have hfront : (p.take (k.toNat - 1) ++ [0#8]).length = b.buf + 1 := by rw [List.length_append, htake, List.length_singleton]
  refine ⟨b.chars.set b.buf 0#8, storeAt_some (by omega) _, List.length_set.trans hlength, ?_, ?_⟩
  · rw [hset, ← hbuf, List.take_left' hfront]
  · rw [List.drop_set_of_lt (by omega), h.chars, List.drop_append, htake, List.drop_drop, List.drop_of_length_le (by omega),
      List.nil_append]
    congr 1
    omega

theorem vsnprintf_run (hgives : Gives mem va (Vprintfmt.start fmt) out) (hn : 1 ≤ n.toInt) (hchars : n.toInt ≤ chars.length) :
    ∃ k chars', (∀ m ≥ k, vsnprintf m mem (some chars) n fmt va = some (BitVec.ofNat 32 out.length, some chars')) ∧
      chars'.length = chars.length ∧ chars'.take (min (n.toInt.toNat - 1) out.length + 1) = out.take (n.toInt.toNat - 1) ++ [0#8] ∧
      chars'.drop n.toInt.toNat = chars.drop n.toInt.toNat := by
  obtain ⟨k, hk⟩ := hgives
  have hstart : Sprinted chars n.toInt [] ⟨0, n.toInt - 1, 0#32, chars⟩ := by
    refine ⟨(Nat.min_zero _).symm, rfl, rfl, ?_⟩
    rw [List.take_nil, List.nil_append, List.drop_zero]
  obtain ⟨b, hrun, hb⟩ := hstart.run hn hchars out
  obtain ⟨chars', hstore, hlength, htext, hbeyond⟩ := hb.terminated hn hchars
  refine ⟨k, chars', fun m hm => ?_, hlength, htext, hbeyond⟩
  unfold vsnprintf
  simp only [if_neg (not_lt.mpr hn), hk m hm, hrun, hstore, hb.cnt, List.nil_append, Option.bind_eq_bind, Option.bind_some]

/-- The count is an `int`, so it is the length of the output exactly when that length is one. -/
theorem vsnprintf_iff (hgives : Gives mem va (Vprintfmt.start fmt) out) (hn : 1 ≤ n.toInt) (hchars : n.toInt ≤ chars.length) :
    (∃ k rc chars', (∀ m ≥ k, vsnprintf m mem (some chars) n fmt va = some (rc, some chars')) ∧
      PrintsToBuffer out chars n.toInt rc chars') ↔ out.length < 2^31 := by
  obtain ⟨k, chars', hrun, hlength, htext, hbeyond⟩ := vsnprintf_run hgives hn hchars
  constructor
  · rintro ⟨k', rc, _, hrun', hprints⟩
    obtain ⟨rfl, -⟩ := Prod.mk.inj (Option.some.inj ((hrun _ (le_max_left k k')).symm.trans (hrun' _ (le_max_right k k'))))
    have hlt := BitVec.toInt_lt (x := BitVec.ofNat 32 out.length)
    rw [hprints.result] at hlt
    omega
  · intro hsmall
    exact ⟨k, _, chars', hrun, hlength, htext, hbeyond, toInt_ofNat_of_lt hsmall⟩

end Vsnprintf

/-- `printnum` prints what it has to exactly when the width less the number of digits is an `int`, and `vsnprintf` does what it
has to exactly when the length of the output is one. -/
theorem sprintf_iff {base : ℕ} (hbase : 1 < base) (hle : base ≤ 16) (num : BitVec 64) (width : Word) (padc : BitVec 8)
    {mem : Word → List (BitVec 8)} {va : ℕ → Word} {fmt out chars : List (BitVec 8)} {n : Word}
    (hgives : Gives mem va (Vprintfmt.start fmt) out) (hn : 1 ≤ n.toInt) (hchars : n.toInt ≤ chars.length) :
    (PrintsNumber base num.toNat width.toInt padc (printnum base hbase num.toNat width padc) ↔
      -2^31 ≤ width.toInt - (numeral base num.toNat).length) ∧
    ((∃ k rc chars', (∀ m ≥ k, vsnprintf m mem (some chars) n fmt va = some (rc, some chars')) ∧
      PrintsToBuffer out chars n.toInt rc chars') ↔ out.length < 2^31) :=
  ⟨printnum_iff hbase hle num width padc, vsnprintf_iff hgives hn hchars⟩

/-- The format `"%%"`, in a buffer of two characters. -/
theorem sprintf_percent : (PrintsNumber 10 42 5 0x20#8 (printnum 10 (by decide) 42 5#32 0x20#8) ↔
      -2^31 ≤ (5#32).toInt - (numeral 10 42).length) ∧
    ((∃ k rc chars', (∀ m ≥ k, vsnprintf m (fun _ => []) (some [0xff#8, 0xff#8]) 2#32 [0x25#8, 0x25#8, 0#8] (fun _ => 0#32) =
      some (rc, some chars')) ∧ PrintsToBuffer [0x25#8] [0xff#8, 0xff#8] 2 rc chars') ↔ [0x25#8].length < 2^31) := by
  have hgives : Gives (fun _ => []) (fun _ => 0#32) (Vprintfmt.start [0x25#8, 0x25#8, 0#8]) [0x25#8] := by
    refine ⟨3, fun n hn => ?_⟩
    obtain ⟨m, rfl⟩ := Nat.exists_eq_add_of_le' hn
    rfl
  exact sprintf_iff (by decide) (by decide) 42#64 5#32 0x20#8 hgives (by decide) (by decide)

/-- With the least `int` as its width, `printnum` prints pad characters. -/
theorem printnum_least_width :
    ¬ PrintsNumber 10 0 (0x80000000#32).toInt 0x20#8 (printnum 10 (by decide) 0 0x80000000#32 0x20#8) := by
  intro h
  have hfits := (printnum_iff (by decide) (by decide) 0#64 0x80000000#32 0x20#8).mp h
  exact absurd hfits (by decide)
end Sisop
