import Sisop.Sprintf

/-! `strtol` of `lib/string.c`, and that it reads what `printnum` prints. A string is the list
of its characters, and a null character comes behind the last one. -/
namespace Sisop

/-- The character at a pointer. -/
def charAt (s : List (BitVec 8)) : BitVec 8 := s.headD 0#8

def isBlank (c : BitVec 8) : Bool := c = chr ' ' || c = chr '\t'

/-- `dig`, where the character is a digit in some base. -/
def digitOf (c : BitVec 8) : Option ℕ :=
  if chr '0' ≤ c ∧ c ≤ chr '9' then some (c.toNat - 0x30)
  else if chr 'a' ≤ c ∧ c ≤ chr 'z' then some (c.toNat - 0x61 + 10)
  else if chr 'A' ≤ c ∧ c ≤ chr 'Z' then some (c.toNat - 0x41 + 10)
  else none

/-- The plus or minus sign: `neg`, and what is behind it. -/
def strtolSign (s : List (BitVec 8)) : Bool × List (BitVec 8) :=
  if charAt s = chr '+' then (false, s.tail)
  else if charAt s = chr '-' then (true, s.tail)
  else (false, s)

/-- What is behind a hex or octal mark, and the base. -/
def strtolBase (s : List (BitVec 8)) (base : Word) : List (BitVec 8) × Word :=
  if (base = 0#32 ∨ base = 16#32) ∧ charAt s = chr '0' ∧ charAt s.tail = chr 'x' then (s.drop 2, 16#32)
  else if base = 0#32 ∧ charAt s = chr '0' then (s.tail, 8#32)
  else if base = 0#32 then (s, 10#32)
  else (s, base)

/-- The loop over the digits. -/
def strtolDigits (base val : Word) : List (BitVec 8) → Word × List (BitVec 8)
  | [] => (val, [])
  | c :: s =>
    match digitOf c with
    | none => (val, c :: s)
    | some dig =>
      if base.toInt ≤ dig then (val, c :: s) else strtolDigits base (val * base + BitVec.ofNat 32 dig) s

/-- `strtol(s, &endptr, base)`: its result, and the string at `endptr`. -/
def strtol (s : List (BitVec 8)) (base : Word) : Word × List (BitVec 8) :=
  let (neg, s) := strtolSign (s.dropWhile isBlank)
  let (s, base) := strtolBase s base
  let (val, s) := strtolDigits base 0#32 s
  (if neg then -val else val, s)

section Strtol

variable {base num v d : ℕ} {b val : Word} {c : BitVec 8} {cs rest : List (BitVec 8)}

/-- The number that digits stand for, the first one first. -/
def numberOf (base v : ℕ) (cs : List (BitVec 8)) : ℕ := cs.foldl (fun v c => v * base + (digitOf c).getD 0) v

/-- The characters are digits of the base. -/
def Digits (base : ℕ) (cs : List (BitVec 8)) : Prop := ∀ c ∈ cs, ∃ d < base, digitOf c = some d

/-- The string does not go on with a digit of the base. -/
def Stops (base : ℕ) (s : List (BitVec 8)) : Prop := ∀ d, digitOf (charAt s) = some d → base ≤ d

theorem strtolDigits_append (hb : base ≤ 16) (hcs : Digits base cs) :
    strtolDigits (BitVec.ofNat 32 base) (BitVec.ofNat 32 v) (cs ++ rest) =
      strtolDigits (BitVec.ofNat 32 base) (BitVec.ofNat 32 (numberOf base v cs)) rest := by
  induction cs generalizing v with
  | nil => rfl
  | cons c cs ih =>
    obtain ⟨d, hd, hdigit⟩ := hcs c List.mem_cons_self
    have hint : (BitVec.ofNat 32 base).toInt = (base : ℤ) := toInt_ofNat_of_lt (by omega)
    have hval : BitVec.ofNat 32 v * BitVec.ofNat 32 base + BitVec.ofNat 32 d = BitVec.ofNat 32 (v * base + d) := by
      rw [BitVec.ofNat_add, BitVec.ofNat_mul]
    rw [List.cons_append, strtolDigits, hdigit]
    dsimp only
    rw [if_neg (by omega), hval, ih fun c' hc' => hcs c' (List.mem_cons_of_mem c hc')]
    congr 2
    rw [numberOf, numberOf, List.foldl_cons, hdigit]
    rfl

theorem strtolDigits_stop (hb : base ≤ 16) (h : Stops base rest) :
    strtolDigits (BitVec.ofNat 32 base) val rest = (val, rest) := by
  cases rest with
  | nil => rfl
  | cons c rest =>
    have hint : (BitVec.ofNat 32 base).toInt = (base : ℤ) := toInt_ofNat_of_lt (by omega)
    have hc : charAt (c :: rest) = c := rfl
    rw [strtolDigits]
    cases hdigit : digitOf c with
    | none => rfl
    | some d =>
      have hle := h d (hc ▸ hdigit)
      exact if_pos (by omega)

theorem strtolDigits_length (b val : Word) (cs : List (BitVec 8)) : (strtolDigits b val cs).2.length ≤ cs.length := by
  induction cs generalizing val with
  | nil => exact le_rfl
  | cons c cs ih =>
    rw [strtolDigits]
    cases digitOf c with
    | none => exact le_rfl
    | some d =>
      dsimp only
      split_ifs
      · exact le_rfl
      · exact (ih _).trans (Nat.le_succ _)

/-- One more digit, and the end is not where it should be. -/
theorem strtolDigits_goes_on (hb : base ≤ 16) (h : ¬ Stops base rest) :
    (strtolDigits (BitVec.ofNat 32 base) val rest).2 ≠ rest := by
  have hint : (BitVec.ofNat 32 base).toInt = (base : ℤ) := toInt_ofNat_of_lt (by omega)
  simp only [Stops, not_forall, not_le] at h
  obtain ⟨d, hdigit, hlt⟩ := h
  cases rest with
  | nil => cases hdigit
  | cons c rest =>
    have hc : digitOf c = some d := hdigit
    rw [strtolDigits, hc]
    dsimp only
    rw [if_neg (by omega)]
    intro heq
    have hlen := strtolDigits_length (BitVec.ofNat 32 base) (val * BitVec.ofNat 32 base + BitVec.ofNat 32 d) rest
    rw [heq, List.length_cons] at hlen
    omega

theorem numberOf_append (base v : ℕ) (cs ds : List (BitVec 8)) :
    numberOf base v (cs ++ ds) = numberOf base (numberOf base v cs) ds := List.foldl_append

theorem digitOf_hexDigit (hd : d < 16) : digitOf (hexDigit d) = some d := by
  interval_cases d <;> decide

theorem numberOf_zeros (base k : ℕ) : numberOf base 0 (List.replicate k (chr '0')) = 0 := by
  have hzero : (digitOf (chr '0')).getD 0 = 0 := by decide
  induction k with
  | zero => rfl
  | succ k ih =>
    rw [List.replicate_succ, numberOf, List.foldl_cons, hzero, Nat.zero_mul]
    exact ih

/-- The digits of a number stand for it. -/
theorem numberOf_numeral (hbase : 1 < base) (hle : base ≤ 16) (num : ℕ) :
    numberOf base 0 ((numeral base num).map hexDigit) = num := by
  induction num using Nat.strong_induction_on with
  | _ num ih =>
    by_cases h : base ≤ num
    · have hdiv : num / base < num := Nat.div_lt_self (by omega) hbase
      have hmod : num % base < base := Nat.mod_lt num (by omega)
      rw [numeral_of_le hbase h, List.map_append, numberOf_append, ih _ hdiv, List.map_singleton, numberOf,
        List.foldl_cons, List.foldl_nil, digitOf_hexDigit (by omega)]
      exact Nat.div_add_mod' num base
    · have hlt := Nat.lt_of_not_le h
      rw [numeral_of_lt hlt, List.map_singleton, numberOf, List.foldl_cons, List.foldl_nil, digitOf_hexDigit (by omega),
        Nat.zero_mul, Nat.zero_add]
      rfl

theorem digits_numeral (hbase : 1 < base) (hle : base ≤ 16) (num : ℕ) : Digits base ((numeral base num).map hexDigit) := by
  intro c hc
  obtain ⟨d, hd, rfl⟩ := List.mem_map.mp hc
  have hlt := numeral_lt hbase hd
  exact ⟨d, hlt, digitOf_hexDigit (by omega)⟩

theorem digits_zeros (hbase : 1 < base) (k : ℕ) : Digits base (List.replicate k (chr '0')) := by
  intro c hc
  rw [List.eq_of_mem_replicate hc]
  exact ⟨0, by omega, by decide⟩

/-- What is no digit: blanks, signs and the mark of a hex number. -/
theorem digitOf_other {d : ℕ} (hd : d < 16) (h : digitOf c = some d) :
    isBlank c = false ∧ c ≠ chr '+' ∧ c ≠ chr '-' ∧ c ≠ chr 'x' := by
  have hnone (c' : BitVec 8) (hc' : digitOf c' = none) : c ≠ c' := by
    rintro rfl
    rw [hc'] at h
    cases h
  have hx : c ≠ chr 'x' := by
    rintro rfl
    have hlarge : digitOf (chr 'x') = some 33 := by decide
    rw [hlarge] at h
    have heq := Option.some.inj h
    omega
  have hspace := hnone (chr ' ') (by decide)
  have htab := hnone (chr '\t') (by decide)
  refine ⟨?_, hnone _ (by decide), hnone _ (by decide), hx⟩
  simp only [isBlank, hspace, htab, decide_false, Bool.or_self]

theorem Digits.cons_inv {text : List (BitVec 8)} (hle : base ≤ 16) (h : Digits base (c :: text)) :
    Digits base text ∧ isBlank c = false ∧ c ≠ chr '+' ∧ c ≠ chr '-' ∧ c ≠ chr 'x' := by
  obtain ⟨d, hd, hdigit⟩ := h c List.mem_cons_self
  exact ⟨fun c' hc' => h c' (List.mem_cons_of_mem c hc'), digitOf_other (by omega) hdigit⟩

/-- A number that is `0` alone is taken for the mark of a hex number, where there is an `x` behind it. -/
theorem strtolBase_text {text : List (BitVec 8)} (hbase : 1 < base) (hle : base ≤ 16) (ht : Digits base text) (hne : text ≠ []) :
    strtolBase (text ++ rest) (BitVec.ofNat 32 base) =
      if base = 16 ∧ text = [chr '0'] ∧ charAt rest = chr 'x' then (rest.tail, 16#32)
      else (text ++ rest, BitVec.ofNat 32 base) := by
  have hzero : BitVec.ofNat 32 base ≠ 0#32 := by bv_omega
  have hbase16 : BitVec.ofNat 32 base = 16#32 ↔ base = 16 := by
    constructor
    · intro heq
      bv_omega
    · rintro rfl
      rfl
  cases text with
  | nil => exact absurd rfl hne
  | cons c text =>
    have hfirst : charAt (c :: text ++ rest) = c := rfl
    have htail : (c :: text ++ rest).tail = text ++ rest := rfl
    obtain ⟨ht', -⟩ := ht.cons_inv hle
    have hmark : charAt (text ++ rest) = chr 'x' ↔ text = [] ∧ charAt rest = chr 'x' := by
      cases text with
      | nil => exact (and_iff_right rfl).symm
      | cons c' text =>
        obtain ⟨-, -, -, -, hx⟩ := ht'.cons_inv hle
        exact iff_of_false hx fun h => absurd h.1 (List.cons_ne_nil c' text)
    have hiff : ((BitVec.ofNat 32 base = 0#32 ∨ BitVec.ofNat 32 base = 16#32) ∧ c = chr '0' ∧ charAt (text ++ rest) = chr 'x') ↔
        base = 16 ∧ c :: text = [chr '0'] ∧ charAt rest = chr 'x' := by
      rw [hmark, or_iff_right hzero, hbase16, List.cons.injEq]
      tauto
    unfold strtolBase
    rw [hfirst, htail]
    by_cases hcase : base = 16 ∧ c :: text = [chr '0'] ∧ charAt rest = chr 'x'
    · rw [if_pos (hiff.mpr hcase), if_pos hcase, hcase.2.1, List.singleton_append, List.drop_succ_cons, List.drop_one]
    · rw [if_neg (mt hiff.mp hcase), if_neg hcase, if_neg fun h => hzero h.1, if_neg hzero]

/-- What `strtol` makes of a number behind blanks and a sign. -/
theorem strtol_text {s text : List (BitVec 8)} {neg : Bool} (hbase : 1 < base) (hle : base ≤ 16) (ht : Digits base text)
    (hne : text ≠ []) (hs : strtolSign (s.dropWhile isBlank) = (neg, text ++ rest)) :
    strtol s (BitVec.ofNat 32 base) =
        (if neg then -BitVec.ofNat 32 (numberOf base 0 text) else BitVec.ofNat 32 (numberOf base 0 text), rest) ↔
      Stops base rest ∧ ¬ (base = 16 ∧ text = [chr '0'] ∧ charAt rest = chr 'x') := by
  unfold strtol
  rw [hs]
  dsimp only
  rw [strtolBase_text hbase hle ht hne]
  by_cases hmark : base = 16 ∧ text = [chr '0'] ∧ charAt rest = chr 'x'
  · refine iff_of_false (fun heq => ?_) fun h => h.2 hmark
    rw [if_pos hmark] at heq
    have hlen := strtolDigits_length 16#32 0#32 rest.tail
    have hend : (strtolDigits 16#32 0#32 rest.tail).2 = rest := congrArg Prod.snd heq
    rw [hend, List.length_tail] at hlen
    cases rest with
    | nil => exact absurd hmark.2.2 (by decide)
    | cons c rest =>
      rw [List.length_cons] at hlen
      omega
  · rw [if_neg hmark, and_iff_left hmark]
    dsimp only
    have hrun : strtolDigits (BitVec.ofNat 32 base) 0#32 (text ++ rest) =
        strtolDigits (BitVec.ofNat 32 base) (BitVec.ofNat 32 (numberOf base 0 text)) rest := strtolDigits_append hle ht
    rw [hrun]
    constructor
    · intro heq
      by_contra hgoes
      exact strtolDigits_goes_on hle hgoes (congrArg Prod.snd heq)
    · intro hstop
      rw [strtolDigits_stop hle hstop]

/-- The sign that `vprintfmt` puts in front of a negative number. -/
def signed (neg : Bool) (text : List (BitVec 8)) : List (BitVec 8) := if neg then chr '-' :: text else text

theorem strtolSign_digits {text : List (BitVec 8)} (hle : base ≤ 16) (ht : Digits base text) (hne : text ≠ [])
    (rest : List (BitVec 8)) : (text ++ rest).dropWhile isBlank = text ++ rest ∧ strtolSign (text ++ rest) = (false, text ++ rest) := by
  cases text with
  | nil => exact absurd rfl hne
  | cons c text =>
    obtain ⟨-, hblank, hplus, hminus, -⟩ := ht.cons_inv hle
    refine ⟨List.dropWhile_cons_of_neg (by rw [hblank]; exact Bool.false_ne_true), ?_⟩
    unfold strtolSign
    rw [if_neg (show charAt (c :: text ++ rest) ≠ chr '+' from hplus),
      if_neg (show charAt (c :: text ++ rest) ≠ chr '-' from hminus)]

theorem strtolSign_minus (text : List (BitVec 8)) : strtolSign ((chr '-' :: text).dropWhile isBlank) = (true, text) := by
  rw [List.dropWhile_cons_of_neg (by decide)]
  rfl

theorem strtol_signed {text : List (BitVec 8)} (hbase : 1 < base) (hle : base ≤ 16) (ht : Digits base text) (hne : text ≠ [])
    (neg : Bool) (rest : List (BitVec 8)) : strtol (signed neg text ++ rest) (BitVec.ofNat 32 base) =
        (if neg then -BitVec.ofNat 32 (numberOf base 0 text) else BitVec.ofNat 32 (numberOf base 0 text), rest) ↔
      Stops base rest ∧ ¬ (base = 16 ∧ text = [chr '0'] ∧ charAt rest = chr 'x') := by
  obtain ⟨hblank, hsign⟩ := strtolSign_digits hle ht hne rest
  apply strtol_text hbase hle ht hne
  cases neg with
  | false =>
    change strtolSign ((text ++ rest).dropWhile isBlank) = _
    rw [hblank, hsign]
  | true => exact strtolSign_minus (text ++ rest)

/-- Blanks behind a sign are the end of the number. -/
theorem strtol_blank {s text : List (BitVec 8)} (hbase : 1 < base) (hle : base ≤ 16) (val : Word)
    (hs : s = chr '-' :: chr ' ' :: text ++ rest) : strtol s (BitVec.ofNat 32 base) ≠ (val, rest) := by
  have hsign : strtolSign (s.dropWhile isBlank) = (true, chr ' ' :: text ++ rest) := by
    rw [hs]
    exact strtolSign_minus _
  have hzero : BitVec.ofNat 32 base ≠ 0#32 := by bv_omega
  have hfirst : charAt (chr ' ' :: text ++ rest) ≠ chr '0' := by
    change chr ' ' ≠ chr '0'
    decide
  have hmark : strtolBase (chr ' ' :: text ++ rest) (BitVec.ofNat 32 base) = (chr ' ' :: text ++ rest, BitVec.ofNat 32 base) := by
    unfold strtolBase
    rw [if_neg fun h => hfirst h.2.1, if_neg fun h => hzero h.1, if_neg hzero]
  unfold strtol
  rw [hsign]
  dsimp only
  rw [hmark]
  dsimp only
  rw [strtolDigits_stop hle fun d hd => absurd hd (by
    change digitOf (chr ' ') ≠ some d
    rw [show digitOf (chr ' ') = none by decide]
    exact Option.some_ne_none d |>.symm)]
  intro heq
  have hend : chr ' ' :: text ++ rest = rest := congrArg Prod.snd heq
  have hlen := congrArg List.length hend
  rw [List.cons_append, List.length_cons, List.length_append] at hlen
  omega

theorem dropWhile_spaces {text : List (BitVec 8)} (k : ℕ) :
    (List.replicate k (chr ' ') ++ text).dropWhile isBlank = text.dropWhile isBlank := by
  induction k with
  | zero => rfl
  | succ k ih => rw [List.replicate_succ, List.cons_append, List.dropWhile_cons_of_pos (by decide), ih]

/-- `strtol` reads back a number that `printnum` has printed, padded with blanks or zeros, with a
sign or not, and stops right behind it. It does not where the text goes on with a digit of the
base, where `0x` comes about in base 16, or where blanks stand between the sign and the number. -/
theorem strtol_printnum_iff (hbase : 1 < base) (hle : base ≤ 16) (num : BitVec 64) (width : Word) {padc : BitVec 8}
    (hpad : padc = chr '0' ∨ padc = chr ' ') (neg : Bool) (rest : List (BitVec 8)) :
    strtol (signed neg (printnum base hbase num.toNat width padc) ++ rest) (BitVec.ofNat 32 base) =
        (if neg then -num.setWidth 32 else num.setWidth 32, rest) ↔
      (∀ d, digitOf (charAt rest) = some d → base ≤ d) ∧
      ¬ (base = 16 ∧ (printnum base hbase num.toNat width padc).dropWhile isBlank = [chr '0'] ∧ charAt rest = chr 'x') ∧
      (neg = true → padc = chr '0' ∨
        (printnum base hbase num.toNat width padc).length = (numeral base num.toNat).length) := by
  obtain ⟨k, hk⟩ : ∃ k, printnum base hbase num.toNat width padc =
      List.replicate k padc ++ (numeral base num.toNat).map hexDigit := ⟨_, printnum_eq hbase _ width padc⟩
  obtain ⟨text, htext⟩ : ∃ text, text = (numeral base num.toNat).map hexDigit := ⟨_, rfl⟩
  have hdigits : Digits base text := htext ▸ digits_numeral hbase hle num.toNat
  have hne : text ≠ [] := by
    have hpos : 0 < (numeral base num.toNat).length := numeral_length_pos
    rw [htext]
    intro hnil
    rw [List.map_eq_nil_iff.mp hnil] at hpos
    exact absurd hpos (Nat.lt_irrefl 0)
  have hval : BitVec.ofNat 32 (numberOf base 0 text) = num.setWidth 32 := by
    rw [htext, numberOf_numeral hbase hle]
    rfl
  rw [hk, ← htext, List.length_append, List.length_replicate, ← List.length_map hexDigit, ← htext]
  rcases hpad with rfl | rfl
  · -- zeros are digits of the number
    have hwhole : Digits base (List.replicate k (chr '0') ++ text) := fun c hc =>
      (List.mem_append.mp hc).elim (digits_zeros hbase k c) (hdigits c)
    have hnumber : numberOf base 0 (List.replicate k (chr '0') ++ text) = numberOf base 0 text := by
      rw [numberOf_append, numberOf_zeros]
    have hwne : List.replicate k (chr '0') ++ text ≠ [] := fun h => hne (List.append_eq_nil_iff.mp h).2
    have hdrop : (List.replicate k (chr '0') ++ text).dropWhile isBlank = List.replicate k (chr '0') ++ text := by
      have hself := (strtolSign_digits hle hwhole hwne []).1
      rwa [List.append_nil] at hself
    have hiff := strtol_signed hbase hle hwhole hwne neg rest
    rw [hnumber, hval] at hiff
    rw [hiff, hdrop]
    exact and_congr_right fun _ => (and_iff_left fun _ => Or.inl rfl).symm
  have hdrop : (List.replicate k (chr ' ') ++ text).dropWhile isBlank = text := by
    have hself := (strtolSign_digits hle hdigits hne []).1
    rw [dropWhile_spaces]
    rwa [List.append_nil] at hself
  rw [hdrop]
  cases neg with
  | false =>
    obtain ⟨hblank, hsign⟩ := strtolSign_digits hle hdigits hne rest
    have hread : strtolSign ((List.replicate k (chr ' ') ++ text ++ rest).dropWhile isBlank) = (false, text ++ rest) := by
      rw [List.append_assoc, dropWhile_spaces, hblank, hsign]
    have hiff := strtol_text hbase hle hdigits hne hread
    rw [hval] at hiff
    refine hiff.trans (and_congr_right fun _ => (and_iff_left ?_).symm)
    exact fun h => absurd h Bool.false_ne_true
  | true =>
    rcases Nat.eq_zero_or_pos k with rfl | hpos
    · have hiff := strtol_signed hbase hle hdigits hne true rest
      rw [hval] at hiff
      rw [List.replicate_zero, List.nil_append, hiff]
      exact and_congr_right fun _ => (and_iff_left fun _ => Or.inr (Nat.zero_add _)).symm
    · refine iff_of_false ?_ fun h => ?_
      · obtain ⟨k, rfl⟩ := Nat.exists_eq_succ_of_ne_zero hpos.ne'
        exact strtol_blank hbase hle _ (show _ = chr '-' :: chr ' ' :: (List.replicate k (chr ' ') ++ text) ++ rest from rfl)
      · rcases h.2.2 rfl with hpad | hlen
        · exact absurd hpad (by decide)
        · omega

/-- The pad characters, a minus sign and a comma behind the number do no harm. -/
theorem strtol_printnum_hex : strtol (signed true (printnum 16 (by decide) (0xBEEF#64).toNat 8#32 (chr '0')) ++ [chr ','])
    16#32 = (-0xBEEF#32, [chr ',']) :=
  (strtol_printnum_iff (by decide) (by decide) 0xBEEF#64 8#32 (Or.inl rfl) true [chr ',']).mpr (by decide +kernel)

end Strtol
end Sisop
