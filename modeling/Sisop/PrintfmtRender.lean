import Sisop.Strtol

/-! What a format stands for, and that `vprintfmt` and `vsnprintf` print it. -/
namespace Sisop

/-- A number in a format, written out or taken from the arguments. A written 0 is no number: `vprintfmt` has it for the flag. -/
inductive Field
  | number (n : ℕ) (h : 0 < n ∧ n < 2^31)
  | star

/-- The flag for the side of the padding. -/
inductive Pad
  | right
  | zeros

/-- An escape, as its writer means it. -/
structure Directive where
  alt : Bool
  pad : Option Pad
  width : Option Field
  precision : Option Field
  longs : ℕ
  conv : BitVec 8
  conv_mem : conv ∈ conversions
  longs_lt : longs < 2^31

def decimal (n : ℕ) : List (BitVec 8) := (numeral 10 n).map hexDigit

def Field.chars : Field → List (BitVec 8)
  | .number n _ => decimal n
  | .star => [chr '*']

def Pad.char : Pad → BitVec 8
  | .right => chr '-'
  | .zeros => chr '0'

def fieldChars (field : Option Field) : List (BitVec 8) := (field.map Field.chars).getD []

def fieldWords (field : Option Field) : ℕ :=
  match field with
  | some .star => 1
  | _ => 0

namespace Directive

/-- The flags of an escape, in the order in which they are written. -/
def flags (d : Directive) : List (BitVec 8) :=
  (if d.alt then [chr '#'] else []) ++ ((d.pad.map fun p => [p.char]).getD [] ++ (fieldChars d.width ++
    ((d.precision.map fun p => chr '.' :: p.chars).getD [] ++ List.replicate d.longs (chr 'l'))))

def chars (d : Directive) : List (BitVec 8) := chr '%' :: (d.flags ++ [d.conv])

/-- The words that the `*` of an escape take. -/
def stars (d : Directive) : ℕ := fieldWords d.width + fieldWords d.precision

/-- The words that its number takes. -/
def argument (d : Directive) : ℕ :=
  if d.conv = chr 'd' ∨ d.conv = chr 'u' ∨ d.conv = chr 'o' ∨ d.conv = chr 'x' then if 2 ≤ d.longs then 2 else 1
  else if d.conv = chr '%' then 0
  else 1

def words (d : Directive) : ℕ := d.stars + d.argument

/-- The width that is asked for. A negative one asks for nothing. -/
def widthFor (d : Directive) (va : ℕ → Word) : ℕ :=
  match d.width with
  | none => 0
  | some (.number n _) => n
  | some .star => (va 0).toInt.toNat

/-- How many characters of a string are asked for, if not all of them. -/
def precisionFor (d : Directive) (va : ℕ → Word) : Option ℕ :=
  match d.precision with
  | none => none
  | some (.number n _) => some n
  | some .star => if (va (fieldWords d.width)).toInt < 0 then none else some (va (fieldWords d.width)).toInt.toNat

def padFor (d : Directive) : BitVec 8 := (d.pad.map Pad.char).getD (chr ' ')

/-- Filled up on the left. -/
def fill (d : Directive) (va : ℕ → Word) (text : List (BitVec 8)) : List (BitVec 8) :=
  List.replicate (d.widthFor va - text.length) d.padFor ++ text

/-- Filled up on the side that is asked for. -/
def justify (d : Directive) (va : ℕ → Word) (text : List (BitVec 8)) : List (BitVec 8) :=
  if d.padFor = chr '-' then text ++ List.replicate (d.widthFor va - text.length) (chr ' ') else d.fill va text

def cut (d : Directive) (va : ℕ → Word) (text : List (BitVec 8)) : List (BitVec 8) :=
  (d.precisionFor va).elim text text.take

/-- `?` for what cannot be printed, if that is asked for. -/
def mask (d : Directive) (ch : BitVec 8) : BitVec 8 := if d.alt ∧ (ch < chr ' ' ∨ chr '~' < ch) then chr '?' else ch

def unsignedArg (d : Directive) (va : ℕ → Word) : ℕ :=
  if 2 ≤ d.longs then (va 1).toNat * 2^32 + (va 0).toNat else (va 0).toNat

def signedArg (d : Directive) (va : ℕ → Word) : ℤ :=
  if 2 ≤ d.longs then (va 1).toInt * 2^32 + (va 0).toNat else (va 0).toInt

/-- A number with its sign or `0x`, in front of which there are blanks. Zeros stand behind it. -/
def numberField (d : Directive) (va : ℕ → Word) (sign digits : List (BitVec 8)) : List (BitVec 8) :=
  if d.padFor = chr '0' then sign ++ (List.replicate (d.widthFor va - (sign ++ digits).length) (chr '0') ++ digits)
  else d.justify va (sign ++ digits)

end Directive

/-- The characters of a string in memory. -/
def stringAt (mem : Word → List (BitVec 8)) (p : Word) : List (BitVec 8) :=
  if p = 0#32 then "(null)".toList.map chr else (mem p).takeWhile (· ≠ 0#8)

/-- The text of an error. -/
def errorText (err : Word) : List (BitVec 8) :=
  (errorString[err.toInt.natAbs]?).join.elim ("error ".toList.map chr ++ decimal err.toInt.natAbs) (List.takeWhile (· ≠ 0#8))

namespace Directive

/-- What an escape stands for, with the words of the argument list from it on. -/
def render (d : Directive) (mem : Word → List (BitVec 8)) (va : ℕ → Word) : List (BitVec 8) :=
  let arg : ℕ → Word := fun i => va (d.stars + i)
  let digits : ℕ → ℕ → List (BitVec 8) := fun base n => (numeral base n).map hexDigit
  if d.conv = chr 'c' then d.justify va [(arg 0).setWidth 8]
  else if d.conv = chr 'e' then d.justify va (errorText (arg 0))
  else if d.conv = chr 's' then d.justify va ((d.cut va (stringAt mem (arg 0))).map d.mask)
  else if d.conv = chr 'd' then
    d.numberField va (if d.signedArg arg < 0 then [chr '-'] else []) (digits 10 (d.signedArg arg).natAbs)
  else if d.conv = chr 'u' then d.numberField va [] (digits 10 (d.unsignedArg arg))
  else if d.conv = chr 'o' then d.numberField va [] (digits 8 (d.unsignedArg arg))
  else if d.conv = chr 'x' then d.numberField va [] (digits 16 (d.unsignedArg arg))
  else if d.conv = chr 'p' then d.numberField va [chr '0', chr 'x'] (digits 16 (arg 0).toNat)
  else [chr '%']

/-- What the escape asks for is done: `#`, `-` and a precision are for strings, a width is for strings and numbers, and one that
leaves room is not for a number with a sign or `0x`, which `printnum` does not count. -/
structure Kept (d : Directive) (va : ℕ → Word) : Prop where
  alt : d.alt = true → d.conv = chr 's'
  side : d.pad = some .right → d.conv = chr 's'
  precision : d.precision.isSome = true → d.conv = chr 's'
  width : d.width.isSome = true → d.conv ∉ [chr 'c', chr 'e', chr '%']
  sign : d.conv = chr 'd' → d.signedArg (fun i => va (d.stars + i)) < 0 →
    d.widthFor va ≤ (numeral 10 (d.signedArg fun i => va (d.stars + i)).natAbs).length
  pointer : d.conv = chr 'p' → d.widthFor va ≤ (numeral 16 (va d.stars).toNat).length

/-- The arguments will do: a width is not below all that is ever asked for, a string comes to its end in less than a
gigabyte, and an error can be negated. -/
structure Supplied (d : Directive) (mem : Word → List (BitVec 8)) (va : ℕ → Word) : Prop where
  width : ∀ w ∈ d.width, w = .star → -2^30 ≤ (va 0).toInt
  string : d.conv = chr 's' → va d.stars = 0#32 ∨
    (0#8 ∈ mem (va d.stars) ∧ (stringAt mem (va d.stars)).length < 2^30)
  error : d.conv = chr 'e' → va d.stars ≠ 0x80000000#32

end Directive

/-- A format is made of text and of escapes. -/
inductive Item
  | text (t : List (BitVec 8)) (h : chr '%' ∉ t ∧ 0#8 ∉ t)
  | escape (d : Directive)

namespace Item

def chars : Item → List (BitVec 8)
  | .text t _ => t
  | .escape d => d.chars

def words : Item → ℕ
  | .text _ _ => 0
  | .escape d => d.words

def render (mem : Word → List (BitVec 8)) (va : ℕ → Word) : Item → List (BitVec 8)
  | .text t _ => t
  | .escape d => d.render mem va

def Supplied (mem : Word → List (BitVec 8)) (va : ℕ → Word) : Item → Prop
  | .text _ _ => True
  | .escape d => d.Supplied mem va ∧ d.Kept va

end Item

/-- The format that the items are. -/
def formatOf (items : List Item) : List (BitVec 8) := items.flatMap Item.chars ++ [0#8]

/-- What the items stand for, one after the other, each with the words behind those of the items in front of it. -/
def rendered (mem : Word → List (BitVec 8)) (va : ℕ → Word) : ℕ → List Item → List (BitVec 8)
  | _, [] => []
  | ap, i :: items => i.render mem (fun k => va (ap + k)) ++ rendered mem va (ap + i.words) items

def AllSupplied (mem : Word → List (BitVec 8)) (va : ℕ → Word) : ℕ → List Item → Prop
  | _, [] => True
  | ap, i :: items => i.Supplied mem (fun k => va (ap + k)) ∧ AllSupplied mem va (ap + i.words) items

section Flags

variable {mem : Word → List (BitVec 8)} {va : ℕ → Word} {rest o out ds : List (BitVec 8)} {ap v : ℕ} {e : Escape}
  {ch c : BitVec 8}

/-- From `rest` on the scan ends with `out`, whatever is in front of `rest`. -/
def Reads (mem : Word → List (BitVec 8)) (va : ℕ → Word) (rest : List (BitVec 8)) (ap : ℕ) (e : Option Escape)
    (o out : List (BitVec 8)) : Prop := ∀ passed, Gives mem va ⟨⟨passed, rest⟩, ap, e, o⟩ out

theorem Reads.flag (hch : ch ∈ plainFlags) (h : Reads mem va rest ap (some (e.flag ch)) o out) :
    Reads mem va (ch :: rest) ap (some e) o out :=
  fun passed => gives_switch 0 (fun _ _ => if_pos hch) (h (ch :: passed))

theorem Reads.longs (k : ℕ) (h : Reads mem va rest ap (some { e with lflag := e.lflag + BitVec.ofNat 32 k }) o out) :
    Reads mem va (List.replicate k (chr 'l') ++ rest) ap (some e) o out := by
  induction k generalizing e with
  | zero =>
    have hnone : e.lflag + BitVec.ofNat 32 0 = e.lflag := BitVec.add_zero _
    rw [hnone] at h
    exact h
  | succ k ih =>
    rw [List.replicate_succ, List.cons_append]
    apply Reads.flag (by decide)
    apply ih
    have hnext : e.lflag + 1#32 + BitVec.ofNat 32 k = e.lflag + BitVec.ofNat 32 (k + 1) := by
      rw [BitVec.add_assoc, Nat.add_comm, BitVec.ofNat_add]
    change Reads mem va rest ap (some { e with lflag := e.lflag + 1#32 + BitVec.ofNat 32 k }) o out
    rw [hnext]
    exact h

/-- One digit more. -/
theorem digit_word {d : ℕ} (hd : d < 10) (hdigit : digitOf ch = some d) (p : Word) :
    isDigit ch = true ∧ p * 10#32 + ch.setWidth 32 - 0x30#32 = p * 10#32 + BitVec.ofNat 32 d := by
  unfold digitOf at hdigit
  split_ifs at hdigit with hnum hlow hup
  · have hval : ch.toNat - 0x30 = d := Option.some.inj hdigit
    have hle : 0x30 ≤ ch.toNat := BitVec.le_def.mp hnum.1
    refine ⟨decide_eq_true hnum, ?_⟩
    rw [← hval]
    bv_omega
  all_goals
    have hval := Option.some.inj hdigit
    omega

/-- The width field takes the digits of a number. -/
theorem scanDigits_number (hds : Digits 10 (ch :: ds)) (hc : isDigit c = false) (passed : List (BitVec 8)) :
    scanDigits (BitVec.ofNat 32 v) ch passed (ds ++ c :: rest) =
      some (BitVec.ofNat 32 (numberOf 10 v (ch :: ds)), ⟨ds.reverse ++ passed, c :: rest⟩) := by
  induction ds generalizing v ch passed with
  | nil =>
    obtain ⟨d, hd, hdigit⟩ := hds ch List.mem_cons_self
    obtain ⟨-, hword⟩ := digit_word hd hdigit (BitVec.ofNat 32 v)
    have hval : BitVec.ofNat 32 v * 10#32 + BitVec.ofNat 32 d = BitVec.ofNat 32 (v * 10 + d) := by
      rw [BitVec.ofNat_add, BitVec.ofNat_mul]
    rw [List.nil_append, scanDigits, if_neg (by rw [hc]; decide), hword, hval, numberOf, List.foldl_cons, hdigit]
    rfl
  | cons ch' ds ih =>
    obtain ⟨d, hd, hdigit⟩ := hds ch List.mem_cons_self
    obtain ⟨-, hword⟩ := digit_word hd hdigit (BitVec.ofNat 32 v)
    have hrest : Digits 10 (ch' :: ds) := fun b hb => hds b (List.mem_cons_of_mem ch hb)
    obtain ⟨d', hd', hdigit'⟩ := hrest ch' List.mem_cons_self
    obtain ⟨hnext, -⟩ := digit_word hd' hdigit' 0#32
    have hval : BitVec.ofNat 32 v * 10#32 + BitVec.ofNat 32 d = BitVec.ofNat 32 (v * 10 + d) := by
      rw [BitVec.ofNat_add, BitVec.ofNat_mul]
    have hnumber : numberOf 10 v (ch :: ch' :: ds) = numberOf 10 (v * 10 + d) (ch' :: ds) := by
      rw [numberOf, numberOf, List.foldl_cons, hdigit]
      rfl
    rw [List.cons_append, scanDigits, if_pos hnext, hword, hval, ih hrest, hnumber, List.reverse_cons, List.append_assoc,
      List.singleton_append]

/-- A number of one or more, and where it ends. -/
theorem Reads.number {n : ℕ} (hn : 0 < n ∧ n < 2^31) (hc : isDigit c = false)
    (h : Reads mem va (c :: rest) ap (some { e with precision := BitVec.ofNat 32 n }.processPrecision) o out) :
    Reads mem va (decimal n ++ c :: rest) ap (some e) o out := by
  intro passed
  have hdigits : Digits 10 (decimal n) := digits_numeral (by decide) (by decide) n
  have hvalue : numberOf 10 0 (decimal n) = n := numberOf_numeral (by decide) (by decide) n
  have hfirst : ∀ ch ds, decimal n = ch :: ds → ch ≠ chr '0' := by
    intro ch ds heq
    rintro rfl
    have hhead : ((numeral 10 n).map hexDigit).head? = some (chr '0') := congrArg List.head? heq
    rw [List.head?_map, Option.map_eq_some_iff] at hhead
    obtain ⟨d, hd, hzero⟩ := hhead
    have hlt := numeral_lt (by decide) (List.mem_of_mem_head? hd)
    have hd0 : d = 0 := by interval_cases d <;> first | rfl | exact absurd hzero (by decide)
    rw [hd0] at hd
    have hall := numeral_first hd
    have hval := hvalue
    unfold decimal at hval
    rw [hall] at hval
    have hn0 : n = 0 := hval.symm
    omega
  cases htext : decimal n with
  | nil =>
    have hlen : (decimal n).length = (numeral 10 n).length := List.length_map _
    have hpos : 0 < (numeral 10 n).length := numeral_length_pos
    rw [htext, List.length_nil] at hlen
    omega
  | cons ch ds =>
    have hne := hfirst ch ds htext
    rw [htext] at hdigits hvalue
    obtain ⟨d, hd, hdigit⟩ := hdigits ch List.mem_cons_self
    obtain ⟨hisdigit, -⟩ := digit_word hd hdigit 0#32
    have hplain : ch ∉ plainFlags := by
      intro hmem
      simp only [plainFlags, List.mem_cons, List.not_mem_nil, or_false] at hmem
      rcases hmem with rfl | rfl | rfl | rfl | rfl
      · exact absurd hisdigit (by decide)
      · exact hne rfl
      · exact absurd hisdigit (by decide)
      · exact absurd hisdigit (by decide)
      · exact absurd hisdigit (by decide)
    have hscan : scanDigits 0#32 ch (ch :: passed) (ds ++ c :: rest) =
        some (BitVec.ofNat 32 n, ⟨ds.reverse ++ ch :: passed, c :: rest⟩) := by
      rw [← hvalue]
      exact scanDigits_number hdigits hc (ch :: passed)
    rw [List.cons_append]
    apply gives_switch 0 _ (h (ds.reverse ++ ch :: passed))
    intro m _
    unfold switchStep
    rw [if_neg hplain, if_pos hisdigit]
    change (scanDigits 0#32 ch (ch :: passed) (ds ++ c :: rest) >>= _) = _
    rw [hscan]
    rfl

theorem Reads.star (h : Reads mem va rest (ap + 1) (some { e with precision := va ap }.processPrecision) o out) :
    Reads mem va (chr '*' :: rest) ap (some e) o out := by
  intro passed
  apply gives_switch 0 _ (h (chr '*' :: passed))
  intro m _
  unfold switchStep
  rw [if_neg (by decide), if_neg (by decide)]
  exact if_pos rfl

/-- A number in front of it would end here. -/
def EndsNumber (rest : List (BitVec 8)) : Prop := ∃ c t, rest = c :: t ∧ isDigit c = false

/-- The word that a field stands for. -/
def fieldWord (va : ℕ → Word) (i : ℕ) : Option Field → Word
  | none => -1#32
  | some (.number n _) => BitVec.ofNat 32 n
  | some .star => va i

theorem Reads.field {f : Field} (hrest : EndsNumber rest)
    (h : Reads mem va rest (ap + fieldWords (some f)) (some { e with precision := fieldWord va ap (some f) }.processPrecision) o out) :
    Reads mem va (f.chars ++ rest) ap (some e) o out := by
  obtain ⟨c, t, rfl, hc⟩ := hrest
  cases f with
  | number n hn => exact Reads.number hn hc h
  | star => exact Reads.star h

namespace Directive

/-- The locals behind the flags of an escape. -/
def locals (d : Directive) (va : ℕ → Word) (ap : ℕ) : Escape :=
  let width := fieldWord va ap d.width
  ⟨d.padFor, if d.precision.isSome ∧ width.toInt < 0 then 0#32 else width, fieldWord va (ap + fieldWords d.width) d.precision,
    BitVec.ofNat 32 d.longs, d.alt⟩

theorem endsNumber_longs (k : ℕ) (hc : isDigit c = false) : EndsNumber (List.replicate k (chr 'l') ++ c :: rest) := by
  cases k with
  | zero => exact ⟨c, rest, rfl, hc⟩
  | succ k => exact ⟨chr 'l', _, rfl, by decide⟩

theorem endsNumber_precision (precision : Option Field) (k : ℕ) (hc : isDigit c = false) :
    EndsNumber ((precision.map fun p => chr '.' :: p.chars).getD [] ++ (List.replicate k (chr 'l') ++ c :: rest)) := by
  cases precision with
  | none => exact endsNumber_longs k hc
  | some f => exact ⟨chr '.', _, rfl, by decide⟩

/-- The first number is the width. -/
theorem reads_width (d : Directive) (hprec : e.precision = -1#32) (hwidth : e.width = -1#32) (hrest : EndsNumber rest)
    (h : Reads mem va rest (ap + fieldWords d.width) (some { e with width := fieldWord va ap d.width }) o out) :
    Reads mem va (fieldChars d.width ++ rest) ap (some e) o out := by
  cases hfield : d.width with
  | none =>
    rw [hfield] at h
    have hsame : { e with width := fieldWord va ap none } = e := by
      unfold fieldWord
      rw [← hwidth]
    rw [hsame] at h
    exact h
  | some f =>
    rw [hfield] at h
    apply Reads.field hrest
    have hnext : { e with precision := fieldWord va ap (some f) }.processPrecision = { e with width := fieldWord va ap (some f) } := by
      unfold Escape.processPrecision
      rw [hwidth, if_pos (by decide), ← hprec]
    rw [hnext]
    exact h

/-- A number behind a period is the precision. -/
theorem reads_precision (d : Directive) (hprec : e.precision = -1#32) (hrest : EndsNumber rest)
    (h : Reads mem va rest (ap + fieldWords d.precision)
      (some { e with width := if d.precision.isSome ∧ e.width.toInt < 0 then 0#32 else e.width,
                     precision := fieldWord va ap d.precision }) o out) :
    Reads mem va ((d.precision.map fun p => chr '.' :: p.chars).getD [] ++ rest) ap (some e) o out := by
  cases hfield : d.precision with
  | none =>
    rw [hfield] at h
    have hsame : (⟨e.padc, if (none : Option Field).isSome = true ∧ e.width.toInt < 0 then 0#32 else e.width,
        fieldWord va ap none, e.lflag, e.altflag⟩ : Escape) = e := by
      rw [if_neg (fun h => absurd h.1 (by decide))]
      unfold fieldWord
      rw [← hprec]
    rw [hsame] at h
    exact h
  | some f =>
    rw [hfield] at h
    apply Reads.flag (by decide)
    apply Reads.field hrest
    have hdot : e.flag (chr '.') = { e with width := if e.width.toInt < 0 then 0#32 else e.width } := by
      unfold Escape.flag
      rw [if_neg (by decide), if_neg (by decide), if_pos rfl]
      split <;> rfl
    have hnonneg : ¬ (if e.width.toInt < 0 then 0#32 else e.width).toInt < 0 := by
      split_ifs with hneg
      · decide
      · exact hneg
    have hnext : { e.flag (chr '.') with precision := fieldWord va ap (some f) }.processPrecision =
        { e with width := if (some f).isSome ∧ e.width.toInt < 0 then 0#32 else e.width, precision := fieldWord va ap (some f) } := by
      unfold Escape.processPrecision
      rw [hdot, if_neg hnonneg]
      simp only [Option.isSome_some, true_and]
    rw [hnext]
    exact h

theorem reads_pad (d : Directive) (h : Reads mem va rest ap (some { e with padc := d.padFor }) o out) (he : e.padc = chr ' ') :
    Reads mem va ((d.pad.map fun p => [p.char]).getD [] ++ rest) ap (some e) o out := by
  unfold padFor at h
  cases hpad : d.pad with
  | none =>
    rw [hpad] at h
    have hsame : { e with padc := ((none : Option Pad).map Pad.char).getD (chr ' ') } = e := by
      change { e with padc := chr ' ' } = e
      rw [← he]
    rw [hsame] at h
    exact h
  | some side =>
    rw [hpad] at h
    cases side with
    | right => exact Reads.flag (by decide) h
    | zeros => exact Reads.flag (by decide) h

theorem reads_alt (d : Directive) (h : Reads mem va rest ap (some { e with altflag := d.alt }) o out) (he : e.altflag = false) :
    Reads mem va ((if d.alt then [chr '#'] else []) ++ rest) ap (some e) o out := by
  cases halt : d.alt with
  | false =>
    rw [halt, ← he] at h
    exact h
  | true =>
    rw [halt] at h
    exact Reads.flag (by decide) h

theorem conv_not_digit (d : Directive) : isDigit d.conv = false := by
  have hall : ∀ c ∈ conversions, isDigit c = false := by decide
  exact hall d.conv d.conv_mem

/-- The flags of an escape are read, and the locals are what they say. -/
theorem reads_flags (d : Directive) (h : Reads mem va (d.conv :: rest) (ap + d.stars) (some (d.locals va ap)) o out) :
    Reads mem va (d.flags ++ d.conv :: rest) ap (some Escape.start) o out := by
  have hc := d.conv_not_digit
  unfold flags
  rw [List.append_assoc, List.append_assoc, List.append_assoc, List.append_assoc]
  apply reads_alt d _ rfl
  apply reads_pad d _ rfl
  apply reads_width d rfl rfl (endsNumber_precision d.precision d.longs hc)
  apply reads_precision d rfl (endsNumber_longs d.longs hc)
  apply Reads.longs
  rw [Nat.add_assoc]
  have hlong : 0#32 + BitVec.ofNat 32 d.longs = BitVec.ofNat 32 d.longs := BitVec.zero_add _
  change Reads mem va _ _ (some ⟨_, _, _, 0#32 + BitVec.ofNat 32 d.longs, _⟩) o out
  rw [hlong]
  exact h

end Directive

end Flags

section Conversion

variable {mem : Word → List (BitVec 8)} {va : ℕ → Word} {t junk : List (BitVec 8)} {ap : ℕ} {e : Escape} {d : Directive}

/-- `printnum` fills the digits up on the left. -/
def Directive.number (d : Directive) (va : ℕ → Word) (base n : ℕ) : List (BitVec 8) := d.fill va ((numeral base n).map hexDigit)

/-- What `vprintfmt` prints for an escape. -/
def Directive.printed (d : Directive) (mem : Word → List (BitVec 8)) (va : ℕ → Word) : List (BitVec 8) :=
  let arg : ℕ → Word := fun i => va (d.stars + i)
  if d.conv = chr 'c' then [(arg 0).setWidth 8]
  else if d.conv = chr 'e' then errorText (arg 0)
  else if d.conv = chr 's' then d.justify va ((d.cut va (stringAt mem (arg 0))).map d.mask)
  else if d.conv = chr 'd' then signed (decide (d.signedArg arg < 0)) (d.number va 10 (d.signedArg arg).natAbs)
  else if d.conv = chr 'u' then d.number va 10 (d.unsignedArg arg)
  else if d.conv = chr 'o' then d.number va 8 (d.unsignedArg arg)
  else if d.conv = chr 'x' then d.number va 16 (d.unsignedArg arg)
  else if d.conv = chr 'p' then chr '0' :: chr 'x' :: d.number va 16 (arg 0).toNat
  else [chr '%']

section Kept

theorem fill_narrow {text : List (BitVec 8)} (h : d.widthFor va ≤ text.length) : d.fill va text = text := by
  unfold Directive.fill
  rw [Nat.sub_eq_zero_of_le h, List.replicate_zero, List.nil_append]

theorem justify_narrow {text : List (BitVec 8)} (h : d.widthFor va ≤ text.length) : d.justify va text = text := by
  unfold Directive.justify
  rw [fill_narrow h, Nat.sub_eq_zero_of_le h, List.replicate_zero, List.append_nil, ite_self]

theorem padFor_left (h : d.pad ≠ some .right) : d.padFor ≠ chr '-' := by
  unfold Directive.padFor
  cases hpad : d.pad with
  | none => exact (by decide : chr ' ' ≠ chr '-')
  | some p =>
    cases p with
    | right => exact absurd hpad h
    | zeros => exact (by decide : chr '0' ≠ chr '-')

/-- A number without a sign. -/
theorem numberField_nil (h : d.pad ≠ some .right) (digits : List (BitVec 8)) : d.numberField va [] digits = d.fill va digits := by
  unfold Directive.numberField Directive.justify
  rw [List.nil_append, List.nil_append, if_neg (padFor_left h)]
  split
  next hzero =>
    unfold Directive.fill
    rw [hzero]
  next => rfl

/-- A number that leaves no room. -/
theorem numberField_narrow {digits : List (BitVec 8)} (h : d.widthFor va ≤ digits.length) (sign : List (BitVec 8)) :
    d.numberField va sign digits = sign ++ d.fill va digits := by
  have hlen : d.widthFor va ≤ (sign ++ digits).length := by
    rw [List.length_append]
    omega
  unfold Directive.numberField
  rw [justify_narrow hlen, fill_narrow h, Nat.sub_eq_zero_of_le hlen, List.replicate_zero, List.nil_append, ite_self]

/-- Where what is asked for is done, an escape prints what it stands for. -/
theorem Directive.Kept.render_eq (h : d.Kept va) : d.render mem va = d.printed mem va := by
  have hmem := d.conv_mem
  have hwide (hc : d.conv ∈ [chr 'c', chr 'e', chr '%']) : d.widthFor va = 0 := by
    unfold Directive.widthFor
    cases hw : d.width with
    | none => rfl
    | some f => exact absurd hc (h.width (by rw [hw]; rfl))
  have hpad (hc : d.conv ≠ chr 's') : d.pad ≠ some .right := fun hright => hc (h.side hright)
  have hsign := h.sign
  have hpointer := h.pointer
  unfold Directive.render Directive.printed Directive.number
  generalize d.conv = c at hmem hwide hpad hsign hpointer ⊢
  simp only [conversions, List.mem_cons, List.not_mem_nil, or_false] at hmem
  obtain rfl | rfl | rfl | rfl | rfl | rfl | rfl | rfl | rfl := hmem
  · exact justify_narrow (by rw [hwide (by decide)]; exact Nat.zero_le _)
  · exact justify_narrow (by rw [hwide (by decide)]; exact Nat.zero_le _)
  · rfl
  · change d.numberField va (if d.signedArg (fun i => va (d.stars + i)) < 0 then [chr '-'] else [])
        ((numeral 10 (d.signedArg fun i => va (d.stars + i)).natAbs).map hexDigit) =
      Sisop.signed (decide (d.signedArg (fun i => va (d.stars + i)) < 0))
        (d.fill va ((numeral 10 (d.signedArg fun i => va (d.stars + i)).natAbs).map hexDigit))
    unfold Sisop.signed
    by_cases hneg : d.signedArg (fun i => va (d.stars + i)) < 0
    · rw [if_pos hneg, if_pos (decide_eq_true hneg), numberField_narrow (by rw [List.length_map]; exact hsign rfl hneg)]
      rfl
    · rw [if_neg hneg, if_neg (by rw [decide_eq_true_eq]; exact hneg), numberField_nil (hpad (by decide))]
  · exact numberField_nil (hpad (by decide)) _
  · exact numberField_nil (hpad (by decide)) _
  · change d.numberField va [chr '0', chr 'x'] ((numeral 16 (va (d.stars + 0)).toNat).map hexDigit) = _
    rw [numberField_narrow (by rw [List.length_map]; exact hpointer rfl)]
    rfl
  · exact numberField_nil (hpad (by decide)) _
  · rfl

end Kept

/-- The locals are those of an escape whose width can be counted down. -/
structure EscapeFits (d : Directive) (va : ℕ → Word) (e : Escape) : Prop where
  padc : e.padc = d.padFor
  width : e.width.toInt.toNat = d.widthFor va
  low : -2^30 ≤ e.width.toInt
  precision : (if e.precision.toInt < 0 then none else some e.precision.toInt.toNat) = d.precisionFor va
  long : (2 : ℤ) ≤ e.lflag.toInt ↔ 2 ≤ d.longs
  altflag : e.altflag = d.alt

theorem Directive.locals_fits (d : Directive) (h : d.Supplied mem fun i => va (ap + i)) :
    EscapeFits d (fun i => va (ap + i)) (d.locals va ap) := by
  have hlong : (BitVec.ofNat 32 d.longs).toInt = (d.longs : ℤ) := toInt_ofNat_of_lt d.longs_lt
  have hwidth : (fieldWord va ap d.width).toInt.toNat = d.widthFor (fun i => va (ap + i)) ∧
      -2^30 ≤ (fieldWord va ap d.width).toInt := by
    have hlow := h.width
    unfold Directive.widthFor
    cases hfield : d.width with
    | none => exact ⟨rfl, show -2^30 ≤ (-1#32).toInt by decide⟩
    | some f =>
      cases f with
      | number n hn =>
        have hn' : (BitVec.ofNat 32 n).toInt = (n : ℤ) := toInt_ofNat_of_lt hn.2
        refine ⟨?_, ?_⟩
        · change (BitVec.ofNat 32 n).toInt.toNat = n
          omega
        · change -2^30 ≤ (BitVec.ofNat 32 n).toInt
          omega
      | star => exact ⟨rfl, hlow _ hfield rfl⟩
  have hcut : (if d.precision.isSome ∧ (fieldWord va ap d.width).toInt < 0 then 0#32 else fieldWord va ap d.width).toInt.toNat =
        (fieldWord va ap d.width).toInt.toNat ∧
      -2^30 ≤ (if d.precision.isSome ∧ (fieldWord va ap d.width).toInt < 0 then 0#32 else fieldWord va ap d.width).toInt := by
    split_ifs with hneg
    · have hzero : (0#32).toInt = 0 := by decide
      omega
    · exact ⟨rfl, hwidth.2⟩
  refine ⟨rfl, hcut.1.trans hwidth.1, hcut.2, ?_, ?_, rfl⟩
  · change (if (fieldWord va (ap + fieldWords d.width) d.precision).toInt < 0 then none
      else some (fieldWord va (ap + fieldWords d.width) d.precision).toInt.toNat) = _
    unfold Directive.precisionFor
    cases d.precision with
    | none => exact if_pos (show (-1#32).toInt < 0 by decide)
    | some f =>
      cases f with
      | number n hn =>
        have hn' : (BitVec.ofNat 32 n).toInt = (n : ℤ) := toInt_ofNat_of_lt hn.2
        change (if (BitVec.ofNat 32 n).toInt < 0 then none else some (BitVec.ofNat 32 n).toInt.toNat) = some n
        rw [if_neg (by omega), hn', Int.toNat_natCast]
      | star => rfl
  · change (2 : ℤ) ≤ (BitVec.ofNat 32 d.longs).toInt ↔ _
    omega

/-- A number is filled up on the left. -/
theorem EscapeFits.number (h : EscapeFits d va e) {base : ℕ} (hbase : 1 < base) {n : ℕ} (hn : n < 2^64) :
    printnum base hbase n e.width e.padc = d.number va base n := by
  have hd := numeral_length_le hbase hn
  have hpad := padding e.width hd
  have hlow := h.low
  rw [if_pos (by omega)] at hpad
  rw [printnum_eq, h.padc, Directive.number, Directive.fill, List.length_map, ← h.width, hpad]
  congr 2
  omega

theorem EscapeFits.unsigned (h : EscapeFits d va e) (w : ℕ → Word) :
    (getuint w e.lflag).1.toNat = d.unsignedArg w ∧ (getuint w e.lflag).2 = if 2 ≤ d.longs then 2 else 1 := by
  unfold getuint Directive.unsignedArg
  by_cases hlong : 2 ≤ d.longs
  · rw [if_pos (h.long.mpr hlong), if_pos hlong, if_pos hlong]
    refine ⟨?_, rfl⟩
    rw [BitVec.toNat_append, ← Nat.shiftLeft_add_eq_or_of_lt (w 0).isLt, Nat.shiftLeft_eq]
  · rw [if_neg (mt h.long.mp hlong), if_neg hlong, if_neg hlong]
    refine ⟨?_, rfl⟩
    rw [BitVec.toNat_setWidth]
    exact Nat.mod_eq_of_lt (by have := (w 0).isLt; omega)

theorem EscapeFits.signed (h : EscapeFits d va e) (w : ℕ → Word) :
    (getint w e.lflag).1.toInt = d.signedArg w ∧ (getint w e.lflag).2 = if 2 ≤ d.longs then 2 else 1 := by
  unfold getint Directive.signedArg
  by_cases hlong : 2 ≤ d.longs
  · rw [if_pos (h.long.mpr hlong), if_pos hlong, if_pos hlong]
    refine ⟨?_, rfl⟩
    have hhigh := (w 1).isLt
    have hlow := (w 0).isLt
    have hnat : (w 1 ++ w 0).toNat = (w 1).toNat * 2^32 + (w 0).toNat := by
      rw [BitVec.toNat_append, ← Nat.shiftLeft_add_eq_or_of_lt hlow, Nat.shiftLeft_eq]
    rw [BitVec.toInt_eq_toNat_cond, BitVec.toInt_eq_toNat_cond, hnat]
    split_ifs <;> omega
  · rw [if_neg (mt h.long.mp hlong), if_neg hlong, if_neg hlong]
    exact ⟨BitVec.toInt_signExtend_of_le (by decide), rfl⟩

/-- What is left of a negative number is its absolute value. -/
theorem toNat_abs (num : BitVec 64) : (if num.toInt < 0 then -num else num).toNat = num.toInt.natAbs := by
  have hlt := num.isLt
  rw [BitVec.toInt_eq_toNat_cond]
  split_ifs with hsmall hneg hneg
  · omega
  · omega
  · rw [BitVec.toNat_neg]
    omega
  · omega

theorem printString_some_eq (ht : 0#8 ∉ t) (precision width : Word) :
    printString e.altflag (t ++ 0#8 :: junk) precision width =
      some ((if precision.toInt < 0 then t else t.take precision.toInt.toNat).map
          (fun ch => if e.altflag ∧ (ch < chr ' ' ∨ chr '~' < ch) then chr '?' else ch),
        width - BitVec.ofNat 32 (if precision.toInt < 0 then t else t.take precision.toInt.toNat).length) := by
  induction t generalizing precision width with
  | nil =>
    rw [List.nil_append, printString]
    dsimp only
    rw [if_neg (fun h => h.1 rfl), List.take_nil, ite_self]
    change _ = some ([], width - 0#32)
    rw [BitVec.sub_zero]
  | cons ch t ih =>
    have hch : ch ≠ 0#8 := fun heq => ht (heq ▸ List.mem_cons_self)
    have ht' : 0#8 ∉ t := fun hmem => ht (List.mem_cons_of_mem _ hmem)
    have hcount (k : ℕ) : width - 1#32 - BitVec.ofNat 32 k = width - BitVec.ofNat 32 (k + 1) := by
      rw [BitVec.sub_sub, Nat.add_comm, BitVec.ofNat_add]
    rw [List.cons_append, printString]
    dsimp only
    by_cases hneg : precision.toInt < 0
    · rw [if_pos hneg, if_pos ⟨hch, Or.inl hneg⟩, ih ht', if_pos hneg, if_pos hneg, Option.bind_eq_bind, Option.bind_some,
        List.map_cons, List.length_cons, hcount]
    · rw [if_neg hneg, if_neg hneg]
      have hnext : (precision - 1#32).toInt = precision.toInt - 1 := by
        have hlt := BitVec.toInt_lt (x := precision)
        rw [BitVec.toInt_sub, Int.bmod_def]
        have hone : (1#32).toInt = 1 := by decide
        split_ifs <;> omega
      by_cases hzero : precision.toInt = 0
      · have hstop : ¬ (ch ≠ 0#8 ∧ (precision.toInt < 0 ∨ 0 ≤ (precision - 1#32).toInt)) := by
          rintro ⟨-, h | h⟩ <;> omega
        rw [if_neg hstop, hzero]
        change _ = some ([], width - 0#32)
        rw [BitVec.sub_zero]
      · have hgo : ch ≠ 0#8 ∧ (precision.toInt < 0 ∨ 0 ≤ (precision - 1#32).toInt) := ⟨hch, Or.inr (by omega)⟩
        obtain ⟨k, hk⟩ : ∃ k, precision.toInt.toNat = k + 1 := ⟨precision.toInt.toNat - 1, by omega⟩
        have hk' : (precision - 1#32).toInt.toNat = k := by omega
        rw [if_pos hgo, ih ht', if_neg (by omega), hk', hk, List.take_succ_cons, Option.bind_eq_bind, Option.bind_some, List.map_cons,
          List.length_cons, hcount]

theorem strnlen_eq (ht : 0#8 ∉ t) (size : ℕ) : strnlen (t ++ 0#8 :: junk) size = some (min t.length size) := by
  induction t generalizing size with
  | nil => cases size <;> rfl
  | cons ch t ih =>
    have hch : ch ≠ 0#8 := fun heq => ht (heq ▸ List.mem_cons_self)
    cases size with
    | zero => rfl
    | succ size =>
      rw [List.cons_append, strnlen, if_neg hch, ih (fun hmem => ht (List.mem_cons_of_mem _ hmem)), List.length_cons]
      exact congrArg some (Nat.succ_min_succ _ _).symm

theorem toInt_sub_count {width : Word} {n : ℕ} (hlow : -2^30 ≤ width.toInt) (hn : n < 2^30) :
    (width - BitVec.ofNat 32 n).toInt = width.toInt - n := by
  have hlt := BitVec.toInt_lt (x := width)
  rw [BitVec.toInt_sub, toInt_ofNat_of_lt (by omega), Int.bmod_def]
  split <;> omega

theorem EscapeFits.cut (h : EscapeFits d va e) (t : List (BitVec 8)) :
    (if e.precision.toInt < 0 then t else t.take e.precision.toInt.toNat) = d.cut va t ∧
      min t.length e.precision.toNat = (d.cut va t).length ∨ 2^31 ≤ t.length := by
  have hprec := BitVec.toInt_eq_toNat_cond e.precision
  have hlt := e.precision.isLt
  unfold Directive.cut
  rw [← h.precision]
  by_cases hneg : e.precision.toInt < 0
  · rw [if_pos hneg, if_pos hneg]
    by_cases hlen : 2^31 ≤ t.length
    · exact Or.inr hlen
    · refine Or.inl ⟨rfl, ?_⟩
      change _ = t.length
      split_ifs at hprec <;> omega
  · rw [if_neg hneg, if_neg hneg]
    refine Or.inl ⟨rfl, ?_⟩
    change _ = (t.take e.precision.toInt.toNat).length
    rw [List.length_take]
    split_ifs at hprec <;> omega

/-- `%s`, for a string of less than a gigabyte. -/
theorem EscapeFits.string (h : EscapeFits d va e) (ht : 0#8 ∉ t) (hlen : t.length < 2^30) :
    convertString e (t ++ 0#8 :: junk) = some (d.justify va ((d.cut va t).map d.mask)) := by
  obtain ⟨hcut, hcount⟩ := (h.cut t).resolve_right (by omega)
  have hmask : (fun ch => if e.altflag ∧ (ch < chr ' ' ∨ chr '~' < ch) then chr '?' else ch) = d.mask := by
    rw [h.altflag]
    rfl
  have hshort : (d.cut va t).length < 2^30 := by omega
  have hlow := h.low
  have hwidth := h.width
  have hsub := toInt_sub_count hlow hshort
  have hprint (width : Word) := @printString_some_eq t junk e ht e.precision width
  rw [hcut, hmask] at hprint
  unfold convertString Directive.justify Directive.fill
  rw [List.length_map, ← h.padc]
  by_cases hleft : 0 < e.width.toInt ∧ e.padc ≠ chr '-'
  · -- the padding is in front, and nothing is left of the width behind the string
    have hrest : ((if 0 < (e.width - BitVec.ofNat 32 (d.cut va t).length).toInt then 0#32
        else e.width - BitVec.ofNat 32 (d.cut va t).length) - BitVec.ofNat 32 (d.cut va t).length).toInt.toNat = 0 := by
      have hzero : (0#32).toInt = 0 := by decide
      split_ifs with hpos
      · rw [toInt_sub_count (by omega) hshort]
        omega
      · rw [toInt_sub_count (by omega) hshort]
        omega
    have hpad : (e.width - BitVec.ofNat 32 (d.cut va t).length).toInt.toNat = d.widthFor va - (d.cut va t).length := by
      rw [hsub, ← hwidth]
      omega
    rw [if_pos hleft, strnlen_eq ht, hcount, if_neg hleft.2]
    simp only [Option.bind_eq_bind, Option.bind_some, hprint, hrest, hpad, List.replicate_zero, List.append_nil]
  · rw [if_neg hleft]
    have hpad : (e.width - BitVec.ofNat 32 (d.cut va t).length).toInt.toNat = d.widthFor va - (d.cut va t).length := by
      rw [hsub, ← hwidth]
      omega
    simp only [Option.bind_eq_bind, Option.bind_some, hprint, hpad, List.nil_append]
    split_ifs with hside
    · rfl
    · have hnone : d.widthFor va = 0 := by
        rw [← hwidth]
        by_contra hpos
        exact hleft ⟨by omega, hside⟩
      rw [hnone, Nat.zero_sub, List.replicate_zero, List.replicate_zero, List.append_nil, List.nil_append]

theorem nul_not_mem_takeWhile (p : List (BitVec 8)) : 0#8 ∉ p.takeWhile (· ≠ 0#8) := by
  intro hmem
  have hne := List.mem_takeWhile_imp hmem
  simp at hne

/-- A string, its NUL, and what is behind it. -/
theorem takeWhile_nul {p : List (BitVec 8)} (hp : 0#8 ∈ p) : ∃ junk, p = p.takeWhile (· ≠ 0#8) ++ 0#8 :: junk := by
  have hsplit := List.takeWhile_append_dropWhile (p := (· ≠ 0#8)) (l := p)
  have hhead := List.head?_dropWhile_not (· ≠ 0#8) p
  cases hrest : p.dropWhile (· ≠ 0#8) with
  | nil =>
    rw [hrest, List.append_nil] at hsplit
    rw [← hsplit] at hp
    exact absurd hp (nul_not_mem_takeWhile p)
  | cons c junk =>
    rw [hrest] at hsplit hhead
    have hc : c = 0#8 := by simpa using hhead
    rw [hc] at hsplit
    exact ⟨junk, hsplit.symm⟩

/-- Every conversion but that of an error. -/
theorem EscapeFits.convert (h : EscapeFits d va e) (hargs : d.Supplied mem va) (herr : d.conv ≠ chr 'e')
    (printfmt : List (BitVec 8) → (ℕ → Word) → (Word → List (BitVec 8)) → Option (List (BitVec 8))) :
    Sisop.convert printfmt mem (fun i => va (d.stars + i)) e d.conv = some (d.printed mem va, d.argument) := by
  have hunsigned := h.unsigned fun i => va (d.stars + i)
  have hsigned := h.signed fun i => va (d.stars + i)
  have hmem := d.conv_mem
  have hstring := hargs.string
  unfold Sisop.convert Directive.printed Directive.argument
  generalize d.conv = c at herr hmem hstring ⊢
  simp only [conversions, List.mem_cons, List.not_mem_nil, or_false] at hmem
  obtain rfl | rfl | rfl | rfl | rfl | rfl | rfl | rfl | rfl := hmem
  · rfl
  · exact absurd rfl herr
  · -- a string
    have hconv : ∃ t junk, 0#8 ∉ t ∧ t.length < 2^30 ∧ stringAt mem (va d.stars) = t ∧
        (if va d.stars = 0#32 then cstring "(null)" else mem (va d.stars)) = t ++ 0#8 :: junk := by
      unfold stringAt at hstring ⊢
      by_cases hnull : va d.stars = 0#32
      · refine ⟨"(null)".toList.map chr, [], by decide, by decide, if_pos hnull, ?_⟩
        rw [if_pos hnull]
        rfl
      · obtain ⟨hnul, hlen⟩ := (hstring rfl).resolve_left hnull
        rw [if_neg hnull] at hlen ⊢
        obtain ⟨junk, hsplit⟩ := takeWhile_nul hnul
        refine ⟨_, junk, nul_not_mem_takeWhile _, hlen, rfl, ?_⟩
        rw [if_neg hnull]
        exact hsplit
    obtain ⟨t, junk, ht, hlen, hat, hchars⟩ := hconv
    change ((convertString e (if va d.stars = 0#32 then cstring "(null)" else mem (va d.stars))).bind fun out => some (out, 1)) =
      some (d.justify va ((d.cut va (stringAt mem (va d.stars))).map d.mask), 1)
    rw [hchars, hat, h.string ht hlen, Option.bind_some]
  · -- a signed number
    change some (if (getint (fun i => va (d.stars + i)) e.lflag).1.toInt < 0 then chr '-' :: printnum 10 _
        (if (getint (fun i => va (d.stars + i)) e.lflag).1.toInt < 0 then -(getint (fun i => va (d.stars + i)) e.lflag).1
          else (getint (fun i => va (d.stars + i)) e.lflag).1).toNat e.width e.padc
        else printnum 10 _ (if (getint (fun i => va (d.stars + i)) e.lflag).1.toInt < 0
          then -(getint (fun i => va (d.stars + i)) e.lflag).1
          else (getint (fun i => va (d.stars + i)) e.lflag).1).toNat e.width e.padc,
        (getint (fun i => va (d.stars + i)) e.lflag).2) =
      some (Sisop.signed (decide (d.signedArg (fun i => va (d.stars + i)) < 0))
        (d.number va 10 (d.signedArg fun i => va (d.stars + i)).natAbs), if 2 ≤ d.longs then 2 else 1)
    rw [h.number (by decide) (BitVec.isLt _), toNat_abs, hsigned.1, hsigned.2]
    unfold Sisop.signed
    simp only [decide_eq_true_eq]
  · change some (printnum 10 _ (getuint (fun i => va (d.stars + i)) e.lflag).1.toNat e.width e.padc,
        (getuint (fun i => va (d.stars + i)) e.lflag).2) =
      some (d.number va 10 (d.unsignedArg fun i => va (d.stars + i)), if 2 ≤ d.longs then 2 else 1)
    rw [h.number (by decide) (BitVec.isLt _), hunsigned.1, hunsigned.2]
  · change some (printnum 8 _ (getuint (fun i => va (d.stars + i)) e.lflag).1.toNat e.width e.padc,
        (getuint (fun i => va (d.stars + i)) e.lflag).2) =
      some (d.number va 8 (d.unsignedArg fun i => va (d.stars + i)), if 2 ≤ d.longs then 2 else 1)
    rw [h.number (by decide) (BitVec.isLt _), hunsigned.1, hunsigned.2]
  · change some (chr '0' :: chr 'x' :: printnum 16 _ (va (d.stars + 0)).toNat e.width e.padc, 1) =
      some (chr '0' :: chr 'x' :: d.number va 16 (va (d.stars + 0)).toNat, 1)
    rw [h.number (by decide) (by have hlt := (va (d.stars + 0)).isLt; omega)]
  · change some (printnum 16 _ (getuint (fun i => va (d.stars + i)) e.lflag).1.toNat e.width e.padc,
        (getuint (fun i => va (d.stars + i)) e.lflag).2) =
      some (d.number va 16 (d.unsignedArg fun i => va (d.stars + i)), if 2 ≤ d.longs then 2 else 1)
    rw [h.number (by decide) (BitVec.isLt _), hunsigned.1, hunsigned.2]
  · rfl

end Conversion

section Render

variable {mem : Word → List (BitVec 8)} {va : ℕ → Word} {rest t o out x chars : List (BitVec 8)} {ap : ℕ} {d : Directive}
  {items : List Item} {n : Word}

/-- What the conversion of an escape prints is what the escape prints. -/
theorem Directive.reads_of_convert (d : Directive)
    (hconv : ∃ k, ∀ n ≥ k, convert (fun f args strings => vprintfmt n strings args (Vprintfmt.start f)) mem
      (fun i => va (ap + d.stars + i)) (d.locals va ap) d.conv = some (x, d.argument))
    (h : Reads mem va rest (ap + d.words) none (o ++ x) out) : Reads mem va (d.chars ++ rest) ap none o out := by
  obtain ⟨k, hconv⟩ := hconv
  intro passed
  unfold Directive.chars
  rw [List.cons_append, List.append_assoc, List.singleton_append]
  apply gives_percent
  apply d.reads_flags
  intro passed
  apply gives_convert d.conv_mem k hconv
  rw [Nat.add_assoc]
  exact h (d.conv :: passed)

theorem Directive.reads_plain (herr : d.conv ≠ chr 'e') (hargs : d.Supplied mem fun i => va (ap + i))
    (h : Reads mem va rest (ap + d.words) none (o ++ d.printed mem fun i => va (ap + i)) out) :
    Reads mem va (d.chars ++ rest) ap none o out := by
  apply d.reads_of_convert ⟨0, fun n _ => ?_⟩ h
  have hconv := (d.locals_fits hargs).convert hargs herr fun f args strings => vprintfmt n strings args (Vprintfmt.start f)
  have hwords : (fun i => va (ap + d.stars + i)) = fun i => va (ap + (d.stars + i)) := by
    ext i
    rw [Nat.add_assoc]
  rw [hwords]
  exact hconv

theorem reads_nul : Reads mem va [0#8] ap none o o := fun _ => gives_nul

theorem reads_text (ht : chr '%' ∉ t ∧ 0#8 ∉ t) (h : Reads mem va rest ap none (o ++ t) out) :
    Reads mem va (t ++ rest) ap none o out :=
  fun passed => gives_text t rest ht.1 ht.2 (h (t.reverse ++ passed))

/-- A conversion without flags. -/
def bareEscape (c : BitVec 8) (hc : c ∈ conversions) : Directive := ⟨false, none, none, none, 0, c, hc, by decide⟩

theorem bareEscape_supplied {c : BitVec 8} (hc : c ∈ conversions) (herr : c ≠ chr 'e')
    (hstr : c = chr 's' → 0#8 ∈ mem (va 0) ∧ (stringAt mem (va 0)).length < 2^30) : (bareEscape c hc).Supplied mem va :=
  ⟨fun w hw => absurd hw (Option.not_mem_none w), fun h => Or.inr (hstr h), fun h => absurd h herr⟩

theorem fill_bareEscape {c : BitVec 8} (hc : c ∈ conversions) (text : List (BitVec 8)) : (bareEscape c hc).fill va text = text := by
  change List.replicate (0 - text.length) _ ++ text = text
  rw [Nat.zero_sub, List.replicate_zero, List.nil_append]

/-- The text of an error that has none of its own. -/
theorem gives_errorDecimal {a : Word} (ha : 0 ≤ a.toInt) : Gives (fun _ => []) (fun _ => a) (Vprintfmt.start (cstring "error %d"))
    ("error ".toList.map chr ++ decimal a.toInt.natAbs) := by
  have hrender : (bareEscape (chr 'd') (by decide)).printed (fun _ => []) (fun _ => a) = decimal a.toInt.natAbs := by
    change signed (decide (a.toInt < 0)) ((bareEscape (chr 'd') (by decide)).fill _ _) = _
    rw [fill_bareEscape, decide_eq_false (by omega)]
    rfl
  have hreads : Reads (fun _ => []) (fun _ => a) ("error ".toList.map chr ++ ((bareEscape (chr 'd') (by decide)).chars ++ [0#8])) 0 none []
      ("error ".toList.map chr ++ decimal a.toInt.natAbs) := by
    apply reads_text (by decide +kernel)
    apply Directive.reads_plain (by decide) (bareEscape_supplied _ (by decide) fun h => absurd h (by decide))
    rw [hrender]
    exact reads_nul
  exact hreads []

/-- The text of an error that has one. -/
theorem gives_errorText {p : List (BitVec 8)} (hp : 0#8 ∈ p) (hlen : p.length < 2^30) :
    Gives (fun _ => p) (fun _ => 1#32) (Vprintfmt.start (cstring "%s")) (p.takeWhile (· ≠ 0#8)) := by
  have hat : stringAt (fun _ => p) 1#32 = p.takeWhile (· ≠ 0#8) := if_neg (by decide)
  have hmask : (bareEscape (chr 's') (by decide)).mask = id := by
    ext1 ch
    exact if_neg fun h => absurd h.1 (by decide)
  have hrender : (bareEscape (chr 's') (by decide)).printed (fun _ => p) (fun _ => 1#32) = p.takeWhile (· ≠ 0#8) := by
    change (bareEscape (chr 's') _).fill _ (((stringAt (fun _ => p) 1#32)).map (bareEscape (chr 's') (by decide)).mask) = _
    rw [fill_bareEscape, hmask, List.map_id, hat]
  have hreads : Reads (fun _ => p) (fun _ => 1#32) ((bareEscape (chr 's') (by decide)).chars ++ [0#8]) 0 none [] (p.takeWhile (· ≠ 0#8)) := by
    apply Directive.reads_plain (by decide)
    · refine bareEscape_supplied _ (by decide) fun _ => ⟨hp, ?_⟩
      rw [hat]
      exact (List.takeWhile_prefix _).length_le.trans_lt hlen
    · rw [hrender]
      exact reads_nul
  exact hreads []

theorem errorString_short : ∀ p, some p ∈ errorString → p.length < 2^30 := by
  have hall : errorString.all (fun s => decide ((s.getD []).length < 2^30)) = true := by decide +kernel
  intro p hp
  exact of_decide_eq_true (List.all_eq_true.mp hall _ hp)

/-- `%e`, for every number that can be negated. -/
theorem convertError_text {err : Word} (herr : err ≠ 0x80000000#32) : ∃ k, ∀ n ≥ k,
    convertError (fun f args strings => vprintfmt n strings args (Vprintfmt.start f)) err = some (errorText err) := by
  obtain ⟨a, ha⟩ : ∃ a, a = if err.toInt < 0 then -err else err := ⟨_, rfl⟩
  have habs : a.toInt = err.toInt.natAbs := by
    rw [ha]
    split_ifs with hneg
    · have hlt := err.isLt
      rw [BitVec.toInt_neg_iff] at hneg
      rw [BitVec.toInt_eq_toNat_cond, BitVec.toInt_eq_toNat_cond, BitVec.toNat_neg]
      split_ifs <;> bv_omega
    · omega
  have hnat : a.toNat = err.toInt.natAbs := by
    have hcond := BitVec.toInt_eq_toNat_cond a
    have hlt := a.isLt
    split_ifs at hcond <;> omega
  have hunnamed := gives_errorDecimal (a := a) (by omega)
  rw [habs, Int.natAbs_natCast] at hunnamed
  unfold convertError errorText
  rw [← ha, ← hnat]
  rw [← hnat] at hunnamed
  dsimp only
  by_cases hmax : (maxerror : ℤ) ≤ a.toInt
  · have hnone : errorString[a.toNat]? = none := by
      rw [List.getElem?_eq_none_iff]
      change 16 ≤ a.toNat
      change (16 : ℤ) ≤ a.toInt at hmax
      omega
    obtain ⟨k, hk⟩ := hunnamed
    refine ⟨k, fun n hn => ?_⟩
    rw [if_pos hmax, hnone]
    exact hk n hn
  · have hpos : ¬ a.toInt < 0 := by omega
    have hlt : a.toNat < errorString.length := by
      change a.toNat < 16
      change ¬ (16 : ℤ) ≤ a.toInt at hmax
      omega
    simp only [if_neg hmax, if_neg hpos, List.getElem?_eq_getElem hlt]
    cases hstr : errorString[a.toNat] with
    | none => exact hunnamed
    | some p =>
      have hmem : some p ∈ errorString := hstr ▸ List.getElem_mem hlt
      exact gives_errorText (errorString_nul p hmem) (errorString_short p hmem)

theorem Directive.reads (d : Directive) (hargs : d.Supplied mem fun i => va (ap + i))
    (h : Reads mem va rest (ap + d.words) none (o ++ d.printed mem fun i => va (ap + i)) out) :
    Reads mem va (d.chars ++ rest) ap none o out := by
  by_cases herr : d.conv = chr 'e'
  · obtain ⟨k, hk⟩ := convertError_text (hargs.error herr)
    apply d.reads_of_convert ⟨k, fun n hn => ?_⟩ h
    unfold convert Directive.printed Directive.argument
    rw [herr]
    change ((convertError _ (va (ap + d.stars))).bind fun out => some (out, 1)) = some (errorText (va (ap + d.stars)), 1)
    rw [hk n hn, Option.bind_some]
  · exact Directive.reads_plain herr hargs h

theorem reads_items : ∀ {items : List Item} {ap o}, AllSupplied mem va ap items →
    Reads mem va (formatOf items) ap none o (o ++ rendered mem va ap items) := by
  intro items
  induction items with
  | nil =>
    intro ap o _
    change Reads mem va [0#8] ap none o (o ++ [])
    rw [List.append_nil]
    exact reads_nul
  | cons i items ih =>
    intro ap o hargs
    have hformat : formatOf (i :: items) = i.chars ++ formatOf items := by
      unfold formatOf
      rw [List.flatMap_cons, List.append_assoc]
    have hrest := @ih (ap + i.words) (o ++ i.render mem fun k => va (ap + k)) hargs.2
    rw [hformat, rendered, ← List.append_assoc]
    cases i with
    | text t ht => exact reads_text ht hrest
    | escape d =>
      apply d.reads hargs.1.1
      rw [← hargs.1.2.render_eq]
      exact hrest

/-- The format `"%#-8.*s|%0*llx: %e"`, and its arguments. -/
def reportFormat : List Item :=
  [.escape ⟨true, some .right, some (.number 8 (by decide)), some .star, 0, chr 's', by decide, by decide⟩,
    .text [chr '|'] (by decide),
    .escape ⟨false, some .zeros, some .star, none, 2, chr 'x', by decide, by decide⟩,
    .text [chr ':', chr ' '] (by decide),
    .escape (bareEscape (chr 'e') (by decide))]

def reportArgs (i : ℕ) : Word := [3#32, 1#32, 10#32, 0xBEEF#32, 1#32, -3#32].getD i 0#32

example : rendered (fun _ => [chr 'a', 1#8, chr 'b', chr 'c', 0#8]) reportArgs 0 reportFormat =
    "a?b     |010000beef: invalid parameter".toList.map chr := by decide +kernel

end Render

end Sisop
