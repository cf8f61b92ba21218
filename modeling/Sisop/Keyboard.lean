import Sisop.ConsoleInput
import Sisop.Mmu

/-! The keyboard. `kbd_proc_data` makes characters of the codes of keys that go down and up, and `cons_getc` returns them
in the end. -/
namespace Sisop

section Tables

abbrev kbShift : Word := 1#32
abbrev kbCtl : Word := 2#32
abbrev kbAlt : Word := 4#32
abbrev kbCapslock : Word := 8#32
abbrev kbNumlock : Word := 16#32
abbrev kbScrolllock : Word := 32#32
abbrev kbE0esc : Word := 64#32

/-- `KBS_DIB`, there is data. -/
abbrev kbsDib : BitVec 8 := 0x01#8

/-- `KBS_TERR`, an error or data of the mouse. -/
abbrev kbsTerr : BitVec 8 := 0x20#8

abbrev keyHome : BitVec 8 := 0xE0#8
abbrev keyEnd : BitVec 8 := 0xE1#8
abbrev keyUp : BitVec 8 := 0xE2#8
abbrev keyDn : BitVec 8 := 0xE3#8
abbrev keyLf : BitVec 8 := 0xE4#8
abbrev keyRt : BitVec 8 := 0xE5#8
abbrev keyPgup : BitVec 8 := 0xE6#8
abbrev keyPgdn : BitVec 8 := 0xE7#8
abbrev keyIns : BitVec 8 := 0xE8#8
abbrev keyDel : BitVec 8 := 0xE9#8

def shiftcode (data : BitVec 8) : Word :=
  if data = 0x1D#8 ∨ data = 0x9D#8 then kbCtl
  else if data = 0x2A#8 ∨ data = 0x36#8 then kbShift
  else if data = 0x38#8 ∨ data = 0xB8#8 then kbAlt
  else 0#32

def togglecode (data : BitVec 8) : Word :=
  if data = 0x3A#8 then kbCapslock
  else if data = 0x45#8 then kbNumlock
  else if data = 0x46#8 then kbScrolllock
  else 0#32

def chars (s : String) : List (BitVec 8) := s.toList.map chr

/-- Codes without a character. -/
def blanks (n : ℕ) : List (BitVec 8) := List.replicate n 0#8

/-- A table with its first entries in order, and others at places of their own. -/
def tableAt (table : List (BitVec 8)) (places : List (BitVec 8 × BitVec 8)) (data : BitVec 8) : BitVec 8 :=
  (places.lookup data).getD (table.getD data.toNat 0#8)

/-- The keys of the middle block, apart from Home. -/
def arrowPlaces : List (BitVec 8 × BitVec 8) :=
  [(0xC8#8, keyUp), (0xC9#8, keyPgup), (0xCB#8, keyLf), (0xCD#8, keyRt), (0xCF#8, keyEnd), (0xD0#8, keyDn), (0xD1#8, keyPgdn),
    (0xD2#8, keyIns), (0xD3#8, keyDel)]

/-- What `normalmap` and `shiftmap` have from `0x37` on. -/
def keypadRows : List (BitVec 8) := chars "*" ++ blanks 1 ++ chars " " ++ blanks 13 ++ chars "789-456+1230." ++ blanks 4

def keypadPlaces : List (BitVec 8 × BitVec 8) := [(0xC7#8, keyHome), (0x9C#8, 10#8), (0xB5#8, chr '/')] ++ arrowPlaces

def normalmap : BitVec 8 → BitVec 8 :=
  tableAt (blanks 1 ++ [0x1B#8] ++ chars "1234567890-=" ++ [8#8, 9#8] ++ chars "qwertyuiop[]" ++ [10#8] ++ blanks 1 ++
    chars "asdfghjkl;" ++ [0x27#8, 0x60#8] ++ blanks 1 ++ [0x5C#8] ++ chars "zxcvbnm,./" ++ blanks 1 ++ keypadRows) keypadPlaces

def shiftmap : BitVec 8 → BitVec 8 :=
  tableAt (blanks 1 ++ [0x1B#8] ++ chars "!@#$%^&*()_+" ++ [8#8, 9#8] ++ chars "QWERTYUIOP" ++ [0x7B#8, 0x7D#8] ++ [10#8] ++ blanks 1 ++
    chars "ASDFGHJKL:" ++ [0x22#8, 0x7E#8] ++ blanks 1 ++ [0x7C#8] ++ chars "ZXCVBNM<>?" ++ blanks 1 ++ keypadRows) keypadPlaces

/-- `C(x)` for each character. -/
def ctls (s : String) : List (BitVec 8) := (chars s).map fun x => x - chr '@'

def ctlmap : BitVec 8 → BitVec 8 :=
  tableAt (blanks 16 ++ ctls "QWERTYUIOP" ++ blanks 2 ++ [13#8] ++ blanks 1 ++ ctls "ASDFGHJKL" ++ blanks 4 ++ [0x5C#8 - chr '@'] ++
    ctls "ZXCVBNM" ++ blanks 2 ++ ctls "/" ++ blanks 2) ([(0x97#8, keyHome), (0xB5#8, chr '/' - chr '@')] ++ arrowPlaces)

/-- `charcode`. -/
def charcode (i : Word) : BitVec 8 → BitVec 8 :=
  if i = 0#32 then normalmap else if i = 1#32 then shiftmap else ctlmap

end Tables

section Driver

/-- What Caps Lock makes of a character. -/
def swapCase (c : BitVec 8) : BitVec 8 :=
  if chr 'a' ≤ c ∧ c ≤ chr 'z' then c + (chr 'A' - chr 'a')
  else if chr 'A' ≤ c ∧ c ≤ chr 'Z' then c + (chr 'a' - chr 'A')
  else c

/-- What `kbd_proc_data` does with the code of a key that goes down. The flag says that it reboots. -/
def kbdPress (shift : Word) (data : BitVec 8) : BitVec 8 × Bool × Word :=
  let shift := (shift ||| shiftcode data) ^^^ togglecode data
  let c := charcode (shift &&& (kbCtl ||| kbShift)) data
  let c := if shift &&& kbCapslock ≠ 0#32 then swapCase c else c
  (c, decide (~~~shift &&& (kbCtl ||| kbAlt) = 0#32 ∧ c = keyDel), shift)

/-- What `kbd_proc_data` does with a byte of the keyboard. -/
def kbdData (shift : Word) (data : BitVec 8) : BitVec 8 × Bool × Word :=
  if data = 0xE0#8 then (0#8, false, shift ||| kbE0esc)
  else if data &&& 0x80#8 ≠ 0#8 then
    let data := if shift &&& kbE0esc ≠ 0#32 then data else data &&& 0x7F#8
    (0#8, false, shift &&& ~~~(shiftcode data ||| kbE0esc))
  else if shift &&& kbE0esc ≠ 0#32 then kbdPress (shift &&& ~~~kbE0esc) (data ||| 0x80#8)
  else kbdPress shift data

/-- `kbd_proc_data`, with what it reads from the two ports. It returns `none` for `-1`. -/
def kbdProcData (stat data : BitVec 8) (shift : Word) : Option (BitVec 8 × Bool × Word) :=
  if stat &&& kbsDib = 0#8 then none
  else if stat &&& kbsTerr ≠ 0#8 then none
  else some (kbdData shift data)

/-- What `cons_intr` gets from `kbd_proc_data`, up to the `-1`, for what the ports have at each call. -/
def kbdPolls : List (BitVec 8 × BitVec 8) → Word → List (BitVec 8) × Bool × Word
  | [], shift => ([], false, shift)
  | (stat, data) :: polls, shift =>
    match kbdProcData stat data shift with
    | none => ([], false, shift)
    | some r => (r.1 :: (kbdPolls polls r.2.2).1, r.2.1 || (kbdPolls polls r.2.2).2.1, (kbdPolls polls r.2.2).2.2)

/-- There is a byte of the keyboard. -/
def kbdReady (stat : BitVec 8) : Bool := stat &&& kbsDib ≠ 0#8 ∧ stat &&& kbsTerr = 0#8

/-- The bytes that are read from the data port. -/
def portData (polls : List (BitVec 8 × BitVec 8)) : List (BitVec 8) := (polls.takeWhile fun p => kbdReady p.1).map Prod.snd

/-- The bytes of the keyboard one after the other. -/
def kbdFeed : List (BitVec 8) → Word → List (BitVec 8) × Bool × Word
  | [], shift => ([], false, shift)
  | data :: rest, shift =>
    ((kbdData shift data).1 :: (kbdFeed rest (kbdData shift data).2.2).1,
      (kbdData shift data).2.1 || (kbdFeed rest (kbdData shift data).2.2).2.1, (kbdFeed rest (kbdData shift data).2.2).2.2)

variable {shift : Word} {xs ys : List (BitVec 8)}

theorem kbdPolls_eq (polls : List (BitVec 8 × BitVec 8)) (shift : Word) : kbdPolls polls shift = kbdFeed (portData polls) shift := by
  induction polls generalizing shift with
  | nil => rfl
  | cons p polls ih =>
    obtain ⟨stat, data⟩ := p
    unfold kbdPolls kbdProcData portData
    by_cases hready : kbdReady stat = true
    · obtain ⟨hdib, hterr⟩ := of_decide_eq_true hready
      rw [if_neg hdib, if_neg (not_not_intro hterr), List.takeWhile_cons_of_pos (by exact hready), List.map_cons]
      dsimp only
      rw [ih]
      rfl
    · rw [List.takeWhile_cons_of_neg (by exact hready)]
      have hnone : ¬ (stat &&& kbsDib ≠ 0#8 ∧ stat &&& kbsTerr = 0#8) := fun h => hready (decide_eq_true h)
      by_cases hdib : stat &&& kbsDib = 0#8
      · rw [if_pos hdib]
        rfl
      · rw [if_neg hdib, if_pos fun hterr => hnone ⟨hdib, hterr⟩]
        rfl

theorem kbdFeed_cons (x : BitVec 8) (xs : List (BitVec 8)) (shift : Word) : kbdFeed (x :: xs) shift =
    ((kbdData shift x).1 :: (kbdFeed xs (kbdData shift x).2.2).1,
      (kbdData shift x).2.1 || (kbdFeed xs (kbdData shift x).2.2).2.1, (kbdFeed xs (kbdData shift x).2.2).2.2) := rfl

theorem kbdFeed_append (xs ys : List (BitVec 8)) (shift : Word) : kbdFeed (xs ++ ys) shift =
    ((kbdFeed xs shift).1 ++ (kbdFeed ys (kbdFeed xs shift).2.2).1,
      (kbdFeed xs shift).2.1 || (kbdFeed ys (kbdFeed xs shift).2.2).2.1, (kbdFeed ys (kbdFeed xs shift).2.2).2.2) := by
  induction xs generalizing shift with
  | nil => rfl
  | cons x xs ih =>
    rw [List.cons_append, kbdFeed_cons, kbdFeed_cons, ih]
    dsimp only
    rw [Bool.or_assoc, List.cons_append]

end Driver

section Keys

/-- A key has a code of seven bits, and is one of those behind an `E0` or not. The code `0x60` is that of no key: as the
key goes up it would be the `E0` itself. -/
structure Key where
  code : BitVec 8
  escaped : Bool
  low : code &&& 0x80#8 = 0#8
  notEsc : code ≠ 0x60#8

/-- A key goes down, or up. -/
structure KeyEvent where
  key : Key
  down : Bool

/-- Where the tables have a key. -/
def Key.index (k : Key) : BitVec 8 := if k.escaped then k.code ||| 0x80#8 else k.code

/-- What the keyboard sends. -/
def KeyEvent.bytes (e : KeyEvent) : List (BitVec 8) :=
  (if e.key.escaped then [0xE0#8] else []) ++ [if e.down then e.key.code else e.key.code ||| 0x80#8]

/-- A key is down: when it last moved it has gone down. -/
def isDown (i : BitVec 8) (past : List KeyEvent) : Bool :=
  ((past.filter fun e => e.key.index = i).getLast?.map KeyEvent.down).getD false

/-- A key of a modifier is down. -/
def held (m : Word) (past : List KeyEvent) : Bool := past.any fun e => shiftcode e.key.index = m ∧ isDown e.key.index past

/-- A lock is on: its key has gone down an odd number of times. -/
def locked (m : Word) (past : List KeyEvent) : Bool :=
  (past.countP fun e => e.down ∧ togglecode e.key.index = m) % 2 = 1

/-- The character of a key, when it has gone down. -/
def keyChar (past : List KeyEvent) (k : Key) : BitVec 8 :=
  let c := (if held kbCtl past then ctlmap else if held kbShift past then shiftmap else normalmap) k.index
  if locked kbCapslock past then swapCase c else c

/-- The characters that are typed, behind what has happened before. -/
def typedFrom (past : List KeyEvent) : List KeyEvent → List (BitVec 8)
  | [] => []
  | e :: es => (if e.down then [keyChar (past ++ [e]) e.key] else []) ++ typedFrom (past ++ [e]) es

/-- `Del` goes down while a `Ctrl` and an `Alt` are held. -/
def reboots (past : List KeyEvent) (e : KeyEvent) : Bool :=
  e.down ∧ held kbCtl (past ++ [e]) ∧ held kbAlt (past ++ [e]) ∧ e.key.index = 0xD3#8

def rebootsFrom (past : List KeyEvent) : List KeyEvent → Bool
  | [] => false
  | e :: es => reboots past e || rebootsFrom (past ++ [e]) es

/-- When a key of a modifier goes up, the other one of that modifier is not down. -/
def UpAlone (past : List KeyEvent) : List KeyEvent → Prop
  | [] => True
  | e :: es => (e.down = false → shiftcode e.key.index ≠ 0#32 → held (shiftcode e.key.index) (past ++ [e]) = false) ∧
    UpAlone (past ++ [e]) es

/-- The bits of `shift` for what has happened. -/
structure ShiftOk (shift : Word) (past : List KeyEvent) : Prop where
  mods : ∀ i < 3, shift.getLsbD i = held (1#32 <<< i) past
  locks : ∀ i, 3 ≤ i → i < 6 → shift.getLsbD i = locked (1#32 <<< i) past
  esc : shift.getLsbD 6 = false

variable {w : Word} {past es : List KeyEvent} {e : KeyEvent} {m : Word} {i : ℕ}

/-- The bits of the two tables. -/
theorem code_tables (data : BitVec 8) :
    (∀ i < 7, (shiftcode data).getLsbD i = (decide (i < 3) && decide (shiftcode data = 1#32 <<< i))) ∧
      ∀ i < 7, (togglecode data).getLsbD i = (decide (3 ≤ i ∧ i < 6) && decide (togglecode data = 1#32 <<< i)) := by
  revert data
  decide +kernel

theorem tableAt_del {table : List (BitVec 8)} {places : List (BitVec 8 × BitVec 8)} {data : BitVec 8} (h : keyDel ∉ table) :
    tableAt table places data = keyDel ↔ places.lookup data = some keyDel := by
  have hrow : table.getD data.toNat 0#8 ≠ keyDel := by
    rw [List.getD_eq_getElem?_getD]
    cases hc : table[data.toNat]? with
    | none => exact (by decide : (0#8 : BitVec 8) ≠ keyDel)
    | some c =>
      rintro rfl
      exact h (List.mem_of_getElem? hc)
  unfold tableAt
  cases places.lookup data with
  | none => exact iff_of_false hrow fun h => by cases h
  | some c => exact (Option.some_inj).symm

/-- `KEY_DEL` is the character of one key, with Caps Lock as well. -/
theorem key_del (data : BitVec 8) : (normalmap data = keyDel ↔ data = 0xD3#8) ∧ (shiftmap data = keyDel ↔ data = 0xD3#8) ∧
    (ctlmap data = keyDel ↔ data = 0xD3#8) ∧ (swapCase data = keyDel ↔ data = keyDel) := by
  have hplaces : (keypadPlaces.lookup data = some keyDel ↔ data = 0xD3#8) ∧
      ((([(0x97#8, keyHome), (0xB5#8, chr '/' - chr '@')] ++ arrowPlaces).lookup data = some keyDel) ↔ data = 0xD3#8) ∧
      (swapCase data = keyDel ↔ data = keyDel) := by
    revert data
    decide +kernel
  exact ⟨(tableAt_del (by decide +kernel)).trans hplaces.1, (tableAt_del (by decide +kernel)).trans hplaces.1,
    (tableAt_del (by decide +kernel)).trans hplaces.2.1, hplaces.2.2⟩

theorem isDown_snoc (i : BitVec 8) : isDown i (past ++ [e]) = if e.key.index = i then e.down else isDown i past := by
  unfold isDown
  rw [List.filter_append]
  by_cases hi : e.key.index = i
  · rw [if_pos hi, List.filter_cons_of_pos (by exact decide_eq_true hi), List.filter_nil, List.getLast?_concat]
    rfl
  · rw [if_neg hi, List.filter_cons_of_neg (by exact fun h => hi (of_decide_eq_true h)), List.filter_nil, List.append_nil]

/-- Whether a modifier is held changes only with its own keys, as long as these go up alone. -/
theorem held_snoc (hup : UpAlone past [e]) (hm : m ≠ 0#32) :
    held m (past ++ [e]) = if shiftcode e.key.index = m then e.down else held m past := by
  by_cases heq : shiftcode e.key.index = m
  · rw [if_pos heq]
    cases hdown : e.down with
    | false =>
      rw [← heq]
      exact hup.1 hdown (heq ▸ hm)
    | true =>
      apply List.any_eq_true.mpr
      refine ⟨e, List.mem_append_right _ List.mem_cons_self, decide_eq_true ⟨heq, ?_⟩⟩
      rw [isDown_snoc, if_pos rfl]
      exact hdown
  · rw [if_neg heq]
    unfold held
    rw [List.any_append, List.any_cons, List.any_nil, decide_eq_false fun h => heq h.1, Bool.or_false, Bool.or_false]
    refine List.any_congr rfl fun x => ?_
    by_cases hx : shiftcode x.key.index = m
    · have hother : e.key.index ≠ x.key.index := fun h => heq ((congrArg shiftcode h).trans hx)
      rw [isDown_snoc, if_neg hother]
    · rw [decide_eq_false fun h => hx h.1, decide_eq_false fun h => hx h.1]

theorem locked_snoc : locked m (past ++ [e]) = (locked m past ^^ (e.down && decide (togglecode e.key.index = m))) := by
  unfold locked
  rw [List.countP_append, List.countP_singleton]
  by_cases hm : e.down = true ∧ togglecode e.key.index = m
  · rw [if_pos (decide_eq_true hm), hm.1, decide_eq_true hm.2, Bool.true_and, Bool.xor_true, ← decide_not]
    apply decide_eq_decide.mpr
    omega
  · have hoff : (e.down && decide (togglecode e.key.index = m)) = false := by
      rw [Bool.and_eq_false_iff]
      by_cases hd : e.down = true
      · exact Or.inr (decide_eq_false fun hi => hm ⟨hd, hi⟩)
      · exact Or.inl (Bool.eq_false_of_not_eq_true hd)
    rw [if_neg fun h => hm (of_decide_eq_true h), hoff, Bool.xor_false, Nat.add_zero]

/-- What an event does to `shift`. -/
def KeyEvent.onShift (e : KeyEvent) (w : Word) : Word :=
  if e.down then (w ||| shiftcode e.key.index) ^^^ togglecode e.key.index else w &&& ~~~shiftcode e.key.index

theorem ShiftOk.start : ShiftOk 0#32 [] := ⟨fun _ _ => BitVec.getLsbD_zero, fun _ _ _ => BitVec.getLsbD_zero, BitVec.getLsbD_zero⟩

theorem ShiftOk.event (h : ShiftOk w past) (hup : UpAlone past [e]) : ShiftOk (e.onShift w) (past ++ [e]) := by
  obtain ⟨hshift, htoggle⟩ := code_tables e.key.index
  have hbit (i : ℕ) (hi : i < 7) : (e.onShift w).getLsbD i =
      if e.down then (w.getLsbD i || (shiftcode e.key.index).getLsbD i) ^^ (togglecode e.key.index).getLsbD i
      else w.getLsbD i && !(shiftcode e.key.index).getLsbD i := by
    unfold KeyEvent.onShift
    split
    · rw [BitVec.getLsbD_xor, BitVec.getLsbD_or]
    · rw [BitVec.getLsbD_and, BitVec.getLsbD_not, decide_eq_true (show i < 32 by omega), Bool.true_and]
  constructor
  case mods =>
    intro i hi
    have hmod : ∀ i < 3, 1#32 <<< i ≠ 0#32 := by decide
    rw [hbit i (by omega), hshift i (by omega), htoggle i (by omega), decide_eq_true hi,
      decide_eq_false (show ¬ (3 ≤ i ∧ i < 6) by omega), Bool.true_and, Bool.false_and, Bool.xor_false, h.mods i hi, held_snoc hup (hmod i hi)]
    by_cases hm : shiftcode e.key.index = 1#32 <<< i
    · rw [if_pos hm, decide_eq_true hm]
      cases e.down <;> cases held (1#32 <<< i) past <;> rfl
    · rw [if_neg hm, decide_eq_false hm]
      cases e.down <;> cases held (1#32 <<< i) past <;> rfl
  case locks =>
    intro i hlo hhi
    rw [hbit i (by omega), hshift i (by omega), htoggle i (by omega), decide_eq_false (show ¬ i < 3 by omega),
      decide_eq_true (show 3 ≤ i ∧ i < 6 from ⟨hlo, hhi⟩), Bool.true_and, Bool.false_and, h.locks i hlo hhi, locked_snoc]
    cases e.down <;> cases locked (1#32 <<< i) past <;> rfl
  case esc =>
    rw [hbit 6 (by omega), hshift 6 (by omega), htoggle 6 (by omega), h.esc]
    cases e.down <;> rfl

/-- The escape bit is set by `E0`, and gone behind the next byte. -/
theorem esc_cleared (hesc : w.getLsbD 6 = false) (m : Word) :
    w &&& ~~~(m ||| kbE0esc) = w &&& ~~~m ∧ (w ||| kbE0esc) &&& ~~~(m ||| kbE0esc) = w &&& ~~~m ∧
      (w ||| kbE0esc) &&& ~~~kbE0esc = w ∧ w &&& kbE0esc = 0#32 ∧ (w ||| kbE0esc) &&& kbE0esc ≠ 0#32 := by
  have htwo : kbE0esc = BitVec.twoPow 32 6 := by decide
  rw [htwo]
  refine ⟨?_, ?_, ?_, ?_, ?_⟩
  · apply BitVec.eq_of_getLsbD_eq
    intro i hi
    simp only [BitVec.getLsbD_and, BitVec.getLsbD_not, BitVec.getLsbD_or, BitVec.getLsbD_twoPow]
    by_cases h6 : 6 = i
    · subst h6
      rw [hesc]
      rfl
    · simp [h6]
  · apply BitVec.eq_of_getLsbD_eq
    intro i hi
    simp only [BitVec.getLsbD_and, BitVec.getLsbD_not, BitVec.getLsbD_or, BitVec.getLsbD_twoPow]
    by_cases h6 : 6 = i
    · subst h6
      rw [hesc]
      simp
    · simp [h6]
  · apply BitVec.eq_of_getLsbD_eq
    intro i hi
    simp only [BitVec.getLsbD_and, BitVec.getLsbD_not, BitVec.getLsbD_or, BitVec.getLsbD_twoPow]
    by_cases h6 : 6 = i
    · subst h6
      rw [hesc]
      simp
    · simp [h6, hi]
  · rw [BitVec.and_twoPow, hesc]
    rfl
  · rw [BitVec.and_twoPow, BitVec.getLsbD_or, hesc]
    decide

/-- The bytes of an event: what they give, and what they leave in `shift`. -/
theorem kbdFeed_event (hesc : w.getLsbD 6 = false) (e : KeyEvent) :
    kbdFeed e.bytes w = ((if e.key.escaped then [0#8] else []) ++ [if e.down then (kbdPress w e.key.index).1 else 0#8],
      e.down && (kbdPress w e.key.index).2.1, e.onShift w) := by
  obtain ⟨k, down⟩ := e
  obtain ⟨hplain, hesc', hoff, hclear, hset⟩ := esc_cleared hesc (shiftcode k.index)
  have hlow := k.low
  have hne := k.notEsc
  -- the two bytes of the key itself
  have hpress : k.code ≠ 0xE0#8 := by
    intro heq
    rw [heq] at hlow
    exact absurd hlow (by decide)
  have hrelease : k.code ||| 0x80#8 ≠ 0xE0#8 ∧ (k.code ||| 0x80#8) &&& 0x80#8 ≠ 0#8 ∧
      (k.code ||| 0x80#8) &&& 0x7F#8 = k.code := by
    revert hlow hne
    generalize k.code = c
    revert c
    decide +kernel
  have hone (x : BitVec 8) (v : Word) : kbdFeed [x] v = ([(kbdData v x).1], (kbdData v x).2.1, (kbdData v x).2.2) := by
    rw [kbdFeed_cons]
    change (_, _ || false, _) = _
    rw [Bool.or_false]
    rfl
  unfold KeyEvent.bytes
  cases hk : k.escaped with
  | true =>
    have hindex : k.index = k.code ||| 0x80#8 := if_pos hk
    have hstart : kbdData w 0xE0#8 = (0#8, false, w ||| kbE0esc) := rfl
    cases down with
    | true =>
      have hdata : kbdData (w ||| kbE0esc) k.code = kbdPress w k.index := by
        unfold kbdData
        rw [if_neg hpress, if_neg (not_not_intro hlow), if_pos hset, hoff, hindex]
      change kbdFeed [0xE0#8, k.code] w = _
      rw [kbdFeed_cons, hstart, hone, hdata]
      rfl
    | false =>
      have hdata : kbdData (w ||| kbE0esc) (k.code ||| 0x80#8) = (0#8, false, w &&& ~~~shiftcode k.index) := by
        unfold kbdData
        rw [if_neg hrelease.1, if_pos hrelease.2.1, if_pos hset, ← hindex]
        dsimp only
        rw [hesc']
      change kbdFeed [0xE0#8, k.code ||| 0x80#8] w = _
      rw [kbdFeed_cons, hstart, hone, hdata]
      rfl
  | false =>
    have hindex : k.index = k.code := if_neg (by rw [hk]; exact Bool.false_ne_true)
    cases down with
    | true =>
      have hdata : kbdData w k.code = kbdPress w k.index := by
        unfold kbdData
        rw [if_neg hpress, if_neg (not_not_intro hlow), if_neg (not_not_intro hclear), hindex]
      change kbdFeed [k.code] w = _
      rw [hone, hdata]
      rfl
    | false =>
      have hdata : kbdData w (k.code ||| 0x80#8) = (0#8, false, w &&& ~~~shiftcode k.index) := by
        unfold kbdData
        rw [if_neg hrelease.1, if_pos hrelease.2.1, if_neg (not_not_intro hclear), hrelease.2.2, ← hindex]
        dsimp only
        rw [hplain]
      change kbdFeed [k.code ||| 0x80#8] w = _
      rw [hone, hdata]
      rfl

/-- The table that is looked up, Caps Lock and the test for `Ctrl` and `Alt` go by the bits of `shift`. -/
theorem shift_bits (w : Word) :
    (charcode (w &&& (kbCtl ||| kbShift)) = if w.getLsbD 1 then ctlmap else if w.getLsbD 0 then shiftmap else normalmap) ∧
      (w &&& kbCapslock ≠ 0#32 ↔ w.getLsbD 3 = true) ∧
      (~~~w &&& (kbCtl ||| kbAlt) = 0#32 ↔ w.getLsbD 1 = true ∧ w.getLsbD 2 = true) := by
  have hctl : kbCtl = BitVec.twoPow 32 1 := by decide
  have hshift : kbShift = BitVec.twoPow 32 0 := by decide
  have halt : kbAlt = BitVec.twoPow 32 2 := by decide
  have hcaps : kbCapslock = BitVec.twoPow 32 3 := by decide
  refine ⟨?_, ?_, ?_⟩
  · rw [BitVec.and_or_distrib_left, hctl, hshift, BitVec.and_twoPow, BitVec.and_twoPow]
    cases w.getLsbD 1 <;> cases w.getLsbD 0 <;> rfl
  · rw [hcaps, BitVec.and_twoPow]
    cases w.getLsbD 3 <;> decide
  · rw [BitVec.and_or_distrib_left, hctl, halt, BitVec.and_twoPow, BitVec.and_twoPow, BitVec.getLsbD_not, BitVec.getLsbD_not]
    cases w.getLsbD 1 <;> cases w.getLsbD 2 <;> decide

/-- A key that goes down gives its character, and reboots if it is `Del` with `Ctrl` and `Alt`. -/
theorem ShiftOk.press (h : ShiftOk w past) (hdown : e.down = true) :
    (kbdPress w e.key.index).1 = keyChar (past ++ [e]) e.key ∧ (kbdPress w e.key.index).2.1 = reboots past e := by
  have hup : UpAlone past [e] := ⟨fun hoff => absurd (hdown.symm.trans hoff) nofun, trivial⟩
  have hok := h.event hup
  have hpress : e.onShift w = (w ||| shiftcode e.key.index) ^^^ togglecode e.key.index := if_pos hdown
  obtain ⟨htable, hcaps, hboth⟩ := shift_bits ((w ||| shiftcode e.key.index) ^^^ togglecode e.key.index)
  rw [hpress] at hok
  have hctl := hok.mods 1 (by decide)
  have hshift := hok.mods 0 (by decide)
  have halt := hok.mods 2 (by decide)
  have hlock := hok.locks 3 (by decide) (by decide)
  change _ = held kbCtl _ at hctl
  change _ = held kbShift _ at hshift
  change _ = held kbAlt _ at halt
  change _ = locked kbCapslock _ at hlock
  rw [hctl, hshift] at htable
  rw [hlock] at hcaps
  rw [hctl, halt] at hboth
  have hchar : (kbdPress w e.key.index).1 = keyChar (past ++ [e]) e.key := by
    unfold kbdPress keyChar
    dsimp only
    rw [htable]
    by_cases hl : locked kbCapslock (past ++ [e]) = true
    · rw [if_pos hl, if_pos (hcaps.mpr hl)]
    · rw [if_neg hl, if_neg fun hc => hl (hcaps.mp hc)]
  refine ⟨hchar, ?_⟩
  -- the character is `KEY_DEL` in all the tables, with Caps Lock or without
  have hdel : keyChar (past ++ [e]) e.key = keyDel ↔ e.key.index = 0xD3#8 := by
    obtain ⟨hn, hs, hc, -⟩ := key_del e.key.index
    have hswap (c : BitVec 8) : (if locked kbCapslock (past ++ [e]) then swapCase c else c) = keyDel ↔ c = keyDel := by
      split
      · exact (key_del c).2.2.2
      · exact Iff.rfl
    unfold keyChar
    dsimp only
    rw [hswap]
    split
    · exact hc
    · split
      · exact hs
      · exact hn
  have hflag : (kbdPress w e.key.index).2.1 = decide (~~~((w ||| shiftcode e.key.index) ^^^ togglecode e.key.index) &&&
      (kbCtl ||| kbAlt) = 0#32 ∧ (kbdPress w e.key.index).1 = keyDel) := rfl
  rw [hflag, hchar]
  unfold reboots
  apply decide_eq_decide.mpr
  rw [hboth, hdel]
  exact ⟨fun ⟨⟨hc, ha⟩, hd⟩ => ⟨hdown, hc, ha, hd⟩, fun ⟨_, hc, ha, hd⟩ => ⟨⟨hc, ha⟩, hd⟩⟩

/-- What the keyboard sends for any events gives the characters that they type. -/
theorem kbdFeed_events (h : ShiftOk w past) (es : List KeyEvent) (hup : UpAlone past es) :
    (kbdFeed (es.flatMap KeyEvent.bytes) w).1.filter (· ≠ 0#8) = (typedFrom past es).filter (· ≠ 0#8) ∧
      (kbdFeed (es.flatMap KeyEvent.bytes) w).2.1 = rebootsFrom past es ∧
      ShiftOk (kbdFeed (es.flatMap KeyEvent.bytes) w).2.2 (past ++ es) := by
  induction es generalizing w past with
  | nil => exact ⟨rfl, rfl, by rwa [List.append_nil]⟩
  | cons e es ih =>
    obtain ⟨hchars, hreboot, hok⟩ := ih (h.event ⟨hup.1, trivial⟩) hup.2
    rw [List.flatMap_cons, kbdFeed_append, kbdFeed_event h.esc e]
    dsimp only
    refine ⟨?_, ?_, by rwa [← List.append_cons] at hok⟩
    · unfold typedFrom
      rw [List.filter_append, List.filter_append, List.filter_append, hchars]
      have hesc : (if e.key.escaped then [0#8] else []).filter (· ≠ 0#8) = [] := by
        split <;> rfl
      rw [hesc, List.nil_append]
      congr 1
      by_cases hdown : e.down = true
      · rw [if_pos hdown, if_pos hdown, (h.press hdown).1]
      · rw [if_neg hdown, if_neg hdown]
        rfl
    · unfold rebootsFrom
      rw [hreboot]
      congr 1
      by_cases hdown : e.down = true
      · rw [hdown, Bool.true_and, (h.press hdown).2]
      · have hoff : reboots past e = false := decide_eq_false fun hr => hdown hr.1
        rw [hoff, Bool.eq_false_of_not_eq_true hdown]
        rfl

end Keys

section System

/-- The console and its keyboard. -/
structure KbdCons where
  cons : Cons
  shift : Word

/-- A call of the console with what it returned, the bytes of the keyboard that it has read, and whether it has rebooted. -/
structure KbdEvent where
  cons : ConsEvent
  data : List (BitVec 8)
  reboot : Bool

/-- What `kbd_proc_data` returned in a call. -/
def ConsCall.kbd : ConsCall → List (BitVec 8)
  | .serialIntr _ => []
  | .kbdIntr kbd => kbd
  | .consGetc _ kbd => kbd

/-- A call on a machine without a serial port, whatever the keyboard has ready. -/
def KbdStep (s : KbdCons) (e : KbdEvent) (s' : KbdCons) : Prop :=
  ConsStep false s.cons e.cons s'.cons ∧
    ∃ polls, e.data = portData polls ∧ kbdPolls polls s.shift = (e.cons.1.kbd, e.reboot, s'.shift)

variable {s : KbdCons} {es : List KbdEvent} {keys : List KeyEvent}

theorem charsDelivered_kbd (es : List KbdEvent) : charsDelivered false (es.map KbdEvent.cons) =
    (es.flatMap fun e => e.cons.1.kbd).filter (· ≠ 0#8) := by
  induction es with
  | nil => rfl
  | cons e es ih =>
    have hresults : e.cons.1.results false = e.cons.1.kbd := by
      cases e.cons.1 with
      | serialIntr serial => rfl
      | kbdIntr kbd => rfl
      | consGetc serial kbd => rfl
    unfold charsDelivered at ih ⊢
    rw [List.map_cons, List.flatMap_cons, List.flatMap_cons, List.filter_append, ih, hresults]

/-- All the calls together make of the bytes what `kbd_proc_data` makes of them in one go. -/
theorem kbdRun_feed (h : Run KbdStep ⟨consStart, 0#32⟩ es s) : Run (ConsStep false) consStart (es.map KbdEvent.cons) s.cons ∧
    kbdFeed (es.flatMap KbdEvent.data) 0#32 = (es.flatMap fun e => e.cons.1.kbd, es.any KbdEvent.reboot, s.shift) := by
  induction h with
  | nil => exact ⟨.nil, rfl⟩
  | @snoc es e t u _ hs ih =>
    obtain ⟨hrun, hfeed⟩ := ih
    obtain ⟨hstep, polls, hdata, hpolls⟩ := hs
    rw [kbdPolls_eq, ← hdata] at hpolls
    rw [List.map_append, List.flatMap_append, List.flatMap_append, List.any_append, kbdFeed_append, hfeed,
      List.flatMap_singleton, List.flatMap_singleton]
    dsimp only
    rw [hpolls]
    refine ⟨hrun.snoc hstep, ?_⟩
    rw [List.any_cons, List.any_nil, Bool.or_false]

/-- What is typed is what is read. Over every run with few characters pending, what `cons_getc` has returned, and what is in
the buffer, are the characters of the keys in their order, however their bytes were spread over the calls; and the machine has
been rebooted if and only if `Del` has gone down with `Ctrl` and `Alt` held. A last key may have sent no more than its `E0`.
`shift` has one bit for both keys of a modifier, so that these have to go up one at a time. -/
theorem kbd_typed (h : Run KbdStep ⟨consStart, 0#32⟩ es s) (hfew : FewPending false (es.map KbdEvent.cons)) (hup : UpAlone [] keys)
    (hkeys : ∃ esc, (esc = [] ∨ esc = [0xE0#8]) ∧ es.flatMap KbdEvent.data = keys.flatMap KeyEvent.bytes ++ esc) :
    (∃ q, ConsHolds s.cons q ∧ charsReturned (es.map KbdEvent.cons) ++ q = (typedFrom [] keys).filter (· ≠ 0#8)) ∧
      es.any KbdEvent.reboot = rebootsFrom [] keys := by
  obtain ⟨hrun, hfeed⟩ := kbdRun_feed h
  obtain ⟨esc, hesc, hdata⟩ := hkeys
  obtain ⟨hchars, hreboot, -⟩ := kbdFeed_events ShiftOk.start keys hup
  obtain ⟨q, htraced⟩ := consRun_traced hrun hfew
  -- a last `E0` makes no character
  have htail (w : Word) : (kbdFeed esc w).1.filter (· ≠ 0#8) = [] ∧ (kbdFeed esc w).2.1 = false := by
    rcases hesc with rfl | rfl
    · exact ⟨rfl, rfl⟩
    · exact ⟨rfl, rfl⟩
  rw [hdata, kbdFeed_append] at hfeed
  obtain ⟨hall, hrest⟩ := Prod.mk.inj hfeed
  obtain ⟨hflag, -⟩ := Prod.mk.inj hrest
  refine ⟨⟨q, htraced.holds, ?_⟩, ?_⟩
  · rw [htraced.account, charsDelivered_kbd, ← hall, List.filter_append, hchars, (htail _).1, List.append_nil]
  · rw [← hflag, hreboot, (htail _).2, Bool.or_false]

/-- `A` with a `Shift` key, and without. -/
def shiftA : List KeyEvent :=
  [⟨⟨0x2A#8, false, by decide, by decide⟩, true⟩, ⟨⟨0x1E#8, false, by decide, by decide⟩, true⟩,
    ⟨⟨0x1E#8, false, by decide, by decide⟩, false⟩, ⟨⟨0x2A#8, false, by decide, by decide⟩, false⟩,
    ⟨⟨0x1E#8, false, by decide, by decide⟩, true⟩]

/-- They are in two interrupts, and the characters are read behind them. -/
def shiftACalls : List KbdEvent :=
  [⟨(.kbdIntr [0#8, chr 'A'], none), [0x2A#8, 0x1E#8], false⟩, ⟨(.kbdIntr [0#8, 0#8, chr 'a'], none), [0x9E#8, 0xAA#8, 0x1E#8], false⟩,
    ⟨(.consGetc [] [], some (chr 'A')), [], false⟩, ⟨(.consGetc [] [], some (chr 'a')), [], false⟩]

theorem kbd_typed_shiftA : ∃ s : KbdCons,
    (∃ q, ConsHolds s.cons q ∧ charsReturned (shiftACalls.map KbdEvent.cons) ++ q = (typedFrom [] shiftA).filter (· ≠ 0#8)) ∧
      shiftACalls.any KbdEvent.reboot = rebootsFrom [] shiftA := by
  obtain ⟨s₁, h₁, hq₁⟩ := consStart_holds.call false (.kbdIntr [0#8, chr 'A']) (by decide)
  obtain ⟨s₂, h₂, hq₂⟩ := hq₁.call false (.kbdIntr [0#8, 0#8, chr 'a']) (by decide)
  obtain ⟨s₃, h₃, hq₃⟩ := hq₂.call false (.consGetc [] []) (by decide)
  obtain ⟨s₄, h₄, -⟩ := hq₃.call false (.consGetc [] []) (by decide)
  have hpolls : kbdPolls [(1#8, 0x2A#8), (1#8, 0x1E#8)] 0#32 = ([0#8, chr 'A'], false, 1#32) := by decide +kernel
  have hpolls' : kbdPolls [(1#8, 0x9E#8), (1#8, 0xAA#8), (1#8, 0x1E#8)] 1#32 = ([0#8, 0#8, chr 'a'], false, 0#32) := by
    decide +kernel
  have hstep₁ : KbdStep ⟨consStart, 0#32⟩ ⟨(.kbdIntr [0#8, chr 'A'], none), [0x2A#8, 0x1E#8], false⟩ ⟨s₁, 1#32⟩ :=
    ⟨h₁, [(1#8, 0x2A#8), (1#8, 0x1E#8)], rfl, hpolls⟩
  have hstep₂ : KbdStep ⟨s₁, 1#32⟩ ⟨(.kbdIntr [0#8, 0#8, chr 'a'], none), [0x9E#8, 0xAA#8, 0x1E#8], false⟩ ⟨s₂, 0#32⟩ :=
    ⟨h₂, [(1#8, 0x9E#8), (1#8, 0xAA#8), (1#8, 0x1E#8)], rfl, hpolls'⟩
  have hstep₃ : KbdStep ⟨s₂, 0#32⟩ ⟨(.consGetc [] [], some (chr 'A')), [], false⟩ ⟨s₃, 0#32⟩ := ⟨h₃, [], rfl, rfl⟩
  have hstep₄ : KbdStep ⟨s₃, 0#32⟩ ⟨(.consGetc [] [], some (chr 'a')), [], false⟩ ⟨s₄, 0#32⟩ := ⟨h₄, [], rfl, rfl⟩
  have hrun := (((Run.nil.snoc hstep₁).snoc hstep₂).snoc hstep₃).snoc hstep₄
  have hup : UpAlone [] shiftA := by
    refine ⟨?_, ?_, ?_, ?_, ?_, trivial⟩ <;> decide
  exact ⟨⟨s₄, 0#32⟩, kbd_typed hrun (FewPending.of_length (by decide)) hup ⟨[], Or.inl rfl, by decide⟩⟩

end System
end Sisop
