import Mathlib.Data.BitVec
import Mathlib.Tactic.Common

/-! The argument parser of `lib/args.c`. It removes arguments from the caller's array, while
`curarg` points into one that is removed already. An access outside the array, or behind the
NUL of a string, fails. -/
namespace Sisop

/-- What a `const char *` points into: an argument, or the literal `""`. -/
inductive Base where
  | arg (i : ℕ)
  | empty
  deriving DecidableEq

structure StrPtr where
  base : Base
  off : ℕ
  deriving DecidableEq

/-- `*argc`, `argv` and the rest of `struct Argstate`. An entry of `argv` is an argument or a null pointer. -/
structure Argstate where
  argc : ℕ
  argv : List (Option ℕ)
  curarg : Option StrPtr
  argvalue : Option StrPtr
  deriving DecidableEq

/-- What a call returns: a flag, -1, or a string or a null pointer. -/
inductive ArgResult (α : Type) where
  | flag (c : BitVec 8)
  | ended
  | value (v : Option α)
  deriving DecidableEq

inductive ArgCall where
  | next | value | nextValue
  deriving DecidableEq

section Source

variable (str : ℕ → List (BitVec 8))

/-- The characters of a string. -/
def Base.chars : Base → List (BitVec 8)
  | .arg i => str i
  | .empty => []

/-- The string that a pointer stands for. -/
def StrPtr.text (p : StrPtr) : List (BitVec 8) := (p.base.chars str).drop p.off

/-- `*p`. -/
def StrPtr.deref (p : StrPtr) : Option (BitVec 8) :=
  if p.off = (p.base.chars str).length then some 0#8 else (p.base.chars str)[p.off]?

/-- `memmove(argv + 1, argv + 2, sizeof(const char *) * (argc - 1))`. -/
def shiftArgs (argv : List (Option ℕ)) (argc : ℕ) : Option (List (Option ℕ)) :=
  if argc < argv.length then some (argv.take 1 ++ (argv.drop 2).take (argc - 1) ++ argv.drop argc) else none

def argstart (argc : ℕ) (argv : List (Option ℕ)) : Argstate where
  argc := argc
  argv := argv
  curarg := if 1 < argc then some ⟨.empty, 0⟩ else none
  argvalue := none

/-- `arg = (unsigned char) *curarg; curarg++; return arg;` -/
def takeFlag (s : Argstate) (cur : StrPtr) : Option (ArgResult StrPtr × Argstate) := do
  let c ← cur.deref str
  some (.flag c, { s with curarg := some { cur with off := cur.off + 1 } })

def endOfArgs (s : Argstate) : Option (ArgResult StrPtr × Argstate) := some (.ended, { s with curarg := none })

def argnext (s : Argstate) : Option (ArgResult StrPtr × Argstate) :=
  let s := { s with argvalue := none }
  match s.curarg with
  | none => some (.ended, s)
  | some cur => do
    let c ← cur.deref str
    if c ≠ 0#8 then takeFlag str s cur
    else if s.argc = 1 then endOfArgs s
    else do
      let i ← (← s.argv[1]?)
      let c0 ← StrPtr.deref str ⟨.arg i, 0⟩
      if c0 ≠ 0x2d#8 then endOfArgs s
      else do
        let c1 ← StrPtr.deref str ⟨.arg i, 1⟩
        if c1 = 0#8 then endOfArgs s
        else do
          let argv ← shiftArgs s.argv s.argc
          let s := { s with curarg := some ⟨.arg i, 1⟩, argv := argv, argc := s.argc - 1 }
          -- `--` is the end of the flags
          if c1 = 0x2d#8 then do
            let c2 ← StrPtr.deref str ⟨.arg i, 2⟩
            if c2 = 0#8 then endOfArgs s else takeFlag str s ⟨.arg i, 1⟩
          else takeFlag str s ⟨.arg i, 1⟩

def argnextvalue (s : Argstate) : Option (ArgResult StrPtr × Argstate) :=
  match s.curarg with
  | none => some (.value none, s)
  | some cur => do
    let c ← cur.deref str
    if c ≠ 0#8 then some (.value (some cur), { s with argvalue := some cur, curarg := some ⟨.empty, 0⟩ })
    else if 1 < s.argc then do
      let i ← (← s.argv[1]?)
      let argv ← shiftArgs s.argv s.argc
      some (.value (some ⟨.arg i, 0⟩), { s with argvalue := some ⟨.arg i, 0⟩, argv := argv, argc := s.argc - 1 })
    else some (.value none, { s with argvalue := none, curarg := none })

def argvalue (s : Argstate) : Option (ArgResult StrPtr × Argstate) :=
  match s.argvalue with
  | some v => some (.value (some v), s)
  | none => argnextvalue str s

def ArgCall.run (c : ArgCall) (s : Argstate) : Option (ArgResult StrPtr × Argstate) :=
  match c with
  | .next => argnext str s
  | .value => argvalue str s
  | .nextValue => argnextvalue str s

/-- Any calls, one after the other. -/
def runArgs (s : Argstate) : List ArgCall → Option (List (ArgResult StrPtr) × Argstate)
  | [] => some ([], s)
  | c :: cs => do
    let (r, s) ← c.run str s
    let (rs, s) ← runArgs s cs
    some (r :: rs, s)

end Source

section Contract

variable (str : ℕ → List (BitVec 8))

/-- What the calls are about: the rest of the present flag argument, the arguments that are left, whether the
flags have ended, and the value that has been handed out since the last flag. -/
structure Parse where
  cur : List (BitVec 8)
  args : List ℕ
  ended : Bool
  value : Option (List (BitVec 8))

/-- A flag argument is longer than `-`. -/
def flagChars : List (BitVec 8) → Option (List (BitVec 8))
  | c :: c' :: cs => if c = 0x2d#8 then some (c' :: cs) else none
  | _ => none

/-- The next flag. -/
def Parse.next (p : Parse) : ArgResult (List (BitVec 8)) × Parse :=
  if p.ended then (.ended, { p with value := none })
  else match p.cur with
    | c :: cs => (.flag c, { p with cur := cs, value := none })
    | [] => match p.args with
      | [] => (.ended, { p with ended := true, value := none })
      | i :: is => match flagChars (str i) with
        | none => (.ended, { p with ended := true, value := none })
        | some cs =>
          if cs = [0x2d#8] then (.ended, { p with args := is, ended := true, value := none })
          else (.flag (cs.headD 0#8), { p with cur := cs.tail, args := is, value := none })

/-- The rest of the flag argument if there is one, or else the next argument. -/
def Parse.nextValue (p : Parse) : ArgResult (List (BitVec 8)) × Parse :=
  if p.ended then (.value none, p)
  else match p.cur with
    | c :: cs => (.value (some (c :: cs)), { p with cur := [], value := some (c :: cs) })
    | [] => match p.args with
      | i :: is => (.value (some (str i)), { p with args := is, value := some (str i) })
      | [] => (.value none, { p with ended := true, value := none })

/-- The value of the present flag, which stays the same. -/
def Parse.sameValue (p : Parse) : ArgResult (List (BitVec 8)) × Parse :=
  match p.value with
  | some v => (.value (some v), p)
  | none => p.nextValue str

def ArgCall.spec (c : ArgCall) (p : Parse) : ArgResult (List (BitVec 8)) × Parse :=
  match c with
  | .next => p.next str
  | .value => p.sameValue str
  | .nextValue => p.nextValue str

def Parse.run (p : Parse) : List ArgCall → List (ArgResult (List (BitVec 8))) × Parse
  | [] => ([], p)
  | c :: cs => ((c.spec str p).1 :: (run (c.spec str p).2 cs).1, (run (c.spec str p).2 cs).2)

def Parse.start (args : List ℕ) : Parse := ⟨[], args, args.isEmpty, none⟩

end Contract

/-- What a result says, with the string for the pointer. -/
def ArgResult.view (str : ℕ → List (BitVec 8)) : ArgResult StrPtr → ArgResult (List (BitVec 8))
  | .flag c => .flag c
  | .ended => .ended
  | .value v => .value (v.map (StrPtr.text str))

section Simulation

variable {str : ℕ → List (BitVec 8)} {s s' : Argstate} {p : Parse} {prog i k : ℕ} {q : StrPtr}

/-- A pointer into a string, or to its NUL. -/
def StrPtr.Valid (str : ℕ → List (BitVec 8)) (q : StrPtr) : Prop := q.off ≤ (q.base.chars str).length

/-- The state holds what it is about. -/
structure Holds (str : ℕ → List (BitVec 8)) (prog : ℕ) (s : Argstate) (p : Parse) : Prop where
  argc : s.argc = p.args.length + 1
  argv : ∃ junk, s.argv = some prog :: (p.args.map some ++ none :: junk)
  curNone : s.curarg = none ↔ p.ended = true
  cur : ∀ q, s.curarg = some q → q.Valid str ∧ q.text str = p.cur
  ended : p.ended = true → p.cur = []
  value : s.argvalue.map (StrPtr.text str) = p.value

theorem deref_nil (hq : q.Valid str) (ht : q.text str = []) : q.deref str = some 0#8 := by
  unfold StrPtr.text at ht
  unfold StrPtr.Valid at hq
  have hlen := List.drop_eq_nil_iff.mp ht
  unfold StrPtr.deref
  rw [if_pos (by omega)]

theorem deref_cons {c : BitVec 8} {cs : List (BitVec 8)} (ht : q.text str = c :: cs) : q.deref str = some c ∧
    (StrPtr.mk q.base (q.off + 1)).Valid str ∧ (StrPtr.mk q.base (q.off + 1)).text str = cs := by
  unfold StrPtr.text at *
  have hget : (q.base.chars str)[q.off]? = some c := by
    rw [← List.head?_drop, ht]
    rfl
  have hlt := (List.getElem?_eq_some_iff.mp hget).1
  refine ⟨?_, hlt, ?_⟩
  · unfold StrPtr.deref
    rw [if_neg (by omega), hget]
  · rw [← List.tail_drop, ht]
    rfl

theorem shiftArgs_eq (prog i : ℕ) (is : List ℕ) (junk : List (Option ℕ)) :
    shiftArgs (some prog :: ((i :: is).map some ++ none :: junk)) (is.length + 2) =
      some (some prog :: (is.map some ++ none :: none :: junk)) := by
  have hlen : is.length + 2 < (some prog :: ((i :: is).map some ++ none :: junk)).length := by
    simp only [List.length_cons, List.length_append, List.length_map]
    omega
  have hmid : (is.map some ++ none :: junk).take (is.length + 1) = is.map some ++ [none] := by
    rw [← List.length_map (f := some), List.take_length_add_append]
    rfl
  have hend : (is.map some ++ none :: junk).drop is.length = none :: junk := by
    rw [← List.length_map (f := some), List.drop_left]
  unfold shiftArgs
  rw [if_pos hlen]
  change some ([some prog] ++ (is.map some ++ none :: junk).take (is.length + 1) ++
    (is.map some ++ none :: junk).drop is.length) = _
  rw [hmid, hend]
  simp only [List.append_assoc, List.cons_append, List.nil_append]

/-- The next argument, and the array without it. -/
theorem Holds.shift {is : List ℕ} (h : Holds str prog s p) (hargs : p.args = i :: is) :
    s.argv[1]? = some (some i) ∧ ∃ argv, shiftArgs s.argv s.argc = some argv ∧
      ∃ junk, argv = some prog :: (is.map some ++ none :: junk) := by
  obtain ⟨junk, hargv⟩ := h.argv
  have hargc := h.argc
  rw [hargs] at hargv hargc
  rw [hargv, hargc]
  exact ⟨rfl, _, shiftArgs_eq prog i is junk, none :: junk, rfl⟩

/-- The flags end, and the arguments stay as they are. -/
theorem endOfArgs_holds {ps : Parse} (hargc : s.argc = ps.args.length + 1)
    (hargv : ∃ junk, s.argv = some prog :: (ps.args.map some ++ none :: junk)) (hcur : ps.cur = []) (hended : ps.ended = true)
    (hvalue : s.argvalue.map (StrPtr.text str) = ps.value) :
    ∃ r s', endOfArgs s = some (r, s') ∧ r.view str = .ended ∧ Holds str prog s' ps := by
  refine ⟨_, _, rfl, rfl, hargc, hargv, ?_, nofun, fun _ => hcur, hvalue⟩
  exact ⟨fun _ => hended, fun _ => rfl⟩

/-- A flag is taken from where there is one. -/
theorem takeFlag_holds {ps : Parse} {c : BitVec 8} {cs : List (BitVec 8)} (hargc : s.argc = ps.args.length + 1)
    (hargv : ∃ junk, s.argv = some prog :: (ps.args.map some ++ none :: junk)) (ht : q.text str = c :: cs) (hcur : ps.cur = cs)
    (hended : ps.ended = false) (hvalue : s.argvalue.map (StrPtr.text str) = ps.value) :
    ∃ r s', takeFlag str s q = some (r, s') ∧ r.view str = .flag c ∧ Holds str prog s' ps := by
  obtain ⟨hderef, hvalid, htext⟩ := deref_cons ht
  unfold takeFlag
  rw [hderef]
  refine ⟨_, _, rfl, rfl, hargc, hargv, ?_, fun q' hq' => ?_, fun hend => ?_, hvalue⟩
  · rw [hended]
    exact ⟨nofun, nofun⟩
  · obtain rfl := Option.some.inj hq'
    exact ⟨hvalid, htext.trans hcur.symm⟩
  · rw [hended] at hend
    cases hend

/-- The characters of a string are not NUL. -/
theorem text_ne_zero (hnul : ∀ i, 0#8 ∉ str i) {c : BitVec 8} {cs : List (BitVec 8)} (ht : q.text str = c :: cs) : c ≠ 0#8 := by
  rintro rfl
  have hmem : 0#8 ∈ q.text str := by
    rw [ht]
    exact List.mem_cons_self
  have hbase := List.mem_of_mem_drop hmem
  cases hb : q.base with
  | arg i =>
    rw [hb] at hbase
    exact hnul i hbase
  | empty =>
    rw [hb] at hbase
    cases hbase

theorem Holds.not_ended (h : Holds str prog s p) (hq : s.curarg = some q) : p.ended = false := by
  apply Bool.eq_false_of_not_eq_true
  intro hend
  rw [h.curNone.mpr hend] at hq
  cases hq

/-- The pointer to character `k` of an argument. -/
theorem deref_arg (hk : k ≤ (str i).length) : StrPtr.deref str ⟨.arg i, k⟩ = some (((str i)[k]?).getD 0#8) := by
  unfold StrPtr.deref
  change (if k = (str i).length then some 0#8 else (str i)[k]?) = _
  split
  next heq => rw [heq, List.getElem?_eq_none le_rfl]; rfl
  next hne => rw [List.getElem?_eq_getElem (by omega)]; rfl

theorem next_stop {is : List ℕ} (hended : p.ended = false) (hcur : p.cur = []) (hargs : p.args = i :: is)
    (hflag : flagChars (str i) = none) : p.next str = (.ended, { p with ended := true, value := none }) := by
  unfold Parse.next
  simp only [hended, hcur, hargs, hflag, Bool.false_eq_true, if_false]

theorem next_dashes {is : List ℕ} (hended : p.ended = false) (hcur : p.cur = []) (hargs : p.args = i :: is)
    (hflag : flagChars (str i) = some [0x2d#8]) :
    p.next str = (.ended, { p with args := is, ended := true, value := none }) := by
  unfold Parse.next
  simp only [hended, hcur, hargs, hflag, Bool.false_eq_true, if_false, if_true]

theorem next_flagArg {is : List ℕ} {c : BitVec 8} {cs : List (BitVec 8)} (hended : p.ended = false) (hcur : p.cur = [])
    (hargs : p.args = i :: is) (hflag : flagChars (str i) = some (c :: cs)) (hne : c :: cs ≠ [0x2d#8]) :
    p.next str = (.flag c, { p with cur := cs, args := is, value := none }) := by
  unfold Parse.next
  simp only [hended, hcur, hargs, hflag, Bool.false_eq_true, if_false, if_neg hne]
  rfl

theorem next_noArgs (hended : p.ended = false) (hcur : p.cur = []) (hargs : p.args = []) :
    p.next str = (.ended, { p with ended := true, value := none }) := by
  unfold Parse.next
  simp only [hended, hcur, hargs, Bool.false_eq_true, if_false]

theorem next_char {c : BitVec 8} {cs : List (BitVec 8)} (hended : p.ended = false) (hcur : p.cur = c :: cs) :
    p.next str = (.flag c, { p with cur := cs, value := none }) := by
  unfold Parse.next
  simp only [hended, hcur, Bool.false_eq_true, if_false]

theorem next_ended (hended : p.ended = true) : p.next str = (.ended, { p with value := none }) := by
  unfold Parse.next
  rw [if_pos hended]

/-- Where the present flag argument is used up, the next argument decides. -/
theorem argnext_nextArg (hq : s.curarg = some q) (hvalid : q.Valid str) (ht : q.text str = []) :
    argnext str s =
      (if s.argc = 1 then endOfArgs { s with argvalue := none }
      else do
        let i ← (← s.argv[1]?)
        let c0 ← StrPtr.deref str ⟨.arg i, 0⟩
        if c0 ≠ 0x2d#8 then endOfArgs { s with argvalue := none }
        else do
          let c1 ← StrPtr.deref str ⟨.arg i, 1⟩
          if c1 = 0#8 then endOfArgs { s with argvalue := none }
          else do
            let argv ← shiftArgs s.argv s.argc
            let s := { s with curarg := some ⟨.arg i, 1⟩, argv := argv, argc := s.argc - 1, argvalue := none }
            if c1 = 0x2d#8 then do
              let c2 ← StrPtr.deref str ⟨.arg i, 2⟩
              if c2 = 0#8 then endOfArgs s else takeFlag str s ⟨.arg i, 1⟩
            else takeFlag str s ⟨.arg i, 1⟩) := by
  unfold argnext
  simp only [hq]
  rw [deref_nil hvalid ht]
  rfl

theorem flagChars_cons (c c' : BitVec 8) (cs : List (BitVec 8)) :
    flagChars (c :: c' :: cs) = if c = 0x2d#8 then some (c' :: cs) else none := rfl

theorem flagChars_eq_none (h : flagChars (str i) = none) :
    ((str i)[0]?).getD 0#8 ≠ 0x2d#8 ∨ (str i).length = 1 := by
  match hs : str i with
  | [] => exact .inl (by decide)
  | [c] => exact .inr rfl
  | c :: c' :: cs =>
    rw [hs, flagChars_cons] at h
    left
    rintro rfl
    cases h

theorem flagChars_eq_some {cs : List (BitVec 8)} (h : flagChars (str i) = some cs) : str i = 0x2d#8 :: cs ∧ cs ≠ [] := by
  match hs : str i with
  | [] => rw [hs] at h; cases h
  | [c] => rw [hs] at h; cases h
  | c :: c' :: cs' =>
    rw [hs, flagChars_cons] at h
    split at h
    next hc =>
      obtain rfl := Option.some.inj h
      exact ⟨by rw [hc], nofun⟩
    next => cases h

/-- The string behind the first character of an argument. -/
theorem arg_text {c : BitVec 8} {cs : List (BitVec 8)} (hstr : str i = c :: cs) : StrPtr.text str ⟨.arg i, 1⟩ = cs := by
  change (str i).drop 1 = cs
  rw [hstr, List.drop_one, List.tail_cons]

/-- An argument that is no flag argument ends the flags. -/
theorem argnext_stop (h : Holds str prog s p) (hq : s.curarg = some q) (hcur : p.cur = []) {is : List ℕ}
    (hargs : p.args = i :: is) (hflag : flagChars (str i) = none) :
    argnext str s = endOfArgs { s with argvalue := none } := by
  obtain ⟨hvalid, ht⟩ := h.cur q hq
  obtain ⟨hget, argv', hshift, hargv'⟩ := h.shift hargs
  have hargc : s.argc ≠ 1 := by
    rw [h.argc, hargs]
    exact fun heq => nomatch heq
  rw [argnext_nextArg hq hvalid (ht.trans hcur), if_neg hargc, hget]
  simp only [Option.bind_eq_bind, Option.bind_some, deref_arg (Nat.zero_le _)]
  rcases flagChars_eq_none hflag with hne | hlen
  · rw [if_pos hne]
  · rw [deref_arg hlen.ge, List.getElem?_eq_none hlen.le]
    simp only [Option.bind_some, Option.getD_none, if_true, ite_self]

/-- `--` is removed, and it ends the flags. -/
theorem argnext_dashes (h : Holds str prog s p) (hq : s.curarg = some q) (hcur : p.cur = []) {is : List ℕ}
    (hargs : p.args = i :: is) (hflag : flagChars (str i) = some [0x2d#8]) {argv' : List (Option ℕ)}
    (hshift : shiftArgs s.argv s.argc = some argv') :
    argnext str s = endOfArgs ⟨s.argc - 1, argv', some ⟨.arg i, 1⟩, none⟩ := by
  obtain ⟨hvalid, ht⟩ := h.cur q hq
  have hget := (h.shift hargs).1
  have hargc : s.argc ≠ 1 := by
    rw [h.argc, hargs]
    exact fun heq => nomatch heq
  have hstr := (flagChars_eq_some hflag).1
  rw [argnext_nextArg hq hvalid (ht.trans hcur), if_neg hargc, hget]
  simp only [Option.bind_eq_bind, Option.bind_some, hshift]
  simp only [StrPtr.deref, Base.chars, hstr]
  rfl

/-- Another flag argument. -/
theorem argnext_flagArg (hnul : ∀ i, 0#8 ∉ str i) (h : Holds str prog s p) (hq : s.curarg = some q) (hcur : p.cur = [])
    {is : List ℕ} {c : BitVec 8} {cs : List (BitVec 8)} (hargs : p.args = i :: is) (hflag : flagChars (str i) = some (c :: cs))
    (hne : c :: cs ≠ [0x2d#8]) {argv' : List (Option ℕ)} (hshift : shiftArgs s.argv s.argc = some argv') :
    argnext str s = takeFlag str ⟨s.argc - 1, argv', some ⟨.arg i, 1⟩, none⟩ ⟨.arg i, 1⟩ := by
  obtain ⟨hvalid, ht⟩ := h.cur q hq
  have hget := (h.shift hargs).1
  have hargc : s.argc ≠ 1 := by
    rw [h.argc, hargs]
    exact fun heq => nomatch heq
  have hstr := (flagChars_eq_some hflag).1
  have hmem : ∀ x ∈ c :: cs, x ≠ 0#8 := by
    rintro x hx rfl
    apply hnul i
    rw [hstr]
    exact List.mem_cons_of_mem _ hx
  have hc := hmem c List.mem_cons_self
  rw [argnext_nextArg hq hvalid (ht.trans hcur), if_neg hargc, hget]
  simp only [Option.bind_eq_bind, Option.bind_some, hshift, deref_arg (Nat.zero_le _)]
  have h0 : ((str i)[0]?).getD 0#8 = 0x2d#8 := by rw [hstr]; rfl
  have htext := arg_text hstr
  have h1 : StrPtr.deref str ⟨.arg i, 1⟩ = some c := (deref_cons htext).1
  rw [if_neg (not_not_intro h0), h1, Option.bind_some, if_neg hc]
  split
  next hdash =>
    cases cs with
    | nil => exact absurd (congrArg (fun x => [x]) hdash) hne
    | cons d ds =>
      have h2 : StrPtr.deref str ⟨.arg i, 2⟩ = some d := (deref_cons (deref_cons htext).2.2).1
      rw [h2, Option.bind_some, if_neg (hmem d (List.mem_cons_of_mem _ List.mem_cons_self))]
  next => rfl

theorem argnext_holds (hnul : ∀ i, 0#8 ∉ str i) (h : Holds str prog s p) :
    ∃ r s', argnext str s = some (r, s') ∧ r.view str = (p.next str).1 ∧ Holds str prog s' (p.next str).2 := by
  cases hq : s.curarg with
  | none =>
    have hended := h.curNone.mp hq
    rw [next_ended hended]
    refine ⟨.ended, { s with argvalue := none }, ?_, rfl, h.argc, h.argv, h.curNone, h.cur, h.ended, rfl⟩
    unfold argnext
    simp only [hq]
  | some q =>
    have hended := h.not_ended hq
    obtain ⟨hvalid, ht⟩ := h.cur q hq
    cases hcur : p.cur with
    | cons c cs =>
      rw [hcur] at ht
      rw [next_char hended hcur]
      have hrun : argnext str s = takeFlag str { s with argvalue := none } q := by
        unfold argnext
        simp only [hq]
        rw [(deref_cons ht).1, Option.bind_eq_bind, Option.bind_some, if_pos (text_ne_zero hnul ht)]
      rw [hrun]
      apply takeFlag_holds
      · exact h.argc
      · exact h.argv
      · exact ht
      · rfl
      · exact hended
      · rfl
    | nil =>
      cases hargs : p.args with
      | nil =>
        have hargc : s.argc = 1 := by
          rw [h.argc, hargs]
          rfl
        rw [next_noArgs hended hcur hargs, argnext_nextArg hq hvalid (ht.trans hcur), if_pos hargc]
        apply endOfArgs_holds
        · exact h.argc
        · exact h.argv
        · exact hcur
        · rfl
        · rfl
      | cons i is =>
        obtain ⟨-, argv', hshift, hargv'⟩ := h.shift hargs
        have hargc' : s.argc - 1 = is.length + 1 := by
          rw [h.argc, hargs]
          rfl
        cases hflag : flagChars (str i) with
        | none =>
          rw [next_stop hended hcur hargs hflag, argnext_stop h hq hcur hargs hflag]
          apply endOfArgs_holds
          · exact h.argc
          · exact h.argv
          · exact hcur
          · rfl
          · rfl
        | some cs =>
          obtain ⟨hstr, hcs⟩ := flagChars_eq_some hflag
          by_cases hdashes : cs = [0x2d#8]
          · rw [hdashes] at hflag
            rw [next_dashes hended hcur hargs hflag, argnext_dashes h hq hcur hargs hflag hshift]
            apply endOfArgs_holds
            · exact hargc'
            · exact hargv'
            · exact hcur
            · rfl
            · rfl
          · obtain ⟨c, cs, rfl⟩ := List.exists_cons_of_ne_nil hcs
            rw [next_flagArg hended hcur hargs hflag hdashes, argnext_flagArg hnul h hq hcur hargs hflag hdashes hshift]
            apply takeFlag_holds
            · exact hargc'
            · exact hargv'
            · exact arg_text hstr
            · rfl
            · exact hended
            · rfl

theorem nextValue_ended (hended : p.ended = true) : p.nextValue str = (.value none, p) := by
  unfold Parse.nextValue
  rw [if_pos hended]

theorem nextValue_rest {c : BitVec 8} {cs : List (BitVec 8)} (hended : p.ended = false) (hcur : p.cur = c :: cs) :
    p.nextValue str = (.value (some (c :: cs)), { p with cur := [], value := some (c :: cs) }) := by
  unfold Parse.nextValue
  simp only [hended, hcur, Bool.false_eq_true, if_false]

theorem nextValue_arg {is : List ℕ} (hended : p.ended = false) (hcur : p.cur = []) (hargs : p.args = i :: is) :
    p.nextValue str = (.value (some (str i)), { p with args := is, value := some (str i) }) := by
  unfold Parse.nextValue
  simp only [hended, hcur, hargs, Bool.false_eq_true, if_false]

theorem nextValue_noArgs (hended : p.ended = false) (hcur : p.cur = []) (hargs : p.args = []) :
    p.nextValue str = (.value none, { p with ended := true, value := none }) := by
  unfold Parse.nextValue
  simp only [hended, hcur, hargs, Bool.false_eq_true, if_false]

theorem argnextvalue_holds (hnul : ∀ i, 0#8 ∉ str i) (h : Holds str prog s p) :
    ∃ r s', argnextvalue str s = some (r, s') ∧ r.view str = (p.nextValue str).1 ∧ Holds str prog s' (p.nextValue str).2 := by
  cases hq : s.curarg with
  | none =>
    rw [nextValue_ended (h.curNone.mp hq)]
    refine ⟨.value none, s, ?_, rfl, h⟩
    unfold argnextvalue
    rw [hq]
  | some q =>
    have hended := h.not_ended hq
    obtain ⟨hvalid, ht⟩ := h.cur q hq
    unfold argnextvalue
    rw [hq]
    dsimp only [Option.bind_eq_bind]
    cases hcur : p.cur with
    | cons c cs =>
      rw [hcur] at ht
      rw [nextValue_rest hended hcur, (deref_cons ht).1, Option.bind_some, if_pos (text_ne_zero hnul ht)]
      refine ⟨_, _, rfl, congrArg (fun v => ArgResult.value (some v)) ht, h.argc, h.argv, ?_, fun q' hq' => ?_, fun _ => rfl,
        congrArg some ht⟩
      · rw [hended]
        exact ⟨nofun, nofun⟩
      · obtain rfl := Option.some.inj hq'
        exact ⟨le_rfl, rfl⟩
    | nil =>
      rw [deref_nil hvalid (ht.trans hcur), Option.bind_some, if_neg (not_not_intro rfl)]
      cases hargs : p.args with
      | nil =>
        have hargc : ¬ 1 < s.argc := by
          rw [h.argc, hargs]
          exact lt_irrefl 1
        rw [nextValue_noArgs hended hcur hargs, if_neg hargc]
        refine ⟨_, _, rfl, rfl, h.argc, h.argv, ⟨fun _ => rfl, fun _ => rfl⟩, nofun, fun _ => hcur, rfl⟩
      | cons i is =>
        obtain ⟨hget, argv', hshift, hargv'⟩ := h.shift hargs
        have hargc : s.argc - 1 = is.length + 1 := by
          rw [h.argc, hargs]
          rfl
        rw [nextValue_arg hended hcur hargs, if_pos (by omega), hget, Option.bind_some, Option.bind_some, hshift,
          Option.bind_some]
        refine ⟨_, _, rfl, rfl, hargc, hargv', ?_, fun q' hq' => ?_, fun _ => hcur, rfl⟩
        · rw [hended]
          exact ⟨nofun, nofun⟩
        · obtain rfl := Option.some.inj hq'
          exact ⟨hvalid, ht⟩

theorem argvalue_holds (hnul : ∀ i, 0#8 ∉ str i) (h : Holds str prog s p) :
    ∃ r s', argvalue str s = some (r, s') ∧ r.view str = (p.sameValue str).1 ∧ Holds str prog s' (p.sameValue str).2 := by
  have hvalue := h.value
  unfold argvalue Parse.sameValue
  cases hv : s.argvalue with
  | none =>
    rw [hv] at hvalue
    rw [← hvalue]
    exact argnextvalue_holds hnul h
  | some v =>
    rw [hv] at hvalue
    rw [← hvalue]
    exact ⟨_, _, rfl, rfl, h⟩

/-- Each call does what it is about. -/
theorem call_holds (hnul : ∀ i, 0#8 ∉ str i) (h : Holds str prog s p) (c : ArgCall) :
    ∃ r s', c.run str s = some (r, s') ∧ r.view str = (c.spec str p).1 ∧ Holds str prog s' (c.spec str p).2 := by
  cases c with
  | next => exact argnext_holds hnul h
  | value => exact argvalue_holds hnul h
  | nextValue => exact argnextvalue_holds hnul h

theorem runArgs_holds (hnul : ∀ i, 0#8 ∉ str i) (calls : List ArgCall) : ∀ {s p}, Holds str prog s p →
    ∃ rs s', runArgs str s calls = some (rs, s') ∧ rs.map (ArgResult.view str) = (p.run str calls).1 ∧
      Holds str prog s' (p.run str calls).2 := by
  induction calls with
  | nil => exact fun h => ⟨[], _, rfl, rfl, h⟩
  | cons c cs ih =>
    intro s p h
    obtain ⟨r, s₁, hcall, hview, h₁⟩ := call_holds hnul h c
    obtain ⟨rs, s₂, hrun, hviews, h₂⟩ := ih h₁
    refine ⟨r :: rs, s₂, ?_, ?_, h₂⟩
    · unfold runArgs
      rw [hcall, Option.bind_eq_bind, Option.bind_some]
      dsimp only
      rw [hrun]
      rfl
    · rw [List.map_cons, hview, hviews]
      rfl

theorem start_holds (prog : ℕ) (args : List ℕ) :
    Holds str prog (argstart (args.length + 1) ((prog :: args).map some ++ [none])) (.start args) := by
  cases args with
  | nil => exact ⟨rfl, ⟨[], rfl⟩, ⟨fun _ => rfl, fun _ => rfl⟩, nofun, fun _ => rfl, rfl⟩
  | cons i is =>
    refine ⟨rfl, ⟨[], rfl⟩, ?_, fun q hq => ?_, nofun, rfl⟩
    · unfold argstart
      rw [if_pos (by simp only [List.length_cons]; omega)]
      exact ⟨nofun, nofun⟩
    · unfold argstart at hq
      rw [if_pos (by simp only [List.length_cons]; omega)] at hq
      obtain rfl := Option.some.inj hq
      exact ⟨le_rfl, rfl⟩

end Simulation

section Account

variable (str : ℕ → List (BitVec 8))

/-- An argument that has been removed: a flag argument, with the flags that have been returned and the value that
the rest has become; a value; or `--`. -/
inductive Part where
  | flags (i : ℕ) (chars rest : List (BitVec 8))
  | value (i : ℕ)
  | dashes (i : ℕ)

def Part.arg : Part → ℕ
  | .flags i _ _ => i
  | .value i => i
  | .dashes i => i

def Part.chars : Part → List (BitVec 8)
  | .flags _ chars _ => chars
  | _ => []

def Part.values : Part → List (List (BitVec 8))
  | .flags _ _ rest => if rest = [] then [] else [rest]
  | .value i => [str i]
  | .dashes _ => []

/-- The argument is what it was removed as, where `cur` is left of it. -/
def Part.Fits (cur : List (BitVec 8)) (ended : Bool) : Part → Prop
  | .flags i chars rest => flagChars (str i) = some (chars ++ rest ++ cur) ∧ str i ≠ [0x2d#8, 0x2d#8] ∧ chars ≠ [] ∧
      (rest = [] ∨ cur = [])
  | .value _ => cur = []
  | .dashes i => str i = [0x2d#8, 0x2d#8] ∧ cur = [] ∧ ended = true

/-- Only the last argument can be unfinished or `--`. -/
def AllFit (cur : List (BitVec 8)) (ended : Bool) : List Part → Prop
  | [] => cur = []
  | part :: parts => part.Fits str cur ended ∧ ∀ part' ∈ parts, part'.Fits str [] false

def ArgResult.flags {α : Type} : ArgResult α → List (BitVec 8)
  | .flag c => [c]
  | _ => []

def ArgResult.values {α : Type} : ArgResult α → List α
  | .value (some v) => [v]
  | _ => []

/-- What has become of the arguments. The last one that was removed comes first in `parts`. -/
structure Account (args : List ℕ) (rs : List (ArgResult (List (BitVec 8)))) (p : Parse) (parts : List Part) : Prop where
  args : args = parts.reverse.map Part.arg ++ p.args
  flags : rs.flatMap ArgResult.flags = parts.reverse.flatMap Part.chars
  values : (parts.reverse.flatMap (Part.values str)).Sublist (rs.flatMap ArgResult.values)
  fits : AllFit str p.cur p.ended parts
  ended : .ended ∈ rs → p.ended = true
  stop : p.ended = true → p.cur = [] ∧ ((∃ i, .dashes i ∈ parts) ∨ ∀ i ∈ p.args.head?, flagChars (str i) = none)

variable {str : ℕ → List (BitVec 8)} {args : List ℕ} {rs : List (ArgResult (List (BitVec 8)))} {p : Parse} {parts : List Part}

/-- Nothing is left of the last argument, so the next one can be removed. -/
theorem AllFit.finished (h : AllFit str [] false parts) : ∀ part ∈ parts, part.Fits str [] false := by
  cases parts with
  | nil => exact nofun
  | cons part parts =>
    intro part' hmem
    rcases List.mem_cons.mp hmem with rfl | hmem
    · exact h.1
    · exact h.2 part' hmem

/-- Where a flag argument is unfinished, it is the last one. -/
theorem AllFit.unfinished {c : BitVec 8} {cs : List (BitVec 8)} (h : AllFit str (c :: cs) false parts) :
    ∃ i chars parts', parts = .flags i chars [] :: parts' := by
  cases parts with
  | nil => cases h
  | cons part parts =>
    have hpart := h.1
    cases part with
    | flags i chars rest =>
      obtain ⟨-, -, -, hrest | hcur⟩ := hpart
      · exact ⟨i, chars, parts, by rw [hrest]⟩
      · cases hcur
    | value i => cases hpart
    | dashes i => cases hpart.2.1

/-- One more result. -/
theorem flatMap_snoc {α β : Type} (f : α → List β) (l : List α) (a : α) : (l ++ [a]).flatMap f = l.flatMap f ++ f a := by
  rw [List.flatMap_append, List.flatMap_singleton]

theorem AllFit.ended {cur : List (BitVec 8)} {ended ended' : Bool} (h : AllFit str cur ended parts) (hle : ended = true → ended' = true) :
    AllFit str cur ended' parts := by
  cases parts with
  | nil => exact h
  | cons part parts =>
    refine ⟨?_, h.2⟩
    have hpart := h.1
    cases part with
    | flags i chars rest => exact hpart
    | value i => exact hpart
    | dashes i => exact ⟨hpart.1, hpart.2.1, hle hpart.2.2⟩

/-- Nothing is removed. -/
theorem Account.keep {p' : Parse} {r : ArgResult (List (BitVec 8))} (h : Account str args rs p parts) (hargs : p'.args = p.args)
    (hcur : p'.cur = p.cur) (hle : p.ended = true → p'.ended = true) (hflags : r.flags = [])
    (hend : r = .ended → p'.ended = true)
    (hstop : p'.ended = true → p.ended = false → p.cur = [] ∧ ∀ i ∈ p.args.head?, flagChars (str i) = none) :
    Account str args (rs ++ [r]) p' parts where
  args := by rw [hargs, h.args]
  flags := by rw [flatMap_snoc, hflags, List.append_nil, h.flags]
  values := by
    rw [flatMap_snoc]
    exact h.values.trans (List.sublist_append_left _ _)
  fits := by
    rw [hcur]
    exact h.fits.ended hle
  ended hmem := by
    rcases List.mem_append.mp hmem with hmem | hmem
    · exact hle (h.ended hmem)
    · exact hend (List.mem_singleton.mp hmem).symm
  stop hended := by
    rw [hcur, hargs]
    cases hp : p.ended with
    | true => exact h.stop hp
    | false => exact ⟨(hstop hended hp).1, .inr (hstop hended hp).2⟩

/-- A further flag of the present flag argument. -/
theorem Account.char {c : BitVec 8} {cs : List (BitVec 8)} {v : Option (List (BitVec 8))} (h : Account str args rs p parts)
    (hended : p.ended = false) (hcur : p.cur = c :: cs) :
    ∃ parts', Account str args (rs ++ [.flag c]) { p with cur := cs, value := v } parts' := by
  have hfits := h.fits
  rw [hcur, hended] at hfits
  obtain ⟨i, chars, parts, rfl⟩ := hfits.unfinished
  obtain ⟨⟨hflag, hne, hchars, -⟩, hparts⟩ := hfits
  refine ⟨.flags i (chars ++ [c]) [] :: parts, ?_, ?_, ?_, ⟨⟨?_, hne, ?_, .inl rfl⟩, hparts⟩, fun hmem => ?_, fun hend => ?_⟩
  · rw [h.args, List.reverse_cons, List.reverse_cons, List.map_append, List.map_append]
    rfl
  · rw [flatMap_snoc, h.flags, List.reverse_cons, List.reverse_cons, flatMap_snoc, flatMap_snoc, List.append_assoc]
    rfl
  · have hvalues := h.values
    rw [List.reverse_cons, flatMap_snoc] at hvalues ⊢
    rw [flatMap_snoc]
    exact hvalues.trans (List.sublist_append_left _ _)
  · rw [hflag]
    simp only [List.append_nil, List.append_assoc, List.singleton_append]
  · exact List.append_ne_nil_of_right_ne_nil _ (List.cons_ne_nil _ _)
  · rcases List.mem_append.mp hmem with hmem | hmem
    · exact h.ended hmem
    · cases List.mem_singleton.mp hmem
  · rw [hended] at hend
    cases hend

/-- The rest of the present flag argument becomes a value. -/
theorem Account.rest {c : BitVec 8} {cs : List (BitVec 8)} {v : Option (List (BitVec 8))} (h : Account str args rs p parts)
    (hended : p.ended = false) (hcur : p.cur = c :: cs) :
    ∃ parts', Account str args (rs ++ [.value (some (c :: cs))]) { p with cur := [], value := v } parts' := by
  have hfits := h.fits
  rw [hcur, hended] at hfits
  obtain ⟨i, chars, parts, rfl⟩ := hfits.unfinished
  obtain ⟨⟨hflag, hne, hchars, -⟩, hparts⟩ := hfits
  refine ⟨.flags i chars (c :: cs) :: parts, ?_, ?_, ?_, ⟨⟨?_, hne, hchars, .inr rfl⟩, hparts⟩, fun hmem => ?_, fun hend => ?_⟩
  · rw [h.args, List.reverse_cons, List.reverse_cons, List.map_append, List.map_append]
    rfl
  · rw [flatMap_snoc, h.flags, List.reverse_cons, List.reverse_cons, flatMap_snoc, flatMap_snoc]
    exact List.append_nil _
  · have hvalues := h.values
    rw [List.reverse_cons, flatMap_snoc] at hvalues ⊢
    rw [flatMap_snoc]
    apply List.Sublist.append _ (List.Sublist.refl _)
    exact (List.sublist_append_left _ _).trans hvalues
  · rw [hflag]
    simp only [List.append_nil]
  · rcases List.mem_append.mp hmem with hmem | hmem
    · exact h.ended hmem
    · cases List.mem_singleton.mp hmem
  · rw [hended] at hend
    cases hend

/-- The next argument is removed. -/
theorem Account.remove {i : ℕ} {is : List ℕ} {p' : Parse} {r : ArgResult (List (BitVec 8))} (h : Account str args rs p parts)
    (hended : p.ended = false) (hcur : p.cur = []) (hargs : p.args = i :: is) (part : Part) (hargs' : p'.args = is)
    (harg : part.arg = i) (hflags : r.flags = part.chars) (hvalues : r.values = part.values str)
    (hfits : part.Fits str p'.cur p'.ended) (hr : r = .ended → p'.ended = true)
    (hstop : p'.ended = true → p'.cur = [] ∧ part = .dashes i) : Account str args (rs ++ [r]) p' (part :: parts) where
  args := by
    rw [h.args, hargs, hargs', List.reverse_cons, List.map_append, List.append_assoc, List.map_singleton, harg]
    rfl
  flags := by rw [flatMap_snoc, h.flags, List.reverse_cons, flatMap_snoc, hflags]
  values := by
    rw [flatMap_snoc, List.reverse_cons, flatMap_snoc, hvalues]
    exact h.values.append (List.Sublist.refl _)
  fits := by
    have hold := h.fits
    rw [hcur, hended] at hold
    exact ⟨hfits, hold.finished⟩
  ended hmem := by
    rcases List.mem_append.mp hmem with hmem | hmem
    · rw [h.ended hmem] at hended
      cases hended
    · exact hr (List.mem_singleton.mp hmem).symm
  stop hend := by
    obtain ⟨hcur', hpart⟩ := hstop hend
    exact ⟨hcur', .inl ⟨i, by rw [hpart]; exact List.mem_cons_self⟩⟩

theorem account_next (h : Account str args rs p parts) :
    ∃ parts', Account str args (rs ++ [(p.next str).1]) (p.next str).2 parts' := by
  cases hended : p.ended with
  | true =>
    rw [next_ended hended]
    exact ⟨parts, h.keep rfl rfl id rfl (fun _ => hended) fun _ hfalse => nomatch hended.symm.trans hfalse⟩
  | false =>
    cases hcur : p.cur with
    | cons c cs =>
      rw [next_char hended hcur]
      exact h.char hended hcur
    | nil =>
      cases hargs : p.args with
      | nil =>
        rw [next_noArgs hended hcur hargs]
        refine ⟨parts, h.keep rfl rfl (fun _ => rfl) rfl (fun _ => rfl) fun _ _ => ⟨hcur, ?_⟩⟩
        rw [hargs]
        exact nofun
      | cons i is =>
        cases hflag : flagChars (str i) with
        | none =>
          rw [next_stop hended hcur hargs hflag]
          refine ⟨parts, h.keep rfl rfl (fun _ => rfl) rfl (fun _ => rfl) fun _ _ => ⟨hcur, ?_⟩⟩
          rw [hargs]
          intro j hj
          obtain rfl := Option.some.inj hj
          exact hflag
        | some cs =>
          obtain ⟨hstr, hcs⟩ := flagChars_eq_some hflag
          by_cases hdashes : cs = [0x2d#8]
          · rw [hdashes] at hflag hstr
            rw [next_dashes hended hcur hargs hflag]
            exact ⟨_, h.remove hended hcur hargs (.dashes i) rfl rfl rfl rfl ⟨hstr, hcur, rfl⟩ (fun _ => rfl)
              fun _ => ⟨hcur, rfl⟩⟩
          · obtain ⟨c, cs, rfl⟩ := List.exists_cons_of_ne_nil hcs
            rw [next_flagArg hended hcur hargs hflag hdashes]
            have hfits : (Part.flags i [c] []).Fits str cs p.ended := by
              refine ⟨hflag, fun hne => hdashes ?_, List.cons_ne_nil _ _, .inl rfl⟩
              rw [hstr] at hne
              exact (List.cons.inj hne).2
            refine ⟨_, h.remove hended hcur hargs (.flags i [c] []) rfl rfl rfl rfl hfits nofun fun hend => ?_⟩
            exact nomatch hended.symm.trans hend

theorem account_nextValue (h : Account str args rs p parts) :
    ∃ parts', Account str args (rs ++ [(p.nextValue str).1]) (p.nextValue str).2 parts' := by
  cases hended : p.ended with
  | true =>
    rw [nextValue_ended hended]
    exact ⟨parts, h.keep rfl rfl id rfl nofun fun _ hfalse => nomatch hended.symm.trans hfalse⟩
  | false =>
    cases hcur : p.cur with
    | cons c cs =>
      rw [nextValue_rest hended hcur]
      exact h.rest hended hcur
    | nil =>
      cases hargs : p.args with
      | nil =>
        rw [nextValue_noArgs hended hcur hargs]
        refine ⟨parts, h.keep rfl rfl (fun _ => rfl) rfl nofun fun _ _ => ⟨hcur, ?_⟩⟩
        rw [hargs]
        exact nofun
      | cons i is =>
        rw [nextValue_arg hended hcur hargs]
        refine ⟨_, h.remove hended hcur hargs (.value i) rfl rfl rfl rfl hcur nofun fun hend => ?_⟩
        exact nomatch hended.symm.trans hend

theorem account_sameValue (h : Account str args rs p parts) :
    ∃ parts', Account str args (rs ++ [(p.sameValue str).1]) (p.sameValue str).2 parts' := by
  unfold Parse.sameValue
  cases hv : p.value with
  | none => exact account_nextValue h
  | some v => exact ⟨parts, h.keep rfl rfl id rfl nofun fun hend hfalse => nomatch hfalse.symm.trans hend⟩

theorem account_call (h : Account str args rs p parts) (c : ArgCall) :
    ∃ parts', Account str args (rs ++ [(c.spec str p).1]) (c.spec str p).2 parts' := by
  cases c with
  | next => exact account_next h
  | value => exact account_sameValue h
  | nextValue => exact account_nextValue h

theorem account_run (calls : List ArgCall) : ∀ {rs p parts}, Account str args rs p parts →
    ∃ parts', Account str args (rs ++ (p.run str calls).1) (p.run str calls).2 parts' := by
  induction calls with
  | nil =>
    intro rs p parts h
    refine ⟨parts, ?_⟩
    rw [show (p.run str []).1 = [] from rfl, List.append_nil]
    exact h
  | cons c cs ih =>
    intro rs p parts h
    obtain ⟨parts₁, h₁⟩ := account_call h c
    obtain ⟨parts₂, h₂⟩ := ih h₁
    rw [List.append_assoc] at h₂
    exact ⟨parts₂, h₂⟩

theorem account_start (str : ℕ → List (BitVec 8)) (args : List ℕ) : Account str args [] (.start args) [] where
  args := rfl
  flags := rfl
  values := .slnil
  fits := rfl
  ended := nofun
  stop hended := by
    refine ⟨rfl, .inr ?_⟩
    rw [show args = [] from List.isEmpty_iff.mp hended]
    exact nofun

end Account

/-- Any calls after `argstart` stay inside the array and the strings, and return what they are about. `argv[*argc]` stays
null, and the array before it holds the arguments that have not been removed. -/
theorem args_parse (str : ℕ → List (BitVec 8)) (hnul : ∀ i, 0#8 ∉ str i) (prog : ℕ) (args : List ℕ) (calls : List ArgCall) :
    ∃ rs s parts, runArgs str (argstart (args.length + 1) ((prog :: args).map some ++ [none])) calls = some (rs, s) ∧
      rs.map (ArgResult.view str) = ((Parse.start args).run str calls).1 ∧
      s.argv[s.argc]? = some none ∧
      s.argv.take s.argc = (prog :: ((Parse.start args).run str calls).2.args).map some ∧
      Account str args ((Parse.start args).run str calls).1 ((Parse.start args).run str calls).2 parts := by
  obtain ⟨rs, s, hrun, hviews, hs⟩ := runArgs_holds hnul calls (start_holds prog args)
  obtain ⟨parts, hparts⟩ := account_run calls (account_start str args)
  obtain ⟨junk, hargv⟩ := hs.argv
  refine ⟨rs, s, parts, hrun, hviews, ?_, ?_, hparts⟩
  · rw [hargv, hs.argc, List.getElem?_cons_succ, List.getElem?_append_right (by rw [List.length_map]), List.length_map,
      Nat.sub_self]
    rfl
  · rw [hargv, hs.argc, List.take_succ_cons, ← List.length_map (f := some), List.take_left]
    rfl

/-- `-f` with the value `v`, and then an argument. -/
def flagString : ℕ → List (BitVec 8)
  | 1 => [0x2d#8, 0x66#8, 0x76#8]
  | _ => [0x78#8]

theorem args_parse_flag : ∃ rs s parts, runArgs flagString (argstart 3 [some 0, some 1, some 2, none]) [.next, .value, .next] =
    some (rs, s) ∧ rs.map (ArgResult.view flagString) = [.flag 0x66#8, .value (some [0x76#8]), .ended] ∧
      s.argv[s.argc]? = some none ∧ s.argv.take s.argc = [some 0, some 2] ∧
      Account flagString [1, 2] ((Parse.start [1, 2]).run flagString [.next, .value, .next]).1
        ((Parse.start [1, 2]).run flagString [.next, .value, .next]).2 parts := by
  refine args_parse flagString (fun i => ?_) 0 [1, 2] [.next, .value, .next]
  unfold flagString
  split <;> decide

/-- A second `argvalue` returns the value of the flag again, though nothing is left of the flag argument, and the
next argument stays. After the flags have ended there is no value, though there are arguments. -/
theorem argvalue_again :
    (∃ v s, runArgs flagString (argstart 3 [some 0, some 1, some 2, none]) [.next, .value, .value] =
        some ([.flag 0x66#8, .value (some v), .value (some v)], s) ∧
      s.curarg.map (StrPtr.text flagString) = some [] ∧ s.argv.take s.argc = [some 0, some 2] ∧
      v.text flagString ≠ flagString 2) ∧
    ∃ s, runArgs flagString (argstart 2 [some 0, some 2, none]) [.next, .nextValue] = some ([.ended, .value none], s) ∧
      s.argv.take s.argc = [some 0, some 2] := by
  refine ⟨⟨⟨.arg 1, 2⟩, _, rfl, rfl, rfl, ?_⟩, _, rfl, rfl⟩
  decide

end Sisop
