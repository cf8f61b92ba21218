import Mathlib.Data.List.TakeWhile
import Sisop.CStrings
import Sisop.Mmu

/-! `vprintfmt` of `lib/printfmt.c`. What it hands to `putch` is a list of characters. -/
namespace Sisop

def maxerror : ℕ := 16

/-- `error_string`. -/
def errorString : List (Option (List (BitVec 8))) :=
  [none, some (cstring "unspecified error"), some (cstring "bad environment"), some (cstring "invalid parameter"),
    some (cstring "out of memory"), some (cstring "out of environments"), some (cstring "segmentation fault"),
    some (cstring "env is not recving"), some (cstring "unexpected end of file"), some (cstring "no free space on disk"),
    some (cstring "too many files are open"), some (cstring "file or block not found"), some (cstring "invalid path"),
    some (cstring "file already exists"), some (cstring "file is not a valid executable"),
    some (cstring "operation not supported")]

/-- `"0123456789abcdef"[i]`. -/
def hexDigit (i : ℕ) : BitVec 8 := BitVec.ofNat 8 (if i < 10 then 0x30 + i else 0x57 + i)

/-- `printnum`. -/
def printnum (base : ℕ) (hbase : 1 < base) (num : ℕ) (width : Word) (padc : BitVec 8) : List (BitVec 8) :=
  if base ≤ num then printnum base hbase (num / base) (width - 1#32) padc ++ [hexDigit (num % base)]
  else List.replicate (width - 1#32).toInt.toNat padc ++ [hexDigit (num % base)]
termination_by num
decreasing_by exact Nat.div_lt_self (by omega) hbase

/-- The locals that an escape sets. -/
structure Escape where
  padc : BitVec 8
  width : Word
  precision : Word
  lflag : Word
  altflag : Bool

def Escape.start : Escape := ⟨chr ' ', -1#32, -1#32, 0#32, false⟩

/-- `getuint`, with the number of words that it takes. -/
def getuint (va : ℕ → Word) (lflag : Word) : BitVec 64 × ℕ :=
  if 2 ≤ lflag.toInt then (va 1 ++ va 0, 2) else ((va 0).setWidth 64, 1)

/-- `getint`, with the number of words that it takes. -/
def getint (va : ℕ → Word) (lflag : Word) : BitVec 64 × ℕ :=
  if 2 ≤ lflag.toInt then (va 1 ++ va 0, 2) else ((va 0).signExtend 64, 1)

/-- `strnlen`. It fails where it reads behind the characters that there are. -/
def strnlen : List (BitVec 8) → ℕ → Option ℕ
  | _, 0 => some 0
  | [], _ + 1 => none
  | c :: p, size + 1 => if c = 0#8 then some 0 else (strnlen p size).map (· + 1)

/-- The loop of `%s`, with the width that is left. -/
def printString (altflag : Bool) : List (BitVec 8) → Word → Word → Option (List (BitVec 8) × Word)
  | [], _, _ => none
  | ch :: p, precision, width =>
    let next := if precision.toInt < 0 then precision else precision - 1#32
    if ch ≠ 0#8 ∧ (precision.toInt < 0 ∨ 0 ≤ next.toInt) then do
      let (out, width) ← printString altflag p next (width - 1#32)
      some ((if altflag ∧ (ch < chr ' ' ∨ chr '~' < ch) then chr '?' else ch) :: out, width)
    else some ([], width)

/-- `%s`, for the characters that can be read from `p` on. -/
def convertString (e : Escape) (p : List (BitVec 8)) : Option (List (BitVec 8)) := do
  let (pad, width) ← if 0 < e.width.toInt ∧ e.padc ≠ chr '-' then do
      let n ← strnlen p e.precision.toNat
      let width := e.width - BitVec.ofNat 32 n
      some (List.replicate width.toInt.toNat e.padc, if 0 < width.toInt then 0#32 else width)
    else some ([], e.width)
  let (out, width) ← printString e.altflag p e.precision width
  some (pad ++ out ++ List.replicate width.toInt.toNat (chr ' '))

/-- `%e`, where `printfmt` is given a format, the words of its arguments and the characters behind its pointers. -/
def convertError (printfmt : List (BitVec 8) → (ℕ → Word) → (Word → List (BitVec 8)) → Option (List (BitVec 8))) (err : Word) :
    Option (List (BitVec 8)) :=
  let err := if err.toInt < 0 then -err else err
  if (maxerror : ℤ) ≤ err.toInt then printfmt (cstring "error %d") (fun _ => err) (fun _ => [])
  else if err.toInt < 0 then none
  else match errorString[err.toNat]? with
    | none => none
    | some none => printfmt (cstring "error %d") (fun _ => err) (fun _ => [])
    | some (some p) => printfmt (cstring "%s") (fun _ => 1#32) (fun _ => p)

/-- The characters of the conversions. -/
def conversions : List (BitVec 8) :=
  [chr 'c', chr 'e', chr 's', chr 'd', chr 'u', chr 'o', chr 'p', chr 'x', chr '%']

/-- What a conversion hands to `putch`, and how many words it takes. -/
def convert (printfmt : List (BitVec 8) → (ℕ → Word) → (Word → List (BitVec 8)) → Option (List (BitVec 8)))
    (mem : Word → List (BitVec 8)) (va : ℕ → Word) (e : Escape) (ch : BitVec 8) : Option (List (BitVec 8) × ℕ) :=
  if ch = chr 'c' then some ([(va 0).setWidth 8], 1)
  else if ch = chr 'e' then do
    let out ← convertError printfmt (va 0)
    some (out, 1)
  else if ch = chr 's' then do
    let out ← convertString e (if va 0 = 0#32 then cstring "(null)" else mem (va 0))
    some (out, 1)
  else if ch = chr 'd' then
    let (num, n) := getint va e.lflag
    let number := printnum 10 (by decide) (if num.toInt < 0 then -num else num).toNat e.width e.padc
    some (if num.toInt < 0 then chr '-' :: number else number, n)
  else if ch = chr 'u' then
    let (num, n) := getuint va e.lflag
    some (printnum 10 (by decide) num.toNat e.width e.padc, n)
  else if ch = chr 'o' then
    let (num, n) := getuint va e.lflag
    some (printnum 8 (by decide) num.toNat e.width e.padc, n)
  else if ch = chr 'p' then
    some (chr '0' :: chr 'x' :: printnum 16 (by decide) (va 0).toNat e.width e.padc, 1)
  else if ch = chr 'x' then
    let (num, n) := getuint va e.lflag
    some (printnum 16 (by decide) num.toNat e.width e.padc, n)
  else some ([ch], 0)

/-- The pointer into the format: the characters behind it, the last one first, and the characters from it on. -/
structure FmtPtr where
  passed : List (BitVec 8)
  rest : List (BitVec 8)

/-- `*(unsigned char *) fmt++`. -/
def FmtPtr.next (fmt : FmtPtr) : Option (BitVec 8 × FmtPtr) :=
  match fmt.rest with
  | [] => none
  | ch :: rest => some (ch, ⟨ch :: fmt.passed, rest⟩)

/-- `while (fmt[-1] != '%') fmt--;` -/
def rewindLoop : List (BitVec 8) → List (BitVec 8) → Option FmtPtr
  | [], _ => none
  | ch :: passed, rest => if ch ≠ chr '%' then rewindLoop passed (ch :: rest) else some ⟨ch :: passed, rest⟩

/-- `for (fmt--; fmt[-1] != '%'; fmt--);` -/
def FmtPtr.rewind (fmt : FmtPtr) : Option FmtPtr :=
  match fmt.passed with
  | [] => none
  | ch :: passed => rewindLoop passed (ch :: fmt.rest)

def isDigit (ch : BitVec 8) : Bool := decide (chr '0' ≤ ch ∧ ch ≤ chr '9')

/-- The loop of the width field, which has read `ch`. -/
def scanDigits (precision : Word) (ch : BitVec 8) (passed : List (BitVec 8)) : List (BitVec 8) → Option (Word × FmtPtr)
  | [] => none
  | next :: rest =>
    let precision := precision * 10#32 + ch.setWidth 32 - 0x30#32
    if isDigit next then scanDigits precision next (next :: passed) rest else some (precision, ⟨passed, next :: rest⟩)

/-- `process_precision`. -/
def Escape.processPrecision (e : Escape) : Escape :=
  if e.width.toInt < 0 then { e with width := e.precision, precision := -1#32 } else e

/-- The characters that only set a local. -/
def plainFlags : List (BitVec 8) := [chr '-', chr '0', chr '.', chr '#', chr 'l']

def Escape.flag (e : Escape) (ch : BitVec 8) : Escape :=
  if ch = chr '-' then { e with padc := chr '-' }
  else if ch = chr '0' then { e with padc := chr '0' }
  else if ch = chr '.' then if e.width.toInt < 0 then { e with width := 0#32 } else e
  else if ch = chr '#' then { e with altflag := true }
  else { e with lflag := e.lflag + 1#32 }

/-- `vprintfmt` between two characters of the format: how many words of the argument list it has taken, the locals of the
escape that it reads, and what it has handed to `putch`. -/
structure Vprintfmt where
  fmt : FmtPtr
  ap : ℕ
  escape : Option Escape
  out : List (BitVec 8)

def Vprintfmt.start (fmt : List (BitVec 8)) : Vprintfmt := ⟨⟨[], fmt⟩, 0, none, []⟩

/-- `switch (ch = *(unsigned char *) fmt++)`. -/
def switchStep (printfmt : List (BitVec 8) → (ℕ → Word) → (Word → List (BitVec 8)) → Option (List (BitVec 8)))
    (mem : Word → List (BitVec 8)) (va : ℕ → Word) (s : Vprintfmt) (e : Escape) (ch : BitVec 8) (fmt : FmtPtr) :
    Option Vprintfmt :=
  if ch ∈ plainFlags then some { s with fmt := fmt, escape := some (e.flag ch) }
  else if isDigit ch then do
    let (precision, fmt) ← scanDigits 0#32 ch fmt.passed fmt.rest
    some { s with fmt := fmt, escape := some { e with precision := precision }.processPrecision }
  else if ch = chr '*' then
    some { s with fmt := fmt, ap := s.ap + 1, escape := some { e with precision := va s.ap }.processPrecision }
  else if ch ∈ conversions then do
    let (out, n) ← convert printfmt mem (fun i => va (s.ap + i)) e ch
    some { s with fmt := fmt, ap := s.ap + n, escape := none, out := s.out ++ out }
  else do
    -- An unrecognised escape: the scan goes on behind its `%`.
    let fmt ← fmt.rewind
    some { s with fmt := fmt, escape := none, out := s.out ++ [chr '%'] }

/-- `vprintfmt`, for at most `n` characters of the format, with the characters that can be read from each pointer on and the
words of the argument list. It fails where it reads outside of the format or of a string. -/
def vprintfmt : ℕ → (Word → List (BitVec 8)) → (ℕ → Word) → Vprintfmt → Option (List (BitVec 8))
  | 0, _, _, _ => none
  | n + 1, mem, va, s => do
    let (ch, fmt) ← s.fmt.next
    match s.escape with
    | none =>
      if ch = chr '%' then vprintfmt n mem va { s with fmt := fmt, escape := some Escape.start }
      else if ch = 0#8 then some s.out
      else vprintfmt n mem va { s with fmt := fmt, out := s.out ++ [ch] }
    | some e => do
      let s ← switchStep (fun f args strings => vprintfmt n strings args (Vprintfmt.start f)) mem va s e ch fmt
      vprintfmt n mem va s

/-- `cprintf("%.*s", len, s)` of the kernel, for a pointer and the characters that can be read from it on. It fails where it
reads behind them. -/
def cprintfChars (s : Word) (chars : List (BitVec 8)) (len : Word) : Option (List (BitVec 8)) :=
  vprintfmt 5 (fun _ => chars) (fun i => if i = 0 then len else s) (Vprintfmt.start (cstring "%.*s"))

end Sisop
