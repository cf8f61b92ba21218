import Sisop.StabSearch
import Sisop.UserMem

/-! `debuginfo_eip` of `kern/kdebug.c`, with the ranges that it has checked and the memory that it reads. -/
namespace Sisop

/-- `USTABDATA`. -/
abbrev ustabdata : Word := 0x200000#32

/-- `N_FUN`, `N_SLINE`, `N_SO`, `N_SOL` and `N_PSYM`. -/
abbrev nFun : ℤ := 0x24
abbrev nSline : ℤ := 0x44
abbrev nSo : ℤ := 0x64
abbrev nSol : ℤ := 0x84
abbrev nPsym : ℤ := 0xa0

/-- `struct UserStabData`. -/
structure UserStabData where
  stabs : Word
  stabEnd : Word
  stabstr : Word
  stabstrEnd : Word

/-- `struct Eipdebuginfo`. A name is an address in the string table, or `<unknown>`. -/
structure Eipdebuginfo where
  eipFile : Option Word
  eipLine : ℕ
  eipFnName : Option Word
  eipFnNamelen : ℕ
  eipFnAddr : Word
  eipFnNarg : ℕ

/-- A range that `user_mem_check` has let through, or memory that is read. -/
inductive Access where
  | checked (va len : Word)
  | read (va : Word) (n : ℕ)

/-- What `debuginfo_eip` returns and leaves in `*info`, and what it has done on the way. -/
structure DebugRun where
  ret : ℤ
  info : Eipdebuginfo
  log : List Access

section Tables

def userStabData (m : ByteMem) : UserStabData where
  stabs := loadWord m ustabdata
  stabEnd := loadWord m (ustabdata + 4#32)
  stabstr := loadWord m (ustabdata + 8#32)
  stabstrEnd := loadWord m (ustabdata + 12#32)

/-- `stab_end - stabs`, for addresses that are a multiple of 12 bytes apart. -/
def UserStabData.count (usd : UserStabData) : ℤ := (usd.stabEnd - usd.stabs).toInt.tdiv 12

/-- `stabstr_end - stabstr`. -/
def UserStabData.size (usd : UserStabData) : Word := usd.stabstrEnd - usd.stabstr

def stabAddr (base : Word) (i : ℤ) : Word := base + BitVec.ofInt 32 (12 * i)

/-- `stabs[i]`. -/
def stabAt (m : ByteMem) (base : Word) (i : ℤ) : Stab where
  nStrx := loadWord m (stabAddr base i)
  nType := m (stabAddr base i + 4#32)
  nOther := m (stabAddr base i + 5#32)
  nDesc := m (stabAddr base i + 7#32) ++ m (stabAddr base i + 6#32)
  nValue := loadWord m (stabAddr base i + 8#32)

/-- A stab is read as a whole. -/
def stabReads (base : Word) (is : List ℤ) : List Access := is.map fun i => .read (stabAddr base i) 12

/-- `user_mem_check(curenv, va, len, 0)` returns 0. -/
def userMemOk (k : Pm) (g : ℕ) (va len : Word) : Bool :=
  match userMemCheck g va len 0#32 k with
  | .ret (.ok ()) _ => true
  | _ => false

/-- How far `strfind(s, c)` goes, in a string that ends in the next `n` bytes. -/
def strfindFrom (m : ByteMem) (c : BitVec 8) : ℕ → Word → ℕ
  | 0, _ => 0
  | n+1, s => if m s = 0#8 ∨ m s = c then 0 else strfindFrom m c n (s + 1#32) + 1

end Tables

section Reads

/-- The stabs that `while (m >= l && !p(m)) m--;` looks at. -/
def scanBackReads (p : ℤ → Prop) [DecidablePred p] (l m : ℤ) : List ℤ :=
  if l ≤ m then m :: if p m then [] else scanBackReads p l (m - 1) else []
termination_by (m - l + 1).toNat
decreasing_by omega

/-- `for (; l < r && p(l); l++);`, and what `l` is then. -/
def scanOn (p : ℤ → Prop) [DecidablePred p] (l r : ℤ) : ℤ :=
  if l < r ∧ p l then scanOn p (l + 1) r else l
termination_by (r - l).toNat
decreasing_by omega

def scanOnReads (p : ℤ → Prop) [DecidablePred p] (l r : ℤ) : List ℤ :=
  if l < r then l :: if p l then scanOnReads p (l + 1) r else [] else []
termination_by (r - l).toNat
decreasing_by omega

variable (tab : ℤ → Stab) (type : ℤ)

/-- The stabs that the loop of `stab_binsearch` looks at. The one whose value is compared is
the last one of its round. -/
def stabLoopReads (s : StabState) : List ℤ :=
  if s.l ≤ s.r then scanBackReads (IsType tab type) s.l (trueMid s.l s.r) ++ stabLoopReads (stabRound tab type s) else []
termination_by stabMeasure tab s
decreasing_by exact stabMeasure_round ‹_›

/-- The stabs that `stab_binsearch` looks at. -/
def stabBinsearchReads (regionLeft regionRight : ℤ) (addr : Word) : List ℤ :=
  let s : StabState := ⟨regionLeft, regionRight, regionLeft, regionRight, addr, false⟩
  let t := stabLoop tab type s
  stabLoopReads tab type s ++ if t.anyMatches then scanBackReads (IsType tab type) (t.regionLeft + 1) t.regionRight else []

end Reads

section Search

variable (tab : ℤ → Stab) (n : ℤ) (addr : Word)

/-- `lfile` and `rfile`, for a table of `n` stabs. -/
def fileRegion : ℤ × ℤ := stabBinsearch tab nSo 0 (n - 1) addr

/-- `lfun` and `rfun`. -/
def funRegion : ℤ × ℤ := stabBinsearch tab nFun (fileRegion tab n addr).1 (fileRegion tab n addr).2 addr

def HasFun : Prop := (funRegion tab n addr).1 ≤ (funRegion tab n addr).2

instance : Decidable (HasFun tab n addr) := inferInstanceAs (Decidable (_ ≤ _))

/-- Where the line is searched for, and with which address. -/
def lineStart : (ℤ × ℤ) × Word :=
  if HasFun tab n addr then (funRegion tab n addr, addr - (tab (funRegion tab n addr).1).nValue)
  else (fileRegion tab n addr, addr)

/-- `lline` and `rline`. -/
def lineRegion : ℤ × ℤ :=
  stabBinsearch tab nSline (lineStart tab n addr).1.1 (lineStart tab n addr).1.2 (lineStart tab n addr).2

def HasLine : Prop := (lineRegion tab n addr).1 ≤ (lineRegion tab n addr).2

instance : Decidable (HasLine tab n addr) := inferInstanceAs (Decidable (_ ≤ _))

/-- A stab that has the name of a file. -/
def IsFile (i : ℤ) : Prop := IsType tab nSol i ∨ IsType tab nSo i ∧ (tab i).nValue ≠ 0#32

instance (i : ℤ) : Decidable (IsFile tab i) := inferInstanceAs (Decidable (_ ∨ _))

/-- `lline` behind the search for the name of the file. -/
def fileStab : ℤ := scanBack (IsFile tab) (fileRegion tab n addr).1 (lineRegion tab n addr).1

/-- `lline` behind the search for the arguments. -/
def argsEnd : ℤ := scanOn (IsType tab nPsym) ((funRegion tab n addr).1 + 1) (funRegion tab n addr).2

/-- `stabstr + stabs[i].n_strx`, if that is in the string table. -/
def nameOf (usd : UserStabData) (i : ℤ) : Option Word :=
  if (tab i).nStrx < usd.size then some (usd.stabstr + (tab i).nStrx) else none

/-- The rest of `debuginfo_eip`, when the tables are known. -/
def searchInfo (m : ByteMem) (usd : UserStabData) (info : Eipdebuginfo) : DebugRun :=
  let fileReads := stabBinsearchReads tab nSo 0 (n - 1) addr
  if (fileRegion tab n addr).1 = 0 then ⟨-1, info, stabReads usd.stabs fileReads⟩
  else
    let funReads := stabBinsearchReads tab nFun (fileRegion tab n addr).1 (fileRegion tab n addr).2 addr ++
      if HasFun tab n addr then [(funRegion tab n addr).1] else []
    let fnName := if HasFun tab n addr then nameOf tab usd (funRegion tab n addr).1 else none
    let nameReads := fnName.elim [] fun s => [.read s (strfindFrom m 0x3a#8 (usd.stabstrEnd - s).toNat s + 1)]
    let lineReads := stabBinsearchReads tab nSline (lineStart tab n addr).1.1 (lineStart tab n addr).1.2 (lineStart tab n addr).2 ++
      if HasLine tab n addr then [(lineRegion tab n addr).1] else []
    let backReads := scanBackReads (IsFile tab) (fileRegion tab n addr).1 (lineRegion tab n addr).1 ++
      if (fileRegion tab n addr).1 ≤ fileStab tab n addr then [fileStab tab n addr] else []
    let argReads := scanOnReads (IsType tab nPsym) ((funRegion tab n addr).1 + 1) (funRegion tab n addr).2
    { ret := 0
      info :=
        { eipFile := if (fileRegion tab n addr).1 ≤ fileStab tab n addr then nameOf tab usd (fileStab tab n addr) else none
          eipLine := if HasLine tab n addr then (tab (lineRegion tab n addr).1).nDesc.toNat else 0
          eipFnName := fnName
          eipFnNamelen := fnName.elim 9 fun s => strfindFrom m 0x3a#8 (usd.stabstrEnd - s).toNat s
          eipFnAddr := if HasFun tab n addr then (tab (funRegion tab n addr).1).nValue else addr
          eipFnNarg := if (funRegion tab n addr).1 < (funRegion tab n addr).2 then
            (argsEnd tab n addr - ((funRegion tab n addr).1 + 1)).toNat else 0 }
      log := stabReads usd.stabs (fileReads ++ funReads) ++ nameReads ++ stabReads usd.stabs (lineReads ++ backReads ++ argReads) }

end Search

/-- The validity checks for the string table, and the search. -/
def stringChecks (m : ByteMem) (usd : UserStabData) (addr : Word) (info : Eipdebuginfo) (log : List Access) : DebugRun :=
  if usd.stabstrEnd ≤ usd.stabstr then ⟨-1, info, log⟩
  else
    let log := log ++ [.read (usd.stabstrEnd - 1#32) 1]
    if m (usd.stabstrEnd - 1#32) ≠ 0#8 then ⟨-1, info, log⟩
    else
      let run := searchInfo (stabAt m usd.stabs) usd.count addr m usd info
      { run with log := log ++ run.log }

/-- `debuginfo_eip`. The tables of the kernel are where the linker has put them. -/
def debuginfoEip (k : Pm) (g : ℕ) (kern : UserStabData) (m : ByteMem) (addr : Word) : DebugRun :=
  let info : Eipdebuginfo := ⟨none, 0, none, 9, addr, 0⟩
  if ulim ≤ addr then stringChecks m kern addr info []
  else if userMemOk k g ustabdata 16#32 = false then ⟨-1, info, []⟩
  else
    let usd := userStabData m
    let log := [.checked ustabdata 16#32, .read ustabdata 16]
    if userMemOk k g usd.stabs (BitVec.ofInt 32 usd.count) = false then ⟨-1, info, log⟩
    else
      let log := log ++ [.checked usd.stabs (BitVec.ofInt 32 usd.count)]
      if userMemOk k g usd.stabstr usd.size = false then ⟨-1, info, log⟩
      else stringChecks m usd addr info (log ++ [.checked usd.stabstr usd.size])

end Sisop
