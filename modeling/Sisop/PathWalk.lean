import Sisop.FileArray
import Sisop.Bytes

/-! What a path of the file system stands for: the names in it, directories as maps from names
to files, and the file that is found from the root on. And `walk_path` with the memory that
it writes to. -/
namespace Sisop

/-- The name of a file, or one between slashes. -/
abbrev Name : Type := List (BitVec 8)

/-- The names in a path, which are its longest nonempty runs of characters other than slashes. -/
def components (path : List (BitVec 8)) : List Name :=
  (path.splitOnP (· = slash)).filter (· ≠ [])

section Directories

variable (m : ByteMem)

/-- Where the number of a block of a file is, if there is a place for it. The indirect block
is read as `file_block_walk` reads it. -/
def slotAt (f : Word) (i : ℕ) : Option Word :=
  if i < ndirect then some (fDirectAddr f i)
  else if i < ndirect + nindirect ∧ fIndirect m f ≠ 0#32 ∧ (fIndirect m f).toNat < nblocksIn m then
    some (blockAddr (fIndirect m f).toNat + BitVec.ofNat 32 (i - ndirect))
  else none

/-- A block of a file that is there. -/
def blockAt (f : Word) (i : ℕ) : Option Word := do
  let slot ← slotAt m f i
  if loadWord m slot ≠ 0#32 ∧ (loadWord m slot).toNat < nblocksIn m then
    some (blockAddr (loadWord m slot).toNat)
  else none

/-- The name of a file, which ends at a NUL. -/
def nameAt (f : Word) : Name := (readBytes m f maxnamelen).takeWhile (· ≠ 0#8)

/-- The number of blocks of a directory. -/
def dirLength (dir : Word) : ℕ := ((fSize m dir).sdiv 4096#32).toNat

/-- The files in some of the blocks of a directory. -/
def filesFrom (dir : Word) (i n : ℕ) : List Word :=
  (List.range' i n).flatMap fun i => (blockAt m dir i).elim [] fun blk =>
    (List.range blkfiles).map (entryAddr blk)

/-- The file that a directory has under a name. -/
def lookupIn (dir : Word) (name : Name) : Option Word :=
  (filesFrom m dir 0 (dirLength m dir)).find? fun f => nameAt m f = name

/-- A directory all of whose blocks are there. -/
structure DirOk (dir : Word) : Prop where
  size : (fSize m dir).srem 4096#32 = 0#32
  blocks : ∀ i < dirLength m dir, (blockAt m dir i).isSome

/-- The names lead from the root to a file, which was found in a directory. -/
inductive Reaches : List Name → Option Word → Word → Prop where
  | root : Reaches [] none rootAddr
  | step {ns : List Name} {name : Name} {dir : Option Word} {d f : Word} (h : Reaches ns dir d)
      (hlen : name.length < maxnamelen) (hdir : fType m d = ftypeDir) (hname : lookupIn m d name = some f) :
      Reaches (ns ++ [name]) (some d) f

/-- All directories that names lead to have their blocks. -/
def DirTree : Prop := ∀ ns dir f, Reaches m ns dir f → fType m f = ftypeDir → DirOk m f

end Directories

section Walking

/-- What is in memory that `walk_path` writes: its name buffer and what is behind it, `*pdir`
and `*pf`, where `none` is a null pointer, and the string that it copied to `lastelem`. -/
structure WalkVars where
  name : Bytes
  pdir : Option Word
  pf : Option Word
  lastelem : Option Name

/-- The string in a name buffer. -/
def bufString (buf : Bytes) : Name := ((List.range maxnamelen).map buf).takeWhile (· ≠ 0#8)

variable (getBlock : GetBlock)

/-- The loop of `walk_path`, from a file on. -/
def walkLoop (path : List (BitVec 8)) (dir : Option Word) (f : Word) (v : WalkVars) :
    Routine Fs (Except FsErr Unit × WalkVars) :=
  if _h : path = [] then
    return (.ok (), { v with pdir := dir, pf := some f })
  else do
    let elem := path.takeWhile (· ≠ slash)
    let rest := skipSlash (path.dropWhile (· ≠ slash))
    if maxnamelen ≤ elem.length then
      return (.error .badPath, v)
    else do
      let v := { v with name := putBytes (putBytes v.name 0 elem) elem.length [0#8] }
      let s ← Routine.get
      if fType s.mem f ≠ ftypeDir then
        return (.error .notFound, v)
      else do
        let r ← dirLookup getBlock f (bufString v.name)
        match r with
        | .ok f' => walkLoop rest (some f) f' v
        | .error e =>
          return if e = .notFound ∧ rest = [] then
            (.error e, { v with pdir := some f, pf := none, lastelem := some (bufString v.name) })
          else (.error e, v)
termination_by path.length
decreasing_by exact skipSlash_shorter path _h

/-- `walk_path` with its name buffer, all three of its output parameters given. -/
def walkPathVars (path : List (BitVec 8)) (name : Bytes) : Routine Fs (Except FsErr Unit × WalkVars) :=
  walkLoop getBlock (skipSlash path) none rootAddr ⟨putBytes name 0 [0#8], none, none, none⟩

end Walking

end Sisop
