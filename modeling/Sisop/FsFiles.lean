import Sisop.FsBlocks

/-! The files and directories of `fs/fs.c`. A `struct File` is where it is in memory: in a
block of its directory, or in the super block. -/
namespace Sisop

/-- `sizeof(struct File)`. -/
abbrev fileBytes : ℕ := 256

abbrev maxnamelen : ℕ := 128
abbrev maxpathlen : ℕ := 1024
abbrev ndirect : ℕ := 10

/-- `NINDIRECT`, the block numbers that an indirect block has room for. -/
abbrev nindirect : ℕ := blksize / 4

/-- `BLKFILES`, the files in a block of a directory. -/
abbrev blkfiles : ℕ := blksize / fileBytes

abbrev ftypeDir : Word := 1#32

section Fields

def fSizeAddr (f : Word) : Word := f + 128#32

def fTypeAddr (f : Word) : Word := f + 132#32

def fDirectAddr (f : Word) (i : ℕ) : Word := f + BitVec.ofNat 32 (136 + 4 * i)

def fIndirectAddr (f : Word) : Word := f + 176#32

def fSize (m : ByteMem) (f : Word) : Word := loadWord m (fSizeAddr f)

def fType (m : ByteMem) (f : Word) : Word := loadWord m (fTypeAddr f)

def fIndirect (m : ByteMem) (f : Word) : Word := loadWord m (fIndirectAddr f)

/-- `&super->s_root`. -/
def rootAddr : Word := blockAddr 1 + 8#32

/-- File `j` of a block of a directory. -/
def entryAddr (blk : Word) (j : ℕ) : Word := blk + BitVec.ofNat 32 (fileBytes * j)

end Fields

/-- The negative number that a call returns for an error has this absolute value. -/
def FsErr.code : FsErr → ℕ
  | .inval => 3
  | .noDisk => 9
  | .maxOpen => 10
  | .notFound => 11
  | .badPath => 12
  | .fileExists => 13

namespace Fs

/-- Stores of bytes in order, as `memmove` and `strcpy` make them. -/
def storeBytes (va : Word) (bs : List (BitVec 8)) (s : Fs) : Fs :=
  { s with
    mem := writeBytes s.mem va bs
    dirty := fun b => s.dirty b || (List.range bs.length).any fun i => blockOf (va + BitVec.ofNat 32 i) = b }

/-- A new page for a block, which `memset` fills with zeros. -/
def zeroBlock (b : ℕ) (s : Fs) : Fs :=
  { s with
    mem := fun a => if blockOf a = b then 0#8 else s.mem a
    dirty := Function.update s.dirty b true }

end Fs

section Calls

variable {σ α β : Type}

/-- Goes on with what a call has returned, or returns its error. -/
def orReturn (r : Except FsErr α) (k : α → Routine σ (Except FsErr β)) : Routine σ (Except FsErr β) :=
  match r with
  | .ok a => k a
  | .error e => pure (.error e)

/-- What a call that returns a block number returns as a number. -/
def retWordOf : Except FsErr ℕ → Word
  | .ok blockno => BitVec.ofNat 32 blockno
  | .error e => - BitVec.ofNat 32 e.code

/-- `diskaddr`. -/
def diskaddr (blockno : Word) : Routine Fs Word := do
  let s ← Routine.get
  Routine.panicUnless (blockno ≠ 0#32 ∧ blockno.toNat < nblocksIn s.mem)
  return blockAddr blockno.toNat

/-- `fs_sync`. -/
def fsSync : Routine Fs Unit := do
  let s ← Routine.get
  Routine.loop (nblocksIn s.mem - 1) fun i => do
    let va ← diskaddr (BitVec.ofNat 32 (i + 1))
    flushBlock va

end Calls

section Blocks

/-- The slot of a block past the direct ones. The number of the slot is added to the
address that `diskaddr` returns, which counts bytes. -/
def indirectSlot (f : Word) (filebno : ℕ) : Routine Fs (Except FsErr Word) := do
  let s ← Routine.get
  let va ← diskaddr (fIndirect s.mem f)
  return .ok (va + BitVec.ofNat 32 (filebno - ndirect))

/-- The indirect block of a file that has none, all of it zero. -/
def newIndirect (f : Word) : Routine Fs (Except FsErr Unit) := do
  let r ← allocBlock
  orReturn r fun blockno => do
    Routine.modify (Fs.storeUint (fIndirectAddr f) (BitVec.ofNat 32 blockno))
    let va ← diskaddr (BitVec.ofNat 32 blockno)
    Routine.modify (Fs.zeroBlock (blockOf va))
    flushBlock va
    return .ok ()

/-- `file_block_walk`. -/
def fileBlockWalk (f : Word) (filebno : ℕ) (alloc : Bool) : Routine Fs (Except FsErr Word) := do
  let s ← Routine.get
  if ndirect + nindirect ≤ filebno then
    return .error .inval
  else if filebno < ndirect then
    return .ok (fDirectAddr f filebno)
  else if fIndirect s.mem f ≠ 0#32 then
    indirectSlot f filebno
  else if ¬ alloc then
    return .error .notFound
  else do
    let r ← newIndirect f
    orReturn r fun _ => indirectSlot f filebno

/-- The address of the block whose number is in a slot. -/
def slotBlock (slot : Word) : Routine Fs (Except FsErr Word) := do
  let s ← Routine.get
  let va ← diskaddr (loadWord s.mem slot)
  return .ok va

/-- The block of a slot, which is a new one if there was none. A number that `alloc_block`
returns for an error is stored as well: as an unsigned one it is not negative. -/
def getSlot (slot : Word) : Routine Fs (Except FsErr Word) := do
  let s ← Routine.get
  if loadWord s.mem slot ≠ 0#32 then
    slotBlock slot
  else do
    let b ← allocBlock
    Routine.modify (Fs.storeUint slot (retWordOf b))
    slotBlock slot

/-- `file_get_block`. -/
def fileGetBlock (f : Word) (filebno : ℕ) : Routine Fs (Except FsErr Word) := do
  let r ← fileBlockWalk f filebno true
  orReturn r getSlot

/-- `file_free_block`. -/
def fileFreeBlock (f : Word) (filebno : ℕ) : Routine Fs (Except FsErr Unit) := do
  let r ← fileBlockWalk f filebno false
  orReturn r fun slot => do
    let s ← Routine.get
    if loadWord s.mem slot ≠ 0#32 then do
      freeBlock (loadWord s.mem slot).toNat
      Routine.modify (Fs.storeUint slot 0#32)
      return .ok ()
    else
      return .ok ()

/-- The number of blocks of a file of this size, as an `uint32_t`. -/
def nblocksOf (size : Word) : ℕ := ((size + 4095#32).sdiv 4096#32).toNat

/-- `file_truncate_blocks`, without its warnings. -/
def fileTruncateBlocks (f newsize : Word) : Routine Fs Unit := do
  let s ← Routine.get
  Routine.loop (nblocksOf (fSize s.mem f) - nblocksOf newsize) fun i => do
    let _ ← fileFreeBlock f (nblocksOf newsize + i)
    pure ()
  let s ← Routine.get
  if nblocksOf newsize ≤ ndirect ∧ fIndirect s.mem f ≠ 0#32 then do
    freeBlock (fIndirect s.mem f).toNat
    Routine.modify (Fs.storeUint (fIndirectAddr f) 0#32)
  else
    pure ()

/-- `file_set_size`. -/
def fileSetSize (f newsize : Word) : Routine Fs (Except FsErr Unit) := do
  let s ← Routine.get
  if newsize.toInt < (fSize s.mem f).toInt then
    fileTruncateBlocks f newsize
  else
    pure ()
  Routine.modify (Fs.storeUint (fSizeAddr f) newsize)
  flushBlock f
  return .ok ()

/-- One round of the loop of `file_flush`. -/
def flushFileBlock (f : Word) (i : ℕ) : Routine Fs Unit := do
  let r ← fileBlockWalk f i false
  match r with
  | .error _ => pure ()
  | .ok slot => do
    let s ← Routine.get
    if loadWord s.mem slot = 0#32 then
      pure ()
    else do
      let va ← diskaddr (loadWord s.mem slot)
      flushBlock va

/-- `file_flush`. -/
def fileFlush (f : Word) : Routine Fs Unit := do
  let s ← Routine.get
  Routine.loop ((fSize s.mem f + 4095#32).sdiv 4096#32).toInt.toNat (flushFileBlock f)
  flushBlock f
  if fIndirect s.mem f ≠ 0#32 then do
    let va ← diskaddr (fIndirect s.mem f)
    flushBlock va
  else
    pure ()

end Blocks

/-- A routine for `file_get_block`: that one itself, or one that checks what it does. -/
abbrev GetBlock : Type := Word → ℕ → Routine Fs (Except FsErr Word)

section Directories

variable (getBlock : GetBlock)

/-- `strcmp` finds a string at an address the same as another one. -/
def nameIs (m : ByteMem) (va : Word) : List (BitVec 8) → Bool
  | [] => m va = 0#8
  | c :: cs => m va = c && nameIs m (va + 1#32) cs

/-- The first of `n` blocks of a directory, from block `i` on, that has a file of some kind. -/
def dirFind (p : ByteMem → Word → Bool) (dir : Word) : ℕ → ℕ → Routine Fs (Except FsErr (Option Word))
  | 0, _ => return .ok none
  | n+1, i => do
    let r ← getBlock dir i
    orReturn r fun blk => do
      let s ← Routine.get
      match (List.range blkfiles).find? fun j => p s.mem (entryAddr blk j) with
      | some j => return .ok (some (entryAddr blk j))
      | none => dirFind p dir n (i + 1)

/-- The number of blocks of a directory; its size has to be a multiple of theirs. -/
def dirBlocks (dir : Word) : Routine Fs ℕ := do
  let s ← Routine.get
  Routine.panicUnless ((fSize s.mem dir).srem 4096#32 = 0#32)
  return ((fSize s.mem dir).sdiv 4096#32).toNat

/-- `dir_lookup`. -/
def dirLookup (dir : Word) (name : List (BitVec 8)) : Routine Fs (Except FsErr Word) := do
  let nblock ← dirBlocks dir
  let r ← dirFind getBlock (fun m f => nameIs m f name) dir nblock 0
  orReturn r fun f => return f.elim (.error .notFound) .ok

/-- `dir_alloc_file`. -/
def dirAllocFile (dir : Word) : Routine Fs (Except FsErr Word) := do
  let nblock ← dirBlocks dir
  let r ← dirFind getBlock (fun m f => m f = 0#8) dir nblock 0
  orReturn r fun
    | some f => return .ok f
    | none => do
      Routine.modify fun s => s.storeUint (fSizeAddr dir) (fSize s.mem dir + 4096#32)
      getBlock dir nblock

end Directories

section Paths

variable (getBlock : GetBlock)

abbrev slash : BitVec 8 := 47#8

/-- `skip_slash`. -/
def skipSlash (path : List (BitVec 8)) : List (BitVec 8) := path.dropWhile (· = slash)

/-- How `walk_path` ends: with a file and the directory that it is in, with the directory
where the last name of the path is missing, or otherwise. -/
inductive Walk where
  | found (dir : Option Word) (f : Word)
  | missing (dir : Word) (lastelem : List (BitVec 8))
  | failed (e : FsErr)

theorem skipSlash_shorter (path : List (BitVec 8)) (h : path ≠ []) :
    (skipSlash (path.dropWhile (· ≠ slash))).length < path.length := by
  cases path with
  | nil => exact absurd rfl h
  | cons c path =>
    have hskip (xs : List (BitVec 8)) : (skipSlash xs).length ≤ xs.length := (List.dropWhile_suffix _).length_le
    by_cases hc : c = slash
    · rw [List.dropWhile_cons_of_neg (by simp [hc]), skipSlash, List.dropWhile_cons_of_pos (by simp [hc])]
      exact Nat.lt_succ_of_le (hskip path)
    · rw [List.dropWhile_cons_of_pos (by simp [hc])]
      exact Nat.lt_succ_of_le (Nat.le_trans (hskip _) (List.dropWhile_suffix _).length_le)

/-- The loop of `walk_path`, from a file on. -/
def walkFrom (path : List (BitVec 8)) (dir : Option Word) (f : Word) : Routine Fs Walk :=
  if _h : path = [] then
    return .found dir f
  else do
    let name := path.takeWhile (· ≠ slash)
    let rest := skipSlash (path.dropWhile (· ≠ slash))
    let s ← Routine.get
    if maxnamelen ≤ name.length then
      return .failed .badPath
    else if fType s.mem f ≠ ftypeDir then
      return .failed .notFound
    else do
      let r ← dirLookup getBlock f name
      match r with
      | .ok f' => walkFrom rest (some f) f'
      | .error e => return if e = .notFound ∧ rest = [] then .missing f name else .failed e
termination_by path.length
decreasing_by exact skipSlash_shorter path _h

/-- `walk_path`. -/
def walkPath (path : List (BitVec 8)) : Routine Fs Walk :=
  walkFrom getBlock (skipSlash path) none rootAddr

/-- `file_create`. -/
def fileCreate (path : List (BitVec 8)) : Routine Fs (Except FsErr Word) := do
  let w ← walkPath getBlock path
  match w with
  | .found _ _ => return .error .fileExists
  | .failed e => return .error e
  | .missing dir name => do
    let r ← dirAllocFile getBlock dir
    orReturn r fun f => do
      Routine.modify (Fs.storeBytes f (name ++ [0#8]))
      fileFlush dir
      return .ok f

/-- `file_open`. -/
def fileOpen (path : List (BitVec 8)) : Routine Fs (Except FsErr Word) := do
  let w ← walkPath getBlock path
  return match w with
    | .found _ f => .ok f
    | .missing _ _ => .error .notFound
    | .failed e => .error e

end Paths

section Data

variable (getBlock : GetBlock)

/-- What one round of the loop of `file_read` or `file_write` is about: `len` bytes of a
block, from `off` on. -/
structure Span where
  filebno : ℕ
  off : Word
  len : ℕ

/-- The bytes from a position to the end of its block, and no more than `n`. -/
def spanLen (pos : Word) (n : ℕ) : ℕ := min (4096#32 - pos.srem 4096#32).toNat n

/-- The rounds for `n` bytes from a position on; there are `n` of them at most. -/
def spansFrom : ℕ → Word → ℕ → List Span
  | 0, _, _ => []
  | fuel+1, pos, n =>
    if n = 0 then []
    else
      ⟨(pos.sdiv 4096#32).toNat, pos.srem 4096#32, spanLen pos n⟩ ::
        spansFrom fuel (pos + BitVec.ofNat 32 (spanLen pos n)) (n - spanLen pos n)

/-- The rounds of `for (pos = offset; pos < offset + count;)`, a comparison of unsigned numbers. -/
def spansOf (offset count : Word) : List Span :=
  if offset < offset + count then spansFrom count.toNat offset count.toNat else []

def readBytes (m : ByteMem) (va : Word) (n : ℕ) : List (BitVec 8) :=
  (List.range n).map fun i => m (va + BitVec.ofNat 32 i)

def readSpans (f : Word) : List Span → List (BitVec 8) → Routine Fs (Except FsErr (List (BitVec 8)))
  | [], buf => return .ok buf
  | sp :: sps, buf => do
    let r ← getBlock f sp.filebno
    orReturn r fun blk => do
      let s ← Routine.get
      readSpans f sps (buf ++ readBytes s.mem (blk + sp.off) sp.len)

/-- `file_read`, with what it stores in the buffer. That is as long as the number it returns, but for a negative offset
from which `offset + count` wraps around: there the call stores nothing, and returns `count` all the same. -/
def fileRead (f : Word) (count offset : Word) : Routine Fs (Except FsErr (List (BitVec 8))) := do
  let s ← Routine.get
  if (fSize s.mem f).toInt ≤ offset.toInt then
    return .ok []
  else
    readSpans getBlock f (spansOf offset (if count ≤ fSize s.mem f - offset then count else fSize s.mem f - offset)) []

def writeSpans (f : Word) : List Span → List (BitVec 8) → Routine Fs (Except FsErr Unit)
  | [], _ => return .ok ()
  | sp :: sps, buf => do
    let r ← getBlock f sp.filebno
    orReturn r fun blk => do
      Routine.modify (Fs.storeBytes (blk + sp.off) (buf.take sp.len))
      writeSpans f sps (buf.drop sp.len)

/-- `file_write` of a whole buffer. -/
def fileWrite (f : Word) (buf : List (BitVec 8)) (offset : Word) : Routine Fs (Except FsErr Word) := do
  let count := BitVec.ofNat 32 buf.length
  let s ← Routine.get
  let r ← if fSize s.mem f < offset + count then fileSetSize f (offset + count) else pure (.ok ())
  orReturn r fun _ => do
    let r ← writeSpans getBlock f (spansOf offset count) buf
    orReturn r fun _ => return .ok count

end Data

end Sisop
