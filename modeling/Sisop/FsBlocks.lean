import Sisop.CacheCoherence

/-! The blocks as the file server sees them through the block cache, and the free block
bitmap of `fs/fs.c`. A page fault changes nothing here: a block that is not in memory is
one that is not dirty. -/
namespace Sisop

/-- The memory of the disk map, the disk, and which blocks are dirty in memory. -/
structure Fs where
  mem : ByteMem
  disk : ByteMem
  dirty : ℕ → Bool

/-- The error codes of the file system. -/
inductive FsErr where
  | noDisk | notFound | inval | badPath | fileExists | maxOpen
  deriving DecidableEq

namespace Fs

/-- A store of a `uint32_t`, at any address. -/
def storeUint (va w : Word) (s : Fs) : Fs :=
  { s with
    mem := storeWord s.mem va w
    dirty := Function.update (Function.update s.dirty (blockOf va) true) (blockOf (va + 3#32)) true }

/-- What a flush of a block does. -/
def flush (b : ℕ) (s : Fs) : Fs :=
  if s.dirty b then
    { s with
      disk := fun a => if blockOf a = b then s.mem a else s.disk a
      dirty := Function.update s.dirty b false }
  else s

end Fs

/-- `flush_block`. -/
def flushBlock (va : Word) : Routine Fs Unit := do
  Routine.panicUnless (InDiskmap (rounddown va))
  Routine.modify (Fs.flush (blockOf va))

/-- `block_is_free`. -/
def blockFree (m : ByteMem) (blockno : ℕ) : Bool := blockno < nblocksIn m && freeBit m blockno

/-- `free_block`. -/
def freeBlock (blockno : ℕ) : Routine Fs Unit := do
  Routine.panicUnless (blockno ≠ 0)
  let s ← Routine.get
  let w := loadWord s.mem (bitmapAddr blockno)
  Routine.modify (Fs.storeUint (bitmapAddr blockno) (w ||| (1#32 <<< (blockno % 32))))

/-- `alloc_block`. Its loop is over the blocks of the disk in order. -/
def allocBlock : Routine Fs (Except FsErr ℕ) := do
  let s ← Routine.get
  match (List.range (nblocksIn s.mem)).find? (blockFree s.mem) with
  | none => return .error .noDisk
  | some blockno =>
    let w := loadWord s.mem (bitmapAddr blockno)
    Routine.modify (Fs.storeUint (bitmapAddr blockno) (w &&& (0#32 <<< (blockno % 32))))
    flushBlock (blockAddr 2)
    return .ok blockno

end Sisop
