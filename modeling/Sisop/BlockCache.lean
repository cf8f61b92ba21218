import Sisop.ByteMem
import Sisop.Routine

/-! The block cache of `fs/bc.c`. Once it is read in, block `n` of the disk is mapped at
`DISKMAP + n*BLKSIZE`; the page fault handler of the server reads it in. -/
namespace Sisop

/-- `BLKSIZE`. -/
abbrev blksize : ℕ := pgsize

/-- `BLKBITSIZE`, the blocks that one bitmap block tells of. -/
abbrev blkbitsize : ℕ := blksize * 8

abbrev diskmap : Word := 0x10000000#32
abbrev disksize : Word := 0xC0000000#32

/-- The address `DISKMAP + blockno*BLKSIZE`. -/
def blockAddr (blockno : ℕ) : Word := diskmap + BitVec.ofNat 32 (blockno * blksize)

/-- The block that an address of the disk map belongs to. -/
def blockOf (va : Word) : ℕ := (va - diskmap).toNat / blksize

def InDiskmap (va : Word) : Prop := diskmap ≤ va ∧ va < diskmap + disksize

instance (va : Word) : Decidable (InDiskmap va) := inferInstanceAs (Decidable (_ ∧ _))

/-- `&super->s_nblocks`, for the super block in block 1. -/
abbrev nblocksAddr : Word := blockAddr 1 + 4#32

/-- `&bitmap[blockno / 32]`, for the bitmap from block 2 on. -/
def bitmapAddr (blockno : ℕ) : Word := blockAddr 2 + BitVec.ofNat 32 (4 * (blockno / 32))

/-- The disk, and the pages of the block cache. Both are at the addresses of the disk map:
byte `i` of block `n` is at `DISKMAP + n*BLKSIZE + i`. `super` and `bitmap` say whether the
pointers of these names have been set. -/
structure Cache where
  disk : ByteMem
  page : ByteMem
  mapped : ℕ → Bool
  dirty : ℕ → Bool
  super : Bool
  bitmap : Bool

/-- Whether `sys_page_alloc` has a page for a block, and the disk transfers it without an error. -/
structure BlockIo where
  alloc : ℕ → Bool
  transfer : ℕ → Bool

namespace Cache

/-- `sys_page_alloc`, for the page of a block. -/
def pageAlloc (b : ℕ) (c : Cache) : Cache :=
  { c with
    page := fun a => if blockOf a = b then 0#8 else c.page a
    mapped := Function.update c.mapped b true
    dirty := Function.update c.dirty b false }

/-- `ide_read` of a block into its page. -/
def ideRead (b : ℕ) (c : Cache) : Cache :=
  { c with
    page := fun a => if blockOf a = b then c.disk a else c.page a
    dirty := Function.update c.dirty b true }

/-- `ide_write` of a block from its page. -/
def ideWrite (b : ℕ) (c : Cache) : Cache :=
  { c with disk := fun a => if blockOf a = b then c.page a else c.disk a }

/-- `sys_page_map` of a page where it is, with `PTE_SYSCALL` of its bits, which loses `PTE_D`. -/
def clean (b : ℕ) (c : Cache) : Cache := { c with dirty := Function.update c.dirty b false }

/-- A store to a byte; the hardware sets `PTE_D`. -/
def store (va : Word) (v : BitVec 8) (c : Cache) : Cache :=
  { c with
    page := Function.update c.page va v
    dirty := Function.update c.dirty (blockOf va) true }

/-- `sys_page_unmap` of the page of a block. -/
def unmap (b : ℕ) (c : Cache) : Cache :=
  { c with mapped := Function.update c.mapped b false, dirty := Function.update c.dirty b false }

end Cache

section Routines

/-- Access to an address, which may fault; then the instruction is run again. -/
def touch (fault : Word → Routine Cache Unit) (va : Word) : Routine Cache Unit := do
  let c ← Routine.get
  if c.mapped (blockOf va) then pure () else fault va

def loadUint (fault : Word → Routine Cache Unit) (va : Word) : Routine Cache Word := do
  touch fault va
  Routine.gets fun c => loadWord c.page va

/-- `block_is_free`. -/
def blockIsFree (fault : Word → Routine Cache Unit) (blockno : ℕ) : Routine Cache Bool := do
  let c ← Routine.get
  if ¬ c.super then return false
  let n ← loadUint fault nblocksAddr
  if n.toNat ≤ blockno then return false
  let w ← loadUint fault (bitmapAddr blockno)
  return w &&& (1#32 <<< (blockno % 32)) ≠ 0#32

/-- `super && blockno >= super->s_nblocks` is a panic. -/
def superCheck (fault : Word → Routine Cache Unit) (blockno : ℕ) : Routine Cache Unit := do
  let c ← Routine.get
  if ¬ c.super then return
  let n ← loadUint fault nblocksAddr
  Routine.panicUnless (blockno < n.toNat)

/-- `bitmap && block_is_free(blockno)` is a panic. -/
def bitmapCheck (fault : Word → Routine Cache Unit) (blockno : ℕ) : Routine Cache Unit := do
  let c ← Routine.get
  if ¬ c.bitmap then return
  let free ← blockIsFree fault blockno
  Routine.panicUnless (free = false)

/-- `bc_pgfault`. The exception stack has room for `depth` faults, one inside another. -/
def bcPgfault (io : BlockIo) : ℕ → Word → Routine Cache Unit
  | 0, _ => Routine.halt
  | depth+1, va => do
    let blockno := blockOf va
    Routine.panicUnless (InDiskmap va)
    superCheck (bcPgfault io depth) blockno
    Routine.panicUnless (io.alloc blockno)
    Routine.modify (Cache.pageAlloc blockno)
    Routine.panicUnless (io.transfer blockno)
    Routine.modify (Cache.ideRead blockno)
    Routine.modify (Cache.clean blockno)
    bitmapCheck (bcPgfault io depth) blockno

def readByte (io : BlockIo) (depth : ℕ) (va : Word) : Routine Cache (BitVec 8) := do
  touch (bcPgfault io depth) va
  Routine.gets fun c => c.page va

def writeByte (io : BlockIo) (depth : ℕ) (va : Word) (v : BitVec 8) : Routine Cache Unit := do
  touch (bcPgfault io depth) va
  Routine.modify (Cache.store va v)

/-- `flush_block`. -/
def cacheFlushBlock (io : BlockIo) (va : Word) : Routine Cache Unit := do
  let blockno := blockOf va
  Routine.panicUnless (InDiskmap (rounddown va))
  let c ← Routine.get
  if ¬ c.mapped blockno ∨ ¬ c.dirty blockno then return
  Routine.panicUnless (io.transfer blockno)
  Routine.modify (Cache.ideWrite blockno)
  Routine.modify (Cache.clean blockno)

/-- `diskaddr`. -/
def cacheDiskaddr (io : BlockIo) (depth blockno : ℕ) : Routine Cache Word := do
  Routine.panicUnless (blockno ≠ 0)
  superCheck (bcPgfault io depth) blockno
  return blockAddr blockno

/-- `fs_sync`. No round changes `super->s_nblocks`. -/
def cacheSync (io : BlockIo) (depth : ℕ) : Routine Cache Unit := do
  let n ← loadUint (bcPgfault io depth) nblocksAddr
  Routine.loop (n.toNat - 1) fun i => do
    let va ← cacheDiskaddr io depth (i + 1)
    cacheFlushBlock io va

end Routines

end Sisop
