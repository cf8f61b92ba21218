import Sisop.Bytes
import Sisop.FsFiles
import Sisop.Spans

/-! `fsformat.c`, which makes the disk image that the file server starts from. -/
namespace Sisop

/-- What `fsformat` works on: `diskmap`, with `diskpos`, `super` and `bitmap` as offsets into it,
and the entries of the root directory, in memory from `malloc`. -/
structure Format where
  nblocks : Word
  diskmap : Bytes
  diskpos : ℕ
  super : ℕ
  bitmap : ℕ
  ents : Bytes
  n : ℕ

/-- A `struct File *`, into the image or into the entries. -/
inductive FilePtr where
  | disk (a : ℕ)
  | ents (a : ℕ)

/-- A file to be copied: the argument that names it, and what it contains. -/
structure InputFile where
  name : List (BitVec 8)
  data : List (BitVec 8)
  noNul : 0#8 ∉ name

/-- The name behind the last slash. -/
def InputFile.last (file : InputFile) : List (BitVec 8) :=
  (file.name.reverse.takeWhile fun c => c ≠ 0x2F#8).reverse

abbrev maxDirEnts : ℕ := 128
abbrev maxfilesize : ℕ := (ndirect + nindirect) * blksize

def fsMagic : Word := 0x4A0530AE#32

/-- `ROUNDUP(n, BLKSIZE)` where `n` is a `uint32_t`. -/
def roundupUint (n : Word) : Word := n - 1#32 + 4096#32 - (n - 1#32) % 4096#32

/-- `ROUNDUP(n, BLKSIZE)` where `n` is an `int`. -/
def roundupInt (n : ℤ) : ℤ := n - 1 + 4096 - Int.tmod (n - 1) 4096

/-- `blockof(pos)`. -/
def blockof (pos : ℕ) : Word := BitVec.ofNat 32 (pos / blksize)

namespace Format

/-- Words written at the offset `off` of a file node. -/
def put (s : Format) (f : FilePtr) (off : ℕ) (ws : List Word) : Format :=
  match f with
  | .disk a => { s with diskmap := putWords s.diskmap (a + off) ws }
  | .ents a => { s with ents := putWords s.ents (a + off) ws }

def putDisk (s : Format) (a : ℕ) (bs : List (BitVec 8)) : Format :=
  { s with diskmap := putBytes s.diskmap a bs }

/-- `bitmap[i/32] &= ~(1<<(i%32))`. -/
def clearBit (s : Format) (i : ℕ) : Format :=
  let a := s.bitmap + 4 * (i / 32)
  { s with diskmap := putWords s.diskmap a [getWord s.diskmap a &&& ~~~(1#32 <<< (i % 32))] }

/-- `alloc(bytes)`. -/
def alloc (bytes : Word) : Routine Format ℕ := fun s =>
  let t := { s with diskpos := s.diskpos + (roundupUint bytes).toNat }
  if t.nblocks ≤ blockof t.diskpos then .halt else .ret s.diskpos t

/-- `opendisk`, on a file that `ftruncate` has filled with zeros. -/
def opendisk : Routine Format Unit := do
  Routine.modify fun s => { s with diskmap := fun _ => 0#8, diskpos := 0 }
  let _ ← alloc 4096#32
  let super ← alloc 4096#32
  Routine.modify fun s => { s with super := super }
  Routine.modify fun s => s.put (.disk super) 0 [fsMagic]
  Routine.modify fun s => s.put (.disk super) 4 [s.nblocks]
  Routine.modify fun s => s.put (.disk (super + 8)) 132 [ftypeDir]
  Routine.modify fun s => s.putDisk (super + 8) [0x2F#8, 0#8]
  let nblocks ← Routine.gets Format.nblocks
  let nbitblocks := (nblocks + 32768#32 - 1#32) / 32768#32
  let bitmap ← alloc (nbitblocks * 4096#32)
  Routine.modify fun s => { s with bitmap := bitmap }
  Routine.modify fun s => s.putDisk bitmap (List.replicate (nbitblocks * 4096#32).toNat 0xFF#8)

/-- `finishdisk`. -/
def finishdisk : Routine Format Unit := do
  let diskpos ← Routine.gets diskpos
  Routine.loop (blockof diskpos).toNat fun i => Routine.modify fun s => s.clearBit i

/-- `finishfile(f, start, len)`. The two loops go on with the same `i`. -/
def finishfile (f : FilePtr) (start len : Word) : Routine Format Unit := do
  Routine.modify fun s => s.put f 128 [len]
  let n := (roundupUint len / 4096#32).toNat
  Routine.loop (min n ndirect) fun i =>
    Routine.modify fun s => s.put f (136 + 4 * i) [start + BitVec.ofNat 32 i]
  if min n ndirect = ndirect then
    let ind ← alloc 4096#32
    Routine.modify fun s => s.put f 176 [blockof ind]
    Routine.loop (n - ndirect) fun j =>
      Routine.modify fun s => s.put (.disk ind) (4 * j) [start + BitVec.ofNat 32 (ndirect + j)]
  else pure ()

/-- `diradd(d, type, name)`. -/
def diradd (type : Word) (name : List (BitVec 8)) : Routine Format ℕ := do
  let out ← Routine.gets fun s => fileBytes * s.n
  Routine.modify fun s => { s with n := s.n + 1 }
  let n ← Routine.gets n
  if maxDirEnts < n then Routine.halt
  else
    Routine.modify fun s => { s with ents := putBytes s.ents out (name ++ [0#8]) }
    Routine.modify fun s => s.put (.ents out) 132 [type]
    pure out

/-- `finishdir(d)`, for the root directory. -/
def finishdir : Routine Format Unit := do
  let n ← Routine.gets n
  let size : ℤ := n * fileBytes
  let start ← alloc (BitVec.ofInt 32 size)
  Routine.modify fun s => s.putDisk start ((List.range size.toNat).map s.ents)
  let super ← Routine.gets super
  finishfile (.disk (super + 8)) (blockof start) (BitVec.ofInt 32 (roundupInt size))

/-- `writefile(dir, name)`. A name that ends in a slash, or whose last part is longer than the
255 bytes of `NAME_MAX`, cannot be opened as a regular file. -/
def writefile (file : InputFile) : Routine Format Unit :=
  if file.last = [] ∨ 255 < file.last.length then Routine.halt
  else if maxfilesize ≤ file.data.length then Routine.halt
  else do
    let f ← diradd 0#32 file.last
    let start ← alloc (BitVec.ofNat 32 file.data.length)
    Routine.modify fun s => s.putDisk start file.data
    finishfile (.ents f) (blockof start) (BitVec.ofNat 32 file.data.length)

def writefiles : List InputFile → Routine Format Unit
  | [] => pure ()
  | file :: files => do
    writefile file
    writefiles files

end Format

/-- `fsformat fs.img NBLOCKS files...`, where `heap` is what `malloc` returns. -/
def fsformat (nblocks : Word) (files : List InputFile) (heap : Bytes) : Outcome Format Unit :=
  (do
    if nblocks < 2#32 ∨ 1024#32 < nblocks then Routine.halt
    else
      Format.opendisk
      Routine.modify fun s => { s with ents := heap, n := 0 }
      Format.writefiles files
      Format.finishdir
      Format.finishdisk : Routine Format Unit) ⟨nblocks, fun _ => 0#8, 0, 0, 0, heap, 0⟩

/-! What an image says about its files. -/

section Image

/-- Where the root directory has its file node. -/
def rootNode : ℕ := blksize + 8

/-- The block with the part `i` of the file `f`. -/
def fileBlock (m : Bytes) (f i : ℕ) : ℕ :=
  if i < ndirect then (getWord m (f + 136 + 4 * i)).toNat
  else (getWord m ((getWord m (f + 176)).toNat * blksize + 4 * (i - ndirect))).toNat

/-- The place for file `j` of the root directory. -/
def dirSlot (m : Bytes) (j : ℕ) : ℕ := fileBlock m rootNode (j / blkfiles) * blksize + fileBytes * (j % blkfiles)

/-- The files in the root directory. A place with an empty name is free. -/
def rootFiles (m : Bytes) : List ℕ :=
  ((List.range ((getWord m (rootNode + 128)).toNat / fileBytes)).map (dirSlot m)).filter fun f => m f ≠ 0#8

/-- The field `f_name` holds the name and the null byte at its end. -/
structure HasName (m : Bytes) (f : ℕ) (name : List (BitVec 8)) : Prop where
  fits : name.length < maxnamelen
  chars : ∀ k (hk : k < name.length), m (f + k) = name[k]
  nul : m (f + name.length) = 0#8

/-- The file at `f` is a copy. -/
structure IsCopy (m : Bytes) (f : ℕ) (file : InputFile) : Prop where
  name : HasName m f file.last
  size : (getWord m (f + 128)).toNat = file.data.length
  data : ∀ k (hk : k < file.data.length), m (fileBlock m f (k / blksize) * blksize + k % blksize) = file.data[k]

/-- The word at `a` is a block number of the root directory or of one of its files. -/
def BlockSlot (m : Bytes) (a : ℕ) : Prop :=
  ∃ f, (f = rootNode ∨ f ∈ rootFiles m) ∧
    ((∃ i < ndirect, a = f + 136 + 4 * i) ∨ a = f + 176 ∨
      getWord m (f + 176) ≠ 0#32 ∧ ∃ i < nindirect, a = (getWord m (f + 176)).toNat * blksize + 4 * i)

/-- The bitmap has the block `b` as free. -/
def MarkedFree (m : Bytes) (b : ℕ) : Prop := (getWord m (2 * blksize + 4 * (b / 32))).getLsbD (b % 32) = true

/-- The image is consistent, and has the files. -/
structure ConsistentImage (s : Format) (files : List InputFile) : Prop where
  files : List.Forall₂ (IsCopy s.diskmap) (rootFiles s.diskmap) files
  slots : ∀ a, BlockSlot s.diskmap a → getWord s.diskmap a = 0#32 ∨
    getWord s.diskmap a < s.nblocks ∧
      (∀ a', BlockSlot s.diskmap a' → getWord s.diskmap a' = getWord s.diskmap a → a' = a) ∧
      ¬ MarkedFree s.diskmap (getWord s.diskmap a).toNat
  free : ∀ b, (blockof s.diskpos).toNat ≤ b → b < s.nblocks.toNat → MarkedFree s.diskmap b

/-- The number of blocks of its data. -/
def InputFile.blocks (file : InputFile) : ℕ := (file.data.length + 4095) / 4096

/-- A slot for a direct block, of the entries in memory, that stays as it is. -/
def SpareDirect (files : List InputFile) (a : ℕ) : Prop :=
  ∃ i k, ∃ hi : i < files.length, files[i].blocks ≤ k ∧ k < ndirect ∧ a = fileBytes * i + 136 + 4 * k

/-- A slot for an indirect block, of the entries in memory, that stays as it is. -/
def SpareIndirect (files : List InputFile) (a : ℕ) : Prop :=
  ∃ i, ∃ hi : i < files.length, files[i].blocks < ndirect ∧ a = fileBytes * i + 176

/-- The words from `malloc` that end up as block numbers. They are 0, or one of the
two blocks of the super block and the bitmap, which no other slot names. -/
structure CleanHeap (files : List InputFile) (heap : Bytes) : Prop where
  direct : ∀ a, SpareDirect files a → getWord heap a < 3#32
  once : ∀ a a', SpareDirect files a → SpareDirect files a' → getWord heap a ≠ 0#32 →
    getWord heap a' = getWord heap a → a' = a
  indirect : ∀ a, SpareIndirect files a → getWord heap a = 0#32

end Image
end Sisop
