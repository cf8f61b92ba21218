import Sisop.FsFiles
import Sisop.BlockAlloc

/-! The tree of the files on a disk: the root directory, and what directories of the tree
have in their blocks. No block belongs to two files, or twice to one. -/
namespace Sisop

section Tree

/-- The number of block `i` of a file, as the disk format has it; zero if there is none. -/
def blockNo (m : ByteMem) (f : Word) (i : ℕ) : ℕ :=
  if i < ndirect then (loadWord m (fDirectAddr f i)).toNat
  else if fIndirect m f = 0#32 then 0
  else (loadWord m (blockAddr (fIndirect m f).toNat + BitVec.ofNat 32 (4 * (i - ndirect)))).toNat

/-- The blocks that a file refers to, by their number, and its indirect block. -/
def link (m : ByteMem) (f : Word) : Option ℕ → ℕ
  | none => (fIndirect m f).toNat
  | some i => blockNo m f i

/-- The blocks that the server finds where the disk format has them. -/
def LowLink (k : Option ℕ) : Prop := ∀ i, k = some i → i ≤ ndirect

/-- File `j` of block `b`. -/
abbrev slotAddr (b j : ℕ) : Word := entryAddr (blockAddr b) j

/-- The files that are reachable from the root. -/
inductive InTree (m : ByteMem) : Word → Prop where
  | root : InTree m rootAddr
  | entry {d : Word} {i j : ℕ} (hd : InTree m d) (hdir : fType m d = ftypeDir)
      (hi : i * 4096 < (fSize m d).toNat) (hb : blockNo m d i ≠ 0) (hj : j < blkfiles)
      (hn : m (slotAddr (blockNo m d i) j) ≠ 0#8) : InTree m (slotAddr (blockNo m d i) j)

/-- The first block after the bitmap. -/
def dataStart (m : ByteMem) : ℕ := 2 + (nblocksIn m + 32767) / 32768

/-- A block in use past the bitmap. -/
structure DataBlock (m : ByteMem) (b : ℕ) : Prop where
  start : dataStart m ≤ b
  lt : b < nblocksIn m
  used : freeBit m b = false

/-- A consistent disk whose directories have no more blocks than the server finds. -/
structure TreeOk (m : ByteMem) : Prop where
  good : GoodSuper m
  zero : freeBit m 0 = false
  data : ∀ f k, InTree m f → LowLink k → link m f k ≠ 0 → DataBlock m (link m f k)
  apart : ∀ f g k l, InTree m f → InTree m g → LowLink k → LowLink l → link m f k ≠ 0 →
    link m f k = link m g l → f = g ∧ k = l
  dirs : ∀ d, InTree m d → fType m d = ftypeDir → 4096 ∣ (fSize m d).toNat ∧
    (fSize m d).toNat ≤ (ndirect + 1) * 4096 ∧
    ∀ i ≤ ndirect, (fSize m d).toNat ≤ i * 4096 → blockNo m d i = 0

/-- A set of files that has the root, and all that its directories have in their blocks. -/
structure Closed (m : ByteMem) (T : Word → Prop) : Prop where
  root : T rootAddr
  entry : ∀ d i j, T d → fType m d = ftypeDir → i * 4096 < (fSize m d).toNat → blockNo m d i ≠ 0 →
    j < blkfiles → m (slotAddr (blockNo m d i) j) ≠ 0#8 → T (slotAddr (blockNo m d i) j)

variable {m : ByteMem} {T : Word → Prop} {f g : Word} {b i j : ℕ} {k l : Option ℕ}

theorem Closed.inTree (h : Closed m T) (hf : InTree m f) : T f := by
  induction hf with
  | root => exact h.root
  | entry _ hdir hi hb hj hn ih => exact h.entry _ _ _ ih hdir hi hb hj hn

/-- It is enough to know that all is well with a larger set of files. -/
theorem TreeOk.of_closed (hT : Closed m T) (hgood : GoodSuper m) (hzero : freeBit m 0 = false)
    (hdata : ∀ f k, T f → LowLink k → link m f k ≠ 0 → DataBlock m (link m f k))
    (hapart : ∀ f g k l, T f → T g → LowLink k → LowLink l → link m f k ≠ 0 →
      link m f k = link m g l → f = g ∧ k = l)
    (hdirs : ∀ d, T d → fType m d = ftypeDir → 4096 ∣ (fSize m d).toNat ∧
      (fSize m d).toNat ≤ (ndirect + 1) * 4096 ∧
      ∀ i ≤ ndirect, (fSize m d).toNat ≤ i * 4096 → blockNo m d i = 0) : TreeOk m :=
  ⟨hgood, hzero, fun f k hf => hdata f k (hT.inTree hf),
    fun f g k l hf hg => hapart f g k l (hT.inTree hf) (hT.inTree hg), fun d hd => hdirs d (hT.inTree hd)⟩

theorem lowLink_none : LowLink none := nofun

theorem lowLink_some (hi : i ≤ ndirect) : LowLink (some i) := by
  intro j hj
  cases hj
  exact hi

/-- The blocks of a directory are found where the format has them. -/
theorem TreeOk.dir_index (h : TreeOk m) (hf : InTree m f) (hdir : fType m f = ftypeDir)
    (hi : i * 4096 < (fSize m f).toNat) : i ≤ ndirect := by
  have hsize := (h.dirs f hf hdir).2.1
  change _ ≤ (10 + 1) * 4096 at hsize
  change i ≤ 10
  omega

end Tree

section Places

variable {m : ByteMem} {f g : Word} {b i j : ℕ} {k l : Option ℕ}

theorem slotAddr_toNat (hb : b < diskBlocks) (hj : j < blkfiles) :
    (slotAddr b j).toNat = 0x10000000 + b * 4096 + 256 * j := by
  have hblock := blockAddr_toNat hb
  change b < 0xC0000 at hb
  change j < 16 at hj
  have hadd : (blockAddr b + BitVec.ofNat 32 (256 * j)).toNat = (blockAddr b).toNat + 256 * j := by bv_omega
  rw [← hblock]
  exact hadd

theorem rootAddr_toNat : rootAddr.toNat = 0x10001008 := by decide

/-- Where a file is: in the super block or in a block after the bitmap. -/
inductive FilePlace (m : ByteMem) : Word → Prop where
  | root : FilePlace m rootAddr
  | slot {b j : ℕ} (hb : dataStart m ≤ b) (hlt : b < nblocksIn m) (hj : j < blkfiles) :
    FilePlace m (slotAddr b j)

theorem TreeOk.place (h : TreeOk m) (hf : InTree m f) : FilePlace m f := by
  cases hf with
  | root => exact .root
  | @entry d i j hd hdir hi hb hj hn =>
    have hdata := h.data d (some i) hd (lowLink_some (h.dir_index hd hdir hi)) hb
    exact .slot hdata.start hdata.lt hj

theorem GoodSuper.start_le (h : GoodSuper m) : dataStart m ≤ diskBlocks := by
  have hsize := h.size
  unfold dataStart
  change nblocksIn m ≤ 0xC0000 at hsize
  change _ ≤ 0xC0000
  omega

/-- All of a file is in one block. -/
theorem FilePlace.block (hg : GoodSuper m) (h : FilePlace m f) :
    ∃ b, (b = 1 ∨ dataStart m ≤ b ∧ b < nblocksIn m) ∧ 0x10000000 + b * 4096 ≤ f.toNat ∧
      f.toNat + 256 ≤ 0x10000000 + (b + 1) * 4096 := by
  have hsize := hg.size
  cases h with
  | root =>
    refine ⟨1, Or.inl rfl, ?_, ?_⟩
    · rw [rootAddr_toNat]
      omega
    · rw [rootAddr_toNat]
      omega
  | @slot b j hb hlt hj =>
    have haddr := slotAddr_toNat (Nat.lt_of_lt_of_le hlt hsize) hj
    change j < 16 at hj
    exact ⟨b, Or.inr ⟨hb, hlt⟩, by omega, by omega⟩

theorem FilePlace.bounds (hg : GoodSuper m) (h : FilePlace m f) :
    0x10001008 ≤ f.toNat ∧ f.toNat + 256 ≤ 0xD0000000 := by
  have hsize := hg.size
  change nblocksIn m ≤ 0xC0000 at hsize
  cases h with
  | root =>
    rw [rootAddr_toNat]
    omega
  | @slot b j hb hlt hj =>
    have haddr := slotAddr_toNat (Nat.lt_of_lt_of_le hlt hg.size) hj
    change j < 16 at hj
    unfold dataStart at hb
    omega

/-- Two files have no byte in common. -/
theorem FilePlace.apart (hg : GoodSuper m) (hf : FilePlace m f) (hg' : FilePlace m g) (h : f ≠ g) :
    f.toNat + 256 ≤ g.toNat ∨ g.toNat + 256 ≤ f.toNat := by
  have hne : f.toNat ≠ g.toNat := fun heq => h (BitVec.eq_of_toNat_eq heq)
  have hroot := rootAddr_toNat
  cases hf with
  | root =>
    cases hg' with
    | root => exact absurd rfl h
    | @slot b j hb hlt hj =>
      have haddr := slotAddr_toNat (Nat.lt_of_lt_of_le hlt hg.size) hj
      unfold dataStart at hb
      omega
  | @slot b j hb hlt hj =>
    have haddr := slotAddr_toNat (Nat.lt_of_lt_of_le hlt hg.size) hj
    cases hg' with
    | root =>
      unfold dataStart at hb
      omega
    | @slot b' j' hb' hlt' hj' =>
      have haddr' := slotAddr_toNat (Nat.lt_of_lt_of_le hlt' hg.size) hj'
      omega

end Places

section Fields

variable {m m' : ByteMem} {f : Word} {lo k i : ℕ} {l : Option ℕ}

theorem fSizeAddr_toNat (h : f.toNat + 256 ≤ 2^32) : (fSizeAddr f).toNat = f.toNat + 128 := by
  unfold fSizeAddr
  bv_omega

theorem fIndirectAddr_toNat (h : f.toNat + 256 ≤ 2^32) : (fIndirectAddr f).toNat = f.toNat + 176 := by
  unfold fIndirectAddr
  bv_omega

theorem fDirectAddr_toNat (h : f.toNat + 256 ≤ 2^32) (hi : i < ndirect) :
    (fDirectAddr f i).toNat = f.toNat + (136 + 4 * i) := by
  change i < 10 at hi
  unfold fDirectAddr
  bv_omega

theorem fSize_same (hm : SameOutside m m' lo k) (h : f.toNat + 256 ≤ 2^32)
    (hd : f.toNat + 132 ≤ lo ∨ lo + k ≤ f.toNat + 128) : fSize m' f = fSize m f := by
  have haddr := fSizeAddr_toNat h
  apply hm.loadWord <;> omega

theorem fIndirect_same (hm : SameOutside m m' lo k) (h : f.toNat + 256 ≤ 2^32)
    (hd : f.toNat + 180 ≤ lo ∨ lo + k ≤ f.toNat + 176) : fIndirect m' f = fIndirect m f := by
  have haddr := fIndirectAddr_toNat h
  apply hm.loadWord <;> omega

theorem fDirect_same (hm : SameOutside m m' lo k) (h : f.toNat + 256 ≤ 2^32) (hi : i < ndirect)
    (hd : f.toNat + (136 + 4 * i) + 4 ≤ lo ∨ lo + k ≤ f.toNat + (136 + 4 * i)) :
    loadWord m' (fDirectAddr f i) = loadWord m (fDirectAddr f i) := by
  have haddr := fDirectAddr_toNat h hi
  change i < 10 at hi
  apply hm.loadWord <;> omega

theorem link_direct (hi : i < ndirect) : link m f (some i) = (loadWord m (fDirectAddr f i)).toNat := by
  change blockNo m f i = _
  unfold blockNo
  rw [if_pos hi]

/-- The first block that is not a direct one, in a file that has an indirect block. -/
theorem link_first (h : fIndirect m f ≠ 0#32) :
    link m f (some ndirect) = (loadWord m (blockAddr (fIndirect m f).toNat)).toNat := by
  change blockNo m f ndirect = _
  unfold blockNo
  rw [if_neg (Nat.lt_irrefl _), if_neg h, Nat.sub_self]
  exact congrArg (fun a => (loadWord m a).toNat) (BitVec.add_zero _)

theorem link_first_zero (h : fIndirect m f = 0#32) : link m f (some ndirect) = 0 := by
  change blockNo m f ndirect = 0
  unfold blockNo
  rw [if_neg (Nat.lt_irrefl _), if_pos h]

end Fields

section Changes

variable {m m' : ByteMem} {f : Word} {lo k b : ℕ}

theorem nblocksIn_same (hm : SameOutside m m' lo k) (h : 0x10001008 ≤ lo) : nblocksIn m' = nblocksIn m := by
  have haddr : nblocksAddr.toNat = 0x10001004 := by decide
  unfold nblocksIn
  rw [hm.loadWord] <;> omega

/-- The bitmap is between the super block and the blocks of the files. -/
theorem freeBit_same (hm : SameOutside m m' lo k)
    (hd : lo + k ≤ 0x10002000 ∨ 0x10000000 + dataStart m * 4096 ≤ lo) (hb : b < nblocksIn m) :
    freeBit m' b = freeBit m b := by
  have hlt := Nat.lt_trans hb (nblocksIn_lt m)
  have haddr := bitmapAddr_val hlt
  unfold dataStart at hd
  unfold freeBit
  rw [hm.loadWord] <;> omega

theorem dataStart_congr (hn : nblocksIn m' = nblocksIn m) : dataStart m' = dataStart m := by
  unfold dataStart
  rw [hn]

/-- The super block and the bitmap stay good as long as no block of theirs is set free. -/
theorem GoodSuper.congr (h : GoodSuper m) (hn : nblocksIn m' = nblocksIn m)
    (hbits : ∀ b, b < dataStart m → b < nblocksIn m → freeBit m b = false → freeBit m' b = false) :
    GoodSuper m' := by
  refine ⟨by rw [hn]; exact h.size, ⟨Nat.le_refl 1, ?_, ?_⟩, fun i hi => ?_⟩
  · rw [hn]
    exact h.superBlock.2.1
  · apply hbits 1 _ h.superBlock.2.1 h.superBlock.2.2
    unfold dataStart
    omega
  · rw [hn] at hi
    obtain ⟨h1, hlt, hfree⟩ := h.bitmapBlock i hi
    refine ⟨h1, by rw [hn]; exact hlt, hbits _ ?_ hlt hfree⟩
    change i * 32768 < nblocksIn m at hi
    unfold dataStart
    omega

theorem DataBlock.congr (h : DataBlock m b) (hn : nblocksIn m' = nblocksIn m)
    (hb : freeBit m' b = false) : DataBlock m' b :=
  ⟨(dataStart_congr hn).trans_le h.start, by rw [hn]; exact h.lt, hb⟩

/-- A free block is past the bitmap. -/
theorem GoodSuper.free_start (h : GoodSuper m) (h0 : freeBit m 0 = false) (hb : b ∈ freeSet m) : dataStart m ≤ b := by
  obtain ⟨hlt, hfree⟩ := mem_freeSet.mp hb
  have hne (x : ℕ) (hx : freeBit m x = false) : b ≠ x := by
    rintro rfl
    rw [hfree] at hx
    cases hx
  have h0 := hne 0 h0
  have h1 := hne 1 h.superBlock.2.2
  by_contra hle
  unfold dataStart at hle
  have hbit : (b - 2) * blkbitsize < nblocksIn m := by
    change (b - 2) * 32768 < _
    omega
  apply hne (2 + (b - 2)) (h.bitmapBlock _ hbit).2.2
  omega

theorem TreeOk.free_start (h : TreeOk m) (hb : b ∈ freeSet m) : dataStart m ≤ b := h.good.free_start h.zero hb

/-- A file that is not the root is in a block of a directory. -/
theorem TreeOk.home (h : TreeOk m) (hf : InTree m f) : f = rootAddr ∨ ∃ d i j, InTree m d ∧
    fType m d = ftypeDir ∧ i ≤ ndirect ∧ blockNo m d i ≠ 0 ∧ j < blkfiles ∧ f = slotAddr (blockNo m d i) j := by
  cases hf with
  | root => exact Or.inl rfl
  | @entry d i j hd hdir hi hb hj hn =>
    exact Or.inr ⟨d, i, j, hd, hdir, h.dir_index hd hdir hi, hb, hj, rfl⟩

theorem TreeOk.block_data (h : TreeOk m) (hf : InTree m f) (hi : i ≤ ndirect) (hb : blockNo m f i ≠ 0) :
    DataBlock m (blockNo m f i) := h.data f (some i) hf (lowLink_some hi) hb

/-- A change of the word of the bitmap that tells of a block. -/
theorem bitmap_outside (hb : b < nblocksIn m) (w : Word) :
    SameOutside m (storeWord m (bitmapAddr b) w) (0x10002000 + 4 * (b / 32)) 4 ∧
      0x10002000 + 4 * (b / 32) + 4 ≤ 0x10000000 + dataStart m * 4096 := by
  have hlt := Nat.lt_trans hb (nblocksIn_lt m)
  have haddr := bitmapAddr_val hlt
  have hm : SameOutside m (storeWord m (bitmapAddr b) w) (bitmapAddr b).toNat 4 :=
    storeWord_sameOutside (by omega)
  rw [haddr] at hm
  refine ⟨hm, ?_⟩
  unfold dataStart
  omega

theorem loadWord_zero {a : Word} (h : ∀ i < 4, m (a + BitVec.ofNat 32 i) = 0#8) : loadWord m a = 0#32 := by
  have h0 := h 0 (by decide)
  rw [BitVec.add_zero] at h0
  unfold loadWord
  rw [h 3 (by decide), h 2 (by decide), h 1 (by decide), h0]
  decide

end Changes

end Sisop
