import Sisop.PathResolve
import Sisop.FsCalls

/-! What `file_get_block` does when there is a free block, and when there is none. -/
namespace Sisop

/-- A file of a consistent disk: in the super block or a block in use, with an indirect block
of its own if it has one. -/
structure FileOk (m : ByteMem) (f : Word) : Prop where
  good : GoodSuper m
  zero : freeBit m 0 = false
  place : f = rootAddr ∨ ∃ b j, DataBlock m b ∧ j < blkfiles ∧ f = slotAddr b j
  indirect : fIndirect m f ≠ 0#32 → DataBlock m (fIndirect m f).toNat ∧ (fIndirect m f).toNat ≠ blockOf f

/-- A block in use, whose number the file has for its block `i`. -/
def Recorded (m : ByteMem) (f : Word) (i : ℕ) (blk : Word) : Prop :=
  ∃ slot, slotAt m f i = some slot ∧ InUse m (loadWord m slot).toNat ∧ blk = blockAddr (loadWord m slot).toNat

/-- A file that needs an indirect block for its block `i`. -/
def NeedsIndirect (m : ByteMem) (f : Word) (i : ℕ) : Prop :=
  ndirect ≤ i ∧ i < ndirect + nindirect ∧ fIndirect m f = 0#32

/-- An `alloc_block` for block `i` of a file finds no free block. -/
def NoRoom (m : ByteMem) (f : Word) (i : ℕ) : Prop :=
  (∃ slot, slotAt m f i = some slot ∧ loadWord m slot = 0#32 ∧ freeSet m = ∅) ∨
    NeedsIndirect m f i ∧ (freeSet m = ∅ ∨ ∃ c, IsLeast (freeSet m) c ∧ freeSet (takeMem m c) = ∅)

/-- `file_get_block` returns a block that the file has, or an error; and the error is the one
for a full disk, with nothing changed, if there is no free block. -/
def GetBlockExact (s : Fs) (f : Word) (i : ℕ) : Prop :=
  ∃ r s', fileGetBlock f i s = .ret r s' ∧ (∀ blk, r = .ok blk → Recorded s'.mem f i blk) ∧
    (NoRoom s.mem f i → r = .error .noDisk ∧ s'.mem = s.mem)

section Places

variable {m m' : ByteMem} {f slot : Word} {i lo k b : ℕ}

theorem FileOk.filePlace (h : FileOk m f) : FilePlace m f := by
  obtain rfl | ⟨b, j, hb, hj, rfl⟩ := h.place
  · exact .root
  · exact .slot hb.start hb.lt hj

/-- All of a file is in its block, which is the super block or one past the bitmap. -/
theorem FileOk.home (h : FileOk m f) : (blockOf f = 1 ∨ DataBlock m (blockOf f)) ∧
    0x10000000 + blockOf f * 4096 + 8 ≤ f.toNat + 8 ∧ f.toNat + 256 ≤ 0x10000000 + (blockOf f + 1) * 4096 ∧
    0x10001008 ≤ f.toNat ∧ f.toNat + 256 ≤ 2^32 := by
  have hbounds := h.filePlace.bounds h.good
  obtain rfl | ⟨b, j, hb, hj, rfl⟩ := h.place
  · have hroot := rootAddr_toNat
    have hblock : blockOf rootAddr = 1 := by decide
    rw [hblock]
    exact ⟨Or.inl rfl, by omega, by omega, by omega, by omega⟩
  · have hlt : b < diskBlocks := Nat.lt_of_lt_of_le hb.lt h.good.size
    have haddr := slotAddr_toNat hlt hj
    rw [blockOf_slotAddr hlt hj]
    change j < 16 at hj
    exact ⟨Or.inr hb, by omega, by omega, by omega, by omega⟩

/-- Where the number of a block is: outside of the bitmap, and not in the field of the file for
its indirect block. -/
theorem FileOk.slot_place (h : FileOk m f) (hslot : slotAt m f i = some slot) :
    0x10001008 ≤ slot.toNat ∧ slot.toNat + 4 ≤ 2^32 ∧
      (slot.toNat + 4 ≤ 0x10002000 ∨ 0x10000000 + dataStart m * 4096 ≤ slot.toNat) ∧
      (f.toNat + 180 ≤ slot.toNat ∨ slot.toNat + 4 ≤ f.toNat + 176) ∧ (ndirect ≤ i → fIndirect m f ≠ 0#32) := by
  obtain ⟨hblock, hlo, hhi, hbase, hbound⟩ := h.home
  have harea : f.toNat + 256 ≤ 0x10002000 ∨ 0x10000000 + dataStart m * 4096 ≤ f.toNat := by
    obtain hone | hdata := hblock
    · rw [hone] at hhi
      exact Or.inl hhi
    · have hstart := hdata.start
      omega
  unfold slotAt at hslot
  split_ifs at hslot with hi hind
  · obtain rfl := Option.some.inj hslot
    have haddr := fDirectAddr_toNat hbound hi
    change i < 10 at hi
    exact ⟨by omega, by omega, by omega, by omega, fun hle => absurd hi (Nat.not_lt.mpr hle)⟩
  · have hslot := Option.some.inj hslot
    obtain ⟨hdata, hne⟩ := h.indirect hind.2.1
    have hlt : (fIndirect m f).toNat < 0xC0000 := Nat.lt_of_lt_of_le hdata.lt h.good.size
    have hstart := hdata.start
    have haddr := blockAddr_toNat hlt
    have hin := hind.1
    change i < 10 + 4096 / 4 at hin
    change ¬ i < 10 at hi
    have hval : slot.toNat = 0x10000000 + (fIndirect m f).toNat * 4096 + (i - 10) := by
      rw [← hslot]
      change (blockAddr (fIndirect m f).toNat + BitVec.ofNat 32 (i - 10)).toNat = _
      bv_omega
    have hlow : 2 ≤ (fIndirect m f).toNat := by
      unfold dataStart at hstart
      omega
    exact ⟨by omega, by omega, by omega, by omega, fun _ => hind.2.1⟩

/-- The place for a number stays the same if the indirect block of the file does. -/
theorem slotAt_congr (hn : nblocksIn m' = nblocksIn m) (hind : fIndirect m' f = fIndirect m f) :
    slotAt m' f i = slotAt m f i := by
  unfold slotAt
  rw [hind, hn]

/-- Nothing of this depends on the contents of other blocks. -/
theorem FileOk.congr_indirect (h : FileOk m f) (hn : nblocksIn m' = nblocksIn m)
    (hbits : ∀ b < nblocksIn m, freeBit m b = false → freeBit m' b = false)
    (hind : fIndirect m' f ≠ 0#32 → DataBlock m' (fIndirect m' f).toNat ∧ (fIndirect m' f).toNat ≠ blockOf f) :
    FileOk m' f := by
  have hzero : 0 < nblocksIn m := Nat.zero_lt_of_lt h.good.superBlock.2.1
  refine ⟨h.good.congr hn fun b _ => hbits b, hbits 0 hzero h.zero, ?_, hind⟩
  exact h.place.imp_right fun ⟨b, j, hb, hj⟩ => ⟨b, j, hb.congr hn (hbits b hb.lt hb.used), hj⟩

theorem FileOk.congr (h : FileOk m f) (hn : nblocksIn m' = nblocksIn m) (hind : fIndirect m' f = fIndirect m f)
    (hbits : ∀ b < nblocksIn m, freeBit m b = false → freeBit m' b = false) : FileOk m' f := by
  apply h.congr_indirect hn hbits
  rw [hind]
  intro hne
  obtain ⟨hdata, hother⟩ := h.indirect hne
  exact ⟨hdata.congr hn (hbits _ hdata.lt hdata.used), hother⟩

/-- A number is stored in its place. -/
theorem FileOk.slot_stored (h : FileOk m f) (hslot : slotAt m f i = some slot) (w : Word) :
    nblocksIn (storeWord m slot w) = nblocksIn m ∧ fIndirect (storeWord m slot w) f = fIndirect m f ∧
      ∀ b < nblocksIn m, freeBit (storeWord m slot w) b = freeBit m b := by
  obtain ⟨hbase, hbound, harea, hfield, -⟩ := h.slot_place hslot
  obtain ⟨-, -, -, -, hfile⟩ := h.home
  have hm : SameOutside m (storeWord m slot w) slot.toNat 4 := storeWord_sameOutside hbound
  exact ⟨nblocksIn_same hm hbase, fIndirect_same hm hfile hfield, fun b hb => freeBit_same hm harea hb⟩

/-- A block is taken from the bitmap. -/
theorem FileOk.taken (h : FileOk m f) (hb : b ∈ freeSet m) :
    nblocksIn (takeMem m b) = nblocksIn m ∧ fIndirect (takeMem m b) f = fIndirect m f ∧
      ∀ c < nblocksIn m, freeBit (takeMem m b) c = if c / 32 = b / 32 then false else freeBit m c := by
  obtain ⟨hblock, hlo, hhi, hbase, hbound⟩ := h.home
  obtain ⟨hm, hend⟩ := bitmap_outside (lt_of_free hb) (loadWord m (bitmapAddr b) &&& (0#32 <<< (b % 32)))
  have hN := nblocksIn_lt m
  refine ⟨nblocksIn_same hm (by omega), fIndirect_same hm hbound ?_, fun c hc => ?_⟩
  · obtain hone | hdata := hblock
    · rw [hone] at hhi
      omega
    · have hstart := hdata.start
      omega
  · exact freeBit_clear (Nat.lt_trans (lt_of_free hb) hN) (Nat.lt_trans hc hN)

theorem FileOk.take (h : FileOk m f) (hb : b ∈ freeSet m) : FileOk (takeMem m b) f := by
  obtain ⟨hn, hind, hbits⟩ := h.taken hb
  refine h.congr hn hind fun c hc hused => ?_
  rw [hbits c hc, hused, ite_self]

end Places

section Slots

variable {s : Fs} {f slot : Word} {i b : ℕ}

theorem freeSet_takeMem (hb : b ∈ freeSet s.mem) : freeSet (takeMem s.mem b) = {c ∈ freeSet s.mem | c / 32 ≠ b / 32} :=
  freeSet_clear (Nat.lt_trans (lt_of_free hb) (nblocksIn_lt _)) _

/-- The number that stands for an error is that of no block. -/
theorem getSlot_full (h : FileOk s.mem f) (hslot : slotAt s.mem f i = some slot) (hz : loadWord s.mem slot = 0#32)
    (hfull : freeSet s.mem = ∅) : getSlot slot s = .halt := by
  obtain ⟨hn, -, -⟩ := h.slot_stored hslot (retWordOf (.error .noDisk))
  have hload : loadWord (storeWord s.mem slot (retWordOf (.error .noDisk))) slot = retWordOf (.error .noDisk) :=
    loadWord_storeWord ..
  have hsize : nblocksIn s.mem ≤ 0xC0000 := h.good.size
  have hval : (retWordOf (.error .noDisk)).toNat = 4294967287 := by decide
  unfold getSlot
  rw [Routine.bind_ret (Routine.get_run s), if_neg (not_not_intro hz), Routine.bind_ret (allocBlock_none hfull)]
  rw [Routine.modify_bind_run]
  unfold slotBlock
  rw [Routine.bind_ret (Routine.get_run _)]
  apply Routine.bind_halt
  unfold diskaddr
  rw [Routine.bind_ret (Routine.get_run _)]
  apply Routine.panicUnless_bind_not
  rintro ⟨-, hlt⟩
  change (loadWord (storeWord s.mem slot (retWordOf (.error .noDisk))) slot).toNat <
    nblocksIn (storeWord s.mem slot (retWordOf (.error .noDisk))) at hlt
  rw [hload, hn, hval] at hlt
  omega

/-- The memory when a free block has been put in a slot. -/
def slotMem (m : ByteMem) (slot : Word) (b : ℕ) : ByteMem := storeWord (takeMem m b) slot (BitVec.ofNat 32 b)

/-- The number of the block is in the slot, and it is in use. -/
theorem FileOk.slot_filled {m : ByteMem} (h : FileOk m f) (hslot : slotAt m f i = some slot) (hb : b ∈ freeSet m) :
    slotAt (slotMem m slot b) f i = some slot ∧ (loadWord (slotMem m slot b) slot).toNat = b ∧
      InUse (slotMem m slot b) b := by
  have hlt := lt_of_free hb
  have hstart := h.good.free_start h.zero hb
  obtain ⟨hn, hind, hbits⟩ := h.taken hb
  have hslot' : slotAt (takeMem m b) f i = some slot := (slotAt_congr hn hind).trans hslot
  obtain ⟨hn', hind', hbits'⟩ := (h.take hb).slot_stored hslot' (BitVec.ofNat 32 b)
  have hlt' : b < nblocksIn (takeMem m b) := by
    rw [hn]
    exact hlt
  have hfree : freeBit (takeMem m b) b = false := (hbits b hlt).trans (if_pos rfl)
  refine ⟨(slotAt_congr hn' hind').trans hslot', ?_, ?_, ?_, (hbits' b hlt').trans hfree⟩
  · unfold slotMem
    rw [loadWord_storeWord, BitVec.toNat_ofNat, Nat.mod_eq_of_lt (Nat.lt_trans hlt (nblocksIn_lt m))]
  · unfold dataStart at hstart
    omega
  · exact Nat.lt_of_lt_of_eq hlt' hn'.symm

theorem slotBlock_run (hne : loadWord s.mem slot ≠ 0#32) (hlt : (loadWord s.mem slot).toNat < nblocksIn s.mem) :
    slotBlock slot s = .ret (.ok (blockAddr (loadWord s.mem slot).toNat)) s := by
  unfold slotBlock diskaddr
  rw [Routine.bind_ret (Routine.get_run s), Routine.bind_assoc_run, Routine.bind_ret (Routine.get_run s),
    Routine.bind_assoc_run, Routine.panicUnless_bind ⟨hne, hlt⟩]
  rfl

/-- A slot gets the first free block. -/
theorem getSlot_room (h : FileOk s.mem f) (hslot : slotAt s.mem f i = some slot) (hz : loadWord s.mem slot = 0#32)
    (hb : IsLeast (freeSet s.mem) b) :
    ∃ s', getSlot slot s = .ret (.ok (blockAddr b)) s' ∧ s'.mem = slotMem s.mem slot b := by
  let s' := ((s.take b).flush 2).storeUint slot (BitVec.ofNat 32 b)
  have hmem : s'.mem = slotMem s.mem slot b := by
    change storeWord ((s.take b).flush 2).mem slot _ = _
    rw [flush_mem]
    rfl
  obtain ⟨-, hload, huse⟩ := h.slot_filled hslot hb.1
  refine ⟨s', ?_, hmem⟩
  rw [← hmem] at hload huse
  have hne : loadWord s'.mem slot ≠ 0#32 := by
    intro hz
    have hpos := huse.1
    rw [← hload, hz] at hpos
    exact absurd hpos (by decide)
  have hrun := slotBlock_run hne (by rw [hload]; exact huse.2.1)
  rw [hload] at hrun
  unfold getSlot
  rw [Routine.bind_ret (Routine.get_run s), if_neg (not_not_intro hz), Routine.bind_ret (allocBlock_some hb)]
  rw [Routine.modify_bind_run]
  exact hrun

end Slots

section Indirect

variable {s : Fs} {m : ByteMem} {f slot : Word} {i c : ℕ}

/-- The memory when a file has got an indirect block, as the code makes it. -/
def indirectMem (m : ByteMem) (f : Word) (c : ℕ) : ByteMem :=
  zeroMem (storeWord (takeMem m c) (fIndirectAddr f) (BitVec.ofNat 32 c)) c

/-- A file has an indirect block in use now, with nothing in it. -/
theorem FileOk.indirect_filled (h : FileOk m f) (hc : c ∈ freeSet m) :
    FileOk (indirectMem m f c) f ∧ (fIndirect (indirectMem m f c) f).toNat = c ∧
      nblocksIn (indirectMem m f c) = nblocksIn m ∧ freeSet (indirectMem m f c) = freeSet (takeMem m c) ∧
      ZeroBlock (indirectMem m f c) c := by
  have hlt := lt_of_free hc
  have hstart := h.good.free_start h.zero hc
  have hdisk : c < diskBlocks := Nat.lt_of_lt_of_le hlt h.good.size
  obtain ⟨hn, -, hbits⟩ := h.taken hc
  obtain ⟨hblock, hlo, hhi, hbase, hbound⟩ := h.home
  have haddr := fIndirectAddr_toNat hbound
  -- the file is not in the new block
  have hother : blockOf f ≠ c := by
    rintro rfl
    obtain hone | hdata := hblock
    · rw [hone] at hstart
      unfold dataStart at hstart
      omega
    · have hfree := (mem_freeSet.mp hc).2
      rw [hdata.used] at hfree
      cases hfree
  have harea : f.toNat + 180 ≤ 0x10002000 ∨ 0x10000000 + dataStart (takeMem m c) * 4096 ≤ f.toNat + 176 := by
    rw [dataStart_congr hn]
    obtain hone | hdata := hblock
    · rw [hone] at hhi
      omega
    · have hdstart := hdata.start
      omega
  -- the number is stored first, and then the block is filled
  generalize hm₁ : storeWord (takeMem m c) (fIndirectAddr f) (BitVec.ofNat 32 c) = m₁
  have hsame₁ : SameOutside (takeMem m c) m₁ (f.toNat + 176) 4 := by
    rw [← hm₁, ← haddr]
    exact storeWord_sameOutside (by omega)
  have hn₁ : nblocksIn m₁ = nblocksIn m := (nblocksIn_same hsame₁ (by omega)).trans hn
  have hind₁ : fIndirect m₁ f = BitVec.ofNat 32 c := by
    rw [← hm₁]
    exact loadWord_storeWord ..
  have hmem : indirectMem m f c = zeroMem m₁ c := by
    rw [← hm₁]
    rfl
  rw [hmem]
  have hsame₂ : SameOutside m₁ (zeroMem m₁ c) (0x10000000 + c * 4096) 4096 := zeroMem_outside hdisk
  unfold dataStart at hstart
  have hn₂ : nblocksIn (zeroMem m₁ c) = nblocksIn m := (nblocksIn_same hsame₂ (by omega)).trans hn₁
  have hind₂ : (fIndirect (zeroMem m₁ c) f).toNat = c := by
    rw [fIndirect_same hsame₂ hbound (by omega), hind₁, BitVec.toNat_ofNat,
      Nat.mod_eq_of_lt (Nat.lt_trans hlt (nblocksIn_lt m))]
  have hfree (b : ℕ) (hb : b < nblocksIn m) : freeBit (zeroMem m₁ c) b = freeBit (takeMem m c) b := by
    have h₁ : freeBit m₁ b = freeBit (takeMem m c) b := freeBit_same hsame₁ (by omega) (by rw [hn]; exact hb)
    rw [← h₁]
    apply freeBit_same hsame₂ _ (by rw [hn₁]; exact hb)
    rw [dataStart_congr hn₁]
    unfold dataStart
    omega
  have hused : freeBit (zeroMem m₁ c) c = false := (hfree c hlt).trans ((hbits c hlt).trans (if_pos rfl))
  refine ⟨h.congr_indirect hn₂ (fun b hb hold => ?_) fun _ => ?_, hind₂, hn₂, ?_, zeroMem_zero _ _⟩
  · rw [hfree b hb, hbits b hb, hold, ite_self]
  · rw [hind₂]
    refine ⟨⟨?_, by rw [hn₂]; exact hlt, hused⟩, hother.symm⟩
    rw [dataStart_congr hn₂]
    unfold dataStart
    exact hstart
  · ext b
    rw [mem_freeSet, mem_freeSet, hn₂, hn]
    exact and_congr_right fun hb => by rw [hfree b hb]

theorem newIndirect_full (hfull : freeSet s.mem = ∅) : newIndirect f s = .ret (.error .noDisk) s := by
  unfold newIndirect
  rw [Routine.bind_ret (allocBlock_none hfull)]
  rfl

theorem newIndirect_room (h : FileOk s.mem f) (hc : IsLeast (freeSet s.mem) c) :
    ∃ s', newIndirect f s = .ret (.ok ()) s' ∧ s'.mem = indirectMem s.mem f c := by
  have hlt := lt_of_free hc.1
  have hdisk : c < diskBlocks := Nat.lt_of_lt_of_le hlt h.good.size
  have hstart := h.good.free_start h.zero hc.1
  obtain ⟨-, -, -, hbase, hbound⟩ := h.home
  have haddr := fIndirectAddr_toNat hbound
  have hval : (BitVec.ofNat 32 c).toNat = c := by
    rw [BitVec.toNat_ofNat, Nat.mod_eq_of_lt (Nat.lt_trans hlt (nblocksIn_lt _))]
  let t := ((s.take c).flush 2).storeUint (fIndirectAddr f) (BitVec.ofNat 32 c)
  have hmem : t.mem = storeWord (takeMem s.mem c) (fIndirectAddr f) (BitVec.ofNat 32 c) := by
    change storeWord ((s.take c).flush 2).mem _ _ = _
    rw [flush_mem]
    rfl
  have hn : nblocksIn t.mem = nblocksIn s.mem := by
    rw [hmem, nblocksIn_same (storeWord_sameOutside (by omega)) (by omega)]
    exact (h.taken hc.1).1
  have hne : BitVec.ofNat 32 c ≠ 0#32 := by
    intro hz
    rw [hz] at hval
    unfold dataStart at hstart
    change 0 = c at hval
    omega
  have hva : diskaddr (BitVec.ofNat 32 c) t = .ret (blockAddr c) t := by
    unfold diskaddr
    rw [Routine.bind_ret (Routine.get_run t), Routine.panicUnless_bind ⟨hne, by rw [hval, hn]; exact hlt⟩, hval]
    rfl
  have hin : InDiskmap (rounddown (blockAddr c)) := by
    rw [inDiskmap_iff, blockOf_rounddown, blockOf_blockAddr hdisk]
    exact hdisk
  have hflush : flushBlock (blockAddr c) (t.zeroBlock c) = .ret () ((t.zeroBlock c).flush c) := by
    unfold flushBlock
    rw [Routine.panicUnless_bind hin, blockOf_blockAddr hdisk]
    rfl
  refine ⟨(t.zeroBlock c).flush c, ?_, ?_⟩
  · unfold newIndirect
    rw [Routine.bind_ret (allocBlock_some hc)]
    dsimp only [orReturn]
    rw [Routine.modify_bind_run]
    change ((diskaddr (BitVec.ofNat 32 c)) >>= _) t = _
    rw [Routine.bind_ret hva, Routine.modify_bind_run, blockOf_blockAddr hdisk, Routine.bind_ret hflush]
    rfl
  · rw [flush_mem]
    change zeroMem t.mem c = _
    rw [hmem]
    rfl

/-- The new indirect block has a place for every number, and there is no number in it. -/
theorem FileOk.indirect_slot (h : FileOk m f) (hc : c ∈ freeSet m) (hi : ndirect ≤ i) (hlt : i < ndirect + nindirect) :
    ∃ slot, slotAt (indirectMem m f c) f i = some slot ∧ loadWord (indirectMem m f c) slot = 0#32 := by
  obtain ⟨-, hind, hn, -, hzero⟩ := h.indirect_filled hc
  have hstart := h.good.free_start h.zero hc
  have hdisk : c < diskBlocks := Nat.lt_of_lt_of_le (lt_of_free hc) h.good.size
  have hne : fIndirect (indirectMem m f c) f ≠ 0#32 := by
    intro hz
    rw [hz] at hind
    unfold dataStart at hstart
    change 0 = c at hind
    omega
  refine ⟨blockAddr c + BitVec.ofNat 32 (i - ndirect), ?_, ?_⟩
  · unfold slotAt
    rw [if_neg (Nat.not_lt.mpr hi), if_pos ⟨hlt, hne, by rw [hind, hn]; exact lt_of_free hc⟩, hind]
  · apply loadWord_zero
    intro j hj
    apply hzero
    change i < 10 + 4096 / 4 at hlt
    rw [BitVec.add_assoc, ← BitVec.ofNat_add]
    change blockOf (blockAddr c + BitVec.ofNat 32 (i - 10 + j)) = c
    exact blockAddr_byte hdisk (by omega)

theorem indirectSlot_at (hi : ndirect ≤ i) (h : slotAt s.mem f i = some slot) :
    indirectSlot f i s = .ret (.ok slot) s := by
  unfold slotAt at h
  rw [if_neg (Nat.not_lt.mpr hi)] at h
  split_ifs at h with hind
  obtain rfl := Option.some.inj h
  unfold indirectSlot diskaddr
  rw [Routine.bind_ret (Routine.get_run s), Routine.bind_assoc_run, Routine.bind_ret (Routine.get_run s),
    Routine.bind_assoc_run, Routine.panicUnless_bind hind.2]
  rfl

theorem NeedsIndirect.slotAt_none (h : NeedsIndirect m f i) : slotAt m f i = none := by
  unfold slotAt
  rw [if_neg (Nat.not_lt.mpr h.1), if_neg fun hind => hind.2.1 h.2.2]

theorem fileBlockWalk_indirect (h : NeedsIndirect s.mem f i) :
    fileBlockWalk f i true s = (newIndirect f >>= fun r => orReturn r fun _ => indirectSlot f i) s := by
  unfold fileBlockWalk
  rw [Routine.bind_ret (Routine.get_run s), if_neg (Nat.not_le.mpr h.2.1), if_neg (Nat.not_lt.mpr h.1),
    if_neg (not_not_intro h.2.2), if_neg (by decide)]

/-- A full disk is found out when the indirect block is to be taken. -/
theorem fileGetBlock_full (h : NeedsIndirect s.mem f i) (hfull : freeSet s.mem = ∅) :
    fileGetBlock f i s = .ret (.error .noDisk) s := by
  have hwalk : fileBlockWalk f i true s = .ret (.error .noDisk) s := by
    rw [fileBlockWalk_indirect h, Routine.bind_ret (newIndirect_full hfull)]
    rfl
  unfold fileGetBlock
  rw [Routine.bind_ret hwalk]
  rfl

/-- With a new indirect block there is a second block to be taken. -/
theorem fileGetBlock_indirect (h : FileOk s.mem f) (hneeds : NeedsIndirect s.mem f i) (hc : IsLeast (freeSet s.mem) c) :
    ∃ t slot, t.mem = indirectMem s.mem f c ∧ slotAt t.mem f i = some slot ∧ loadWord t.mem slot = 0#32 ∧
      fileGetBlock f i s = getSlot slot t := by
  obtain ⟨t, hnew, hmem⟩ := newIndirect_room h hc
  obtain ⟨slot, hslot, hz⟩ := h.indirect_slot hc.1 hneeds.1 hneeds.2.1
  rw [← hmem] at hslot hz
  refine ⟨t, slot, hmem, hslot, hz, ?_⟩
  have hwalk : fileBlockWalk f i true s = .ret (.ok slot) t := by
    rw [fileBlockWalk_indirect hneeds, Routine.bind_ret hnew]
    exact indirectSlot_at hneeds.1 hslot
  unfold fileGetBlock
  rw [Routine.bind_ret hwalk]
  rfl

end Indirect

section Exact

variable {s : Fs} {f slot : Word} {i : ℕ}

/-- A block can be had: it is there, or there is a free block for every one that is needed. -/
def BlockReady (m : ByteMem) (f : Word) (i : ℕ) : Prop :=
  ndirect + nindirect ≤ i ∨
    (∃ slot, slotAt m f i = some slot ∧
      (InUse m (loadWord m slot).toNat ∨ loadWord m slot = 0#32 ∧ (freeSet m).Nonempty)) ∨
    NeedsIndirect m f i ∧ ∀ c, IsLeast (freeSet m) c → ∃ b ∈ freeSet m, b / 32 ≠ c / 32

theorem fileGetBlock_slot (hslot : slotAt s.mem f i = some slot) : fileGetBlock f i s = getSlot slot s := by
  unfold fileGetBlock
  rw [Routine.bind_ret (fileBlockWalk_at hslot true)]
  rfl

theorem fileGetBlock_inval (hi : ndirect + nindirect ≤ i) : fileGetBlock f i s = .ret (.error .inval) s := by
  unfold fileGetBlock fileBlockWalk
  rw [Routine.bind_assoc_run, Routine.bind_ret (Routine.get_run s), if_pos hi]
  rfl

theorem slotAt_large {m : ByteMem} (hi : ndirect + nindirect ≤ i) : slotAt m f i = none := by
  have hdirect : ¬ i < ndirect := Nat.not_lt.mpr (Nat.le_trans (Nat.le_add_right _ _) hi)
  unfold slotAt
  rw [if_neg hdirect, if_neg fun hind => Nat.not_lt.mpr hi hind.1]

/-- The place for a block number is there, or will be, unless the number of the block is too large. -/
theorem FileOk.slot_cases (h : FileOk s.mem f) (i : ℕ) :
    ndirect + nindirect ≤ i ∨ (∃ slot, slotAt s.mem f i = some slot) ∨ NeedsIndirect s.mem f i := by
  by_cases hlarge : ndirect + nindirect ≤ i
  · exact Or.inl hlarge
  by_cases hneeds : NeedsIndirect s.mem f i
  · exact Or.inr (Or.inr hneeds)
  right
  left
  unfold slotAt
  by_cases hi : i < ndirect
  · rw [if_pos hi]
    exact ⟨_, rfl⟩
  · have hind : fIndirect s.mem f ≠ 0#32 := fun hz => hneeds ⟨Nat.le_of_not_lt hi, Nat.lt_of_not_le hlarge, hz⟩
    rw [if_neg hi, if_pos ⟨Nat.lt_of_not_le hlarge, hind, (h.indirect hind).1.lt⟩]
    exact ⟨_, rfl⟩

theorem noRoom_slot (hslot : slotAt s.mem f i = some slot) :
    NoRoom s.mem f i ↔ loadWord s.mem slot = 0#32 ∧ freeSet s.mem = ∅ := by
  constructor
  · rintro (⟨slot', hslot', hz, hfull⟩ | ⟨hneeds, -⟩)
    · obtain rfl := Option.some.inj (hslot.symm.trans hslot')
      exact ⟨hz, hfull⟩
    · rw [hneeds.slotAt_none] at hslot
      cases hslot
  · rintro ⟨hz, hfull⟩
    exact Or.inl ⟨slot, hslot, hz, hfull⟩

/-- With a place for the number, it has to be that of a block in use, or a block has to be free. -/
theorem getBlockExact_slot (h : FileOk s.mem f) (hslot : slotAt s.mem f i = some slot) : GetBlockExact s f i ↔
    InUse s.mem (loadWord s.mem slot).toNat ∨ loadWord s.mem slot = 0#32 ∧ (freeSet s.mem).Nonempty := by
  unfold GetBlockExact
  rw [fileGetBlock_slot hslot, noRoom_slot hslot]
  by_cases hz : loadWord s.mem slot = 0#32
  · have hnot : ¬ InUse s.mem (loadWord s.mem slot).toNat := by
      rw [hz]
      exact fun huse => absurd huse.1 (by decide)
    rw [or_iff_right hnot]
    by_cases hfull : freeSet s.mem = ∅
    · rw [getSlot_full h hslot hz hfull, hfull]
      constructor
      · rintro ⟨r, s', hrun, -⟩
        cases hrun
      · rintro ⟨-, hne⟩
        exact absurd hne Set.not_nonempty_empty
    · obtain ⟨b, hb⟩ := exists_least (Set.nonempty_iff_ne_empty.mpr hfull)
      obtain ⟨s', hrun, hmem⟩ := getSlot_room h hslot hz hb
      obtain ⟨hslot', hload, huse⟩ := h.slot_filled hslot hb.1
      refine iff_of_true ⟨_, s', hrun, fun blk hblk => ?_, fun hno => absurd hno.2 hfull⟩ ⟨hz, b, hb.1⟩
      obtain rfl := Except.ok.inj hblk
      rw [hmem]
      exact ⟨slot, hslot', hload.symm ▸ huse, by rw [hload]⟩
  · rw [or_iff_left fun hno => hz hno.1]
    have hget : getSlot slot s = slotBlock slot s := by
      unfold getSlot
      rw [Routine.bind_ret (Routine.get_run s), if_pos hz]
    rw [hget]
    constructor
    · rintro ⟨r, s', hrun, hrec, -⟩
      obtain ⟨rfl, -, -, rfl⟩ := slotBlock_ret hrun
      obtain ⟨slot', hslot', huse, -⟩ := hrec _ rfl
      obtain rfl := Option.some.inj (hslot.symm.trans hslot')
      exact huse
    · intro huse
      refine ⟨_, s, slotBlock_run hz huse.2.1, fun blk hblk => ?_, fun hno => absurd hno.1 hz⟩
      obtain rfl := Except.ok.inj hblk
      exact ⟨slot, hslot, huse, rfl⟩

theorem getBlockExact_indirect (h : FileOk s.mem f) (hneeds : NeedsIndirect s.mem f i) : GetBlockExact s f i ↔
    ∀ c, IsLeast (freeSet s.mem) c → ∃ b ∈ freeSet s.mem, b / 32 ≠ c / 32 := by
  by_cases hfull : freeSet s.mem = ∅
  · refine iff_of_true ⟨_, s, fileGetBlock_full hneeds hfull, nofun, fun _ => ⟨rfl, rfl⟩⟩ fun c hc => ?_
    have hmem := hc.1
    rw [hfull] at hmem
    exact absurd hmem (Set.notMem_empty c)
  obtain ⟨c, hc⟩ := exists_least (Set.nonempty_iff_ne_empty.mpr hfull)
  obtain ⟨t, slot, hmem, hslot, hz, hget⟩ := fileGetBlock_indirect h hneeds hc
  obtain ⟨hok, -, -, hfree, -⟩ := h.indirect_filled hc.1
  rw [← hmem] at hok hfree
  have hset : freeSet t.mem = {b ∈ freeSet s.mem | b / 32 ≠ c / 32} := hfree.trans (freeSet_takeMem hc.1)
  -- what is left is `file_get_block` of a file with an indirect block
  have hslotExact := getBlockExact_slot hok hslot
  have hnot : ¬ InUse t.mem (loadWord t.mem slot).toNat := by
    rw [hz]
    exact fun huse => absurd huse.1 (by decide)
  rw [or_iff_right hnot, and_iff_right hz] at hslotExact
  have hroom : (freeSet t.mem).Nonempty ↔ ∃ b ∈ freeSet s.mem, b / 32 ≠ c / 32 := by
    rw [hset]
    rfl
  have hleast : (∀ c', IsLeast (freeSet s.mem) c' → ∃ b ∈ freeSet s.mem, b / 32 ≠ c' / 32) ↔
      ∃ b ∈ freeSet s.mem, b / 32 ≠ c / 32 :=
    ⟨fun hall => hall c hc, fun hb c' hc' => hc.unique hc' ▸ hb⟩
  rw [hleast, ← hroom]
  constructor
  · rintro ⟨r, s', hrun, hrec, -⟩
    by_contra hnone
    rw [hget, getSlot_full hok hslot hz (Set.not_nonempty_iff_eq_empty.mp hnone)] at hrun
    cases hrun
  · intro hne
    obtain ⟨r, s', hrun, hrec, -⟩ := hslotExact.mpr hne
    rw [fileGetBlock_slot hslot, ← hget] at hrun
    refine ⟨r, s', hrun, hrec, ?_⟩
    rintro (⟨slot', hslot', -, -⟩ | ⟨-, hnone | ⟨c', hc', hnone⟩⟩)
    · rw [hneeds.slotAt_none] at hslot'
      cases hslot'
    · exact absurd hnone hfull
    · rw [hc'.unique hc, ← hfree] at hnone
      exact absurd hnone (Set.nonempty_iff_ne_empty.mp hne)

/-- A full disk is reported unless a block number has been asked for and there is no free block. -/
theorem file_get_block_iff (h : FileOk s.mem f) (i : ℕ) : GetBlockExact s f i ↔ BlockReady s.mem f i := by
  unfold BlockReady
  rcases h.slot_cases i with hlarge | ⟨slot, hslot⟩ | hneeds
  · refine iff_of_true ⟨_, s, fileGetBlock_inval hlarge, nofun, ?_⟩ (Or.inl hlarge)
    rintro (⟨slot, hslot, -, -⟩ | ⟨hneeds, -⟩)
    · rw [slotAt_large hlarge] at hslot
      cases hslot
    · exact absurd hneeds.2.1 (Nat.not_lt.mpr hlarge)
  · rw [getBlockExact_slot h hslot]
    constructor
    · exact fun hready => Or.inr (Or.inl ⟨slot, hslot, hready⟩)
    · rintro (hlarge | ⟨slot', hslot', hready⟩ | ⟨hneeds, -⟩)
      · rw [slotAt_large hlarge] at hslot
        cases hslot
      · obtain rfl := Option.some.inj (hslot.symm.trans hslot')
        exact hready
      · rw [hneeds.slotAt_none] at hslot
        cases hslot
  · rw [getBlockExact_indirect h hneeds]
    constructor
    · exact fun hready => Or.inr (Or.inr ⟨hneeds, hready⟩)
    · rintro (hlarge | ⟨slot, hslot, -⟩ | ⟨-, hready⟩)
      · exact absurd hneeds.2.1 (Nat.not_lt.mpr hlarge)
      · rw [hneeds.slotAt_none] at hslot
        cases hslot
      · exact hready

/-- A disk with one block of the bitmap. -/
theorem GoodSuper.of_small {m : ByteMem} {n : ℕ} (hn : nblocksIn m = n) (hlow : 2 < n) (hhigh : n ≤ blkbitsize)
    (hsuper : freeBit m 1 = false) (hbitmap : freeBit m 2 = false) : GoodSuper m := by
  subst hn
  refine ⟨hhigh.trans (by decide), ⟨Nat.le_refl 1, by omega, hsuper⟩, fun i hi => ?_⟩
  obtain rfl : i = 0 := by
    by_contra hne
    have hle := Nat.le_mul_of_pos_left blkbitsize (Nat.pos_of_ne_zero hne)
    omega
  exact ⟨by decide, hlow, hbitmap⟩

theorem rootFs_words : nblocksIn (rootFs 0#32).mem = 8 ∧ fIndirect (rootFs 0#32).mem rootAddr = 0#32 ∧
    ∀ b < 3, freeBit (rootFs 0#32).mem b = false := by
  decide +kernel

/-- The root directory of a disk without a free block. -/
theorem fileOk_rootFs : FileOk (rootFs 0#32).mem rootAddr := by
  obtain ⟨hn, hind, hbits⟩ := rootFs_words
  have hgood := GoodSuper.of_small hn (by decide) (by decide) (hbits 1 (by decide)) (hbits 2 (by decide))
  exact ⟨hgood, hbits 0 (by decide), Or.inl rfl, fun hne => absurd hind hne⟩

theorem file_get_block_root : GetBlockExact (rootFs 0#32) rootAddr 0 ↔ BlockReady (rootFs 0#32).mem rootAddr 0 :=
  file_get_block_iff fileOk_rootFs 0

/-- The root directory has no third block, and none is free. -/
theorem file_get_block_panics : FileOk (rootFs 0#32).mem rootAddr ∧ ¬ GetBlockExact (rootFs 0#32) rootAddr 2 := by
  refine ⟨fileOk_rootFs, ?_⟩
  rintro ⟨r, s', hrun, -⟩
  have hhalt : (fileGetBlock rootAddr 2 (rootFs 0#32)).returns = false := by decide +kernel
  rw [hrun] at hhalt
  cases hhalt

end Exact

end Sisop
