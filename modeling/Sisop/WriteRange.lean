import Sisop.CreateFile
import Sisop.FileSizes

/-! The blocks that `file_write` finds or adds, one after the other, and what is left of the free ones. -/
namespace Sisop

/-- A block in use that has neither the file nor the numbers of its blocks. -/
structure OwnBlock (m : ByteMem) (f : Word) (n : ℕ) : Prop where
  data : DataBlock m n
  home : n ≠ blockOf f
  indirect : fIndirect m f ≠ 0#32 → n ≠ (fIndirect m f).toNat

/-- The number that is found for block `i` of a file is that of such a block. -/
def HasBlock (m : ByteMem) (f : Word) (i n : ℕ) : Prop :=
  ∃ slot, slotAt m f i = some slot ∧ (loadWord m slot).toNat = n ∧ OwnBlock m f n

def NoBlock (m : ByteMem) (f : Word) (i : ℕ) : Prop :=
  (∃ slot, slotAt m f i = some slot ∧ loadWord m slot = 0#32) ∨ NeedsIndirect m f i

/-- The blocks `lo` to `hi` of a file. Those past the direct ones are there, but for the first
of them if it is the last of all. -/
structure RangeOk (m : ByteMem) (f : Word) (lo hi : ℕ) : Prop where
  ok : FileOk m f
  blocks : ∀ i, lo ≤ i → i ≤ hi → i < ndirect + nindirect →
    (∃ n, HasBlock m f i n) ∨ NoBlock m f i ∧ (i < ndirect ∨ hi = ndirect)

/-- The words of the bitmap that have a free block. -/
def freeWords (m : ByteMem) : Finset ℕ := ({b ∈ Finset.range (nblocksIn m) | freeBit m b = true}).image (· / 32)

/-- The direct blocks from `lo` on that a file does not have. -/
def holes (m : ByteMem) (f : Word) (lo : ℕ) : ℕ :=
  (List.range' lo (ndirect - lo)).countP fun i => loadWord m (fDirectAddr f i) = 0#32

section Counts

variable {m m' : ByteMem} {f : Word} {b w i : ℕ}

theorem mem_freeWords : w ∈ freeWords m ↔ ∃ b ∈ freeSet m, b / 32 = w := by
  unfold freeWords
  rw [Finset.mem_image]
  simp only [Finset.mem_filter, Finset.mem_range, mem_freeSet]

theorem freeWords_congr (h : freeSet m' = freeSet m) : freeWords m' = freeWords m := by
  ext w
  rw [mem_freeWords, mem_freeWords, h]

theorem freeWords_empty : (freeWords m).card = 0 ↔ freeSet m = ∅ := by
  rw [Finset.card_eq_zero, Finset.eq_empty_iff_forall_notMem, Set.eq_empty_iff_forall_notMem]
  constructor
  · exact fun h b hb => h (b / 32) (mem_freeWords.mpr ⟨b, hb, rfl⟩)
  · intro h w hw
    obtain ⟨b, hb, -⟩ := mem_freeWords.mp hw
    exact h b hb

/-- `alloc_block` takes the whole word of the block. -/
theorem freeWords_taken (hb : b ∈ freeSet m) (h : freeSet m' = {c ∈ freeSet m | c / 32 ≠ b / 32}) :
    (freeWords m).card = (freeWords m').card + 1 := by
  have hword : b / 32 ∈ freeWords m := mem_freeWords.mpr ⟨b, hb, rfl⟩
  have herase : freeWords m' = (freeWords m).erase (b / 32) := by
    ext w
    rw [Finset.mem_erase, mem_freeWords, mem_freeWords, h]
    constructor
    · rintro ⟨c, ⟨hc, hne⟩, rfl⟩
      exact ⟨hne, c, hc, rfl⟩
    · rintro ⟨hne, c, hc, rfl⟩
      exact ⟨c, ⟨hc, hne⟩, rfl⟩
  rw [herase, Finset.card_erase_of_mem hword]
  have hpos := Finset.card_pos.mpr ⟨_, hword⟩
  omega

theorem holes_succ (hi : i < ndirect) :
    holes m f i = holes m f (i + 1) + if loadWord m (fDirectAddr f i) = 0#32 then 1 else 0 := by
  unfold holes
  obtain ⟨k, hk⟩ := Nat.exists_eq_add_of_lt hi
  have hlen : ndirect - i = ndirect - (i + 1) + 1 := by omega
  rw [hlen, List.range'_succ, List.countP_cons]
  simp only [decide_eq_true_eq]

theorem holes_end (hi : ndirect ≤ i) : holes m f i = 0 := by
  unfold holes
  rw [Nat.sub_eq_zero_of_le hi]
  rfl

theorem holes_congr (h : ∀ j, i ≤ j → j < ndirect → loadWord m' (fDirectAddr f j) = loadWord m (fDirectAddr f j)) :
    holes m' f i = holes m f i := by
  unfold holes
  apply List.countP_congr
  intro j hj
  rw [List.mem_range'_1] at hj
  rw [h j hj.1 (by omega)]

end Counts

section Range

variable {m m' : ByteMem} {f slot : Word} {lo lo' hi i b n : ℕ}

theorem OwnBlock.congr (h : OwnBlock m f n) (hn : nblocksIn m' = nblocksIn m) (hind : fIndirect m' f = fIndirect m f)
    (hbits : ∀ b < nblocksIn m, freeBit m b = false → freeBit m' b = false) : OwnBlock m' f n :=
  ⟨h.data.congr hn (hbits n h.data.lt h.data.used), h.home, by rw [hind]; exact h.indirect⟩

/-- The blocks are there as long as their numbers are where they were. -/
theorem RangeOk.congr (h : RangeOk m f lo hi) (hlo : lo ≤ lo') (hn : nblocksIn m' = nblocksIn m)
    (hind : fIndirect m' f = fIndirect m f) (hbits : ∀ b < nblocksIn m, freeBit m b = false → freeBit m' b = false)
    (hslots : ∀ i slot, lo' ≤ i → i ≤ hi → slotAt m f i = some slot → loadWord m' slot = loadWord m slot) :
    RangeOk m' f lo' hi := by
  refine ⟨h.ok.congr hn hind hbits, fun i hi₁ hi₂ hlt => ?_⟩
  have hslot : slotAt m' f i = slotAt m f i := slotAt_congr hn hind
  refine (h.blocks i (Nat.le_trans hlo hi₁) hi₂ hlt).imp ?_ (And.imp_left (Or.imp ?_ fun hneeds => ?_))
  · rintro ⟨n, slot, hs, hno, hown⟩
    exact ⟨n, slot, hslot.trans hs, by rw [hslots i slot hi₁ hi₂ hs]; exact hno, hown.congr hn hind hbits⟩
  · rintro ⟨slot, hs, hz⟩
    exact ⟨slot, hslot.trans hs, (hslots i slot hi₁ hi₂ hs).trans hz⟩
  · exact ⟨hneeds.1, hneeds.2.1, hind.trans hneeds.2.2⟩

/-- The place for a number is in none of the blocks for data. -/
theorem OwnBlock.slot_byte (h : OwnBlock m f n) (hf : FileOk m f) (hslot : slotAt m f i = some slot) {l : ℕ} (hl : l < 4) :
    blockOf (slot + BitVec.ofNat 32 l) ≠ n := by
  obtain ⟨-, hlo, hhi, -, hbound⟩ := hf.home
  obtain ⟨hi, haddr⟩ | ⟨-, hind, -, hdata, hstart, hend⟩ := hf.slot_area hslot
  · change i < 10 at hi
    have hval : (slot + BitVec.ofNat 32 l).toNat = 0x10000000 + (f.toNat + (136 + 4 * i) + l - 0x10000000) := by bv_omega
    rw [blockOf_of_toNat hval]
    have hne := h.home
    omega
  · have hdisk : (fIndirect m f).toNat < 0xC0000 := Nat.lt_of_lt_of_le hdata.lt hf.good.size
    have hval : (slot + BitVec.ofNat 32 l).toNat = 0x10000000 + (slot.toNat + l - 0x10000000) := by bv_omega
    rw [blockOf_of_toNat hval]
    have hne := h.indirect hind
    omega

/-- What stays the same when data is written in a block of the file. -/
structure FileKept (m m' : ByteMem) (f : Word) : Prop where
  size : fSize m' f = fSize m f
  indirect : fIndirect m' f = fIndirect m f
  direct : ∀ i < ndirect, loadWord m' (fDirectAddr f i) = loadWord m (fDirectAddr f i)
  nblocks : nblocksIn m' = nblocksIn m
  bits : ∀ b < nblocksIn m, freeBit m' b = freeBit m b

theorem OwnBlock.written (h : OwnBlock m f n) (hf : FileOk m f) (hm : ∀ x, blockOf x ≠ n → m' x = m x) : FileKept m m' f := by
  have hdisk := Nat.lt_of_lt_of_le h.data.lt hf.good.size
  have hstart := h.data.start
  have hword (k : ℕ) (hk : k + 4 ≤ 256) : loadWord m' (f + BitVec.ofNat 32 k) = loadWord m (f + BitVec.ofNat 32 k) := by
    apply loadWord_file
    intro j hlo hhi
    obtain ⟨-, hblock, -⟩ := hf.byte (show j < 256 by omega)
    apply hm
    rw [hblock]
    exact h.home.symm
  have hsame : SameOutside m m' (0x10000000 + n * 4096) 4096 := by
    intro x hx
    apply hm
    intro hblock
    have haddr := toNat_of_blockOf hdisk hblock
    omega
  have hn : nblocksIn m' = nblocksIn m := by
    apply nblocksIn_same hsame
    unfold dataStart at hstart
    omega
  exact ⟨hword 128 (by decide), hword 176 (by decide), fun i hi => hword (136 + 4 * i) (by change i < 10 at hi; omega), hn,
    fun b hb => freeBit_same hsame (Or.inr (by omega)) hb⟩

theorem FileKept.free (h : FileKept m m' f) : freeSet m' = freeSet m := by
  ext b
  rw [mem_freeSet, mem_freeSet, h.nblocks]
  exact and_congr_right fun hb => by rw [h.bits b hb]

theorem FileKept.words (h : FileKept m m' f) : freeWords m' = freeWords m := freeWords_congr h.free

theorem FileKept.holes (h : FileKept m m' f) : holes m' f i = holes m f i := holes_congr fun j _ hj => h.direct j hj

theorem RangeOk.written (h : RangeOk m f lo hi) (hn : OwnBlock m f n) (hm : ∀ x, blockOf x ≠ n → m' x = m x) :
    RangeOk m' f lo hi := by
  have hw := hn.written h.ok hm
  refine h.congr (Nat.le_refl lo) hw.nblocks hw.indirect (fun b hb hold => (hw.bits b hb).trans hold) ?_
  intro i slot _ _ hslot
  apply loadWord_congr
  intro l hl
  exact hm _ (hn.slot_byte h.ok hslot hl)

/-- A slot of the file gets a free block. -/
theorem FileOk.slot_taken (h : FileOk m f) (hslot : slotAt m f i = some slot) (hb : b ∈ freeSet m) :
    nblocksIn (slotMem m slot b) = nblocksIn m ∧ fIndirect (slotMem m slot b) f = fIndirect m f ∧
      fSize (slotMem m slot b) f = fSize m f ∧
      (∀ c < nblocksIn m, freeBit (slotMem m slot b) c = if c / 32 = b / 32 then false else freeBit m c) ∧
      OwnBlock (slotMem m slot b) f b := by
  obtain ⟨hn, hind, hbits⟩ := h.taken hb
  have hslot' : slotAt (takeMem m b) f i = some slot := (slotAt_congr hn hind).trans hslot
  obtain ⟨hn', hind', hbits'⟩ := (h.take hb).slot_stored hslot' (BitVec.ofNat 32 b)
  have hbit (c : ℕ) (hc : c < nblocksIn m) :
      freeBit (slotMem m slot b) c = if c / 32 = b / 32 then false else freeBit m c :=
    (hbits' c (hn.symm ▸ hc)).trans (hbits c hc)
  have hlt := lt_of_free hb
  have hcount : nblocksIn (slotMem m slot b) = nblocksIn m := hn'.trans hn
  obtain ⟨-, hlo, hhi, -, hbound⟩ := h.home
  refine ⟨hcount, hind'.trans hind, ?_, hbit, ?_, (h.block_free hb).symm, fun hne heq => ?_⟩
  · apply loadWord_file
    intro j hjlo hjhi
    obtain ⟨haddr, -, hbitmap⟩ := h.byte (show j < 256 by omega)
    apply slotMem_byte h hb hslot hbitmap
    obtain ⟨-, hval⟩ | ⟨-, -, hother, -, hstart, hend⟩ := h.slot_area hslot
    · omega
    · omega
  · refine ⟨?_, ?_, ?_⟩
    · rw [dataStart_congr hcount]
      exact h.good.free_start h.zero hb
    · rw [hcount]
      exact hlt
    · rw [hbit b hlt, if_pos rfl]
  · -- an indirect block is in use, and this one was free
    have hind'' : fIndirect (slotMem m slot b) f = fIndirect m f := hind'.trans hind
    rw [hind''] at hne heq
    have hused := (h.indirect hne).1.used
    rw [← heq, (mem_freeSet.mp hb).2] at hused
    cases hused

theorem FileOk.slot_filled_ok (h : FileOk m f) (hslot : slotAt m f i = some slot) (hb : b ∈ freeSet m) :
    FileOk (slotMem m slot b) f := by
  obtain ⟨hn, hind, -, hbits, -⟩ := h.slot_taken hslot hb
  refine h.congr hn hind fun c hc hold => ?_
  rw [hbits c hc, hold, ite_self]

/-- A direct block is added. The blocks behind it stay the same. -/
theorem RangeOk.taken (h : RangeOk m f i hi) (hlt : i < ndirect) (hb : b ∈ freeSet m) :
    RangeOk (slotMem m (fDirectAddr f i) b) f (i + 1) hi ∧
      (∀ j < ndirect, j ≠ i → loadWord (slotMem m (fDirectAddr f i) b) (fDirectAddr f j) = loadWord m (fDirectAddr f j)) ∧
      freeSet (slotMem m (fDirectAddr f i) b) = {c ∈ freeSet m | c / 32 ≠ b / 32} := by
  have hslot : slotAt m f i = some (fDirectAddr f i) := by
    unfold slotAt
    rw [if_pos hlt]
  obtain ⟨hn, hind, -, hbits, -⟩ := h.ok.slot_taken hslot hb
  obtain ⟨-, hlo, hhi, -, hbound⟩ := h.ok.home
  have haddr := fDirectAddr_toNat hbound hlt
  have hdirect (j : ℕ) (hj : j < ndirect) (hne : j ≠ i) :
      loadWord (slotMem m (fDirectAddr f i) b) (fDirectAddr f j) = loadWord m (fDirectAddr f j) := by
    change j < 10 at hj
    apply loadWord_file
    intro k hklo hkhi
    obtain ⟨hval, -, hbitmap⟩ := h.ok.byte (show k < 256 by omega)
    apply slotMem_byte h.ok hb hslot hbitmap
    omega
  refine ⟨h.congr (Nat.le_succ i) hn hind (fun c hc hold => ?_) ?_, hdirect, ?_⟩
  · rw [hbits c hc, hold, ite_self]
  · intro j slot hj _ hs
    obtain ⟨hjd, -⟩ | ⟨hjn, hne, hother, hdata, hstart, hend⟩ := h.ok.slot_area hs
    · unfold slotAt at hs
      rw [if_pos hjd] at hs
      obtain rfl := Option.some.inj hs
      exact hdirect j hjd (by omega)
    · -- the indirect block is another one than that of the file
      have hdstart := hdata.start
      have hdisk := Nat.lt_of_lt_of_le hdata.lt h.ok.good.size
      change _ < 0xC0000 at hdisk
      change i < 10 at hlt
      apply loadWord_congr
      intro l hl
      have hval : (slot + BitVec.ofNat 32 l).toNat = 0x10000000 + (slot.toNat + l - 0x10000000) := by bv_omega
      have hblock := blockOf_of_toNat hval
      apply slotMem_byte h.ok hb hslot
      · rw [hblock]
        omega
      · omega
  · ext c
    change _ ↔ c ∈ freeSet m ∧ _
    rw [mem_freeSet, mem_freeSet, hn, and_assoc]
    refine and_congr_right fun hc => ?_
    rw [hbits c hc]
    split_ifs with hsame
    · exact ⟨nofun, fun hno => absurd hsame hno.2⟩
    · exact ⟨fun hfree => ⟨hfree, hsame⟩, fun hfree => hfree.1⟩

end Range

section Got

variable {s s' : Fs} {f slot : Word} {r : Except FsErr Word} {lo hi i b n : ℕ}

/-- What a `file_get_block` that returns has done for block `i` of the blocks up to `hi`. -/
inductive BlockGot (s : Fs) (f : Word) (i hi : ℕ) : Except FsErr Word → Fs → Prop where
  | found {n : ℕ} (hn : HasBlock s.mem f i n) : BlockGot s f i hi (.ok (blockAddr n)) s
  | taken {b : ℕ} {s' : Fs} (hlt : i < ndirect) (hz : loadWord s.mem (fDirectAddr f i) = 0#32) (hb : b ∈ freeSet s.mem)
      (hmem : s'.mem = slotMem s.mem (fDirectAddr f i) b) : BlockGot s f i hi (.ok (blockAddr b)) s'
  | last {b : ℕ} {s' : Fs} (hfirst : i = ndirect) (hend : hi = ndirect) (hfree : (freeSet s.mem).Nonempty)
      (hok : FileOk s'.mem f) (hown : OwnBlock s'.mem f b) (hsize : fSize s'.mem f = fSize s.mem f) :
      BlockGot s f i hi (.ok (blockAddr b)) s'
  | large (hlarge : ndirect + nindirect ≤ i) : BlockGot s f i hi (.error .inval) s
  | full (hneeds : NeedsIndirect s.mem f i) (hend : hi = ndirect) (hfree : freeSet s.mem = ∅) :
      BlockGot s f i hi (.error .noDisk) s

/-- The slot of the last block is there. -/
theorem getSlot_got (h : FileOk s.mem f) (hslot : slotAt s.mem f i = some slot) (hz : loadWord s.mem slot = 0#32)
    (hrun : getSlot slot s = .ret r s') : ∃ b ∈ freeSet s.mem, r = .ok (blockAddr b) ∧ s'.mem = slotMem s.mem slot b := by
  by_cases hfull : freeSet s.mem = ∅
  · rw [getSlot_full h hslot hz hfull] at hrun
    cases hrun
  · obtain ⟨b, hb⟩ := exists_least (Set.nonempty_iff_ne_empty.mpr hfull)
    obtain ⟨t, hget, hmem⟩ := getSlot_room h hslot hz hb
    obtain ⟨rfl, rfl⟩ := Outcome.ret.inj (hrun.symm.trans hget)
    exact ⟨b, hb.1, rfl, hmem⟩

/-- An indirect block is taken, in which nothing of the file is. -/
theorem FileOk.indirect_size {m : ByteMem} {c : ℕ} (h : FileOk m f) (hc : c ∈ freeSet m) : fSize (indirectMem m f c) f = fSize m f := by
  apply loadWord_file
  intro j hlo hhi
  obtain ⟨haddr, hblock, hbit⟩ := h.byte (show j < 256 by omega)
  apply indirectMem_byte h hc hbit (by omega)
  rw [hblock]
  exact h.block_free hc

theorem RangeOk.getBlock (h : RangeOk s.mem f i hi) (hle : i ≤ hi) (hrun : fileGetBlock f i s = .ret r s') :
    BlockGot s f i hi r s' := by
  by_cases hlarge : ndirect + nindirect ≤ i
  · rw [fileGetBlock_inval hlarge] at hrun
    obtain ⟨rfl, rfl⟩ := Outcome.ret.inj hrun
    exact .large hlarge
  obtain ⟨n, slot, hslot, hno, hown⟩ | ⟨⟨slot, hslot, hz⟩ | hneeds, hlast⟩ := h.blocks i (Nat.le_refl i) hle (Nat.lt_of_not_le hlarge)
  · have hne : loadWord s.mem slot ≠ 0#32 := by
      intro hz
      have hstart := hown.data.start
      rw [← hno, hz] at hstart
      unfold dataStart at hstart
      change _ ≤ 0 at hstart
      omega
    have hblock := slotBlock_run hne (by rw [hno]; exact hown.data.lt)
    rw [fileGetBlock_slot hslot] at hrun
    unfold getSlot at hrun
    rw [Routine.bind_ret (Routine.get_run s), if_pos hne, hblock, hno] at hrun
    obtain ⟨rfl, rfl⟩ := Outcome.ret.inj hrun
    exact .found ⟨slot, hslot, hno, hown⟩
  · rw [fileGetBlock_slot hslot] at hrun
    obtain ⟨b, hb, rfl, hmem⟩ := getSlot_got h.ok hslot hz hrun
    by_cases hdir : i < ndirect
    · unfold slotAt at hslot
      rw [if_pos hdir] at hslot
      obtain rfl := Option.some.inj hslot
      exact .taken hdir hz hb hmem
    · obtain rfl := hlast.resolve_left hdir
      obtain ⟨-, -, hsize, -, hown⟩ := h.ok.slot_taken hslot hb
      refine .last (Nat.le_antisymm hle (Nat.le_of_not_lt hdir)) rfl ⟨b, hb⟩ ?_ ?_ ?_
      · rw [hmem]
        exact h.ok.slot_filled_ok hslot hb
      · rw [hmem]
        exact hown
      · rw [hmem]
        exact hsize
  · obtain rfl := hlast.resolve_left (Nat.not_lt.mpr hneeds.1)
    by_cases hfull : freeSet s.mem = ∅
    · rw [fileGetBlock_full hneeds hfull] at hrun
      obtain ⟨rfl, rfl⟩ := Outcome.ret.inj hrun
      exact .full hneeds rfl hfull
    · obtain ⟨c, hc⟩ := exists_least (Set.nonempty_iff_ne_empty.mpr hfull)
      obtain ⟨t, slot, hmem, hslot, hz, hget⟩ := fileGetBlock_indirect h.ok hneeds hc
      have hok : FileOk t.mem f := by
        rw [hmem]
        exact (h.ok.indirect_filled hc.1).1
      rw [hget] at hrun
      obtain ⟨b, hb, rfl, hmem'⟩ := getSlot_got hok hslot hz hrun
      obtain ⟨-, -, hsize, -, hown⟩ := hok.slot_taken hslot hb
      refine .last (Nat.le_antisymm hle hneeds.1) rfl ⟨c, hc.1⟩ ?_ ?_ ?_
      · rw [hmem']
        exact hok.slot_filled_ok hslot hb
      · rw [hmem']
        exact hown
      · rw [hmem', hsize, hmem]
        exact h.ok.indirect_size hc.1

end Got

end Sisop
