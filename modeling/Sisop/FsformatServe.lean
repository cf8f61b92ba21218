import Sisop.FileBlocks
import Sisop.FsformatClean

/-! The file server on an image that `fsformat` has made. -/
namespace Sisop

/-- The file server when it starts with an image. -/
def served (m : Bytes) : Fs :=
  ⟨fun va => m (va.toNat - 0x10000000), fun va => m (va.toNat - 0x10000000), fun _ => false⟩

/-- Where the file server has the byte `a` of the image. -/
def servedAddr (a : ℕ) : Word := diskmap + BitVec.ofNat 32 a

/-- `file_block_walk` finds the number of the block with the part `b` of the file `f`. -/
def FindsBlock (m : Bytes) (f b : ℕ) : Prop := ∃ slot,
  fileBlockWalk (servedAddr f) b false (served m) = .ret (.ok slot) (served m) ∧
    (loadWord (served m).mem slot).toNat = fileBlock m f b

/-- The file server finds the first eleven blocks of a file, and reads a file that has no more. -/
structure Serves (m : Bytes) (f : ℕ) (file : InputFile) : Prop where
  finds : ∀ b < file.blocks, FindsBlock m f b ↔ b ≤ ndirect
  reads : file.blocks ≤ ndirect + 1 → ∀ offset count : Word, offset.toNat + count.toNat < 2^31 → ∃ s',
    fileRead fileGetBlock (servedAddr f) count offset (served m) =
      .ret (.ok ((file.data.drop offset.toNat).take count.toNat)) s'

/-- The word at `slot` is one of the block numbers of the file node `f`. -/
def SlotInNode (f : ℕ) (slot : Word) : Prop := 0x10000000 + f + 136 ≤ slot.toNat ∧ slot.toNat + 4 ≤ 0x10000000 + f + 180

/-- The word at `slot` is in the block `b`. -/
def SlotInBlock (b : ℕ) (slot : Word) : Prop :=
  0x10000000 + 4096 * b ≤ slot.toNat ∧ slot.toNat + 4 ≤ 0x10000000 + 4096 * (b + 1)

/-- The number of blocks of the disk, and the first `n` slots of the file `f` with what is in them. -/
structure SameSlots (f : Word) (n : ℕ) (m m' : ByteMem) : Prop where
  nblocks : nblocksIn m' = nblocksIn m
  indirect : fIndirect m' f = fIndirect m f
  words : ∀ b < n, ∀ slot, slotAt m f b = some slot → loadWord m' slot = loadWord m slot

theorem SameSlots.blockAt {f : Word} {n b : ℕ} {m m' : ByteMem} (h : SameSlots f n m m') (hb : b < n) :
    blockAt m' f b = blockAt m f b := by
  have hslot := slotAt_congr (i := b) h.nblocks h.indirect
  unfold Sisop.blockAt
  cases heq : slotAt m f b with
  | none =>
    rw [hslot, heq]
    rfl
  | some slot =>
    rw [hslot, heq]
    dsimp only [bind, Option.bind]
    rw [h.words b hb slot heq, h.nblocks]

section Served

variable {m : Bytes} {a b q x : ℕ} {va : Word}

theorem servedAddr_toNat (ha : a < 2^31) : (servedAddr a).toNat = 0x10000000 + a := by
  unfold servedAddr
  rw [BitVec.toNat_add, BitVec.toNat_ofNat]
  change (0x10000000 + a % 2^32) % 2^32 = _
  omega

theorem served_mem (m : Bytes) (va : Word) : (served m).mem va = m (va.toNat - 0x10000000) := rfl

theorem served_loadWord (hva : va.toNat = 0x10000000 + a) (ha : a < 2^31) :
    loadWord (served m).mem va = getWord m a := by
  have hbyte (i : ℕ) (hi : i < 4) : (served m).mem (va + BitVec.ofNat 32 i) = m (a + i) := by
    have haddr : (va + BitVec.ofNat 32 i).toNat - 0x10000000 = a + i := by bv_omega
    rw [served_mem, haddr]
  have h0 : (served m).mem va = m a := by
    rw [served_mem, hva, Nat.add_sub_cancel_left]
  unfold loadWord getWord
  rw [hbyte 3 (by decide), hbyte 2 (by decide), hbyte 1 (by decide), h0]

end Served

section Image

variable {s : Format} {heap : Bytes} {b i q : ℕ} {nb : Word} {files : List InputFile}

/-- The first part of the super block stays as `opendisk` has made it. -/
theorem fsformat_nblocks (h : fsformat nb files heap = .ret () s) : getWord s.diskmap 4100 = nb := by
  obtain ⟨t, hw, h1024, hroom, hr⟩ := fsformat_stages h
  have hmost := hw.most
  have h3 : 3 ≤ startOf files files.length := le_spanStart _
  have hlow (x : ℕ) (hx : x < 12288) (hx' : x < 4232 ∨ 4280 ≤ x) :
      withRoot t.diskmap t.ents files.length (startOf files files.length) x = openedDisk nb x := by
    rw [withRoot_outside hmost hx' (by omega)]
    exact hw.low x hx
  have hclear := finishdisk_ret (s := { t with
    diskmap := withRoot t.diskmap t.ents files.length (startOf files files.length)
    diskpos := 4096 * (startOf files files.length + entryBlocks files.length) }) hw.bitmap rfl (by omega) ?_ hr
  swap
  · intro b hb
    apply (markedFree_congr (fun x hx hx' => hlow x hx' (by omega)) hb).mpr
    exact openedDisk_bits nb hb
  have hopened : getWord (openedDisk nb) 4100 = nb := by
    simp only [openedDisk]
    rw [getWord_putBytes_outside (by omega), getWord_putBytes_outside (by omega), getWord_putWords_outside (by omega),
      getWord_putWord]
  rw [← hopened]
  apply getWord_congr
  intro i hi
  rw [hclear.outside _ (by omega)]
  exact hlow _ (by omega) (by omega)

/-- The data of a file and its indirect block are in front of the root directory. -/
theorem span_le (hi : i < files.length) : startOf files i + files[i].span ≤ startOf files files.length := by
  rw [← startOf_succ hi]
  exact startOf_mono hi

section File

variable (h : Finished nb heap files s) (hi : i < files.length)
include h hi

theorem Finished.node_lt : nodeAt files i + 256 ≤ 4096 * 1024 := by
  have hroom := h.room
  have hsmall := h.small
  rw [nodeAt_file hi]
  unfold entryBlocks at hroom
  omega

theorem Finished.fileBlock_eq (hb : b < files[i].blocks) : fileBlock s.diskmap (nodeAt files i) b = startOf files i + b := by
  have hentry := h.entry i hi
  have hstored := h.stored i hi
  have hbound := hstored.bound
  have hstart : startOf files i < 1024 := lt_of_le_of_lt (startOf_mono hi.le) h.start_lt
  rw [nodeAt_file hi]
  unfold fileBlock
  by_cases h10 : b < 10
  · rw [if_pos h10, hentry.direct _ h10 hb, BitVec.toNat_ofNat]
    omega
  · have hind := hentry.indirect (by omega)
    have hcell := hstored.cells (by omega) b (by omega) hb
    rw [if_neg h10, hind, BitVec.toNat_ofNat, Nat.mod_eq_of_lt (by omega), Nat.mul_comm]
    change (getWord s.diskmap (4096 * (startOf files i + files[i].blocks) + 4 * (b - 10))).toNat = _
    rw [hcell, BitVec.toNat_ofNat]
    omega

/-- Word `j` of the indirect block, by its bytes. -/
theorem Finished.cell_toNat (hle : 10 ≤ files[i].blocks) {j : ℕ} (hj : j < 1024) :
    (getWord s.diskmap (4096 * (startOf files i + files[i].blocks) + 4 * j)).toNat =
      if j + 10 < files[i].blocks then startOf files i + 10 + j else 0 := by
  have hstored := h.stored i hi
  have hbound := hstored.bound
  have hstart : startOf files i < 1024 := lt_of_le_of_lt (startOf_mono hi.le) h.start_lt
  split_ifs with hlt
  · have hcell := hstored.cells hle (j + 10) (by omega) hlt
    rw [Nat.add_sub_cancel] at hcell
    rw [hcell, BitVec.toNat_ofNat]
    omega
  · have hrest := hstored.rest hle (j + 10) (by omega) (by omega)
    rw [Nat.add_sub_cancel] at hrest
    rw [hrest]
    rfl

/-- `q` bytes into the indirect block there is the number of block `10 + q` for `q = 0` only. -/
theorem Finished.indirect_word (hb : q + 10 < files[i].blocks) :
    (getWord s.diskmap (4096 * (startOf files i + files[i].blocks) + q)).toNat = startOf files i + (q + 10) ↔ q = 0 := by
  have hbound := (h.stored i hi).bound
  have hspan := span_le hi
  have hstart := h.start_lt
  have h3 : 3 ≤ startOf files i := le_spanStart _
  have hspan_eq : files[i].span = files[i].blocks + 1 := by
    unfold InputFile.span
    rw [if_pos (by omega)]
  obtain ⟨base, hbase⟩ : ∃ base, base = 4096 * (startOf files i + files[i].blocks) := ⟨_, rfl⟩
  -- the two words that the four bytes at `q` are in
  have hcell := h.cell_toNat hi (by omega) (show q / 4 < 1024 by omega)
  have hnext := h.cell_toNat hi (by omega) (show q / 4 + 1 < 1024 by omega)
  have hword := getWord_between s.diskmap (base + 4 * (q / 4)) (Nat.mod_lt q (show 4 > 0 by decide))
  rw [← hbase] at hcell hnext ⊢
  rw [if_pos (by omega)] at hcell
  rw [show base + 4 * (q / 4) + q % 4 = base + q by omega,
    show base + 4 * (q / 4) + 4 = base + 4 * (q / 4 + 1) by omega, hcell] at hword
  rw [hword]
  generalize (getWord s.diskmap (base + 4 * (q / 4 + 1))).toNat = next at hnext
  have hsmall : next < 1024 ∧ (next = 0 ∨ startOf files i + 10 ≤ next) := by split_ifs at hnext <;> omega
  obtain hr | hr | hr | hr : q % 4 = 0 ∨ q % 4 = 1 ∨ q % 4 = 2 ∨ q % 4 = 3 := by omega
  all_goals
    rw [hr]
    simp only [Nat.reducePow, Nat.reduceSub, Nat.div_one, Nat.mod_one, Nat.mul_zero, Nat.add_zero]
  · omega
  · have hz := Nat.eq_zero_or_pos (next % 256)
    omega
  · have hz := Nat.mod_eq_of_lt (show next < 65536 by omega)
    omega
  · have hz := Nat.mod_eq_of_lt (show next < 16777216 by omega)
    omega

/-- Where the file server looks for the number of a block: in the file node or in the indirect block. -/
theorem Finished.served_slot (hnb : getWord s.diskmap 4100 = nb) (hb : b < files[i].blocks) : ∃ slot,
    slotAt (served s.diskmap).mem (servedAddr (nodeAt files i)) b = some slot ∧
      (SlotInNode (nodeAt files i) slot ∨
        10 ≤ files[i].blocks ∧ SlotInBlock (startOf files i + files[i].blocks) slot) ∧
      ((loadWord (served s.diskmap).mem slot).toNat = startOf files i + b ↔ b ≤ ndirect) := by
  have hentry := h.entry i hi
  have hbound := (h.stored i hi).bound
  have hnode := h.node_lt hi
  have hspan := span_le hi
  have hstart := h.start_lt
  have hroom := h.room
  have haddr := servedAddr_toNat (show nodeAt files i < 2^31 by omega)
  unfold slotAt
  by_cases h10 : b < 10
  · -- a direct block
    have hva : (fDirectAddr (servedAddr (nodeAt files i)) b).toNat = 0x10000000 + (nodeAt files i + 136 + 4 * b) := by
      rw [fDirectAddr_toNat (by omega) h10, haddr]
      omega
    have hin : SlotInNode (nodeAt files i) (fDirectAddr (servedAddr (nodeAt files i)) b) := by
      unfold SlotInNode
      omega
    refine ⟨_, if_pos h10, Or.inl hin, iff_of_true ?_ (show b ≤ 10 by omega)⟩
    rw [served_loadWord hva (by omega), nodeAt_file hi, hentry.direct b h10 hb, BitVec.toNat_ofNat]
    omega
  -- the slot is in the indirect block, or across its words
  obtain ⟨ind, hind⟩ : ∃ ind, ind = startOf files i + files[i].blocks := ⟨_, rfl⟩
  have hspan_eq : files[i].span = files[i].blocks + 1 := by
    unfold InputFile.span
    rw [if_pos (by omega)]
  have h3 : 3 ≤ startOf files i := le_spanStart _
  have hindirect : (fIndirect (served s.diskmap).mem (servedAddr (nodeAt files i))).toNat = ind := by
    have hva : (servedAddr (nodeAt files i) + 176#32).toNat = 0x10000000 + (nodeAt files i + 176) := by bv_omega
    unfold fIndirect fIndirectAddr
    rw [served_loadWord hva (by omega), hind, nodeAt_file hi, hentry.indirect (by omega), BitVec.toNat_ofNat]
    omega
  have hne : fIndirect (served s.diskmap).mem (servedAddr (nodeAt files i)) ≠ 0#32 := by
    intro hz
    rw [hz] at hindirect
    change 0 = ind at hindirect
    omega
  have hblocks : nblocksIn (served s.diskmap).mem = nb.toNat := by
    have hva : nblocksAddr.toNat = 0x10000000 + 4100 := by decide
    unfold nblocksIn
    rw [served_loadWord hva (by decide), hnb]
  have hva : (blockAddr ind + BitVec.ofNat 32 (b - 10)).toNat = 0x10000000 + (4096 * ind + (b - 10)) := by
    have hblock := blockAddr_toNat (show ind < 0xC0000 by omega)
    bv_omega
  have hword := h.indirect_word hi (show (b - 10) + 10 < files[i].blocks by omega)
  rw [← hind, Nat.sub_add_cancel (Nat.le_of_not_lt h10), ← served_loadWord hva (by omega)] at hword
  have hin : SlotInBlock ind (blockAddr ind + BitVec.ofNat 32 (b - 10)) := by
    unfold SlotInBlock
    omega
  refine ⟨_, (if_neg h10).trans (if_pos ⟨show b < 10 + 4096 / 4 by omega, hne, by omega⟩),
    Or.inr ⟨by omega, ?_⟩, ?_⟩
  · rw [hindirect, ← hind]
    exact hin
  · rw [hindirect, hword]
    change b - 10 = 0 ↔ b ≤ 10
    omega

theorem Finished.findsBlock_iff (hnb : getWord s.diskmap 4100 = nb) (hb : b < files[i].blocks) :
    FindsBlock s.diskmap (nodeAt files i) b ↔ b ≤ ndirect := by
  obtain ⟨slot, hslot, -, hiff⟩ := h.served_slot hi hnb hb
  have hwalk := fileBlockWalk_at hslot false
  unfold FindsBlock
  rw [← hiff, h.fileBlock_eq hi hb]
  constructor
  · rintro ⟨slot', hrun, hval⟩
    obtain ⟨heq, -⟩ := Outcome.ret.inj (hwalk.symm.trans hrun)
    obtain rfl := Except.ok.inj heq
    exact hval
  · exact fun hval => ⟨slot, hwalk, hval⟩

/-- A store to the data of the file, or to its size, leaves the slots. -/
theorem Finished.sameSlots (hnb : getWord s.diskmap 4100 = nb) {m m' : ByteMem} {lo k : ℕ}
    (hm : SameSlots (servedAddr (nodeAt files i)) files[i].blocks (served s.diskmap).mem m) (hs : SameOutside m m' lo k)
    (hlo : 0x10000000 + 4096 * startOf files i ≤ lo ∧ lo + k ≤ 0x10000000 + 4096 * (startOf files i + files[i].blocks) ∨
      lo = 0x10000000 + nodeAt files i + 128 ∧ k = 4) :
    SameSlots (servedAddr (nodeAt files i)) files[i].blocks (served s.diskmap).mem m' := by
  have hnode := h.node_lt hi
  have hspan := span_le hi
  have hbelow : 4096 * startOf files files.length ≤ nodeAt files i := by
    rw [nodeAt_file hi]
    exact Nat.le_add_right _ _
  have h3 : 3 ≤ startOf files i := le_spanStart _
  have haddr := servedAddr_toNat (show nodeAt files i < 2^31 by omega)
  have hblocks : files[i].blocks ≤ files[i].span := Nat.le_add_right _ _
  constructor
  case nblocks => exact (nblocksIn_same hs (by omega)).trans hm.nblocks
  case indirect =>
    rw [← hm.indirect]
    unfold fIndirect fIndirectAddr
    have hva : (servedAddr (nodeAt files i) + 176#32).toNat = 0x10000000 + (nodeAt files i + 176) := by bv_omega
    exact hs.loadWord (by omega) (by omega)
  case words =>
    intro b hb slot hslot
    obtain ⟨slot', hslot', hin, -⟩ := h.served_slot hi hnb hb
    obtain rfl := Option.some.inj (hslot'.symm.trans hslot)
    rw [← hm.words b hb slot' hslot]
    rcases hin with hin | ⟨hle, hin⟩
    · unfold SlotInNode at hin
      exact hs.loadWord (by omega) (by omega)
    · have hspan_eq : files[i].span = files[i].blocks + 1 := by
        unfold InputFile.span
        rw [if_pos hle]
      unfold SlotInBlock at hin
      exact hs.loadWord (by omega) (by omega)

theorem Finished.blockAt_served (hnb : getWord s.diskmap 4100 = nb) (hb : b < files[i].blocks) (hle : b ≤ ndirect) :
    blockAt (served s.diskmap).mem (servedAddr (nodeAt files i)) b = some (blockAddr (startOf files i + b)) := by
  obtain ⟨slot, hslot, -, hiff⟩ := h.served_slot hi hnb hb
  have hval := hiff.mpr hle
  have h3 : 3 ≤ startOf files i := le_spanStart _
  have hspan := span_le hi
  have hblocks : files[i].blocks ≤ files[i].span := Nat.le_add_right _ _
  have hroom := h.room
  have hne : loadWord (served s.diskmap).mem slot ≠ 0#32 := by
    intro hz
    rw [hz] at hval
    change 0 = _ at hval
    omega
  have hnblocks : nblocksIn (served s.diskmap).mem = nb.toNat := by
    have hva : nblocksAddr.toNat = 0x10000000 + 4100 := by decide
    unfold nblocksIn
    rw [served_loadWord hva (by decide), hnb]
  unfold blockAt
  rw [hslot]
  dsimp only [bind, Option.bind]
  rw [if_pos ⟨hne, by omega⟩, hval]

/-- The blocks that the file server finds, as long as no slot is changed. -/
theorem Finished.givesBlocks (hnb : getWord s.diskmap 4100 = nb) :
    GivesBlocks {servedAddr (nodeAt files i)}
      (fun g b => g = servedAddr (nodeAt files i) ∧ b < files[i].blocks ∧ b ≤ ndirect)
      (fun _ b => blockAddr (startOf files i + b)) fileGetBlock
      (fun t => SameSlots (servedAddr (nodeAt files i)) files[i].blocks (served s.diskmap).mem t.mem) := by
  have hnode := h.node_lt hi
  have hspan := span_le hi
  have hstart := h.start_lt
  have hblocks : files[i].blocks ≤ files[i].span := Nat.le_add_right _ _
  have haddr := servedAddr_toNat (show nodeAt files i < 2^31 by omega)
  constructor
  case get =>
    rintro f b t ht ⟨rfl, hb, hle⟩
    refine ⟨t, ?_, ht, fun _ _ _ _ _ => rfl, fun _ _ => rfl⟩
    exact fileGetBlock_at ((ht.blockAt hb).trans (h.blockAt_served hi hnb hb hle))
  case bytes =>
    rintro f b j bs t ht ⟨rfl, hb, hle⟩ hj
    by_cases hbs : bs = []
    · rw [hbs]
      exact ht
    have hpos := List.length_pos_of_ne_nil hbs
    have hblock := blockAddr_toNat (show startOf files i + b < 0xC0000 by omega)
    have hva : (blockAddr (startOf files i + b) + BitVec.ofNat 32 j).toNat =
        0x10000000 + (startOf files i + b) * 4096 + j := by bv_omega
    exact h.sameSlots hi hnb ht (writeBytes_sameOutside (by omega)) (Or.inl (by omega))
  case size =>
    rintro f w t rfl ht
    have hva : (fSizeAddr (servedAddr (nodeAt files i))).toNat = 0x10000000 + nodeAt files i + 128 := by
      unfold fSizeAddr
      bv_omega
    exact h.sameSlots hi hnb ht (storeWord_sameOutside (by omega)) (Or.inr ⟨hva, rfl⟩)
  case flush =>
    intro b t ht
    rwa [flush_mem]

/-- A file with few blocks is read as it was written. -/
theorem Finished.reads (hnb : getWord s.diskmap 4100 = nb) (hfew : files[i].blocks ≤ 11) {offset count : Word}
    (hroom : offset.toNat + count.toNat < 2^31) : ∃ t,
    fileRead fileGetBlock (servedAddr (nodeAt files i)) count offset (served s.diskmap) =
      .ret (.ok ((files[i].data.drop offset.toNat).take count.toNat)) t := by
  have hentry := h.entry i hi
  have hnode := h.node_lt hi
  have hspan := span_le hi
  have hstart := h.start_lt
  have hblocks : files[i].blocks ≤ files[i].span := Nat.le_add_right _ _
  have hdata := data_le_blocks files[i]
  have haddr := servedAddr_toNat (show nodeAt files i < 2^31 by omega)
  have hsize : fSize (served s.diskmap).mem (servedAddr (nodeAt files i)) = BitVec.ofNat 32 files[i].data.length := by
    have hva : (fSizeAddr (servedAddr (nodeAt files i))).toNat = 0x10000000 + (nodeAt files i + 128) := by
      unfold fSizeAddr
      bv_omega
    unfold fSize
    rw [served_loadWord hva (by omega), nodeAt_file hi, hentry.size]
  have hnat : (BitVec.ofNat 32 files[i].data.length).toNat = files[i].data.length := by
    rw [BitVec.toNat_ofNat]
    omega
  have hint : (BitVec.ofNat 32 files[i].data.length).toInt = (files[i].data.length : ℤ) := by
    rw [BitVec.toInt_eq_toNat_of_lt (by omega), hnat]
  have hused (k : ℕ) (hlt : offset.toNat + k < (fSize (served s.diskmap).mem (servedAddr (nodeAt files i))).toNat) :
      (offset.toNat + k) / 4096 < files[i].blocks ∧ (offset.toNat + k) / 4096 ≤ 10 := by
    rw [hsize, hnat] at hlt
    omega
  obtain ⟨bytes, t, hrun, hread⟩ := fileRead_within (s := served s.diskmap) (h.givesBlocks hi hnb)
    ⟨rfl, rfl, fun _ _ _ _ => rfl⟩ hroom fun k _ hlt => ⟨rfl, hused k hlt⟩
  have hlen := hread.length
  rw [hsize, hint] at hlen
  refine ⟨t, ?_⟩
  rw [hrun]
  congr 2
  apply List.ext_getElem
  · rw [List.length_take, List.length_drop]
    omega
  intro k hk hk'
  rw [List.length_take, List.length_drop] at hk'
  rw [hread.data k hk, List.getElem_take, List.getElem_drop, ← (h.stored i hi).data (offset.toNat + k) (by omega)]
  have hblock := blockAddr_toNat (show startOf files i + (offset.toNat + k) / 4096 < 0xC0000 by omega)
  have hva : (blockAddr (startOf files i + (offset.toNat + k) / 4096) +
      BitVec.ofNat 32 ((offset.toNat + k) % 4096)).toNat - 0x10000000 = 4096 * startOf files i + (offset.toNat + k) := by
    bv_omega
  rw [fileByte, served_mem, hva]

end File

theorem fsformat_serves (h : fsformat nb files heap = .ret () s) :
    List.Forall₂ (Serves s.diskmap) (rootFiles s.diskmap) files := by
  have hf := fsformat_ret h
  have hnb := fsformat_nblocks h
  rw [hf.rootFiles_eq, List.forall₂_iff_get]
  refine ⟨by rw [List.length_map, List.length_range], fun i hi hi' => ?_⟩
  simp only [List.get_eq_getElem, List.getElem_map, List.getElem_range]
  rw [← nodeAt_file hi']
  constructor
  · exact fun b hb => hf.findsBlock_iff hi' hnb hb
  · exact fun hfew offset count hroom => hf.reads hi' hnb hfew hroom

/-- Three files, one of them empty. -/
theorem fsformat_small_serves :
    ∃ s empty last, empty.data = [] ∧ last.data = [4#8] ∧
      fsformat 7#32 [smallFile, empty, last] (fun _ => 0#8) = .ret () s ∧
      List.Forall₂ (Serves s.diskmap) (rootFiles s.diskmap) [smallFile, empty, last] := by
  obtain ⟨empty, hempty⟩ : ∃ f : InputFile, f = ⟨[0x63#8], [], by decide⟩ := ⟨_, rfl⟩
  obtain ⟨last, hlast⟩ : ∃ f : InputFile, f = ⟨[0x64#8], [4#8], by decide⟩ := ⟨_, rfl⟩
  have hreturns : (fsformat 7#32 [smallFile, empty, last] fun _ => 0#8).returns = true := by
    rw [hempty, hlast]
    decide +kernel
  obtain ⟨_, s, hs⟩ := Outcome.returns_iff.mp hreturns
  exact ⟨s, empty, last, by rw [hempty], by rw [hlast], hs, fsformat_serves hs⟩

end Image
end Sisop
