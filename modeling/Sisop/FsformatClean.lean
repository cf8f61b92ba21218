import Sisop.FsformatSlots

/-! When the image of `fsformat` is consistent. -/
namespace Sisop

section Clean

variable {s : Format} {heap : Bytes} {a b i j k v e : ℕ} {nb w : Word} {files : List InputFile}

/-- What a slot has to be in a consistent image. -/
def GoodSlot (s : Format) (a : ℕ) : Prop :=
  getWord s.diskmap a = 0#32 ∨ getWord s.diskmap a < s.nblocks ∧
    (∀ a', BlockSlot s.diskmap a' → getWord s.diskmap a' = getWord s.diskmap a → a' = a) ∧
    ¬ MarkedFree s.diskmap (getWord s.diskmap a).toNat

section Finished

variable (h : Finished nb heap files s)
include h

/-- The blocks of the files are before the end. -/
theorem Finished.block_lt (hne : files ≠ []) (hi : i ≤ files.length) (hk : k < spanAt files i) :
    startOf files i + k < startOf files files.length + entryBlocks files.length := by
  have hR := rootBlocks_le h.most
  rcases Nat.lt_or_eq_of_le hi with hlt | rfl
  · rw [spanAt_file hlt] at hk
    have hd := startOf_disjoint hlt hlt
    omega
  · have hroot : rootBlocks files.length = entryBlocks files.length := if_neg (mt List.length_eq_zero_iff.mp hne)
    rw [spanAt, blocksAt_root, if_neg (by omega), Nat.add_zero, hroot] at hk
    omega

theorem Finished.slotOf_toNat (hne : files ≠ []) (hi : i ≤ files.length) (hk : k < spanAt files i) :
    (getWord s.diskmap (slotOf files i k)).toNat = startOf files i + k := by
  have hlt := h.block_lt hne hi hk
  have hroom := h.room
  have hsmall := h.small
  rw [(h.slotOf_value hi hk).2, BitVec.toNat_ofNat]
  omega

theorem Finished.used_iff (hb : b < 1024) :
    ¬ MarkedFree s.diskmap b ↔ b < startOf files files.length + entryBlocks files.length := by
  rw [h.bits b (by omega), Nat.not_le]

/-- Block numbers that were not written are the words from `malloc`. -/
theorem Finished.spareDirect (hnames : ∀ file ∈ files, file.last.length < 128) (he : SpareDirect files e) :
    BlockSlot s.diskmap (4096 * startOf files files.length + e) ∧
      getWord s.diskmap (4096 * startOf files files.length + e) = getWord heap e := by
  obtain ⟨i, k, hi, hle, hk, rfl⟩ := he
  have hnode := h.mem_rootFiles.mpr ⟨i, hi.le, rfl⟩
  rw [nodeAt_file hi] at hnode
  have hword := (h.entry i hi).spareDirect (hnames _ (List.getElem_mem hi)) k hk hle
  have hassoc : 4096 * startOf files files.length + (fileBytes * i + 136 + 4 * k) =
      4096 * startOf files files.length + 256 * i + 136 + 4 * k := by
    change 4096 * startOf files files.length + (256 * i + 136 + 4 * k) = _
    omega
  rw [hassoc]
  exact ⟨⟨_, hnode, Or.inl ⟨k, hk, rfl⟩⟩, hword⟩

theorem Finished.spareIndirect (hnames : ∀ file ∈ files, file.last.length < 128) (he : SpareIndirect files e) :
    BlockSlot s.diskmap (4096 * startOf files files.length + e) ∧
      getWord s.diskmap (4096 * startOf files files.length + e) = getWord heap e := by
  obtain ⟨i, hi, hlt, rfl⟩ := he
  have hnode := h.mem_rootFiles.mpr ⟨i, hi.le, rfl⟩
  rw [nodeAt_file hi] at hnode
  have hword := (h.entry i hi).spareIndirect (hnames _ (List.getElem_mem hi)) hlt
  have hassoc : 4096 * startOf files files.length + (fileBytes * i + 176) =
      4096 * startOf files files.length + 256 * i + 176 := by
    change 4096 * startOf files files.length + (256 * i + 176) = _
    omega
  rw [hassoc]
  exact ⟨⟨_, hnode, Or.inr (Or.inl rfl)⟩, hword⟩

/-- The slots that were written are other ones. -/
theorem Finished.slotOf_ne_spare (hi : i ≤ files.length) (hk : k < spanAt files i)
    (he : SpareDirect files e ∨ SpareIndirect files e) : slotOf files i k ≠ 4096 * startOf files files.length + e := by
  have hR := rootBlocks_le h.most
  have h3 : 3 ≤ startOf files files.length := le_spanStart _
  -- the spare slot in its entry
  obtain ⟨i', off, hi', he, hoff⟩ : ∃ i' off, ∃ hi' : i' < files.length, e = 256 * i' + off ∧
      ((∃ k' < 10, files[i'].blocks ≤ k' ∧ off = 136 + 4 * k') ∨ files[i'].blocks < 10 ∧ off = 176) := by
    rcases he with ⟨i', k', hi', hle, hk', he⟩ | ⟨i', hi', hlt, he⟩
    · exact ⟨i', 136 + 4 * k', hi', he.trans (Nat.add_assoc _ _ _), Or.inl ⟨k', hk', hle, rfl⟩⟩
    · exact ⟨i', 176, hi', he, Or.inr ⟨hlt, rfl⟩⟩
  have hspan : spanAt files i = blocksAt files i + if 10 ≤ blocksAt files i then 1 else 0 := rfl
  rcases Nat.lt_or_eq_of_le hi with hlt | rfl
  · have hd := startOf_disjoint hlt hlt
    have hblocks := blocksAt_file hlt
    have hbound := (h.stored i hlt).bound
    rw [← spanAt_file hlt] at hd
    have hsame (heq : i = i') : files[i'].blocks = blocksAt files i := by
      subst heq
      exact hblocks.symm
    unfold slotOf
    rw [nodeAt_file hlt]
    split_ifs with hk10 hkb
    · intro heq
      rcases hoff with ⟨k', hk', hle, rfl⟩ | ⟨hten, rfl⟩
      · have hii := hsame (by omega)
        split_ifs at hspan <;> omega
      · omega
    · intro heq
      rcases hoff with ⟨k', hk', hle, rfl⟩ | ⟨hten, rfl⟩
      · omega
      · have hii := hsame (by omega)
        omega
    · split_ifs at hspan <;> omega
  · have hblocks := blocksAt_root files
    rw [hblocks, if_neg (by omega)] at hspan
    rw [slotOf, if_pos (by omega), nodeAt_root]
    omega

/-- In a consistent image a spare slot does not name a block of a file. -/
theorem Finished.spare_lt (hne : files ≠ []) (hgood : ∀ a, BlockSlot s.diskmap a → GoodSlot s a)
    (he : SpareDirect files e ∨ SpareIndirect files e)
    (hslot : BlockSlot s.diskmap (4096 * startOf files files.length + e)) :
    getWord s.diskmap (4096 * startOf files files.length + e) < 3#32 := by
  have hroom := h.room
  have hsmall := h.small
  have hnb := h.nblocks
  rcases hgood _ hslot with hz | ⟨hlt, honce, hused⟩
  · rw [hz]
    decide
  by_contra hge
  rw [hnb] at hlt
  have hnat : (getWord s.diskmap (4096 * startOf files files.length + e)).toNat < nb.toNat := hlt
  have h3 : 3 ≤ (getWord s.diskmap (4096 * startOf files files.length + e)).toNat := BitVec.not_lt.mp hge
  have hend := (h.used_iff (by omega)).mp hused
  obtain ⟨i, k, hi, hk, hv⟩ := h.exists_slot hne h3 hend
  -- the block has a slot already
  apply h.slotOf_ne_spare hi hk he
  apply honce _ (h.slotOf_value hi hk).1
  apply BitVec.eq_of_toNat_eq
  rw [h.slotOf_toNat hne hi hk, hv]

/-- An indirect block is not the super block or the bitmap. -/
theorem Finished.spareIndirect_zero (hgood : ∀ a, BlockSlot s.diskmap a → GoodSlot s a)
    (hi : i ≤ files.length) (hlt : getWord s.diskmap (nodeAt files i + 176) < 3#32) :
    getWord s.diskmap (nodeAt files i + 176) = 0#32 := by
  have hroom := h.room
  have hsmall := h.small
  have hnb := h.nblocks
  have hnode := h.mem_rootFiles.mpr ⟨i, hi, rfl⟩
  obtain ⟨w, hw⟩ : ∃ w, w = getWord s.diskmap (nodeAt files i + 176) := ⟨_, rfl⟩
  rw [← hw] at hlt ⊢
  by_contra hne
  -- the words of the block are slots too
  have hcell (j : ℕ) (hj : j < 1024) : GoodSlot s (w.toNat * 4096 + 4 * j) := by
    apply hgood
    rw [hw]
    exact ⟨_, hnode, Or.inr (Or.inr ⟨hw ▸ hne, j, hj, rfl⟩)⟩
  have hbig (x : ℕ) (hx : GoodSlot s x) : (getWord s.diskmap x).toNat < 1024 := by
    rcases hx with hz | ⟨hlt, -, -⟩
    · rw [hz]
      decide
    · have hnat : (getWord s.diskmap x).toNat < s.nblocks.toNat := hlt
      rw [hnb] at hnat
      omega
  obtain rfl | rfl : w = 1#32 ∨ w = 2#32 := by
    have hnat : w.toNat < 3 := hlt
    have hpos : w.toNat ≠ 0 := fun hz => hne (BitVec.eq_of_toNat_eq hz)
    have hcases : w.toNat = 1 ∨ w.toNat = 2 := by omega
    exact hcases.imp (fun hx => BitVec.eq_of_toNat_eq hx) fun hx => BitVec.eq_of_toNat_eq hx
  · have hsuper := hbig _ (hcell 0 (by decide))
    change (getWord s.diskmap 4096).toNat < 1024 at hsuper
    rw [h.magic] at hsuper
    exact absurd hsuper (by decide)
  · have hword := hbig _ (hcell 32 (by decide))
    have hfree := (h.bits 1055 (by decide)).mpr (by omega)
    have hbit : (getWord s.diskmap 8320).toNat.testBit 31 = true := hfree
    have hge := Nat.ge_two_pow_of_testBit hbit
    change (getWord s.diskmap 8320).toNat < 1024 at hword
    omega

/-- The slots when `malloc` returns a clean heap. -/
theorem Finished.slot_clean (hnames : ∀ file ∈ files, file.last.length < 128) (hheap : CleanHeap files heap)
    (ha : BlockSlot s.diskmap a) :
    (∃ i k, i ≤ files.length ∧ k < spanAt files i ∧ a = slotOf files i k) ∨ getWord s.diskmap a = 0#32 ∨
    ∃ e, SpareDirect files e ∧ a = 4096 * startOf files files.length + e := by
  rcases h.slot_cases ha with hslot | hz | ⟨i, k, hi, hle, hk, rfl⟩ | ⟨i, hi, hlt, hind⟩
  · exact Or.inl hslot
  · exact Or.inr (Or.inl hz)
  · right
    right
    rw [blocksAt_file hi] at hle
    refine ⟨_, ⟨i, k, hi, hle, hk, rfl⟩, ?_⟩
    rw [nodeAt_file hi]
    change _ = 4096 * startOf files files.length + (256 * i + 136 + 4 * k)
    omega
  · right
    left
    rw [blocksAt_file hi] at hlt
    have hspare : SpareIndirect files (fileBytes * i + 176) := ⟨i, hi, hlt, rfl⟩
    have hword : getWord s.diskmap (nodeAt files i + 176) = 0#32 := by
      rw [nodeAt_file hi, ← hheap.indirect _ hspare]
      exact (h.entry i hi).spareIndirect (hnames _ (List.getElem_mem hi)) hlt
    rcases hind with rfl | hne
    · exact hword
    · exact absurd hword hne

/-- No slot is bad when the heap is clean. -/
theorem Finished.goodSlot (hne : files ≠ []) (hnames : ∀ file ∈ files, file.last.length < 128)
    (hheap : CleanHeap files heap) (ha : BlockSlot s.diskmap a) : GoodSlot s a := by
  have hroom := h.room
  have hsmall := h.small
  have h3 : 3 ≤ startOf files files.length := le_spanStart _
  have hrange {x : ℕ} (hx : (getWord s.diskmap x).toNat < startOf files files.length + entryBlocks files.length) :
      getWord s.diskmap x < s.nblocks ∧ ¬ MarkedFree s.diskmap (getWord s.diskmap x).toNat := by
    refine ⟨?_, (h.used_iff (by omega)).mpr hx⟩
    change (getWord s.diskmap x).toNat < s.nblocks.toNat
    rw [h.nblocks]
    omega
  have hspare {e : ℕ} (he : SpareDirect files e) :
      (getWord s.diskmap (4096 * startOf files files.length + e)).toNat < 3 := by
    rw [(h.spareDirect hnames he).2]
    exact hheap.direct e he
  have hfile (i : ℕ) : 3 ≤ startOf files i := le_spanStart _
  rcases h.slot_clean hnames hheap ha with ⟨i, k, hi, hk, rfl⟩ | hz | ⟨e, he, rfl⟩
  · right
    have hv := h.slotOf_toNat hne hi hk
    have hlt := h.block_lt hne hi hk
    have hi3 := hfile i
    obtain ⟨hnb, hused⟩ := hrange (hv ▸ hlt)
    refine ⟨hnb, fun a' ha' heq => ?_, hused⟩
    rcases h.slot_clean hnames hheap ha' with ⟨i', k', hi', hk', rfl⟩ | hz | ⟨e, he, rfl⟩
    · have hv' := h.slotOf_toNat hne hi' hk'
      rw [heq, hv] at hv'
      obtain ⟨rfl, rfl⟩ := slot_unique hi hi' hk hk' hv'
      rfl
    · rw [← heq, hz] at hv
      change 0 = _ at hv
      omega
    · have hlow := hspare he
      rw [heq, hv] at hlow
      omega
  · exact Or.inl hz
  · by_cases hz : getWord s.diskmap (4096 * startOf files files.length + e) = 0#32
    · exact Or.inl hz
    right
    have hlow := hspare he
    obtain ⟨hnb, hused⟩ := hrange (x := 4096 * startOf files files.length + e) (by omega)
    refine ⟨hnb, fun a' ha' heq => ?_, hused⟩
    rcases h.slot_clean hnames hheap ha' with ⟨i', k', hi', hk', rfl⟩ | hz' | ⟨e', he', rfl⟩
    · have hv' := h.slotOf_toNat hne hi' hk'
      have hi3 := hfile i'
      rw [heq] at hv'
      omega
    · exact absurd (heq.symm.trans hz') hz
    · rw [(h.spareDirect hnames he).2] at hz heq
      rw [(h.spareDirect hnames he').2] at heq
      rw [hheap.once e e' he he' hz heq]

/-- The words from `malloc` in an image without bad slots. -/
theorem Finished.cleanHeap (hne : files ≠ []) (hnames : ∀ file ∈ files, file.last.length < 128)
    (hgood : ∀ a, BlockSlot s.diskmap a → GoodSlot s a) : CleanHeap files heap := by
  constructor
  case direct =>
    intro e he
    obtain ⟨hslot, hword⟩ := h.spareDirect hnames he
    rw [← hword]
    exact h.spare_lt hne hgood (Or.inl he) hslot
  case once =>
    intro e e' he he' hz heq
    obtain ⟨hslot, hword⟩ := h.spareDirect hnames he
    obtain ⟨hslot', hword'⟩ := h.spareDirect hnames he'
    rw [← hword] at hz heq
    rw [← hword'] at heq
    rcases hgood _ hslot with hz' | ⟨-, honce, -⟩
    · exact absurd hz' hz
    · exact Nat.add_left_cancel (honce _ hslot' heq)
  case indirect =>
    intro e he
    obtain ⟨hslot, hword⟩ := h.spareIndirect hnames he
    have hlt := h.spare_lt hne hgood (Or.inr he) hslot
    obtain ⟨i, hi, -, rfl⟩ := he
    have haddr : 4096 * startOf files files.length + (fileBytes * i + 176) = nodeAt files i + 176 := by
      rw [nodeAt_file hi]
      exact (Nat.add_assoc _ _ _).symm
    rw [haddr] at hlt hword
    rw [← hword]
    exact h.spareIndirect_zero hgood hi.le hlt

/-- Without files the root directory names a free block. -/
theorem Finished.files_ne_nil (hgood : ∀ a, BlockSlot s.diskmap a → GoodSlot s a) : files ≠ [] := by
  rintro rfl
  have hvalue := h.rootDirect 0 (by decide)
  have hslot : BlockSlot s.diskmap 4240 := ⟨rootNode, Or.inl rfl, Or.inl ⟨0, by decide, rfl⟩⟩
  change getWord s.diskmap 4240 = 3#32 at hvalue
  rcases hgood _ hslot with hz | ⟨-, -, hused⟩
  · rw [hvalue] at hz
    exact absurd hz (by decide)
  · rw [hvalue] at hused
    exact hused ((h.bits 3 (by decide)).mpr le_rfl)

theorem Finished.consistent_iff : ConsistentImage s files ↔
    files ≠ [] ∧ (∀ file ∈ files, file.last.length < 128) ∧ CleanHeap files heap := by
  have hroom := h.room
  have hsmall := h.small
  constructor
  · intro hc
    have hne := h.files_ne_nil hc.slots
    have hnames := h.copies_iff.mp hc.files
    exact ⟨hne, hnames, h.cleanHeap hne hnames hc.slots⟩
  · rintro ⟨hne, hnames, hheap⟩
    constructor
    case files => exact h.copies_iff.mpr hnames
    case slots => exact fun a ha => h.goodSlot hne hnames hheap ha
    case free =>
      intro b hb hlt
      rw [h.pos, Format.blockof_mul, BitVec.toNat_ofNat, Nat.mod_eq_of_lt (by omega)] at hb
      rw [h.nblocks] at hlt
      exact (h.bits b (by omega)).mpr hb

end Finished

/-- The image is consistent where there is a file, the names fit, and the heap is clean. -/
theorem fsformat_consistent_iff (h : fsformat nb files heap = .ret () s) : ConsistentImage s files ↔
    files ≠ [] ∧ (∀ file ∈ files, file.last.length < maxnamelen) ∧ CleanHeap files heap :=
  (fsformat_ret h).consistent_iff

/-- Nothing to copy, and the root directory has a block that is free. -/
theorem fsformat_no_files_inconsistent :
    ∃ s, fsformat 4#32 [] (fun _ => 0#8) = .ret () s ∧ ¬ ConsistentImage s [] := by
  obtain ⟨_, s, hs⟩ := Outcome.returns_iff.mp
    (show (fsformat 4#32 [] fun _ => 0#8).returns = true by decide +kernel)
  refine ⟨s, hs, fun hc => ?_⟩
  exact (fsformat_ret hs).files_ne_nil hc.slots rfl

/-- One file of three bytes. -/
def smallFile : InputFile := ⟨[0x61#8, 0x2F#8, 0x62#8], [1#8, 2#8, 3#8], by decide⟩

theorem cleanHeap_zero (files : List InputFile) : CleanHeap files fun _ => 0#8 := by
  have hzero (a : ℕ) : getWord (fun _ => 0#8) a = 0#32 := getWord_zero fun _ _ => rfl
  constructor
  case direct =>
    intro a _
    rw [hzero]
    decide
  case once => exact fun a _ _ _ hne _ => absurd (hzero a) hne
  case indirect => exact fun a _ => hzero a

theorem fsformat_small_consistent :
    ∃ s, fsformat 6#32 [smallFile] (fun _ => 0#8) = .ret () s ∧ ConsistentImage s [smallFile] := by
  obtain ⟨_, s, hs⟩ := Outcome.returns_iff.mp
    (show (fsformat 6#32 [smallFile] fun _ => 0#8).returns = true by decide +kernel)
  refine ⟨s, hs, (fsformat_consistent_iff hs).mpr ⟨List.cons_ne_nil _ _, ?_, cleanHeap_zero _⟩⟩
  intro file hfile
  rw [List.mem_singleton.mp hfile]
  decide

end Clean
end Sisop
