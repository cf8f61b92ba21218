import Mathlib.Data.List.Forall2
import Sisop.FsformatImage

/-! Which block numbers the image has, and when it is consistent. -/
namespace Sisop

section Slots

variable {s : Format} {heap : Bytes} {a i j k v : ℕ} {nb : Word} {file : InputFile} {files : List InputFile}

theorem last_noNul (file : InputFile) : 0#8 ∉ file.last := by
  intro h
  apply file.noNul
  rw [InputFile.last, List.mem_reverse] at h
  exact List.mem_reverse.mp ((List.takeWhile_sublist _).mem h)

/-- The file node with number `i`. The root directory comes behind the files. -/
def nodeAt (files : List InputFile) (i : ℕ) : ℕ :=
  if i < files.length then 4096 * startOf files files.length + 256 * i else 4104

def blocksAt (files : List InputFile) (i : ℕ) : ℕ :=
  if hi : i < files.length then files[i].blocks else rootBlocks files.length

def spanAt (files : List InputFile) (i : ℕ) : ℕ := blocksAt files i + if 10 ≤ blocksAt files i then 1 else 0

/-- Where block `k` of the node `i` is named. Behind its data comes the indirect block. -/
def slotOf (files : List InputFile) (i k : ℕ) : ℕ :=
  if k < 10 then nodeAt files i + 136 + 4 * k
  else if k = blocksAt files i then nodeAt files i + 176
  else 4096 * (startOf files i + blocksAt files i) + 4 * (k - 10)

def spans (files : List InputFile) : List ℕ := (List.range (files.length + 1)).map (spanAt files)

theorem nodeAt_file (hi : i < files.length) : nodeAt files i = 4096 * startOf files files.length + 256 * i := if_pos hi

theorem nodeAt_root (files : List InputFile) : nodeAt files files.length = 4104 := if_neg (Nat.lt_irrefl _)

theorem blocksAt_file (hi : i < files.length) : blocksAt files i = files[i].blocks := dif_pos hi

theorem blocksAt_root (files : List InputFile) : blocksAt files files.length = rootBlocks files.length :=
  dif_neg (Nat.lt_irrefl _)

theorem spanAt_file (hi : i < files.length) : spanAt files i = files[i].span := by
  rw [spanAt, blocksAt_file hi]
  rfl

theorem spans_length (files : List InputFile) : (spans files).length = files.length + 1 := by
  rw [spans, List.length_map, List.length_range]

theorem spans_getElem (hi : i < (spans files).length) : (spans files)[i] = spanAt files i := by
  simp only [spans, List.getElem_map, List.getElem_range]

theorem spanStart_spans (hi : i ≤ files.length) : spanStart 3 (spans files) i = startOf files i := by
  induction i with
  | zero => rw [startOf, spanStart_zero, spanStart_zero]
  | succ i ih =>
    have hi' : i < (spans files).length := by
      rw [spans_length]
      omega
    rw [spanStart_succ hi', ih (by omega), spans_getElem, spanAt_file hi, startOf_succ hi]

theorem lt_blocksAt (hk : k < spanAt files i) (hk' : k ≠ blocksAt files i) : k < blocksAt files i := by
  unfold spanAt at hk
  split_ifs at hk <;> omega

/-- No two slots name one block. -/
theorem slot_unique {i' k' : ℕ} (hi : i ≤ files.length) (hi' : i' ≤ files.length) (hk : k < spanAt files i)
    (hk' : k' < spanAt files i') (heq : startOf files i + k = startOf files i' + k') : i = i' ∧ k = k' := by
  have hlen (j : ℕ) (hj : j ≤ files.length) : j < (spans files).length := by
    rw [spans_length]
    omega
  rw [← spanStart_spans hi, ← spanStart_spans hi'] at heq
  rw [← spans_getElem (hlen i hi)] at hk
  rw [← spans_getElem (hlen i' hi')] at hk'
  exact span_unique (hlen i hi) (hlen i' hi') hk hk' heq

section Finished

variable (h : Finished nb heap files s)
include h

theorem Finished.start_lt : startOf files files.length < 1024 := by
  have hroom := h.room
  have hsmall := h.small
  omega

/-- The files are where the root directory says. -/
theorem Finished.rootFiles_eq : rootFiles s.diskmap =
    (List.range files.length).map fun i => 4096 * startOf files files.length + 256 * i := by
  have hR := rootBlocks_le h.most
  have hstart := h.start_lt
  have hsize : (getWord s.diskmap (rootNode + 128)).toNat = 4096 * rootBlocks files.length := by
    change (getWord s.diskmap 4232).toNat = _
    rw [h.rootSize, BitVec.toNat_ofNat]
    omega
  have hslot (j : ℕ) (hj : j < 16 * rootBlocks files.length) :
      dirSlot s.diskmap j = 4096 * startOf files files.length + 256 * j := by
    have hblk : fileBlock s.diskmap rootNode (j / 16) = startOf files files.length + j / 16 := by
      have hdirect := h.rootDirect (j / 16) (by omega)
      rw [if_pos (by omega)] at hdirect
      unfold fileBlock
      rw [if_pos (show j / 16 < 10 by omega)]
      change (getWord s.diskmap (4240 + 4 * (j / 16))).toNat = _
      rw [hdirect, BitVec.toNat_ofNat]
      omega
    change fileBlock s.diskmap rootNode (j / 16) * 4096 + 256 * (j % 16) = _
    rw [hblk]
    omega
  have hle : files.length ≤ 16 * rootBlocks files.length := by
    unfold rootBlocks entryBlocks
    split_ifs <;> omega
  have hcount : (getWord s.diskmap (rootNode + 128)).toNat / fileBytes = 16 * rootBlocks files.length := by
    rw [hsize]
    change 4096 * rootBlocks files.length / 256 = _
    omega
  have hmap : (List.range (16 * rootBlocks files.length)).map (dirSlot s.diskmap) =
      (List.range (16 * rootBlocks files.length)).map fun j => 4096 * startOf files files.length + 256 * j := by
    apply List.map_congr_left
    exact fun j hj => hslot j (List.mem_range.mp hj)
  obtain ⟨c, hc⟩ := Nat.exists_eq_add_of_le hle
  unfold rootFiles
  rw [hcount, hmap, hc, List.range_add, List.map_append, List.filter_append]
  have hfirst : ((List.range files.length).map fun j => 4096 * startOf files files.length + 256 * j).filter
      (fun f => s.diskmap f ≠ 0#8) = (List.range files.length).map fun j => 4096 * startOf files files.length + 256 * j := by
    apply List.filter_eq_self.mpr
    intro f hf
    obtain ⟨i, hi, rfl⟩ := List.mem_map.mp hf
    have hi' := List.mem_range.mp hi
    have hpos : 0 < files[i].last.length := List.length_pos_of_ne_nil (h.names _ (List.getElem_mem hi'))
    have hchar := (h.entry i hi').name 0 hpos (by decide)
    rw [Nat.add_zero] at hchar
    rw [hchar]
    have hne : files[i].last[0] ≠ 0#8 := fun hz => last_noNul _ (hz ▸ List.getElem_mem hpos)
    simpa using hne
  have hsecond : (((List.range c).map fun x => files.length + x).map fun j =>
      4096 * startOf files files.length + 256 * j).filter (fun f => s.diskmap f ≠ 0#8) = [] := by
    apply List.filter_eq_nil_iff.mpr
    intro f hf
    obtain ⟨j, hj, rfl⟩ := List.mem_map.mp hf
    obtain ⟨x, -, rfl⟩ := List.mem_map.mp hj
    rw [h.blank _ (by omega)]
    simp
  rw [hfirst, hsecond, List.append_nil]

/-- A file is copied, where its name fits. -/
theorem Finished.isCopy_iff (hi : i < files.length) :
    IsCopy s.diskmap (nodeAt files i) files[i] ↔ files[i].last.length < 128 := by
  have hentry := h.entry i hi
  have hstored := h.stored i hi
  rw [nodeAt_file hi]
  constructor
  · exact fun hc => hc.name.fits
  · intro hname
    have hdata := data_le_blocks files[i]
    have hbound := hstored.bound
    have hstart : startOf files i < 1024 := lt_of_le_of_lt (startOf_mono hi.le) h.start_lt
    constructor
    case name =>
      exact ⟨hname, fun k hk => hentry.name k hk (by omega), hentry.nul hname⟩
    case size =>
      rw [hentry.size, BitVec.toNat_ofNat]
      omega
    case data =>
      intro k hk
      have hblk : fileBlock s.diskmap (4096 * startOf files files.length + 256 * i) (k / 4096) =
          startOf files i + k / 4096 := by
        have hlt : k / 4096 < files[i].blocks := by omega
        unfold fileBlock
        by_cases h10 : k / 4096 < 10
        · rw [if_pos h10, hentry.direct _ h10 hlt, BitVec.toNat_ofNat]
          omega
        · have hind := hentry.indirect (by omega)
          have hcell := hstored.cells (by omega) (k / 4096) (by omega) hlt
          rw [if_neg h10, hind, BitVec.toNat_ofNat, Nat.mod_eq_of_lt (by omega), Nat.mul_comm]
          change (getWord s.diskmap (4096 * (startOf files i + files[i].blocks) + 4 * (k / 4096 - 10))).toNat = _
          rw [hcell, BitVec.toNat_ofNat]
          omega
      change s.diskmap (fileBlock s.diskmap _ (k / 4096) * 4096 + k % 4096) = _
      rw [hblk, ← hstored.data k hk]
      congr 1
      omega

theorem Finished.mem_rootFiles {f : ℕ} : f = rootNode ∨ f ∈ rootFiles s.diskmap ↔
    ∃ i ≤ files.length, f = nodeAt files i := by
  rw [h.rootFiles_eq, List.mem_map]
  constructor
  · rintro (rfl | ⟨i, hi, rfl⟩)
    · exact ⟨_, le_rfl, (nodeAt_root files).symm⟩
    · have hi' := List.mem_range.mp hi
      exact ⟨i, hi'.le, (nodeAt_file hi').symm⟩
  · rintro ⟨i, hi, rfl⟩
    rcases Nat.lt_or_eq_of_le hi with hlt | rfl
    · exact Or.inr ⟨i, List.mem_range.mpr hlt, (nodeAt_file hlt).symm⟩
    · exact Or.inl (nodeAt_root files)

/-- The first part of consistency. -/
theorem Finished.copies_iff : List.Forall₂ (IsCopy s.diskmap) (rootFiles s.diskmap) files ↔
    ∀ file ∈ files, file.last.length < 128 := by
  have hiff (i : ℕ) (hi : i < files.length) := h.isCopy_iff hi
  rw [h.rootFiles_eq, List.forall₂_iff_get]
  constructor
  · rintro ⟨-, hall⟩ file hfile
    obtain ⟨i, hi, rfl⟩ := List.getElem_of_mem hfile
    apply (hiff i hi).mp
    have hcopy := hall i (by rwa [List.length_map, List.length_range]) hi
    simp only [List.get_eq_getElem, List.getElem_map, List.getElem_range] at hcopy
    rwa [nodeAt_file hi]
  · intro hname
    refine ⟨by rw [List.length_map, List.length_range], fun i hi hi' => ?_⟩
    have hcopy := (hiff i hi').mpr (hname _ (List.getElem_mem hi'))
    rw [nodeAt_file hi'] at hcopy
    simpa only [List.get_eq_getElem, List.getElem_map, List.getElem_range] using hcopy

/-- The block numbers of the blocks that are taken. -/
theorem Finished.slotOf_value (hi : i ≤ files.length) (hk : k < spanAt files i) :
    BlockSlot s.diskmap (slotOf files i k) ∧
      getWord s.diskmap (slotOf files i k) = BitVec.ofNat 32 (startOf files i + k) := by
  have hR := rootBlocks_le h.most
  have hnode := h.mem_rootFiles.mpr ⟨i, hi, rfl⟩
  have hdirect (hk10 : k < 10) (hkb : k < blocksAt files i) :
      getWord s.diskmap (nodeAt files i + 136 + 4 * k) = BitVec.ofNat 32 (startOf files i + k) := by
    rcases Nat.lt_or_eq_of_le hi with hlt | rfl
    · rw [nodeAt_file hlt]
      rw [blocksAt_file hlt] at hkb
      exact (h.entry i hlt).direct k hk10 hkb
    · rw [nodeAt_root]
      rw [blocksAt_root] at hkb
      exact (h.rootDirect k hk10).trans (if_pos hkb)
  have hfile (hle : 10 ≤ blocksAt files i) : i < files.length := by
    rcases Nat.lt_or_eq_of_le hi with hlt | rfl
    · exact hlt
    · rw [blocksAt_root] at hle
      omega
  have hindirect (hle : 10 ≤ blocksAt files i) :
      getWord s.diskmap (nodeAt files i + 176) = BitVec.ofNat 32 (startOf files i + blocksAt files i) := by
    have hlt := hfile hle
    rw [nodeAt_file hlt, blocksAt_file hlt]
    rw [blocksAt_file hlt] at hle
    exact (h.entry i hlt).indirect hle
  unfold slotOf
  by_cases hk10 : k < 10
  · have hkb : k < blocksAt files i := by
      unfold spanAt at hk
      split_ifs at hk <;> omega
    rw [if_pos hk10]
    exact ⟨⟨_, hnode, Or.inl ⟨k, hk10, rfl⟩⟩, hdirect hk10 hkb⟩
  rw [if_neg hk10]
  have hle : 10 ≤ blocksAt files i := by
    unfold spanAt at hk
    split_ifs at hk <;> omega
  by_cases hkb : k = blocksAt files i
  · rw [if_pos hkb, hkb]
    exact ⟨⟨_, hnode, Or.inr (Or.inl rfl)⟩, hindirect hle⟩
  rw [if_neg hkb]
  have hlt := hfile hle
  have hkb' := lt_blocksAt hk hkb
  have hbound := (h.stored i hlt).bound
  have hstart : startOf files i < 1024 := lt_of_le_of_lt (startOf_mono hlt.le) h.start_lt
  have hblocks := blocksAt_file hlt
  have hw := hindirect hle
  have hnat : (getWord s.diskmap (nodeAt files i + 176)).toNat = startOf files i + blocksAt files i := by
    rw [hw, BitVec.toNat_ofNat]
    omega
  refine ⟨⟨_, hnode, Or.inr (Or.inr ⟨fun hz => ?_, k - 10, ?_, ?_⟩)⟩, ?_⟩
  · rw [hz] at hnat
    change 0 = _ at hnat
    omega
  · change k - 10 < 1024
    omega
  · rw [hnat, Nat.mul_comm]
  · rw [hblocks] at hle hkb' ⊢
    exact (h.stored i hlt).cells hle k (by omega) hkb'

/-- A slot names a block, or is empty, or nothing was written to it. -/
theorem Finished.slot_cases (ha : BlockSlot s.diskmap a) :
    (∃ i k, i ≤ files.length ∧ k < spanAt files i ∧ a = slotOf files i k) ∨ getWord s.diskmap a = 0#32 ∨
    (∃ i k, i < files.length ∧ blocksAt files i ≤ k ∧ k < 10 ∧ a = nodeAt files i + 136 + 4 * k) ∨
    ∃ i, i < files.length ∧ blocksAt files i < 10 ∧
      (a = nodeAt files i + 176 ∨ getWord s.diskmap (nodeAt files i + 176) ≠ 0#32) := by
  obtain ⟨f, hf, ha⟩ := ha
  obtain ⟨i, hi, rfl⟩ := h.mem_rootFiles.mp hf
  have hR := rootBlocks_le h.most
  rcases ha with ⟨j, hj, rfl⟩ | rfl | ⟨hne, j, hj, rfl⟩
  · change j < 10 at hj
    by_cases hjb : j < blocksAt files i
    · refine Or.inl ⟨i, j, hi, lt_of_lt_of_le hjb (Nat.le_add_right _ _), ?_⟩
      rw [slotOf, if_pos hj]
    rcases Nat.lt_or_eq_of_le hi with hlt | rfl
    · exact Or.inr (Or.inr (Or.inl ⟨i, j, hlt, Nat.le_of_not_lt hjb, hj, rfl⟩))
    · right
      left
      rw [blocksAt_root] at hjb
      rw [nodeAt_root]
      exact (h.rootDirect j hj).trans (if_neg hjb)
  · by_cases hle : 10 ≤ blocksAt files i
    · refine Or.inl ⟨i, blocksAt files i, hi, ?_, ?_⟩
      · rw [spanAt, if_pos hle]
        exact Nat.lt_succ_self _
      · rw [slotOf, if_neg (Nat.not_lt.mpr hle), if_pos rfl]
    rcases Nat.lt_or_eq_of_le hi with hlt | rfl
    · exact Or.inr (Or.inr (Or.inr ⟨i, hlt, Nat.lt_of_not_le hle, Or.inl rfl⟩))
    · right
      left
      rw [nodeAt_root]
      exact h.rootIndirect
  · change j < 1024 at hj
    rcases Nat.lt_or_eq_of_le hi with hlt | rfl
    swap
    · rw [nodeAt_root] at hne
      exact absurd h.rootIndirect hne
    by_cases hle : 10 ≤ blocksAt files i
    swap
    · exact Or.inr (Or.inr (Or.inr ⟨i, hlt, Nat.lt_of_not_le hle, Or.inr hne⟩))
    have hblocks := blocksAt_file hlt
    have hstored := h.stored i hlt
    have hbound := hstored.bound
    have hstart : startOf files i < 1024 := lt_of_le_of_lt (startOf_mono hlt.le) h.start_lt
    have hspan : blocksAt files i < spanAt files i := by
      rw [spanAt, if_pos hle]
      exact Nat.lt_succ_self _
    obtain ⟨-, hval⟩ := h.slotOf_value hi hspan
    rw [slotOf, if_neg (Nat.not_lt.mpr hle), if_pos rfl] at hval
    have hw : (getWord s.diskmap (nodeAt files i + 176)).toNat * blksize + 4 * j =
        4096 * (startOf files i + blocksAt files i) + 4 * (j + 10 - 10) := by
      rw [hval, BitVec.toNat_ofNat, Nat.mod_eq_of_lt (by omega), Nat.mul_comm]
      rfl
    rw [hw]
    by_cases hjb : j + 10 < blocksAt files i
    · refine Or.inl ⟨i, j + 10, hi, by omega, ?_⟩
      rw [slotOf, if_neg (by omega), if_neg hjb.ne]
    · right
      left
      rw [hblocks] at hle hjb ⊢
      exact hstored.rest hle (j + 10) (by omega) (by omega)

/-- Every block from the third one on is named. -/
theorem Finished.exists_slot (hne : files ≠ []) (h3 : 3 ≤ v)
    (hv : v < startOf files files.length + entryBlocks files.length) :
    ∃ i k, i ≤ files.length ∧ k < spanAt files i ∧ v = startOf files i + k := by
  have hR := rootBlocks_le h.most
  have hpos : files.length ≠ 0 := mt List.length_eq_zero_iff.mp hne
  have hroot : rootBlocks files.length = entryBlocks files.length := if_neg hpos
  have hlast : spanAt files files.length = entryBlocks files.length := by
    rw [spanAt, blocksAt_root, if_neg (by omega), Nat.add_zero, hroot]
  have hlen : files.length < (spans files).length := by
    rw [spans_length]
    exact Nat.lt_succ_self _
  have hend : spanStart 3 (spans files) (spans files).length =
      startOf files files.length + entryBlocks files.length := by
    rw [spans_length, spanStart_succ hlen, spanStart_spans le_rfl, spans_getElem, hlast]
  obtain ⟨i, k, hi, hk, rfl⟩ := exists_span h3 (hend ▸ hv)
  rw [spans_getElem] at hk
  have hi' : i ≤ files.length := by
    rw [spans_length] at hi
    omega
  exact ⟨i, k, hi', hk, by rw [spanStart_spans hi']⟩

end Finished
end Slots
end Sisop
