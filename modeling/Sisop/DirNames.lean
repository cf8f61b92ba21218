import Sisop.CreateFailure

/-! The names in the directories of a consistent disk: each file has one directory and one
path, and nothing but what the directories hold decides where a path leads. -/
namespace Sisop

variable {m : ByteMem} {d f g e : Word} {i j : ℕ} {name : Name} {ns : List Name} {dir : Option Word}

theorem TreeOk.fileOk (h : TreeOk m) (hf : InTree m f) : FileOk m f := by
  refine ⟨h.good, h.zero, ?_, fun hne => ?_⟩
  · rcases h.home hf with rfl | ⟨d, i, j, hd, -, hi, hb, hj, rfl⟩
    · exact Or.inl rfl
    · exact Or.inr ⟨_, j, h.block_data hd hi hb, hj, rfl⟩
  · have hlink : link m f none ≠ 0 := fun hz => hne (BitVec.eq_of_toNat_eq hz)
    have hdata : DataBlock m (fIndirect m f).toNat := h.data f none hf lowLink_none hlink
    refine ⟨hdata, fun heq => ?_⟩
    rcases h.home hf with rfl | ⟨d, i, j, hd, -, hi, hb, hj, rfl⟩
    · have hstart := hdata.start
      have hblock : blockOf rootAddr = 1 := by decide
      rw [heq, hblock] at hstart
      unfold dataStart at hstart
      omega
    · have hdisk : blockNo m d i < diskBlocks := Nat.lt_of_lt_of_le (h.block_data hd hi hb).lt h.good.size
      rw [blockOf_slotAddr hdisk hj] at heq
      exact nomatch (h.apart _ d none (some i) hf hd lowLink_none (lowLink_some hi) hlink heq).2

/-- The server finds a block where the disk format has it. -/
theorem TreeOk.blockAt (h : TreeOk m) (hf : InTree m f) (hi : i ≤ ndirect) :
    blockAt m f i = if blockNo m f i ≠ 0 then some (blockAddr (blockNo m f i)) else none := by
  have hword (slot : Word) (hslot : slotAt m f i = some slot) (hno : blockNo m f i = (loadWord m slot).toNat) :
      Sisop.blockAt m f i = if blockNo m f i ≠ 0 then some (blockAddr (blockNo m f i)) else none := by
    unfold Sisop.blockAt
    rw [hslot]
    dsimp only [bind, Option.bind]
    by_cases hz : loadWord m slot = 0#32
    · have hno0 : blockNo m f i = 0 := by
        rw [hno, hz]
        rfl
      rw [if_neg fun hb => hb.1 hz, if_neg (not_not_intro hno0)]
    · have hne : blockNo m f i ≠ 0 := fun h0 => hz (BitVec.eq_of_toNat_eq (hno.symm.trans h0))
      have hlt := (h.block_data hf hi hne).lt
      rw [if_pos hne, if_pos ⟨hz, by rw [← hno]; exact hlt⟩, hno]
  by_cases hdir : i < ndirect
  · refine hword (fDirectAddr f i) ?_ (link_direct hdir)
    unfold slotAt
    rw [if_pos hdir]
  · obtain rfl : i = ndirect := Nat.le_antisymm hi (Nat.le_of_not_lt hdir)
    by_cases hind : fIndirect m f = 0#32
    · have hno : blockNo m f ndirect = 0 := link_first_zero hind
      rw [if_neg (not_not_intro hno)]
      unfold Sisop.blockAt slotAt
      rw [if_neg hdir, if_neg fun hb => hb.2.1 hind]
      rfl
    · have hlt := ((h.fileOk hf).indirect hind).1.lt
      refine hword (blockAddr (fIndirect m f).toNat) ?_ (link_first hind)
      unfold slotAt
      rw [if_neg hdir, if_pos ⟨by decide, hind, hlt⟩, Nat.sub_self]
      exact congrArg some (BitVec.add_zero _)

/-- The size of a directory in blocks. -/
theorem TreeOk.dirLength_eq (h : TreeOk m) (hd : InTree m d) (hdir : fType m d = ftypeDir) :
    dirLength m d * 4096 = (fSize m d).toNat ∧ dirLength m d ≤ ndirect + 1 := by
  obtain ⟨hdvd, hle, -⟩ := h.dirs d hd hdir
  change (fSize m d).toNat ≤ (10 + 1) * 4096 at hle
  have hlen : dirLength m d = (fSize m d).toNat / 4096 := sdiv_block (by omega)
  rw [hlen]
  change _ ∧ _ ≤ 10 + 1
  omega

theorem TreeOk.mem_files (h : TreeOk m) (hd : InTree m d) (hdir : fType m d = ftypeDir) :
    e ∈ filesFrom m d 0 (dirLength m d) ↔
      ∃ i j, i < dirLength m d ∧ blockNo m d i ≠ 0 ∧ j < blkfiles ∧ e = slotAddr (blockNo m d i) j := by
  have hlow := (h.dirLength_eq hd hdir).2
  unfold filesFrom
  rw [List.mem_flatMap]
  constructor
  · rintro ⟨i, hi, he⟩
    rw [List.mem_range'_1, Nat.zero_add] at hi
    rw [h.blockAt hd (Nat.le_of_lt_succ (Nat.lt_of_lt_of_le hi.2 hlow))] at he
    by_cases hb : blockNo m d i ≠ 0
    · rw [if_pos hb] at he
      obtain ⟨j, hj, rfl⟩ := List.mem_map.mp he
      exact ⟨i, j, hi.2, hb, List.mem_range.mp hj, rfl⟩
    · rw [if_neg hb] at he
      cases he
  · rintro ⟨i, j, hi, hb, hj, rfl⟩
    refine ⟨i, by rw [List.mem_range'_1]; omega, ?_⟩
    rw [h.blockAt hd (Nat.le_of_lt_succ (Nat.lt_of_lt_of_le hi hlow)), if_pos hb]
    exact List.mem_map.mpr ⟨j, List.mem_range.mpr hj, rfl⟩

theorem nameAt_of_lookup (h : lookupIn m d name = some f) : nameAt m f = name := by
  unfold lookupIn at h
  have hfound := List.find?_some h
  exact of_decide_eq_true hfound

theorem nameAt_nil : nameAt m f = [] ↔ m f = 0#8 := by
  unfold nameAt
  rw [show maxnamelen = 127 + 1 from rfl, readBytes_succ, List.takeWhile_cons]
  by_cases hz : m f = 0#8
  · simp [hz]
  · simp [hz]

/-- What names lead to is in the tree. -/
theorem Reaches.inTree (h : TreeOk m) (hr : Reaches m ns dir f) (hne : [] ∉ ns) : InTree m f := by
  induction hr with
  | root => exact .root
  | @step ns name dir d f hr _ hdir hname ih =>
    have hd := ih fun hmem => hne (List.mem_append_left _ hmem)
    have hn : nameAt m f ≠ [] := by
      rw [nameAt_of_lookup hname]
      rintro rfl
      exact hne (List.mem_append_right _ List.mem_cons_self)
    obtain ⟨i, j, hi, hb, hj, rfl⟩ := (h.mem_files hd hdir).mp (mem_of_lookupIn hname)
    have hsize := (h.dirLength_eq hd hdir).1
    exact .entry hd hdir (by omega) hb hj (mt nameAt_nil.mpr hn)

/-- There is one path to a file. -/
theorem Reaches.unique {ns' : List Name} {dir' : Option Word} (h : TreeOk m) (hr : Reaches m ns dir f)
    (hr' : Reaches m ns' dir' f) (hne : [] ∉ ns) (hne' : [] ∉ ns') : ns = ns' ∧ dir = dir' := by
  -- a file in a block of a directory is not the root
  have hroot {b j : ℕ} (hb : DataBlock m b) (hj : j < blkfiles) : rootAddr ≠ slotAddr b j := by
    intro heq
    have hblock := blockOf_slotAddr (Nat.lt_of_lt_of_le hb.lt h.good.size) hj
    rw [← heq, show blockOf rootAddr = 1 by decide] at hblock
    have hstart := hb.start
    unfold dataStart at hstart
    omega
  have hhome {ns : List Name} {name : Name} {dir : Option Word} {d f : Word} (hd : Reaches m ns dir d)
      (hdir : fType m d = ftypeDir) (hname : lookupIn m d name = some f) (hne : [] ∉ ns ++ [name]) :
      InTree m d ∧ ∃ i j, i ≤ ndirect ∧ blockNo m d i ≠ 0 ∧ DataBlock m (blockNo m d i) ∧ j < blkfiles ∧
        f = slotAddr (blockNo m d i) j := by
    have hin := hd.inTree h fun hmem => hne (List.mem_append_left _ hmem)
    obtain ⟨i, j, hi, hb, hj, heq⟩ := (h.mem_files hin hdir).mp (mem_of_lookupIn hname)
    have hle := Nat.le_of_lt_succ (Nat.lt_of_lt_of_le hi (h.dirLength_eq hin hdir).2)
    exact ⟨hin, i, j, hle, hb, h.block_data hin hle hb, hj, heq⟩
  induction hr generalizing ns' dir' with
  | root =>
    cases hr' with
    | root => exact ⟨rfl, rfl⟩
    | step hd' _ hdir' hname' =>
      obtain ⟨-, i, j, -, -, hdata, hj, heq⟩ := hhome hd' hdir' hname' hne'
      exact absurd heq (hroot hdata hj)
  | @step ns name dir d f hd _ hdir hname ih =>
    obtain ⟨hin, i, j, hi, hb, hdata, hj, heq⟩ := hhome hd hdir hname hne
    cases hr' with
    | root => exact absurd heq (hroot hdata hj)
    | @step ns' name' dir' d' f hd' _ hdir' hname' =>
      obtain ⟨hin', i', j', hi', hb', hdata', hj', heq'⟩ := hhome hd' hdir' hname' hne'
      have hblock := blockOf_slotAddr (Nat.lt_of_lt_of_le hdata.lt h.good.size) hj
      have hblock' := blockOf_slotAddr (Nat.lt_of_lt_of_le hdata'.lt h.good.size) hj'
      rw [← heq] at hblock
      rw [← heq'] at hblock'
      obtain ⟨rfl, -⟩ := h.apart d d' (some i) (some i') hin hin' (lowLink_some hi) (lowLink_some hi') hb
        (hblock.symm.trans hblock')
      obtain ⟨rfl, -⟩ := ih hd' (fun hmem => hne (List.mem_append_left _ hmem))
        fun hmem => hne' (List.mem_append_left _ hmem)
      have hsame : name = name' := (nameAt_of_lookup hname).symm.trans (nameAt_of_lookup hname')
      rw [hsame]
      exact ⟨rfl, rfl⟩

end Sisop
