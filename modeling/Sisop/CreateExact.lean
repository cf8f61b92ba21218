import Sisop.CreateFile

/-! When `file_create` adds exactly one empty file to a consistent disk. -/
namespace Sisop

variable {s s' : Fs} {m : ByteMem} {d f : Word} {name : Name} {path : List (BitVec 8)} {b n : ℕ}

/-- The block that a full directory gets: the first free one, or the first that is left when
another has been taken for the indirect block. -/
def NextBlock (m : ByteMem) (d : Word) (b : ℕ) : Prop :=
  (dirLength m d < ndirect ∨ fIndirect m d ≠ 0#32) ∧ IsLeast (freeSet m) b ∨
    (ndirect ≤ dirLength m d ∧ fIndirect m d = 0#32) ∧
      ∃ c, IsLeast (freeSet m) c ∧ IsLeast {b ∈ freeSet m | b / 32 ≠ c / 32} b

/-- The place that a new file gets has nothing in it, and no names come with it. -/
def CreateClean (m : ByteMem) (path : List (BitVec 8)) : Prop :=
  ∀ d name, Missing m (components path) d name →
    (∀ f, freeFile m d = some f → Blank m f) ∧ (DirFull m d → ∀ b, NextBlock m d b → BlockClean m d name b)

/-- A `file_create` that returns 0 has added one empty file and nothing else. -/
def CreateExact (s : Fs) (path : List (BitVec 8)) : Prop :=
  ∀ f s', fileCreate fileGetBlock path s = .ret (.ok f) s' → Created s.mem s'.mem path f

section Runs

/-- The number of a block behind the last one of a directory is zero, where it has a place. -/
theorem TreeOk.next_slot (ht : TreeOk m) (hd : InTree m d) (hdir : fType m d = ftypeDir)
    (hlow : dirLength m d ≤ ndirect) (hplace : dirLength m d < ndirect ∨ fIndirect m d ≠ 0#32) :
    ∃ slot, slotAt m d (dirLength m d) = some slot ∧ loadWord m slot = 0#32 := by
  obtain ⟨-, -, hpast⟩ := ht.dirs d hd hdir
  have hno := hpast (dirLength m d) hlow (Nat.le_of_eq (ht.dirLength_eq hd hdir).1.symm)
  by_cases hi : dirLength m d < ndirect
  · refine ⟨fDirectAddr d (dirLength m d), by unfold slotAt; rw [if_pos hi], ?_⟩
    exact BitVec.eq_of_toNat_eq ((link_direct hi).symm.trans hno)
  · have heq : dirLength m d = ndirect := Nat.le_antisymm hlow (Nat.le_of_not_lt hi)
    have hind := hplace.resolve_left hi
    have hlt := ((ht.fileOk hd).indirect hind).1.lt
    rw [heq] at hi hno ⊢
    refine ⟨blockAddr (fIndirect m d).toNat, ?_, BitVec.eq_of_toNat_eq ((link_first hind).symm.trans hno)⟩
    unfold slotAt
    rw [if_neg hi, if_pos ⟨by decide, hind, hlt⟩, Nat.sub_self]
    exact congrArg some (BitVec.add_zero _)

/-- A full directory gets its next block. -/
theorem dirAllocFile_next (ht : TreeOk s.mem) (hd : InTree s.mem d) (hdir : fType s.mem d = ftypeDir)
    (hok : DirOk s.mem d) (hfull : DirFull s.mem d) (hlow : dirLength s.mem d ≤ ndirect) (hb : NextBlock s.mem d b) :
    ∃ s', dirAllocFile fileGetBlock d s = .ret (.ok (blockAddr b)) s' ∧
      DirGrown s.mem s'.mem d (dirLength s.mem d) b := by
  have hfile := ht.fileOk hd
  obtain ⟨hok₁, hind₁, hfree₁, -⟩ := hfile.size_changed (fSize s.mem d + 4096#32)
  rw [dirAllocFile_grow hok hfull]
  obtain ⟨hplace, hleast⟩ | ⟨⟨hn, hind⟩, c, hc, hleast⟩ := hb
  · obtain ⟨slot₀, hslot₀, hz₀⟩ := ht.next_slot hd hdir hlow hplace
    have hgrow := Growing.sized hfile hslot₀ hz₀
    obtain ⟨slot, hslot, hz⟩ := hgrow.slot
    rw [← hfree₁] at hleast
    let t := s.storeUint (fSizeAddr d) (fSize s.mem d + 4096#32)
    obtain ⟨s', hrun, hmem⟩ := @getSlot_room t d slot (dirLength s.mem d) b hok₁ hslot hz hleast
    refine ⟨s', (@fileGetBlock_slot t d slot (dirLength s.mem d) hslot).trans hrun, ?_⟩
    rw [hmem]
    exact hgrow.filled (Or.inl hind₁) hslot hleast.1
  · have heq : dirLength s.mem d = ndirect := Nat.le_antisymm hlow hn
    let t := s.storeUint (fSizeAddr d) (fSize s.mem d + 4096#32)
    have hneeds : NeedsIndirect t.mem d (dirLength s.mem d) := ⟨hn, by rw [heq]; decide, hind₁.trans hind⟩
    have hgrow := Growing.indirect hfile heq hc.1
    have hok₂ : FileOk t.mem d := hok₁
    have hfree₂ : freeSet t.mem = freeSet s.mem := hfree₁
    have hc₁ : IsLeast (freeSet t.mem) c := by
      rw [hfree₂]
      exact hc
    obtain ⟨-, hcind, -, hcfree, -⟩ := hok₂.indirect_filled hc₁.1
    obtain ⟨u, slot, hu, hslot, hz, hget⟩ := @fileGetBlock_indirect t d (dirLength s.mem d) c hok₂ hneeds hc₁
    have hset : freeSet u.mem = {b ∈ freeSet s.mem | b / 32 ≠ c / 32} := by
      rw [hu, hcfree, ← hfree₂]
      exact freeSet_takeMem hc₁.1
    have hgrow : Growing s.mem u.mem d (dirLength s.mem d) := by
      rw [hu]
      exact hgrow
    rw [← hset] at hleast
    obtain ⟨s', hrun, hmem⟩ := getSlot_room hgrow.ok hslot hz hleast
    refine ⟨s', hget.trans hrun, ?_⟩
    rw [hmem]
    refine hgrow.filled (Or.inr ?_) hslot hleast.1
    rw [hu, hcind]
    exact hc.1

/-- A full directory has got a block only if there was one for it. -/
theorem nextBlock_of_run (ht : TreeOk s.mem) (hd : InTree s.mem d) (hdir : fType s.mem d = ftypeDir)
    (hok : DirOk s.mem d) (hfull : DirFull s.mem d) (hlow : dirLength s.mem d ≤ ndirect)
    (hrun : dirAllocFile fileGetBlock d s = .ret (.ok f) s') : ∃ b, NextBlock s.mem d b := by
  have hfile := ht.fileOk hd
  obtain ⟨hok₁, hind₁, hfree₁, -⟩ := hfile.size_changed (fSize s.mem d + 4096#32)
  rw [dirAllocFile_grow hok hfull] at hrun
  let t := s.storeUint (fSizeAddr d) (fSize s.mem d + 4096#32)
  have hok₂ : FileOk t.mem d := hok₁
  have hfree₂ : freeSet t.mem = freeSet s.mem := hfree₁
  change fileGetBlock d (dirLength s.mem d) t = _ at hrun
  by_cases hplace : dirLength s.mem d < ndirect ∨ fIndirect s.mem d ≠ 0#32
  · obtain ⟨slot₀, hslot₀, hz₀⟩ := ht.next_slot hd hdir hlow hplace
    obtain ⟨slot, hslot, hz⟩ := (Growing.sized hfile hslot₀ hz₀).slot
    by_cases hnone : freeSet s.mem = ∅
    · rw [@fileGetBlock_slot t d slot (dirLength s.mem d) hslot, getSlot_full hok₂ hslot hz (hfree₂.trans hnone)] at hrun
      cases hrun
    · obtain ⟨b, hb⟩ := exists_least (Set.nonempty_iff_ne_empty.mpr hnone)
      exact ⟨b, Or.inl ⟨hplace, hb⟩⟩
  · rw [not_or, not_lt, not_not] at hplace
    obtain ⟨hn, hind⟩ := hplace
    have heq : dirLength s.mem d = ndirect := Nat.le_antisymm hlow hn
    have hneeds : NeedsIndirect t.mem d (dirLength s.mem d) := ⟨hn, by rw [heq]; decide, hind₁.trans hind⟩
    by_cases hnone : freeSet s.mem = ∅
    · rw [fileGetBlock_full hneeds (hfree₂.trans hnone)] at hrun
      cases hrun
    obtain ⟨c, hc⟩ := exists_least (Set.nonempty_iff_ne_empty.mpr hnone)
    have hc₁ : IsLeast (freeSet t.mem) c := by
      rw [hfree₂]
      exact hc
    obtain ⟨hoki, -, -, hcfree, -⟩ := hok₂.indirect_filled hc₁.1
    obtain ⟨u, slot, hu, hslot, hz, hget⟩ := fileGetBlock_indirect hok₂ hneeds hc₁
    have hset : freeSet u.mem = {b ∈ freeSet s.mem | b / 32 ≠ c / 32} := by
      rw [hu, hcfree, ← hfree₂]
      exact freeSet_takeMem hc₁.1
    rw [← hu] at hoki
    by_cases hnone' : freeSet u.mem = ∅
    · rw [hget, getSlot_full hoki hslot hz hnone'] at hrun
      cases hrun
    · obtain ⟨b, hb⟩ := exists_least (Set.nonempty_iff_ne_empty.mpr hnone')
      rw [hset] at hb
      exact ⟨b, Or.inr ⟨⟨hn, hind⟩, c, hc, hb⟩⟩

/-- The name is stored and the directory is flushed. -/
theorem fileCreate_run (hdirs : DirTree s.mem) (h0 : 0#8 ∉ path) (hm : Missing s.mem (components path) d name)
    {t : Fs} (halloc : dirAllocFile fileGetBlock d s = .ret (.ok f) t) (hfile : FileOk (namedMem t.mem f name) d)
    (hok : DirOk (namedMem t.mem f name) d) (hsize : (fSize (namedMem t.mem f name) d).toNat < 2^30) :
    ∃ s', fileCreate fileGetBlock path s = .ret (.ok f) s' ∧ s'.mem = namedMem t.mem f name := by
  obtain ⟨s', hflush, hmem⟩ := @fileFlush_run (t.storeBytes f (name ++ [0#8])) d hfile hok hsize
  refine ⟨s', ?_, hmem⟩
  rw [fileCreate_missing hdirs h0 hm, Routine.bind_ret halloc]
  dsimp only [orReturn]
  rw [Routine.modify_bind_run, Routine.bind_ret hflush]
  rfl

/-- A free file is taken. -/
theorem fileCreate_reused (ht : TreeOk s.mem) (hdirs : DirTree s.mem) (h0 : 0#8 ∉ path)
    (hm : Missing s.mem (components path) d name) (hf : freeFile s.mem d = some f) :
    ∃ s', fileCreate fileGetBlock path s = .ret (.ok f) s' ∧ s'.mem = namedMem s.mem f name := by
  obtain ⟨ns, dir, hpath, hr, hdir, hlen, hnone⟩ := hm
  have hns : [] ∉ ns := fun hmem => components_ne_nil path (hpath ▸ List.mem_append_left _ hmem)
  have hd := hr.inTree ht hns
  have hok := hdirs ns dir d hr hdir
  obtain ⟨hmem, -⟩ := freeFile_spec hf
  obtain ⟨i, j, hi, hb, hj, hfaddr⟩ := (ht.mem_files hd hdir).mp hmem
  have hle := Nat.le_of_lt_succ (Nat.lt_of_lt_of_le hi (ht.dirLength_eq hd hdir).2)
  have hentry : Entry s.mem f := Or.inr ⟨d, i, j, hd, hdir, hle, hb, hj, hfaddr⟩
  have hbound := ((hentry.place ht).bounds ht.good).2
  have hsame : SameOutside s.mem (namedMem s.mem f name) f.toNat 128 := namedMem_outside (by omega) hlen
  have htouched : OnlyTouched s.mem (namedMem s.mem f name) d f False :=
    (OnlyTouched.refl s.mem d f False).step hsame fun x hlo hhi => Or.inr ⟨hlo, hhi⟩
  have hplace : NewPlace s.mem d f := ⟨hdir, Or.inl ⟨i, j, hle, hb, hj, hfaddr⟩⟩
  have hn := htouched.nblocks ht hd hplace
  have hind := htouched.indirect ht hd hplace (ht.home hd) False.elim
  have hsize := htouched.size ht hd hplace (ht.home hd) False.elim
  have hsmall := (ht.dirs d hd hdir).2.1
  change (fSize s.mem d).toNat ≤ (10 + 1) * 4096 at hsmall
  apply fileCreate_run hdirs h0 ⟨ns, dir, hpath, hr, hdir, hlen, hnone⟩ (dirAllocFile_free hok hf)
  · refine (ht.fileOk hd).congr hn hind fun b hb' hold => ?_
    have hdata := ht.block_data hd hle hb
    have hstart := hdata.start
    have hslot := slotAddr_toNat (Nat.lt_of_lt_of_le hdata.lt ht.good.size) hj
    rw [freeBit_same hsame (Or.inr (by rw [hfaddr, hslot]; omega)) hb']
    exact hold
  · refine ⟨by rw [hsize]; exact hok.size, fun i hi => ?_⟩
    have hlength : dirLength (namedMem s.mem f name) d = dirLength s.mem d := by
      unfold dirLength
      rw [hsize]
    rw [hlength] at hi
    have hlow := Nat.le_of_lt_succ (Nat.lt_of_lt_of_le hi (ht.dirLength_eq hd hdir).2)
    rw [htouched.blockAt ht hd hplace hd False.elim hlow]
    exact hok.blocks i hi
  · rw [hsize]
    omega

/-- The directory gets a block for the file. -/
theorem fileCreate_grown (ht : TreeOk s.mem) (hdirs : DirTree s.mem) (h0 : 0#8 ∉ path)
    (hm : Missing s.mem (components path) d name) (hfull : DirFull s.mem d) (hlow : dirLength s.mem d ≤ ndirect)
    (hb : NextBlock s.mem d b) : ∃ m₂ s', fileCreate fileGetBlock path s = .ret (.ok (blockAddr b)) s' ∧
      DirGrown s.mem m₂ d (dirLength s.mem d) b ∧ s'.mem = namedMem m₂ (blockAddr b) name := by
  obtain ⟨ns, dir, hpath, hr, hdir, hlen, hnone⟩ := hm
  have hns : [] ∉ ns := fun hmem => components_ne_nil path (hpath ▸ List.mem_append_left _ hmem)
  have hd := hr.inTree ht hns
  have hok := hdirs ns dir d hr hdir
  obtain ⟨t, halloc, hgrown⟩ := dirAllocFile_next ht hd hdir hok hfull hlow hb
  obtain ⟨hlength, hsize, hblocks, hlast, hfile⟩ := hgrown.dir ht hd hdir rfl hlow hlen
  have hlow' : dirLength s.mem d ≤ 10 := hlow
  obtain ⟨s', hrun, hmem⟩ := fileCreate_run hdirs h0 ⟨ns, dir, hpath, hr, hdir, hlen, hnone⟩ halloc hfile
    (by
      refine ⟨?_, fun i hi => ?_⟩
      · apply BitVec.eq_of_toNat_eq
        rw [srem_block (by omega), hsize]
        exact Nat.mul_mod_left _ _
      · rw [hlength] at hi
        obtain hlt | heq := Nat.lt_succ_iff_lt_or_eq.mp hi
        · rw [hblocks i hlt]
          exact hok.blocks i hlt
        · rw [heq, hlast]
          rfl)
    (by omega)
  exact ⟨t.mem, s', hrun, hgrown, hmem⟩

/-- Only where a name is missing is a file created. -/
theorem fileCreate_ok (hdirs : DirTree s.mem) (h0 : 0#8 ∉ path)
    (hrun : fileCreate fileGetBlock path s = .ret (.ok f) s') : ∃ d name t, Missing s.mem (components path) d name ∧
      dirAllocFile fileGetBlock d s = .ret (.ok f) t := by
  have hwalk := walkPath_run hdirs h0
  cases hw : resolveFrom s.mem (components path) none rootAddr with
  | found dir f' =>
    rw [hw] at hwalk
    unfold fileCreate at hrun
    rw [Routine.bind_ret hwalk] at hrun
    cases (Outcome.ret.inj hrun).1
  | failed e =>
    rw [hw] at hwalk
    unfold fileCreate at hrun
    rw [Routine.bind_ret hwalk] at hrun
    cases (Outcome.ret.inj hrun).1
  | missing d name =>
    have hm := resolve_missing_iff.mp hw
    rw [fileCreate_missing hdirs h0 hm] at hrun
    obtain ⟨r, t, halloc, hrun⟩ := Routine.bind_eq_ret.mp hrun
    obtain ⟨e, -, heq, -⟩ | ⟨f', rfl, hrun⟩ := orReturn_ret hrun
    · cases heq
    · obtain ⟨-, u, -, hrun⟩ := Routine.bind_eq_ret.mp hrun
      obtain ⟨-, v, -, hrun⟩ := Routine.bind_eq_ret.mp hrun
      obtain ⟨heq, -⟩ := Outcome.ret.inj hrun
      cases heq
      exact ⟨d, name, t, hm, halloc⟩

end Runs

section Exact

/-- The characters of the names are those of the path. -/
theorem components_subset {name : Name} (h : name ∈ components path) : name ⊆ path := by
  have hsplit {p : BitVec 8 → Bool} (l : List (BitVec 8)) : ∀ xs ∈ l.splitOnP p, xs ⊆ l := by
    induction l with
    | nil =>
      intro xs hxs
      rw [List.mem_singleton.mp hxs]
      exact List.Subset.refl []
    | cons c l ih =>
      intro xs hxs
      rw [List.splitOnP_cons_eq_if_modifyHead] at hxs
      by_cases hc : p c = true
      · rw [if_pos hc] at hxs
        obtain rfl | hxs := List.mem_cons.mp hxs
        · exact List.nil_subset _
        · exact List.subset_cons_of_subset c (ih xs hxs)
      · rw [if_neg hc] at hxs
        obtain ⟨h, t, heq⟩ := List.exists_cons_of_ne_nil (List.splitOnP_ne_nil p l)
        rw [heq, List.modifyHead_cons] at hxs
        obtain rfl | hxs := List.mem_cons.mp hxs
        · exact List.cons_subset_cons c (ih h (heq ▸ List.mem_cons_self))
        · exact List.subset_cons_of_subset c (ih xs (heq ▸ List.mem_cons_of_mem h hxs))
  exact hsplit path name (List.mem_of_mem_filter h)

theorem Missing.name_ok (hm : Missing m (components path) d name) (h0 : 0#8 ∉ path) : 0#8 ∉ name := by
  obtain ⟨ns, dir, hpath, -⟩ := hm
  have hmem : name ∈ components path := hpath ▸ List.mem_append_right _ List.mem_cons_self
  exact fun hc => h0 (components_subset hmem hc)

theorem Missing.inTree (hm : Missing m (components path) d name) (ht : TreeOk m) : InTree m d := by
  obtain ⟨ns, dir, hpath, hr, -⟩ := hm
  exact hr.inTree ht fun hmem => components_ne_nil path (hpath ▸ List.mem_append_left _ hmem)

/-- What a new file is created with, if its place is a free one of the directory. -/
theorem created_reused (ht : TreeOk s.mem) (h0 : 0#8 ∉ path) (hm : Missing s.mem (components path) d name)
    (hf : freeFile s.mem d = some f) : Created s.mem (namedMem s.mem f name) path f ↔ Blank s.mem f := by
  have hd := hm.inTree ht
  have hname := hm.name_ok h0
  obtain ⟨ns, dir, hpath, hr, hdir, hlen, hnone⟩ := id hm
  obtain ⟨i, j, hi, hb, hj, hfaddr⟩ := (ht.mem_files hd hdir).mp (freeFile_spec hf).1
  have hle := Nat.le_of_lt_succ (Nat.lt_of_lt_of_le hi (ht.dirLength_eq hd hdir).2)
  have hentry : Entry s.mem f := Or.inr ⟨d, i, j, hd, hdir, hle, hb, hj, hfaddr⟩
  have hbound := ((hentry.place ht).bounds ht.good).2
  have hblank : Blank (namedMem s.mem f name) f ↔ Blank s.mem f := Blank.named (by omega) hlen
  constructor
  · exact fun hcreated => hblank.mp hcreated.blank
  · intro h
    exact (ht.reused hd hdir hf hname hlen hnone h.type).created ht hm (hblank.mpr h)

/-- The same for a new block of the directory. -/
theorem created_grown {m₂ : ByteMem} (ht : TreeOk s.mem) (h0 : 0#8 ∉ path) (hm : Missing s.mem (components path) d name)
    (hlow : dirLength s.mem d ≤ ndirect) (hg : DirGrown s.mem m₂ d (dirLength s.mem d) b) :
    Created s.mem (namedMem m₂ (blockAddr b) name) path (blockAddr b) ↔ BlockClean s.mem d name b := by
  have hd := hm.inTree ht
  have hname := hm.name_ok h0
  obtain ⟨ns, dir, hpath, hr, hdir, hlen, hnone⟩ := id hm
  constructor
  · intro hcreated
    refine ⟨(hg.blank_iff ht.good ht.zero hlen).mp hcreated.blank, fun j hj0 hj => ?_⟩
    by_cases hnil : nameAt s.mem (slotAddr b j) = []
    · exact Or.inl hnil
    by_cases hnew : nameAt s.mem (slotAddr b j) = name
    · exact Or.inr (Or.inl hnew)
    right; right
    -- a name that came with the block can be looked up now
    have hnames := hcreated.names ns dir d name hpath hr _ hnil
    rw [or_iff_left hnew] at hnames
    rw [← hnames, hg.lookup ht hd hdir rfl hlow hname hlen, if_neg hnew]
    cases lookupIn s.mem d (nameAt s.mem (slotAddr b j)) with
    | some e => rfl
    | none =>
      rw [Option.none_or, List.find?_isSome]
      refine ⟨slotAddr b j, List.mem_map.mpr ⟨j, ?_, rfl⟩, decide_eq_true rfl⟩
      change j < 16 at hj
      rw [List.mem_range'_1]
      omega
  · intro hclean
    exact (hg.added ht hd hdir rfl hlow hname hlen hnone hclean).created ht hm
      ((hg.blank_iff ht.good ht.zero hlen).mpr hclean.blank)

/-- The directory of a new file is not one of eleven full blocks: the number of a twelfth block is
stored over that of the eleventh. -/
def NoTwelfth (m : ByteMem) (path : List (BitVec 8)) : Prop :=
  ∀ d name, Missing m (components path) d name → DirFull m d → dirLength m d ≤ ndirect

/-- `file_create` adds exactly one empty file if its place is clean, and only then. -/
theorem file_create_iff (ht : TreeOk s.mem) (hdirs : DirTree s.mem) (h0 : 0#8 ∉ path) :
    (NoTwelfth s.mem path ∧ CreateClean s.mem path → CreateExact s path) ∧
      (NoTwelfth s.mem path ∧ CreateExact s path → CreateClean s.mem path) := by
  constructor
  · rintro ⟨hlow, hclean⟩ f s' hrun
    obtain ⟨d, name, t, hm, halloc⟩ := fileCreate_ok hdirs h0 hrun
    obtain ⟨hreused, hgrown⟩ := hclean d name hm
    cases hf : freeFile s.mem d with
    | some f' =>
      obtain ⟨s'', hrun', hmem⟩ := fileCreate_reused ht hdirs h0 hm hf
      obtain ⟨hsame, rfl⟩ := Outcome.ret.inj (hrun.symm.trans hrun')
      obtain rfl := Except.ok.inj hsame
      rw [hmem]
      exact (created_reused ht h0 hm hf).mpr (hreused f hf)
    | none =>
      have hfull := freeFile_none.mp hf
      have hlength := hlow d name hm hfull
      obtain ⟨ns, dir, hr, hdir⟩ := hm.reaches
      obtain ⟨b, hb⟩ := nextBlock_of_run ht (hm.inTree ht) hdir (hdirs ns dir d hr hdir) hfull hlength halloc
      obtain ⟨m₂, s'', hrun', hg, hmem⟩ := fileCreate_grown ht hdirs h0 hm hfull hlength hb
      obtain ⟨hsame, rfl⟩ := Outcome.ret.inj (hrun.symm.trans hrun')
      obtain rfl := Except.ok.inj hsame
      rw [hmem]
      exact (created_grown ht h0 hm hlength hg).mpr (hgrown hfull b hb)
  · rintro ⟨hlow, hexact⟩ d name hm
    refine ⟨fun f hf => ?_, fun hfull b hb => ?_⟩
    · obtain ⟨s', hrun, hmem⟩ := fileCreate_reused ht hdirs h0 hm hf
      have hcreated := hexact f s' hrun
      rw [hmem] at hcreated
      exact (created_reused ht h0 hm hf).mp hcreated
    · obtain ⟨m₂, s', hrun, hg, hmem⟩ := fileCreate_grown ht hdirs h0 hm hfull (hlow d name hm hfull) hb
      have hcreated := hexact _ s' hrun
      rw [hmem] at hcreated
      exact (created_grown ht h0 hm (hlow d name hm hfull) hg).mp hcreated

/-- The only block that belongs to a file is the first one of the root directory. -/
theorem oneFileFs_link {f : Word} {k : Option ℕ} (hf : f = rootAddr ∨ ∃ j < blkfiles, f = slotAddr 3 j)
    (hk : LowLink k) (hne : link oneFileFs.mem f k ≠ 0) : f = rootAddr ∧ k = some 0 ∧ link oneFileFs.mem f k = 3 := by
  obtain ⟨-, -, -, hind, hdirect, hfirst, hfiles⟩ := oneFileFs_words
  obtain rfl | ⟨j, hj, rfl⟩ := hf
  · cases k with
    | none => exact absurd (congrArg BitVec.toNat hind) hne
    | some i =>
      obtain hi | rfl := Nat.lt_or_eq_of_le (hk i rfl)
      · have hno := hdirect i hi
        by_cases h0 : i = 0
        · rw [if_pos h0] at hno
          exact ⟨rfl, by rw [h0], hno⟩
        · rw [if_neg h0] at hno
          exact absurd hno hne
      · exact absurd hfirst hne
  · obtain ⟨hind, hdirect⟩ := hfiles j hj
    cases k with
    | none => exact absurd (congrArg BitVec.toNat hind) hne
    | some i =>
      obtain hi | rfl := Nat.lt_or_eq_of_le (hk i rfl)
      · exact absurd ((link_direct hi).trans (congrArg BitVec.toNat (hdirect i hi))) hne
      · exact absurd (link_first_zero hind) hne

theorem oneFileFs_treeOk : TreeOk oneFileFs.mem := by
  obtain ⟨⟨-, htypes⟩, hsize, -⟩ := oneFileFs_dir
  obtain ⟨-, hbits, -, -, hdirect, -⟩ := oneFileFs_words
  have hdir {d : Word} (hd : d = rootAddr ∨ ∃ j < blkfiles, d = slotAddr 3 j) (hdir : fType oneFileFs.mem d = ftypeDir) :
      d = rootAddr := by
    obtain hd | ⟨j, hj, rfl⟩ := hd
    · exact hd
    · rw [show fType oneFileFs.mem (slotAddr 3 j) = 0#32 from htypes j hj] at hdir
      exact absurd hdir (by decide)
  have hclosed : Closed oneFileFs.mem fun f => f = rootAddr ∨ ∃ j < blkfiles, f = slotAddr 3 j := by
    refine ⟨Or.inl rfl, fun d i j hd hdird hi hb hj _ => Or.inr ⟨j, hj, ?_⟩⟩
    obtain rfl := hdir hd hdird
    rw [hsize] at hi
    obtain rfl : i = 0 := by
      change i * 4096 < 4096 at hi
      omega
    rw [hdirect 0 (by decide)]
    rfl
  refine TreeOk.of_closed hclosed oneFileFs_good (hbits 0 (by decide)) ?_ ?_ ?_
  · intro f k hf hk hne
    rw [(oneFileFs_link hf hk hne).2.2]
    exact oneFileFs_data
  · intro f g k l hf hg hk hl hne heq
    obtain ⟨rfl, rfl, -⟩ := oneFileFs_link hf hk hne
    obtain ⟨rfl, rfl, -⟩ := oneFileFs_link hg hl (heq ▸ hne)
    exact ⟨rfl, rfl⟩
  · intro d hd hdird
    obtain rfl := hdir hd hdird
    rw [hsize]
    refine ⟨by decide, by decide, fun i hi hpast => ?_⟩
    by_contra hne
    obtain ⟨-, h0, -⟩ := oneFileFs_link (k := some i) (Or.inl rfl) (lowLink_some hi) hne
    obtain rfl := Option.some.inj h0
    exact absurd hpast (by decide)

theorem create_second :
    (NoTwelfth oneFileFs.mem [98#8] ∧ CreateClean oneFileFs.mem [98#8] → CreateExact oneFileFs [98#8]) ∧
      (NoTwelfth oneFileFs.mem [98#8] ∧ CreateExact oneFileFs [98#8] → CreateClean oneFileFs.mem [98#8]) :=
  file_create_iff oneFileFs_treeOk oneFileFs_tree (by decide)

end Exact

section Stale

/-- An empty root directory, and a free block with bytes of a file that was there before. -/
def staleFs : Fs :=
  let m := storeWord (storeWord (fun _ => 0#8) nblocksAddr 8#32) (fTypeAddr rootAddr) ftypeDir
  let m := storeWord m (bitmapAddr 0) 8#32
  ⟨fun a => if blockOf a = 3 then 97#8 else m a, fun _ => 0#8, fun _ => false⟩

theorem staleFs_words : (fType staleFs.mem rootAddr = ftypeDir ∧ fSize staleFs.mem rootAddr = 0#32 ∧
      fIndirect staleFs.mem rootAddr = 0#32 ∧ ∀ i < ndirect, loadWord staleFs.mem (fDirectAddr rootAddr i) = 0#32) ∧
    nblocksIn staleFs.mem = 8 ∧ (∀ b < 3, freeBit staleFs.mem b = false) ∧ freeBit staleFs.mem 3 = true ∧
    dirLength staleFs.mem rootAddr = 0 ∧ fType staleFs.mem (slotAddr 3 0) ≠ 0#32 := by
  decide +kernel

theorem staleFs_good : GoodSuper staleFs.mem := by
  obtain ⟨-, hn, hbits, -⟩ := staleFs_words
  exact GoodSuper.of_small hn (by decide) (by decide) (hbits 1 (by decide)) (hbits 2 (by decide))

/-- The root directory has no block. -/
theorem staleFs_link {k : Option ℕ} (hk : LowLink k) : link staleFs.mem rootAddr k = 0 := by
  obtain ⟨⟨-, -, hind, hdirect⟩, -⟩ := staleFs_words
  cases k with
  | none => exact congrArg BitVec.toNat hind
  | some i =>
    obtain hi | rfl := Nat.lt_or_eq_of_le (hk i rfl)
    · exact (link_direct hi).trans (congrArg BitVec.toNat (hdirect i hi))
    · exact link_first_zero hind

theorem staleFs_treeOk : TreeOk staleFs.mem := by
  obtain ⟨⟨-, hsize, -, -⟩, -, hbits, -⟩ := staleFs_words
  have hclosed : Closed staleFs.mem fun f => f = rootAddr := by
    refine ⟨rfl, fun d i j hd _ hi _ _ _ => ?_⟩
    rw [hd, hsize] at hi
    exact absurd hi (Nat.not_lt_zero _)
  refine TreeOk.of_closed hclosed staleFs_good (hbits 0 (by decide)) ?_ ?_ ?_
  · rintro f k rfl hk hne
    exact absurd (staleFs_link hk) hne
  · rintro f g k l rfl - hk - hne -
    exact absurd (staleFs_link hk) hne
  · rintro d rfl -
    rw [hsize]
    exact ⟨by decide, by decide, fun i hi _ => staleFs_link (lowLink_some hi)⟩

theorem staleFs_length : dirLength staleFs.mem rootAddr = 0 := staleFs_words.2.2.2.2.1

theorem staleFs_files : filesFrom staleFs.mem rootAddr 0 (dirLength staleFs.mem rootAddr) = [] := by
  rw [staleFs_length]
  rfl

theorem staleFs_reaches {ns : List Name} {dir : Option Word} {f : Word} (h : Reaches staleFs.mem ns dir f) :
    f = rootAddr := by
  induction h with
  | root => rfl
  | step _ _ _ hname ih =>
    unfold lookupIn at hname
    rw [ih, staleFs_files] at hname
    cases hname

theorem staleFs_tree : DirTree staleFs.mem := by
  intro ns dir d hr _
  rw [staleFs_reaches hr]
  refine ⟨by rw [staleFs_words.1.2.1]; decide, fun i hi => ?_⟩
  rw [staleFs_length] at hi
  exact absurd hi (Nat.not_lt_zero i)

theorem staleFs_missing : Missing staleFs.mem (components [97#8]) rootAddr [97#8] := by
  refine ⟨[], none, rfl, .root, staleFs_words.1.1, by decide, ?_⟩
  unfold lookupIn
  rw [staleFs_files]
  rfl

theorem staleFs_next : NextBlock staleFs.mem rootAddr 3 := by
  obtain ⟨-, hn, hused, hfree, -⟩ := staleFs_words
  refine Or.inl ⟨Or.inl (by rw [staleFs_length]; decide), mem_freeSet.mpr ⟨by rw [hn]; decide, hfree⟩, ?_⟩
  intro b hb
  by_contra hlt
  have hbit := (mem_freeSet.mp hb).2
  rw [hused b (Nat.lt_of_not_le hlt)] at hbit
  cases hbit

/-- The type of the new file is what its block had there. -/
theorem create_stale : TreeOk staleFs.mem ∧ DirTree staleFs.mem ∧ NoTwelfth staleFs.mem [97#8] ∧ ¬ CreateExact staleFs [97#8] := by
  have hfull : DirFull staleFs.mem rootAddr := by
    intro f hf
    rw [staleFs_files] at hf
    cases hf
  have hlow : dirLength staleFs.mem rootAddr ≤ ndirect := by
    rw [staleFs_length]
    exact Nat.zero_le _
  have htype := staleFs_words.2.2.2.2.2
  obtain ⟨m₂, s', hrun, hg, hmem⟩ :=
    fileCreate_grown staleFs_treeOk staleFs_tree (by decide) staleFs_missing hfull hlow staleFs_next
  refine ⟨staleFs_treeOk, staleFs_tree, fun d name hm _ => ?_, fun hexact => ?_⟩
  · obtain ⟨ns, dir, hr, -⟩ := hm.reaches
    rw [staleFs_reaches hr]
    exact hlow
  · have hcreated := hexact _ s' hrun
    rw [hmem] at hcreated
    have hclean := (created_grown staleFs_treeOk (by decide) staleFs_missing hlow hg).mp hcreated
    exact htype hclean.blank.type

end Stale

end Sisop
