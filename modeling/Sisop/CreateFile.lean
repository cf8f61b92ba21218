import Sisop.CreateFrame

/-! A `file_create` that returns has added one empty file, if the place for the file was all
zero and no other name came with it. -/
namespace Sisop

section Flush

variable {s s' : Fs} {m : ByteMem} {f slot blk va : Word} {i b : ℕ}

theorem diskaddr_run (hb : b ≠ 0) (hlt : b < nblocksIn s.mem) :
    diskaddr (BitVec.ofNat 32 b) s = .ret (blockAddr b) s := by
  have hval : (BitVec.ofNat 32 b).toNat = b := by
    rw [BitVec.toNat_ofNat, Nat.mod_eq_of_lt (Nat.lt_trans hlt (nblocksIn_lt _))]
  have hne : BitVec.ofNat 32 b ≠ 0#32 := by
    intro hz
    rw [hz] at hval
    exact hb hval.symm
  unfold diskaddr
  rw [Routine.bind_ret (Routine.get_run s), Routine.panicUnless_bind ⟨hne, by rw [hval]; exact hlt⟩, hval]
  rfl

theorem flushBlock_run (hva : blockOf va < diskBlocks) (s : Fs) : ∃ s', flushBlock va s = .ret () s' ∧ s'.mem = s.mem := by
  have hin : InDiskmap (rounddown va) := by
    rw [inDiskmap_iff, blockOf_rounddown]
    exact hva
  refine ⟨s.flush (blockOf va), ?_, flush_mem s _⟩
  unfold flushBlock
  rw [Routine.panicUnless_bind hin]
  rfl

theorem flushFileBlock_run (hsize : nblocksIn s.mem ≤ diskBlocks) (h : blockAt s.mem f i = some blk) :
    ∃ s', flushFileBlock f i s = .ret () s' ∧ s'.mem = s.mem := by
  unfold blockAt at h
  cases hslot : slotAt s.mem f i with
  | none =>
    rw [hslot] at h
    cases h
  | some slot =>
    rw [hslot] at h
    dsimp only [bind, Option.bind] at h
    split_ifs at h with hb
    have hdisk : (loadWord s.mem slot).toNat < diskBlocks := Nat.lt_of_lt_of_le hb.2 hsize
    have hne : (loadWord s.mem slot).toNat ≠ 0 := fun h0 => hb.1 (BitVec.eq_of_toNat_eq h0)
    have hva := diskaddr_run hne hb.2
    rw [BitVec.ofNat_toNat, BitVec.setWidth_eq] at hva
    obtain ⟨s', hflush, hmem⟩ := flushBlock_run
      (by rw [blockOf_blockAddr hdisk]; exact hdisk : blockOf (blockAddr (loadWord s.mem slot).toNat) < diskBlocks) s
    refine ⟨s', ?_, hmem⟩
    unfold flushFileBlock
    rw [Routine.bind_ret (fileBlockWalk_at hslot false)]
    dsimp only
    rw [Routine.bind_ret (Routine.get_run s), if_neg hb.1, Routine.bind_ret hva]
    exact hflush

/-- A directory is flushed without a panic. -/
theorem fileFlush_run (hf : FileOk s.mem f) (hdir : DirOk s.mem f) (hlen : (fSize s.mem f).toNat < 2^30) :
    ∃ s', fileFlush f s = .ret () s' ∧ s'.mem = s.mem := by
  have hsize := hf.good.size
  obtain ⟨hblock, -, -, -, -⟩ := hf.home
  have hhome : blockOf f < diskBlocks := by
    obtain hone | hdata := hblock
    · rw [hone]
      decide
    · exact Nat.lt_of_lt_of_le hdata.lt hsize
  -- the size is a multiple of that of a block
  have hrem : (fSize s.mem f).toNat % 4096 = 0 := by
    rw [← srem_block (by omega), hdir.size]
    rfl
  have hlength : dirLength s.mem f = (fSize s.mem f).toNat / 4096 := sdiv_block (by omega)
  have hadd : (fSize s.mem f + 4095#32).toNat = (fSize s.mem f).toNat + 4095 := by bv_omega
  have hrounds : ((fSize s.mem f + 4095#32).sdiv 4096#32).toInt.toNat = dirLength s.mem f := by
    have hdiv : ((fSize s.mem f + 4095#32).sdiv 4096#32).toNat = (fSize s.mem f + 4095#32).toNat / 4096 :=
      sdiv_block (by omega)
    rw [BitVec.toInt_eq_toNat_of_lt (by omega), Int.toNat_natCast, hdiv, hlength]
    omega
  obtain ⟨t, hloop, ht⟩ : ∃ t, Routine.loop (dirLength s.mem f) (flushFileBlock f) s = .ret () t ∧ t.mem = s.mem := by
    apply Routine.loop_total (fun _ (t : Fs) => t.mem = s.mem) (dirLength s.mem f) (rfl : s.mem = s.mem)
    intro i t hi ht
    obtain ⟨blk, hblk⟩ := Option.isSome_iff_exists.mp (hdir.blocks i hi)
    obtain ⟨t', hrun, hmem⟩ := @flushFileBlock_run t f blk i (by rw [ht]; exact hsize) (by rw [ht]; exact hblk)
    exact ⟨t', hrun, hmem.trans ht⟩
  obtain ⟨u, hflush, hu⟩ := flushBlock_run hhome t
  unfold fileFlush
  rw [Routine.bind_ret (Routine.get_run s), hrounds, Routine.bind_ret hloop, Routine.bind_ret hflush]
  by_cases hind : fIndirect s.mem f = 0#32
  · exact ⟨u, by rw [if_neg (not_not_intro hind)]; rfl, hu.trans ht⟩
  · have hmem : u.mem = s.mem := hu.trans ht
    have hlt := (hf.indirect hind).1.lt
    have hne : (fIndirect s.mem f).toNat ≠ 0 := fun h0 => hind (BitVec.eq_of_toNat_eq h0)
    have hva := @diskaddr_run u (fIndirect s.mem f).toNat hne (by rw [hmem]; exact hlt)
    rw [BitVec.ofNat_toNat, BitVec.setWidth_eq] at hva
    have hdisk := Nat.lt_of_lt_of_le hlt hsize
    obtain ⟨v, hrun, hv⟩ := flushBlock_run
      (by rw [blockOf_blockAddr hdisk]; exact hdisk : blockOf (blockAddr (fIndirect s.mem f).toNat) < diskBlocks) u
    refine ⟨v, ?_, hv.trans hmem⟩
    rw [if_pos hind, Routine.bind_ret hva]
    exact hrun

end Flush

section Added

variable {m m' : ByteMem} {d f g : Word} {name : Name} {ns : List Name} {dir : Option Word} {grow : Prop}
  {path : List (BitVec 8)} {rest : List Word}

/-- A regular file without any bytes or blocks. -/
structure Blank (m : ByteMem) (f : Word) : Prop where
  type : fType m f = 0#32
  size : fSize m f = 0#32
  direct : ∀ i < ndirect, loadWord m (fDirectAddr f i) = 0#32
  indirect : fIndirect m f = 0#32

/-- One empty file has been added, under the last name of a path. The names of a directory are those in its files, also
those that fill `f_name` and so can never be looked up. -/
structure Created (m m' : ByteMem) (path : List (BitVec 8)) (f : Word) : Prop where
  found : ∃ d, Reaches m' (components path) (some d) f
  names : ∀ ns dir d name, components path = ns ++ [name] → Reaches m ns dir d →
    ∀ n : Name, n ≠ [] → ((lookupIn m' d n).isSome ↔ (lookupIn m d n).isSome ∨ n = name)
  others : ∀ path', components path' ≠ components path →
    ∀ dir g, Reaches m' (components path') dir g ↔ Reaches m (components path') dir g
  blank : Blank m' f

/-- The map of a directory has got one name more, and nothing else in the tree is different. -/
structure Added (m m' : ByteMem) (d f : Word) (name : Name) (grow : Prop) : Prop where
  touched : OnlyTouched m m' d f grow
  place : NewPlace m d f
  lookup : ∀ n : Name, n ≠ [] → lookupIn m' d n = if n = name then some f else lookupIn m d n
  type : fType m' f ≠ ftypeDir

theorem components_ne_nil (path : List (BitVec 8)) : [] ∉ components path := by
  intro hmem
  have hkept := (List.mem_filter.mp hmem).2
  simp at hkept

/-- What could be reached can still be. -/
theorem Added.reaches (h : Added m m' d f name grow) (ht : TreeOk m) (hd : InTree m d)
    (hnone : lookupIn m d name = none) (hr : Reaches m ns dir g) (hne : [] ∉ ns) : Reaches m' ns dir g := by
  induction hr with
  | root => exact .root
  | @step ns n dir d' g hr hlen hdir hn ih =>
    have hns : [] ∉ ns := fun hmem => hne (List.mem_append_left _ hmem)
    have hn0 : n ≠ [] := fun hn0 => hne (List.mem_append_right _ (List.mem_singleton.mpr hn0.symm))
    have hin := hr.inTree ht hns
    refine (ih hns).step hlen ((h.touched.type ht hd h.place (ht.home hin)).trans hdir) ?_
    by_cases hself : d' = d
    · rw [hself] at hn ⊢
      have hother : n ≠ name := by
        rintro rfl
        rw [hnone] at hn
        cases hn
      rw [h.lookup n hn0, if_neg hother]
      exact hn
    · rw [h.touched.lookup ht hd h.place hin hdir hself]
      exact hn

/-- Only the new file can be reached and could not be before. -/
theorem Added.reaches_only (h : Added m m' d f name grow) (ht : TreeOk m) (hd : InTree m d)
    (hr : Reaches m' ns dir g) (hne : [] ∉ ns) : Reaches m ns dir g ∨
      ∃ ns₀ dir₀, ns = ns₀ ++ [name] ∧ Reaches m ns₀ dir₀ d ∧ dir = some d ∧ g = f := by
  induction hr with
  | root => exact Or.inl .root
  | @step ns n dir d' g hr hlen hdir hn ih =>
    have hns : [] ∉ ns := fun hmem => hne (List.mem_append_left _ hmem)
    have hn0 : n ≠ [] := fun hn0 => hne (List.mem_append_right _ (List.mem_singleton.mpr hn0.symm))
    rcases ih hns with hr | ⟨ns₀, dir₀, rfl, -, -, rfl⟩
    · have hin := hr.inTree ht hns
      have hdir' : fType m d' = ftypeDir := (h.touched.type ht hd h.place (ht.home hin)).symm.trans hdir
      by_cases hself : d' = d
      · rw [hself] at hn hr hdir'
        rw [h.lookup n hn0] at hn
        by_cases hname : n = name
        · rw [if_pos hname] at hn
          exact Or.inr ⟨ns, dir, by rw [hname], hr, by rw [hself], (Option.some.inj hn).symm⟩
        · rw [if_neg hname] at hn
          rw [hself]
          exact Or.inl (hr.step hlen hdir' hn)
      · rw [h.touched.lookup ht hd h.place hin hdir' hself] at hn
        exact Or.inl (hr.step hlen hdir' hn)
    · exact absurd hdir h.type

theorem Added.created (h : Added m m' d f name grow) (ht : TreeOk m) (hm : Missing m (components path) d name)
    (hblank : Blank m' f) : Created m m' path f := by
  obtain ⟨ns, dir, hpath, hr, hdir, hlen, hnone⟩ := hm
  have hne : [] ∉ ns ++ [name] := hpath ▸ components_ne_nil path
  have hns : [] ∉ ns := fun hmem => hne (List.mem_append_left _ hmem)
  have hn0 : name ≠ [] := fun hn0 => hne (List.mem_append_right _ (List.mem_singleton.mpr hn0.symm))
  have hd := hr.inTree ht hns
  constructor
  case found =>
    refine ⟨d, ?_⟩
    rw [hpath]
    refine (h.reaches ht hd hnone hr hns).step hlen ((h.touched.type ht hd h.place (ht.home hd)).trans hdir) ?_
    rw [h.lookup name hn0, if_pos rfl]
  case names =>
    intro ns' dir' d' name' hpath' hr' n hn
    obtain ⟨rfl, hname⟩ := List.append_inj' (hpath.symm.trans hpath') rfl
    obtain rfl := List.cons.inj hname |>.1
    obtain ⟨rfl, rfl⟩ : dir = dir' ∧ d = d' := by
      have hfound := resolve_found_iff.mpr hr
      rw [resolve_found_iff.mpr hr'] at hfound
      cases hfound
      exact ⟨rfl, rfl⟩
    rw [h.lookup n hn]
    by_cases hname : n = name
    · rw [if_pos hname]
      exact iff_of_true rfl (Or.inr hname)
    · rw [if_neg hname, or_iff_left hname]
  case others =>
    intro path' hother dir' g
    have hne' := components_ne_nil path'
    constructor
    · intro hg
      rcases h.reaches_only ht hd hg hne' with hg | ⟨ns₀, dir₀, hpath', hr', -, -⟩
      · exact hg
      · have hns₀ : [] ∉ ns₀ := fun hmem => hne' (hpath' ▸ List.mem_append_left _ hmem)
        obtain ⟨rfl, -⟩ := hr.unique ht hr' hns hns₀
        exact absurd (hpath'.trans hpath.symm) hother
    · exact fun hg => h.reaches ht hd hnone hg hne'
  case blank => exact hblank

end Added

section Reused

variable {s : Fs} {m : ByteMem} {d f e : Word} {name : Name}

/-- The memory when a file has got its name. -/
def namedMem (m : ByteMem) (f : Word) (name : Name) : ByteMem := writeBytes m f (name ++ [0#8])

theorem namedMem_outside (hf : f.toNat + 256 ≤ 2^32) (hlen : name.length < maxnamelen) :
    SameOutside m (namedMem m f name) f.toNat 128 := by
  change name.length < 128 at hlen
  have htotal : (name ++ [0#8]).length = name.length + 1 := List.length_append
  have hm : SameOutside m (namedMem m f name) f.toNat (name ++ [0#8]).length := writeBytes_sameOutside (by omega)
  exact hm.mono (Nat.le_refl _) (by omega)

/-- Blank files are those whose words behind the name are zero. -/
theorem blank_congr {m' : ByteMem} (hword : ∀ k, 128 ≤ k → k + 4 ≤ 256 →
    loadWord m' (f + BitVec.ofNat 32 k) = loadWord m (f + BitVec.ofNat 32 k)) : Blank m' f ↔ Blank m f := by
  have htype : fType m' f = fType m f := hword 132 (by decide) (by decide)
  have hsize : fSize m' f = fSize m f := hword 128 (by decide) (by decide)
  have hind : fIndirect m' f = fIndirect m f := hword 176 (by decide) (by decide)
  have hdirect (i : ℕ) (hi : i < 10) : loadWord m' (fDirectAddr f i) = loadWord m (fDirectAddr f i) :=
    hword (136 + 4 * i) (by omega) (by omega)
  constructor
  · intro h
    exact ⟨htype ▸ h.type, hsize ▸ h.size, fun i hi => hdirect i hi ▸ h.direct i hi, hind ▸ h.indirect⟩
  · intro h
    exact ⟨htype.trans h.type, hsize.trans h.size, fun i hi => (hdirect i hi).trans (h.direct i hi), hind.trans h.indirect⟩

theorem Blank.named (hf : f.toNat + 256 ≤ 2^32) (hlen : name.length < maxnamelen) :
    Blank (namedMem m f name) f ↔ Blank m f := by
  apply blank_congr
  intro k hlo hhi
  have haddr : (f + BitVec.ofNat 32 k).toNat = f.toNat + k := by bv_omega
  apply (namedMem_outside hf hlen).loadWord
  · omega
  · omega

theorem freeFile_spec (hf : freeFile m d = some f) : f ∈ filesFrom m d 0 (dirLength m d) ∧ m f = 0#8 := by
  unfold freeFile at hf
  have hfound := List.find?_some hf
  exact ⟨List.mem_of_find?_eq_some hf, of_decide_eq_true hfound⟩

/-- A free file of the directory gets the name. -/
theorem TreeOk.reused (ht : TreeOk m) (hd : InTree m d) (hdir : fType m d = ftypeDir) (hf : freeFile m d = some f)
    (hname : 0#8 ∉ name) (hlen : name.length < maxnamelen) (hnone : lookupIn m d name = none)
    (htype : fType m f = 0#32) : Added m (namedMem m f name) d f name False := by
  obtain ⟨hmem, hzero⟩ := freeFile_spec hf
  obtain ⟨i, j, hi, hb, hj, hfaddr⟩ := (ht.mem_files hd hdir).mp hmem
  have hle := Nat.le_of_lt_succ (Nat.lt_of_lt_of_le hi (ht.dirLength_eq hd hdir).2)
  have hentry : Entry m f := Or.inr ⟨d, i, j, hd, hdir, hle, hb, hj, hfaddr⟩
  have hbound := ((hentry.place ht).bounds ht.good).2
  have hm : SameOutside m (namedMem m f name) f.toNat 128 := namedMem_outside (by omega) hlen
  have htouched : OnlyTouched m (namedMem m f name) d f False :=
    (OnlyTouched.refl m d f False).step hm fun x hlo hhi => Or.inr ⟨hlo, hhi⟩
  have hplace : NewPlace m d f := ⟨hdir, Or.inl ⟨i, j, hle, hb, hj, hfaddr⟩⟩
  have hnamed : nameAt (namedMem m f name) f = name := nameAt_stored hname hlen
  have hfree : nameAt m f = [] := nameAt_nil.mpr hzero
  have hother {e : Word} (he : e ∈ filesFrom m d 0 (dirLength m d)) (hne : e ≠ f) :
      nameAt (namedMem m f name) e = nameAt m e := by
    obtain ⟨i, j, hi, hb, hj, rfl⟩ := (ht.mem_files hd hdir).mp he
    have hle := Nat.le_of_lt_succ (Nat.lt_of_lt_of_le hi (ht.dirLength_eq hd hdir).2)
    exact htouched.name ht hd hplace (Or.inr ⟨d, i, j, hd, hdir, hle, hb, hj, rfl⟩) hne
  refine ⟨htouched, hplace, fun n hn => ?_, ?_⟩
  · have hfiles := htouched.files ht hd hplace hd hdir False.elim
    unfold lookupIn
    rw [hfiles]
    by_cases hsame : n = name
    · -- the file is the only one that has the name
      rw [if_pos hsame, hsame]
      cases hfound : (filesFrom m d 0 (dirLength m d)).find? fun e => nameAt (namedMem m f name) e = name with
      | none =>
        have hnot := List.find?_eq_none.mp hfound f hmem
        exact absurd (decide_eq_true hnamed) hnot
      | some e =>
        have he := List.mem_of_find?_eq_some hfound
        have hdec := List.find?_some hfound
        have hename : nameAt (namedMem m f name) e = name := of_decide_eq_true hdec
        by_cases hef : e = f
        · rw [hef]
        · rw [hother he hef] at hename
          unfold lookupIn at hnone
          exact absurd (decide_eq_true hename) (List.find?_eq_none.mp hnone e he)
    · rw [if_neg hsame]
      apply List.find?_congr
      intro e he
      by_cases hef : e = f
      · rw [hef, hnamed, hfree]
        simp [hn.symm, Ne.symm hsame]
      · rw [hother he hef]
  · rw [htouched.type ht hd hplace hentry, htype]
    decide

end Reused

section Growth

variable {s : Fs} {m m₁ m₂ : ByteMem} {d f e slot : Word} {name : Name} {b c i n : ℕ}

/-- A directory that has a place for the number of one more block, at the time when its first
`n` blocks are as they were. -/
structure Growing (m m₁ : ByteMem) (d : Word) (n : ℕ) : Prop where
  ok : FileOk m₁ d
  touched : ∀ f, OnlyTouched m m₁ d f True
  size : fSize m₁ d = fSize m d + 4096#32
  direct : ∀ i < ndirect, loadWord m₁ (fDirectAddr d i) = loadWord m (fDirectAddr d i)
  slot : ∃ slot, slotAt m₁ d n = some slot ∧ loadWord m₁ slot = 0#32
  nblocks : nblocksIn m₁ = nblocksIn m
  free : freeSet m₁ ⊆ freeSet m
  content : ∀ b ∈ freeSet m₁, SameBlock m m₁ b

theorem FileOk.block_free (h : FileOk m d) (hb : b ∈ freeSet m) : blockOf d ≠ b := by
  rintro rfl
  obtain hone | hdata := h.home.1
  · have hstart := h.good.free_start h.zero hb
    rw [hone] at hstart
    unfold dataStart at hstart
    omega
  · have hbit := (mem_freeSet.mp hb).2
    rw [hdata.used] at hbit
    cases hbit

/-- The size of the directory is stored first. -/
theorem Growing.sized (h : FileOk m d) (hslot : slotAt m d n = some slot) (hz : loadWord m slot = 0#32) :
    Growing m (storeWord m (fSizeAddr d) (fSize m d + 4096#32)) d n := by
  obtain ⟨hblock, hlo, hhi, hbase, hbound⟩ := h.home
  obtain ⟨hok, hind, hfree, hn⟩ := h.size_changed (fSize m d + 4096#32)
  have haddr := fSizeAddr_toNat hbound
  have hm : SameOutside m (storeWord m (fSizeAddr d) (fSize m d + 4096#32)) (d.toNat + 128) 4 := by
    rw [← haddr]
    exact storeWord_sameOutside (by omega)
  have hdirect (i : ℕ) (hi : i < ndirect) := fDirect_same hm hbound hi (by omega)
  refine ⟨hok, fun f => (OnlyTouched.refl m d f True).step hm fun x hlo hhi => ?_, loadWord_storeWord .., hdirect,
    ⟨slot, (slotAt_congr hn hind).trans hslot, ?_⟩, hn, hfree.subset, fun b hb => ?_⟩
  · exact Or.inl ⟨trivial, Or.inr (Or.inr (Or.inr (Or.inl (by omega))))⟩
  · -- the place for the number is not in the size
    rw [← hz]
    unfold slotAt at hslot
    split_ifs at hslot with hi hin
    · obtain rfl := Option.some.inj hslot
      exact hdirect n hi
    · have hslot := Option.some.inj hslot
      obtain ⟨hdata, hne⟩ := h.indirect hin.2.1
      have hdisk : (fIndirect m d).toNat < 0xC0000 := Nat.lt_of_lt_of_le hdata.lt h.good.size
      have hb := blockAddr_toNat hdisk
      have hlt := hin.1
      change n < 10 + 4096 / 4 at hlt
      have hval : slot.toNat = 0x10000000 + (fIndirect m d).toNat * 4096 + (n - 10) := by
        rw [← hslot]
        change (blockAddr (fIndirect m d).toNat + BitVec.ofNat 32 (n - 10)).toNat = _
        bv_omega
      apply hm.loadWord
      · omega
      · omega
  · rw [hfree] at hb
    have hlt := Nat.lt_of_lt_of_le (lt_of_free hb) h.good.size
    have hother := h.block_free hb
    exact .of_outside hm hlt (by omega)

/-- A word in a file is made of the bytes of the file. -/
theorem loadWord_file {m' : ByteMem} {k : ℕ} (h : ∀ j, k ≤ j → j < k + 4 → m' (d + BitVec.ofNat 32 j) = m (d + BitVec.ofNat 32 j)) :
    loadWord m' (d + BitVec.ofNat 32 k) = loadWord m (d + BitVec.ofNat 32 k) := by
  apply loadWord_congr
  intro i hi
  rw [BitVec.add_assoc, ← BitVec.ofNat_add]
  exact h (k + i) (Nat.le_add_right _ _) (by omega)

/-- The word of the bitmap that `alloc_block` changes. -/
theorem takeMem_byte (hb : b ∈ freeSet m) (hg : GoodSuper m) {x : Word} (hx : ¬ (2 ≤ blockOf x ∧ blockOf x < dataStart m)) :
    takeMem m b x = m x := by
  obtain ⟨hm, hend⟩ := bitmap_outside (lt_of_free hb) (loadWord m (bitmapAddr b) &&& (0#32 <<< (b % 32)))
  apply hm
  by_contra hin
  have hstart := hg.start_le
  have hblock : blockOf x = (x.toNat - 0x10000000) / 4096 := blockOf_of_toNat (by omega)
  rw [hblock] at hx
  omega

theorem indirectMem_byte (h : FileOk m d) (hc : c ∈ freeSet m) {x : Word}
    (hbit : ¬ (2 ≤ blockOf x ∧ blockOf x < dataStart m)) (hfield : x.toNat < d.toNat + 176 ∨ d.toNat + 180 ≤ x.toNat)
    (hne : blockOf x ≠ c) : indirectMem m d c x = m x := by
  obtain ⟨-, -, -, -, hbound⟩ := h.home
  have haddr := fIndirectAddr_toNat hbound
  have hm : SameOutside (takeMem m c) (storeWord (takeMem m c) (fIndirectAddr d) (BitVec.ofNat 32 c)) (d.toNat + 176) 4 := by
    rw [← haddr]
    exact storeWord_sameOutside (by omega)
  have hzero : indirectMem m d c x = storeWord (takeMem m c) (fIndirectAddr d) (BitVec.ofNat 32 c) x := if_neg hne
  rw [hzero, hm x (by omega)]
  exact takeMem_byte hc h.good hbit

/-- Bytes of the file itself. -/
theorem FileOk.byte (h : FileOk m d) {k : ℕ} (hk : k < 256) : (d + BitVec.ofNat 32 k).toNat = d.toNat + k ∧
    blockOf (d + BitVec.ofNat 32 k) = blockOf d ∧
    ¬ (2 ≤ blockOf (d + BitVec.ofNat 32 k) ∧ blockOf (d + BitVec.ofNat 32 k) < dataStart m) := by
  obtain ⟨hblock, haddr⟩ := h.filePlace.blockOf_byte h.good hk
  refine ⟨haddr, hblock, ?_⟩
  rw [hblock]
  obtain hone | hdata := h.home.1
  · omega
  · have hstart := hdata.start
    omega

/-- Then an indirect block is taken, if the number needs one. -/
theorem Growing.indirect (h : FileOk m d) (hn : n = ndirect) (hc : c ∈ freeSet m) :
    Growing m (indirectMem (storeWord m (fSizeAddr d) (fSize m d + 4096#32)) d c) d n := by
  obtain ⟨-, -, -, -, hbound⟩ := h.home
  obtain ⟨hok₀, -, hfree₀, hn₀⟩ := h.size_changed (fSize m d + 4096#32)
  have haddr := fSizeAddr_toNat hbound
  have hm₀ : SameOutside m (storeWord m (fSizeAddr d) (fSize m d + 4096#32)) (d.toNat + 128) 4 := by
    rw [← haddr]
    exact storeWord_sameOutside (by omega)
  have hsize₀ : fSize (storeWord m (fSizeAddr d) (fSize m d + 4096#32)) d = fSize m d + 4096#32 := loadWord_storeWord ..
  have hdirect₀ (i : ℕ) (hi : i < ndirect) := fDirect_same hm₀ hbound hi (by omega)
  have hcontent₀ (b : ℕ) (hb : b ∈ freeSet m) : SameBlock m (storeWord m (fSizeAddr d) (fSize m d + 4096#32)) b := by
    have hother := h.block_free hb
    obtain ⟨-, hlo, hhi, -, -⟩ := h.home
    exact .of_outside hm₀ (Nat.lt_of_lt_of_le (lt_of_free hb) h.good.size) (by omega)
  have htouched₀ (f : Word) : OnlyTouched m (storeWord m (fSizeAddr d) (fSize m d + 4096#32)) d f True :=
    (OnlyTouched.refl m d f True).step hm₀ fun x hlo hhi => Or.inl ⟨trivial, Or.inr (Or.inr (Or.inr (Or.inl (by omega))))⟩
  generalize storeWord m (fSizeAddr d) (fSize m d + 4096#32) = m₀ at *
  have hc₀ : c ∈ freeSet m₀ := by
    rw [hfree₀]
    exact hc
  obtain ⟨hok, -, hnblocks, hfree, -⟩ := hok₀.indirect_filled hc₀
  have hset : freeSet (indirectMem m₀ d c) = {b ∈ freeSet m | b / 32 ≠ c / 32} := by
    rw [hfree, ← hfree₀]
    exact freeSet_clear (Nat.lt_trans (lt_of_free hc₀) (nblocksIn_lt _)) _
  have hother := hok₀.block_free hc₀
  -- the file but for the number of its indirect block
  have hfile (k : ℕ) (hk : k < 256) (hfield : k < 176 ∨ 180 ≤ k) :
      indirectMem m₀ d c (d + BitVec.ofNat 32 k) = m₀ (d + BitVec.ofNat 32 k) := by
    obtain ⟨hval, hblock, hbit⟩ := hok₀.byte hk
    exact indirectMem_byte hok₀ hc₀ hbit (by omega) (by rw [hblock]; exact hother)
  have hstart : dataStart m₀ = dataStart m := dataStart_congr hn₀
  refine ⟨hok, fun f x hx => ?_, ?_, fun i hi => ?_, hok₀.indirect_slot hc₀ (Nat.le_of_eq hn.symm) (by rw [hn]; decide),
    hnblocks.trans hn₀, ?_, fun b hb => ?_⟩
  · rw [← htouched₀ f x hx]
    apply indirectMem_byte hok₀ hc₀
    · rw [hstart]
      exact fun hbit => hx (Or.inl ⟨trivial, Or.inl hbit⟩)
    · by_contra hfield
      exact hx (Or.inl ⟨trivial, Or.inr (Or.inr (Or.inr (Or.inr (by omega))))⟩)
    · rintro rfl
      exact hx (Or.inl ⟨trivial, Or.inr (Or.inl hc)⟩)
  · rw [← hsize₀]
    exact loadWord_file fun j hlo hhi => hfile j (by omega) (by omega)
  · rw [← hdirect₀ i hi]
    change i < 10 at hi
    exact loadWord_file fun j hlo hhi => hfile j (by omega) (by omega)
  · rw [hset]
    exact fun b hb => hb.1
  · rw [hset] at hb
    intro a ha
    rw [← hcontent₀ b hb.1 a ha]
    have hbd := hok₀.block_free (hfree₀ ▸ hb.1)
    have hbstart := h.good.free_start h.zero hb.1
    apply indirectMem_byte hok₀ hc₀
    · rw [hstart, ha]
      omega
    · by_contra hfield
      have hk : a.toNat - d.toNat < 256 := by omega
      obtain ⟨hval, hblock, -⟩ := hok₀.byte hk
      have haeq : a = d + BitVec.ofNat 32 (a.toNat - d.toNat) := by
        apply BitVec.eq_of_toNat_eq
        rw [hval]
        omega
      rw [← haeq, ha] at hblock
      exact hbd hblock.symm
    · rw [ha]
      rintro rfl
      exact hb.2 rfl

/-- The directory has its new block. -/
structure DirGrown (m m' : ByteMem) (d : Word) (n b : ℕ) : Prop where
  ok : FileOk m' d
  touched : OnlyTouched m m' d (blockAddr b) True
  size : fSize m' d = fSize m d + 4096#32
  direct : ∀ i < ndirect, i ≠ n → loadWord m' (fDirectAddr d i) = loadWord m (fDirectAddr d i)
  last : blockAt m' d n = some (blockAddr b)
  apart : fIndirect m' d ≠ 0#32 → (fIndirect m' d).toNat ≠ b
  free : b ∈ freeSet m
  content : SameBlock m m' b

theorem slotMem_byte (h : FileOk m d) (hb : b ∈ freeSet m) (hslot : slotAt m d n = some slot) {x : Word}
    (hbit : ¬ (2 ≤ blockOf x ∧ blockOf x < dataStart m)) (hx : x.toNat < slot.toNat ∨ slot.toNat + 4 ≤ x.toNat) :
    slotMem m slot b x = m x := by
  obtain ⟨-, hbound, -⟩ := h.slot_place hslot
  have hm : SameOutside (takeMem m b) (slotMem m slot b) slot.toNat 4 := storeWord_sameOutside hbound
  rw [hm x (by omega)]
  exact takeMem_byte hb h.good hbit

/-- Where the number of a block is: in the file, or in its indirect block. -/
theorem FileOk.slot_area (h : FileOk m d) (hslot : slotAt m d n = some slot) :
    (n < ndirect ∧ slot.toNat = d.toNat + (136 + 4 * n)) ∨
      ndirect ≤ n ∧ fIndirect m d ≠ 0#32 ∧ (fIndirect m d).toNat ≠ blockOf d ∧ DataBlock m (fIndirect m d).toNat ∧
        0x10000000 + (fIndirect m d).toNat * 4096 ≤ slot.toNat ∧
        slot.toNat + 4 ≤ 0x10000000 + ((fIndirect m d).toNat + 1) * 4096 := by
  obtain ⟨-, -, -, -, hbound⟩ := h.home
  unfold slotAt at hslot
  split_ifs at hslot with hi hin
  · obtain rfl := Option.some.inj hslot
    exact Or.inl ⟨hi, fDirectAddr_toNat hbound hi⟩
  · have hslot := Option.some.inj hslot
    obtain ⟨hdata, hne⟩ := h.indirect hin.2.1
    have hdisk : (fIndirect m d).toNat < 0xC0000 := Nat.lt_of_lt_of_le hdata.lt h.good.size
    have hb := blockAddr_toNat hdisk
    have hlt := hin.1
    change n < 10 + 4096 / 4 at hlt
    have hval : slot.toNat = 0x10000000 + (fIndirect m d).toNat * 4096 + (n - 10) := by
      rw [← hslot]
      change (blockAddr (fIndirect m d).toNat + BitVec.ofNat 32 (n - 10)).toNat = _
      bv_omega
    exact Or.inr ⟨Nat.le_of_not_lt hi, hin.2.1, hne, hdata, by omega, by omega⟩

/-- A free block gets into the place for the number. -/
theorem Growing.filled (h : Growing m m₁ d n)
    (hind : fIndirect m₁ d = fIndirect m d ∨ (fIndirect m₁ d).toNat ∈ freeSet m) (hslot : slotAt m₁ d n = some slot) (hb : b ∈ freeSet m₁) : DirGrown m (slotMem m₁ slot b) d n b := by
  have hbm : b ∈ freeSet m := h.free hb
  have hstart : dataStart m₁ = dataStart m := dataStart_congr h.nblocks
  obtain ⟨hn, hindt, hbits⟩ := h.ok.taken hb
  have hslott : slotAt (takeMem m₁ b) d n = some slot := (slotAt_congr hn hindt).trans hslot
  obtain ⟨hn', hind', hbits'⟩ := (h.ok.take hb).slot_stored hslott (BitVec.ofNat 32 b)
  obtain ⟨hslot', hload, huse⟩ := h.ok.slot_filled hslot hb
  have harea := h.ok.slot_area hslot
  have hbd := h.ok.block_free hb
  obtain ⟨-, hlo, hhi, -, hbound⟩ := h.ok.home
  -- bytes of the file outside of the place for the number
  have hfile (k : ℕ) (hk : k < 256) (hout : d.toNat + k < slot.toNat ∨ slot.toNat + 4 ≤ d.toNat + k) :
      slotMem m₁ slot b (d + BitVec.ofNat 32 k) = m₁ (d + BitVec.ofNat 32 k) := by
    obtain ⟨hval, hblock, hbit⟩ := h.ok.byte hk
    exact slotMem_byte h.ok hb hslot hbit (by rw [hval]; exact hout)
  have hok : FileOk (slotMem m₁ slot b) d := (h.ok.take hb).congr hn' hind' fun c hc hold => (hbits' c hc).trans hold
  refine ⟨hok, fun x hx => ?_, ?_, fun i hi hne => ?_, ?_, fun hne heq => ?_, hbm, fun a ha => ?_⟩
  · rw [← h.touched _ x hx]
    apply slotMem_byte h.ok hb hslot
    · rw [hstart]
      exact fun hbit => hx (Or.inl ⟨trivial, Or.inl hbit⟩)
    · by_contra hin
      apply hx
      obtain ⟨hlt, hval⟩ | ⟨-, hne, -, hdata, hslo, hshi⟩ := harea
      · change n < 10 at hlt
        exact Or.inl ⟨trivial, Or.inr (Or.inr (Or.inr (Or.inr (by omega))))⟩
      · have hxblock : blockOf x = (fIndirect m₁ d).toNat := by
          rw [blockOf_of_toNat (x := x.toNat - 0x10000000) (by omega)]
          omega
        obtain hsame | hfree := hind
        · rw [hsame] at hne hxblock
          exact Or.inl ⟨trivial, Or.inr (Or.inr (Or.inl ⟨hne, hxblock⟩))⟩
        · rw [← hxblock] at hfree
          exact Or.inl ⟨trivial, Or.inr (Or.inl hfree)⟩
  · rw [← h.size]
    refine loadWord_file fun j hjlo hjhi => hfile j (by omega) ?_
    obtain ⟨hlt, hval⟩ | ⟨-, -, hne, -, hslo, hshi⟩ := harea
    · omega
    · omega
  · rw [← h.direct i hi]
    change i < 10 at hi
    refine loadWord_file fun j hjlo hjhi => hfile j (by omega) ?_
    obtain ⟨hlt, hval⟩ | ⟨-, -, hne', -, hslo, hshi⟩ := harea
    · omega
    · omega
  · unfold blockAt
    rw [hslot']
    have hne : loadWord (slotMem m₁ slot b) slot ≠ 0#32 := by
      intro hz
      rw [hz] at hload
      exact absurd huse.1 (by rw [← hload]; decide)
    dsimp only [bind, Option.bind]
    rw [if_pos ⟨hne, by rw [hload]; exact huse.2.1⟩, hload]
  · have hsame : fIndirect (slotMem m₁ slot b) d = fIndirect m₁ d := hind'.trans hindt
    rw [hsame] at hne heq
    have hbit := (mem_freeSet.mp hb).2
    rw [← heq, (h.ok.indirect hne).1.used] at hbit
    cases hbit
  · rw [← h.content b hb a ha]
    have hbstart := h.ok.good.free_start h.ok.zero hb
    apply slotMem_byte h.ok hb hslot
    · rw [ha]
      omega
    · by_contra hin
      have hdisk : b < diskBlocks := Nat.lt_of_lt_of_le (lt_of_free hb) h.ok.good.size
      have haddr := toNat_of_blockOf hdisk ha
      obtain ⟨hlt, hval⟩ | ⟨-, -, hne, hdata, hslo, hshi⟩ := harea
      · change n < 10 at hlt
        omega
      · -- the indirect block is in use
        have heq : b = (fIndirect m₁ d).toNat := by omega
        have hbit := (mem_freeSet.mp hb).2
        rw [heq, hdata.used] at hbit
        cases hbit

/-- A block that has nothing in it but names that can stay: a place for a new file, and names
that are there already. -/
structure BlockClean (m : ByteMem) (d : Word) (name : Name) (b : ℕ) : Prop where
  blank : Blank m (slotAddr b 0)
  names : ∀ j, 0 < j → j < blkfiles → nameAt m (slotAddr b j) = [] ∨ nameAt m (slotAddr b j) = name ∨
    (lookupIn m d (nameAt m (slotAddr b j))).isSome

/-- The files in the blocks of a directory that has one block more. -/
theorem filesFrom_succ (m : ByteMem) (d : Word) (n : ℕ) : filesFrom m d 0 (n + 1) =
    filesFrom m d 0 n ++ (blockAt m d n).elim [] fun blk => (List.range blkfiles).map (entryAddr blk) := by
  unfold filesFrom
  rw [List.range'_1_concat, List.flatMap_append, Nat.zero_add, List.flatMap_singleton]

theorem slotAddr_zero (b : ℕ) : slotAddr b 0 = blockAddr b := BitVec.add_zero _

variable {j k : ℕ}

/-- What the new block has in it, after the name has been stored. -/
theorem DirGrown.entry_byte (hg : DirGrown m m₂ d n b) (ht : GoodSuper m) (h0 : freeBit m 0 = false)
    (hlen : name.length < maxnamelen) (hj : j < blkfiles) (hk : k < 256) (hout : 0 < j ∨ 128 ≤ k) :
    namedMem m₂ (blockAddr b) name (slotAddr b j + BitVec.ofNat 32 k) = m (slotAddr b j + BitVec.ofNat 32 k) := by
  have hstart := ht.free_start h0 hg.free
  have hdisk : b < diskBlocks := Nat.lt_of_lt_of_le (lt_of_free hg.free) ht.size
  have hplace : FilePlace m (slotAddr b j) := .slot hstart (lt_of_free hg.free) hj
  obtain ⟨hblock, haddr⟩ := hplace.blockOf_byte ht hk
  rw [blockOf_slotAddr hdisk hj] at hblock
  have hslot := slotAddr_toNat hdisk hj
  have hbase := blockAddr_toNat hdisk
  change b < 0xC0000 at hdisk
  change j < 16 at hj
  rw [← hg.content _ hblock]
  exact namedMem_outside (by omega) hlen _ (by omega)

theorem DirGrown.blank_iff (hg : DirGrown m m₂ d n b) (ht : GoodSuper m) (h0 : freeBit m 0 = false)
    (hlen : name.length < maxnamelen) : Blank (namedMem m₂ (blockAddr b) name) (blockAddr b) ↔ Blank m (slotAddr b 0) := by
  rw [← slotAddr_zero b]
  apply blank_congr
  intro k hlo hhi
  have hbyte (j : ℕ) (hjlo : k ≤ j) (hjhi : j < k + 4) :=
    hg.entry_byte ht h0 hlen (show 0 < blkfiles by decide) (show j < 256 by omega) (Or.inr (by omega))
  rw [← slotAddr_zero b] at hbyte
  exact loadWord_file hbyte

/-- The directory after its growth: its length, and its blocks. -/
theorem DirGrown.dir (hg : DirGrown m m₂ d n b) (ht : TreeOk m) (hd : InTree m d) (hdir : fType m d = ftypeDir)
    (hn : dirLength m d = n) (hlow : n ≤ ndirect) (hlen : name.length < maxnamelen) :
    dirLength (namedMem m₂ (blockAddr b) name) d = n + 1 ∧
      (fSize (namedMem m₂ (blockAddr b) name) d).toNat = (n + 1) * 4096 ∧
      (∀ i < n, blockAt (namedMem m₂ (blockAddr b) name) d i = blockAt m d i) ∧
      blockAt (namedMem m₂ (blockAddr b) name) d n = some (blockAddr b) ∧
      FileOk (namedMem m₂ (blockAddr b) name) d := by
  have hdisk : b < 0xC0000 := Nat.lt_of_lt_of_le (lt_of_free hg.free) ht.good.size
  have haddr := blockAddr_toNat hdisk
  have hm : SameOutside m₂ (namedMem m₂ (blockAddr b) name) (blockAddr b).toNat 128 := namedMem_outside (by omega) hlen
  obtain ⟨hblock, hlo, hhi, hbase, hbound⟩ := hg.ok.home
  have hother := (ht.fileOk hd).block_free hg.free
  have hstart := ht.free_start hg.free
  have hsizem := (ht.dirLength_eq hd hdir).1
  rw [hn] at hsizem
  change n ≤ 10 at hlow
  have hsize : (fSize (namedMem m₂ (blockAddr b) name) d).toNat = (n + 1) * 4096 := by
    rw [fSize_same hm hbound (by omega), hg.size]
    bv_omega
  have hnb : nblocksIn (namedMem m₂ (blockAddr b) name) = nblocksIn m₂ := nblocksIn_same hm (by unfold dataStart at hstart; omega)
  have hind : fIndirect (namedMem m₂ (blockAddr b) name) d = fIndirect m₂ d := fIndirect_same hm hbound (by omega)
  have hnb₂ : nblocksIn m₂ = nblocksIn m :=
    hg.touched.nblocks ht hd ⟨hdir, Or.inr ⟨by rw [blockOf_blockAddr hdisk]; exact hg.free, by rw [blockOf_blockAddr hdisk]⟩⟩
  have hdirect (i : ℕ) (hi : i < ndirect) : loadWord (namedMem m₂ (blockAddr b) name) (fDirectAddr d i) = loadWord m₂ (fDirectAddr d i) :=
    fDirect_same hm hbound hi (by change i < 10 at hi; omega)
  have hlength : dirLength (namedMem m₂ (blockAddr b) name) d = n + 1 := by
    unfold dirLength
    rw [sdiv_block (by omega), hsize]
    omega
  refine ⟨hlength, hsize, fun i hi => ?_, ?_, hg.ok.congr hnb hind fun c hc hold => ?_⟩
  · have hi10 : i < ndirect := Nat.lt_of_lt_of_le hi hlow
    unfold blockAt slotAt
    rw [if_pos hi10, if_pos hi10]
    dsimp only [bind, Option.bind]
    rw [hdirect i hi10, hg.direct i hi10 (Nat.ne_of_lt hi), hnb, hnb₂]
  · rw [← hg.last]
    have hslot : slotAt (namedMem m₂ (blockAddr b) name) d n = slotAt m₂ d n := slotAt_congr hnb hind
    unfold blockAt
    rw [hslot, hnb]
    cases hs : slotAt m₂ d n with
    | none => rfl
    | some slot =>
      have hword : loadWord (namedMem m₂ (blockAddr b) name) slot = loadWord m₂ slot := by
        obtain ⟨-, hsbound, -⟩ := hg.ok.slot_place hs
        obtain ⟨hlt, hval⟩ | ⟨-, hne, -, -, hslo, hshi⟩ := hg.ok.slot_area hs
        · change n < 10 at hlt
          apply hm.loadWord hsbound
          omega
        · have hapart := hg.apart hne
          apply hm.loadWord hsbound
          omega
      dsimp only [bind, Option.bind]
      rw [hword]
  · rw [freeBit_same hm (Or.inr ?_) hc]
    · exact hold
    · rw [dataStart_congr hnb₂]
      omega

theorem DirGrown.only_touched (hg : DirGrown m m₂ d n b) (ht : TreeOk m) (hdir : fType m d = ftypeDir)
    (hlen : name.length < maxnamelen) : OnlyTouched m (namedMem m₂ (blockAddr b) name) d (blockAddr b) True ∧
      NewPlace m d (blockAddr b) := by
  have hdisk : b < 0xC0000 := Nat.lt_of_lt_of_le (lt_of_free hg.free) ht.good.size
  have haddr := blockAddr_toNat hdisk
  have hblock : blockOf (blockAddr b) = b := blockOf_blockAddr hdisk
  constructor
  · exact hg.touched.step (namedMem_outside (by omega) hlen) fun x hlo hhi => Or.inr ⟨hlo, hhi⟩
  · exact ⟨hdir, Or.inr ⟨by rw [hblock]; exact hg.free, by rw [hblock]⟩⟩

/-- The other files in a new block of a directory. -/
def otherFiles (b : ℕ) : List Word := (List.range' 1 15).map (slotAddr b)

/-- The map of the directory, whatever there is in its new block. -/
theorem DirGrown.lookup (hg : DirGrown m m₂ d n b) (ht : TreeOk m) (hd : InTree m d) (hdir : fType m d = ftypeDir)
    (hn : dirLength m d = n) (hlow : n ≤ ndirect) (hname : 0#8 ∉ name) (hlen : name.length < maxnamelen) (nm : Name) :
    lookupIn (namedMem m₂ (blockAddr b) name) d nm = (lookupIn m d nm).or
      (if nm = name then some (blockAddr b) else (otherFiles b).find? fun e => nameAt m e = nm) := by
  obtain ⟨htouched, hplace⟩ := hg.only_touched ht hdir hlen
  obtain ⟨hlength, -, hblocks, hlast, -⟩ := hg.dir ht hd hdir hn hlow hlen
  -- the files that were there have the names that they had
  have hfiles : filesFrom (namedMem m₂ (blockAddr b) name) d 0 n = filesFrom m d 0 n := by
    unfold filesFrom
    apply List.flatMap_congr
    intro i hi
    rw [List.mem_range'_1, Nat.zero_add] at hi
    rw [hblocks i hi.2]
  have hold : (filesFrom m d 0 n).find? (fun e => nameAt (namedMem m₂ (blockAddr b) name) e = nm) = lookupIn m d nm := by
    unfold lookupIn
    rw [hn]
    apply List.find?_congr
    intro e he
    rw [← hn] at he
    obtain ⟨i, j, hi, hb, hj, rfl⟩ := (ht.mem_files hd hdir).mp he
    have hle : i ≤ ndirect := Nat.le_of_lt_succ (Nat.lt_of_lt_of_le hi (ht.dirLength_eq hd hdir).2)
    have hne : slotAddr (blockNo m d i) j ≠ blockAddr b := by
      intro heq
      have hdata := ht.block_data hd hle hb
      have hblock := blockOf_slotAddr (Nat.lt_of_lt_of_le hdata.lt ht.good.size) hj
      rw [heq, blockOf_blockAddr (Nat.lt_of_lt_of_le (lt_of_free hg.free) ht.good.size)] at hblock
      have hbit := (mem_freeSet.mp hg.free).2
      rw [hblock, hdata.used] at hbit
      cases hbit
    rw [htouched.name ht hd hplace (Or.inr ⟨d, i, j, hd, hdir, hle, hb, hj, rfl⟩) hne]
  have hnew : (List.range blkfiles).map (entryAddr (blockAddr b)) = blockAddr b :: otherFiles b := by
    change slotAddr b 0 :: otherFiles b = _
    rw [slotAddr_zero]
  have hnamed : nameAt (namedMem m₂ (blockAddr b) name) (blockAddr b) = name := nameAt_stored hname hlen
  have hothers : (otherFiles b).find? (fun e => nameAt (namedMem m₂ (blockAddr b) name) e = nm) =
      (otherFiles b).find? fun e => nameAt m e = nm := by
    apply List.find?_congr
    intro e he
    obtain ⟨j, hj, rfl⟩ := List.mem_map.mp he
    rw [List.mem_range'_1] at hj
    have hsame : nameAt (namedMem m₂ (blockAddr b) name) (slotAddr b j) = nameAt m (slotAddr b j) := by
      unfold nameAt readBytes
      congr 1
      apply List.map_congr_left
      intro k hk
      have hk := List.mem_range.mp hk
      change k < 128 at hk
      exact hg.entry_byte ht.good ht.zero hlen (show j < 16 by omega) (by omega) (Or.inl (by omega))
    rw [hsame]
  unfold lookupIn at hold ⊢
  rw [hlength, filesFrom_succ, hfiles, hlast, List.find?_append, hold]
  change Option.or _ (((List.range blkfiles).map (entryAddr (blockAddr b))).find? _) = _
  rw [hnew, List.find?_cons, hnamed, hothers]
  congr 1
  by_cases hsame : nm = name
  · rw [if_pos hsame, hsame]
    simp
  · rw [if_neg hsame]
    simp [Ne.symm hsame]

/-- A new block of the directory gets the name. -/
theorem DirGrown.added (hg : DirGrown m m₂ d n b) (ht : TreeOk m) (hd : InTree m d) (hdir : fType m d = ftypeDir)
    (hn : dirLength m d = n) (hlow : n ≤ ndirect) (hname : 0#8 ∉ name) (hlen : name.length < maxnamelen)
    (hnone : lookupIn m d name = none) (hclean : BlockClean m d name b) :
    Added m (namedMem m₂ (blockAddr b) name) d (blockAddr b) name True := by
  obtain ⟨htouched, hplace⟩ := hg.only_touched ht hdir hlen
  refine ⟨htouched, hplace, fun nm hnm => ?_, ?_⟩
  · rw [hg.lookup ht hd hdir hn hlow hname hlen]
    by_cases hsame : nm = name
    · rw [if_pos hsame, if_pos hsame, hsame, hnone]
      rfl
    · rw [if_neg hsame, if_neg hsame]
      cases hold : lookupIn m d nm with
      | some e => rfl
      | none =>
        -- no other file in the block has a name that is not there already
        rw [Option.none_or, List.find?_eq_none]
        intro e he hdec
        have hnme : nameAt m e = nm := of_decide_eq_true hdec
        obtain ⟨j, hj, rfl⟩ := List.mem_map.mp he
        rw [List.mem_range'_1] at hj
        rcases hclean.names j (by omega) (show j < 16 by omega) with hnil | hnew | hthere
        · exact hnm (hnme.symm.trans hnil)
        · exact hsame (hnme.symm.trans hnew)
        · rw [hnme, hold] at hthere
          cases hthere
  · have hblank := (hg.blank_iff ht.good ht.zero hlen).mpr hclean.blank
    rw [hblank.type]
    decide

end Growth

end Sisop
