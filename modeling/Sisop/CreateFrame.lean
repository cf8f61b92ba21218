import Sisop.DirNames
import Mathlib.Data.List.Find

/-! What a `file_create` leaves as it was. It changes the bitmap, the size and the block numbers
of one directory, blocks that were free, and the name of one file. -/
namespace Sisop

variable {m m' m'' : ByteMem} {d f g e : Word} {i j k n : ℕ} {grow : Prop}

/-- The addresses that a new file `f` in directory `d` may take changes at; all but the name of
the file only if the directory has to `grow`. -/
def Touched (m : ByteMem) (d f : Word) (grow : Prop) (x : Word) : Prop :=
  grow ∧ (2 ≤ blockOf x ∧ blockOf x < dataStart m ∨ blockOf x ∈ freeSet m ∨
    fIndirect m d ≠ 0#32 ∧ blockOf x = (fIndirect m d).toNat ∨
    d.toNat + 128 ≤ x.toNat ∧ x.toNat < d.toNat + 132 ∨ d.toNat + 136 ≤ x.toNat ∧ x.toNat < d.toNat + 180) ∨
    f.toNat ≤ x.toNat ∧ x.toNat < f.toNat + 128

def OnlyTouched (m m' : ByteMem) (d f : Word) (grow : Prop) : Prop := ∀ x, ¬ Touched m d f grow x → m' x = m x

theorem OnlyTouched.refl (m : ByteMem) (d f : Word) (grow : Prop) : OnlyTouched m m d f grow := fun _ _ => rfl

theorem OnlyTouched.step {lo : ℕ} (h : OnlyTouched m m' d f grow) (hs : SameOutside m' m'' lo k)
    (hin : ∀ x : Word, lo ≤ x.toNat → x.toNat < lo + k → Touched m d f grow x) : OnlyTouched m m'' d f grow := by
  intro x hx
  rw [← h x hx]
  apply hs
  by_contra hout
  exact hx (hin x (by omega) (by omega))

/-- A place for a file: the root, or a place in a block of a directory. -/
def Entry (m : ByteMem) (e : Word) : Prop :=
  e = rootAddr ∨ ∃ g i j, InTree m g ∧ fType m g = ftypeDir ∧ i ≤ ndirect ∧ blockNo m g i ≠ 0 ∧ j < blkfiles ∧
    e = slotAddr (blockNo m g i) j

/-- A new file of a directory is in a block of it, or in a block that was free. -/
def NewPlace (m : ByteMem) (d f : Word) : Prop :=
  fType m d = ftypeDir ∧
    ((∃ i j, i ≤ ndirect ∧ blockNo m d i ≠ 0 ∧ j < blkfiles ∧ f = slotAddr (blockNo m d i) j) ∨
      blockOf f ∈ freeSet m ∧ f = blockAddr (blockOf f))

theorem Entry.place (h : Entry m e) (ht : TreeOk m) : FilePlace m e := by
  obtain rfl | ⟨g, i, j, hg, -, hi, hb, hj, rfl⟩ := h
  · exact .root
  · have hdata := ht.block_data hg hi hb
    exact .slot hdata.start hdata.lt hj

/-- The block of a place for a file is not one that is changed as a whole. -/
theorem Entry.block (h : Entry m e) (ht : TreeOk m) (hd : InTree m d) :
    ¬ (2 ≤ blockOf e ∧ blockOf e < dataStart m) ∧ blockOf e ∉ freeSet m ∧
      ¬ (fIndirect m d ≠ 0#32 ∧ blockOf e = (fIndirect m d).toNat) := by
  obtain rfl | ⟨g, i, j, hg, -, hi, hb, hj, rfl⟩ := h
  · have hone : blockOf rootAddr = 1 := by decide
    rw [hone]
    refine ⟨by omega, fun hfree => ?_, fun ⟨hne, heq⟩ => ?_⟩
    · have hstart := ht.free_start hfree
      unfold dataStart at hstart
      omega
    · have hstart := ((ht.fileOk hd).indirect hne).1.start
      unfold dataStart at hstart
      omega
  · have hdata := ht.block_data hg hi hb
    have hstart := hdata.start
    rw [blockOf_slotAddr (Nat.lt_of_lt_of_le hdata.lt ht.good.size) hj]
    refine ⟨by omega, fun hfree => ?_, fun ⟨hne, heq⟩ => ?_⟩
    · have hbit := (mem_freeSet.mp hfree).2
      rw [hdata.used] at hbit
      cases hbit
    · exact nomatch (ht.apart g d (some i) none hg hd (lowLink_some hi) lowLink_none hb heq).2

theorem FilePlace.blockOf_byte (hp : FilePlace m e) (hg : GoodSuper m) (hk : k < 256) :
    blockOf (e + BitVec.ofNat 32 k) = blockOf e ∧ (e + BitVec.ofNat 32 k).toNat = e.toNat + k := by
  obtain ⟨b, hb, hlo, hhi⟩ := hp.block hg
  have hsize := hg.size
  change nblocksIn m ≤ 0xC0000 at hsize
  have hlt : b < 0xC0000 := by
    obtain rfl | hb := hb
    · decide
    · exact Nat.lt_of_lt_of_le hb.2 hsize
  have haddr : (e + BitVec.ofNat 32 k).toNat = e.toNat + k := by bv_omega
  have hbyte : blockOf (e + BitVec.ofNat 32 k) = (e.toNat + k - 0x10000000) / 4096 := blockOf_of_toNat (by omega)
  have hbase : blockOf e = (e.toNat - 0x10000000) / 4096 := blockOf_of_toNat (by omega)
  rw [hbyte, hbase]
  omega

/-- Bytes of a place for a file that stay the same. -/
theorem OnlyTouched.byte (h : OnlyTouched m m' d f grow) (ht : TreeOk m) (hd : InTree m d) (hf : NewPlace m d f)
    (he : Entry m e) (hk : k < 256) (hed : grow → e = d → k < 128 ∨ 132 ≤ k ∧ k < 136 ∨ 180 ≤ k) (hef : e = f → 128 ≤ k) :
    m' (e + BitVec.ofNat 32 k) = m (e + BitVec.ofNat 32 k) := by
  have hplace := he.place ht
  obtain ⟨hblock, haddr⟩ := hplace.blockOf_byte ht.good hk
  obtain ⟨hbitmap, hfree, hind⟩ := he.block ht hd
  apply h
  rintro (⟨hgrow, hx | hx | hx | hx | hx⟩ | hx)
  · rw [hblock] at hx
    exact hbitmap hx
  · rw [hblock] at hx
    exact hfree hx
  · rw [hblock] at hx
    exact hind hx
  · rw [haddr] at hx
    by_cases heq : e = d
    · have hk := hed hgrow heq
      rw [heq] at hx
      omega
    · have hapart := hplace.apart ht.good (ht.place hd) heq
      omega
  · rw [haddr] at hx
    by_cases heq : e = d
    · have hk := hed hgrow heq
      rw [heq] at hx
      omega
    · have hapart := hplace.apart ht.good (ht.place hd) heq
      omega
  · by_cases heq : e = f
    · have hk := hef heq
      rw [haddr, heq] at hx
      omega
    obtain ⟨hdir, ⟨i, j, hi, hb, hj, hfaddr⟩ | ⟨hffree, hfaddr⟩⟩ := hf
    · have hentry : Entry m f := Or.inr ⟨d, i, j, hd, hdir, hi, hb, hj, hfaddr⟩
      have hapart := hplace.apart ht.good (hentry.place ht) heq
      rw [haddr] at hx
      omega
    · -- the block of the new file was free
      have hdisk : blockOf f < diskBlocks := Nat.lt_of_lt_of_le (lt_of_free hffree) ht.good.size
      have hfnat := blockAddr_toNat hdisk
      rw [← hfaddr] at hfnat
      have hxblock : blockOf (e + BitVec.ofNat 32 k) = blockOf f := by
        rw [blockOf_of_toNat (x := (e + BitVec.ofNat 32 k).toNat - 0x10000000) (by omega)]
        omega
      rw [hblock] at hxblock
      rw [hxblock] at hfree
      exact hfree hffree

theorem OnlyTouched.word (h : OnlyTouched m m' d f grow) (ht : TreeOk m) (hd : InTree m d) (hf : NewPlace m d f)
    (he : Entry m e) (hk : k + 4 ≤ 256) (hed : grow → e = d → k + 4 ≤ 128 ∨ k = 132 ∨ 180 ≤ k) (hef : e = f → 128 ≤ k) :
    loadWord m' (e + BitVec.ofNat 32 k) = loadWord m (e + BitVec.ofNat 32 k) := by
  apply loadWord_congr
  intro i hi
  have hadd : e + BitVec.ofNat 32 k + BitVec.ofNat 32 i = e + BitVec.ofNat 32 (k + i) := by
    rw [BitVec.ofNat_add, BitVec.add_assoc]
  rw [hadd]
  apply h.byte ht hd hf he (by omega)
  · intro hgrow heq
    have hk := hed hgrow heq
    omega
  · intro heq
    have hk := hef heq
    omega

theorem OnlyTouched.type (h : OnlyTouched m m' d f grow) (ht : TreeOk m) (hd : InTree m d) (hf : NewPlace m d f)
    (he : Entry m e) : fType m' e = fType m e := by
  apply h.word ht hd hf he (by decide)
  · omega
  · omega

theorem OnlyTouched.size (h : OnlyTouched m m' d f grow) (ht : TreeOk m) (hd : InTree m d) (hf : NewPlace m d f)
    (he : Entry m e) (hne : grow → e ≠ d) : fSize m' e = fSize m e := by
  apply h.word ht hd hf he (by decide) (fun hgrow heq => absurd heq (hne hgrow))
  omega

theorem OnlyTouched.indirect (h : OnlyTouched m m' d f grow) (ht : TreeOk m) (hd : InTree m d) (hf : NewPlace m d f)
    (he : Entry m e) (hne : grow → e ≠ d) : fIndirect m' e = fIndirect m e := by
  apply h.word ht hd hf he (by decide) (fun hgrow heq => absurd heq (hne hgrow))
  omega

theorem OnlyTouched.direct (h : OnlyTouched m m' d f grow) (ht : TreeOk m) (hd : InTree m d) (hf : NewPlace m d f)
    (he : Entry m e) (hne : grow → e ≠ d) (hi : i < ndirect) : loadWord m' (fDirectAddr e i) = loadWord m (fDirectAddr e i) := by
  change i < 10 at hi
  apply h.word ht hd hf he (by omega) (fun hgrow heq => absurd heq (hne hgrow))
  omega

/-- Names of other files stay the same. -/
theorem OnlyTouched.name (h : OnlyTouched m m' d f grow) (ht : TreeOk m) (hd : InTree m d) (hf : NewPlace m d f)
    (he : Entry m e) (hne : e ≠ f) : nameAt m' e = nameAt m e := by
  unfold nameAt
  congr 1
  apply List.map_congr_left
  intro k hk
  have hk := List.mem_range.mp hk
  change k < 128 at hk
  exact h.byte ht hd hf he (by omega) (fun _ _ => Or.inl hk) fun heq => absurd heq hne

/-- A new file of a directory is in no block of another one. -/
theorem NewPlace.not_in (hf : NewPlace m d f) (hd : InTree m d) (ht : TreeOk m) (hg : InTree m g) (hne : g ≠ d)
    (hi : i ≤ ndirect) (hb : blockNo m g i ≠ 0) (hj : j < blkfiles) : slotAddr (blockNo m g i) j ≠ f := by
  have hdata := ht.block_data hg hi hb
  have hblock := blockOf_slotAddr (Nat.lt_of_lt_of_le hdata.lt ht.good.size) hj
  rintro rfl
  obtain ⟨-, ⟨i', j', hi', hb', hj', heq⟩ | ⟨hfree, -⟩⟩ := hf
  · have hdisk' := Nat.lt_of_lt_of_le (ht.block_data hd hi' hb').lt ht.good.size
    rw [heq, blockOf_slotAddr hdisk' hj'] at hblock
    exact hne (ht.apart g d (some i) (some i') hg hd (lowLink_some hi) (lowLink_some hi') hb hblock.symm).1
  · rw [hblock] at hfree
    have hbit := (mem_freeSet.mp hfree).2
    rw [hdata.used] at hbit
    cases hbit

theorem OnlyTouched.nblocks (h : OnlyTouched m m' d f grow) (ht : TreeOk m) (hd : InTree m d) (hf : NewPlace m d f) :
    nblocksIn m' = nblocksIn m := by
  unfold nblocksIn
  congr 1
  apply loadWord_congr
  intro i hi
  have haddr := nblocksAddr_toNat hi
  have hblock := blockOf_nblocksAddr hi
  have hdb := ((ht.place hd).bounds ht.good).1
  apply h
  unfold Touched
  rw [hblock]
  have hstart : 3 ≤ dataStart m := by
    have hlt := ht.good.superBlock.2.1
    unfold dataStart
    omega
  rintro (⟨hgrow, hx | hx | hx | hx | hx⟩ | hx)
  · omega
  · have hone := ht.free_start hx
    omega
  · have hone := ((ht.fileOk hd).indirect hx.1).1.start
    omega
  · omega
  · omega
  · obtain ⟨hdir, ⟨i, j, hi, hb, hj, rfl⟩ | ⟨hfree, hfaddr⟩⟩ := hf
    · have hdata := ht.block_data hd hi hb
      have hbstart := hdata.start
      rw [slotAddr_toNat (Nat.lt_of_lt_of_le hdata.lt ht.good.size) hj] at hx
      omega
    · have hbstart := ht.free_start hfree
      have hfnat := blockAddr_toNat (Nat.lt_of_lt_of_le (lt_of_free hfree) ht.good.size)
      rw [← hfaddr] at hfnat
      omega

/-- Bytes of the indirect blocks of other files stay the same. -/
theorem OnlyTouched.indirect_byte (h : OnlyTouched m m' d f grow) (ht : TreeOk m) (hd : InTree m d) (hf : NewPlace m d f)
    (hg : InTree m g) (hne : grow → g ≠ d) (hind : fIndirect m g ≠ 0#32) (hk : k < 4096) :
    m' (blockAddr (fIndirect m g).toNat + BitVec.ofNat 32 k) = m (blockAddr (fIndirect m g).toNat + BitVec.ofNat 32 k) := by
  have hlink : link m g none ≠ 0 := fun hz => hind (BitVec.eq_of_toNat_eq hz)
  have hdata : DataBlock m (fIndirect m g).toNat := ht.data g none hg lowLink_none hlink
  have hdisk : (fIndirect m g).toNat < 0xC0000 := Nat.lt_of_lt_of_le hdata.lt ht.good.size
  have hstart := hdata.start
  have haddr := blockAddr_toNat hdisk
  have hbyte : (blockAddr (fIndirect m g).toNat + BitVec.ofNat 32 k).toNat =
      0x10000000 + ((fIndirect m g).toNat * 4096 + k) := by bv_omega
  have hblock := blockOf_of_toNat hbyte
  rw [show ((fIndirect m g).toNat * 4096 + k) / 4096 = (fIndirect m g).toNat by omega] at hblock
  obtain ⟨b, hb, hlo, hhi⟩ := (ht.place hd).block ht.good
  -- the directory is in another block
  have hother : (fIndirect m g).toNat ≠ b := by
    rintro rfl
    have hhome : blockOf d = (fIndirect m g).toNat := by
      rw [blockOf_of_toNat (x := d.toNat - 0x10000000) (by omega)]
      omega
    rcases ht.home hd with rfl | ⟨g', i, j, hg', -, hi, hb', hj, rfl⟩
    · rw [show blockOf rootAddr = 1 by decide] at hhome
      unfold dataStart at hstart
      omega
    · have hdisk' := Nat.lt_of_lt_of_le (ht.block_data hg' hi hb').lt ht.good.size
      rw [blockOf_slotAddr hdisk' hj] at hhome
      exact nomatch (ht.apart g' g (some i) none hg' hg (lowLink_some hi) lowLink_none hb' hhome).2
  apply h
  unfold Touched
  rw [hblock, hbyte]
  rintro (⟨hgrow, hx | hx | hx | hx | hx⟩ | hx)
  · omega
  · have hbit := (mem_freeSet.mp hx).2
    rw [hdata.used] at hbit
    cases hbit
  · exact hne hgrow (ht.apart g d none none hg hd lowLink_none lowLink_none hlink hx.2).1
  · omega
  · omega
  · obtain ⟨hdir, ⟨i, j, hi, hb', hj, rfl⟩ | ⟨hfree, hfaddr⟩⟩ := hf
    · have hdisk' := Nat.lt_of_lt_of_le (ht.block_data hd hi hb').lt ht.good.size
      rw [slotAddr_toNat hdisk' hj] at hx
      change j < 16 at hj
      have heq : blockNo m d i = (fIndirect m g).toNat := by omega
      exact nomatch (ht.apart d g (some i) none hd hg (lowLink_some hi) lowLink_none hb' heq).2
    · have hfnat := blockAddr_toNat (Nat.lt_of_lt_of_le (lt_of_free hfree) ht.good.size)
      rw [← hfaddr] at hfnat
      have heq : blockOf f = (fIndirect m g).toNat := by omega
      have hbit := (mem_freeSet.mp hfree).2
      rw [heq, hdata.used] at hbit
      cases hbit

/-- The blocks of other files stay the same. -/
theorem OnlyTouched.blockAt (h : OnlyTouched m m' d f grow) (ht : TreeOk m) (hd : InTree m d) (hf : NewPlace m d f)
    (hg : InTree m g) (hne : grow → g ≠ d) (hi : i ≤ ndirect) : blockAt m' g i = blockAt m g i := by
  have hentry : Entry m g := ht.home hg
  have hn := h.nblocks ht hd hf
  have hind := h.indirect ht hd hf hentry hne
  have hslot : slotAt m' g i = slotAt m g i := slotAt_congr hn hind
  unfold Sisop.blockAt
  rw [hslot, hn]
  cases hs : slotAt m g i with
  | none => rfl
  | some slot =>
    have hword : loadWord m' slot = loadWord m slot := by
      unfold slotAt at hs
      split_ifs at hs with hdir hin
      · obtain rfl := Option.some.inj hs
        exact h.direct ht hd hf hentry hne hdir
      · obtain rfl := Option.some.inj hs
        obtain rfl : i = ndirect := Nat.le_antisymm hi (Nat.le_of_not_lt hdir)
        rw [Nat.sub_self]
        apply loadWord_congr
        intro k hk
        rw [BitVec.add_zero]
        exact h.indirect_byte ht hd hf hg hne hin.2.1 (by omega)
    dsimp only [bind, Option.bind]
    rw [hword]

/-- The files of a directory that does not grow are where they were. -/
theorem OnlyTouched.files (h : OnlyTouched m m' d f grow) (ht : TreeOk m) (hd : InTree m d) (hf : NewPlace m d f)
    (hg : InTree m g) (hdir : fType m g = ftypeDir) (hne : grow → g ≠ d) :
    filesFrom m' g 0 (dirLength m' g) = filesFrom m g 0 (dirLength m g) := by
  have hlen : dirLength m' g = dirLength m g := by
    unfold dirLength
    rw [h.size ht hd hf (ht.home hg) hne]
  rw [hlen]
  unfold filesFrom
  apply List.flatMap_congr
  intro i hi
  rw [List.mem_range'_1, Nat.zero_add] at hi
  have hle := Nat.le_of_lt_succ (Nat.lt_of_lt_of_le hi.2 (ht.dirLength_eq hg hdir).2)
  rw [h.blockAt ht hd hf hg hne hle]

/-- The map of another directory stays the same. -/
theorem OnlyTouched.lookup (h : OnlyTouched m m' d f grow) (ht : TreeOk m) (hd : InTree m d) (hf : NewPlace m d f)
    (hg : InTree m g) (hdir : fType m g = ftypeDir) (hne : g ≠ d) (name : Name) :
    lookupIn m' g name = lookupIn m g name := by
  unfold lookupIn
  rw [h.files ht hd hf hg hdir fun _ => hne]
  apply List.find?_congr
  intro e he
  obtain ⟨i, j, hi, hb, hj, rfl⟩ := (ht.mem_files hg hdir).mp he
  have hle := Nat.le_of_lt_succ (Nat.lt_of_lt_of_le hi (ht.dirLength_eq hg hdir).2)
  rw [h.name ht hd hf (Or.inr ⟨g, i, j, hg, hdir, hle, hb, hj, rfl⟩) (hf.not_in hd ht hg hne hle hb hj)]

end Sisop
