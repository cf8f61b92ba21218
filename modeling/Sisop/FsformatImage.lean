import Sisop.FsformatRun

/-! The image that `fsformat` makes, and when it is consistent. -/
namespace Sisop

section FinishedImage

variable {s t : Format} {m heap disk : Bytes} {a b i j k x n root : ℕ} {nb : Word} {file : InputFile}
  {files : List InputFile}

/-- The blocks of the entries of `n` files. -/
def entryBlocks (n : ℕ) : ℕ := (256 * n + 4095) / 4096

/-- The blocks that the root directory names. Where there are no files, `ROUNDUP(0)` on `int`
is a whole block. -/
def rootBlocks (n : ℕ) : ℕ := if n = 0 then 1 else entryBlocks n

theorem size_eq (n : ℕ) : (n : ℤ) * fileBytes = (256 * n : ℕ) := by
  rw [Nat.mul_comm 256 n, Int.natCast_mul]

theorem roundupInt_size (n : ℕ) : roundupInt (n * fileBytes) = (4096 * rootBlocks n : ℕ) := by
  rw [size_eq]
  unfold roundupInt rootBlocks entryBlocks
  rcases Nat.eq_zero_or_pos n with rfl | hn
  · rfl
  · rw [if_neg hn.ne', Int.tmod_eq_emod_of_nonneg (by omega)]
    omega

/-- The entries in their blocks, and the file node of the root directory. -/
def withRoot (m ents : Bytes) (n root : ℕ) : Bytes :=
  let m₁ := putWords (putBytes m (4096 * root) ((List.range (256 * n)).map ents)) 4232
    [BitVec.ofNat 32 (4096 * rootBlocks n)]
  putWords m₁ 4240 (countFrom (BitVec.ofNat 32 root) (rootBlocks n))

theorem finishdir_ret (h : Written nb disk heap files s) (hnb : nb.toNat ≤ 1024)
    (hr : Format.finishdir s = .ret () t) :
    startOf files files.length + entryBlocks files.length < nb.toNat ∧ t = { s with
      diskmap := withRoot s.diskmap s.ents files.length (startOf files files.length)
      diskpos := 4096 * (startOf files files.length + entryBlocks files.length) } := by
  have hmost := h.most
  have hroom := h.room
  have hsize : ((files.length : ℤ) * fileBytes) = (256 * files.length : ℕ) := size_eq _
  have hD : entryBlocks files.length ≤ 8 := by
    unfold entryBlocks
    omega
  have hR : rootBlocks files.length ≤ 8 := by
    unfold rootBlocks
    split_ifs <;> omega
  have hround : (roundupUint (BitVec.ofNat 32 (256 * files.length))).toNat = entryBlocks files.length * 4096 := by
    rw [roundupUint_toNat (by rw [BitVec.toNat_ofNat]; omega), BitVec.toNat_ofNat, Nat.mod_eq_of_lt (by omega)]
    rfl
  have hlen : (roundupUint (BitVec.ofNat 32 (4096 * rootBlocks files.length)) / 4096#32).toNat =
      rootBlocks files.length := by
    rw [BitVec.toNat_udiv, roundupUint_toNat (by rw [BitVec.toNat_ofNat]; omega), BitVec.toNat_ofNat,
      Nat.mod_eq_of_lt (by omega)]
    change (4096 * rootBlocks files.length + 4095) / 4096 * 4096 / 4096 = _
    omega
  simp only [Format.finishdir, Routine.gets_bind_run, h.count] at hr
  obtain ⟨start, u, ha, hr⟩ := Routine.bind_eq_ret.mp hr
  rw [hsize, BitVec.ofInt_natCast] at ha
  obtain ⟨rfl, rfl, hlt⟩ := Format.alloc_ret ha
  rw [Routine.modify_bind_run, Routine.gets_bind_run, roundupInt_size, BitVec.ofInt_natCast] at hr
  have ht := Format.finishfile_direct hlen (by omega) hr
  dsimp only at hlt
  have hpos : s.diskpos + entryBlocks files.length * 4096 =
      4096 * (startOf files files.length + entryBlocks files.length) := by
    rw [h.pos]
    omega
  rw [hround, hpos, h.nblocks] at hlt
  refine ⟨Format.lt_of_blockof_lt (by omega) hlt, ?_⟩
  rw [ht]
  simp only [Format.putDisk, Format.put, h.super, h.pos, hsize, Int.toNat_natCast, Format.blockof_mul, withRoot, hround,
    ← Nat.mul_comm 4096, ← Nat.mul_add]

/-- After `i` rounds of `finishdisk`. -/
structure Cleared (s : Format) (i : ℕ) (u : Format) : Prop where
  same : u.nblocks = s.nblocks ∧ u.diskpos = s.diskpos ∧ u.bitmap = s.bitmap
  bits : ∀ b, b < 32768 → (MarkedFree u.diskmap b ↔ i ≤ b)
  outside : ∀ x, x < 8192 ∨ 12288 ≤ x → u.diskmap x = s.diskmap x

theorem clearBit_marked (hb : s.bitmap = 8192) (i b : ℕ) :
    MarkedFree (s.clearBit i).diskmap b ↔ MarkedFree s.diskmap b ∧ b ≠ i := by
  have hmod : b % 32 < 32 := Nat.mod_lt _ (by decide)
  unfold MarkedFree
  change (getWord (s.clearBit i).diskmap (8192 + 4 * (b / 32))).getLsbD (b % 32) = true ↔
    (getWord s.diskmap (8192 + 4 * (b / 32))).getLsbD (b % 32) = true ∧ b ≠ i
  simp only [Format.clearBit, hb]
  by_cases hw : b / 32 = i / 32
  · have hbit : (1#32 <<< (i % 32)).getLsbD (b % 32) = decide (i % 32 = b % 32) := by
      have htwo : (BitVec.twoPow 32 (i % 32)).getLsbD (b % 32) = _ := BitVec.getLsbD_twoPow _ _
      rw [show (1#32 <<< (i % 32)) = BitVec.twoPow 32 (i % 32) from rfl, htwo]
      simp only [Nat.mod_lt i (show 32 > 0 by decide), decide_true, Bool.true_and]
    have hne : b ≠ i ↔ i % 32 ≠ b % 32 := by omega
    rw [hw, getWord_putWord, BitVec.getLsbD_and, BitVec.getLsbD_not, hbit, hne, Bool.and_eq_true]
    simp only [hmod, decide_true, Bool.true_and, Bool.not_eq_true', decide_eq_false_iff_not, ne_eq]
  · rw [getWord_putWords_outside (by rw [List.length_singleton]; omega)]
    have hne : b ≠ i := fun h => hw (h ▸ rfl)
    exact (and_iff_left hne).symm

/-- `finishdisk` clears the first bits of the bitmap, and changes nothing else. -/
theorem finishdisk_ret (hb : s.bitmap = 8192) (hpos : s.diskpos = 4096 * k) (hk : k ≤ 1024)
    (hones : ∀ b, b < 32768 → MarkedFree s.diskmap b) (hr : Format.finishdisk s = .ret () t) : Cleared s k t := by
  have hcount : (blockof s.diskpos).toNat = k := by
    rw [hpos, Format.blockof_mul, BitVec.toNat_ofNat]
    omega
  rw [Format.finishdisk, Routine.gets_bind_run, hcount] at hr
  have hstart : Cleared s 0 s :=
    ⟨⟨rfl, rfl, rfl⟩, fun b hlt => iff_of_true (hones b hlt) (Nat.zero_le b), fun _ _ => rfl⟩
  have hloop := Routine.loop_ret (fun i u => i ≤ k → Cleared s i u) k (fun _ => hstart) ?_ hr
  · exact hloop le_rfl
  intro i u u' hi ih hu hle
  have hu' := ih (by omega)
  obtain ⟨-, rfl⟩ := Outcome.ret.inj hu
  have hub : u.bitmap = 8192 := hu'.same.2.2.trans hb
  constructor
  · exact hu'.same
  · intro b hlt
    rw [clearBit_marked hub, hu'.bits b hlt]
    omega
  · intro x hx
    rw [← hu'.outside x hx]
    simp only [Format.clearBit, hub]
    exact putWords_outside (by rw [List.length_singleton]; omega)

/-- The image of `fsformat`: three blocks, those of the files, and the root directory. -/
structure Finished (nb : Word) (heap : Bytes) (files : List InputFile) (s : Format) : Prop where
  nblocks : s.nblocks = nb
  pos : s.diskpos = 4096 * (startOf files files.length + entryBlocks files.length)
  room : startOf files files.length + entryBlocks files.length < nb.toNat
  small : nb.toNat ≤ 1024
  most : files.length ≤ 128
  names : ∀ file ∈ files, file.last ≠ []
  entry : ∀ i (hi : i < files.length),
    EntryOf s.diskmap (4096 * startOf files files.length + 256 * i) heap (256 * i) files[i] (startOf files i)
  stored : ∀ i (hi : i < files.length), StoredIn s.diskmap files[i] (startOf files i)
  blank : ∀ x, 4096 * startOf files files.length + 256 * files.length ≤ x → s.diskmap x = 0#8
  rootSize : getWord s.diskmap 4232 = BitVec.ofNat 32 (4096 * rootBlocks files.length)
  rootDirect : ∀ k < 10, getWord s.diskmap (4240 + 4 * k) =
    if k < rootBlocks files.length then BitVec.ofNat 32 (startOf files files.length + k) else 0#32
  rootIndirect : getWord s.diskmap 4280 = 0#32
  magic : getWord s.diskmap 4096 = fsMagic
  bits : ∀ b, b < 32768 → (MarkedFree s.diskmap b ↔ startOf files files.length + entryBlocks files.length ≤ b)

theorem openedDisk_magic (nb : Word) : getWord (openedDisk nb) 4096 = fsMagic := by
  simp only [openedDisk]
  rw [getWord_putBytes_outside (by omega), getWord_putBytes_outside (by omega), getWord_putWords_outside (by omega),
    getWord_putWords_outside (by omega), getWord_putWord]

theorem openedDisk_node (nb : Word) (hx : 4240 ≤ x) (hx' : x + 4 ≤ 8192) : getWord (openedDisk nb) x = 0#32 := by
  simp only [openedDisk]
  rw [getWord_putBytes_outside (by omega),
    getWord_putBytes_outside (Or.inr (by simp only [List.length_cons, List.length_nil]; omega)),
    getWord_putWords_outside (Or.inr (by rw [List.length_singleton]; omega)),
    getWord_putWords_outside (Or.inr (by rw [List.length_singleton]; omega)),
    getWord_putWords_outside (Or.inr (by rw [List.length_singleton]; omega))]
  exact getWord_zero fun _ _ => rfl

theorem openedDisk_bits (nb : Word) (hb : b < 32768) : MarkedFree (openedDisk nb) b := by
  have hbyte (i : ℕ) (hi : i < 4096) : openedDisk nb (8192 + i) = 0xFF#8 := by
    have hlen : i < (List.replicate 4096 (0xFF#8)).length := by rwa [List.length_replicate]
    simp only [openedDisk]
    rw [putBytes_inside hlen, List.getElem_replicate]
  have hword : getWord (openedDisk nb) (8192 + 4 * (b / 32)) = BitVec.allOnes 32 := by
    apply getWord_of_bytes
    intro i hi
    rw [Nat.add_assoc, hbyte _ (by omega)]
    obtain rfl | rfl | rfl | rfl : i = 0 ∨ i = 1 ∨ i = 2 ∨ i = 3 := by omega
    all_goals rfl
  unfold MarkedFree
  change (getWord (openedDisk nb) (8192 + 4 * (b / 32))).getLsbD (b % 32) = true
  rw [hword, BitVec.getLsbD_allOnes]
  exact decide_eq_true (Nat.mod_lt _ (by decide))

theorem rootBlocks_le (h : n ≤ 128) : rootBlocks n ≤ 8 := by
  unfold rootBlocks entryBlocks
  split_ifs <;> omega

theorem withRoot_entry {ents : Bytes} (hroot : 3 ≤ root) (hn : n ≤ 128) (hk : k < 256 * n) :
    withRoot m ents n root (4096 * root + k) = ents k := by
  have hR := rootBlocks_le hn
  have hk' : k < ((List.range (256 * n)).map ents).length := by rwa [List.length_map, List.length_range]
  unfold withRoot
  rw [putWords_outside (Or.inr (by rw [countFrom_length]; omega)),
    putWords_outside (Or.inr (by rw [List.length_singleton]; omega)), putBytes_inside hk', List.getElem_map,
    List.getElem_range]

theorem withRoot_outside {ents : Bytes} (hn : n ≤ 128) (hx : x < 4232 ∨ 4280 ≤ x)
    (hx' : x < 4096 * root ∨ 4096 * root + 256 * n ≤ x) : withRoot m ents n root x = m x := by
  have hR := rootBlocks_le hn
  have hlen : ((List.range (256 * n)).map ents).length = 256 * n := by rw [List.length_map, List.length_range]
  unfold withRoot
  rw [putWords_outside (by rw [countFrom_length]; omega), putWords_outside (by rw [List.length_singleton]; omega),
    putBytes_outside (by omega)]

theorem withRoot_size {ents : Bytes} (m : Bytes) (n root : ℕ) :
    getWord (withRoot m ents n root) 4232 = BitVec.ofNat 32 (4096 * rootBlocks n) := by
  unfold withRoot
  rw [getWord_putWords_outside (by omega), getWord_putWord]

theorem withRoot_direct {ents : Bytes} (hroot : 3 ≤ root) (hn : n ≤ 128) (hk : k < 11) :
    getWord (withRoot m ents n root) (4240 + 4 * k) =
      if k < rootBlocks n then BitVec.ofNat 32 (root + k) else getWord m (4240 + 4 * k) := by
  have hR := rootBlocks_le hn
  have hlen : ((List.range (256 * n)).map ents).length = 256 * n := by rw [List.length_map, List.length_range]
  unfold withRoot
  split_ifs with hlt
  · have hk' : k < (countFrom (BitVec.ofNat 32 root) (rootBlocks n)).length := by rwa [countFrom_length]
    rw [getWord_putWords hk', countFrom_getElem, ofNat_add_ofNat]
  · rw [getWord_putWords_outside (by rw [countFrom_length]; omega),
      getWord_putWords_outside (Or.inr (by rw [List.length_singleton]; omega)), getWord_putBytes_outside (by omega)]

theorem markedFree_congr {m' : Bytes} (h : ∀ x, 8192 ≤ x → x < 12288 → m' x = m x) (hb : b < 32768) :
    MarkedFree m' b ↔ MarkedFree m b := by
  have hword : getWord m' (2 * blksize + 4 * (b / 32)) = getWord m (2 * blksize + 4 * (b / 32)) := by
    apply getWord_congr
    intro i hi
    change m' (8192 + 4 * (b / 32) + i) = m (8192 + 4 * (b / 32) + i)
    exact h _ (by omega) (by omega)
  rw [MarkedFree, MarkedFree, hword]

/-- The directory and the bitmap are written last. -/
theorem Written.finished (h : Written nb (openedDisk nb) heap files s) (hnb : nb.toNat ≤ 1024)
    (hroom : startOf files files.length + entryBlocks files.length < nb.toNat)
    (hr : Format.finishdisk { s with
      diskmap := withRoot s.diskmap s.ents files.length (startOf files files.length)
      diskpos := 4096 * (startOf files files.length + entryBlocks files.length) } = .ret () t) :
    Finished nb heap files t := by
  have hmost := h.most
  have hpos := h.pos
  obtain ⟨root, hroot⟩ : ∃ root, root = startOf files files.length := ⟨_, rfl⟩
  have h3 : 3 ≤ root := hroot ▸ le_spanStart _
  have hsizes : 256 * files.length ≤ 4096 * entryBlocks files.length := by
    unfold entryBlocks
    omega
  rw [← hroot] at hr hroom hpos
  -- what the directory leaves of the first blocks
  have hlow (x : ℕ) (hx : x < 12288) (hx' : x < 4232 ∨ 4280 ≤ x) :
      withRoot s.diskmap s.ents files.length root x = openedDisk nb x := by
    rw [withRoot_outside hmost hx' (by omega)]
    exact h.low x hx
  have hclear := finishdisk_ret (s := { s with
    diskmap := withRoot s.diskmap s.ents files.length root
    diskpos := 4096 * (root + entryBlocks files.length) }) h.bitmap rfl (by omega) ?_ hr
  swap
  · intro b hb
    apply (markedFree_congr (fun x hx hx' => hlow x hx' (by omega)) hb).mpr
    exact openedDisk_bits nb hb
  have hout (x : ℕ) (hx : x < 8192 ∨ 12288 ≤ x) :
      t.diskmap x = withRoot s.diskmap s.ents files.length root x := hclear.outside x hx
  have hnode (x : ℕ) (hx : 4240 ≤ x) (hx' : x + 4 ≤ 8192) : getWord s.diskmap x = 0#32 := by
    rw [← openedDisk_node nb hx hx']
    exact getWord_congr fun i hi => h.low _ (by omega)
  have hword (x : ℕ) (hx : x + 4 ≤ 8192) :
      getWord t.diskmap x = getWord (withRoot s.diskmap s.ents files.length root) x :=
    getWord_congr fun i hi => hout _ (by omega)
  constructor
  case nblocks => exact hclear.same.1.trans h.nblocks
  case pos =>
    rw [← hroot]
    exact hclear.same.2.1
  case room => exact hroot ▸ hroom
  case small => exact hnb
  case most => exact hmost
  case names => exact h.names
  case entry =>
    intro i hi
    rw [← hroot]
    apply (h.entry i hi).congr
    intro k hk
    rw [hout _ (by omega), Nat.add_assoc, withRoot_entry h3 hmost (by omega)]
  case stored =>
    intro i hi
    apply (h.stored i hi).congr
    intro x hx hx'
    have hd := startOf_disjoint hi hi
    have hs : 3 ≤ startOf files i := le_spanStart _
    rw [hout x (by omega), withRoot_outside hmost (by omega) (by omega)]
  case blank =>
    intro x hx
    rw [← hroot] at hx
    rw [hout x (by omega), withRoot_outside hmost (by omega) (by omega)]
    exact h.blank x (by omega)
  case rootSize => rw [hword _ (by decide), withRoot_size]
  case rootDirect =>
    intro k hk
    rw [hword _ (by omega), withRoot_direct h3 hmost (by omega), ← hroot]
    split_ifs
    · rfl
    · exact hnode _ (by omega) (by omega)
  case rootIndirect =>
    have hR := rootBlocks_le hmost
    rw [hword 4280 (by decide), show 4280 = 4240 + 4 * 10 from rfl, withRoot_direct h3 hmost (by omega), if_neg (by omega)]
    exact hnode _ (by omega) (by omega)
  case magic =>
    rw [hword 4096 (by decide), ← openedDisk_magic nb]
    exact getWord_congr fun i hi => hlow _ (by omega) (by omega)
  case bits =>
    rw [← hroot]
    exact hclear.bits

/-- The steps of a run that does not panic, with the files written behind the first blocks. -/
theorem fsformat_stages (h : fsformat nb files heap = .ret () t) : ∃ s, Written nb (openedDisk nb) heap files s ∧
    nb.toNat ≤ 1024 ∧ startOf files files.length + entryBlocks files.length < nb.toNat ∧
    Format.finishdisk { s with
      diskmap := withRoot s.diskmap s.ents files.length (startOf files files.length)
      diskpos := 4096 * (startOf files files.length + entryBlocks files.length) } = .ret () t := by
  unfold fsformat at h
  rw [Routine.ite_run] at h
  split_ifs at h with hrange
  · cases h
  obtain ⟨hlow, hhigh⟩ := not_or.mp hrange
  have h2 : 2 ≤ nb.toNat := Nat.le_of_not_lt hlow
  have h1024 : nb.toNat ≤ 1024 := Nat.le_of_not_lt hhigh
  obtain ⟨_, s₁, h₁, h⟩ := Routine.bind_eq_ret.mp h
  obtain ⟨h3, rfl⟩ := opendisk_ret h2 h1024 h₁
  rw [Routine.modify_bind_run] at h
  obtain ⟨_, s₂, h₂, h⟩ := Routine.bind_eq_ret.mp h
  have hw := (written_start h3).run h1024 h₂
  rw [List.nil_append] at hw
  obtain ⟨_, s₃, h₃, h⟩ := Routine.bind_eq_ret.mp h
  obtain ⟨hroom, rfl⟩ := finishdir_ret hw h1024 h₃
  exact ⟨s₂, hw, h1024, hroom, h⟩

/-- Every run that does not panic makes such an image. -/
theorem fsformat_ret (h : fsformat nb files heap = .ret () s) : Finished nb heap files s := by
  obtain ⟨_, hw, h1024, hroom, hr⟩ := fsformat_stages h
  exact hw.finished h1024 hroom hr

end FinishedImage
end Sisop
