import Sisop.FileData

/-! A file is an array of bytes for `file_write` and `file_read`, when its size is not negative. -/
namespace Sisop

section Calls

variable {files : Set Word} {used : Word → ℕ → Prop} {buffer : Word → ℕ → Word} {getBlock : GetBlock} {I : Fs → Prop}
  {f offset count : Word} {s s' : Fs} {buf : List (BitVec 8)}

/-- What `file_write` is to do. -/
structure FileWritten (files : Set Word) (used : Word → ℕ → Prop) (buffer : Word → ℕ → Word) (f offset : Word)
    (buf : List (BitVec 8)) (s s' : Fs) : Prop where
  size : (fSize s'.mem f).toInt = max (fSize s.mem f).toInt (offset.toNat + buf.length)
  data : ∀ k (hk : k < buf.length), fileByte buffer s'.mem f (offset.toNat + k) = buf[k]
  other : ∀ g b j, used g b → j < 4096 →
    ¬ (g = f ∧ offset.toNat ≤ 4096 * b + j ∧ 4096 * b + j < offset.toNat + buf.length) →
    s'.mem (buffer g b + BitVec.ofNat 32 j) = s.mem (buffer g b + BitVec.ofNat 32 j)
  sizes : ∀ g ∈ files, g ≠ f → fSize s'.mem g = fSize s.mem g

/-- What `file_read` is to return and to leave. -/
structure FileRead (files : Set Word) (used : Word → ℕ → Prop) (buffer : Word → ℕ → Word) (f offset count : Word)
    (bytes : List (BitVec 8)) (s s' : Fs) : Prop where
  length : (bytes.length : ℤ) = min (count.toNat : ℤ) (max 0 ((fSize s.mem f).toInt - offset.toNat))
  data : ∀ k (hk : k < bytes.length), bytes[k] = fileByte buffer s.mem f (offset.toNat + k)
  same : SameData files used buffer s.mem s'.mem

/-- A store to the size of a file. -/
theorem Buffers.size_stored (hb : Buffers files used buffer) (hf : f ∈ files) (w : Word) (m : ByteMem) :
    (∀ g b j, used g b → j < 4096 → storeWord m (fSizeAddr f) w (buffer g b + BitVec.ofNat 32 j) =
      m (buffer g b + BitVec.ofNat 32 j)) ∧
    fSize (storeWord m (fSizeAddr f) w) f = w ∧
    ∀ g ∈ files, g ≠ f → fSize (storeWord m (fSizeAddr f) w) g = fSize m g := by
  have hin (x : Word) (hx : InSpan (fSizeAddr f) 4 x) : ∃ k < 256, x = f + BitVec.ofNat 32 k := by
    refine ⟨128 + (x - fSizeAddr f).toNat, ?_, ?_⟩
    · unfold InSpan at hx
      omega
    · unfold fSizeAddr InSpan at *
      bv_omega
  refine ⟨fun g b j hg hj => ?_, loadWord_storeWord _ _ _, fun g hg hne => ?_⟩
  · apply storeWord_of_not_inSpan
    intro hx
    obtain ⟨k, hk, heq⟩ := hin _ hx
    exact hb.outside f k g b j hf hg hk hj heq.symm
  · apply loadWord_congr
    intro l hl
    apply storeWord_of_not_inSpan
    intro hx
    obtain ⟨k, hk, heq⟩ := hin _ hx
    have haddr : fSizeAddr g + BitVec.ofNat 32 l = g + BitVec.ofNat 32 (128 + l) := by
      unfold fSizeAddr
      bv_omega
    rw [haddr] at heq
    exact hne (hb.nodes g f (128 + l) k hg hf (by omega) hk heq)

/-- `file_set_size` for a size that is not smaller. -/
theorem fileSetSize_grow {w : Word} (hb : Buffers files used buffer) (hg : GivesBlocks files used buffer getBlock I)
    (hf : f ∈ files) (hI : I s) (hle : (fSize s.mem f).toInt ≤ w.toInt) :
    ∃ s', fileSetSize f w s = .ret (.ok ()) s' ∧ I s' ∧ s'.mem = storeWord s.mem (fSizeAddr f) w := by
  refine ⟨(s.storeUint (fSizeAddr f) w).flush (blockOf f), ?_, hg.flush _ _ (hg.size f w s hf hI), flush_mem _ _⟩
  have hflush : flushBlock f (s.storeUint (fSizeAddr f) w) =
      .ret () ((s.storeUint (fSizeAddr f) w).flush (blockOf f)) := by
    unfold flushBlock
    rw [Routine.panicUnless_bind (hb.mapped f hf)]
    rfl
  unfold fileSetSize
  rw [Routine.bind_ret (Routine.get_run s), if_neg (not_lt.mpr hle)]
  change (flushBlock f >>= fun _ => _) (s.storeUint (fSizeAddr f) w) = _
  rw [Routine.bind_ret hflush]
  rfl

/-- The bytes are written in any case. -/
theorem fileWrite_run (hb : Buffers files used buffer) (hg : GivesBlocks files used buffer getBlock I) (hf : f ∈ files)
    (hI : I s) (hroom : offset.toNat + buf.length < 2^31)
    (hu : ∀ k < buf.length, used f ((offset.toNat + k) / 4096)) :
    ∃ t s' : Fs, fileWrite getBlock f buf offset s = .ret (.ok (BitVec.ofNat 32 buf.length)) s' ∧
      Stored files used buffer t.mem s'.mem f offset.toNat buf ∧
      t.mem = if (fSize s.mem f).toNat < offset.toNat + buf.length then
        storeWord s.mem (fSizeAddr f) (BitVec.ofNat 32 (offset.toNat + buf.length)) else s.mem := by
  have hcount : (BitVec.ofNat 32 buf.length).toNat = buf.length := by
    rw [BitVec.toNat_ofNat]
    omega
  have hsum : offset + BitVec.ofNat 32 buf.length = BitVec.ofNat 32 (offset.toNat + buf.length) := by bv_omega
  have hlt : fSize s.mem f < offset + BitVec.ofNat 32 buf.length ↔ (fSize s.mem f).toNat < offset.toNat + buf.length := by
    rw [BitVec.lt_def, BitVec.toNat_add, hcount, Nat.mod_eq_of_lt (by omega)]
  -- the size comes first
  obtain ⟨t, hsize, hIt, hmem⟩ : ∃ t, (if fSize s.mem f < offset + BitVec.ofNat 32 buf.length then
      fileSetSize f (offset + BitVec.ofNat 32 buf.length) else pure (.ok ()) : Routine Fs (Except FsErr Unit)) s =
        .ret (.ok ()) t ∧ I t ∧ t.mem = if (fSize s.mem f).toNat < offset.toNat + buf.length then
          storeWord s.mem (fSizeAddr f) (BitVec.ofNat 32 (offset.toNat + buf.length)) else s.mem := by
    by_cases hgrow : (fSize s.mem f).toNat < offset.toNat + buf.length
    · rw [if_pos (hlt.mpr hgrow), if_pos hgrow, hsum]
      apply fileSetSize_grow hb hg hf hI
      have hnew : (BitVec.ofNat 32 (offset.toNat + buf.length)).toNat = offset.toNat + buf.length := by
        rw [BitVec.toNat_ofNat]
        omega
      rw [BitVec.toInt_eq_toNat_of_lt (by omega), BitVec.toInt_eq_toNat_of_lt (by omega), hnew]
      exact Int.ofNat_le.mpr (by omega)
    · rw [if_neg (mt hlt.mp hgrow), if_neg hgrow]
      exact ⟨s, rfl, hI, rfl⟩
  obtain ⟨s', hspans, -, hst⟩ := writeSpans_run hb hg buf.length buf le_rfl hIt hroom hu
  refine ⟨t, s', ?_, hst, hmem⟩
  have hof : spansOf offset (BitVec.ofNat 32 buf.length) = spansFrom buf.length offset buf.length := by
    have hof := @spansOf_eq offset (BitVec.ofNat 32 buf.length) (by omega)
    rwa [hcount] at hof
  unfold fileWrite
  rw [Routine.bind_ret (Routine.get_run s), hof]
  by_cases hgrow : fSize s.mem f < offset + BitVec.ofNat 32 buf.length
  · rw [if_pos hgrow] at hsize ⊢
    rw [Routine.bind_ret hsize]
    dsimp only [orReturn]
    rw [Routine.bind_ret hspans]
    rfl
  · rw [if_neg hgrow] at hsize ⊢
    rw [Routine.bind_ret hsize]
    dsimp only [orReturn]
    rw [Routine.bind_ret hspans]
    rfl

theorem fileWrite_written (hb : Buffers files used buffer) (hg : GivesBlocks files used buffer getBlock I) (hf : f ∈ files)
    (hI : I s) (hroom : offset.toNat + buf.length < 2^31)
    (hu : ∀ k < buf.length, used f ((offset.toNat + k) / 4096)) (hsize : 0 ≤ (fSize s.mem f).toInt) :
    ∃ s', fileWrite getBlock f buf offset s = .ret (.ok (BitVec.ofNat 32 buf.length)) s' ∧
      FileWritten files used buffer f offset buf s s' := by
  obtain ⟨t, s', hrun, hst, hmem⟩ := fileWrite_run hb hg hf hI hroom hu
  have hold : (fSize s.mem f).toNat < 2^31 := by
    have hmsb := BitVec.msb_eq_toInt (x := fSize s.mem f)
    rw [decide_eq_false (not_lt.mpr hsize)] at hmsb
    have hlt := BitVec.msb_eq_false_iff_two_mul_lt.mp hmsb
    omega
  have hint : (fSize s.mem f).toInt = ((fSize s.mem f).toNat : ℤ) := BitVec.toInt_eq_toNat_of_lt (by omega)
  obtain ⟨hbytes, hself, hsizes⟩ := hb.size_stored hf (BitVec.ofNat 32 (offset.toNat + buf.length)) s.mem
  refine ⟨s', hrun, ?_⟩
  by_cases hgrow : (fSize s.mem f).toNat < offset.toNat + buf.length
  · rw [if_pos hgrow] at hmem
    constructor
    case size =>
      have hnew : (BitVec.ofNat 32 (offset.toNat + buf.length)).toNat = offset.toNat + buf.length := by
        rw [BitVec.toNat_ofNat]
        omega
      rw [hst.sizes f hf, hmem, hself, hint, BitVec.toInt_eq_toNat_of_lt (by omega), hnew]
      omega
    case data => exact hst.data
    case other =>
      intro g b j hu hj hout
      rw [hst.other g b j hu hj hout, hmem, hbytes g b j hu hj]
    case sizes =>
      intro g hg hne
      rw [hst.sizes g hg, hmem, hsizes g hg hne]
  · rw [if_neg hgrow] at hmem
    constructor
    case size =>
      rw [hst.sizes f hf, hmem, hint]
      omega
    case data => exact hst.data
    case other =>
      intro g b j hu hj hout
      rw [hst.other g b j hu hj hout, hmem]
    case sizes =>
      intro g hg hne
      rw [hst.sizes g hg, hmem]

/-- `file_read` returns the bytes that are there, whatever the size is. Blocks behind the end of
the file are not looked at. -/
theorem fileRead_within (hg : GivesBlocks files used buffer getBlock I) (hI : I s)
    (hroom : offset.toNat + count.toNat < 2^31)
    (hu : ∀ k < count.toNat, offset.toNat + k < (fSize s.mem f).toNat → used f ((offset.toNat + k) / 4096)) :
    ∃ bytes s', fileRead getBlock f count offset s = .ret (.ok bytes) s' ∧
      FileRead files used buffer f offset count bytes s s' := by
  have hoff : offset.toInt = (offset.toNat : ℤ) := BitVec.toInt_eq_toNat_of_lt (by omega)
  unfold fileRead
  rw [Routine.bind_ret (Routine.get_run s)]
  by_cases hend : (fSize s.mem f).toInt ≤ offset.toInt
  · rw [if_pos hend]
    refine ⟨[], s, rfl, ?_, fun _ hk => absurd hk (Nat.not_lt_zero _), ⟨fun _ _ _ _ _ => rfl, fun _ _ => rfl⟩⟩
    rw [hoff] at hend
    rw [List.length_nil]
    omega
  · rw [if_neg hend]
    rw [hoff] at hend
    have hpos : 0 ≤ (fSize s.mem f).toInt := by omega
    have hint : (fSize s.mem f).toInt = ((fSize s.mem f).toNat : ℤ) := by
      have hmsb := BitVec.msb_eq_toInt (x := fSize s.mem f)
      rw [decide_eq_false (not_lt.mpr hpos)] at hmsb
      exact BitVec.toInt_eq_toNat_of_lt (BitVec.msb_eq_false_iff_two_mul_lt.mp hmsb)
    rw [hint] at hend
    have hlt : offset.toNat < (fSize s.mem f).toNat := by omega
    have hsub : (fSize s.mem f - offset).toNat = (fSize s.mem f).toNat - offset.toNat := by bv_omega
    -- the number of bytes that are read
    obtain ⟨n, hn⟩ : ∃ n, n = if count ≤ fSize s.mem f - offset then count else fSize s.mem f - offset := ⟨_, rfl⟩
    have hnat : n.toNat = min count.toNat ((fSize s.mem f).toNat - offset.toNat) := by
      rw [hn]
      split_ifs with hle
      · have hle' : count.toNat ≤ (fSize s.mem f - offset).toNat := hle
        omega
      · have hle' : ¬ count.toNat ≤ (fSize s.mem f - offset).toNat := hle
        omega
    rw [← hn, spansOf_eq (by omega)]
    obtain ⟨s', hrun, -, hsame⟩ := @readSpans_run files used buffer getBlock I f offset s hg n.toNat n.toNat [] le_rfl hI
      (by omega) fun k hk => hu k (by omega) (by omega)
    refine ⟨_, s', hrun, ?_, fun k hk => ?_, hsame⟩
    · rw [List.nil_append, List.length_map, List.length_range, hnat, hint]
      omega
    · simp only [List.nil_append, List.getElem_map, List.getElem_range]

theorem fileRead_run (hg : GivesBlocks files used buffer getBlock I) (hI : I s)
    (hroom : offset.toNat + count.toNat < 2^31) (hu : ∀ k < count.toNat, used f ((offset.toNat + k) / 4096)) :
    ∃ bytes s', fileRead getBlock f count offset s = .ret (.ok bytes) s' ∧
      FileRead files used buffer f offset count bytes s s' :=
  fileRead_within hg hI hroom fun k hk _ => hu k hk

/-- Both together. A negative size is not less than a position, as an unsigned number. -/
theorem file_array_iff (hb : Buffers files used buffer) (hg : GivesBlocks files used buffer getBlock I) (hf : f ∈ files)
    (hI : I s) (hroom : offset.toNat + buf.length < 2^31)
    (hu : ∀ k < buf.length, used f ((offset.toNat + k) / 4096)) :
    ((∃ s', fileWrite getBlock f buf offset s = .ret (.ok (BitVec.ofNat 32 buf.length)) s' ∧
        FileWritten files used buffer f offset buf s s') ∧
      ∃ bytes s', fileRead getBlock f (BitVec.ofNat 32 buf.length) offset s = .ret (.ok bytes) s' ∧
        FileRead files used buffer f offset (BitVec.ofNat 32 buf.length) bytes s s') ↔
    0 ≤ (fSize s.mem f).toInt := by
  have hcount : (BitVec.ofNat 32 buf.length).toNat = buf.length := by
    rw [BitVec.toNat_ofNat]
    omega
  constructor
  · rintro ⟨⟨s', hrun, hw⟩, -⟩
    by_contra hneg
    obtain ⟨t, u, hrun', hst, hmem⟩ := fileWrite_run hb hg hf hI hroom hu
    obtain ⟨-, rfl⟩ := Outcome.ret.inj (hrun.symm.trans hrun')
    have hlarge : 2^31 ≤ (fSize s.mem f).toNat := by
      by_contra hlt
      have hint : (fSize s.mem f).toInt = ((fSize s.mem f).toNat : ℤ) := BitVec.toInt_eq_toNat_of_lt (by omega)
      omega
    rw [if_neg (by omega)] at hmem
    have hsize := hw.size
    rw [hst.sizes f hf, hmem] at hsize
    omega
  · intro hsize
    refine ⟨fileWrite_written hb hg hf hI hroom hu hsize, ?_⟩
    exact fileRead_run hg hI (by omega) fun k hk => hu k (by omega)

end Calls

section Root

/-- The root directory has the blocks 3 and 4. -/
def rootUsed (f : Word) (b : ℕ) : Prop := f = rootAddr ∧ b < 2

def rootBuffer (_ : Word) (b : ℕ) : Word := blockAddr (3 + b)

structure RootReady (s : Fs) : Prop where
  nblocks : nblocksIn s.mem = 8
  direct : ∀ b < 2, loadWord s.mem (fDirectAddr rootAddr b) = BitVec.ofNat 32 (3 + b)

theorem rootBuffer_toNat {b j : ℕ} (hb : b < 2) (hj : j < 4096) :
    (rootBuffer rootAddr b + BitVec.ofNat 32 j).toNat = 0x10003000 + 4096 * b + j := by
  have hblock := blockAddr_toNat (show 3 + b < 0xC0000 by omega)
  unfold rootBuffer
  bv_omega

theorem buffers_root : Buffers {rootAddr} rootUsed rootBuffer := by
  have hroot := rootAddr_toNat
  constructor
  case apart =>
    rintro f b i g c j ⟨rfl, hb⟩ ⟨rfl, hc⟩ hi hj heq
    have hnat := congrArg BitVec.toNat heq
    rw [rootBuffer_toNat hb hi, rootBuffer_toNat hc hj] at hnat
    exact ⟨rfl, by omega, by omega⟩
  case outside =>
    rintro f k g c j rfl ⟨rfl, hc⟩ hk hj heq
    have hnat := congrArg BitVec.toNat heq
    rw [rootBuffer_toNat hc hj] at hnat
    bv_omega
  case nodes => exact fun f g k l hf hg _ _ _ => hf.trans hg.symm
  case mapped =>
    rintro f rfl
    decide

theorem RootReady.congr {s s' : Fs} {lo k : ℕ} (h : RootReady s) (hm : SameOutside s.mem s'.mem lo k)
    (hlo : 0x10003000 ≤ lo ∨ lo = 0x10001088 ∧ k = 4) : RootReady s' := by
  have hroot := rootAddr_toNat
  refine ⟨(nblocksIn_same hm (by omega)).trans h.nblocks, fun b hb => ?_⟩
  rw [fDirect_same hm (by omega) (show b < 10 by omega) (by omega)]
  exact h.direct b hb

theorem givesBlocks_root : GivesBlocks {rootAddr} rootUsed rootBuffer fileGetBlock RootReady := by
  constructor
  case get =>
    rintro f b s hI ⟨rfl, hb⟩
    refine ⟨s, ?_, hI, ⟨fun _ _ _ _ _ => rfl, fun _ _ => rfl⟩⟩
    have hslot := hI.direct b hb
    have hne : loadWord s.mem (fDirectAddr rootAddr b) ≠ 0#32 := by
      rw [hslot]
      bv_omega
    have hnat : (loadWord s.mem (fDirectAddr rootAddr b)).toNat = 3 + b := by
      rw [hslot, BitVec.toNat_ofNat]
      omega
    have hwalk : fileBlockWalk rootAddr b true s = .ret (.ok (fDirectAddr rootAddr b)) s := by
      unfold fileBlockWalk
      rw [Routine.bind_ret (Routine.get_run s), if_neg (show ¬ 10 + 4096 / 4 ≤ b by omega), if_pos (show b < 10 by omega)]
      rfl
    have haddr : diskaddr (loadWord s.mem (fDirectAddr rootAddr b)) s = .ret (blockAddr (3 + b)) s := by
      unfold diskaddr
      rw [Routine.bind_ret (Routine.get_run s), Routine.panicUnless_bind ⟨hne, by rw [hnat, hI.nblocks]; omega⟩, hnat]
      rfl
    unfold fileGetBlock
    rw [Routine.bind_ret hwalk]
    dsimp only [orReturn]
    unfold getSlot
    rw [Routine.bind_ret (Routine.get_run s), if_pos hne]
    unfold slotBlock
    rw [Routine.bind_ret (Routine.get_run s), Routine.bind_ret haddr]
    rfl
  case bytes =>
    rintro f b i bs s hI ⟨rfl, hb⟩ hi
    by_cases hbs : bs = []
    · rw [hbs]
      exact ⟨hI.nblocks, hI.direct⟩
    have hpos := List.length_pos_of_ne_nil hbs
    have haddr := rootBuffer_toNat hb (show i < 4096 by omega)
    exact hI.congr (writeBytes_sameOutside (by omega)) (Or.inl (by omega))
  case size =>
    rintro f w s rfl hI
    have haddr : (fSizeAddr rootAddr).toNat = 0x10001088 := by decide
    exact hI.congr (storeWord_sameOutside (by omega)) (Or.inr ⟨haddr, rfl⟩)
  case flush =>
    intro b s hI
    exact ⟨by rw [flush_mem]; exact hI.nblocks, by rw [flush_mem]; exact hI.direct⟩

/-- A disk where the root directory has a size and two blocks. -/
def rootFs (size : Word) : Fs :=
  let m := storeWord (fun _ => 0#8) nblocksAddr 8#32
  let m := storeWord (storeWord m (fDirectAddr rootAddr 0) 3#32) (fDirectAddr rootAddr 1) 4#32
  ⟨storeWord m (fSizeAddr rootAddr) size, fun _ => 0#8, fun _ => false⟩

theorem rootReady (size : Word) : RootReady (rootFs size) := by
  let m := storeWord (storeWord (storeWord (fun _ => 0#8) nblocksAddr 8#32) (fDirectAddr rootAddr 0) 3#32) (fDirectAddr rootAddr 1) 4#32
  have hwords : nblocksIn m = 8 ∧ ∀ b < 2, loadWord m (fDirectAddr rootAddr b) = BitVec.ofNat 32 (3 + b) := by decide +kernel
  have hbase : RootReady ⟨m, fun _ => 0#8, fun _ => false⟩ := ⟨hwords.1, hwords.2⟩
  have haddr : (fSizeAddr rootAddr).toNat = 0x10001088 := by decide
  exact hbase.congr (storeWord_sameOutside (by omega)) (Or.inr ⟨haddr, rfl⟩)

theorem rootUsed_small {buf : List (BitVec 8)} (h : buf.length ≤ 8192) :
    ∀ k < buf.length, rootUsed rootAddr (((0#32 : Word).toNat + k) / 4096) := by
  intro k hk
  change rootAddr = rootAddr ∧ (0 + k) / 4096 < 2
  exact ⟨rfl, by omega⟩

/-- A byte is written to a file of size -1, which stays as large. -/
theorem file_write_negative : ∃ (files : Set Word) (used : Word → ℕ → Prop) (buffer : Word → ℕ → Word)
    (getBlock : GetBlock) (I : Fs → Prop) (f offset : Word) (buf : List (BitVec 8)) (s : Fs),
    Buffers files used buffer ∧ GivesBlocks files used buffer getBlock I ∧ f ∈ files ∧ I s ∧
    offset.toNat + buf.length < 2^31 ∧ (∀ k < buf.length, used f ((offset.toNat + k) / 4096)) ∧
    ¬ ∃ s', fileWrite getBlock f buf offset s = .ret (.ok (BitVec.ofNat 32 buf.length)) s' ∧
      FileWritten files used buffer f offset buf s s' := by
  have hu := @rootUsed_small [7#8] (by decide)
  refine ⟨{rootAddr}, rootUsed, rootBuffer, fileGetBlock, RootReady, rootAddr, 0#32, [7#8], rootFs 0xFFFFFFFF#32,
    buffers_root, givesBlocks_root, rfl, (rootReady _), by decide, hu, ?_⟩
  rintro ⟨s', hrun, hw⟩
  obtain ⟨t, u, hrun', hst, hmem⟩ :=
    fileWrite_run buffers_root givesBlocks_root (Set.mem_singleton rootAddr) (rootReady _) (by decide) hu
  obtain ⟨-, rfl⟩ := Outcome.ret.inj (hrun.symm.trans hrun')
  have hold : fSize (rootFs 0xFFFFFFFF#32).mem rootAddr = 0xFFFFFFFF#32 := loadWord_storeWord _ _ _
  rw [hold, if_neg (by decide)] at hmem
  have hsize := hw.size
  rw [hst.sizes rootAddr rfl, hmem, hold] at hsize
  exact absurd hsize (by decide)

/-- A write of 5000 bytes, which are in two blocks, over the three bytes of the file. -/
theorem file_array_root :
    (∃ s', fileWrite fileGetBlock rootAddr (List.replicate 5000 7#8) 0#32 (rootFs 3#32) = .ret (.ok 5000#32) s' ∧
      FileWritten {rootAddr} rootUsed rootBuffer rootAddr 0#32 (List.replicate 5000 7#8) (rootFs 3#32) s') ∧
    ∃ bytes s', fileRead fileGetBlock rootAddr 5000#32 0#32 (rootFs 3#32) = .ret (.ok bytes) s' ∧
      FileRead {rootAddr} rootUsed rootBuffer rootAddr 0#32 5000#32 bytes (rootFs 3#32) s' := by
  have hlen : (List.replicate 5000 7#8).length = 5000 := List.length_replicate
  have hiff := file_array_iff buffers_root givesBlocks_root (Set.mem_singleton rootAddr) (rootReady 3#32)
    (show (0#32 : Word).toNat + (List.replicate 5000 7#8).length < 2^31 by rw [hlen]; decide)
    (rootUsed_small (hlen.trans_le (by decide)))
  rw [hlen] at hiff
  apply hiff.mpr
  have hsize : fSize (rootFs 3#32).mem rootAddr = 3#32 := loadWord_storeWord _ _ _
  rw [hsize]
  decide

end Root
end Sisop
