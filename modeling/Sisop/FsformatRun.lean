import Sisop.Fsformat

/-! What `fsformat` leaves in the image and in the entries, file after file. -/
namespace Sisop

section Run

variable {s t : Format} {f : FilePtr} {m m' heap : Bytes} {a b i k x off : ℕ} {start len v : Word}
  {file : InputFile} {files : List InputFile}

theorem roundupUint_toNat {n : Word} (h : n.toNat ≤ 2^31) : (roundupUint n).toNat = (n.toNat + 4095) / 4096 * 4096 := by
  by_cases h0 : n = 0#32
  · rw [h0]
    decide
  · have hsub : (n - 1#32).toNat = n.toNat - 1 := by bv_omega
    have hadd : (n - 1#32 + 4096#32).toNat = n.toNat - 1 + 4096 := by bv_omega
    have hpos : n.toNat ≠ 0 := fun h => h0 (BitVec.eq_of_toNat_eq h)
    rw [roundupUint, BitVec.toNat_sub, BitVec.toNat_umod, hadd, hsub]
    change (2^32 - (n.toNat - 1) % 4096 + (n.toNat - 1 + 4096)) % 2^32 = _
    omega

theorem putWords_nil (m : Bytes) (a : ℕ) : putWords m a [] = m := by
  funext x
  apply putWords_outside
  rw [List.length_nil]
  omega

namespace Format

theorem put_append (s : Format) (f : FilePtr) (off : ℕ) (ws vs : List Word) :
    (s.put f off ws).put f (off + 4 * ws.length) vs = s.put f off (ws ++ vs) := by
  cases f with
  | disk a =>
    simp only [put, ← putWords_append, Nat.add_assoc]
  | ents a =>
    simp only [put, ← putWords_append, Nat.add_assoc]

theorem put_nil (s : Format) (f : FilePtr) (off : ℕ) : s.put f off [] = s := by
  cases f with
  | disk a => simp only [put, putWords_nil]
  | ents a => simp only [put, putWords_nil]

/-- A loop that writes block numbers one after the other. -/
theorem loop_put (s : Format) (f : FilePtr) (off : ℕ) (v : Word) (c : ℕ) :
    Routine.loop c (fun i => Routine.modify fun s => s.put f (off + 4 * i) [v + BitVec.ofNat 32 i]) s =
      .ret () (s.put f off (countFrom v c)) := by
  induction c with
  | zero =>
    rw [countFrom, List.range_zero, List.map_nil, put_nil]
    rfl
  | succ c ih =>
    rw [Routine.loop, Routine.bind_ret ih, Routine.modify_run, countFrom_succ, ← put_append, countFrom_length]

theorem alloc_ret {bytes : Word} (h : alloc bytes s = .ret a t) : a = s.diskpos ∧
    t = { s with diskpos := s.diskpos + (roundupUint bytes).toNat } ∧ blockof t.diskpos < t.nblocks := by
  unfold alloc at h
  dsimp only at h
  split_ifs at h with hlt
  obtain ⟨rfl, rfl⟩ := Outcome.ret.inj h
  exact ⟨rfl, rfl, BitVec.not_le.mp hlt⟩

/-- What `finishfile` writes, when a file of `n` blocks needs no indirect block. -/
theorem finishfile_direct {n : ℕ} (hn : (roundupUint len / 4096#32).toNat = n) (hlt : n < 10)
    (h : finishfile f start len s = .ret () t) : t = (s.put f 128 [len]).put f 136 (countFrom start n) := by
  rw [finishfile, Routine.modify_bind_run] at h
  simp only [hn] at h
  rw [Nat.min_eq_left hlt.le, Routine.bind_ret (loop_put _ _ _ _ _), if_neg hlt.ne] at h
  exact (Outcome.ret.inj h).2.symm

/-- The same for a file that needs one. -/
theorem finishfile_indirect {n : ℕ} (hn : (roundupUint len / 4096#32).toNat = n) (hle : 10 ≤ n)
    (h : finishfile f start len s = .ret () t) : blockof (s.diskpos + 4096) < s.nblocks ∧
      t = (({ (s.put f 128 [len]).put f 136 (countFrom start 10) with diskpos := s.diskpos + 4096 } : Format).put f 176
        [blockof s.diskpos]).put (.disk s.diskpos) 0 (countFrom (start + 10#32) (n - 10)) := by
  rw [finishfile, Routine.modify_bind_run] at h
  simp only [hn] at h
  rw [Nat.min_eq_right hle, Routine.bind_ret (loop_put _ _ _ _ _), if_pos rfl] at h
  obtain ⟨ind, u, ha, h⟩ := Routine.bind_eq_ret.mp h
  obtain ⟨rfl, rfl, hroom⟩ := alloc_ret ha
  have hround : (roundupUint 4096#32).toNat = 4096 := by decide
  have hadd (j : ℕ) : start + BitVec.ofNat 32 (10 + j) = start + 10#32 + BitVec.ofNat 32 j := by
    rw [BitVec.add_assoc, BitVec.ofNat_add]
  have hoff (j : ℕ) : 4 * j = 0 + 4 * j := (Nat.zero_add _).symm
  simp only [Routine.modify_bind_run, hadd, hround] at h hroom
  conv at h in 4 * _ => rw [hoff]
  rw [loop_put] at h
  have hsame : ((s.put f 128 [len]).put f 136 (countFrom start 10)).diskpos = s.diskpos ∧
      ((s.put f 128 [len]).put f 136 (countFrom start 10)).nblocks = s.nblocks := by
    cases f <;> exact ⟨rfl, rfl⟩
  rw [hsame.1, hsame.2] at hroom
  rw [hsame.1] at h
  exact ⟨hroom, (Outcome.ret.inj h).2.symm⟩

end Format

/-- The blocks that a file takes, with the one for block numbers. -/
def InputFile.span (file : InputFile) : ℕ := file.blocks + if 10 ≤ file.blocks then 1 else 0

/-- The entry at `a` for a file whose data are in the blocks from `start` on. -/
def withEntry (m : Bytes) (a : ℕ) (file : InputFile) (start : ℕ) : Bytes :=
  let m₁ := putWords (putBytes m a (file.last ++ [0#8])) (a + 132) [0#32]
  let m₂ := putWords m₁ (a + 128) [BitVec.ofNat 32 file.data.length]
  let m₃ := putWords m₂ (a + 136) (countFrom (BitVec.ofNat 32 start) (min file.blocks 10))
  if 10 ≤ file.blocks then putWords m₃ (a + 176) [BitVec.ofNat 32 (start + file.blocks)] else m₃

/-- The data in the blocks from `start` on, and the block numbers behind them. -/
def withData (m : Bytes) (file : InputFile) (start : ℕ) : Bytes :=
  let m₁ := putBytes m (4096 * start) file.data
  if 10 ≤ file.blocks then
    putWords m₁ (4096 * (start + file.blocks)) (countFrom (BitVec.ofNat 32 start + 10#32) (file.blocks - 10))
  else m₁

namespace Format

theorem blockof_mul (b : ℕ) : blockof (4096 * b) = BitVec.ofNat 32 b := by
  rw [blockof, Nat.mul_div_cancel_left b (by decide)]

theorem lt_of_blockof_lt {c : Word} (hb : b < 2^32) (h : blockof (4096 * b) < c) : b < c.toNat := by
  rw [blockof_mul] at h
  have hlt : (BitVec.ofNat 32 b).toNat < c.toNat := h
  rwa [BitVec.toNat_ofNat, Nat.mod_eq_of_lt hb] at hlt

theorem diradd_ret {type : Word} {name : List (BitVec 8)} (h : diradd type name s = .ret a t) :
    s.n < 128 ∧ a = 256 * s.n ∧ t = { s with
      n := s.n + 1
      ents := putWords (putBytes s.ents (256 * s.n) (name ++ [0#8])) (256 * s.n + 132) [type] } := by
  simp only [diradd, Routine.gets_bind_run, Routine.modify_bind_run] at h
  split_ifs at h with hn
  · cases h
  · obtain ⟨ha, ht⟩ := Outcome.ret.inj h
    exact ⟨Nat.lt_of_succ_le (Nat.le_of_not_lt hn), ha.symm, ht.symm⟩

/-- `writefile` takes the next blocks and the next entry. -/
theorem writefile_ret (h : writefile file s = .ret () t) (hpos : s.diskpos = 4096 * b) (hb : b < 1024) :
    (file.last ≠ [] ∧ file.last.length ≤ 255 ∧ s.n < 128 ∧ b + file.span < s.nblocks.toNat) ∧
      t = { s with
        diskmap := withData s.diskmap file b
        diskpos := 4096 * (b + file.span)
        ents := withEntry s.ents (256 * s.n) file b
        n := s.n + 1 } := by
  unfold writefile at h
  split_ifs at h with hname hsize
  · cases h
  · cases h
  obtain ⟨hne, hlen⟩ := not_or.mp hname
  have hlen' : file.data.length < 4235264 := Nat.lt_of_not_le hsize
  have hnat : (BitVec.ofNat 32 file.data.length).toNat = file.data.length := by
    rw [BitVec.toNat_ofNat]
    omega
  have hround : (roundupUint (BitVec.ofNat 32 file.data.length)).toNat = file.blocks * 4096 := by
    rw [roundupUint_toNat (by omega), hnat]
    rfl
  have hblocks : file.blocks ≤ 1034 := by
    unfold InputFile.blocks
    omega
  have hn : (roundupUint (BitVec.ofNat 32 file.data.length) / 4096#32).toNat = file.blocks := by
    rw [BitVec.toNat_udiv, hround]
    exact Nat.mul_div_cancel _ (by decide)
  obtain ⟨f, s₁, hadd, h⟩ := Routine.bind_eq_ret.mp h
  obtain ⟨start, s₂, halloc, h⟩ := Routine.bind_eq_ret.mp h
  obtain ⟨hmax, rfl, rfl⟩ := diradd_ret hadd
  obtain ⟨rfl, rfl, hroom⟩ := alloc_ret halloc
  rw [Routine.modify_bind_run] at h
  dsimp only at h hroom
  rw [hround, hpos, show 4096 * b + file.blocks * 4096 = 4096 * (b + file.blocks) by omega] at hroom h
  have hroom' := lt_of_blockof_lt (by omega) hroom
  rw [blockof_mul] at h
  by_cases hi : file.blocks < 10
  · have hspan : file.span = file.blocks := by rw [InputFile.span, if_neg (by omega), Nat.add_zero]
    refine ⟨⟨hne, by omega, hmax, hspan ▸ hroom'⟩, ?_⟩
    rw [finishfile_direct hn hi h, hspan]
    simp only [put, putDisk, withEntry, withData, if_neg (Nat.not_le.mpr hi), Nat.min_eq_left hi.le]
  · have hle := Nat.le_of_not_lt hi
    have hspan : file.span = file.blocks + 1 := by rw [InputFile.span, if_pos hle]
    obtain ⟨hroom₂, ht⟩ := finishfile_indirect hn hle h
    dsimp only [putDisk] at hroom₂ ht
    rw [show 4096 * (b + file.blocks) + 4096 = 4096 * (b + file.span) by omega] at hroom₂ ht
    refine ⟨⟨hne, by omega, hmax, lt_of_blockof_lt (by omega) hroom₂⟩, ?_⟩
    rw [ht]
    simp only [put, withEntry, withData, if_pos hle, Nat.min_eq_right hle, blockof_mul, Nat.add_zero]

end Format
/-- The entry for the file at `a`. What `fsformat` does not write is as it was in `heap` at `b`. -/
structure EntryOf (m : Bytes) (a : ℕ) (heap : Bytes) (b : ℕ) (file : InputFile) (start : ℕ) : Prop where
  name : ∀ k (hk : k < file.last.length), k < 128 → m (a + k) = file.last[k]
  nul : file.last.length < 128 → m (a + file.last.length) = 0#8
  size : getWord m (a + 128) = BitVec.ofNat 32 file.data.length
  direct : ∀ k < 10, k < file.blocks → getWord m (a + 136 + 4 * k) = BitVec.ofNat 32 (start + k)
  indirect : 10 ≤ file.blocks → getWord m (a + 176) = BitVec.ofNat 32 (start + file.blocks)
  spareDirect : file.last.length < 128 → ∀ k < 10, file.blocks ≤ k →
    getWord m (a + 136 + 4 * k) = getWord heap (b + 136 + 4 * k)
  spareIndirect : file.last.length < 128 → file.blocks < 10 → getWord m (a + 176) = getWord heap (b + 176)

/-- The data of the file are in the blocks from `start` on. -/
structure StoredIn (m : Bytes) (file : InputFile) (start : ℕ) : Prop where
  bound : file.blocks ≤ 1034
  data : ∀ k (hk : k < file.data.length), m (4096 * start + k) = file.data[k]
  cells : 10 ≤ file.blocks → ∀ k, 10 ≤ k → k < file.blocks →
    getWord m (4096 * (start + file.blocks) + 4 * (k - 10)) = BitVec.ofNat 32 (start + k)
  rest : 10 ≤ file.blocks → ∀ k, file.blocks ≤ k → k < 1034 →
    getWord m (4096 * (start + file.blocks) + 4 * (k - 10)) = 0#32

/-- The words of two places with the same 256 bytes. -/
theorem getWord_of_same {a' : ℕ} (hm : ∀ k < 256, m' (a' + k) = m (a + k)) (hk : k + 4 ≤ 256) :
    getWord m' (a' + k) = getWord m (a + k) := by
  apply getWord_congr
  intro i hi
  have hi' := hm (k + i) (by omega)
  rwa [← Nat.add_assoc, ← Nat.add_assoc] at hi'

theorem EntryOf.congr {start a' : ℕ} (h : EntryOf m a heap b file start) (hm : ∀ k < 256, m' (a' + k) = m (a + k)) :
    EntryOf m' a' heap b file start := by
  have hword (k : ℕ) (hk : k + 4 ≤ 256) := getWord_of_same hm hk
  constructor
  case name => exact fun k hk hlt => (hm k (by omega)).trans (h.name k hk hlt)
  case nul => exact fun hlt => (hm _ (by omega)).trans (h.nul hlt)
  case size => exact (hword 128 (by decide)).trans h.size
  case direct =>
    intro k hk hlt
    rw [Nat.add_assoc, hword (136 + 4 * k) (by omega), ← Nat.add_assoc]
    exact h.direct k hk hlt
  case indirect => exact fun hle => (hword 176 (by decide)).trans (h.indirect hle)
  case spareDirect =>
    intro hname k hk hle
    rw [Nat.add_assoc, hword (136 + 4 * k) (by omega), ← Nat.add_assoc]
    exact h.spareDirect hname k hk hle
  case spareIndirect => exact fun hname hlt => (hword 176 (by decide)).trans (h.spareIndirect hname hlt)

theorem EntryOf.heap_congr {start : ℕ} {heap' : Bytes} (h : EntryOf m a heap b file start)
    (hm : ∀ k < 256, heap' (b + k) = heap (b + k)) : EntryOf m a heap' b file start := by
  have hword (k : ℕ) (hk : k + 4 ≤ 256) := getWord_of_same hm hk
  refine ⟨h.name, h.nul, h.size, h.direct, h.indirect, fun hname k hk hle => ?_, fun hname hlt => ?_⟩
  · rw [Nat.add_assoc b, hword (136 + 4 * k) (by omega), ← Nat.add_assoc]
    exact h.spareDirect hname k hk hle
  · rw [hword 176 (by decide)]
    exact h.spareIndirect hname hlt

theorem StoredIn.congr {start : ℕ} (h : StoredIn m file start)
    (hm : ∀ x, 4096 * start ≤ x → x < 4096 * (start + file.span) → m' x = m x) : StoredIn m' file start := by
  have hblocks : file.data.length ≤ 4096 * file.blocks := by
    unfold InputFile.blocks
    omega
  have hle : file.blocks ≤ file.span := Nat.le_add_right _ _
  have hword (hi : 10 ≤ file.blocks) (k : ℕ) (hk : k < 1024) :
      getWord m' (4096 * (start + file.blocks) + 4 * k) = getWord m (4096 * (start + file.blocks) + 4 * k) := by
    have hspan : file.span = file.blocks + 1 := by rw [InputFile.span, if_pos hi]
    apply getWord_congr
    intro i hi
    apply hm
    · omega
    · omega
  constructor
  case data => exact fun k hk => (hm _ (by omega) (by omega)).trans (h.data k hk)
  case bound => exact h.bound
  case cells =>
    intro hi k hk hlt
    have hb := h.bound
    rw [hword hi (k - 10) (by omega)]
    exact h.cells hi k hk hlt
  case rest => exact fun hi k hk hlt => (hword hi _ (by omega)).trans (h.rest hi k hk hlt)

section WithEntry

variable {e : ℕ}

/-- The words of an entry are written behind its name, and words above `x` do not matter there. -/
theorem withEntry_low (a : ℕ) (file : InputFile) (e : ℕ) (hx : x < a + 128) :
    withEntry m a file e x = putBytes m a (file.last ++ [0#8]) x := by
  unfold withEntry
  split_ifs
  · rw [putWords_outside (by omega), putWords_outside (by omega), putWords_outside (by omega),
      putWords_outside (by omega)]
  · rw [putWords_outside (by omega), putWords_outside (by omega), putWords_outside (by omega)]

theorem ofNat_add_ofNat (b k : ℕ) : BitVec.ofNat 32 b + BitVec.ofNat 32 k = BitVec.ofNat 32 (b + k) :=
  (BitVec.ofNat_add b k).symm

/-- What is above the words that are written is as before. -/
theorem withEntry_spare (hname : file.last.length < 128) (a e : ℕ)
    (hx : 136 + 4 * file.blocks ≤ x) (hx' : x + 4 ≤ 176 ∨ file.blocks < 10) :
    getWord (withEntry m a file e) (a + x) = getWord m (a + x) := by
  have hlen : (file.last ++ [0#8]).length = file.last.length + 1 := List.length_append
  have hcount := countFrom_length (BitVec.ofNat 32 e) (min file.blocks 10)
  unfold withEntry
  dsimp only
  split_ifs with hi
  · rw [getWord_putWords_outside (by omega), getWord_putWords_outside (by omega),
      getWord_putWords_outside (Or.inr (by rw [List.length_singleton]; omega)),
      getWord_putWords_outside (Or.inr (by rw [List.length_singleton]; omega)),
      getWord_putBytes_outside (Or.inr (by omega))]
  · rw [getWord_putWords_outside (by omega),
      getWord_putWords_outside (Or.inr (by rw [List.length_singleton]; omega)),
      getWord_putWords_outside (Or.inr (by rw [List.length_singleton]; omega)),
      getWord_putBytes_outside (Or.inr (by omega))]

theorem entryOf_withEntry (hlen : file.last.length ≤ 255) (a e : ℕ) :
    EntryOf (withEntry m a file e) a m a file e := by
  have hcount := countFrom_length (BitVec.ofNat 32 e) (min file.blocks 10)
  constructor
  case name =>
    intro k hk hlt
    have hk' : k < (file.last ++ [0#8]).length := by
      rw [List.length_append]
      omega
    rw [withEntry_low a file e (by omega), putBytes_inside hk', List.getElem_append_left hk]
  case nul =>
    intro hlt
    have hk' : file.last.length < (file.last ++ [0#8]).length := by
      rw [List.length_append]
      exact Nat.lt_succ_self _
    rw [withEntry_low a file e (by omega), putBytes_inside hk', List.getElem_append_right le_rfl]
    simp
  case size =>
    unfold withEntry
    dsimp only
    split_ifs
    · rw [getWord_putWords_outside (by omega), getWord_putWords_outside (by omega), getWord_putWord]
    · rw [getWord_putWords_outside (by omega), getWord_putWord]
  case direct =>
    intro k hk hlt
    have hk' : k < (countFrom (BitVec.ofNat 32 e) (min file.blocks 10)).length := by omega
    unfold withEntry
    dsimp only
    split_ifs
    · rw [getWord_putWords_outside (by omega), getWord_putWords hk', countFrom_getElem, ofNat_add_ofNat]
    · rw [getWord_putWords hk', countFrom_getElem, ofNat_add_ofNat]
  case indirect =>
    intro hle
    unfold withEntry
    dsimp only
    rw [if_pos hle, getWord_putWord]
  case spareDirect =>
    intro hname k hk hle
    rw [Nat.add_assoc]
    exact withEntry_spare hname a e (by omega) (Or.inl (by omega))
  case spareIndirect =>
    exact fun hname hlt => withEntry_spare hname a e (by omega) (Or.inr hlt)

theorem withEntry_outside (hlen : file.last.length ≤ 255) (hx : x < a ∨ a + 256 ≤ x) :
    withEntry m a file e x = m x := by
  have hlen' : (file.last ++ [0#8]).length = file.last.length + 1 := List.length_append
  have hcount := countFrom_length (BitVec.ofNat 32 e) (min file.blocks 10)
  unfold withEntry
  split_ifs
  · rw [putWords_outside (by rw [List.length_singleton]; omega), putWords_outside (by omega),
      putWords_outside (by rw [List.length_singleton]; omega), putWords_outside (by rw [List.length_singleton]; omega),
      putBytes_outside (by omega)]
  · rw [putWords_outside (by omega), putWords_outside (by rw [List.length_singleton]; omega),
      putWords_outside (by rw [List.length_singleton]; omega), putBytes_outside (by omega)]

theorem data_le_blocks (file : InputFile) : file.data.length ≤ 4096 * file.blocks := by
  unfold InputFile.blocks
  omega

theorem storedIn_withData (hb : file.blocks ≤ 1034) (hm : ∀ x, 4096 * e ≤ x → m x = 0#8) :
    StoredIn (withData m file e) file e := by
  have hcount := countFrom_length (BitVec.ofNat 32 e + 10#32) (file.blocks - 10)
  have hlen := data_le_blocks file
  constructor
  case bound => exact hb
  case data =>
    intro k hk
    unfold withData
    split_ifs
    · rw [putWords_outside (by omega), putBytes_inside hk]
    · rw [putBytes_inside hk]
  case cells =>
    intro hi k hk hlt
    have hk' : k - 10 < (countFrom (BitVec.ofNat 32 e + 10#32) (file.blocks - 10)).length := by omega
    unfold withData
    dsimp only
    rw [if_pos hi, getWord_putWords hk', countFrom_getElem, BitVec.add_assoc, ofNat_add_ofNat, ofNat_add_ofNat,
      Nat.add_sub_cancel' hk]
  case rest =>
    intro hi k hk hlt
    unfold withData
    dsimp only
    rw [if_pos hi, getWord_putWords_outside (by omega), getWord_putBytes_outside (by omega)]
    apply getWord_zero
    exact fun i _ => hm _ (by omega)

theorem withData_outside (hx : x < 4096 * e ∨ 4096 * (e + file.span) ≤ x) (hb : file.blocks ≤ 1034) :
    withData m file e x = m x := by
  have hcount := countFrom_length (BitVec.ofNat 32 e + 10#32) (file.blocks - 10)
  have hlen := data_le_blocks file
  unfold withData
  unfold InputFile.span at hx
  split_ifs at hx ⊢
  · rw [putWords_outside (by omega), putBytes_outside (by omega)]
  · rw [putBytes_outside (by omega)]

end WithEntry

/-- The first block of file `i`. Three blocks come before those of the files. -/
def startOf (files : List InputFile) (i : ℕ) : ℕ := spanStart 3 (files.map InputFile.span) i

theorem startOf_succ (hi : i < files.length) : startOf files (i + 1) = startOf files i + files[i].span := by
  have hi' : i < (files.map InputFile.span).length := by rwa [List.length_map]
  rw [startOf, spanStart_succ hi', List.getElem_map]
  rfl

theorem startOf_append (more : List InputFile) (hi : i ≤ files.length) :
    startOf (files ++ more) i = startOf files i := by
  rw [startOf, List.map_append, spanStart_append _ (by rwa [List.length_map])]
  rfl

theorem startOf_mono {j : ℕ} (h : i ≤ j) : startOf files i ≤ startOf files j := spanStart_mono h

theorem startOf_disjoint {j : ℕ} (hi : i < files.length) (h : i < j) :
    startOf files i + files[i].span ≤ startOf files j := by
  rw [← startOf_succ hi]
  exact startOf_mono h

/-- After `writefile` for the files. The first three blocks are those of `disk`. -/
structure Written (nb : Word) (disk heap : Bytes) (files : List InputFile) (s : Format) : Prop where
  nblocks : s.nblocks = nb
  super : s.super = 4096
  bitmap : s.bitmap = 8192
  pos : s.diskpos = 4096 * startOf files files.length
  room : startOf files files.length < nb.toNat
  count : s.n = files.length
  most : files.length ≤ 128
  names : ∀ file ∈ files, file.last ≠ []
  low : ∀ x < 12288, s.diskmap x = disk x
  blank : ∀ x, s.diskpos ≤ x → s.diskmap x = 0#8
  spare : ∀ x, 256 * files.length ≤ x → s.ents x = heap x
  entry : ∀ i (hi : i < files.length), EntryOf s.ents (256 * i) heap (256 * i) files[i] (startOf files i)
  stored : ∀ i (hi : i < files.length), StoredIn s.diskmap files[i] (startOf files i)

/-- One more file is written. -/
theorem Written.next {nb : Word} {disk : Bytes} (h : Written nb disk heap files s) (hnb : nb.toNat ≤ 1024)
    (hr : Format.writefile file s = .ret () t) : Written nb disk heap (files ++ [file]) t := by
  have hroom := h.room
  obtain ⟨⟨hne, hlen, hn, hlt⟩, rfl⟩ := Format.writefile_ret hr h.pos (by omega)
  have hlength : (files ++ [file]).length = files.length + 1 := List.length_append
  have hend : startOf (files ++ [file]) (files ++ [file]).length = startOf files files.length + file.span := by
    rw [hlength, startOf_succ (by omega), startOf_append _ le_rfl, List.getElem_append_right le_rfl]
    simp
  have hb : file.blocks ≤ 1034 := by
    have hspan : file.blocks ≤ file.span := Nat.le_add_right _ _
    rw [h.nblocks] at hlt
    omega
  have h3 : 3 ≤ startOf files files.length := le_spanStart _
  have hpos := h.pos
  constructor
  case nblocks => exact h.nblocks
  case super => exact h.super
  case bitmap => exact h.bitmap
  case pos => rw [hend]
  case room =>
    rw [hend, ← h.nblocks]
    exact hlt
  case count => rw [hlength, ← h.count]
  case most =>
    rw [h.count] at hn
    omega
  case names =>
    intro f hf
    rcases List.mem_append.mp hf with hf | hf
    · exact h.names f hf
    · exact List.mem_singleton.mp hf ▸ hne
  case low =>
    intro x hx
    exact (withData_outside (Or.inl (by omega)) hb).trans (h.low x hx)
  case blank =>
    intro x hx
    change 4096 * (startOf files files.length + file.span) ≤ x at hx
    exact (withData_outside (Or.inr hx) hb).trans (h.blank x (by omega))
  case spare =>
    intro x hx
    rw [hlength] at hx
    have hout := withEntry_outside (m := s.ents) (a := 256 * s.n) (e := startOf files files.length) hlen
      (x := x) (Or.inr (by rw [h.count]; omega))
    exact hout.trans (h.spare x (by omega))
  case entry =>
    intro i hi
    rw [startOf_append _ (by omega)]
    by_cases hlast : i < files.length
    · rw [List.getElem_append_left hlast]
      apply (h.entry i hlast).congr
      intro k hk
      apply withEntry_outside hlen
      rw [h.count]
      omega
    · obtain rfl : i = files.length := by omega
      rw [List.getElem_append_right le_rfl]
      simp only [Nat.sub_self, List.getElem_cons_zero]
      rw [h.count]
      apply (entryOf_withEntry hlen _ _).heap_congr
      exact fun k _ => (h.spare _ (by omega)).symm
  case stored =>
    intro i hi
    rw [startOf_append _ (by omega)]
    by_cases hlast : i < files.length
    · rw [List.getElem_append_left hlast]
      apply (h.stored i hlast).congr
      intro x hx hx'
      have hd := startOf_disjoint hlast hlast
      exact withData_outside (Or.inl (by omega)) hb
    · obtain rfl : i = files.length := by omega
      rw [List.getElem_append_right le_rfl]
      simp only [Nat.sub_self, List.getElem_cons_zero]
      exact storedIn_withData hb (h.pos ▸ h.blank)

theorem Written.run {nb : Word} {disk : Bytes} {more : List InputFile} (h : Written nb disk heap files s)
    (hnb : nb.toNat ≤ 1024) (hr : Format.writefiles more s = .ret () t) : Written nb disk heap (files ++ more) t := by
  induction more generalizing s files with
  | nil =>
    obtain ⟨-, rfl⟩ := Outcome.ret.inj hr
    rwa [List.append_nil]
  | cons file more ih =>
    obtain ⟨_, u, hu, hr⟩ := Routine.bind_eq_ret.mp hr
    rw [← List.singleton_append, ← List.append_assoc]
    exact ih (h.next hnb hu) hr

/-- The blocks that `opendisk` fills. -/
def openedDisk (nb : Word) : Bytes :=
  let m₁ := putWords (putWords (fun _ => 0#8) 4096 [fsMagic]) 4100 [nb]
  let m₂ := putBytes (putWords m₁ 4236 [ftypeDir]) 4104 [0x2F#8, 0#8]
  putBytes m₂ 8192 (List.replicate 4096 0xFF#8)

theorem opendisk_ret (hnb : 2 ≤ s.nblocks.toNat) (hnb' : s.nblocks.toNat ≤ 1024) (h : Format.opendisk s = .ret () t) :
    3 < s.nblocks.toNat ∧
      t = { s with diskmap := openedDisk s.nblocks, diskpos := 12288, super := 4096, bitmap := 8192 } := by
  have hround : (roundupUint 4096#32).toNat = 4096 := by decide
  have hbit : (s.nblocks + 32768#32 - 1#32) / 32768#32 = 1#32 := by
    apply BitVec.eq_of_toNat_eq
    have hsum : (s.nblocks + 32768#32 - 1#32).toNat = s.nblocks.toNat + 32767 := by bv_omega
    rw [BitVec.toNat_udiv, hsum]
    change (s.nblocks.toNat + 32767) / 32768 = 1
    omega
  simp only [Format.opendisk, Routine.modify_bind_run] at h
  obtain ⟨a₁, s₁, h₁, h⟩ := Routine.bind_eq_ret.mp h
  obtain ⟨-, rfl, -⟩ := Format.alloc_ret h₁
  obtain ⟨a₂, s₂, h₂, h⟩ := Routine.bind_eq_ret.mp h
  obtain ⟨rfl, rfl, -⟩ := Format.alloc_ret h₂
  simp only [Routine.modify_bind_run, Routine.gets_bind_run] at h
  obtain ⟨a₃, s₃, h₃, h⟩ := Routine.bind_eq_ret.mp h
  obtain ⟨rfl, rfl, hroom⟩ := Format.alloc_ret h₃
  simp only [Format.put, Format.putDisk, hround, hbit, BitVec.one_mul] at h hroom
  exact ⟨Format.lt_of_blockof_lt (show 3 < 2^32 by decide) hroom, (Outcome.ret.inj h).2.symm⟩

theorem written_start {nb : Word} (hnb : 3 < nb.toNat) : Written nb (openedDisk nb) heap []
    ⟨nb, openedDisk nb, 12288, 4096, 8192, heap, 0⟩ := by
  constructor
  case nblocks => rfl
  case super => rfl
  case bitmap => rfl
  case pos => rfl
  case room => exact hnb
  case count => rfl
  case most => exact Nat.zero_le _
  case names => exact fun _ hf => absurd hf List.not_mem_nil
  case low => exact fun _ _ => rfl
  case blank =>
    intro x hx
    change 12288 ≤ x at hx
    have hlen : (List.replicate 4096 (0xFF#8)).length = 4096 := List.length_replicate
    simp only [openedDisk]
    rw [putBytes_outside (by omega), putBytes_outside (Or.inr (by simp only [List.length_cons, List.length_nil]; omega)),
      putWords_outside (Or.inr (by rw [List.length_singleton]; omega)),
      putWords_outside (Or.inr (by rw [List.length_singleton]; omega)),
      putWords_outside (Or.inr (by rw [List.length_singleton]; omega))]
  case spare => exact fun _ _ => rfl
  case entry => exact fun i hi => absurd hi (Nat.not_lt_zero _)
  case stored => exact fun i hi => absurd hi (Nat.not_lt_zero _)

end Run
end Sisop
