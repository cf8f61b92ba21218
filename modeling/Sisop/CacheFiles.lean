import Sisop.CreateFrame

/-! `file_read` and `dir_lookup` on the block cache itself, with the page faults that bring the
blocks in. -/
namespace Sisop

section Calls

variable (io : BlockIo) (depth : ℕ)

/-- The bytes from an address on, one after another. -/
def cacheReadBytes (va : Word) : ℕ → Routine Cache (List (BitVec 8))
  | 0 => return []
  | n+1 => do
    let bytes ← cacheReadBytes va n
    let v ← readByte io depth (va + BitVec.ofNat 32 n)
    return bytes ++ [v]

/-- A store of a `uint32_t`, at any address. -/
def cacheStoreUint (va w : Word) : Routine Cache Unit :=
  Routine.loop 4 fun i => writeByte io depth (va + BitVec.ofNat 32 i) (byteOf w i)

/-- The loop of `alloc_block` from a block on, with the number of rounds that are left. -/
def cacheAllocFrom : ℕ → ℕ → Routine Cache (Except FsErr ℕ)
  | 0, _ => return .error .noDisk
  | n+1, blockno => do
    let free ← blockIsFree (bcPgfault io depth) blockno
    if free then do
      let w ← loadUint (bcPgfault io depth) (bitmapAddr blockno)
      cacheStoreUint io depth (bitmapAddr blockno) (w &&& (0#32 <<< (blockno % 32)))
      cacheFlushBlock io (blockAddr 2)
      return .ok blockno
    else
      cacheAllocFrom n (blockno + 1)

/-- `alloc_block`. -/
def cacheAllocBlock : Routine Cache (Except FsErr ℕ) := do
  let n ← loadUint (bcPgfault io depth) nblocksAddr
  cacheAllocFrom io depth n.toNat 0

/-- The indirect block of a file that has none. Where there is no page for it, `memset` faults. -/
def cacheNewIndirect (f : Word) : Routine Cache (Except FsErr Unit) := do
  let r ← cacheAllocBlock io depth
  orReturn r fun blockno => do
    cacheStoreUint io depth (fIndirectAddr f) (BitVec.ofNat 32 blockno)
    let va ← cacheDiskaddr io depth blockno
    if io.alloc blockno then Routine.modify (Cache.pageAlloc blockno) else pure ()
    Routine.loop blksize fun i => writeByte io depth (va + BitVec.ofNat 32 i) 0#8
    cacheFlushBlock io va
    return .ok ()

/-- The slot of a block past the direct ones. -/
def cacheIndirectSlot (f : Word) (filebno : ℕ) : Routine Cache (Except FsErr Word) := do
  let w ← loadUint (bcPgfault io depth) (fIndirectAddr f)
  let va ← cacheDiskaddr io depth w.toNat
  return .ok (va + BitVec.ofNat 32 (filebno - ndirect))

/-- `file_block_walk`. -/
def cacheBlockWalk (f : Word) (filebno : ℕ) (alloc : Bool) : Routine Cache (Except FsErr Word) := do
  if ndirect + nindirect ≤ filebno then
    return .error .inval
  else if filebno < ndirect then
    return .ok (fDirectAddr f filebno)
  else
    let w ← loadUint (bcPgfault io depth) (fIndirectAddr f)
    if w ≠ 0#32 then
      cacheIndirectSlot io depth f filebno
    else if ¬ alloc then
      return .error .notFound
    else do
      let r ← cacheNewIndirect io depth f
      orReturn r fun _ => cacheIndirectSlot io depth f filebno

/-- The address of the block whose number is in a slot. -/
def cacheSlotBlock (slot : Word) : Routine Cache (Except FsErr Word) := do
  let w ← loadUint (bcPgfault io depth) slot
  let va ← cacheDiskaddr io depth w.toNat
  return .ok va

/-- `file_get_block`. -/
def cacheGetBlock (f : Word) (filebno : ℕ) : Routine Cache (Except FsErr Word) := do
  let r ← cacheBlockWalk io depth f filebno true
  orReturn r fun slot => do
    let w ← loadUint (bcPgfault io depth) slot
    if w ≠ 0#32 then
      cacheSlotBlock io depth slot
    else do
      let b ← cacheAllocBlock io depth
      cacheStoreUint io depth slot (retWordOf b)
      cacheSlotBlock io depth slot

def cacheReadSpans (f : Word) : List Span → List (BitVec 8) → Routine Cache (Except FsErr (List (BitVec 8)))
  | [], buf => return .ok buf
  | sp :: sps, buf => do
    let r ← cacheGetBlock io depth f sp.filebno
    orReturn r fun blk => do
      let bytes ← cacheReadBytes io depth (blk + sp.off) sp.len
      cacheReadSpans f sps (buf ++ bytes)

/-- `file_read`. -/
def cacheFileRead (f : Word) (count offset : Word) : Routine Cache (Except FsErr (List (BitVec 8))) := do
  let size ← loadUint (bcPgfault io depth) (fSizeAddr f)
  if size.toInt ≤ offset.toInt then
    return .ok []
  else
    cacheReadSpans io depth f (spansOf offset (if count ≤ size - offset then count else size - offset)) []

/-- `strcmp` of a string at an address with another one. -/
def cacheNameIs (va : Word) : List (BitVec 8) → Routine Cache Bool
  | [] => do
    let v ← readByte io depth va
    return v = 0#8
  | c :: cs => do
    let v ← readByte io depth va
    if v = c then cacheNameIs (va + 1#32) cs else return false

/-- The first of `n` files of a block, from file `j` on, that has the name. -/
def cacheFindFile (blk : Word) (name : List (BitVec 8)) : ℕ → ℕ → Routine Cache (Option Word)
  | 0, _ => return none
  | n+1, j => do
    let same ← cacheNameIs io depth (entryAddr blk j) name
    if same then return some (entryAddr blk j) else cacheFindFile blk name n (j + 1)

/-- The first file in `n` blocks of a directory, from block `i` on, that has the name. -/
def cacheDirFind (dir : Word) (name : List (BitVec 8)) : ℕ → ℕ → Routine Cache (Except FsErr Word)
  | 0, _ => return .error .notFound
  | n+1, i => do
    let r ← cacheGetBlock io depth dir i
    orReturn r fun blk => do
      let found ← cacheFindFile io depth blk name blkfiles 0
      match found with
      | some f => return .ok f
      | none => cacheDirFind dir name n (i + 1)

/-- `dir_lookup`. -/
def cacheDirLookup (dir : Word) (name : List (BitVec 8)) : Routine Cache (Except FsErr Word) := do
  let size ← loadUint (bcPgfault io depth) (fSizeAddr dir)
  Routine.panicUnless (size.srem 4096#32 = 0#32)
  cacheDirFind io depth dir name (size.sdiv 4096#32).toNat 0

end Calls

/-- A routine that returns `a` where the server sees `m`, and reads blocks in at most. -/
def Shows {α : Type} (m : ByteMem) (r : Routine Cache α) (a : α) : Prop :=
  ∀ c, CacheOk c → c.view = m → ∃ c', r c = .ret a c' ∧ CacheOk c' ∧ ReadIn c c'

/-- The bitmap has the blocks of a file in use: the one that the file is in, its indirect block,
and those of its bytes. -/
structure UsedFile (m : ByteMem) (f : Word) : Prop where
  home : InUse m (blockOf f)
  indirect : fIndirect m f ≠ 0#32 → InUse m (fIndirect m f).toNat
  data : ∀ i, 4096 * i < (fSize m f).toNat → ∀ blk, blockAt m f i = some blk → InUse m (blockOf blk)

/-- All of a file is in one block. -/
def OneBlock (f : Word) : Prop := ∀ k < fileBytes, blockOf (f + BitVec.ofNat 32 k) = blockOf f

/-- The bytes of one round of `file_read` are in a block that the file has. -/
def HeldSpan (m : ByteMem) (f : Word) (sp : Span) : Prop :=
  ∃ blk o, blockAt m f sp.filebno = some blk ∧ 4096 * sp.filebno < (fSize m f).toNat ∧ sp.off = BitVec.ofNat 32 o ∧
    o + sp.len ≤ 4096

section Spans

variable {m : ByteMem} {f offset count blk : Word} {c i j n : ℕ} {sp : Span}

/-- A block of a file is one of the disk. -/
theorem blockAt_addr (hg : GoodSuper m) (h : blockAt m f i = some blk) : ∃ c < diskBlocks, blk = blockAddr c := by
  unfold blockAt at h
  cases hs : slotAt m f i with
  | none =>
    rw [hs] at h
    cases h
  | some slot =>
    rw [hs] at h
    dsimp only [bind, Option.bind] at h
    split_ifs at h with hb
    exact ⟨_, Nat.lt_of_lt_of_le hb.2 hg.size, (Option.some.inj h).symm⟩

/-- The rounds of `file_read` are about bytes from the position on, each within a block. -/
theorem mem_spansFrom {fuel : ℕ} {pos : Word} (hpos : pos.toNat + n < 2^31) (h : sp ∈ spansFrom fuel pos n) :
    ∃ k < n, sp.filebno = (pos.toNat + k) / 4096 ∧ sp.off = BitVec.ofNat 32 ((pos.toNat + k) % 4096) ∧
      (pos.toNat + k) % 4096 + sp.len ≤ 4096 := by
  induction fuel generalizing pos n with
  | zero => cases h
  | succ fuel ih =>
    by_cases hz : n = 0
    · rw [spansFrom, if_pos hz] at h
      cases h
    · obtain ⟨len, hlen, hle, hfit, hnext, hspans⟩ := @spansFrom_cons pos n fuel hz hpos
      rw [hspans] at h
      rcases List.mem_cons.mp h with rfl | h
      · exact ⟨0, Nat.pos_of_ne_zero hz, rfl, rfl, hfit⟩
      · obtain ⟨k, hk, hb, hoff, hend⟩ := ih (by omega) h
        rw [hnext, Nat.add_assoc] at hb hoff hend
        exact ⟨len + k, by omega, hb, hoff, hend⟩

/-- What `file_read` reads before the end of the file. -/
theorem heldSpan_of_mem (hroom : offset.toNat + count.toNat < 2^31) (hend : ¬ (fSize m f).toInt ≤ offset.toInt)
    (hheld : ∀ k < count.toNat, offset.toNat + k < (fSize m f).toNat → (blockAt m f ((offset.toNat + k) / 4096)).isSome)
    (hsp : sp ∈ spansOf offset (if count ≤ fSize m f - offset then count else fSize m f - offset)) : HeldSpan m f sp := by
  have hoff : offset.toInt = (offset.toNat : ℤ) := BitVec.toInt_eq_toNat_of_lt (by omega)
  have hlt : offset.toNat < (fSize m f).toNat := by
    have hle : (fSize m f).toInt ≤ (fSize m f).toNat := by
      rw [BitVec.toInt_eq_toNat_cond]
      split <;> omega
    omega
  have hsub : (fSize m f - offset).toNat = (fSize m f).toNat - offset.toNat := by bv_omega
  -- no more than `count` bytes, and none behind the end of the file
  obtain ⟨len, hlen⟩ : ∃ len, len = if count ≤ fSize m f - offset then count else fSize m f - offset := ⟨_, rfl⟩
  have hfit : len.toNat ≤ count.toNat ∧ offset.toNat + len.toNat ≤ (fSize m f).toNat := by
    rw [hlen]
    split_ifs with hle
    · have hle' : count.toNat ≤ (fSize m f - offset).toNat := hle
      omega
    · have hle' : ¬ count.toNat ≤ (fSize m f - offset).toNat := hle
      omega
  rw [← hlen, spansOf_eq (by omega)] at hsp
  obtain ⟨k, hk, hb, hoff', hspan⟩ := mem_spansFrom (by omega) hsp
  obtain ⟨blk, hblk⟩ := Option.isSome_iff_exists.mp (hheld k (by omega) (by omega))
  exact ⟨blk, _, hb ▸ hblk, by omega, hoff', hspan⟩

end Spans

section Shown

variable {io : BlockIo} {depth b i n : ℕ} {m : ByteMem} {s : Fs} {f va blk slot count offset : Word} {α β : Type}
  {name : List (BitVec 8)} {sps : List Span} {buf bytes : List (BitVec 8)}

namespace Shows

theorem pure (a : α) : Shows m (pure a) a := fun c hc _ => ⟨c, rfl, hc, .refl c⟩

theorem bind {r : Routine Cache α} {k : α → Routine Cache β} {a : α} {b : β} (hr : Shows m r a)
    (hk : Shows m (k a) b) : Shows m (r >>= k) b := by
  intro c hc hm
  obtain ⟨c', hrun, hc', hread⟩ := hr c hc hm
  obtain ⟨c'', hrun', hc'', hread'⟩ := hk c' hc' (hread.view.trans hm)
  exact ⟨c'', (Routine.bind_ret hrun).trans hrun', hc'', hread.trans hread'⟩

theorem diskaddr (hb : b ≠ 0 ∧ b < nblocksIn m) : Shows m (cacheDiskaddr io depth b) (blockAddr b) := by
  rintro c hc rfl
  exact ⟨c, cacheDiskaddr_run hc hb.1 hb.2, hc, .refl c⟩

end Shows

variable (hio : ∀ b, io.alloc b = true ∧ io.transfer b = true) (hd : 3 ≤ depth)

include hio hd

namespace Shows

theorem readByte (hu : InUse m (blockOf va)) : Shows m (readByte io depth va) (m va) := by
  rintro c hc rfl
  exact readByte_run hio hd hc hu

/-- A word in one block. -/
theorem loadUint (hu : InUse m (blockOf va)) (hword : ∀ i < 4, blockOf (va + BitVec.ofNat 32 i) = blockOf va) :
    Shows m (loadUint (bcPgfault io depth) va) (loadWord m va) := by
  rintro c hc rfl
  obtain ⟨c', htouch, hc', hread, hmapped⟩ := touch_any hio hd hc hu
  refine ⟨c', ?_, hc', hread⟩
  unfold Sisop.loadUint
  rw [Routine.bind_ret htouch, ← hread.view, ← loadWord_view fun i hi => by rw [hword i hi]; exact hmapped]
  rfl

theorem readBytes (hu : ∀ i < n, InUse m (blockOf (va + BitVec.ofNat 32 i))) :
    Shows m (cacheReadBytes io depth va n) (readBytes m va n) := by
  induction n with
  | zero => exact .pure []
  | succ n ih =>
    have hlast : Sisop.readBytes m va (n + 1) = Sisop.readBytes m va n ++ [m (va + BitVec.ofNat 32 n)] := by
      unfold Sisop.readBytes
      rw [List.range_succ, List.map_append]
      rfl
    rw [hlast]
    exact (ih fun i hi => hu i (Nat.lt_succ_of_lt hi)).bind ((readByte hio hd (hu n (Nat.lt_succ_self n))).bind (.pure _))

end Shows

/-- The word of a slot is in one block, which is in use. -/
theorem slotAt_shown (hg : GoodSuper m) (hone : OneBlock f) (hu : UsedFile m f) (h : slotAt m f i = some slot) :
    Shows m (loadUint (bcPgfault io depth) slot) (loadWord m slot) := by
  unfold slotAt at h
  split_ifs at h with hi hind
  · obtain rfl := Option.some.inj h
    have hfield (k : ℕ) (hk : k < 4) : blockOf (fDirectAddr f i + BitVec.ofNat 32 k) = blockOf f := by
      unfold fDirectAddr
      rw [BitVec.add_assoc, ← BitVec.ofNat_add]
      change i < 10 at hi
      apply hone
      change 136 + 4 * i + k < 256
      omega
    have h0 := hfield 0 (by decide)
    rw [BitVec.add_zero] at h0
    exact .loadUint hio hd (h0 ▸ hu.home) fun k hk => (hfield k hk).trans h0.symm
  · obtain rfl := Option.some.inj h
    have hc : (fIndirect m f).toNat < diskBlocks := Nat.lt_of_lt_of_le hind.2.2 hg.size
    have hin : i < 10 + 1024 := hind.1
    change ¬ i < 10 at hi
    have hbyte (k : ℕ) (hk : k < 4) :
        blockOf (blockAddr (fIndirect m f).toNat + BitVec.ofNat 32 (i - ndirect) + BitVec.ofNat 32 k) = (fIndirect m f).toNat := by
      rw [BitVec.add_assoc, ← BitVec.ofNat_add]
      apply blockAddr_byte hc
      change i - 10 + k < 4096
      omega
    have h0 := hbyte 0 (by decide)
    rw [BitVec.add_zero] at h0
    refine .loadUint hio hd ?_ fun k hk => (hbyte k hk).trans h0.symm
    rw [h0]
    exact hu.indirect hind.2.1

theorem blockWalk_shown (hone : OneBlock f) (hu : UsedFile m f) (h : slotAt m f i = some slot) :
    Shows m (cacheBlockWalk io depth f i true) (.ok slot) := by
  unfold cacheBlockWalk
  unfold slotAt at h
  split_ifs at h with hi hind
  · obtain rfl := Option.some.inj h
    have hin : ¬ ndirect + nindirect ≤ i := fun hle => Nat.not_le.mpr hi (Nat.le_trans (Nat.le_add_right _ _) hle)
    rw [if_neg hin, if_pos hi]
    exact .pure _
  · obtain rfl := Option.some.inj h
    have hfield (k : ℕ) (hk : k < 4) : blockOf (fIndirectAddr f + BitVec.ofNat 32 k) = blockOf f := by
      unfold fIndirectAddr
      rw [BitVec.add_assoc, ← BitVec.ofNat_add]
      apply hone
      change 176 + k < 256
      omega
    have h0 := hfield 0 (by decide)
    rw [BitVec.add_zero] at h0
    have hload : Shows m (loadUint (bcPgfault io depth) (fIndirectAddr f)) (fIndirect m f) :=
      .loadUint hio hd (h0 ▸ hu.home) fun k hk => (hfield k hk).trans h0.symm
    have hne : (fIndirect m f).toNat ≠ 0 := fun hz => hind.2.1 (BitVec.eq_of_toNat_eq hz)
    rw [if_neg (Nat.not_le.mpr hind.1), if_neg hi]
    refine hload.bind ?_
    rw [if_pos hind.2.1]
    exact hload.bind ((Shows.diskaddr ⟨hne, hind.2.2⟩).bind (.pure _))

/-- A block that is there is found. -/
theorem getBlock_shown (hg : GoodSuper m) (hone : OneBlock f) (hu : UsedFile m f) (h : blockAt m f i = some blk) :
    Shows m (cacheGetBlock io depth f i) (.ok blk) := by
  unfold blockAt at h
  cases hslot : slotAt m f i with
  | none =>
    rw [hslot] at h
    cases h
  | some slot =>
    rw [hslot] at h
    dsimp only [bind, Option.bind] at h
    split_ifs at h with hb
    obtain rfl := Option.some.inj h
    have hload := slotAt_shown hio hd hg hone hu hslot
    have hne : (loadWord m slot).toNat ≠ 0 := fun hz => hb.1 (BitVec.eq_of_toNat_eq hz)
    refine (blockWalk_shown hio hd hone hu hslot).bind (hload.bind ?_)
    rw [if_pos hb.1]
    exact hload.bind ((Shows.diskaddr ⟨hne, hb.2⟩).bind (.pure _))

/-- The bytes that the server reads with `file_read` where the blocks are there. -/
theorem readSpans_shown (hg : GoodSuper s.mem) (hone : OneBlock f) (hu : UsedFile s.mem f)
    (hheld : ∀ sp ∈ sps, HeldSpan s.mem f sp) (hr : readSpans fileGetBlock f sps buf s = .ret (.ok bytes) s) :
    Shows s.mem (cacheReadSpans io depth f sps buf) (.ok bytes) := by
  induction sps generalizing buf with
  | nil =>
    obtain ⟨heq, -⟩ := Outcome.ret.inj hr
    obtain rfl := Except.ok.inj heq
    exact .pure _
  | cons sp sps ih =>
    obtain ⟨blk, o, hblk, hsize, hoff, hfit⟩ := hheld sp List.mem_cons_self
    obtain ⟨c, hc, rfl⟩ := blockAt_addr hg hblk
    unfold readSpans at hr
    rw [Routine.bind_ret (fileGetBlock_at hblk)] at hr
    have hused (i : ℕ) (hi : i < sp.len) : InUse s.mem (blockOf (blockAddr c + sp.off + BitVec.ofNat 32 i)) := by
      have hdata := hu.data _ hsize _ hblk
      rw [blockOf_blockAddr hc] at hdata
      rw [hoff, BitVec.add_assoc, ← BitVec.ofNat_add, blockAddr_byte hc (by omega)]
      exact hdata
    unfold cacheReadSpans
    refine (getBlock_shown hio hd hg hone hu hblk).bind ((Shows.readBytes hio hd hused).bind ?_)
    exact ih (fun sp hsp => hheld sp (List.mem_cons_of_mem _ hsp)) hr

theorem size_shown (hone : OneBlock f) (hu : UsedFile m f) :
    Shows m (loadUint (bcPgfault io depth) (fSizeAddr f)) (fSize m f) := by
  have hfield (k : ℕ) (hk : k < 4) : blockOf (fSizeAddr f + BitVec.ofNat 32 k) = blockOf f := by
    unfold fSizeAddr
    rw [BitVec.add_assoc, ← BitVec.ofNat_add]
    apply hone
    change 128 + k < 256
    omega
  have h0 := hfield 0 (by decide)
  rw [BitVec.add_zero] at h0
  exact .loadUint hio hd (h0 ▸ hu.home) fun k hk => (hfield k hk).trans h0.symm

/-- `file_read` with the page faults reads what it reads without them. -/
theorem fileRead_shown (hg : GoodSuper s.mem) (hone : OneBlock f) (hu : UsedFile s.mem f)
    (hroom : offset.toNat + count.toNat < 2^31)
    (hheld : ∀ k < count.toNat, offset.toNat + k < (fSize s.mem f).toNat →
      (blockAt s.mem f ((offset.toNat + k) / 4096)).isSome)
    (hr : fileRead fileGetBlock f count offset s = .ret (.ok bytes) s) :
    Shows s.mem (cacheFileRead io depth f count offset) (.ok bytes) := by
  unfold fileRead at hr
  rw [Routine.bind_ret (Routine.get_run s)] at hr
  unfold cacheFileRead
  refine (size_shown hio hd hone hu).bind ?_
  by_cases hend : (fSize s.mem f).toInt ≤ offset.toInt
  · rw [if_pos hend] at hr ⊢
    obtain ⟨heq, -⟩ := Outcome.ret.inj hr
    obtain rfl := Except.ok.inj heq
    exact .pure _
  · rw [if_neg hend] at hr ⊢
    exact readSpans_shown hio hd hg hone hu (fun sp hsp => heldSpan_of_mem hroom hend hheld hsp) hr

/-- `strcmp` within a block in use. -/
theorem nameIs_shown {c o : ℕ} (hc : c < diskBlocks) (hu : InUse m c) (hfit : o + name.length < 4096) :
    Shows m (cacheNameIs io depth (blockAddr c + BitVec.ofNat 32 o) name) (nameIs m (blockAddr c + BitVec.ofNat 32 o) name) := by
  induction name generalizing o with
  | nil =>
    have hblock : blockOf (blockAddr c + BitVec.ofNat 32 o) = c := blockAddr_byte hc hfit
    exact (Shows.readByte hio hd (hblock.symm ▸ hu)).bind (.pure _)
  | cons x name ih =>
    have hlen : o + 1 + name.length < 4096 := by
      rw [List.length_cons] at hfit
      omega
    have hblock : blockOf (blockAddr c + BitVec.ofNat 32 o) = c := blockAddr_byte hc (by omega)
    unfold cacheNameIs nameIs
    refine (Shows.readByte hio hd (hblock.symm ▸ hu)).bind ?_
    rw [BitVec.add_assoc, show BitVec.ofNat 32 o + 1#32 = BitVec.ofNat 32 (o + 1) from (BitVec.ofNat_add ..).symm]
    by_cases hx : m (blockAddr c + BitVec.ofNat 32 o) = x
    · rw [if_pos hx, decide_eq_true hx, Bool.true_and]
      exact ih hlen
    · rw [if_neg hx, decide_eq_false hx, Bool.false_and]
      exact .pure _

theorem findFile_shown {c j : ℕ} (hc : c < diskBlocks) (hu : InUse m c) (hname : name.length < maxnamelen)
    (hn : j + n ≤ blkfiles) : Shows m (cacheFindFile io depth (blockAddr c) name n j)
      (((List.range' j n).map (entryAddr (blockAddr c))).find? fun f => nameIs m f name) := by
  induction n generalizing j with
  | zero => exact .pure none
  | succ n ih =>
    change name.length < 128 at hname
    change j + (n + 1) ≤ 16 at hn
    have hsame : Shows m (cacheNameIs io depth (entryAddr (blockAddr c) j) name) (nameIs m (entryAddr (blockAddr c) j) name) :=
      nameIs_shown hio hd hc hu (by change 256 * j + name.length < 4096; omega)
    unfold cacheFindFile
    refine hsame.bind ?_
    rw [List.range'_succ, List.map_cons, List.find?_cons]
    cases nameIs m (entryAddr (blockAddr c) j) name with
    | true => exact .pure _
    | false => exact ih (by change j + 1 + n ≤ 16; omega)

theorem dirFind_shown (hg : GoodSuper m) (hone : OneBlock f) (hu : UsedFile m f) (hname : name.length < maxnamelen)
    (hblocks : ∀ j, i ≤ j → j < i + n → (blockAt m f j).isSome ∧ 4096 * j < (fSize m f).toNat) :
    Shows m (cacheDirFind io depth f name n i)
      (((filesFrom m f i n).find? fun e => nameIs m e name).elim (.error .notFound) .ok) := by
  induction n generalizing i with
  | zero => exact .pure _
  | succ n ih =>
    obtain ⟨hsome, hsize⟩ := hblocks i (Nat.le_refl i) (by omega)
    obtain ⟨blk, hblk⟩ := Option.isSome_iff_exists.mp hsome
    obtain ⟨c, hc, rfl⟩ := blockAt_addr hg hblk
    have hdata := hu.data i hsize _ hblk
    rw [blockOf_blockAddr hc] at hdata
    have hfiles : filesFrom m f i (n + 1) =
        (List.range' 0 blkfiles).map (entryAddr (blockAddr c)) ++ filesFrom m f (i + 1) n := by
      unfold filesFrom
      rw [List.range'_succ, List.flatMap_cons, hblk, List.range_eq_range']
      rfl
    unfold cacheDirFind
    refine (getBlock_shown hio hd hg hone hu hblk).bind ?_
    refine (findFile_shown hio hd hc hdata hname (Nat.le_of_eq (Nat.zero_add _))).bind ?_
    rw [hfiles, List.find?_append]
    cases ((List.range' 0 blkfiles).map (entryAddr (blockAddr c))).find? fun e => nameIs m e name with
    | some e => exact .pure _
    | none => exact ih fun j hj hlt => hblocks j (by omega) (by omega)

/-- `dir_lookup` with the page faults, in a directory all of whose blocks are there. -/
theorem dirLookup_shown (hg : GoodSuper m) (hone : OneBlock f) (hu : UsedFile m f) (hdir : DirOk m f)
    (hsize : (fSize m f).toNat < 2^31) (h0 : 0#8 ∉ name) (hname : name.length < maxnamelen) :
    Shows m (cacheDirLookup io depth f name) ((lookupIn m f name).elim (.error .notFound) .ok) := by
  have hlen : dirLength m f = (fSize m f).toNat / 4096 := sdiv_block hsize
  have hsame : (fun e => nameIs m e name) = fun e => decide (nameAt m e = name) := by
    funext e
    rw [Bool.eq_iff_iff, decide_eq_true_iff]
    exact nameIs_iff h0 hname
  have hfind := dirFind_shown (n := dirLength m f) (i := 0) hio hd hg hone hu hname fun j _ hj =>
    ⟨hdir.blocks j (by omega), by omega⟩
  rw [hsame] at hfind
  refine (size_shown hio hd hone hu).bind ?_
  intro c hc hm
  obtain ⟨c', hrun, hc', hread⟩ := hfind c hc hm
  refine ⟨c', ?_, hc', hread⟩
  rw [Routine.panicUnless_bind hdir.size]
  exact hrun

end Shown

end Sisop
