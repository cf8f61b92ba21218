import Sisop.BlockCache
import Sisop.Trace

/-! What the block cache shows at each address is what was last written there: a block
that is not in memory is as it is on the disk, and comes back so when it is read in. -/
namespace Sisop

section Addresses

variable {a va : Word} {b i : ℕ}

/-- The number of blocks that fit in the disk map, `DISKSIZE / BLKSIZE`. -/
abbrev diskBlocks : ℕ := 0xC0000

theorem blockAddr_toNat (hb : b < diskBlocks) : (blockAddr b).toNat = 0x10000000 + b * 4096 := by
  have hlt : b * 4096 < 2^32 - 0x10000000 := by
    change b < 0xC0000 at hb
    omega
  unfold blockAddr
  rw [BitVec.toNat_add, BitVec.toNat_ofNat]
  change (0x10000000 + b * 4096 % 2^32) % 2^32 = _
  omega

theorem blockOf_of_toNat {x : ℕ} (h : a.toNat = 0x10000000 + x) : blockOf a = x / 4096 := by
  have hx : a.toNat < 2^32 := a.isLt
  unfold blockOf
  rw [BitVec.toNat_sub]
  change (2^32 - 0x10000000 + a.toNat) % 2^32 / 4096 = _
  congr 1
  omega

theorem blockOf_blockAddr (hb : b < diskBlocks) : blockOf (blockAddr b) = b := by
  rw [blockOf_of_toNat (blockAddr_toNat hb)]
  omega

theorem blockAddr_byte {j : ℕ} (hb : b < diskBlocks) (hj : j < 4096) : blockOf (blockAddr b + BitVec.ofNat 32 j) = b := by
  have haddr := blockAddr_toNat hb
  change b < 0xC0000 at hb
  have hbyte : (blockAddr b + BitVec.ofNat 32 j).toNat = 0x10000000 + (b * 4096 + j) := by bv_omega
  rw [blockOf_of_toNat hbyte]
  omega

theorem inDiskmap_iff : InDiskmap va ↔ blockOf va < diskBlocks := by
  have hva : va.toNat < 2^32 := va.isLt
  unfold InDiskmap blockOf
  rw [BitVec.le_def, BitVec.lt_def, BitVec.toNat_sub]
  change 0x10000000 ≤ va.toNat ∧ va.toNat < 0xD0000000 ↔
    (2^32 - 0x10000000 + va.toNat) % 2^32 / 4096 < 0xC0000
  omega

theorem blockOf_rounddown (va : Word) : blockOf (rounddown va) = blockOf va := by
  have hva : va.toNat < 2^32 := va.isLt
  unfold blockOf
  rw [BitVec.toNat_sub, BitVec.toNat_sub, rounddown_toNat]
  change (2^32 - 0x10000000 + _) % 2^32 / 4096 = (2^32 - 0x10000000 + _) % 2^32 / 4096
  omega

theorem nblocksAddr_toNat (hi : i < 4) : (nblocksAddr + BitVec.ofNat 32 i).toNat = 0x10000000 + (4096 + 4 + i) := by
  have h : nblocksAddr.toNat = 0x10000000 + (4096 + 4) := by decide
  bv_omega

theorem blockOf_nblocksAddr (hi : i < 4) : blockOf (nblocksAddr + BitVec.ofNat 32 i) = 1 := by
  rw [blockOf_of_toNat (nblocksAddr_toNat hi)]
  omega

theorem bitmapAddr_toNat (hb : b < 2^32) (hi : i < 4) :
    (bitmapAddr b + BitVec.ofNat 32 i).toNat = 0x10000000 + (2 * 4096 + 4 * (b / 32) + i) := by
  have h : (blockAddr 2).toNat = 0x10000000 + 2 * 4096 := by decide
  have hx : 4 * (b / 32) < 0x20000000 := by omega
  unfold bitmapAddr
  bv_omega

/-- The bitmap block that tells of a block. -/
theorem blockOf_bitmapAddr (hb : b < 2^32) (hi : i < 4) :
    blockOf (bitmapAddr b + BitVec.ofNat 32 i) = 2 + b / blkbitsize := by
  rw [blockOf_of_toNat (bitmapAddr_toNat hb hi)]
  change _ = 2 + b / 32768
  omega

end Addresses

/-- What the server sees at an address of the disk map. -/
def Cache.view (c : Cache) : ByteMem := fun a => if c.mapped (blockOf a) then c.page a else c.disk a

/-- `super->s_nblocks`. -/
def nblocksIn (m : ByteMem) : ℕ := (loadWord m nblocksAddr).toNat

/-- The bit of a block in the bitmap, set when the block is free. -/
def freeBit (m : ByteMem) (b : ℕ) : Bool := loadWord m (bitmapAddr b) &&& (1#32 <<< (b % 32)) ≠ 0#32

/-- A block in use. -/
def InUse (m : ByteMem) (b : ℕ) : Prop := 1 ≤ b ∧ b < nblocksIn m ∧ freeBit m b = false

/-- What `check_super` and `check_bitmap` check, and that the bitmap is on the disk. -/
structure GoodSuper (m : ByteMem) : Prop where
  size : nblocksIn m ≤ diskBlocks
  superBlock : InUse m 1
  bitmapBlock : ∀ i, i * blkbitsize < nblocksIn m → InUse m (2 + i)

/-- The server is up, and no page of the cache has anything that it should not have. -/
structure CacheOk (c : Cache) : Prop where
  super : c.super = true
  bitmap : c.bitmap = true
  resident : c.mapped 1 = true
  dirty : ∀ b, c.dirty b = true → c.mapped b = true
  clean : ∀ a, c.mapped (blockOf a) = true → c.dirty (blockOf a) = false → c.page a = c.disk a
  good : GoodSuper c.view

/-- Blocks have been read in since the state `c`. -/
structure ReadIn (c c' : Cache) : Prop where
  disk : c'.disk = c.disk
  dirty : c'.dirty = c.dirty
  view : c'.view = c.view
  mapped : ∀ b, c.mapped b = true → c'.mapped b = true

section Faults

variable {io : BlockIo} {c c' c'' : Cache} {a va : Word} {b depth : ℕ} {m m' : ByteMem}

theorem ReadIn.refl (c : Cache) : ReadIn c c := ⟨rfl, rfl, rfl, fun _ h => h⟩

theorem ReadIn.trans (h : ReadIn c c') (h' : ReadIn c' c'') : ReadIn c c'' :=
  ⟨h'.disk.trans h.disk, h'.dirty.trans h.dirty, h'.view.trans h.view, fun b hb => h'.mapped b (h.mapped b hb)⟩

/-- A word in one block is as the server sees it, when the block is mapped. -/
theorem loadWord_view (h : ∀ i < 4, c.mapped (blockOf (a + BitVec.ofNat 32 i)) = true) :
    loadWord c.page a = loadWord c.view a := by
  apply loadWord_congr
  intro i hi
  unfold Cache.view
  rw [if_pos (h i hi)]

theorem blockOf_nblocks : blockOf nblocksAddr = 1 := by decide

theorem blockOf_bitmap (hb : b < 2^32) : blockOf (bitmapAddr b) = 2 + b / blkbitsize := by
  have h := blockOf_bitmapAddr hb (i := 0) (by decide)
  rwa [BitVec.add_zero] at h

theorem touch_of_mapped {fault : Word → Routine Cache Unit} (h : c.mapped (blockOf va) = true) :
    touch fault va c = .ret () c := by
  change (if c.mapped (blockOf va) = true then pure () else fault va : Routine Cache Unit) c = _
  rw [if_pos h]
  rfl

theorem touch_of_not_mapped {fault : Word → Routine Cache Unit} (h : c.mapped (blockOf va) = false) :
    touch fault va c = fault va c := by
  change (if c.mapped (blockOf va) = true then pure () else fault va : Routine Cache Unit) c = _
  rw [if_neg (Bool.eq_false_iff.mp h)]

theorem loadUint_nblocks (h1 : c.mapped 1 = true) {fault : Word → Routine Cache Unit} :
    loadUint fault nblocksAddr c = .ret (loadWord c.view nblocksAddr) c := by
  unfold loadUint
  rw [Routine.bind_ret (touch_of_mapped (blockOf_nblocks ▸ h1))]
  have hview : loadWord c.page nblocksAddr = loadWord c.view nblocksAddr := by
    apply loadWord_view
    intro i hi
    rw [blockOf_nblocksAddr hi]
    exact h1
  change Outcome.ret (loadWord c.page nblocksAddr) c = _
  rw [hview]

/-- The first part of a page fault: the page is filled from the disk. -/
def Cache.readIn (b : ℕ) (c : Cache) : Cache := ((c.pageAlloc b).ideRead b).clean b

theorem readIn_dirty (h : c.dirty b = false) : (c.readIn b).dirty = c.dirty := by
  unfold Cache.readIn Cache.clean Cache.ideRead Cache.pageAlloc
  funext b'
  simp only [Function.update_idem, Function.update_apply]
  split_ifs with hb
  · rw [hb, h]
  · rfl

theorem readIn_mapped (b' : ℕ) : (c.readIn b).mapped b' = if b' = b then true else c.mapped b' := by
  change Function.update c.mapped b true b' = _
  rw [Function.update_apply]

theorem readIn_page (a : Word) : (c.readIn b).page a = if blockOf a = b then c.disk a else c.page a := by
  change (if blockOf a = b then c.disk a else if blockOf a = b then 0#8 else c.page a) = _
  split_ifs <;> rfl

theorem readIn_view (h : c.mapped b = false) : (c.readIn b).view = c.view := by
  funext a
  unfold Cache.view
  rw [readIn_mapped, readIn_page]
  by_cases hb : blockOf a = b
  · rw [if_pos hb, if_pos rfl, if_pos hb, hb, h]
    rfl
  · rw [if_neg hb, if_neg hb]
    rfl

theorem CacheOk.notDirty (hc : CacheOk c) (h : c.mapped b = false) : c.dirty b = false := by
  by_contra hd
  rw [hc.dirty b (Bool.eq_true_of_not_eq_false hd)] at h
  cases h

theorem CacheOk.readIn (hc : CacheOk c) (h : c.mapped b = false) :
    CacheOk (c.readIn b) ∧ ReadIn c (c.readIn b) := by
  have hdirty := readIn_dirty (hc.notDirty h)
  have hview := readIn_view h
  have hmono (b' : ℕ) (hb : c.mapped b' = true) : (c.readIn b).mapped b' = true := by
    rw [readIn_mapped, hb, ite_self]
  refine ⟨⟨hc.super, hc.bitmap, hmono 1 hc.resident, fun b' hb => ?_, fun a ha hb => ?_, ?_⟩,
    rfl, hdirty, hview, hmono⟩
  · rw [hdirty] at hb
    exact hmono b' (hc.dirty b' hb)
  · rw [hdirty] at hb
    rw [readIn_mapped] at ha
    rw [readIn_page]
    change _ = c.disk a
    split_ifs at ha ⊢
    · rfl
    · exact hc.clean a ha hb
  · rw [hview]
    exact hc.good

/-- A fault on the block is handled. -/
def HandlesFault (fault : Word → Routine Cache Unit) (b : ℕ) : Prop :=
  ∀ c va, blockOf va = b → CacheOk c → InUse c.view b → c.mapped b = false →
    ∃ c', fault va c = .ret () c' ∧ CacheOk c' ∧ ReadIn c c' ∧ c'.mapped b = true

theorem touch_run {fault : Word → Routine Cache Unit} (hc : CacheOk c) (hu : InUse c.view (blockOf va))
    (hf : c.mapped (blockOf va) = true ∨ HandlesFault fault (blockOf va)) :
    ∃ c', touch fault va c = .ret () c' ∧ CacheOk c' ∧ ReadIn c c' ∧ c'.mapped (blockOf va) = true := by
  by_cases hm : c.mapped (blockOf va) = true
  · exact ⟨c, touch_of_mapped hm, hc, ReadIn.refl c, hm⟩
  · rw [touch_of_not_mapped (Bool.eq_false_of_not_eq_true hm)]
    exact (hf.resolve_left hm) c va rfl hc hu (Bool.eq_false_of_not_eq_true hm)

/-- A block that the file system has is told of by a bitmap block in use. -/
theorem GoodSuper.bitmap (h : GoodSuper m) (hb : b < nblocksIn m) : InUse m (2 + b / blkbitsize) := by
  apply h.bitmapBlock
  exact Nat.lt_of_le_of_lt (Nat.div_mul_le_self b blkbitsize) hb

theorem blockIsFree_eq {fault : Word → Routine Cache Unit} (hs : c.super = true) (h1 : c.mapped 1 = true)
    (hb : b < nblocksIn c.view) : blockIsFree fault b c =
      (loadUint fault (bitmapAddr b) >>= fun w => pure (decide (w &&& (1#32 <<< (b % 32)) ≠ 0#32))) c := by
  have hn : ¬ (loadWord c.view nblocksAddr).toNat ≤ b := Nat.not_le_of_lt hb
  unfold blockIsFree
  change (if ¬ c.super = true then pure false else _ : Routine Cache Bool) c = _
  rw [if_neg (not_not_intro hs), Routine.bind_ret (loadUint_nblocks h1), if_neg hn]

theorem blockIsFree_run {fault : Word → Routine Cache Unit} (hc : CacheOk c) (hb : b < nblocksIn c.view)
    (hf : c.mapped (2 + b / blkbitsize) = true ∨ HandlesFault fault (2 + b / blkbitsize)) :
    ∃ c', blockIsFree fault b c = .ret (freeBit c.view b) c' ∧ CacheOk c' ∧ ReadIn c c' ∧
      ∀ b', c.mapped b' = true → c'.mapped b' = true := by
  have hlt : b < 2^32 := Nat.lt_trans hb (loadWord c.view nblocksAddr).isLt
  rw [← blockOf_bitmap hlt] at hf
  have hu : InUse c.view (blockOf (bitmapAddr b)) := by
    rw [blockOf_bitmap hlt]
    exact hc.good.bitmap hb
  obtain ⟨c', htouch, hc', hr, hm⟩ := touch_run hc hu hf
  refine ⟨c', ?_, hc', hr, hr.mapped⟩
  have hword : loadWord c'.page (bitmapAddr b) = loadWord c.view (bitmapAddr b) := by
    rw [← hr.view]
    apply loadWord_view
    intro i hi
    rw [blockOf_bitmapAddr hlt hi, ← blockOf_bitmap hlt]
    exact hm
  have hload : loadUint fault (bitmapAddr b) c = .ret (loadWord c.view (bitmapAddr b)) c' := by
    unfold loadUint
    rw [Routine.bind_ret htouch, ← hword]
    rfl
  rw [blockIsFree_eq hc.super hc.resident hb, Routine.bind_ret hload]
  rfl

theorem superCheck_run {fault : Word → Routine Cache Unit} (hs : c.super = true) (h1 : c.mapped 1 = true)
    (hb : b < nblocksIn c.view) : superCheck fault b c = .ret () c := by
  unfold superCheck
  change (if ¬ c.super = true then pure () else _ : Routine Cache Unit) c = _
  rw [if_neg (not_not_intro hs), Routine.bind_ret (loadUint_nblocks h1)]
  exact Routine.panicUnless_run hb c

/-- A page fault on a block that the file system has. -/
theorem bcPgfault_readIn (hio : ∀ b, io.alloc b = true ∧ io.transfer b = true) (hin : InDiskmap va)
    (hs : c.super = true) (h1 : c.mapped 1 = true) (hb : blockOf va < nblocksIn c.view) :
    bcPgfault io (depth + 1) va c =
      bitmapCheck (bcPgfault io depth) (blockOf va) (c.readIn (blockOf va)) := by
  unfold bcPgfault
  rw [Routine.panicUnless_bind hin, Routine.bind_ret (superCheck_run hs h1 hb),
    Routine.panicUnless_bind (hio _).1, Routine.modify_bind_run, Routine.panicUnless_bind (hio _).2,
    Routine.modify_bind_run, Routine.modify_bind_run]
  rfl

/-- The page fault handler reads in a block in use, if it can read the bitmap. -/
theorem handlesFault_succ (hio : ∀ b, io.alloc b = true ∧ io.transfer b = true)
    (hf : b = 2 + b / blkbitsize ∨ HandlesFault (bcPgfault io depth) (2 + b / blkbitsize)) :
    HandlesFault (bcPgfault io (depth + 1)) b := by
  rintro c va rfl hc hu hm
  obtain ⟨hok, hread⟩ := hc.readIn hm
  have hin : InDiskmap va := inDiskmap_iff.mpr (Nat.lt_of_lt_of_le hu.2.1 hc.good.size)
  have hmapped : (c.readIn (blockOf va)).mapped (blockOf va) = true := by
    rw [readIn_mapped, if_pos rfl]
  have hlt : blockOf va < nblocksIn (c.readIn (blockOf va)).view := by
    rw [hread.view]
    exact hu.2.1
  have hf' : (c.readIn (blockOf va)).mapped (2 + blockOf va / blkbitsize) = true ∨
      HandlesFault (bcPgfault io depth) (2 + blockOf va / blkbitsize) := by
    rcases hf with heq | hf
    · rw [← heq]
      exact Or.inl hmapped
    · exact Or.inr hf
  obtain ⟨c', hfree, hc', hr, -⟩ := blockIsFree_run hok hlt hf'
  refine ⟨c', ?_, hc', hread.trans hr, hr.mapped _ hmapped⟩
  rw [hread.view, hu.2.2] at hfree
  have hbitmap : bitmapCheck (bcPgfault io depth) (blockOf va) (c.readIn (blockOf va)) = .ret () c' := by
    unfold bitmapCheck
    change (if ¬ (c.readIn (blockOf va)).bitmap = true then pure () else _ : Routine Cache Unit) _ = _
    rw [if_neg (not_not_intro hok.bitmap), Routine.bind_ret hfree]
    rfl
  rw [bcPgfault_readIn hio hin hc.super hc.resident hu.2.1]
  exact hbitmap

/-- Three faults, one inside another, are enough: for a block, for the bitmap block that
tells of it, and for block 2, which tells of the bitmap blocks. -/
theorem handlesFault (hio : ∀ b, io.alloc b = true ∧ io.transfer b = true) (hd : 3 ≤ depth)
    (hb : b < diskBlocks) : HandlesFault (bcPgfault io depth) b := by
  obtain ⟨k, rfl⟩ : ∃ k, depth = k + 3 := ⟨depth - 3, by omega⟩
  have h₁ : HandlesFault (bcPgfault io (k + 1)) 2 := handlesFault_succ hio (Or.inl rfl)
  have h₂ : HandlesFault (bcPgfault io (k + 2)) (2 + b / blkbitsize) := by
    have h2 : 2 + (2 + b / blkbitsize) / blkbitsize = 2 := by
      change b < 0xC0000 at hb
      change 2 + (2 + b / 32768) / 32768 = 2
      omega
    apply handlesFault_succ hio
    rw [h2]
    exact Or.inr h₁
  exact handlesFault_succ hio (Or.inr h₂)

theorem touch_any (hio : ∀ b, io.alloc b = true ∧ io.transfer b = true) (hd : 3 ≤ depth) (hc : CacheOk c)
    (hu : InUse c.view (blockOf va)) : ∃ c', touch (bcPgfault io depth) va c = .ret () c' ∧ CacheOk c' ∧
      ReadIn c c' ∧ c'.mapped (blockOf va) = true :=
  touch_run hc hu (Or.inr (handlesFault hio hd (Nat.lt_of_lt_of_le hu.2.1 hc.good.size)))

theorem readByte_run (hio : ∀ b, io.alloc b = true ∧ io.transfer b = true) (hd : 3 ≤ depth) (hc : CacheOk c)
    (hu : InUse c.view (blockOf va)) :
    ∃ c', readByte io depth va c = .ret (c.view va) c' ∧ CacheOk c' ∧ ReadIn c c' := by
  obtain ⟨c', htouch, hc', hr, hm⟩ := touch_any hio hd hc hu
  refine ⟨c', ?_, hc', hr⟩
  unfold readByte
  rw [Routine.bind_ret htouch, ← hr.view]
  unfold Cache.view
  rw [if_pos hm]
  rfl

theorem store_view (h : c.mapped (blockOf va) = true) (v : BitVec 8) :
    (c.store va v).view = Function.update c.view va v := by
  funext a
  rw [Function.update_apply]
  change (if c.mapped (blockOf a) = true then Function.update c.page va v a else c.disk a) =
    if a = va then v else if c.mapped (blockOf a) = true then c.page a else c.disk a
  rw [Function.update_apply]
  by_cases ha : a = va
  · rw [if_pos ha, ha, if_pos h, if_pos rfl]
  · rw [if_neg ha, if_neg ha]

theorem CacheOk.store (hc : CacheOk c) (h : c.mapped (blockOf va) = true) {v : BitVec 8}
    (hg : GoodSuper (Function.update c.view va v)) : CacheOk (c.store va v) := by
  have hdirty (b : ℕ) : (c.store va v).dirty b = if b = blockOf va then true else c.dirty b :=
    Function.update_apply ..
  refine ⟨hc.super, hc.bitmap, hc.resident, fun b hb => ?_, fun a ha hb => ?_, ?_⟩
  · rw [hdirty] at hb
    split_ifs at hb with hv
    · rw [hv]
      exact h
    · exact hc.dirty b hb
  · rw [hdirty] at hb
    split_ifs at hb with hv
    change Function.update c.page va v a = c.disk a
    rw [Function.update_of_ne]
    · exact hc.clean a ha hb
    · rintro rfl
      exact hv rfl
  · rw [store_view h]
    exact hg

theorem writeByte_run (hio : ∀ b, io.alloc b = true ∧ io.transfer b = true) (hd : 3 ≤ depth) (hc : CacheOk c)
    (hu : InUse c.view (blockOf va)) {v : BitVec 8} (hg : GoodSuper (Function.update c.view va v)) :
    ∃ c', writeByte io depth va v c = .ret () c' ∧ CacheOk c' ∧ c'.disk = c.disk ∧
      c'.view = Function.update c.view va v ∧ c'.dirty = Function.update c.dirty (blockOf va) true := by
  obtain ⟨c', htouch, hc', hr, hm⟩ := touch_any hio hd hc hu
  refine ⟨c'.store va v, ?_, hc'.store hm (by rw [hr.view]; exact hg), hr.disk, ?_, ?_⟩
  · unfold writeByte
    rw [Routine.bind_ret htouch]
    rfl
  · rw [store_view hm, hr.view]
  · change Function.update c'.dirty (blockOf va) true = _
    rw [hr.dirty]

/-- What a flush of a block does to the disk. -/
structure Flushed (b : ℕ) (c c' : Cache) : Prop where
  view : c'.view = c.view
  disk : ∀ a, c'.disk a = if blockOf a = b then c.view a else c.disk a
  dirty : ∀ b', c'.dirty b' = if b' = b then false else c.dirty b'

/-- A block that need not be written is on the disk as it is. -/
theorem CacheOk.flushed_self (hc : CacheOk c) (h : ¬ (c.mapped b = true ∧ c.dirty b = true)) :
    Flushed b c c := by
  have hd : c.dirty b = false := by
    by_contra hd
    have hd' := Bool.eq_true_of_not_eq_false hd
    exact h ⟨hc.dirty b hd', hd'⟩
  refine ⟨rfl, fun a => ?_, fun b' => ?_⟩
  · split_ifs with hb
    · unfold Cache.view
      split_ifs with hm
      · exact (hc.clean a hm (hb ▸ hd)).symm
      · rfl
    · rfl
  · split_ifs with hb
    · rw [hb, hd]
    · rfl

theorem CacheOk.write_back (hc : CacheOk c) (hm : c.mapped b = true) :
    CacheOk ((c.ideWrite b).clean b) ∧ Flushed b c ((c.ideWrite b).clean b) := by
  have hdisk (a : Word) : ((c.ideWrite b).clean b).disk a = if blockOf a = b then c.view a else c.disk a := by
    change (if blockOf a = b then c.page a else c.disk a) = _
    split_ifs with ha
    · unfold Cache.view
      rw [ha, if_pos hm]
    · rfl
  have hdirty (b' : ℕ) : ((c.ideWrite b).clean b).dirty b' = if b' = b then false else c.dirty b' :=
    Function.update_apply ..
  have hview : ((c.ideWrite b).clean b).view = c.view := by
    funext a
    unfold Cache.view
    change (if c.mapped (blockOf a) = true then c.page a else ((c.ideWrite b).clean b).disk a) = _
    rw [hdisk]
    by_cases ha : c.mapped (blockOf a) = true
    · rw [if_pos ha, if_pos ha]
    · rw [if_neg ha, if_neg ha, if_neg]
      rintro rfl
      exact ha hm
  refine ⟨⟨hc.super, hc.bitmap, hc.resident, fun b' hb => ?_, fun a ha hb => ?_, ?_⟩, hview, hdisk, hdirty⟩
  · rw [hdirty] at hb
    split_ifs at hb
    exact hc.dirty b' hb
  · rw [hdirty] at hb
    rw [hdisk]
    change c.page a = _
    have ha' : c.mapped (blockOf a) = true := ha
    split_ifs at hb ⊢
    · unfold Cache.view
      rw [if_pos ha']
    · exact hc.clean a ha' hb
  · rw [hview]
    exact hc.good

theorem cacheFlushBlock_run (hio : ∀ b, io.alloc b = true ∧ io.transfer b = true) (hc : CacheOk c)
    (hb : blockOf va < diskBlocks) :
    ∃ c', cacheFlushBlock io va c = .ret () c' ∧ CacheOk c' ∧ Flushed (blockOf va) c c' := by
  have hin : InDiskmap (rounddown va) := by
    rw [inDiskmap_iff, blockOf_rounddown]
    exact hb
  unfold cacheFlushBlock
  rw [Routine.panicUnless_bind hin]
  change ∃ c', (if ¬ c.mapped (blockOf va) = true ∨ ¬ c.dirty (blockOf va) = true then pure () else _ :
    Routine Cache Unit) c = .ret () c' ∧ _
  by_cases h : c.mapped (blockOf va) = true ∧ c.dirty (blockOf va) = true
  · rw [if_neg (by rw [not_or, not_not, not_not]; exact h), Routine.panicUnless_bind (hio _).2]
    exact ⟨_, rfl, hc.write_back h.1⟩
  · rw [if_pos (not_and_or.mp h)]
    exact ⟨c, rfl, hc, hc.flushed_self h⟩

theorem CacheOk.unmap (hc : CacheOk c) (hd : c.dirty b = false) (h1 : b ≠ 1) :
    CacheOk (c.unmap b) ∧ (c.unmap b).view = c.view := by
  have hmapped (b' : ℕ) : (c.unmap b).mapped b' = if b' = b then false else c.mapped b' :=
    Function.update_apply ..
  have hdirty (b' : ℕ) : (c.unmap b).dirty b' = if b' = b then false else c.dirty b' :=
    Function.update_apply ..
  have hview : (c.unmap b).view = c.view := by
    funext a
    unfold Cache.view
    rw [hmapped]
    change (if _ then c.page a else c.disk a) = _
    by_cases ha : blockOf a = b
    · rw [if_pos ha, if_neg Bool.false_ne_true]
      split_ifs with hm
      · exact (hc.clean a hm (ha ▸ hd)).symm
      · rfl
    · rw [if_neg ha]
  refine ⟨⟨hc.super, hc.bitmap, ?_, fun b' hb => ?_, fun a ha hb => ?_, ?_⟩, hview⟩
  · rw [hmapped, if_neg h1.symm]
    exact hc.resident
  · rw [hdirty] at hb
    rw [hmapped]
    split_ifs at hb ⊢
    exact hc.dirty b' hb
  · rw [hdirty] at hb
    rw [hmapped] at ha
    split_ifs at ha hb
    exact hc.clean a ha hb
  · rw [hview]
    exact hc.good

theorem cacheDiskaddr_run (hc : CacheOk c) (h0 : b ≠ 0) (hb : b < nblocksIn c.view) :
    cacheDiskaddr io depth b c = .ret (blockAddr b) c := by
  unfold cacheDiskaddr
  rw [Routine.panicUnless_bind h0, Routine.bind_ret (superCheck_run hc.super hc.resident hb)]
  rfl

/-- The blocks from 1 to `n` have been flushed. -/
structure FlushedTo (n : ℕ) (c c' : Cache) : Prop where
  ok : CacheOk c'
  view : c'.view = c.view
  disk : ∀ a, c'.disk a = if 1 ≤ blockOf a ∧ blockOf a ≤ n then c.view a else c.disk a
  dirty : ∀ b, c'.dirty b = if 1 ≤ b ∧ b ≤ n then false else c.dirty b

theorem FlushedTo.zero (hc : CacheOk c) : FlushedTo 0 c c := by
  refine ⟨hc, rfl, fun a => ?_, fun b => ?_⟩
  · rw [if_neg (by omega)]
  · rw [if_neg (by omega)]

theorem FlushedTo.succ {n : ℕ} (h : FlushedTo n c c') (hc : CacheOk c'') (hf : Flushed (n + 1) c' c'') :
    FlushedTo (n + 1) c c'' := by
  refine ⟨hc, hf.view.trans h.view, fun a => ?_, fun b => ?_⟩
  · rw [hf.disk, h.view, h.disk]
    by_cases ha : blockOf a = n + 1
    · rw [if_pos ha, if_pos (by omega)]
    · rw [if_neg ha]
      by_cases hle : 1 ≤ blockOf a ∧ blockOf a ≤ n
      · rw [if_pos hle, if_pos (by omega)]
      · rw [if_neg hle, if_neg (by omega)]
  · rw [hf.dirty, h.dirty]
    by_cases hb : b = n + 1
    · rw [if_pos hb, if_pos (by omega)]
    · rw [if_neg hb]
      by_cases hle : 1 ≤ b ∧ b ≤ n
      · rw [if_pos hle, if_pos (by omega)]
      · rw [if_neg hle, if_neg (by omega)]

theorem cacheSync_run (hio : ∀ b, io.alloc b = true ∧ io.transfer b = true) (hc : CacheOk c) :
    ∃ c', cacheSync io depth c = .ret () c' ∧ FlushedTo (nblocksIn c.view - 1) c c' := by
  unfold cacheSync
  rw [Routine.bind_ret (loadUint_nblocks hc.resident)]
  apply Routine.loop_total (fun i => FlushedTo i c) _ (FlushedTo.zero hc)
  intro i t hi ht
  have hlt : i + 1 < nblocksIn c.view := Nat.add_lt_of_lt_sub hi
  have hblock : i + 1 < diskBlocks := Nat.lt_of_lt_of_le hlt hc.good.size
  have haddr : cacheDiskaddr io depth (i + 1) t = .ret (blockAddr (i + 1)) t :=
    cacheDiskaddr_run ht.ok (Nat.succ_ne_zero i) (by rw [ht.view]; exact hlt)
  obtain ⟨t', hflush, hok, hf⟩ := cacheFlushBlock_run hio ht.ok
    (by rw [blockOf_blockAddr hblock]; exact hblock : blockOf (blockAddr (i + 1)) < diskBlocks)
  rw [blockOf_blockAddr hblock] at hf
  refine ⟨t', ?_, ht.succ hok hf⟩
  rw [Routine.bind_ret haddr]
  exact hflush

end Faults

/-- What is done with the block cache. -/
inductive CacheOp where
  | read (va : Word)
  | write (va : Word) (v : BitVec 8)
  | flush (va : Word)
  | sync
  | unmap (b : ℕ)

/-- The operation, with the byte that it reads. -/
def CacheOp.run (io : BlockIo) (depth : ℕ) : CacheOp → Routine Cache (Option (BitVec 8))
  | .read va => do
    let v ← readByte io depth va
    return some v
  | .write va v => do
    writeByte io depth va v
    return none
  | .flush va => do
    cacheFlushBlock io va
    return none
  | .sync => do
    cacheSync io depth
    return none
  | .unmap b => do
    Routine.modify (Cache.unmap b)
    return none

/-- The operation is on a block in use, or unmaps a page that is clean. -/
def CacheOp.InRange (c : Cache) : CacheOp → Prop
  | .read va | .write va _ | .flush va => InUse c.view (blockOf va)
  | .sync => True
  | .unmap b => c.dirty b = false

/-- The operation leaves the super block in memory, and what it and the bitmap say in order. -/
def CacheOp.KeepsSuper (m : ByteMem) : CacheOp → Prop
  | .write va v => GoodSuper (Function.update m va v)
  | .unmap b => b ≠ 1
  | _ => True

/-- The bytes that were last written, over those of the disk at first. -/
def written (disk : ByteMem) : List CacheOp → ByteMem
  | [] => disk
  | .write va v :: ops => written (Function.update disk va v) ops
  | _ :: ops => written disk ops

/-- What is to be of an operation when the server sees `m`. -/
def CacheOp.Coherent (m : ByteMem) (r : Option (BitVec 8)) (c' : Cache) : CacheOp → Prop
  | .read va => r = some (m va)
  | .flush va => (∀ a, blockOf a = blockOf va → c'.disk a = m a) ∧ c'.dirty (blockOf va) = false
  | .sync => ∀ b, 1 ≤ b → b < nblocksIn m → (∀ a, blockOf a = b → c'.disk a = m a) ∧ c'.dirty b = false
  | _ => True

/-- The operation flushes the block. -/
def CacheOp.Flushes (m : ByteMem) (b : ℕ) : CacheOp → Prop
  | .flush va => blockOf va = b
  | .sync => 1 ≤ b ∧ b < nblocksIn m
  | _ => False

/-- The server has come up: what is in memory is as it is on the disk. -/
structure CacheStart (c : Cache) : Prop where
  super : c.super = true
  bitmap : c.bitmap = true
  resident : c.mapped 1 = true
  dirty : ∀ b, c.dirty b = false
  page : ∀ a, c.mapped (blockOf a) = true → c.page a = c.disk a
  good : GoodSuper c.disk

/-- An operation that the cache is made for, with the byte that it reads. -/
structure CacheStep (io : BlockIo) (depth : ℕ) (c : Cache) (x : CacheOp × Option (BitVec 8)) (c' : Cache) :
    Prop where
  range : x.1.InRange c
  run : x.1.run io depth c = .ret x.2 c'

/-- An operation that leaves the super block and the bitmap in order. -/
structure CacheSafeStep (io : BlockIo) (depth : ℕ) (c : Cache) (x : CacheOp × Option (BitVec 8)) (c' : Cache) :
    Prop extends CacheStep io depth c x c' where
  keeps : x.1.KeepsSuper c.view

section Coherence

variable {io : BlockIo} {depth : ℕ} {c c₀ c' : Cache} {op : CacheOp} {ops : List CacheOp} {m : ByteMem}
  {r : Option (BitVec 8)}

theorem written_snoc (disk : ByteMem) (ops : List CacheOp) (op : CacheOp) :
    written disk (ops ++ [op]) = written (written disk ops) [op] := by
  induction ops generalizing disk with
  | nil => rfl
  | cons o ops ih =>
    cases o with
    | write va v => exact ih _
    | read | flush | sync | unmap => exact ih _

theorem CacheStart.ok (h : CacheStart c) : CacheOk c ∧ c.view = c.disk := by
  have hview : c.view = c.disk := by
    funext a
    unfold Cache.view
    split_ifs with hm
    · exact h.page a hm
    · rfl
  refine ⟨⟨h.super, h.bitmap, h.resident, fun b hb => ?_, fun a ha _ => h.page a ha, ?_⟩, hview⟩
  · rw [h.dirty] at hb
    cases hb
  · rw [hview]
    exact h.good

/-- A flush writes what the server sees, and only where it was changed. -/
theorem CacheOk.disk_changed (hc : CacheOk c) {a : Word} (h : c.view a ≠ c.disk a) :
    c.mapped (blockOf a) = true ∧ c.dirty (blockOf a) = true := by
  unfold Cache.view at h
  split_ifs at h with hm
  · refine ⟨hm, ?_⟩
    by_contra hd
    exact h (hc.clean a hm (Bool.eq_false_of_not_eq_true hd))
  · exact absurd rfl h

/-- One operation on the cache. -/
theorem CacheOp.run_ok (hio : ∀ b, io.alloc b = true ∧ io.transfer b = true) (hd : 3 ≤ depth)
    (hc : CacheOk c) (hrange : op.InRange c) (hkeep : op.KeepsSuper c.view) :
    ∃ r c', op.run io depth c = .ret r c' ∧ CacheOk c' ∧ c'.view = written c.view [op] ∧
      op.Coherent c.view r c' ∧ ∀ a, c'.disk a ≠ c.disk a →
        c.mapped (blockOf a) = true ∧ c.dirty (blockOf a) = true ∧ op.Flushes c.view (blockOf a) := by
  cases op with
  | read va =>
    obtain ⟨c', hrun, hc', hr⟩ := readByte_run hio hd hc hrange
    refine ⟨_, c', Routine.bind_ret hrun, hc', hr.view, rfl, fun a ha => ?_⟩
    rw [hr.disk] at ha
    exact absurd rfl ha
  | write va v =>
    obtain ⟨c', hrun, hc', hdisk, hview, -⟩ := writeByte_run hio hd hc hrange hkeep
    refine ⟨_, c', Routine.bind_ret hrun, hc', hview, trivial, fun a ha => ?_⟩
    rw [hdisk] at ha
    exact absurd rfl ha
  | flush va =>
    have hb : blockOf va < diskBlocks := Nat.lt_of_lt_of_le hrange.2.1 hc.good.size
    obtain ⟨c', hrun, hc', hf⟩ := cacheFlushBlock_run hio hc hb
    refine ⟨_, c', Routine.bind_ret hrun, hc', hf.view, ⟨fun a ha => ?_, ?_⟩, fun a ha => ?_⟩
    · rw [hf.disk, if_pos ha]
    · rw [hf.dirty, if_pos rfl]
    · rw [hf.disk] at ha
      split_ifs at ha with hblock
      · obtain ⟨hm, hdirty⟩ := hc.disk_changed ha
        exact ⟨hm, hdirty, hblock.symm⟩
      · exact absurd rfl ha
  | sync =>
    obtain ⟨c', hrun, hf⟩ : ∃ c', cacheSync io depth c = .ret () c' ∧ FlushedTo (nblocksIn c.view - 1) c c' :=
      cacheSync_run hio hc
    refine ⟨_, c', Routine.bind_ret hrun, hf.ok, hf.view, fun b h1 hb => ⟨fun a ha => ?_, ?_⟩, fun a ha => ?_⟩
    · rw [hf.disk, if_pos (by omega)]
    · rw [hf.dirty, if_pos (by omega)]
    · rw [hf.disk] at ha
      split_ifs at ha with hblock
      · obtain ⟨hm, hdirty⟩ := hc.disk_changed ha
        exact ⟨hm, hdirty, hblock.1, by omega⟩
      · exact absurd rfl ha
  | unmap b =>
    obtain ⟨hc', hview⟩ := hc.unmap hrange hkeep
    exact ⟨_, c.unmap b, rfl, hc', hview, trivial, fun a ha => absurd rfl ha⟩

/-- Every read shows what was last written, a flush and a sync bring it to the disk, and
nothing else changes the disk. -/
theorem cache_coherent {xs : List (CacheOp × Option (BitVec 8))}
    (hio : ∀ b, io.alloc b = true ∧ io.transfer b = true) (hd : 3 ≤ depth) (h₀ : CacheStart c₀)
    (hr : Run (CacheSafeStep io depth) c₀ xs c) (hrange : op.InRange c) (hkeep : op.KeepsSuper c.view) :
    ∃ r c', op.run io depth c = .ret r c' ∧ op.Coherent (written c₀.disk (xs.map Prod.fst)) r c' ∧
      ∀ a, c'.disk a ≠ c.disk a →
        c.mapped (blockOf a) = true ∧ c.dirty (blockOf a) = true ∧ op.Flushes c.view (blockOf a) := by
  obtain ⟨hc, hview⟩ : CacheOk c ∧ c.view = written c₀.disk (xs.map Prod.fst) := by
    refine hr.invariant (I := fun xs c => CacheOk c ∧ c.view = written c₀.disk (xs.map Prod.fst)) h₀.ok ?_
    rintro ys x t u ⟨ht, hv⟩ hs
    obtain ⟨r, c', hrun, hc', hview, -⟩ := CacheOp.run_ok hio hd ht hs.range hs.keeps
    obtain ⟨-, rfl⟩ := Outcome.ret.inj (hs.run.symm.trans hrun)
    refine ⟨hc', ?_⟩
    rw [List.map_append, List.map_singleton, written_snoc, hview, hv]
  obtain ⟨r, c', hrun, -, -, hcoh, hdisk⟩ := CacheOp.run_ok hio hd hc hrange hkeep
  exact ⟨r, c', hrun, hview ▸ hcoh, hdisk⟩

end Coherence

/-- A disk of 32769 blocks, all in use; the bitmap is in the blocks 2 and 3. -/
def smallDisk : ByteMem := fun a =>
  if a = nblocksAddr then 0x01#8 else if a = nblocksAddr + 1#32 then 0x80#8 else 0#8

/-- 32769 blocks have two bitmap blocks. -/
theorem goodSuper_of_bits {m : ByteMem} (hn : nblocksIn m = 32769) (h1 : freeBit m 1 = false)
    (h2 : freeBit m 2 = false) (h3 : freeBit m 3 = false) : GoodSuper m := by
  refine ⟨by rw [hn]; decide, ⟨Nat.le_refl 1, by rw [hn]; decide, h1⟩, fun i hi => ?_⟩
  obtain rfl | rfl : i = 0 ∨ i = 1 := by
    rw [hn] at hi
    change i * 32768 < 32769 at hi
    omega
  · exact ⟨by decide, by rw [hn]; decide, h2⟩
  · exact ⟨by decide, by rw [hn]; decide, h3⟩

theorem goodSuper_smallDisk : GoodSuper smallDisk :=
  goodSuper_of_bits (by decide) (by decide) (by decide) (by decide)

/-- The super block and the first bitmap block are in memory. -/
def smallCache : Cache := ⟨smallDisk, smallDisk, fun b => b = 1 ∨ b = 2, fun _ => false, true, true⟩

theorem cacheStart_small : CacheStart smallCache :=
  ⟨rfl, rfl, rfl, fun _ => rfl, fun _ _ => rfl, goodSuper_smallDisk⟩

def workingIo : BlockIo := ⟨fun _ => true, fun _ => true⟩

theorem inUse_smallCache : InUse smallCache.view (blockOf (blockAddr 32768)) := by
  rw [cacheStart_small.ok.2]
  exact ⟨by decide, by decide, by decide⟩

/-- The disk with a byte in its last block. -/
def writtenDisk : ByteMem := Function.update smallDisk (blockAddr 32768) 7#8

theorem goodSuper_writtenDisk : GoodSuper writtenDisk :=
  goodSuper_of_bits (by decide) (by decide) (by decide) (by decide)

theorem inUse_writtenDisk : InUse writtenDisk (blockOf (blockAddr 32768)) := ⟨by decide, by decide, by decide⟩

/-- A byte is written to a block that is not in memory, the block is flushed and its page goes: the next read brings
the block in again. -/
theorem cache_coherent_read : ∃ xs c, Run (CacheSafeStep workingIo 3) smallCache xs c ∧
    xs.map Prod.fst = [.write (blockAddr 32768) 7#8, .flush (blockAddr 32768), .unmap 32768] ∧
    ∃ r c', (CacheOp.read (blockAddr 32768)).run workingIo 3 c = .ret r c' ∧ r = some 7#8 := by
  have hio (b : ℕ) : workingIo.alloc b = true ∧ workingIo.transfer b = true := ⟨rfl, rfl⟩
  have hblock : blockOf (blockAddr 32768) = 32768 := by decide
  obtain ⟨hok, hview⟩ := cacheStart_small.ok
  have hin₁ : (CacheOp.write (blockAddr 32768) 7#8).InRange smallCache := inUse_smallCache
  have hkeep : (CacheOp.write (blockAddr 32768) 7#8).KeepsSuper smallCache.view := by
    rw [hview]
    exact goodSuper_writtenDisk
  obtain ⟨r₁, c₁, hrun₁, hok₁, hview₁, -⟩ := CacheOp.run_ok hio (Nat.le_refl 3) hok hin₁ hkeep
  rw [hview] at hview₁
  have hin₂ : (CacheOp.flush (blockAddr 32768)).InRange c₁ := by
    change InUse c₁.view _
    rw [hview₁]
    exact inUse_writtenDisk
  obtain ⟨r₂, c₂, hrun₂, hok₂, hview₂, hcoh, -⟩ := CacheOp.run_ok hio (Nat.le_refl 3) hok₁ hin₂ trivial
  have hin₃ : (CacheOp.unmap 32768).InRange c₂ := hblock ▸ hcoh.2
  have hne : (CacheOp.unmap 32768).KeepsSuper c₂.view := show 32768 ≠ 1 by decide
  obtain ⟨r₃, c₃, hrun₃, -, hview₃, -⟩ := CacheOp.run_ok hio (Nat.le_refl 3) hok₂ hin₃ hne
  have hs₁ : CacheSafeStep workingIo 3 smallCache (.write (blockAddr 32768) 7#8, r₁) c₁ := ⟨⟨hin₁, hrun₁⟩, hkeep⟩
  have hs₂ : CacheSafeStep workingIo 3 c₁ (.flush (blockAddr 32768), r₂) c₂ := ⟨⟨hin₂, hrun₂⟩, trivial⟩
  have hs₃ : CacheSafeStep workingIo 3 c₂ (.unmap 32768, r₃) c₃ := ⟨⟨hin₃, hrun₃⟩, hne⟩
  have hin : (CacheOp.read (blockAddr 32768)).InRange c₃ := by
    change InUse c₃.view _
    rw [hview₃, hview₂, hview₁]
    exact inUse_writtenDisk
  obtain ⟨r, c', hrun, hr, -⟩ := cache_coherent hio (Nat.le_refl 3) cacheStart_small
    (((Run.single hs₁).snoc hs₂).snoc hs₃) hin trivial
  exact ⟨_, c₃, ((Run.single hs₁).snoc hs₂).snoc hs₃, rfl, r, c', hrun, hr⟩

section Panics

variable {io : BlockIo} {c : Cache} {va : Word} {depth : ℕ}

/-- Without the super block in memory, a page fault is followed by one on the super block. -/
theorem bcPgfault_no_super (hs : c.super = true) (h1 : c.mapped 1 = false) :
    bcPgfault io depth va c = .halt := by
  induction depth generalizing va with
  | zero => rfl
  | succ depth ih =>
    have hcheck : superCheck (bcPgfault io depth) (blockOf va) c = .halt := by
      unfold superCheck
      change (if ¬ c.super = true then pure () else _ : Routine Cache Unit) c = _
      rw [if_neg (not_not_intro hs)]
      apply Routine.bind_halt
      apply Routine.bind_halt
      rw [touch_of_not_mapped (blockOf_nblocks ▸ h1)]
      exact ih
    unfold bcPgfault
    by_cases hin : InDiskmap va
    · rw [Routine.panicUnless_bind hin]
      exact Routine.bind_halt hcheck
    · exact Routine.panicUnless_bind_not hin _ _

theorem bitmapCheck_halt {fault : Word → Routine Cache Unit} {b : ℕ} (hbm : c.bitmap = true)
    (h : blockIsFree fault b c = .halt ∨ ∃ c', blockIsFree fault b c = .ret true c') :
    bitmapCheck fault b c = .halt := by
  unfold bitmapCheck
  change (if ¬ c.bitmap = true then pure () else _ : Routine Cache Unit) c = _
  rw [if_neg (not_not_intro hbm)]
  rcases h with h | ⟨c', h⟩
  · exact Routine.bind_halt h
  · rw [Routine.bind_ret h]
    rfl

theorem readByte_halt (hm : c.mapped (blockOf va) = false) (h : bcPgfault io depth va c = .halt) :
    (CacheOp.read va).run io depth c = .halt := by
  apply Routine.bind_halt
  apply Routine.bind_halt
  rw [touch_of_not_mapped hm, h]

/-- The bitmap says that block 3 is free, which is a bitmap block itself. -/
def strayCache : Cache := smallCache.store (blockAddr 2) 8#8

theorem stray_fault_bitmap :
    bcPgfault workingIo depth (bitmapAddr 32768) (strayCache.readIn 32768) = .halt := by
  cases depth with
  | zero => rfl
  | succ depth =>
    have hblock : blockOf (bitmapAddr 32768) = 3 := by decide
    rw [bcPgfault_readIn (fun _ => ⟨rfl, rfl⟩) (by decide) rfl (by decide) (by decide), hblock]
    apply bitmapCheck_halt rfl
    right
    rw [blockIsFree_eq rfl (by decide) (by decide)]
    have hload : loadUint (bcPgfault workingIo depth) (bitmapAddr 3) ((strayCache.readIn 32768).readIn 3) =
        .ret (loadWord ((strayCache.readIn 32768).readIn 3).page (bitmapAddr 3)) _ :=
      Routine.bind_ret (touch_of_mapped (by decide))
    rw [Routine.bind_ret hload]
    have hbit : loadWord ((strayCache.readIn 32768).readIn 3).page (bitmapAddr 3) &&&
        (1#32 <<< (3 % 32)) ≠ 0#32 := by decide
    exact ⟨_, congrArg (Outcome.ret · _) (decide_eq_true hbit)⟩

theorem stray_fault : bcPgfault workingIo depth (blockAddr 32768) strayCache = .halt := by
  cases depth with
  | zero => rfl
  | succ depth =>
    have hblock : blockOf (blockAddr 32768) = 32768 := by decide
    rw [bcPgfault_readIn (fun _ => ⟨rfl, rfl⟩) (by decide) rfl (by decide) (by decide), hblock]
    apply bitmapCheck_halt rfl
    left
    rw [blockIsFree_eq rfl (by decide) (by decide)]
    apply Routine.bind_halt
    apply Routine.bind_halt
    rw [touch_of_not_mapped (by decide)]
    exact stray_fault_bitmap

/-- The server panics, or faults without end, on a block in use: when the page of the super
block has been unmapped, and when the bitmap says that one of its own blocks is free. -/
theorem cache_not_coherent : CacheStart smallCache ∧ ∀ depth,
    (∃ c, Run (CacheStep workingIo depth) smallCache [(.unmap 1, none)] c ∧
      (CacheOp.read (blockAddr 32768)).InRange c ∧
      (CacheOp.read (blockAddr 32768)).run workingIo depth c = .halt) ∧
    (∃ c, Run (CacheStep workingIo depth) smallCache [(.write (blockAddr 2) 8#8, none)] c ∧
      (CacheOp.read (blockAddr 32768)).InRange c ∧
      (CacheOp.read (blockAddr 32768)).run workingIo depth c = .halt) := by
  refine ⟨cacheStart_small, fun depth => ⟨⟨smallCache.unmap 1, ?_, ?_, ?_⟩, strayCache, ?_, ?_, ?_⟩⟩
  · exact Run.single ⟨rfl, rfl⟩
  · change InUse _ (blockOf (blockAddr 32768))
    exact ⟨by decide, by decide, by decide⟩
  · exact readByte_halt (by decide) (bcPgfault_no_super rfl (by decide))
  · have hu : InUse smallCache.view (blockOf (blockAddr 2)) := ⟨by decide, by decide, by decide⟩
    refine Run.single ⟨hu, ?_⟩
    exact Routine.bind_ret (Routine.bind_ret (touch_of_mapped (by decide)))
  · change InUse _ (blockOf (blockAddr 32768))
    exact ⟨by decide, by decide, by decide⟩
  · exact readByte_halt (by decide) stray_fault

end Panics

end Sisop
