import Sisop.BlockAlloc

/-! What the disk knows of the blocks that `alloc_block` hands out. It flushes the block at
`bitmap`, which tells of the first `BLKBITSIZE` blocks only. -/
namespace Sisop

/-- The disk has a block marked in use. -/
def OnDisk (s : Fs) (b : ℕ) : Prop := freeBit s.disk b = false

/-- What the file system does to its blocks. A `write` stands for any stores that leave
alone the bitmap and `s_nblocks`. -/
inductive FsStep : Fs → Fs → Prop where
  | write {s s' : Fs} (hdisk : s'.disk = s.disk) (hn : nblocksIn s'.mem = nblocksIn s.mem)
      (hmap : ∀ b < nblocksIn s.mem, loadWord s'.mem (bitmapAddr b) = loadWord s.mem (bitmapAddr b)) :
    FsStep s s'
  | flush {s s' : Fs} (va : Word) (h : flushBlock va s = .ret () s') : FsStep s s'
  | alloc {s s' : Fs} (r : Except FsErr ℕ) (h : allocBlock s = .ret r s')
      (hb : ∀ b, IsLeast (freeSet s.mem) b → b < blkbitsize) : FsStep s s'
  | free {s s' : Fs} (b : ℕ) (hb : b < 2^32) (h : freeBlock b s = .ret () s') : FsStep s s'

/-- The file system has been started: the memory is as the disk. -/
def FsStart (s : Fs) : Prop := s.mem = s.disk

section Durable

variable {s s' : Fs} {b k : ℕ}

/-- The disk after a flush. -/
theorem flush_disk_other {a : Word} (h : blockOf a ≠ k) : (s.flush k).disk a = s.disk a := by
  unfold Fs.flush
  split_ifs
  · exact if_neg h
  · rfl

theorem flush_disk_of_dirty {a : Word} (hd : s.dirty k = true) (h : blockOf a = k) :
    (s.flush k).disk a = s.mem a := by
  unfold Fs.flush
  rw [if_pos hd]
  exact if_pos h

theorem freeBit_congr {m m' : ByteMem} (h : loadWord m (bitmapAddr b) = loadWord m' (bitmapAddr b)) :
    freeBit m b = freeBit m' b := by
  unfold freeBit
  rw [h]

theorem flush_bit_other (hb : b < 2^32) (h : 2 + b / blkbitsize ≠ k) :
    freeBit (s.flush k).disk b = freeBit s.disk b := by
  apply freeBit_congr
  apply loadWord_congr
  intro i hi
  apply flush_disk_other
  rw [blockOf_bitmapAddr hb hi]
  exact h

theorem flush_bit_of_dirty (hb : b < 2^32) (hd : s.dirty (2 + b / blkbitsize) = true) :
    freeBit (s.flush (2 + b / blkbitsize)).disk b = freeBit s.mem b := by
  apply freeBit_congr
  apply loadWord_congr
  intro i hi
  exact flush_disk_of_dirty hd (blockOf_bitmapAddr hb hi)

theorem take_dirty (hb : b < 2^32) : (s.take b).dirty (2 + b / blkbitsize) = true := by
  have h3 : blockOf (bitmapAddr b + 3#32) = 2 + b / blkbitsize := blockOf_bitmapAddr hb (i := 3) (by decide)
  change Function.update (Function.update s.dirty _ true) (blockOf (bitmapAddr b + 3#32)) true _ = true
  rw [h3, Function.update_self]

/-- What the disk has of the block that `alloc_block` hands out. -/
theorem alloc_onDisk_iff (h : IsLeast (freeSet s.mem) b) :
    OnDisk ((s.take b).flush 2) b ↔ b < blkbitsize ∨ OnDisk s b := by
  have hb : b < 2^32 := Nat.lt_trans (lt_of_free h.1) (nblocksIn_lt _)
  unfold OnDisk
  by_cases hlt : b < blkbitsize
  · have hblock : 2 + b / blkbitsize = 2 := by rw [Nat.div_eq_of_lt hlt]
    have hd := take_dirty (s := s) hb
    have hbit := flush_bit_of_dirty hb hd
    rw [hblock] at hbit
    rw [hbit]
    unfold Fs.take Fs.storeUint
    rw [freeBit_clear hb hb, if_pos rfl]
    exact ⟨fun _ => Or.inl hlt, fun _ => rfl⟩
  · have hblock : 2 + b / blkbitsize ≠ 2 := by
      have hpos := Nat.div_pos (Nat.le_of_not_lt hlt) (by decide : 0 < blkbitsize)
      omega
    rw [flush_bit_other hb hblock]
    exact ⟨Or.inr, fun h => h.resolve_left hlt⟩

/-- The blocks in use in memory are in use on the disk. -/
def Durable (s : Fs) : Prop := ∀ b < nblocksIn s.mem, freeBit s.mem b = false → OnDisk s b

theorem Durable.flush (h : Durable s) (k : ℕ) : Durable (s.flush k) := by
  intro b hb hbit
  rw [flush_mem] at hb hbit
  have hlt := Nat.lt_trans hb (nblocksIn_lt _)
  unfold OnDisk
  by_cases hk : 2 + b / blkbitsize = k
  · subst hk
    by_cases hd : s.dirty (2 + b / blkbitsize) = true
    · rw [flush_bit_of_dirty hlt hd, hbit]
    · unfold Fs.flush
      rw [if_neg hd]
      exact h b hb hbit
  · rw [flush_bit_other hlt hk]
    exact h b hb hbit

theorem Durable.alloc (h : Durable s) (hleast : IsLeast (freeSet s.mem) b) (hb : b < blkbitsize) :
    Durable ((s.take b).flush 2) := by
  have hlt := Nat.lt_trans (lt_of_free hleast.1) (nblocksIn_lt _)
  have hblock : 2 + b / blkbitsize = 2 := by rw [Nat.div_eq_of_lt hb]
  intro b' hb' hbit
  rw [flush_mem] at hb' hbit
  have hn : nblocksIn (s.take b).mem = nblocksIn s.mem := nblocksIn_storeWord hlt
  have hlt' := Nat.lt_trans hb' (nblocksIn_lt _)
  rw [hn] at hb'
  by_cases hk : b' < blkbitsize
  · -- the bitmap block that is flushed
    have hblock' : 2 + b' / blkbitsize = 2 := by rw [Nat.div_eq_of_lt hk]
    have hd : (s.take b).dirty (2 + b' / blkbitsize) = true := by
      rw [hblock', ← hblock]
      exact take_dirty hlt
    have hflush := flush_bit_of_dirty hlt' hd
    rw [hblock'] at hflush
    exact hflush.trans hbit
  · have hblock' : 2 + b' / blkbitsize ≠ 2 := by
      have hpos := Nat.div_pos (Nat.le_of_not_lt hk) (by decide : 0 < blkbitsize)
      omega
    have hword : b' / 32 ≠ b / 32 := by
      change b < 32768 at hb
      change ¬ b' < 32768 at hk
      omega
    unfold OnDisk
    rw [flush_bit_other hlt' hblock']
    apply h b' hb'
    unfold Fs.take Fs.storeUint at hbit
    rwa [freeBit_clear hlt hlt', if_neg hword] at hbit

theorem Durable.free (h : Durable s) (hb : b < 2^32) : Durable (s.give b) := by
  intro b' hb' hbit
  have hn : nblocksIn (s.give b).mem = nblocksIn s.mem := nblocksIn_storeWord hb
  rw [hn] at hb'
  apply h b' hb'
  by_contra hfree
  have hset := (freeBit_set (m := s.mem) hb (Nat.lt_trans hb' (nblocksIn_lt _))).mpr
    (Or.inr (Bool.eq_true_of_not_eq_false hfree))
  exact absurd hbit (by rw [Fs.give, Fs.storeUint, hset]; exact Bool.true_eq_false.mp)

theorem Durable.step (h : Durable s) (hs : FsStep s s') : Durable s' := by
  cases hs with
  | write hdisk hn hmap =>
    intro b hb hbit
    rw [hn] at hb
    unfold OnDisk
    rw [hdisk]
    apply h b hb
    rw [← hbit]
    exact freeBit_congr (hmap b hb).symm
  | flush va hrun =>
    unfold flushBlock at hrun
    by_cases hin : InDiskmap (rounddown va)
    · rw [Routine.panicUnless_bind hin] at hrun
      cases hrun
      exact h.flush _
    · rw [Routine.panicUnless_bind_not hin] at hrun
      cases hrun
  | alloc r hrun hb =>
    by_cases hne : (freeSet s.mem).Nonempty
    · obtain ⟨b, hleast⟩ := exists_least hne
      rw [allocBlock_some hleast] at hrun
      cases hrun
      exact h.alloc hleast (hb b hleast)
    · rw [allocBlock_none (Set.not_nonempty_iff_eq_empty.mp hne)] at hrun
      cases hrun
      exact h
  | free b hb hrun =>
    by_cases h0 : 0 < b
    · rw [freeBlock_run h0] at hrun
      cases hrun
      exact h.free hb
    · unfold freeBlock at hrun
      rw [Routine.panicUnless_bind_not (by omega)] at hrun
      cases hrun

/-- A block that `alloc_block` hands out is marked in use on the disk when the first bitmap
block tells of it, or when it was so marked anyway, and else it is not. Where only such
blocks are handed out, no block in use is free on the disk. -/
theorem alloc_durable (s : Fs) :
    (∀ b, IsLeast (freeSet s.mem) b →
      ∃ s', allocBlock s = .ret (.ok b) s' ∧ (OnDisk s' b ↔ b < blkbitsize ∨ OnDisk s b)) ∧
    (Reachable FsStart FsStep s → ∀ b < nblocksIn s.mem, freeBit s.mem b = false → OnDisk s b) := by
  refine ⟨fun b h => ⟨_, allocBlock_some h, alloc_onDisk_iff h⟩, fun h => ?_⟩
  have hdur : Durable s := by
    apply h.invariant
    · intro s hs b _ hbit
      unfold OnDisk
      rw [← hs]
      exact hbit
    · exact fun _ _ h hs => h.step hs
  exact hdur

end Durable

/-- Of 32769 blocks the last one is free. -/
def lastFree : ByteMem := fun a => if a = blockAddr 3 then 1#8 else smallDisk a

theorem isLeast_lastFree : IsLeast (freeSet lastFree) 32768 := by
  refine ⟨by decide, fun b hb => ?_⟩
  by_contra hlt
  -- the first bitmap block is all zero
  have hword : loadWord lastFree (bitmapAddr b) = loadWord (fun _ => 0#8) (bitmapAddr b) := by
    apply loadWord_congr
    intro i hi
    have hblock : blockOf (bitmapAddr b + BitVec.ofNat 32 i) = 2 := by
      rw [blockOf_bitmapAddr (by omega) hi]
      change 2 + b / 32768 = 2
      omega
    have hne {a : Word} (ha : blockOf a ≠ 2) : bitmapAddr b + BitVec.ofNat 32 i ≠ a := by
      rintro rfl
      exact ha hblock
    unfold lastFree smallDisk
    rw [if_neg (hne (by decide)), if_neg (hne (by decide)), if_neg (hne (by decide))]
  have hzero : loadWord (fun _ => 0#8) (bitmapAddr b) = 0#32 := by
    change 0#8 ++ 0#8 ++ 0#8 ++ 0#8 = 0#32
    decide
  have hbit := (mem_freeSet.mp hb).2
  unfold freeBit at hbit
  rw [hword, hzero, BitVec.zero_and] at hbit
  exact absurd hbit (by decide)

/-- The disk does not learn that block 32768 has been handed out. -/
theorem alloc_not_durable : ∃ s s', FsStart s ∧ nblocksIn s.mem ≤ diskBlocks ∧
    allocBlock s = .ret (.ok 32768) s' ∧ ¬ OnDisk s' 32768 := by
  obtain ⟨s, hs⟩ : ∃ s : Fs, s = ⟨lastFree, lastFree, fun _ => false⟩ := ⟨_, rfl⟩
  have hstart : FsStart s := by
    unfold FsStart
    rw [hs]
  have hleast : IsLeast (freeSet s.mem) 32768 := by
    rw [hs]
    exact isLeast_lastFree
  refine ⟨s, _, hstart, by rw [hs]; decide, allocBlock_some hleast, ?_⟩
  rw [alloc_onDisk_iff hleast, hs]
  rintro (h | h)
  · exact absurd h (by decide)
  · unfold OnDisk at h
    exact absurd h (by decide)

theorem alloc_durable_three : ∃ s', allocBlock twoFree = .ret (.ok 3) s' ∧ OnDisk s' 3 := by
  obtain ⟨s', hrun, hdisk⟩ := (alloc_durable twoFree).1 3 isLeast_twoFree
  exact ⟨s', hrun, hdisk.mpr (Or.inl (by decide))⟩

end Sisop
