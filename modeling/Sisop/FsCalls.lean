import Sisop.FsTree

/-! What the calls that find or add blocks do to the memory of the files. -/
namespace Sisop

section Blocks

variable {m m' : ByteMem} {b k : ℕ}

/-- All of a block is zero. -/
def ZeroBlock (m : ByteMem) (b : ℕ) : Prop := ∀ a, blockOf a = b → m a = 0#8

/-- What a block holds is the same. -/
def SameBlock (m m' : ByteMem) (b : ℕ) : Prop := ∀ a, blockOf a = b → m' a = m a

theorem toNat_of_blockOf {a : Word} (hb : b < diskBlocks) (ha : blockOf a = b) :
    0x10000000 + b * 4096 ≤ a.toNat ∧ a.toNat < 0x10000000 + (b + 1) * 4096 := by
  have hlt : a.toNat < 2^32 := a.isLt
  change b < 0xC0000 at hb
  unfold blockOf at ha
  rw [BitVec.toNat_sub] at ha
  change (2^32 - 0x10000000 + a.toNat) % 2^32 / 4096 = b at ha
  omega

theorem SameBlock.of_outside {lo : ℕ} (hm : SameOutside m m' lo k) (hb : b < diskBlocks)
    (hd : lo + k ≤ 0x10000000 + b * 4096 ∨ 0x10000000 + (b + 1) * 4096 ≤ lo) : SameBlock m m' b := by
  intro a ha
  have haddr := toNat_of_blockOf hb ha
  apply hm
  omega

theorem blockOf_slotAddr {j : ℕ} (hb : b < diskBlocks) (hj : j < blkfiles) : blockOf (slotAddr b j) = b := by
  have haddr := slotAddr_toNat hb hj
  change j < 16 at hj
  rw [blockOf_of_toNat (x := b * 4096 + 256 * j) (by omega)]
  omega

/-- The bitmap when `alloc_block` has taken a block. -/
def takeMem (m : ByteMem) (b : ℕ) : ByteMem :=
  storeWord m (bitmapAddr b) (loadWord m (bitmapAddr b) &&& (0#32 <<< (b % 32)))

/-- The memory when a block has been filled with zeros. -/
def zeroMem (m : ByteMem) (b : ℕ) : ByteMem := fun a => if blockOf a = b then 0#8 else m a

theorem zeroMem_zero (m : ByteMem) (b : ℕ) : ZeroBlock (zeroMem m b) b := fun _ ha => if_pos ha

theorem zeroMem_outside (hb : b < diskBlocks) : SameOutside m (zeroMem m b) (0x10000000 + b * 4096) 4096 := by
  intro x hx
  apply if_neg
  intro hblock
  have haddr := toNat_of_blockOf hb hblock
  omega

end Blocks

section Basic

variable {s s' : Fs} {m : ByteMem} {f va slot w : Word} {b i : ℕ} {α β : Type}

theorem diskaddr_ret (h : diskaddr w s = .ret va s') :
    s' = s ∧ w ≠ 0#32 ∧ w.toNat < nblocksIn s.mem ∧ va = blockAddr w.toNat := by
  unfold diskaddr at h
  rw [Routine.bind_ret (Routine.get_run s)] at h
  by_cases hw : w ≠ 0#32 ∧ w.toNat < nblocksIn s.mem
  · rw [Routine.panicUnless_bind hw] at h
    obtain ⟨rfl, rfl⟩ := Outcome.ret.inj h
    exact ⟨rfl, hw.1, hw.2, rfl⟩
  · rw [Routine.panicUnless_bind_not hw] at h
    cases h

theorem flushBlock_ret (h : flushBlock va s = .ret () s') : s'.mem = s.mem := by
  unfold flushBlock at h
  by_cases hin : InDiskmap (rounddown va)
  · rw [Routine.panicUnless_bind hin] at h
    obtain ⟨-, rfl⟩ := Outcome.ret.inj h
    exact flush_mem s _
  · rw [Routine.panicUnless_bind_not hin] at h
    cases h

theorem orReturn_ret {r : Except FsErr α} {k : α → Routine Fs (Except FsErr β)} {r' : Except FsErr β}
    (h : orReturn r k s = .ret r' s') :
    (∃ e, r = .error e ∧ r' = .error e ∧ s' = s) ∨ ∃ a, r = .ok a ∧ k a s = .ret r' s' := by
  cases r with
  | error e =>
    obtain ⟨rfl, rfl⟩ := Outcome.ret.inj h
    exact Or.inl ⟨e, rfl, rfl, rfl⟩
  | ok a => exact Or.inr ⟨a, rfl, h⟩

end Basic

section Slots

variable {s s' : Fs} {m : ByteMem} {f : Word} {b c i : ℕ} {r : Except FsErr Word}

theorem slotBlock_ret {slot : Word} (h : slotBlock slot s = .ret r s') :
    s' = s ∧ loadWord s.mem slot ≠ 0#32 ∧ (loadWord s.mem slot).toNat < nblocksIn s.mem ∧
      r = .ok (blockAddr (loadWord s.mem slot).toNat) := by
  unfold slotBlock at h
  rw [Routine.bind_ret (Routine.get_run s)] at h
  obtain ⟨va, t, hva, hr⟩ := Routine.bind_eq_ret.mp h
  obtain ⟨rfl, hne, hlt, rfl⟩ := diskaddr_ret hva
  obtain ⟨rfl, rfl⟩ := Outcome.ret.inj hr
  exact ⟨rfl, hne, hlt, rfl⟩

end Slots

end Sisop
