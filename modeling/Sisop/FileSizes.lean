import Sisop.CreateFrame
import Sisop.Fsformat
import Mathlib.Algebra.Order.Floor.Ring
import Mathlib.Data.Rat.Floor

/-! The sizes that files get from `file_set_size`, and the blocks that `file_write` finds. -/
namespace Sisop

def SizeInRange (size : Word) : Prop := 0 ≤ size.toInt ∧ size.toInt ≤ maxfilesize

/-- `file_truncate_blocks` computes the number of blocks of a file of this size. -/
structure CountOk (size : Word) : Prop where
  small : size.toInt + 4095 < 2^31
  count : (nblocksOf size : ℤ) = ⌈(size.toInt : ℚ) / 4096⌉

/-- The size of the file is in range, and nothing has changed if there was an error. -/
structure SizeKept {α : Type} (s s' : Fs) (f : Word) (r : Except FsErr α) : Prop where
  range : SizeInRange (fSize s'.mem f)
  rejected : ∀ e, r = .error e → s'.mem = s.mem

/-- If `file_set_size` truncates the file, it computes both numbers of blocks. -/
def CountsKept (m : ByteMem) (f newsize : Word) : Prop :=
  newsize.toInt < (fSize m f).toInt → CountOk (fSize m f) ∧ CountOk newsize

section Sizes

variable {size newsize f : Word} {s s' : Fs} {r : Except FsErr Unit}

theorem sizeInRange_iff : SizeInRange size ↔ size.toNat ≤ maxfilesize := by
  have hlt := size.isLt
  unfold SizeInRange
  rw [BitVec.toInt_eq_toNat_cond]
  change _ ∧ _ ≤ ((4235264 : ℕ) : ℤ) ↔ _ ≤ 4235264
  split_ifs with hsmall
  · omega
  · omega

theorem SizeInRange.toInt (h : SizeInRange size) : size.toInt = (size.toNat : ℤ) := by
  have hle : size.toNat ≤ 4235264 := sizeInRange_iff.mp h
  exact BitVec.toInt_eq_toNat_of_lt (by omega)

theorem SizeInRange.countOk (h : SizeInRange size) : CountOk size := by
  have hle : size.toNat ≤ 4235264 := sizeInRange_iff.mp h
  have hadd : (size + 4095#32).toNat = size.toNat + 4095 := by bv_omega
  have hcount : nblocksOf size = (size.toNat + 4095) / 4096 := by
    unfold nblocksOf
    rw [sdiv_block (by omega), hadd]
  obtain ⟨n, hn⟩ : ∃ n, n = (size.toNat + 4095) / 4096 := ⟨_, rfl⟩
  have hfull : 4096 * n < size.toNat + 4096 := by omega
  have hroom : size.toNat ≤ 4096 * n := by omega
  constructor
  · rw [h.toInt]
    omega
  · rw [hcount, ← hn, h.toInt]
    symm
    rw [Int.ceil_eq_iff, lt_div_iff₀ (by norm_num), div_le_iff₀ (by norm_num)]
    have hfull' : (4096 * n : ℚ) < size.toNat + 4096 := by exact_mod_cast hfull
    have hroom' : (size.toNat : ℚ) ≤ 4096 * n := by exact_mod_cast hroom
    constructor
    · push_cast
      linarith
    · push_cast
      linarith

/-- Any size is stored. -/
theorem fileSetSize_ret (h : fileSetSize f newsize s = .ret r s') : r = .ok () ∧ fSize s'.mem f = newsize := by
  unfold fileSetSize at h
  rw [Routine.bind_ret (Routine.get_run s)] at h
  have hstore (t : Fs) (hrun : (Routine.modify (Fs.storeUint (fSizeAddr f) newsize) >>= fun _ =>
      flushBlock f >>= fun _ => (pure (.ok ()) : Routine Fs (Except FsErr Unit))) t = .ret r s') :
      r = .ok () ∧ fSize s'.mem f = newsize := by
    rw [Routine.modify_bind_run] at hrun
    obtain ⟨_, u, hflush, hrun⟩ := Routine.bind_eq_ret.mp hrun
    obtain ⟨rfl, rfl⟩ := Outcome.ret.inj hrun
    refine ⟨rfl, ?_⟩
    rw [flushBlock_ret hflush]
    exact loadWord_storeWord ..
  split_ifs at h
  · obtain ⟨_, t, -, h⟩ := Routine.bind_eq_ret.mp h
    exact hstore t h
  · exact hstore s h

/-- A larger size is stored, and that is all. -/
theorem fileSetSize_grown (hle : (fSize s.mem f).toInt ≤ newsize.toInt) (h : fileSetSize f newsize s = .ret r s') :
    s'.mem = storeWord s.mem (fSizeAddr f) newsize := by
  unfold fileSetSize at h
  rw [Routine.bind_ret (Routine.get_run s), if_neg (Int.not_lt.mpr hle)] at h
  change (Routine.modify _ >>= fun _ => flushBlock f >>= fun _ => _) s = _ at h
  rw [Routine.modify_bind_run] at h
  obtain ⟨_, t, hflush, h⟩ := Routine.bind_eq_ret.mp h
  obtain ⟨-, rfl⟩ := Outcome.ret.inj h
  exact flushBlock_ret hflush

/-- The size is in range if and only if the one that is asked for is. -/
theorem fileSetSize_kept (hold : SizeInRange (fSize s.mem f)) (h : fileSetSize f newsize s = .ret r s') :
    SizeKept s s' f r ∧ CountsKept s.mem f newsize ↔ SizeInRange newsize := by
  obtain ⟨rfl, hsize⟩ := fileSetSize_ret h
  constructor
  · rintro ⟨hkept, -⟩
    rw [← hsize]
    exact hkept.range
  · intro hnew
    refine ⟨⟨?_, fun e he => nomatch he⟩, fun _ => ⟨hold.countOk, hnew.countOk⟩⟩
    rw [hsize]
    exact hnew

end Sizes

end Sisop
