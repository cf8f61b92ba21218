import Sisop.PageMaps
import Sisop.UserMem

/-! When `user_mem_check` is right about what a user program can access. -/
namespace Sisop

/-- The bits of `perm` at which the hardware looks, and `PTE_P`. -/
def hwPerm (perm : Word) : Word := perm &&& (pteU ||| pteW ||| pteP) ||| pteP

/-- User code can access the byte at `la` with `perm`: both entries let it through, and `la` is below `ULIM`. -/
def Allows (s : Pm) (g : ℕ) (perm la : Word) : Prop :=
  la < ulim ∧ has (s.word g (pdx la)) (hwPerm perm) ∧ has (s.word (pgnum (s.word g (pdx la))) (ptx la)) (hwPerm perm)

/-- So can it at `a`, a number that need not be an address. -/
def Accessible (s : Pm) (g : ℕ) (perm : Word) (a : ℕ) : Prop := a < 2^32 ∧ Allows s g perm (BitVec.ofNat 32 a)

/-- The test of `user_mem_check` for the page at `la`. -/
def Passes (s : Pm) (g : ℕ) (perm la : Word) : Prop :=
  la < ulim ∧ s.word g (pdx la) ≠ 0#32 ∧ pgnum (s.word g (pdx la)) < s.npages ∧
    has (s.word (pgnum (s.word g (pdx la))) (ptx la)) (perm ||| pteP)

/-- `KADDR` panics in `pgdir_walk`: the page table is not in memory. -/
def Panics (s : Pm) (g : ℕ) (la : Word) : Prop :=
  la < ulim ∧ s.word g (pdx la) ≠ 0#32 ∧ ¬ pgnum (s.word g (pdx la)) < s.npages

/-- The page of round `i`. -/
def checkPage (va : Word) (i : ℕ) : Word := rounddown va + BitVec.ofNat 32 (4096 * i)

def checkRounds (va len : Word) : ℕ := pageRounds (rounddown va) (roundup (va + len))

instance (s : Pm) (g : ℕ) (la : Word) : Decidable (Panics s g la) := inferInstanceAs (Decidable (_ ∧ _ ∧ _))

/-- What `user_mem_check` promises about the bytes from `va` to `va + len`, a sum of numbers that does not wrap around. -/
structure CheckSound (s : Pm) (g : ℕ) (va len perm : Word) : Prop where
  ok : ∀ s', userMemCheck g va len perm s = .ret (.ok ()) s' →
    ∀ a, va.toNat ≤ a → a < va.toNat + len.toNat → Accessible s g perm a
  fault : ∀ bad s', userMemCheck g va len perm s = .ret (.error bad) s' → 0 < len.toNat →
    va.toNat ≤ bad.toNat ∧ bad.toNat < va.toNat + len.toNat ∧ ¬ Accessible s g perm bad.toNat ∧
      ∀ a, va.toNat ≤ a → a < bad.toNat → Accessible s g perm a

/-- The end of the range is not rounded up to 0, unless a page before it is refused; no page passes whose directory entry is more
restrictive than its table entry; and no page is refused for a bit at which the hardware does not look. -/
structure CheckExact (s : Pm) (g : ℕ) (va len perm : Word) : Prop where
  fits : (∀ i < checkRounds va len, Passes s g perm (checkPage va i)) → va.toNat + len.toNat + 4096 ≤ 2^32
  dir : ∀ i < checkRounds va len, (∀ j ≤ i, Passes s g perm (checkPage va j)) →
    has (s.word g (pdx (checkPage va i))) (hwPerm perm)
  bits : ∀ i < checkRounds va len, (∀ j < i, Passes s g perm (checkPage va j)) → Allows s g perm (checkPage va i) →
    Passes s g perm (checkPage va i)

/-- The check does not return. -/
def CheckPanics (s : Pm) (g : ℕ) (va len perm : Word) : Prop :=
  ∃ i < checkRounds va len, (∀ j < i, Passes s g perm (checkPage va j)) ∧ Panics s g (checkPage va i)

section Rounds

variable {s : Pm} {g n : ℕ} {va len perm la la' : Word} {i a : ℕ}

theorem userMemCheckFrom_pass {n : ℕ} {address : Word} (h : Passes s g perm address) :
    userMemCheckFrom g va perm (n + 1) address s = userMemCheckFrom g va perm n (address + 4096#32) s := by
  obtain ⟨hlim, hpde, htable, hpte⟩ := h
  rw [userMemCheckFrom, if_neg (BitVec.not_le.mpr hlim), Routine.bind_ret (by rw [pgdirWalk_false, if_neg hpde, if_pos htable])]
  change (if has (s.word _ _) _ then _ else _ : Routine Pm (Except Word Unit)) s = _
  rw [if_pos hpte]

/-- A page that does not pass is the last one. -/
theorem userMemCheckFrom_stop {n : ℕ} {address : Word} (h : ¬ Passes s g perm address) :
    userMemCheckFrom g va perm (n + 1) address s =
      if Panics s g address then .halt else .ret (.error (if address < va then va else address)) s := by
  rw [userMemCheckFrom]
  by_cases hlim : ulim ≤ address
  · have hno : ¬ Panics s g address := fun hpanic => BitVec.not_le.mpr hpanic.1 hlim
    rw [if_pos hlim, if_neg hno]
    rfl
  have hlt : address < ulim := BitVec.not_le.mp hlim
  rw [if_neg hlim]
  by_cases hpde : s.word g (pdx address) = 0#32
  · have hno : ¬ Panics s g address := fun hpanic => hpanic.2.1 hpde
    rw [Routine.bind_ret (by rw [pgdirWalk_false, if_pos hpde]), if_neg hno]
    rfl
  by_cases htable : pgnum (s.word g (pdx address)) < s.npages
  · have hno : ¬ Panics s g address := fun hpanic => hpanic.2.2 htable
    rw [Routine.bind_ret (by rw [pgdirWalk_false, if_neg hpde, if_pos htable]), if_neg hno]
    change (if has (s.word _ _) _ then _ else _ : Routine Pm (Except Word Unit)) s = _
    rw [if_neg fun hpte => h ⟨hlt, hpde, htable, hpte⟩]
    rfl
  · rw [Routine.bind_halt (by rw [pgdirWalk_false, if_neg hpde, if_neg htable]), if_pos ⟨hlt, hpde, htable⟩]

/-- The loop stops at the first page that does not pass, if there is one. -/
theorem userMemCheckFrom_run (n : ℕ) : ∀ address : Word,
    (∃ i < n, (∀ j < i, Passes s g perm (address + BitVec.ofNat 32 (4096 * j))) ∧
      ¬ Passes s g perm (address + BitVec.ofNat 32 (4096 * i)) ∧
      userMemCheckFrom g va perm n address s =
        if Panics s g (address + BitVec.ofNat 32 (4096 * i)) then .halt
        else .ret (.error
          (if address + BitVec.ofNat 32 (4096 * i) < va then va else address + BitVec.ofNat 32 (4096 * i))) s) ∨
    (∀ i < n, Passes s g perm (address + BitVec.ofNat 32 (4096 * i))) ∧ userMemCheckFrom g va perm n address s = .ret (.ok ()) s := by
  induction n with
  | zero =>
    intro address
    exact Or.inr ⟨fun i hi => absurd hi (Nat.not_lt_zero i), rfl⟩
  | succ n ih =>
    intro address
    have hzero : address + BitVec.ofNat 32 (4096 * 0) = address := BitVec.add_zero address
    have hsucc (i : ℕ) : address + BitVec.ofNat 32 (4096 * (i + 1)) = address + 4096#32 + BitVec.ofNat 32 (4096 * i) := by
      rw [Nat.mul_succ, Nat.add_comm, BitVec.ofNat_add, ← BitVec.add_assoc]
    by_cases hpass : Passes s g perm address
    · rw [userMemCheckFrom_pass hpass]
      rcases ih (address + 4096#32) with ⟨i, hi, hbefore, hstop, hret⟩ | ⟨hall, hret⟩
      · refine Or.inl ⟨i + 1, Nat.succ_lt_succ hi, fun j hj => ?_, ?_, ?_⟩
        · cases j with
          | zero => rwa [hzero]
          | succ j =>
            rw [hsucc]
            exact hbefore j (Nat.lt_of_succ_lt_succ hj)
        · rwa [hsucc]
        · rw [hret, hsucc]
      · refine Or.inr ⟨fun i hi => ?_, hret⟩
        cases i with
        | zero => rwa [hzero]
        | succ i =>
          rw [hsucc]
          exact hall i (Nat.lt_of_succ_lt_succ hi)
    · refine Or.inl ⟨0, Nat.succ_pos n, fun j hj => absurd hj (Nat.not_lt_zero j), by rwa [hzero], ?_⟩
      rw [hzero]
      exact userMemCheckFrom_stop hpass

/-- Where the rounds are, and which bytes of the range they reach. -/
theorem checkRounds_spec (h : i < checkRounds va len) : (checkPage va i).toNat = va.toNat / 4096 * 4096 + 4096 * i ∧
    (checkPage va i).toNat < (va + len).toNat := by
  have hva := va.isLt
  unfold checkRounds pageRounds at h
  rw [rounddown_toNat] at h
  rcases Nat.lt_or_ge (2^32) ((va + len).toNat + 4096) with hwrap | hfits
  · rw [roundup_wrap hwrap] at h
    change i < (0 - _) / 4096 at h
    omega
  · rw [roundup_toNat hfits] at h
    change i < (_ - _) / 4096 at h
    have hpage : (checkPage va i).toNat = va.toNat / 4096 * 4096 + 4096 * i := by
      unfold checkPage
      rw [BitVec.toNat_add, rounddown_toNat, BitVec.toNat_ofNat]
      omega
    refine ⟨hpage, ?_⟩
    rw [hpage]
    omega

/-- The pages of the range, when it does not reach the end of the address space. -/
theorem exists_round (hfits : va.toNat + len.toNat + 4096 ≤ 2^32) (hva : va.toNat ≤ a) (ha : a < va.toNat + len.toNat) :
    ∃ i < checkRounds va len, (checkPage va i).toNat = a / 4096 * 4096 := by
  have hsum : (va + len).toNat = va.toNat + len.toNat := by
    rw [BitVec.toNat_add]
    omega
  refine ⟨a / 4096 - va.toNat / 4096, ?_, ?_⟩
  · unfold checkRounds pageRounds
    rw [rounddown_toNat, roundup_toNat (by omega), hsum]
    change _ < (_ - _) / 4096
    omega
  · unfold checkPage
    rw [BitVec.toNat_add, rounddown_toNat, BitVec.toNat_ofNat]
    omega

/-- All bytes of a page are alike. -/
theorem accessible_iff (hla : la.toNat = a / 4096 * 4096) : Accessible s g perm a ↔ Allows s g perm la := by
  have hlt := la.isLt
  have ha : a < 2^32 := by omega
  have hnat : (BitVec.ofNat 32 a).toNat = a := by
    rw [BitVec.toNat_ofNat, Nat.mod_eq_of_lt ha]
  have hdx : pdx (BitVec.ofNat 32 a) = pdx la := by
    rw [pdx_eq, pdx_eq, hnat]
    omega
  have htx : ptx (BitVec.ofNat 32 a) = ptx la := by
    rw [ptx_eq, ptx_eq, hnat]
    omega
  have hlim : BitVec.ofNat 32 a < ulim ↔ la < ulim := by
    rw [BitVec.lt_def, BitVec.lt_def, hnat]
    change a < 0xEF800000 ↔ la.toNat < 0xEF800000
    omega
  unfold Accessible Allows
  rw [hdx, htx, hlim]
  exact and_iff_right ha

theorem has_hwPerm {w : Word} (h : has w (perm ||| pteP)) : has w (hwPerm perm) := by
  refine has_mono h (has_iff.mpr fun i hi => ?_)
  unfold hwPerm at hi
  rw [BitVec.getLsbD_or, Bool.or_eq_true, BitVec.getLsbD_and, Bool.and_eq_true] at hi
  rw [BitVec.getLsbD_or, Bool.or_eq_true]
  exact hi.imp_left And.left

end Rounds

section Check

variable {s : Pm} {g : ℕ} {va len perm : Word} {i a : ℕ}

/-- The first byte of the range in the page of round `i`: `user_mem_check_addr`, if this page is refused. -/
def checkAddr (va : Word) (i : ℕ) : Word := if checkPage va i < va then va else checkPage va i

theorem checkAddr_toNat (va : Word) (i : ℕ) : (checkAddr va i).toNat = max va.toNat (checkPage va i).toNat := by
  unfold checkAddr
  split_ifs with h
  · rw [BitVec.lt_def] at h
    omega
  · rw [BitVec.lt_def] at h
    omega

theorem userMemCheck_run (s : Pm) (g : ℕ) (va len perm : Word) :
    (∃ i < checkRounds va len, (∀ j < i, Passes s g perm (checkPage va j)) ∧ ¬ Passes s g perm (checkPage va i) ∧
      userMemCheck g va len perm s = if Panics s g (checkPage va i) then .halt else .ret (.error (checkAddr va i)) s) ∨
    (∀ i < checkRounds va len, Passes s g perm (checkPage va i)) ∧ userMemCheck g va len perm s = .ret (.ok ()) s :=
  userMemCheckFrom_run (checkRounds va len) (rounddown va)

/-- What a page that passes has, but for its directory entry. -/
theorem Passes.allows {la : Word} (h : Passes s g perm la) (hdir : has (s.word g (pdx la)) (hwPerm perm)) : Allows s g perm la :=
  ⟨h.1, hdir, has_hwPerm h.2.2.2⟩

/-- The byte at which a round begins is in the range. -/
theorem checkAddr_range (hi : i < checkRounds va len) (hlen : 0 < len.toNat) :
    va.toNat ≤ (checkAddr va i).toNat ∧ (checkAddr va i).toNat < va.toNat + len.toNat ∧
      (checkPage va i).toNat = (checkAddr va i).toNat / 4096 * 4096 := by
  obtain ⟨hpage, hlt⟩ := checkRounds_spec hi
  have hsum : (va + len).toNat ≤ va.toNat + len.toNat := by
    rw [BitVec.toNat_add]
    exact Nat.mod_le _ _
  rw [checkAddr_toNat]
  omega

/-- The bytes before that are in the pages of the rounds before. -/
theorem exists_round_before (hi : i < checkRounds va len) (hva : va.toNat ≤ a) (ha : a < (checkAddr va i).toNat) :
    ∃ j < i, (checkPage va j).toNat = a / 4096 * 4096 := by
  obtain ⟨hpage, -⟩ := checkRounds_spec hi
  rw [checkAddr_toNat] at ha
  have hbefore : a / 4096 - va.toNat / 4096 < i := by omega
  refine ⟨a / 4096 - va.toNat / 4096, hbefore, ?_⟩
  rw [(checkRounds_spec (hbefore.trans hi)).1]
  omega

/-- When `user_mem_check` keeps its promise. -/
theorem checkSound_iff (s : Pm) (g : ℕ) (va len perm : Word) :
    CheckSound s g va len perm ↔ len = 0#32 ∨ CheckPanics s g va len perm ∨ CheckExact s g va len perm := by
  by_cases hzero : len = 0#32
  · subst hzero
    refine iff_of_true ⟨fun s' _ a hva ha => ?_, fun bad s' _ hlen => ?_⟩ (Or.inl rfl)
    · change a < va.toNat + 0 at ha
      omega
    · exact absurd hlen (Nat.lt_irrefl 0)
  have hlen : 0 < len.toNat := by
    apply Nat.pos_of_ne_zero
    intro h
    exact hzero (BitVec.eq_of_toNat_eq h)
  rw [or_iff_right hzero]
  rcases userMemCheck_run s g va len perm with ⟨i, hi, hbefore, hstop, hret⟩ | ⟨hall, hret⟩
  · obtain ⟨hfirst, hlast, hpage⟩ := checkAddr_range hi hlen
    by_cases hpanic : Panics s g (checkPage va i)
    · rw [if_pos hpanic] at hret
      refine iff_of_true ⟨fun s' hok => ?_, fun bad s' herr => ?_⟩ (Or.inl ⟨i, hi, hbefore, hpanic⟩)
      · cases hret.symm.trans hok
      · cases hret.symm.trans herr
    have hno : ¬ CheckPanics s g va len perm := by
      rintro ⟨j, hj, hpass, hpanic'⟩
      rcases Nat.lt_trichotomy j i with hji | rfl | hji
      · exact hpanic'.2.2 (hbefore j hji).2.2.1
      · exact hpanic hpanic'
      · exact hstop (hpass i hji)
    rw [if_neg hpanic] at hret
    rw [or_iff_right hno]
    constructor
    · intro h
      obtain ⟨-, -, hbad, hlow⟩ := h.fault _ s hret hlen
      refine ⟨fun hall => absurd (hall i hi) hstop, fun j hj hpass => ?_, fun j hj hpass hallows => ?_⟩
      · -- a page that passes comes before the one at which the check stops
        have hji : j < i := by
          by_contra hle
          exact hstop (hpass i (by omega))
        obtain ⟨hfirst', -, hpage'⟩ := checkAddr_range hj hlen
        have hlt : (checkAddr va j).toNat < (checkAddr va i).toNat := by
          have := (checkRounds_spec hi).1
          have := (checkRounds_spec hj).1
          rw [checkAddr_toNat, checkAddr_toNat]
          omega
        exact ((accessible_iff hpage').mp (hlow _ hfirst' hlt)).2.1
      · rcases Nat.lt_trichotomy j i with hji | rfl | hji
        · exact hbefore j hji
        · exact absurd ((accessible_iff hpage).mpr hallows) hbad
        · exact absurd (hpass i hji) hstop
    · intro h
      refine ⟨fun s' hok => ?_, fun bad s' herr _ => ?_⟩
      · cases hret.symm.trans hok
      · obtain ⟨heq, -⟩ := Outcome.ret.inj (hret.symm.trans herr)
        obtain rfl := Except.error.inj heq
        refine ⟨hfirst, hlast, fun hacc => ?_, fun a hva ha => ?_⟩
        · exact hstop (h.bits i hi hbefore ((accessible_iff hpage).mp hacc))
        · obtain ⟨j, hji, hpage'⟩ := exists_round_before hi hva ha
          refine (accessible_iff hpage').mpr ((hbefore j hji).allows ?_)
          exact h.dir j (by omega) fun j' hj' => hbefore j' (by omega)
  · have hno : ¬ CheckPanics s g va len perm := by
      rintro ⟨i, hi, -, hpanic⟩
      exact hpanic.2.2 (hall i hi).2.2.1
    rw [or_iff_right hno]
    constructor
    · intro h
      have hacc := h.ok s hret
      refine ⟨fun _ => ?_, fun i hi _ => ?_, fun i hi _ _ => hall i hi⟩
      · -- the last byte of the range is an address below `ULIM`
        obtain ⟨hlt, hlim, -⟩ := hacc (va.toNat + len.toNat - 1) (by omega) (by omega)
        rw [BitVec.lt_def, BitVec.toNat_ofNat, Nat.mod_eq_of_lt hlt] at hlim
        change _ < 0xEF800000 at hlim
        omega
      · obtain ⟨hfirst, hlast, hpage⟩ := checkAddr_range hi hlen
        exact ((accessible_iff hpage).mp (hacc _ hfirst hlast)).2.1
    · intro h
      refine ⟨fun s' _ a hva ha => ?_, fun bad s' herr _ => ?_⟩
      · obtain ⟨i, hi, hpage⟩ := exists_round (h.fits hall) hva ha
        exact (accessible_iff hpage).mpr ((hall i hi).allows (h.dir i hi fun j _ => hall j (by omega)))
      · cases hret.symm.trans herr

/-- A range at the end of the address space is let through. -/
theorem user_mem_check_wraps : ¬ ∀ (s : Pm) (g : ℕ) (va len perm : Word), CheckSound s g va len perm := by
  intro h
  let s : Pm := ⟨4, fun _ => ⟨none, 0⟩, none, 0, fun _ _ => 0#32⟩
  have hret : userMemCheck 0 0xFFFFFFF0#32 8#32 pteU s = .ret (.ok ()) s := rfl
  obtain ⟨-, hlim, -⟩ := (h s 0 0xFFFFFFF0#32 8#32 pteU).ok s hret 0xFFFFFFF0 (by decide) (by decide)
  exact absurd hlim (by decide)

end Check
end Sisop
