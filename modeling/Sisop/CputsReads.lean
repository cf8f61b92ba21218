import Sisop.Cprintf
import Sisop.KernelSpace
import Sisop.UserMemCheck

/-! The bytes that `sys_cputs` reads, and when `user_mem_check` keeps it out of the kernel's memory. -/
namespace Sisop

/-- A page that is not for user code: it is at or above `ULIM`, or has no `PTE_U`. -/
def KernelMem (s : Pm) (g : ℕ) (la : Word) : Prop := ∃ t, translate s.word g la = some t ∧ (ulim ≤ la ∨ t.user = false)

/-- `sys_cputs` reads byte `i` of the string: the check lets the string pass, and `cprintf` does not come to an end with the
bytes before it. -/
def CputsReads (c : ℕ) (k : Kern) (va len : Word) (i : ℕ) : Prop :=
  ∃ e k' g, (k.cpus c).cpuEnv = some e ∧ userMemAssert c e va len pteU k = .ret () k' ∧ k'.dirs e = some g ∧
    i < (loadBytes k'.mem g (2^32) va).length ∧ cprintfChars va ((loadBytes k'.mem g (2^32) va).take i) len = none

/-- Before each byte of the kernel's memory there are more than `len` bytes, a NUL, or a byte that is not mapped; or the check
refuses the range, or the pointer is null. -/
def CputsBounded (s : Pm) (g : ℕ) (va len : Word) : Prop :=
  va = 0#32 ∨ (∃ i < checkRounds va len, ¬ Passes s g pteU (checkPage va i)) ∨
    ∀ i < 2^32, KernelMem s g (va + BitVec.ofNat 32 i) → 0 ≤ len.toInt ∧ len.toNat < i ∨
      ∃ j < i, loadByte s g (va + BitVec.ofNat 32 j) = none ∨ loadByte s g (va + BitVec.ofNat 32 j) = some 0#8

section Print

variable {chars : List (BitVec 8)} {va len : Word}

/-- The loop of `%s` runs out of characters if there is neither a NUL nor an end by the precision. -/
theorem printString_none (altflag : Bool) (p : List (BitVec 8)) (precision width : Word) :
    printString altflag p precision width = none ↔ 0#8 ∉ p ∧ (precision.toInt < 0 ∨ p.length ≤ precision.toNat) := by
  induction p generalizing precision width with
  | nil => exact iff_of_true rfl ⟨List.not_mem_nil, Or.inr (Nat.zero_le _)⟩
  | cons ch p ih =>
    have hlt := precision.isLt
    have hint := BitVec.toInt_eq_toNat_cond precision
    rw [printString, List.mem_cons, not_or, List.length_cons]
    dsimp only
    by_cases hnul : ch = 0#8
    · rw [if_neg fun h => h.1 hnul]
      exact iff_of_false (Option.some_ne_none _) fun h => h.1.1 hnul.symm
    have hrest (next : Word) (hgo : precision.toInt < 0 ∨ 0 ≤ next.toInt) :
        (if ch ≠ 0#8 ∧ (precision.toInt < 0 ∨ 0 ≤ next.toInt) then
          printString altflag p next (width - 1#32) >>= fun r =>
            some ((if altflag = true ∧ (ch < chr ' ' ∨ chr '~' < ch) then chr '?' else ch) :: r.1, r.2)
          else some ([], width)) = none ↔ printString altflag p next (width - 1#32) = none := by
      rw [if_pos ⟨hnul, hgo⟩]
      cases printString altflag p next (width - 1#32) with
      | none => exact iff_of_true rfl rfl
      | some r => exact iff_of_false (Option.some_ne_none _) (Option.some_ne_none _)
    have hch : ¬ 0#8 = ch := Ne.symm hnul
    by_cases hneg : precision.toInt < 0
    · rw [if_pos hneg, hrest _ (Or.inl hneg), ih, and_iff_right hch, iff_true_intro (Or.inl hneg : _ ∨ p.length ≤ _),
        iff_true_intro (Or.inl hneg : _ ∨ p.length + 1 ≤ _)]
    · rw [if_neg hneg]
      by_cases hend : precision = 0#32
      · rw [if_neg fun h => h.2.elim hneg (by rw [hend]; decide)]
        refine iff_of_false (Option.some_ne_none _) fun h => ?_
        have hlen := h.2.resolve_left hneg
        rw [hend] at hlen
        exact absurd hlen (Nat.not_succ_le_zero _)
      · have hpos : precision.toNat ≠ 0 := fun h => hend (BitVec.eq_of_toNat_eq h)
        have hsmall : precision.toNat < 2^31 := by omega
        have hnext : (precision - 1#32).toNat = precision.toNat - 1 := by bv_omega
        have hnext' : (precision - 1#32).toInt = precision.toNat - 1 := by
          rw [BitVec.toInt_eq_toNat_of_lt (by omega), hnext]
          omega
        have hnext₀ : ¬ (precision - 1#32).toInt < 0 := by omega
        have hlen : p.length ≤ precision.toNat - 1 ↔ p.length + 1 ≤ precision.toNat := by omega
        rw [hrest _ (Or.inr (Int.not_lt.mp hnext₀)), ih, and_iff_right hch, or_iff_right hneg, or_iff_right hnext₀, hnext, hlen]

/-- Only the loop of `%s` can run out of characters. -/
theorem cprintfChars_none : cprintfChars va chars len = none ↔
    va ≠ 0#32 ∧ 0#8 ∉ chars ∧ (len.toInt < 0 ∨ chars.length ≤ len.toNat) := by
  obtain ⟨p, hp⟩ : ∃ p, p = if va = 0#32 then cstring "(null)" else chars := ⟨_, rfl⟩
  have hstring : cprintfChars va chars len = none ↔ printString false p len 0#32 = none := by
    have hflags : cprintfChars va chars len = vprintfmt 2 (fun _ => chars) (fun i => if i = 0 then len else va)
        ⟨⟨[chr '*', chr '.', chr '%'], [chr 's', 0#8]⟩, 1, some (Cprintf.dotStar len), []⟩ := rfl
    have hconv : ∀ f : List (BitVec 8) → (ℕ → Word) → (Word → List (BitVec 8)) → Option (List (BitVec 8)),
        convert f (fun _ => chars) (fun i => if 1 + i = 0 then len else va) (Cprintf.dotStar len) (chr 's') =
          convertString (Cprintf.dotStar len) p >>= fun out => some (out, 1) := by
      intro f
      unfold convert
      rw [if_neg (by decide), if_neg (by decide), if_pos rfl, hp]
      rfl
    rw [hflags, vprintfmt]
    change (switchStep _ _ _ _ _ (chr 's') _ >>= _) = _ ↔ _
    unfold switchStep
    rw [if_neg (by decide), if_neg (by decide), if_neg (by decide), if_pos (by decide), hconv]
    have hconvert : convertString (Cprintf.dotStar len) p =
        (printString false p len 0#32).map fun r => r.1 ++ List.replicate r.2.toInt.toNat (chr ' ') := by
      have hwidth : ¬ (0 < (0#32).toInt ∧ chr ' ' ≠ chr '-') := by decide
      unfold convertString
      rw [show (Cprintf.dotStar len).width = 0#32 from rfl, show (Cprintf.dotStar len).padc = chr ' ' from rfl, if_neg hwidth]
      change (printString false p len 0#32 >>= _) = _
      cases printString false p len 0#32 with
      | none => rfl
      | some r => rfl
    rw [hconvert]
    cases printString false p len 0#32 with
    | none => exact iff_of_true rfl rfl
    | some r => exact iff_of_false (Option.some_ne_none _) (Option.some_ne_none _)
  rw [hstring, printString_none, hp]
  split_ifs with hnull
  · exact iff_of_false (fun h => h.1 (by decide)) fun h => h.1 hnull
  · exact (and_iff_right hnull).symm

end Print

section Loads

variable {s : Pm} {g : ℕ} {la : Word} {b : BitVec 8}

theorem loadBytes_getElem? (n i : ℕ) (la : Word) : (loadBytes s g n la)[i]? = some b ↔
    i < n ∧ (∀ j < i, (loadByte s g (la + BitVec.ofNat 32 j)).isSome) ∧ loadByte s g (la + BitVec.ofNat 32 i) = some b := by
  induction n generalizing la i with
  | zero => exact iff_of_false (Option.some_ne_none b).symm fun h => absurd h.1 (Nat.not_lt_zero i)
  | succ n ih =>
    have hzero : la + BitVec.ofNat 32 0 = la := BitVec.add_zero la
    have hsucc (j : ℕ) : la + BitVec.ofNat 32 (j + 1) = la + 1#32 + BitVec.ofNat 32 j := by
      rw [Nat.add_comm, BitVec.ofNat_add, ← BitVec.add_assoc]
    unfold loadBytes
    cases hb : loadByte s g la with
    | none =>
      refine iff_of_false (Option.some_ne_none b).symm fun ⟨_, hall, hlast⟩ => ?_
      cases i with
      | zero =>
        rw [hzero, hb] at hlast
        cases hlast
      | succ i =>
        have hfirst := hall 0 (Nat.succ_pos i)
        rw [hzero, hb] at hfirst
        cases hfirst
    | some b' =>
      cases i with
      | zero =>
        rw [List.getElem?_cons_zero, hzero, hb]
        exact ⟨fun h => ⟨Nat.succ_pos n, fun j hj => absurd hj (Nat.not_lt_zero j), h⟩, fun h => h.2.2⟩
      | succ i =>
        rw [List.getElem?_cons_succ, ih i (la + 1#32), Nat.succ_lt_succ_iff, hsucc i]
        refine and_congr_right fun _ => and_congr_left fun _ => ⟨fun h j hj => ?_, fun h j hj => ?_⟩
        · cases j with
          | zero =>
            rw [hzero, hb]
            rfl
          | succ j =>
            rw [hsucc j]
            exact h j (Nat.lt_of_succ_lt_succ hj)
        · rw [← hsucc j]
          exact h (j + 1) (Nat.succ_lt_succ hj)

/-- The bytes go on to the first one that cannot be read. -/
theorem lt_length_loadBytes {n i : ℕ} : i < (loadBytes s g n la).length ↔
    i < n ∧ ∀ j ≤ i, (loadByte s g (la + BitVec.ofNat 32 j)).isSome := by
  constructor
  · intro hi
    obtain ⟨b, hb⟩ : ∃ b, (loadBytes s g n la)[i]? = some b := ⟨_, List.getElem?_eq_getElem hi⟩
    obtain ⟨hlt, hall, hlast⟩ := (loadBytes_getElem? n i la).mp hb
    refine ⟨hlt, fun j hj => ?_⟩
    obtain rfl | hj' := Nat.eq_or_lt_of_le hj
    · rw [hlast]
      rfl
    · exact hall j hj'
  · rintro ⟨hlt, hall⟩
    obtain ⟨b, hb⟩ := Option.isSome_iff_exists.mp (hall i (Nat.le_refl i))
    have hb' := (loadBytes_getElem? n i la).mpr ⟨hlt, fun j hj => hall j (Nat.le_of_lt hj), hb⟩
    exact (List.getElem?_eq_some_iff.mp hb').1

theorem nul_not_mem_loadBytes {n i : ℕ} (hi : i < (loadBytes s g n la).length) :
    0#8 ∉ (loadBytes s g n la).take i ↔ ∀ j < i, loadByte s g (la + BitVec.ofNat 32 j) ≠ some 0#8 := by
  obtain ⟨hlt, hall⟩ := lt_length_loadBytes.mp hi
  rw [List.mem_iff_getElem?]
  constructor
  · intro hno j hj hload
    have hj' := (loadBytes_getElem? n j la).mpr ⟨by omega, fun l hl => hall l (by omega), hload⟩
    exact hno ⟨j, by rw [List.getElem?_take_of_lt hj]; exact hj'⟩
  · rintro hno ⟨j, hj⟩
    obtain ⟨hlen, -⟩ := List.getElem?_eq_some_iff.mp hj
    rw [List.length_take] at hlen
    have hji : j < i := by omega
    rw [List.getElem?_take_of_lt hji] at hj
    exact hno j hji ((loadBytes_getElem? n j la).mp hj).2.2

end Loads

section Call

variable {k k' : Kern} {c g : ℕ} {e : EnvIdx} {va len : Word}

/-- `env_destroy` of the current environment does not return. -/
theorem envDestroy_current (hcur : (k.cpus c).cpuEnv = some e) : envDestroy c e k ≠ .ret () k' := by
  intro h
  unfold envDestroy at h
  rw [Routine.gets_bind_run, decide_eq_false fun hne => hne.2 hcur] at h
  obtain ⟨_, t, hfree, h⟩ := Routine.bind_eq_ret.mp h
  obtain ⟨_, _, m, -, -, -, rfl⟩ := envFree_ret hfree
  have hcur' : ((k.freed e m).cpus c).cpuEnv = some e := hcur
  rw [Routine.gets_bind_run, if_pos (decide_eq_true hcur'), Routine.modify_bind_run] at h
  have hyield : Routine.Triple (fun _ => True) (schedYield c) (fun _ _ => False) fun _ => True :=
    SpaceSteady.schedYield fun _ _ _ _ => trivial
  exact hyield.ret trivial h

theorem userMemAssert_current (hcur : (k.cpus c).cpuEnv = some e) (hg : k.dirs e = some g) :
    userMemAssert c e va len pteU k = .ret () k' ↔ k' = k ∧ ∀ i < checkRounds va len, Passes k.mem g pteU (checkPage va i) := by
  unfold userMemAssert
  rw [Routine.bind_ret (envPgdir_run hg), show pteU ||| pteU = pteU from rfl]
  rcases userMemCheck_run k.mem g va len pteU with ⟨i, hi, -, hstop, hret⟩ | ⟨hall, hret⟩
  · refine iff_of_false (fun h => ?_) fun h => hstop (h.2 i hi)
    by_cases hpanic : Panics k.mem g (checkPage va i)
    · rw [if_pos hpanic] at hret
      rw [Routine.bind_halt (by unfold mem Routine.zoom; rw [hret])] at h
      cases h
    · rw [if_neg hpanic] at hret
      rw [Routine.bind_ret (mem_ret hret)] at h
      exact envDestroy_current hcur h
  · rw [Routine.bind_ret (mem_ret hret), and_iff_left hall]
    exact ⟨fun h => (Outcome.ret.inj h).2.symm, fun h => congrArg (Outcome.ret ()) h.symm⟩

theorem cputsReads_iff (hcur : (k.cpus c).cpuEnv = some e) (hg : k.dirs e = some g) (i : ℕ) : CputsReads c k va len i ↔
    va ≠ 0#32 ∧ (∀ j < checkRounds va len, Passes k.mem g pteU (checkPage va j)) ∧ i < 2^32 ∧
      (∀ j ≤ i, (loadByte k.mem g (va + BitVec.ofNat 32 j)).isSome) ∧
      (∀ j < i, loadByte k.mem g (va + BitVec.ofNat 32 j) ≠ some 0#8) ∧ (len.toInt < 0 ∨ i ≤ len.toNat) := by
  have hreads : CputsReads c k va len i ↔ (∀ j < checkRounds va len, Passes k.mem g pteU (checkPage va j)) ∧
      i < (loadBytes k.mem g (2^32) va).length ∧ cprintfChars va ((loadBytes k.mem g (2^32) va).take i) len = none := by
    constructor
    · rintro ⟨e', k', g', hcur', hassert, hg', hi, hprint⟩
      obtain rfl := Option.some.inj (hcur.symm.trans hcur')
      obtain ⟨rfl, hpass⟩ := (userMemAssert_current hcur hg).mp hassert
      obtain rfl := Option.some.inj (hg.symm.trans hg')
      exact ⟨hpass, hi, hprint⟩
    · rintro ⟨hpass, hi, hprint⟩
      exact ⟨e, k, g, hcur, (userMemAssert_current hcur hg).mpr ⟨rfl, hpass⟩, hg, hi, hprint⟩
  rw [hreads, cprintfChars_none, List.length_take]
  constructor
  · rintro ⟨hpass, hi, hva, hno, hlen⟩
    rw [Nat.min_eq_left (Nat.le_of_lt hi)] at hlen
    obtain ⟨hlt, hall⟩ := lt_length_loadBytes.mp hi
    exact ⟨hva, hpass, hlt, hall, (nul_not_mem_loadBytes hi).mp hno, hlen⟩
  · rintro ⟨hva, hpass, hlt, hall, hno, hlen⟩
    have hi := lt_length_loadBytes.mpr ⟨hlt, hall⟩
    rw [Nat.min_eq_left (Nat.le_of_lt hi)]
    exact ⟨hpass, hi, hva, (nul_not_mem_loadBytes hi).mpr hno, hlen⟩

/-- When `sys_cputs` stays out of the kernel's memory. -/
theorem cputsReads_bounded (hcur : (k.cpus c).cpuEnv = some e) (hg : k.dirs e = some g) :
    (∀ i, CputsReads c k va len i → ¬ KernelMem k.mem g (va + BitVec.ofNat 32 i)) ↔ CputsBounded k.mem g va len := by
  simp only [cputsReads_iff hcur hg]
  unfold CputsBounded
  by_cases hva : va = 0#32
  · exact iff_of_true (fun i h => absurd hva h.1) (Or.inl hva)
  rw [or_iff_right hva]
  by_cases hpass : ∀ j < checkRounds va len, Passes k.mem g pteU (checkPage va j)
  swap
  · refine iff_of_true (fun i h => absurd h.2.1 hpass) (Or.inl ?_)
    push Not at hpass
    exact hpass
  have hlet : ¬ ∃ i < checkRounds va len, ¬ Passes k.mem g pteU (checkPage va i) := fun ⟨i, hi, hno⟩ => hno (hpass i hi)
  rw [or_iff_right hlet]
  constructor
  · intro h i hlt hmem
    by_contra hno
    rw [not_or, not_and_or, not_exists] at hno
    obtain ⟨hlen, hbytes⟩ := hno
    have hbefore (j : ℕ) (hj : j < i) : (loadByte k.mem g (va + BitVec.ofNat 32 j)).isSome ∧
        loadByte k.mem g (va + BitVec.ofNat 32 j) ≠ some 0#8 := by
      have hbyte := hbytes j
      rw [not_and, not_or] at hbyte
      exact ⟨Option.isSome_iff_ne_none.mpr (hbyte hj).1, (hbyte hj).2⟩
    refine h i ⟨hva, hpass, hlt, fun j hj => ?_, fun j hj => (hbefore j hj).2, by omega⟩ hmem
    obtain rfl | hj' := Nat.eq_or_lt_of_le hj
    · obtain ⟨t, ht, -⟩ := hmem
      unfold loadByte
      rw [ht]
      rfl
    · exact (hbefore j hj').1
  · rintro h i ⟨-, -, hlt, hall, hno, hlen⟩ hmem
    obtain ⟨hpos, hbehind⟩ | ⟨j, hj, hnone | hnul⟩ := h i hlt hmem
    · omega
    · have hsome := hall j (Nat.le_of_lt hj)
      rw [hnone] at hsome
      cases hsome
    · exact hno j hj hnul

/-- When `user_mem_check` keeps its promise, and when `sys_cputs` stays out of the kernel's memory. -/
theorem user_mem_check_iff (s : Pm) (g : ℕ) (va len perm : Word) :
    (CheckSound s g va len perm ↔ len = 0#32 ∨ CheckPanics s g va len perm ∨ CheckExact s g va len perm) ∧
    ∀ (k : Kern) (c : ℕ) (e : EnvIdx), (k.cpus c).cpuEnv = some e → k.dirs e = some g →
      ((∀ i, CputsReads c k va len i → ¬ KernelMem k.mem g (va + BitVec.ofNat 32 i)) ↔ CputsBounded k.mem g va len) :=
  ⟨checkSound_iff s g va len perm, fun _ _ _ hcur hg => cputsReads_bounded hcur hg⟩

end Call

/-- One environment runs, with a page directory that has the first 4 MB of the kernel's mapping from 0xF2000000 on. -/
def cputsKern : Kern where
  mem := ⟨4, fun _ => ⟨none, 0⟩, none, 0, fun page i => if page = 1 ∧ i = 0x3C8 then 0x02000083#32 else 0#32⟩
  envs := fun _ => ⟨initialTf, none, 0x1000#32, 0#32, .user, .running, 1#32, 0, some 1, 0#32, false, 0#32, 0#32, 0#32, 0#32⟩
  envFreeList := none
  cpus := fun _ => ⟨.started, some (envAt 0), false⟩
  kernelLock := some 0

/-- `cprintf` reads a byte of the kernel's for an empty string. -/
theorem sys_cputs_reads_kernel :
    ∃ i, CputsReads 0 cputsKern 0xF2000000#32 0#32 i ∧ KernelMem cputsKern.mem 1 (0xF2000000#32 + BitVec.ofNat 32 i) := by
  have hiff := (user_mem_check_iff cputsKern.mem 1 0xF2000000#32 0#32 pteU).2 cputsKern 0 0 rfl rfl
  by_contra hno
  push Not at hno
  obtain hnull | ⟨i, hi, -⟩ | hbounded := hiff.mp hno
  · exact absurd hnull (by decide)
  · exact absurd hi (by decide +revert)
  · obtain ⟨-, hlt⟩ | ⟨j, hj, -⟩ := hbounded 0 (by decide) ⟨_, rfl, Or.inl (by decide)⟩
    · exact absurd hlt (Nat.lt_irrefl 0)
    · exact absurd hj (Nat.not_lt_zero j)

end Sisop
