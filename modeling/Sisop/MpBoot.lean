import Sisop.MpConfig

/-! Which processor `mp_init` takes for the boot processor. -/
namespace Sisop

section Walk

variable {s t : Mp} {m : ByteMem} {n k : ℕ} {p proc : Word} {ps : List Word}

/-- The processor entries of the table that the loop comes to. -/
def procsFrom (m : ByteMem) : ℕ → Word → List Word
  | 0, _ => []
  | n+1, p =>
    if m p = 0#8 then p :: procsFrom m n (p + 20#32)
    else if m p ≤ 4#8 then procsFrom m n (p + 8#32)
    else []

/-- Boot processors are among those that have a place in `cpus`, when `n` are there already. -/
def BootInFront (m : ByteMem) (n : ℕ) (ps : List Word) : Prop :=
  ∀ k p, ps[k]? = some p → procBoot m p = true → n + k < ncpu

theorem bootInFront_nil (m : ByteMem) (n : ℕ) : BootInFront m n [] := nofun

theorem bootInFront_cons : BootInFront m n (p :: ps) ↔
    (procBoot m p = true → n < ncpu) ∧ BootInFront m (n + 1) ps := by
  constructor
  · intro h
    constructor
    · exact fun hb => h 0 p rfl hb
    · intro k q hk hb
      have hlt := h (k + 1) q hk hb
      omega
  · rintro ⟨h0, h⟩ k q hk hb
    cases k with
    | zero =>
      cases hk
      exact h0 hb
    | succ k =>
      have hlt := h k q hk hb
      omega

/-- It does not matter how many processors too many there are. -/
theorem bootInFront_min : BootInFront m (min ncpu n) ps ↔ BootInFront m n ps := by
  change BootInFront m (min 8 n) ps ↔ BootInFront m n ps
  have hlt (k : ℕ) : min 8 n + k < 8 ↔ n + k < 8 := by omega
  constructor
  · exact fun h k p hk hb => (hlt k).mp (h k p hk hb)
  · exact fun h k p hk hb => (hlt k).mpr (h k p hk hb)

/-- What the loop has done when it has come to the processors `ps`. -/
structure Walked (ps : List Word) (s t : Mp) : Prop where
  mem : t.mem = s.mem
  count : t.ncpu = min ncpu (s.ncpu + ps.length)
  outside : ∀ k, ncpu ≤ k → t.cpus k = s.cpus k
  boot : t.bootcpu < ncpu ↔ s.bootcpu < ncpu ∧ BootInFront s.mem s.ncpu ps

/-- The boot processor has a place as long as there are places. -/
def BootKept (s : Mp) : Prop := s.ncpu ≤ ncpu ∧ (s.ncpu < ncpu → s.bootcpu < ncpu)

theorem Walked.refl (h : s.ncpu ≤ ncpu) : Walked [] s s := by
  constructor
  case mem => rfl
  case count =>
    rw [List.length_nil]
    exact (Nat.min_eq_right h).symm
  case outside => exact fun _ _ => rfl
  case boot => exact (and_iff_left (bootInFront_nil _ _)).symm

/-- One processor. -/
theorem mpProc_walked (h : BootKept s) : ∃ t, mpProc proc s = .ret () t ∧ Walked [proc] s t ∧ BootKept t := by
  obtain ⟨hle, hboot⟩ := h
  have hone : BootInFront s.mem s.ncpu [proc] ↔ (procBoot s.mem proc = true → s.ncpu < ncpu) := by
    rw [bootInFront_cons]
    exact and_iff_left (bootInFront_nil _ _)
  change s.ncpu ≤ 8 at hle
  change s.ncpu < 8 → s.bootcpu < 8 at hboot
  obtain ⟨b, hb⟩ : ∃ b, b = if procBoot s.mem proc then s.ncpu else s.bootcpu := ⟨_, rfl⟩
  -- the choice of the boot processor, and then the place for this one
  have hfirst : mpProc proc s = (if s.ncpu < ncpu then
      Routine.modify fun u : Mp => { u.setId s.ncpu with ncpu := s.ncpu + 1 } else pure ()) { s with bootcpu := b } := by
    rw [hb, mpProc, Routine.gets_bind_run]
    by_cases hp : procBoot s.mem proc = true
    · simp only [hp, if_true]
      rfl
    · simp only [hp]
      rfl
  have hiff : b < 8 ↔ s.bootcpu < 8 ∧ (procBoot s.mem proc = true → s.ncpu < 8) := by
    rw [hb]
    split_ifs with hp
    · exact ⟨fun hlt => ⟨hboot hlt, fun _ => hlt⟩, fun hlt => hlt.2 hp⟩
    · exact ⟨fun hlt => ⟨hlt, fun hq => absurd hq hp⟩, fun hlt => hlt.1⟩
  rw [hfirst]
  by_cases hlt : s.ncpu < ncpu
  · rw [if_pos hlt]
    refine ⟨_, rfl, ⟨rfl, ?_, fun k hk => ?_, ?_⟩, ?_⟩
    · change s.ncpu + 1 = min 8 (s.ncpu + 1)
      change s.ncpu < 8 at hlt
      omega
    · exact Function.update_of_ne (Nat.ne_of_gt (Nat.lt_of_lt_of_le hlt hk)) _ _
    · rw [hone]
      exact hiff
    · refine ⟨hlt, fun _ => ?_⟩
      exact hiff.mpr ⟨hboot hlt, fun _ => hlt⟩
  · rw [if_neg hlt]
    refine ⟨_, rfl, ⟨rfl, ?_, fun _ _ => rfl, ?_⟩, ?_⟩
    · change s.ncpu = min 8 (s.ncpu + 1)
      change ¬ s.ncpu < 8 at hlt
      omega
    · rw [hone]
      exact hiff
    · exact ⟨hle, fun h => absurd h hlt⟩

theorem Walked.cons {u : Mp} (h : Walked [p] s t) (h' : Walked ps t u) : Walked (p :: ps) s u := by
  have hcount := h.count
  change t.ncpu = min ncpu (s.ncpu + 1) at hcount
  constructor
  case mem => exact h'.mem.trans h.mem
  case count =>
    rw [h'.count, hcount, List.length_cons]
    change min 8 (min 8 (s.ncpu + 1) + ps.length) = min 8 (s.ncpu + (ps.length + 1))
    omega
  case outside => exact fun k hk => (h'.outside k hk).trans (h.outside k hk)
  case boot =>
    rw [h'.boot, h.boot, h.mem, hcount, bootInFront_min, bootInFront_cons, bootInFront_cons, and_assoc]
    apply and_congr_right
    intro _
    rw [and_assoc]
    apply and_congr_right
    intro _
    exact and_iff_right (bootInFront_nil _ _)

/-- The loop, whatever the entries are. -/
theorem mpEntries_walked (h : BootKept s) :
    ∃ t, mpEntries n p s = .ret () t ∧ Walked (procsFrom s.mem n p) s t := by
  induction n generalizing s p with
  | zero => exact ⟨s, rfl, .refl h.1⟩
  | succ n ih =>
    rw [mpEntries, Routine.gets_bind_run, procsFrom]
    split_ifs with hproc hother
    · obtain ⟨t, hrun, hwalk, hkept⟩ := @mpProc_walked s p h
      obtain ⟨u, hrun', hwalk'⟩ := @ih t (p + 20#32) hkept
      rw [hwalk.mem] at hwalk'
      exact ⟨u, (Routine.bind_ret hrun).trans hrun', hwalk.cons hwalk'⟩
    · exact ih h
    · -- an unknown entry
      have hsame := Walked.refl h.1
      exact ⟨_, rfl, hsame.mem, hsame.count, hsame.outside, hsame.boot⟩

end Walk

section Init

variable {mem : ByteMem} {npages : ℕ} {imcr : BitVec 8} {mp conf : Word} {s : Mp}

/-- The state when `mp_init` is called. -/
def Mp.start (mem : ByteMem) (npages : ℕ) (imcr : BitVec 8) : Mp :=
  ⟨mem, npages, fun _ => ⟨0#8, .unused⟩, 0, false, 0, 0#32, imcr, 0#8⟩

/-- What `mp_init` is to leave in the variables. -/
structure MpInitOk (s t : Mp) : Prop where
  count : t.ncpu ≤ ncpu
  writes : ∀ k, ncpu ≤ k → t.cpus k = s.cpus k
  boot : t.bootcpu < ncpu
  started : (t.cpus t.bootcpu).cpuStatus = .started

theorem startBoot_outside {k : ℕ} (hb : s.bootcpu < ncpu) (hk : ncpu ≤ k) : s.startBoot.cpus k = s.cpus k :=
  Function.update_of_ne (Nat.ne_of_gt (Nat.lt_of_lt_of_le hb hk)) _ _

theorem startBoot_started (s : Mp) : (s.startBoot.cpus s.startBoot.bootcpu).cpuStatus = .started := by
  change (Function.update s.cpus s.bootcpu _ s.bootcpu).cpuStatus = _
  rw [Function.update_self]

/-- What comes after the loop changes neither `cpus` nor `bootcpu`. -/
theorem mpInit_run (h : mpconfig (Mp.start mem npages imcr) = .ret (some (mp, conf)) (Mp.start mem npages imcr)) :
    ∃ t u, mpInit (Mp.start mem npages imcr) = .ret () u ∧
      Walked (procsFrom mem (confEntry mem conf) (confEntries conf)) (Mp.start mem npages imcr) t ∧
      u.cpus = t.startBoot.cpus ∧ u.bootcpu = t.bootcpu ∧ (u.ncpu = t.ncpu ∨ u.ncpu = 1) := by
  obtain ⟨t, hrun, hwalk⟩ := @mpEntries_walked
    { Mp.start mem npages imcr with ismp := true, lapicaddr := confLapicaddr mem conf } (confEntry mem conf)
    (confEntries conf) ⟨Nat.zero_le _, fun _ => Nat.zero_lt_succ 7⟩
  have hinit : mpInit (Mp.start mem npages imcr) = (do
      Routine.modify Mp.startBoot
      let ismp ← Routine.gets Mp.ismp
      if ¬ ismp then
        Routine.modify fun s => { s with ncpu := 1, lapicaddr := 0#32 }
      else if mpImcrp mem mp ≠ 0#8 then
        Routine.modify fun s => { s with imcrSelect := 0x70#8, imcr := s.imcr ||| 1#8 }
      else
        pure () : Routine Mp Unit) t := by
    rw [mpInit, Routine.modify_bind_run]
    change (mpconfig >>= _) (Mp.start mem npages imcr) = _
    rw [Routine.bind_ret h]
    dsimp only
    rw [Routine.gets_bind_run, Routine.modify_bind_run]
    exact Routine.bind_ret hrun
  have hwalk' : Walked (procsFrom mem (confEntry mem conf) (confEntries conf)) (Mp.start mem npages imcr) t :=
    ⟨hwalk.mem, hwalk.count, hwalk.outside, hwalk.boot⟩
  rw [hinit, Routine.modify_bind_run, Routine.gets_bind_run]
  split_ifs
  · exact ⟨t, _, rfl, hwalk', rfl, rfl, Or.inl rfl⟩
  · exact ⟨t, _, rfl, hwalk', rfl, rfl, Or.inl rfl⟩
  · exact ⟨t, _, rfl, hwalk', rfl, rfl, Or.inr rfl⟩

/-- `mp_init` is right when no boot processor comes behind the first `NCPU`. -/
theorem mp_init_ok_iff
    (h : mpconfig (Mp.start mem npages imcr) = .ret (some (mp, conf)) (Mp.start mem npages imcr)) :
    (∃ t, mpInit (Mp.start mem npages imcr) = .ret () t ∧ MpInitOk (Mp.start mem npages imcr) t) ↔
      BootInFront mem 0 (procsFrom mem (confEntry mem conf) (confEntries conf)) := by
  obtain ⟨t, u, hrun, hwalk, hcpus, hboot, hcount⟩ := mpInit_run h
  have hiff := hwalk.boot.trans (and_iff_right (Nat.zero_lt_succ 7))
  constructor
  · rintro ⟨u', hrun', hok⟩
    obtain ⟨-, rfl⟩ := Outcome.ret.inj (hrun.symm.trans hrun')
    exact hiff.mp (hboot ▸ hok.boot)
  · intro hfront
    have hlt := hiff.mpr hfront
    refine ⟨u, hrun, ?_⟩
    constructor
    case count =>
      have hmin : t.ncpu ≤ ncpu := hwalk.count ▸ Nat.min_le_left _ _
      rcases hcount with heq | heq
      · exact heq ▸ hmin
      · rw [heq]
        decide
    case writes =>
      intro k hk
      rw [hcpus, startBoot_outside hlt hk, hwalk.outside k hk]
    case boot => exact hboot ▸ hlt
    case started =>
      rw [hcpus, hboot]
      exact startBoot_started t

/-- The floating pointer structure in the extended BIOS data area at `0x9FC00`, and the table
behind it at `0x9FD00`. -/
def biosTables (table : List (BitVec 8)) : ByteMem :=
  let data := writeBytes (fun _ => 0#8) (0x40E#32 + kernbase) [0xC0#8, 0x9F#8]
  let float := mpSignature ++ [0x00#8, 0xFD#8, 0x09#8, 0x00#8, 1#8, 4#8, 0x9A#8, 0#8, 0#8, 0#8, 0#8, 0#8]
  writeBytes (writeBytes data (0x9FC00#32 + kernbase) float) (0x9FD00#32 + kernbase) table

/-- The header of a table of `n` processors with its checksum. -/
def mpHeader (n length checksum : BitVec 8) : List (BitVec 8) :=
  pcmpSignature ++ [length, 0#8, 4#8, checksum] ++ List.replicate 26 0#8 ++ [n] ++ List.replicate 9 0#8

/-- The entry of a processor. -/
def mpProcBytes (flags : BitVec 8) : List (BitVec 8) := [0#8, 0#8, 0#8, flags] ++ List.replicate 16 0#8

/-- Nine processors, the last of which is the boot processor. -/
def ninthBoots : ByteMem :=
  biosTables (mpHeader 9#8 0xE0#8 0xD8#8 ++ (List.replicate 8 (mpProcBytes 1#8)).flatten ++ mpProcBytes 3#8)

/-- Two processors, and the second one is the boot processor. -/
def secondBoots : ByteMem :=
  biosTables (mpHeader 2#8 0x54#8 0x72#8 ++ mpProcBytes 1#8 ++ mpProcBytes 3#8)

theorem reads_mpKaddr (pa : Word) : Routine.Reads (mpKaddr pa) := by
  intro s a t h
  unfold mpKaddr at h
  split_ifs at h
  exact (Outcome.ret.inj h).2.symm

theorem reads_mpsearch1 (a len : Word) : Routine.Reads (mpsearch1 a len) :=
  .bind (reads_mpKaddr a) fun _ => .bind (reads_mpKaddr _) fun _ => .bind (.gets _) fun _ => .pure _

theorem reads_mpsearch : Routine.Reads mpsearch := by
  refine .bind (reads_mpKaddr _) fun bda => .bind (.gets _) fun m => ?_
  refine .ite (.bind (reads_mpsearch1 _ _) fun found => ?_) (.bind (reads_mpsearch1 _ _) fun found => ?_)
  all_goals
    cases found with
    | none => exact reads_mpsearch1 _ _
    | some mp => exact .pure _

theorem reads_mpconfig : Routine.Reads mpconfig := by
  refine .bind reads_mpsearch fun found => ?_
  cases found with
  | none => exact .pure _
  | some mp =>
    refine .bind (.gets _) fun m => .ite (.pure _) (.bind (reads_mpKaddr _) fun conf => ?_)
    exact .ite (.pure _) (.ite (.pure _) (.ite (.pure _) (.ite (.pure _) (.pure _))))

theorem mpconfig_accepts (h : (mpconfig s).value? = some (some (mp, conf))) :
    mpconfig s = .ret (some (mp, conf)) s := by
  obtain ⟨t, ht⟩ := Outcome.value?_eq_some.mp h
  rwa [reads_mpconfig s _ t ht] at ht

theorem mp_init_ninth : ∃ mem npages imcr mp conf,
    mpconfig (Mp.start mem npages imcr) = .ret (some (mp, conf)) (Mp.start mem npages imcr) ∧
      ¬ ∃ t, mpInit (Mp.start mem npages imcr) = .ret () t ∧ MpInitOk (Mp.start mem npages imcr) t := by
  refine ⟨ninthBoots, 256, 0#8, 0x9FC00#32 + kernbase, 0x9FD00#32 + kernbase, mpconfig_accepts (by decide +kernel), ?_⟩
  rintro ⟨t, hrun, hok⟩
  have hlast : ((mpInit >>= fun _ => Routine.gets Mp.bootcpu) (Mp.start ninthBoots 256 0#8)).value? = some 8 := by
    decide +kernel
  rw [Routine.bind_ret hrun] at hlast
  have hlast : t.bootcpu = 8 := Option.some.inj hlast
  have hlt := hok.boot
  rw [hlast] at hlt
  exact Nat.lt_irrefl _ hlt

theorem mp_init_second : ∃ t, mpInit (Mp.start secondBoots 256 0#8) = .ret () t ∧
    MpInitOk (Mp.start secondBoots 256 0#8) t := by
  have h : mpconfig (Mp.start secondBoots 256 0#8) =
      .ret (some (0x9FC00#32 + kernbase, 0x9FD00#32 + kernbase)) (Mp.start secondBoots 256 0#8) :=
    mpconfig_accepts (by decide +kernel)
  apply (mp_init_ok_iff h).mpr
  intro k p hk hb
  have hlen : (procsFrom secondBoots (confEntry secondBoots (0x9FD00#32 + kernbase))
    (confEntries (0x9FD00#32 + kernbase))).length = 2 := by decide +kernel
  have hlt := (List.getElem?_eq_some_iff.mp hk).1
  change 0 + k < 8
  omega

end Init
end Sisop
