import Sisop.BootInvariant

/-! The regions of devices that are mapped at boot: the two that `check_page` maps and clears again, which leaves their
page table in `kern_pgdir`, and those of `lapic_init`. -/
namespace Sisop

open Routine (Triple)

section Rounds

variable {pse : Bool} {s t : Pm} {g size i : ℕ} {va pa perm : Word}

theorem mapFrom_done (hi : ¬ i < size) : mapFrom pse g va pa perm size i s = .ret () s := by
  rw [mapFrom, if_neg hi]
  rfl

theorem mapFrom_large (hi : i < size)
    (hl : LargeStep pse (va + BitVec.ofNat 32 i) (pa + BitVec.ofNat 32 i) (size - i)) :
    mapFrom pse g va pa perm size i s = mapFrom pse g va pa perm size (i + ptsize)
      (s.setWord g (pdx (va + BitVec.ofNat 32 i)) (pa + BitVec.ofNat 32 i ||| (perm ||| pteP ||| ptePS))) := by
  rw [mapFrom, if_pos hi, if_pos hl, mapLarge, Routine.modify_bind_run]

theorem mapFrom_small (hi : i < size)
    (hl : ¬ LargeStep pse (va + BitVec.ofNat 32 i) (pa + BitVec.ofNat 32 i) (size - i))
    (hm : mapSmall g (va + BitVec.ofNat 32 i) (pa + BitVec.ofNat 32 i) perm s = .ret () t) :
    mapFrom pse g va pa perm size i s = mapFrom pse g va pa perm size (i + pgsize) t := by
  rw [mapFrom, if_pos hi, if_neg hl, Routine.bind_ret hm]

/-- A round without `TP1_PSE`, at a known address. -/
theorem mapFrom_round {a b : Word} (hi : i < size) (ha : va + BitVec.ofNat 32 i = a) (hb : pa + BitVec.ofNat 32 i = b)
    (hm : mapSmall g a b perm s = .ret () t) :
    mapFrom false g va pa perm size i s = mapFrom false g va pa perm size (i + pgsize) t := by
  subst ha hb
  exact mapFrom_small hi (fun hl => Bool.false_ne_true hl.1) hm

end Rounds

section Call

variable {pse : Bool} {m m' : Mmio} {t : Pm} {pa size base : Word}

/-- What a call does that returns. -/
theorem mmioMapRegion_ret (h : mmioMapRegion pse pa size m = .ret base m') : base = m.base ∧
    ¬ mmiolim < m.base + roundup size ∧ ∃ t,
      mapRegion pse m.mem.kernPgdir m.base (roundup size).toNat pa mmioPerm m.mem = .ret () t ∧
      m' = ⟨t, m.base + roundup size⟩ := by
  simp only [mmioMapRegion, Routine.gets_bind_run, Routine.ite_run] at h
  by_cases hlim : mmiolim < m.base + roundup size
  · rw [if_pos hlim] at h
    cases h
  · rw [if_neg hlim] at h
    obtain ⟨_, m₁, hz, hrest⟩ := Routine.bind_eq_ret.mp h
    simp only [Routine.modify_bind_run, Routine.pure_run, Outcome.ret.injEq] at hrest
    unfold Routine.zoom at hz
    cases hm : mapRegion pse m.mem.kernPgdir m.base (roundup size).toNat pa mmioPerm m.mem with
    | ret u t =>
      rw [hm] at hz
      obtain ⟨-, rfl⟩ := Outcome.ret.inj hz
      exact ⟨hrest.1.symm, hlim, t, rfl, hrest.2.symm⟩
    | left t =>
      rw [hm] at hz
      cases hz
    | halt =>
      rw [hm] at hz
      cases hz

theorem mmioMapRegion_run (hlim : ¬ mmiolim < m.base + roundup size)
    (hm : mapRegion pse m.mem.kernPgdir m.base (roundup size).toNat pa mmioPerm m.mem = .ret () t) :
    mmioMapRegion pse pa size m = .ret m.base ⟨t, m.base + roundup size⟩ := by
  have hz : Routine.zoom Mmio.mem (fun t m => { m with mem := t })
      (mapRegion pse m.mem.kernPgdir m.base (roundup size).toNat pa mmioPerm) m = .ret () ⟨t, m.base⟩ := by
    unfold Routine.zoom
    rw [hm]
  simp only [mmioMapRegion, Routine.gets_bind_run, Routine.ite_run]
  rw [if_neg hlim, Routine.bind_ret hz]
  rfl

end Call

section Map

variable {s s' : Pm} {m m' : Mmio} {n size : ℕ} {va pa perm base lapicaddr : Word}

/-- `boot_map_region` as it is compiled without `TP1_PSE` always returns. -/
theorem Booting.mapFrom (h : Booting s n) (pa perm : Word) (hr : KernelRegion va size) (j : ℕ) :
    ∃ s', Sisop.mapFrom false s.kernPgdir va pa perm size (pgsize * j) s = .ret () s' ∧ Booting s' n ∧ Later s s' := by
  obtain ⟨k, hk⟩ : ∃ k, (size + pgsize - 1) / pgsize ≤ j + k := ⟨_, Nat.le_add_left _ _⟩
  induction k generalizing s j with
  | zero =>
    have hdone : ¬ pgsize * j < size := by
      unfold pgsize at hk ⊢
      omega
    exact ⟨s, mapFrom_done hdone, h, Later.refl s⟩
  | succ k ih =>
    by_cases hj : pgsize * j < size
    · have hround : j < (size + pgsize - 1) / pgsize := by
        unfold pgsize at hj ⊢
        omega
      obtain ⟨hd, hdu⟩ := hr.pdx hround
      obtain ⟨t, hrun, ht, hlater, -⟩ := h.mapSmall (pa + BitVec.ofNat 32 (pgsize * j)) perm hd hdu
      obtain ⟨s', hrest, hs', hlater'⟩ := ih ht (j + 1) (by omega)
      refine ⟨s', ?_, hs', hlater.trans hlater'⟩
      rw [mapFrom_round hj rfl rfl hrun, ← hlater.kern]
      exact hrest
    · exact ⟨s, mapFrom_done hj, h, Later.refl s⟩

theorem pdx_mmio {x : Word} (h : mmiobase ≤ x) (h' : x < mmiolim) : pdx x = pdx mmiobase := by
  have hd : pdx mmiobase = 958 := by decide
  rw [hd, pdx_eq]
  rw [BitVec.le_def] at h
  rw [BitVec.lt_def] at h'
  have hlim : mmiolim.toNat = 959 * 4194304 := rfl
  have hbase : mmiobase.toNat = 958 * 4194304 := rfl
  omega

/-- The window of the devices is filled from `base` on, and nothing else is wrong. -/
structure DevicesOk (s₀ : Pm) (n : ℕ) (m : Mmio) : Prop where
  booting : Booting m.mem n
  later : Later s₀ m.mem
  base_ge : mmiobase ≤ m.base
  base_le : m.base ≤ mmiolim
  aligned : m.base.toNat % 4096 = 0

variable {s₀ : Pm}

/-- A region of no more than 4 MB that passes the check lies in the window. -/
theorem DevicesOk.region (h : DevicesOk s₀ n m) {sz : Word} (hsize : sz.toNat ≤ 4194304)
    (hlim : ¬ mmiolim < m.base + roundup sz) :
    (m.base + roundup sz).toNat = m.base.toNat + (roundup sz).toNat ∧ KernelRegion m.base (roundup sz).toNat ∧
      (roundup sz).toNat % 4096 = 0 := by
  have hge := BitVec.le_def.mp h.base_ge
  have hle := BitVec.le_def.mp h.base_le
  have hlim' := BitVec.le_def.mp (BitVec.not_lt.mp hlim)
  have hb : mmiobase.toNat = 0xEF800000 := rfl
  have hl : mmiolim.toNat = 0xEFC00000 := rfl
  have hround : (roundup sz).toNat = (sz.toNat + 4095) / 4096 * 4096 := roundup_toNat (by omega)
  have hend : (m.base + roundup sz).toNat = m.base.toNat + (roundup sz).toNat := by
    rw [BitVec.toNat_add]
    exact Nat.mod_eq_of_lt (by omega)
  have hlow : utop.toNat ≤ mmiobase.toNat := by decide
  have hhigh : uvpt.toNat + ptsize ≤ mmiobase.toNat := by decide
  refine ⟨hend, ⟨hlow.trans hge, ?_, Or.inr (hhigh.trans hge)⟩, ?_⟩
  · omega
  · omega

theorem DevicesOk.advance (h : DevicesOk s₀ n m) {sz : Word} {t : Pm} (hsize : sz.toNat ≤ 4194304)
    (hlim : ¬ mmiolim < m.base + roundup sz) (hb : Booting t n) (hl : Later m.mem t) :
    DevicesOk s₀ n ⟨t, m.base + roundup sz⟩ := by
  obtain ⟨hend, -, hal⟩ := h.region hsize hlim
  have hge := BitVec.le_def.mp h.base_ge
  have haligned := h.aligned
  refine ⟨hb, h.later.trans hl, BitVec.le_def.mpr ?_, BitVec.not_lt.mp hlim, ?_⟩
  · change _ ≤ (m.base + roundup sz).toNat
    omega
  · change (m.base + roundup sz).toNat % 4096 = 0
    omega

/-- A small region is mapped, unless the window is full. -/
theorem DevicesOk.mmioMapRegion_cases (h : DevicesOk s₀ n m) (pa : Word) {sz : Word} (hsize : sz.toNat ≤ 4194304) :
    mmiolim < m.base + roundup sz ∧ mmioMapRegion false pa sz m = .halt ∨
      ∃ t, mmioMapRegion false pa sz m = .ret m.base ⟨t, m.base + roundup sz⟩ ∧ DevicesOk s₀ n ⟨t, m.base + roundup sz⟩ := by
  by_cases hlim : mmiolim < m.base + roundup sz
  · refine Or.inl ⟨hlim, ?_⟩
    simp only [mmioMapRegion, Routine.gets_bind_run, Routine.ite_run]
    rw [if_pos hlim]
    rfl
  · obtain ⟨-, hregion, -⟩ := h.region hsize hlim
    obtain ⟨t, hrun, ht, hlater⟩ := h.booting.mapFrom pa mmioPerm hregion 0
    exact Or.inr ⟨t, mmioMapRegion_run hlim hrun, h.advance hsize hlim ht hlater⟩

theorem DevicesOk.mmioMapRegion_ret (h : DevicesOk s₀ n m) {sz : Word} (hsize : sz.toNat ≤ 4194304)
    (hr : mmioMapRegion false pa sz m = .ret va m') : va = m.base ∧ m'.base = m.base + roundup sz ∧ DevicesOk s₀ n m' := by
  obtain ⟨-, hhalt⟩ | ⟨t, hrun, ht⟩ := h.mmioMapRegion_cases pa hsize
  · rw [hhalt] at hr
    cases hr
  · rw [hrun] at hr
    obtain ⟨rfl, rfl⟩ := Outcome.ret.inj hr
    exact ⟨rfl, rfl, ht⟩

theorem same_kaddr {P : Pm → Prop} {E : Pm → Prop} (pa : Word) : Triple P (kaddr pa) (fun _ => P) E := by
  apply Triple.intro
  intro s hs
  unfold kaddr
  split_ifs
  · exact hs
  · trivial

theorem same_checkVa2pa {P : Pm → Prop} {E : Pm → Prop} (va : Word) : Triple P (checkVa2pa va) (fun _ => P) E :=
  .bind (.gets_same _) fun _ => .ite_same (.pure fun _ h => h) (.ite_same (.pure fun _ h => h)
    (.bind (same_kaddr _) fun _ => .bind (.gets_same _) fun _ => .pure fun _ h => h))

/-- `pgdir_walk` finds the page table of a kernel address, or nothing. -/
theorem Booting.walkKern_cases (h : Booting s n) (hd : userPdes ≤ pdx va) (hdu : pdx va ≠ uvptPde) :
    s.word s.kernPgdir (pdx va) = 0#32 ∧ walkKern va s = .halt ∨
      ∃ p, s.word s.kernPgdir (pdx va) = pdeOf p ∧ slotMap s noDirs (.kpde ⟨pdx va, pdx_lt va⟩) = some p ∧
        walkKern va s = .ret ⟨p, ptx va⟩ s := by
  by_cases hz : s.word s.kernPgdir (pdx va) = 0#32
  · refine Or.inl ⟨hz, ?_⟩
    have hwalk : pgdirWalk s.kernPgdir va false s = .ret none s := by
      simp only [pgdirWalk, Routine.gets_bind_run, if_pos hz, Bool.false_eq_true, if_false, Routine.pure_run]
    simp only [walkKern, Routine.gets_bind_run, Routine.bind_ret hwalk, Routine.halt_run]
  · obtain ⟨p, hword, hs⟩ := h.filled ⟨pdx va, pdx_lt va⟩ hd hdu hz
    refine Or.inr ⟨p, hword, hs, ?_⟩
    simp only [walkKern, Routine.gets_bind_run,
      Routine.bind_ret (pgdirWalk_pde hword (h.inv.bound _ _ hs) h.inv.npages_le false), Routine.pure_run]

variable {E : Pm → Prop}

theorem booting_walkKern (hd : userPdes ≤ pdx va) (hdu : pdx va ≠ uvptPde) :
    Triple (fun s => Booting s n ∧ Later s₀ s) (walkKern va) (fun _ s => Booting s n ∧ Later s₀ s) E := by
  apply Triple.intro
  intro s hs
  obtain ⟨-, hrun⟩ | ⟨p, -, -, hrun⟩ := hs.1.walkKern_cases hd hdu
  · rw [hrun]
    trivial
  · rw [hrun]
    exact hs

theorem booting_clearKern (hd : userPdes ≤ pdx va) (hdu : pdx va ≠ uvptPde) :
    Triple (fun s => Booting s n ∧ Later s₀ s) (clearKern va) (fun _ s => Booting s n ∧ Later s₀ s) E := by
  apply Triple.intro
  intro s hs
  obtain ⟨hb, hl⟩ := hs
  unfold clearKern
  obtain ⟨-, hrun⟩ | ⟨p, -, hp, hrun⟩ := hb.walkKern_cases hd hdu
  · rw [Routine.bind_halt hrun]
    trivial
  · rw [Routine.bind_ret hrun]
    obtain ⟨hb', hl'⟩ := hb.storeTable hp (ptx va) (w := 0#32) fun _ => rfl
    exact ⟨hb', hl.trans hl'⟩

theorem same_panicUnless {P E : Pm → Prop} {p : Prop} [Decidable p] : Triple P (Routine.panicUnless p) (fun _ => P) E :=
  .ite_same (.pure fun _ h => h) .halt

/-- `check_page` clears what it has mapped in the window of the devices. -/
theorem booting_checkRegions {mm1 mm2 : Word} (h₁ : mmiobase ≤ mm1 ∧ mm1 < mmiolim)
    (h₁' : mmiobase ≤ mm1 + 4096#32 ∧ mm1 + 4096#32 < mmiolim) (h₂ : mmiobase ≤ mm2 ∧ mm2 < mmiolim) :
    Triple (fun s => Booting s n ∧ Later s₀ s) (checkRegions mm1 mm2) (fun _ s => Booting s n ∧ Later s₀ s) E := by
  have hpdx {x : Word} (hx : mmiobase ≤ x ∧ x < mmiolim) : userPdes ≤ pdx x ∧ pdx x ≠ uvptPde := by
    rw [pdx_mmio hx.1 hx.2]
    decide
  have hkept {x : Word} (hx : mmiobase ≤ x ∧ x < mmiolim) :
      Triple (fun s => Booting s n ∧ Later s₀ s) (clearKern x) (fun _ s => Booting s n ∧ Later s₀ s) E :=
    booting_clearKern (hpdx hx).1 (hpdx hx).2
  refine .bind same_panicUnless fun _ => .bind same_panicUnless fun _ => .bind same_panicUnless fun _ =>
    .bind same_panicUnless fun _ => ?_
  refine .bind (same_checkVa2pa _) fun _ => .bind same_panicUnless fun _ => .bind (same_checkVa2pa _) fun _ =>
    .bind same_panicUnless fun _ => .bind (same_checkVa2pa _) fun _ => .bind same_panicUnless fun _ =>
    .bind (same_checkVa2pa _) fun _ => .bind same_panicUnless fun _ => ?_
  refine .bind (booting_walkKern (hpdx h₁).1 (hpdx h₁).2) fun _ => .bind (.gets_same _) fun _ =>
    .bind same_panicUnless fun _ => .bind same_panicUnless fun _ => ?_
  exact .bind (hkept h₁) fun _ => .bind (hkept h₁') fun _ => hkept h₂

/-- `base` behind the three pages of `check_page`. -/
abbrev checkedBase : Word := 0xEF803000#32

/-- The end of `check_page` leaves nothing mapped, but `base` has moved on. -/
theorem Booting.checkMmio (h : Booting s n) (hr : Sisop.checkMmio ⟨s, mmiobase⟩ = .ret () m') :
    DevicesOk s n m' ∧ m'.base = checkedBase := by
  have h₀ : DevicesOk s n ⟨s, mmiobase⟩ := ⟨h, Later.refl s, BitVec.le_refl _, (by decide : mmiobase ≤ mmiolim),
    (by decide : mmiobase.toNat % 4096 = 0)⟩
  obtain ⟨mm1, m₁, hr₁, hr⟩ := Routine.bind_eq_ret.mp hr
  obtain ⟨rfl, hb₁, h₁⟩ := h₀.mmioMapRegion_ret (by decide) hr₁
  obtain ⟨mm2, m₂, hr₂, hr⟩ := Routine.bind_eq_ret.mp hr
  obtain ⟨rfl, hb₂, h₂⟩ := h₁.mmioMapRegion_ret (by decide) hr₂
  have hbase₁ : m₁.base = 0xEF802000#32 := by
    rw [hb₁]
    exact (by decide : mmiobase + roundup 4097#32 = 0xEF802000#32)
  have hbase₂ : m₂.base = checkedBase := by
    rw [hb₂, hbase₁]
    decide
  have hin : mmiobase ≤ m₁.base ∧ m₁.base < mmiolim := by
    rw [hbase₁]
    decide
  have hcheck : Triple (fun t => Booting t n ∧ Later s t) (checkRegions mmiobase m₁.base)
      (fun _ t => Booting t n ∧ Later s t) fun _ => True := booting_checkRegions (by decide) (by decide) hin
  have ht : Triple (fun m => m = m₂) (Routine.zoom Mmio.mem (fun t m => { m with mem := t }) (checkRegions mmiobase m₁.base))
      (fun _ m => DevicesOk s n m ∧ m.base = checkedBase) fun _ => True := by
    refine Triple.zoom hcheck ?_ ?_ fun _ _ _ _ => trivial
    · rintro m rfl
      exact ⟨h₂.booting, h₂.later⟩
    · rintro m _ t rfl hbl
      exact ⟨⟨hbl.1, hbl.2, h₂.base_ge, h₂.base_le, h₂.aligned⟩, hbase₂⟩
  exact ht.ret rfl hr

/-- `lapic_init` maps a page if there is a local APIC. -/
theorem DevicesOk.lapicInit_cases (h : DevicesOk s₀ n m) (lapicaddr : Word) :
    mmiolim < m.base + 4096#32 ∧ lapicInit lapicaddr m = .halt ∨
      ∃ m', lapicInit lapicaddr m = .ret () m' ∧ DevicesOk s₀ n m' ∧ (m'.base = m.base ∨ m'.base = m.base + 4096#32) := by
  have hround : roundup 4096#32 = 4096#32 := by decide
  by_cases hz : lapicaddr = 0#32
  · refine Or.inr ⟨m, ?_, h, Or.inl rfl⟩
    unfold lapicInit
    rw [if_pos hz]
    rfl
  · have hrun : lapicInit lapicaddr m = (mmioMapRegion false lapicaddr 4096#32 >>= fun _ => pure ()) m := by
      unfold lapicInit
      rw [if_neg hz]
    have hsmall : (4096#32 : Word).toNat ≤ 4194304 := by decide
    obtain ⟨hlim, hhalt⟩ | ⟨t, hmap, ht⟩ := h.mmioMapRegion_cases lapicaddr hsmall
    · rw [hround] at hlim
      exact Or.inl ⟨hlim, hrun.trans (Routine.bind_halt hhalt)⟩
    · refine Or.inr ⟨_, hrun.trans (Routine.bind_ret hmap), ht, Or.inr ?_⟩
      rw [hround]

theorem devicesOk_lapicInit {E : Mmio → Prop} (lapicaddr : Word) :
    Triple (DevicesOk s₀ n) (lapicInit lapicaddr) (fun _ => DevicesOk s₀ n) E := by
  apply Triple.intro
  intro m h
  obtain ⟨-, hrun⟩ | ⟨m', hrun, hm', -⟩ := h.lapicInit_cases lapicaddr
  · rw [hrun]
    trivial
  · rw [hrun]
    exact hm'

/-- There is room for the registers of `k` processors. -/
theorem DevicesOk.lapicInits (h : DevicesOk s₀ n m) (lapicaddr : Word) {k : ℕ} (hk : m.base.toNat + 4096 * k ≤ mmiolim.toNat) :
    ∃ m', Routine.loop k (fun _ => lapicInit lapicaddr) m = .ret () m' ∧ DevicesOk s₀ n m' ∧
      m'.base.toNat ≤ m.base.toNat + 4096 * k := by
  have hlimit : mmiolim.toNat = 0xEFC00000 := rfl
  refine Routine.loop_total (fun i t => DevicesOk s₀ n t ∧ t.base.toNat ≤ m.base.toNat + 4096 * i) k ⟨h, le_rfl⟩
    fun i t hi ⟨ht, hle⟩ => ?_
  have hnext : (t.base + 4096#32).toNat = t.base.toNat + 4096 := by bv_omega
  obtain ⟨hlim, -⟩ | ⟨t', hrun, ht', hbase⟩ := ht.lapicInit_cases lapicaddr
  · have := BitVec.lt_def.mp hlim
    omega
  · refine ⟨t', hrun, ht', ?_⟩
    rcases hbase with hbase | hbase
    · rw [hbase]
      omega
    · rw [hbase, hnext]
      omega

end Map

section MemInit

variable {s : Mmio} {t : Pm} {mach : Machine} {n : ℕ}

/-- Every state in which `mem_init` ends has the memory of `Booting`, and three pages of the window of the devices are gone. -/
theorem MemInit.devicesOk (h : MemInit mach s) : ∃ n, DevicesOk s.mem n s ∧ s.base = checkedBase := by
  obtain ⟨b₀, pages, envs, b₁, s₁, s₂, s₃, ha, ht₁, hc, hm, ht₂, hbase⟩ := h
  obtain ⟨kern, fin, hl, hfin, hb⟩ := memInitAlloc_ret ha
  obtain ⟨hboot, hn, -⟩ := hl.booting hfin b₀
  rw [← hb] at hboot hn
  obtain ⟨hboot₁, -⟩ := ht₁.booting hboot
  obtain ⟨hdev, hchecked⟩ := hboot₁.checkMmio hc
  obtain ⟨t, hrun, hboot₂, -, -⟩ := hdev.booting.memInitMaps pages envs (hdev.later.npages.trans (ht₁.npages.trans hn))
  rw [hm] at hrun
  obtain ⟨-, rfl⟩ := Outcome.ret.inj hrun
  refine ⟨_, ⟨(ht₂.booting hboot₂).1, Later.refl _, ?_, ?_, ?_⟩, hbase.trans hchecked⟩
  · rw [hbase, hchecked]
    decide
  · rw [hbase, hchecked]
    decide
  · rw [hbase, hchecked]
    decide

/-- `lapic_init` has run on the boot processor and on the `others`. -/
def DevicesMapped (lapicaddr : Word) (others : ℕ) (s : Mmio) (t : Pm) : Prop :=
  ∃ s₁ s₂, lapicInit lapicaddr s = .ret () s₁ ∧ Routine.loop others (fun _ => lapicInit lapicaddr) s₁ = .ret () s₂ ∧ t = s₂.mem

/-- The memory in which the boot processor creates the first environments. -/
def BootMem (mach : Machine) (t : Pm) : Prop := ∃ s lapicaddr others, MemInit mach s ∧ DevicesMapped lapicaddr others s t

theorem BootMem.booting (h : BootMem mach t) : ∃ n, Booting t n := by
  obtain ⟨s, lapicaddr, others, hm, s₁, s₂, h₁, h₂, rfl⟩ := h
  obtain ⟨n, hdev, -⟩ := hm.devicesOk
  have hdev₁ := (devicesOk_lapicInit (E := fun _ => True) lapicaddr).ret hdev h₁
  have hloop := Triple.loop (I := fun _ => DevicesOk s.mem n) (E := fun _ => True) others
    fun _ _ => devicesOk_lapicInit lapicaddr
  exact ⟨n, (hloop.ret hdev₁ h₂).booting⟩

/-- The memory invariant holds when the boot processor creates the first environments. -/
theorem BootMem.memInv (h : BootMem mach t) : MemInv t noDirs 0 := by
  obtain ⟨n, hb⟩ := h.booting
  exact hb.inv

end MemInit

/-- The page `p` is the page table of the devices, with the entries `f`. -/
structure DeviceTable (s : Pm) (p : ℕ) (f : ℕ → Word) : Prop where
  pde : s.word s.kernPgdir (pdx mmiobase) = pdeOf p
  bound : p < s.npages
  small : s.npages ≤ 2^20
  other : s.kernPgdir ≠ p
  entries : s.word p = f

section Run

variable {s : Pm} {p i size : ℕ} {f : ℕ → Word} {va pa perm w : Word}

theorem DeviceTable.store (h : DeviceTable s p f) (i : ℕ) (w : Word) :
    DeviceTable (s.setWord p i w) p (Function.update f i w) := by
  refine ⟨?_, h.bound, h.small, h.other, ?_⟩
  · change (s.setWord p i w).word s.kernPgdir _ = _
    rw [setWord_word_ne h.other]
    exact h.pde
  · simp only [Pm.setWord, Function.update_self, h.entries]

theorem DeviceTable.mapSmall (h : DeviceTable s p f) (va pa perm : Word) (hva : pdx va = pdx mmiobase) :
    Sisop.mapSmall s.kernPgdir va pa perm s = .ret () (s.setWord p (ptx va) (pa ||| (perm ||| pteP))) := by
  have hwalk := pgdirWalk_pde (hva ▸ h.pde) h.bound h.small true
  simp only [Sisop.mapSmall, Routine.bind_ret hwalk, Routine.modify_run]
  rfl

theorem DeviceTable.walkKern (h : DeviceTable s p f) (va : Word) (hva : pdx va = pdx mmiobase) :
    Sisop.walkKern va s = .ret ⟨p, ptx va⟩ s := by
  have hwalk := pgdirWalk_pde (hva ▸ h.pde) h.bound h.small false
  simp only [Sisop.walkKern, Routine.gets_bind_run, Routine.bind_ret hwalk, Routine.pure_run]

theorem DeviceTable.clearKern (h : DeviceTable s p f) (va : Word) (hva : pdx va = pdx mmiobase) :
    Sisop.clearKern va s = .ret () (s.setWord p (ptx va) 0#32) := by
  simp only [Sisop.clearKern, Routine.bind_ret (h.walkKern va hva), Routine.modify_run]
  rfl

theorem DeviceTable.checkVa2pa (h : DeviceTable s p f) (va : Word) (hva : pdx va = pdx mmiobase) :
    Sisop.checkVa2pa va s = .ret (if has (f (ptx va)) pteP then pteAddr (f (ptx va)) else ~~~0#32) s := by
  have hpde : s.word s.kernPgdir (pdx va) = pdeOf p := hva ▸ h.pde
  have hp20 : p < 2^20 := lt_of_lt_of_le h.bound h.small
  have hkaddr : kaddr (pteAddr (pdeOf p)) s = .ret p s := by
    unfold kaddr
    rw [pgnum_pteAddr, pgnum_pdeOf hp20, if_pos h.bound]
  simp only [Sisop.checkVa2pa, Routine.gets_bind_run, hpde]
  rw [if_neg (not_not.mpr (has_pteP_pdeOf p)), if_neg (not_has_ptePS_pdeOf p)]
  simp only [Routine.bind_ret hkaddr, Routine.gets_bind_run, Routine.pure_run, h.entries]

/-- A new page table for the devices. -/
theorem Booting.deviceTable {n : ℕ} (h : Booting s n) (hz : s.word s.kernPgdir (pdx mmiobase) = 0#32)
    (hf : s.pageFreeList = some p) : DeviceTable (s.newTable s.kernPgdir (pdx mmiobase) p) p (fun _ => 0#32) ∧
      ∀ va pa perm, pdx va = pdx mmiobase → Sisop.mapSmall s.kernPgdir va pa perm s =
        Sisop.mapSmall s.kernPgdir va pa perm (s.newTable s.kernPgdir (pdx mmiobase) p) := by
  obtain ⟨ha, hp, hb, hl, hs⟩ := h.newTable (d := ⟨pdx mmiobase, pdx_lt _⟩) (by decide) (by decide) hz hf
  have hpk : s.kernPgdir ≠ p := fun hk => hb.inv.kern _ (hs.trans (congrArg some hk.symm))
  have ht : DeviceTable (s.newTable s.kernPgdir (pdx mmiobase) p) p fun _ => 0#32 := by
    refine ⟨?_, hp, h.inv.npages_le, hpk, ?_⟩
    · change ((s.taken p).incRef p |>.setWord s.kernPgdir (pdx mmiobase) (pdeOf p)).word s.kernPgdir _ = _
      rw [setWord_word_self, if_pos rfl]
    · change ((s.taken p).incRef p |>.setWord s.kernPgdir (pdx mmiobase) (pdeOf p)).word p = _
      rw [setWord_word_ne hpk.symm]
      exact Function.update_self ..
  refine ⟨ht, fun va pa perm hva => ?_⟩
  have hzero : s.word s.kernPgdir (pdx va) = 0#32 := hva ▸ hz
  have hwalk := pgdirWalk_new hzero ha hp h.inv.npages_le
  rw [hva] at hwalk
  refine Eq.trans ?_ (ht.mapSmall va pa perm hva).symm
  simp only [Sisop.mapSmall, Routine.bind_ret hwalk, Routine.modify_run]
  rfl

/-- The assertions of `check_page` about its two regions hold. -/
theorem DeviceTable.checkRegions (h : DeviceTable s p f) (h₀ : f 0 = mmioPerm ||| pteP) (h₁ : f 1 = 4096#32 ||| (mmioPerm ||| pteP))
    (h₂ : f 2 = mmioPerm ||| pteP) (h₃ : f 3 = 0#32) :
    ∃ t, Sisop.checkRegions mmiobase 0xEF802000#32 s = .ret () t := by
  have hva₀ := h.checkVa2pa mmiobase rfl
  have hva₁ := h.checkVa2pa (mmiobase + 4096#32) (by decide)
  have hva₂ := h.checkVa2pa 0xEF802000#32 (by decide)
  have hva₃ := h.checkVa2pa (0xEF802000#32 + 4096#32) (by decide)
  rw [show ptx mmiobase = 0 by decide, h₀] at hva₀
  rw [show ptx (mmiobase + 4096#32) = 1 by decide, h₁] at hva₁
  rw [show ptx 0xEF802000#32 = 2 by decide, h₂] at hva₂
  rw [show ptx (0xEF802000#32 + 4096#32) = 3 by decide, h₃] at hva₃
  have hload : s.load ⟨p, ptx mmiobase⟩ = mmioPerm ||| pteP := by
    change s.word p (ptx mmiobase) = _
    rw [h.entries, show ptx mmiobase = 0 by decide, h₀]
  have hc₀ := h.store (ptx mmiobase) 0#32
  have hc₁ := hc₀.store (ptx (mmiobase + 4096#32)) 0#32
  unfold Sisop.checkRegions
  rw [Routine.panicUnless_bind (by decide), Routine.panicUnless_bind (by decide), Routine.panicUnless_bind (by decide),
    Routine.panicUnless_bind (by decide), Routine.bind_ret hva₀, Routine.panicUnless_bind (by decide), Routine.bind_ret hva₁,
    Routine.panicUnless_bind (by decide), Routine.bind_ret hva₂, Routine.panicUnless_bind (by decide), Routine.bind_ret hva₃,
    Routine.panicUnless_bind (by decide), Routine.bind_ret (h.walkKern mmiobase rfl), Routine.gets_bind_run, hload,
    Routine.panicUnless_bind (by decide), Routine.panicUnless_bind (by decide), Routine.bind_ret (h.clearKern mmiobase rfl),
    Routine.bind_ret (hc₀.clearKern (mmiobase + 4096#32) (by decide))]
  exact ⟨_, hc₁.clearKern 0xEF802000#32 (by decide)⟩

/-- `check_page` gets through its test of `mmio_map_region` when memory is left for the page table. -/
theorem Booting.checkMmio_run {n : ℕ} (h : Booting s n) (hn : nptentries < n)
    (hz : s.word s.kernPgdir (pdx mmiobase) = 0#32) : ∃ m', Sisop.checkMmio ⟨s, mmiobase⟩ = .ret () m' := by
  obtain ⟨p, hf⟩ := Option.ne_none_iff_exists'.mp (h.pageFreeList_ne hn)
  obtain ⟨ht, hnew⟩ := h.deviceTable hz hf
  have hk : (s.newTable s.kernPgdir (pdx mmiobase) p).kernPgdir = s.kernPgdir := rfl
  have hp₀ : ptx mmiobase = 0 := by decide
  have hp₁ : ptx (mmiobase + 4096#32) = 1 := by decide
  have hp₂ : ptx 0xEF802000#32 = 2 := by decide
  obtain ⟨t₁, hk₁, hm₁, ht₁⟩ : ∃ t₁, t₁.kernPgdir = s.kernPgdir ∧
      Sisop.mapSmall s.kernPgdir mmiobase 0#32 mmioPerm s = .ret () t₁ ∧
      DeviceTable t₁ p (Function.update (fun _ => 0#32) 0 (0#32 ||| (mmioPerm ||| pteP))) := by
    have hmap := ht.mapSmall mmiobase 0#32 mmioPerm rfl
    rw [hp₀] at hmap
    exact ⟨(s.newTable s.kernPgdir (pdx mmiobase) p).setWord p 0 (0#32 ||| (mmioPerm ||| pteP)), hk,
      (hnew mmiobase 0#32 mmioPerm rfl).trans hmap, ht.store 0 _⟩
  obtain ⟨t₂, hk₂, hm₂, ht₂⟩ : ∃ t₂, t₂.kernPgdir = s.kernPgdir ∧
      Sisop.mapSmall s.kernPgdir (mmiobase + 4096#32) 4096#32 mmioPerm t₁ = .ret () t₂ ∧
      DeviceTable t₂ p (Function.update (Function.update (fun _ => 0#32) 0 (0#32 ||| (mmioPerm ||| pteP))) 1
        (4096#32 ||| (mmioPerm ||| pteP))) := by
    have hmap := ht₁.mapSmall (mmiobase + 4096#32) 4096#32 mmioPerm (by decide)
    rw [hp₁, hk₁] at hmap
    exact ⟨t₁.setWord p 1 (4096#32 ||| (mmioPerm ||| pteP)), hk₁, hmap, ht₁.store 1 _⟩
  obtain ⟨t₃, hm₃, ht₃⟩ : ∃ t₃, Sisop.mapSmall s.kernPgdir 0xEF802000#32 0#32 mmioPerm t₂ = .ret () t₃ ∧
      DeviceTable t₃ p (Function.update (Function.update (Function.update (fun _ => 0#32) 0 (0#32 ||| (mmioPerm ||| pteP))) 1
        (4096#32 ||| (mmioPerm ||| pteP))) 2 (0#32 ||| (mmioPerm ||| pteP))) := by
    have hmap := ht₂.mapSmall 0xEF802000#32 0#32 mmioPerm (by decide)
    rw [hp₂, hk₂] at hmap
    exact ⟨t₂.setWord p 2 (0#32 ||| (mmioPerm ||| pteP)), hmap, ht₂.store 2 _⟩
  obtain ⟨t', hregions⟩ := ht₃.checkRegions (by simp) (by simp) (by simp) (by simp)
  have hr₁ : mapRegion false s.kernPgdir mmiobase (roundup 4097#32).toNat 0#32 mmioPerm s = .ret () t₂ := by
    rw [show (roundup 4097#32).toNat = 8192 by decide, mapRegion, mapFrom_round (by decide) (by decide) (by decide) hm₁,
      mapFrom_round (by decide) (by decide) (by decide) hm₂]
    exact mapFrom_done (by decide)
  have hr₂ : mapRegion false t₂.kernPgdir 0xEF802000#32 (roundup 4096#32).toNat 0#32 mmioPerm t₂ = .ret () t₃ := by
    rw [show (roundup 4096#32).toNat = 4096 by decide, hk₂, mapRegion, mapFrom_round (by decide) (by decide) (by decide) hm₃]
    exact mapFrom_done (by decide)
  have hc₁ := @mmioMapRegion_run false ⟨s, mmiobase⟩ t₂ 0#32 4097#32 (show ¬ mmiolim < mmiobase + roundup 4097#32 by decide) hr₁
  have hc₂ := @mmioMapRegion_run false ⟨t₂, 0xEF802000#32⟩ t₃ 0#32 4096#32 (show ¬ mmiolim < 0xEF802000#32 + roundup 4096#32 by decide) hr₂
  have hb₁ : mmiobase + roundup 4097#32 = 0xEF802000#32 := by decide
  change mmioMapRegion false 0#32 4097#32 ⟨s, mmiobase⟩ = .ret mmiobase ⟨t₂, mmiobase + roundup 4097#32⟩ at hc₁
  rw [hb₁] at hc₁
  refine ⟨⟨t', 0xEF802000#32 + roundup 4096#32⟩, ?_⟩
  unfold Sisop.checkMmio
  rw [Routine.bind_ret hc₁, Routine.bind_ret hc₂]
  unfold Routine.zoom
  rw [hregions]

end Run

section Layout

variable {m : Machine} {kern pages envs fin : ℕ}

/-- On a machine with memory for its tables `mem_init` does not panic. With more
pages left than `kern_pgdir` has entries, the kernel gets all its page tables. -/
theorem Machine.Layout.memInit (h : m.Layout kern pages envs fin) (hfin : fin ≤ m.npages * pgsize)
    (hn : nptentries + fin / pgsize < m.npages) :
    ∃ s, MemInit m s ∧ DevicesOk s.mem (m.npages - fin / pgsize) s ∧ s.base = checkedBase ∧
      ∃ p, slotMap s.mem noDirs (.kpde 960) = some p := by
  have hpages : 7 < fin / pgsize := by
    obtain ⟨h1, h2, h3⟩ := h.le
    have hge := le_roundupPage m.kernEnd
    rw [h.kernEq] at hge
    have := m.kernEnd_ge
    unfold pgsize at h1 ⊢
    omega
  obtain ⟨b₀⟩ : Nonempty Pm := ⟨⟨0, fun _ => ⟨none, 0⟩, none, 0, fun _ _ => 0⟩⟩
  obtain ⟨hboot, hnp, hzero⟩ := h.booting hfin b₀
  have hlen := @le_length_freePages 160 (fin / pgsize) (m.npages - 1) hpages
  have hboot' : Booting (m.allocPm b₀ kern fin) (m.npages - fin / pgsize) := by
    obtain ⟨l, hl, hsup⟩ := hboot.supply
    exact ⟨hboot.inv, hboot.filled, ⟨l, hl, by omega⟩, hboot.zeroFree, hboot.zeroRef, hboot.self⟩
  obtain ⟨s₂, hcheck⟩ := hboot'.checkMmio_run (by omega) (hzero _ (by decide))
  obtain ⟨hdev, hbase⟩ := hboot'.checkMmio hcheck
  obtain ⟨s, hrun, hs, -, hk⟩ := hdev.booting.memInitMaps pages envs (hdev.later.npages.trans hnp)
  refine ⟨⟨s, s₂.base⟩, ⟨b₀, pages, envs, _, _, s₂, s, memInitAlloc_run b₀ h hfin, SelfTested.refl _, hcheck, hrun,
    SelfTested.refl _, rfl⟩, ⟨hs, Later.refl s, hdev.base_ge, hdev.base_le, hdev.aligned⟩, hbase, hk (by omega)⟩

/-- With the local APIC at its usual address `lapic_init` finds room for eight processors. -/
theorem Machine.Layout.bootMem (h : m.Layout kern pages envs fin) (hfin : fin ≤ m.npages * pgsize)
    (hn : nptentries + fin / pgsize < m.npages) :
    ∃ t, BootMem m t ∧ Booting t (m.npages - fin / pgsize) ∧ ∃ p, slotMap t noDirs (.kpde 960) = some p := by
  obtain ⟨s, hinit, hdev, hbase, p, hp⟩ := h.memInit hfin hn
  have hlimit : mmiolim.toNat = 0xEFC00000 := rfl
  have hstart : s.base.toNat = 0xEF803000 := by
    rw [hbase]
    rfl
  obtain ⟨s₁, hone, hdev₁, hle₁⟩ := hdev.lapicInits 0xFEE00000#32 (k := 1) (by omega)
  obtain ⟨s₂, hothers, hdev₂, -⟩ := hdev₁.lapicInits 0xFEE00000#32 (k := 7) (by omega)
  have hfirst : lapicInit 0xFEE00000#32 s = .ret () s₁ := by
    simpa only [Routine.loop, Routine.pure_bind_run] using hone
  exact ⟨s₂.mem, ⟨s, _, 7, hinit, s₁, s₂, hfirst, hothers, rfl⟩, hdev₂.booting, p, hdev₂.later.tables _ _ hp⟩

end Layout
end Sisop
