import Sisop.BootHeap
import Sisop.MapRegion
import Sisop.PageSupply

/-! `mmio_map_region` of `kern/pmap.c` over any history of calls. Its limit check is made on
32-bit sums, after the size has been rounded up. -/
namespace Sisop

/-- The region that a call has returned. -/
structure MmioRegion where
  base : Word
  pa : Word
  size : Word

/-- The rest of the kernel leaves `kern_pgdir` and its page tables as they are. -/
structure KeepsTables (s s' : Pm) : Prop where
  npages : s'.npages = s.npages
  kernPgdir : s'.kernPgdir = s.kernPgdir
  dir : s'.word s.kernPgdir = s.word s.kernPgdir
  notFree : ¬ s'.IsFree s.kernPgdir
  tables : ∀ d < nptentries, has (s.word s.kernPgdir d) pteP → ¬ has (s.word s.kernPgdir d) ptePS →
    s'.word (pgnum (s.word s.kernPgdir d)) = s.word (pgnum (s.word s.kernPgdir d)) ∧
      ¬ s'.IsFree (pgnum (s.word s.kernPgdir d))
  listed : ∃ l, Listed s' l

inductive MmioEvent where
  | mapped (r : MmioRegion)
  | other

/-- A call that returns, or whatever the kernel does in between. -/
inductive MmioStep (pse : Bool) : Mmio → MmioEvent → Mmio → Prop where
  | mapped {m m' : Mmio} {base : Word} (pa size : Word) (hr : mmioMapRegion pse pa size m = .ret base m') :
    MmioStep pse m (.mapped ⟨base, pa, size⟩) m'
  | other {m : Mmio} {t : Pm} (hk : KeepsTables m.mem t) : MmioStep pse m .other { m with mem := t }

/-- The call gets by with 32-bit arithmetic and with the memory that is left: neither the size
nor the end of the region wraps around, the device starts with a page, and the page table for
the devices is there or can be made. -/
structure MmioFits (m : Mmio) (pa size : Word) : Prop where
  size_le : size.toNat + pgsize ≤ 2^32
  sum_lt : m.base.toNat + (roundup size).toNat < 2^32
  aligned : size ≠ 0#32 → pa.toNat % pgsize = 0
  table : size ≠ 0#32 → m.mem.word m.mem.kernPgdir (pdx mmiobase) ≠ 0#32 ∨ m.mem.pageFreeList ≠ none

def FittingStep (pse : Bool) (m : Mmio) (e : MmioEvent) (m' : Mmio) : Prop :=
  MmioStep pse m e m' ∧ ∀ r, e = .mapped r → MmioFits m r.pa r.size

/-- No region has been returned yet, and `base` is anywhere in the window. The entry for the devices is empty, as at first,
or has a page table, as when `check_page` has mapped regions of its own and cleared their entries. -/
structure MmioStart (m : Mmio) : Prop where
  base_ge : mmiobase ≤ m.base
  base_le : m.base ≤ mmiolim
  aligned : m.base.toNat % 4096 = 0
  tables : RegionTables m.mem m.mem.kernPgdir mmiobase.toNat mmiolim.toNat
  listed : ∃ l, Listed m.mem l

/-- The regions returned in a history, the first one first. -/
def regionsOf (es : List MmioEvent) : List MmioRegion :=
  es.filterMap fun e => match e with
    | .mapped r => some r
    | .other => none

/-- The region lies between `MMIOBASE` and `MMIOLIM`, and is mapped page by page to the device,
uncached and not for the user. -/
structure DeviceMapped (s : Pm) (r : MmioRegion) : Prop where
  aligned : r.base.toNat % pgsize = 0
  above : mmiobase ≤ r.base
  below : r.base.toNat + r.size.toNat ≤ mmiolim.toNat
  mapped : ∀ x : Word, r.base ≤ x → x.toNat < r.base.toNat + r.size.toNat →
    translate s.word s.kernPgdir x = some ⟨r.pa + (x - r.base), true, false, true, true⟩

/-- The second region starts after the end of the first. -/
def MmioRegion.Before (r r' : MmioRegion) : Prop := r.base.toNat + r.size.toNat ≤ r'.base.toNat

/-- What holds after any fitting calls, from the memory `s₀` on. -/
structure MmioInv (s₀ : Pm) (rs : List MmioRegion) (m : Mmio) : Prop where
  kern : m.mem.kernPgdir = s₀.kernPgdir
  base_ge : mmiobase.toNat ≤ m.base.toNat
  base_le : m.base.toNat ≤ mmiolim.toNat
  aligned : m.base.toNat % 4096 = 0
  tables : RegionTables m.mem m.mem.kernPgdir m.base.toNat mmiolim.toNat
  listed : ∃ l, Listed m.mem l
  regions : ∀ r ∈ rs, DeviceMapped m.mem r ∧ r.base.toNat + r.size.toNat ≤ m.base.toNat
  order : rs.Pairwise MmioRegion.Before
  window : ∀ x : Word, mmiobase ≤ x → x < mmiolim → ¬ SelfMapped m.mem.word m.mem.kernPgdir x
  outside : ∀ x : Word, ¬ SelfMapped s₀.word s₀.kernPgdir x → ¬ SelfMapped m.mem.word m.mem.kernPgdir x ∧
    (x < mmiobase ∨ mmiolim ≤ x → translate m.mem.word m.mem.kernPgdir x = translate s₀.word s₀.kernPgdir x)

section Mmio

variable {pse : Bool} {m m' : Mmio} {s₀ t : Pm} {pa size base x : Word} {rs : List MmioRegion} {r : MmioRegion}
  {e : MmioEvent} {es : List MmioEvent}

theorem regionsOf_append_mapped (es : List MmioEvent) (r : MmioRegion) :
    regionsOf (es ++ [.mapped r]) = regionsOf es ++ [r] := by
  unfold regionsOf
  rw [List.filterMap_append]
  rfl

theorem regionsOf_append_other (es : List MmioEvent) : regionsOf (es ++ [.other]) = regionsOf es := by
  unfold regionsOf
  rw [List.filterMap_append]
  exact List.append_nil _

/-- All addresses of devices share one entry of the directory. -/
theorem covers_mmio {a d : ℕ} (ha : mmiobase.toNat ≤ a) (hc : Covers a mmiolim.toNat d) : d = pdx mmiobase := by
  have hpt : ptsize = 4194304 := rfl
  have hlim : mmiolim.toNat = 959 * 4194304 := rfl
  have hbase : mmiobase.toNat = 958 * 4194304 := rfl
  have hd : pdx mmiobase = 958 := by decide
  obtain ⟨h1, h2⟩ := hc
  rw [hpt] at h1 h2
  omega

/-- With its page table or a free page the region can be mapped. -/
theorem MmioInv.regionDir (h : MmioInv s₀ rs m)
    (ht : m.mem.word m.mem.kernPgdir (pdx mmiobase) ≠ 0#32 ∨ m.mem.pageFreeList ≠ none) :
    RegionDir m.mem m.mem.kernPgdir m.base.toNat mmiolim.toNat := by
  obtain ⟨l, hl⟩ := h.listed
  refine ⟨h.tables, l, hl, ?_⟩
  have hsub : ((Finset.range nptentries).filter fun d => Covers m.base.toNat mmiolim.toNat d ∧
      m.mem.word m.mem.kernPgdir d = 0#32) ⊆ {pdx mmiobase} := by
    intro d hd
    rw [Finset.mem_singleton]
    exact covers_mmio h.base_ge (Finset.mem_filter.mp hd).2.1
  rcases ht with hne | hfree
  · unfold Pm.emptyPdes
    rw [Finset.card_eq_zero.mpr]
    · exact Nat.zero_le _
    · apply Finset.eq_empty_of_forall_notMem
      intro d hd
      have hz := (Finset.mem_filter.mp hd).2.2
      rw [Finset.mem_singleton.mp (hsub hd)] at hz
      exact hne hz
  · cases l with
    | nil => exact absurd hl.chain hfree
    | cons p l =>
      apply le_trans (Finset.card_le_card hsub)
      rw [Finset.card_singleton, List.length_cons]
      exact Nat.le_add_left 1 _

theorem MmioInv.start (h : MmioStart m) : MmioInv m.mem [] m := by
  have hge := BitVec.le_def.mp h.base_ge
  have htables : RegionTables m.mem m.mem.kernPgdir m.base.toNat mmiolim.toNat :=
    h.tables.advance hge (fun _ _ => rfl) fun _ _ _ => rfl
  refine ⟨rfl, hge, BitVec.le_def.mp h.base_le, h.aligned, htables, h.listed, fun _ hr => absurd hr List.not_mem_nil, .nil,
    fun x hx hx' hself => ?_, fun x hx => ⟨hx, fun _ => rfl⟩⟩
  obtain ⟨hp, hps, hg⟩ := hself
  rw [pdx_mmio hx hx'] at hp hps hg
  rcases h.tables.entry (pdx mmiobase) (pdx_lt _) ⟨by decide, by decide⟩ with h0 | ht
  · exact ne_zero_of_has_pteP hp h0
  · exact ht.other hg

/-- What the rest of the kernel leaves alone is enough for all translations. -/
theorem KeepsTables.translate {s : Pm} (h : KeepsTables s t) (x : Word) :
    translate t.word t.kernPgdir x = translate s.word s.kernPgdir x := by
  rw [h.kernPgdir]
  apply translate_congr
  · rw [h.dir]
  · intro hp hps
    rw [(h.tables _ (pdx_lt x) hp hps).1]

theorem KeepsTables.selfMapped {s : Pm} (h : KeepsTables s t) (x : Word) :
    SelfMapped t.word t.kernPgdir x ↔ SelfMapped s.word s.kernPgdir x := by
  unfold SelfMapped
  rw [h.kernPgdir, h.dir]

theorem KeepsTables.regionTables {s : Pm} {a b : ℕ} (h : KeepsTables s t) (ht : RegionTables s s.kernPgdir a b) :
    RegionTables t t.kernPgdir a b := by
  rw [h.kernPgdir]
  constructor
  case npages_le =>
    rw [h.npages]
    exact ht.npages_le
  case notFree => exact h.notFree
  case inUse =>
    intro d hd hp hps
    rw [h.dir] at hp hps ⊢
    exact (h.tables d hd hp hps).2
  case entry =>
    intro d hd hc
    rw [h.dir]
    rcases ht.entry d hd hc with h0 | he
    · exact Or.inl h0
    · exact Or.inr ⟨he.1, he.2, he.3, he.4, h.npages ▸ he.5, he.6⟩
  case apart =>
    intro d d' hd hc hd' hne hp hp' hps'
    rw [h.dir] at hp hp' hps' ⊢
    exact ht.apart d d' hd hc hd' hne hp hp' hps'

theorem MmioInv.other (h : MmioInv s₀ rs m) (hk : KeepsTables m.mem t) : MmioInv s₀ rs { m with mem := t } := by
  refine ⟨hk.kernPgdir.trans h.kern, h.base_ge, h.base_le, h.aligned, hk.regionTables h.tables, hk.listed,
    fun r hr => ?_, h.order, fun x hx hx' hself => h.window x hx hx' ((hk.selfMapped x).mp hself), fun x hx => ?_⟩
  · obtain ⟨hd, hend⟩ := h.regions r hr
    refine ⟨⟨hd.aligned, hd.above, hd.below, fun x hx hx' => ?_⟩, hend⟩
    exact (hk.translate x).trans (hd.mapped x hx hx')
  · obtain ⟨hself, hsame⟩ := h.outside x hx
    exact ⟨fun hs => hself ((hk.selfMapped x).mp hs), fun hout => (hk.translate x).trans (hsame hout)⟩

/-- What the call does to the translations, also for an empty region. -/
theorem MmioInv.region_translate {t : Pm} (h : MmioInv s₀ rs m) (hfits : MmioFits m pa size)
    (hle : m.base.toNat + (roundup size).toNat ≤ mmiolim.toNat)
    (hm : mapRegion pse m.mem.kernPgdir m.base (roundup size).toNat pa mmioPerm m.mem = .ret () t) :
    t.kernPgdir = m.mem.kernPgdir ∧
      RegionTables t m.mem.kernPgdir (m.base.toNat + (roundup size).toNat) mmiolim.toNat ∧ (∃ l, Listed t l) ∧
      ∀ x, ¬ SelfMapped m.mem.word m.mem.kernPgdir x → ¬ SelfMapped t.word m.mem.kernPgdir x ∧
        Sisop.translate t.word m.mem.kernPgdir x =
          if m.base.toNat + 0 ≤ x.toNat ∧ x.toNat < m.base.toNat + (roundup size).toNat then
            some (regionTranslation m.base pa mmioPerm x)
          else Sisop.translate m.mem.word m.mem.kernPgdir x := by
  have hround : (roundup size).toNat = (size.toNat + 4095) / 4096 * 4096 := roundup_toNat hfits.size_le
  by_cases hz : size = 0#32
  · have h0 : (roundup size).toNat = 0 := by
      rw [hround, hz]
      rfl
    rw [h0, mapRegion, mapFrom_done (Nat.lt_irrefl 0)] at hm
    obtain ⟨-, rfl⟩ := Outcome.ret.inj hm
    rw [h0]
    refine ⟨rfl, h.tables, h.listed, fun x hx => ⟨hx, ?_⟩⟩
    rw [if_neg (by omega)]
  · have hlimit : mmiolim.toNat = 0xEFC00000 := rfl
    have hdir := h.regionDir (hfits.table hz)
    obtain ⟨t', hm', hkern, hreg, htr⟩ := mapFrom_run pse h.aligned (hfits.aligned hz)
      (by rw [hround]; exact Nat.mul_mod_left _ _) (by omega) hle (show mmioPerm.toNat < 4096 by decide)
      (Nat.zero_mod _) (Nat.zero_le _) hdir
    rw [mapRegion, hm'] at hm
    obtain ⟨-, rfl⟩ := Outcome.ret.inj hm
    obtain ⟨l, hl, -⟩ := hreg.supply
    exact ⟨hkern, hreg.toRegionTables, ⟨l, hl⟩, htr⟩

/-- A call that fits maps its region behind the others. -/
theorem MmioInv.mapped (h : MmioInv s₀ rs m) (hfits : MmioFits m pa size)
    (hr : mmioMapRegion pse pa size m = .ret base m') : MmioInv s₀ (rs ++ [⟨base, pa, size⟩]) m' := by
  obtain ⟨rfl, hlim, t, hm, rfl⟩ := mmioMapRegion_ret hr
  have hpg : pgsize = 4096 := rfl
  have hlimit : mmiolim.toNat = 0xEFC00000 := rfl
  have hbase : mmiobase.toNat = 0xEF800000 := rfl
  have hround : (roundup size).toNat = (size.toNat + 4095) / 4096 * 4096 := roundup_toNat hfits.size_le
  have hsum := hfits.sum_lt
  have hend : (m.base + roundup size).toNat = m.base.toNat + (roundup size).toNat := by
    rw [BitVec.toNat_add]
    exact Nat.mod_eq_of_lt hsum
  have hle : m.base.toNat + (roundup size).toNat ≤ mmiolim.toNat := by
    rw [← hend]
    exact BitVec.le_def.mp (BitVec.not_lt.mp hlim)
  have hge := h.base_ge
  have haligned := h.aligned
  obtain ⟨hkern, htables, hlisted, htr⟩ := h.region_translate hfits hle hm
  have hsize : size.toNat ≤ (roundup size).toNat := by
    rw [hround]
    omega
  refine ⟨hkern.trans h.kern, ?_, ?_, ?_, ?_, hlisted, fun r hr => ?_, ?_, fun x hx hx' => ?_, fun x hx => ?_⟩
  · apply le_trans hge
    change m.base.toNat ≤ (m.base + roundup size).toNat
    rw [hend]
    exact Nat.le_add_right _ _
  · change (m.base + roundup size).toNat ≤ mmiolim.toNat
    rw [hend]
    exact hle
  · rw [hend, hround]
    omega
  · rw [hend]
    change RegionTables t t.kernPgdir _ _
    rwa [hkern]
  · change DeviceMapped t r ∧ _ ≤ (m.base + roundup size).toNat
    rw [hend]
    rcases List.mem_append.mp hr with hr | hr
    · -- an earlier region ends before the new one
      obtain ⟨hd, hbefore⟩ := h.regions r hr
      refine ⟨⟨hd.aligned, hd.above, hd.below, fun x hx hx' => ?_⟩, by omega⟩
      have hxlim : x < mmiolim := by
        rw [BitVec.lt_def]
        have hbelow := hd.below
        omega
      have hself := h.window x (BitVec.le_trans hd.above hx) hxlim
      rw [hkern, (htr x hself).2, if_neg (by omega)]
      exact hd.mapped x hx hx'
    · rw [List.mem_singleton.mp hr]
      refine ⟨⟨haligned, BitVec.le_def.mpr hge, ?_, fun x hx hx' => ?_⟩, ?_⟩
      · change m.base.toNat + size.toNat ≤ _
        omega
      · change m.base ≤ x at hx
        change x.toNat < m.base.toNat + size.toNat at hx'
        rw [BitVec.le_def] at hx
        have hself := h.window x (BitVec.le_def.mpr (by omega)) (BitVec.lt_def.mpr (by omega))
        rw [hkern, (htr x hself).2, if_pos (by omega)]
        rfl
      · change m.base.toNat + size.toNat ≤ _
        omega
  · rw [List.pairwise_append]
    refine ⟨h.order, List.pairwise_singleton _ _, fun r hr r' hr' => ?_⟩
    rw [List.mem_singleton.mp hr']
    exact (h.regions r hr).2
  · change ¬ SelfMapped t.word t.kernPgdir x
    rw [hkern]
    exact (htr x (h.window x hx hx')).1
  · obtain ⟨hself, hsame⟩ := h.outside x hx
    change ¬ SelfMapped t.word t.kernPgdir x ∧ (_ → Sisop.translate t.word t.kernPgdir x = _)
    rw [hkern]
    refine ⟨(htr x hself).1, fun hout => ?_⟩
    rw [(htr x hself).2, if_neg ?_]
    · exact hsame hout
    · rcases hout with hlow | hhigh
      · rw [BitVec.lt_def] at hlow
        omega
      · rw [BitVec.le_def] at hhigh
        omega

theorem MmioInv.step (h : MmioInv s₀ (regionsOf es) m) (hs : FittingStep pse m e m') :
    MmioInv s₀ (regionsOf (es ++ [e])) m' := by
  obtain ⟨hstep, hfits⟩ := hs
  cases hstep with
  | mapped pa size hr =>
    rw [regionsOf_append_mapped]
    exact h.mapped (hfits _ rfl) hr
  | other hk =>
    rw [regionsOf_append_other]
    exact h.other hk

/-- As long as every call fits, the regions lie between `MMIOBASE` and `MMIOLIM` one behind
the other, each is mapped to its device, and no other translation changes (the window at
`UVPT` aside, in which the page tables themselves are seen). -/
theorem mmio_regions (h0 : MmioStart m) (h : Run (FittingStep pse) m es m') :
    (∀ r ∈ regionsOf es, DeviceMapped m'.mem r) ∧ (regionsOf es).Pairwise MmioRegion.Before ∧
      ∀ x : Word, x < mmiobase ∨ mmiolim ≤ x → ¬ SelfMapped m.mem.word m.mem.kernPgdir x →
        Sisop.translate m'.mem.word m'.mem.kernPgdir x = Sisop.translate m.mem.word m.mem.kernPgdir x := by
  have hinv : MmioInv m.mem (regionsOf es) m' := by
    apply h.invariant (I := fun es m' => MmioInv m.mem (regionsOf es) m') (MmioInv.start h0)
    exact fun _ _ _ _ ht hs => ht.step hs
  exact ⟨fun r hr => (hinv.regions r hr).1, hinv.order, fun x hx hself => (hinv.outside x hself).2 hx⟩

end Mmio

section Boot

variable {s s₀ : Pm} {m : Mmio} {mach : Machine} {n : ℕ}

/-- What `mem_init` has set up lets regions be mapped in the window of the devices. -/
theorem Booting.regionTables (h : Booting s n) : RegionTables s s.kernPgdir mmiobase.toNat mmiolim.toNat := by
  obtain ⟨l, hl, -⟩ := h.supply
  have hnot : ¬ s.IsFree s.kernPgdir := fun hf => hl.kern ((hl.isFree_iff _).mp hf)
  have hslot {d : PteIdx} {p : ℕ} (hw : s.word s.kernPgdir d = pdeOf p) (hp : slotMap s noDirs (.kpde d) = some p) :
      pgnum (s.word s.kernPgdir d) = p := by
    rw [hw, pgnum_pdeOf (Nat.lt_of_lt_of_le (h.inv.bound _ _ hp) h.inv.npages_le)]
  -- an entry is empty, that of the window at `UVPT`, or refers to a page table
  have hcases (d : ℕ) (hd : d < nptentries) (hp : has (s.word s.kernPgdir d) pteP) : d = uvptPde ∨
      ∃ p, s.word s.kernPgdir d = pdeOf p ∧ slotMap s noDirs (.kpde ⟨d, hd⟩) = some p := by
    by_cases hlow : d < userPdes
    · exact absurd (h.inv.template ⟨d, hlow⟩) (ne_zero_of_has_pteP hp)
    · by_cases hself : d = uvptPde
      · exact Or.inl hself
      · exact Or.inr (h.filled ⟨d, hd⟩ (Nat.le_of_not_lt hlow) hself (ne_zero_of_has_pteP hp))
  have hdev {d : ℕ} (hc : Covers mmiobase.toNat mmiolim.toNat d) : d ≠ uvptPde := by
    rw [covers_mmio le_rfl hc]
    decide
  constructor
  case npages_le => exact h.inv.npages_le
  case notFree => exact hnot
  case inUse =>
    intro d hd hp _
    obtain rfl | ⟨p, hw, hp⟩ := hcases d hd hp
    · rw [h.self]
      exact hnot
    · rw [hslot hw hp]
      exact h.inv.not_isFree_of_slot hp
  case entry =>
    intro d hd hc
    by_cases hz : s.word s.kernPgdir d = 0#32
    · exact Or.inl hz
    · have hlow : userPdes ≤ d := by
        rw [covers_mmio le_rfl hc]
        decide
      obtain ⟨p, hw, hp⟩ := h.filled ⟨d, hd⟩ hlow (hdev hc) hz
      change s.word s.kernPgdir d = _ at hw
      rw [hw]
      exact Or.inr (tableEntry_pdeOf (h.inv.bound _ _ hp) h.inv.npages_le fun hk => h.inv.kern _ (hk ▸ hp))
  case apart =>
    intro d d' hd hc hd' hne hp hp' _
    obtain hself | ⟨p, hw, hp⟩ := hcases d hd hp
    · exact absurd hself (hdev hc)
    · rw [hslot hw hp]
      obtain rfl | ⟨q, hw', hq⟩ := hcases d' hd' hp'
      · rw [h.self]
        exact fun hk => h.inv.kern _ (hk ▸ hp)
      · rw [hslot hw' hq]
        rintro rfl
        have heq := h.inv.tally.slot_unique (show Slot.isTable (.kpde ⟨d', hd'⟩) from trivial) hq hp
        exact hne (congrArg Fin.val (Slot.kpde.inj heq))

theorem DevicesOk.mmioStart (h : DevicesOk s₀ n m) : MmioStart m := by
  obtain ⟨l, hl⟩ := h.booting.inv.free
  exact ⟨h.base_ge, h.base_le, h.aligned, h.booting.regionTables, l, hl.listed⟩

/-- The regions of the devices are mapped from the memory on that `mem_init` leaves. -/
theorem MemInit.mmioStart (h : MemInit mach m) : MmioStart m := by
  obtain ⟨n, hdev, -⟩ := h.devicesOk
  exact hdev.mmioStart

end Boot

/-- The directory in page 0 is empty, and one page is free. -/
theorem emptyDir_mmioStart : MmioStart ⟨emptyDir, mmiobase⟩ := by
  have hl := emptyDir_listed
  have hpres (d : ℕ) (hp : has (emptyDir.word 0 d) pteP) : False := ne_zero_of_has_pteP hp rfl
  refine ⟨by decide, by decide, by decide, ⟨(by decide : emptyDir.npages ≤ 2^20), ?_, fun d _ hp => (hpres d hp).elim,
    fun _ _ _ => Or.inl rfl, fun d _ _ _ _ _ hp => (hpres d hp).elim⟩, [3], hl⟩
  change ¬ emptyDir.IsFree 0
  rw [hl.isFree_iff]
  decide

/-- A size of 4 GB less one byte is rounded up to nothing and passes the check. -/
theorem mmio_wraps : MmioStart ⟨emptyDir, mmiobase⟩ ∧
    (∀ pse, mmioMapRegion pse 0#32 0xFFFFFFFF#32 ⟨emptyDir, mmiobase⟩ = .ret mmiobase ⟨emptyDir, mmiobase⟩) ∧
    ¬ DeviceMapped emptyDir ⟨mmiobase, 0#32, 0xFFFFFFFF#32⟩ := by
  refine ⟨emptyDir_mmioStart, fun pse => ?_, fun h => absurd h.below (by decide)⟩
  have hz : (roundup 0xFFFFFFFF#32).toNat = 0 := by decide
  apply mmioMapRegion_run (m := ⟨emptyDir, mmiobase⟩) (by decide)
  rw [hz, mapRegion]
  exact mapFrom_done (Nat.lt_irrefl 0)

/-- After the boot of a machine with 64 MB, the registers of the local APIC and two pages of another device. -/
theorem mmio_regions_lapic : ∃ s m', MemInit machine64 s ∧ Run (FittingStep false) s
      [.mapped ⟨checkedBase, 0xFEE00000#32, 4096#32⟩, .mapped ⟨checkedBase + 4096#32, 0xFEC00000#32, 5000#32⟩] m' ∧
    DeviceMapped m'.mem ⟨checkedBase, 0xFEE00000#32, 4096#32⟩ ∧
    DeviceMapped m'.mem ⟨checkedBase + 4096#32, 0xFEC00000#32, 5000#32⟩ := by
  have hl : machine64.Layout 0x180000 0x181000 0x1A1000 0x1C0000 := by
    constructor <;> decide
  obtain ⟨s, hinit, hdev, hbase, -⟩ := hl.memInit (by decide) (by decide)
  obtain ⟨hlim, -⟩ | ⟨t₁, hcall₁, hdev₁⟩ := hdev.mmioMapRegion_cases 0xFEE00000#32
    (show (4096#32 : Word).toNat ≤ 4194304 by decide)
  · rw [hbase] at hlim
    exact absurd hlim (by decide)
  rw [hbase] at hcall₁ hdev₁
  obtain ⟨hlim, -⟩ | ⟨t₂, hcall₂, -⟩ := hdev₁.mmioMapRegion_cases 0xFEC00000#32
    (show (5000#32 : Word).toNat ≤ 4194304 by decide)
  · exact absurd (show mmiolim < checkedBase + roundup 4096#32 + roundup 5000#32 from hlim) (by decide)
  have hfits (t : Pm) (b pa size : Word) (hb : Booting t (machine64.npages - 0x1C0000 / pgsize))
      (hsmall : size.toNat + pgsize ≤ 2^32 ∧ b.toNat + (roundup size).toNat < 2^32 ∧ pa.toNat % pgsize = 0) :
      MmioFits ⟨t, b⟩ pa size :=
    ⟨hsmall.1, hsmall.2.1, fun _ => hsmall.2.2, fun _ => Or.inr (hb.pageFreeList_ne (by decide))⟩
  obtain ⟨mem, base⟩ := s
  obtain rfl : base = checkedBase := hbase
  have hstep₁ : FittingStep false ⟨mem, checkedBase⟩ (.mapped ⟨checkedBase, 0xFEE00000#32, 4096#32⟩) _ :=
    ⟨.mapped _ _ hcall₁, fun r hr => by
      cases hr
      exact hfits _ _ _ _ hdev.booting (by decide)⟩
  have hstep₂ : FittingStep false _ (.mapped ⟨checkedBase + 4096#32, 0xFEC00000#32, 5000#32⟩) _ :=
    ⟨.mapped _ _ hcall₂, fun r hr => by
      cases hr
      exact hfits _ _ _ _ hdev₁.booting (by decide)⟩
  have hrun := (Run.single hstep₁).snoc hstep₂
  obtain ⟨hmapped, -⟩ := mmio_regions hinit.mmioStart hrun
  exact ⟨_, _, hinit, hrun, hmapped _ List.mem_cons_self, hmapped _ (List.mem_cons_of_mem _ List.mem_cons_self)⟩

end Sisop
