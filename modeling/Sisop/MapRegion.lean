import Mathlib.Data.Finset.Card
import Sisop.BootDevices
import Sisop.InsertEffect

/-! `boot_map_region` as compiled with `TP1_PSE` and without it: the page directories
it makes translate every address alike. -/
namespace Sisop

/-- The address is translated through an entry that refers to the directory itself. -/
def SelfMapped (word : ℕ → ℕ → Word) (g : ℕ) (x : Word) : Prop :=
  has (word g (pdx x)) pteP ∧ ¬ has (word g (pdx x)) ptePS ∧ pgnum (word g (pdx x)) = g

/-- The page table of an entry as `pgdir_walk` makes it. It restricts nothing. -/
structure TableEntry (s : Pm) (g : ℕ) (pde : Word) : Prop where
  present : has pde pteP
  writable : has pde pteW
  user : has pde pteU
  small : ¬ has pde ptePS
  bound : pgnum pde < s.npages
  other : pgnum pde ≠ g

/-- Entry `d` of a page directory maps addresses in `[a, b)`. -/
def Covers (a b d : ℕ) : Prop := a / ptsize ≤ d ∧ d * ptsize < b

instance (a b d : ℕ) : Decidable (Covers a b d) := inferInstanceAs (Decidable (_ ∧ _))

/-- The page tables that `[a, b)` lacks. -/
def Pm.emptyPdes (s : Pm) (g a b : ℕ) : ℕ :=
  ((Finset.range nptentries).filter fun d => Covers a b d ∧ s.word g d = 0#32).card

/-- The entries of the directory `g` for `[a, b)` are empty or refer to page tables of their own. -/
structure RegionTables (s : Pm) (g a b : ℕ) : Prop where
  npages_le : s.npages ≤ 2^20
  notFree : ¬ s.IsFree g
  inUse : ∀ d < nptentries, has (s.word g d) pteP → ¬ has (s.word g d) ptePS → ¬ s.IsFree (pgnum (s.word g d))
  entry : ∀ d < nptentries, Covers a b d → s.word g d = 0#32 ∨ TableEntry s g (s.word g d)
  apart : ∀ d d', d < nptentries → Covers a b d → d' < nptentries → d' ≠ d → has (s.word g d) pteP → has (s.word g d') pteP →
    ¬ has (s.word g d') ptePS → pgnum (s.word g d') ≠ pgnum (s.word g d)

/-- The directory can be given mappings in `[a, b)`: memory is left for the page tables that
it lacks. -/
structure RegionDir (s : Pm) (g a b : ℕ) : Prop extends RegionTables s g a b where
  supply : ∃ l, Listed s l ∧ s.emptyPdes g a b ≤ l.length

/-- What an address of the region is to be translated to. -/
def regionTranslation (va pa perm x : Word) : Translation where
  pa := pa + (x - va)
  writable := has perm pteW
  user := has perm pteU
  cacheDisable := has perm ptePCD
  writeThrough := has perm ptePWT

section MapRegion

variable {s s' t : Pm} {g a a' b d p q : ℕ} {av pv perm pde x : Word} {w : ℕ → ℕ → Word} {l : List ℕ}

theorem Covers.of_advance (hd : Covers a' b d) (ha : a ≤ a') : Covers a b d :=
  ⟨le_trans (Nat.div_le_div_right ha) hd.1, hd.2⟩

/-- The region becomes shorter, and the entries that it leaves are of another kind or stay. -/
theorem RegionTables.advance (h : RegionTables s g a b) (ha : a ≤ a')
    (hpde : ∀ d, Covers a' b d → w g d = s.word g d)
    (hold : ∀ d, has (w g d) pteP → ¬ has (w g d) ptePS → w g d = s.word g d) :
    RegionTables { s with word := w } g a' b := by
  have hcov (d : ℕ) (hd : Covers a' b d) : Covers a b d := hd.of_advance ha
  constructor
  case npages_le => exact h.npages_le
  case notFree => exact h.notFree
  case inUse =>
    intro d hd hp hps
    change has (w g d) pteP at hp
    change ¬ has (w g d) ptePS at hps
    change ¬ s.IsFree (pgnum (w g d))
    have heq := hold d hp hps
    rw [heq] at hp hps ⊢
    exact h.inUse d hd hp hps
  case entry =>
    intro d hd hc
    change w g d = 0#32 ∨ TableEntry _ g (w g d)
    rw [hpde d hc]
    rcases h.entry d hd (hcov d hc) with h0 | ht
    · exact Or.inl h0
    · exact Or.inr ⟨ht.1, ht.2, ht.3, ht.4, ht.5, ht.6⟩
  case apart =>
    intro d d' hd hc hd' hne hp hp' hps'
    change has (w g d) pteP at hp
    change has (w g d') pteP at hp'
    change ¬ has (w g d') ptePS at hps'
    change pgnum (w g d') ≠ pgnum (w g d)
    have heq := hold d' hp' hps'
    rw [hpde d hc] at hp ⊢
    rw [heq] at hp' hps' ⊢
    exact h.apart d d' hd (hcov d hc) hd' hne hp hp' hps'

theorem RegionDir.advance (h : RegionDir s g a b) (ha : a ≤ a') (hpde : ∀ d, Covers a' b d → w g d = s.word g d)
    (hold : ∀ d, has (w g d) pteP → ¬ has (w g d) ptePS → w g d = s.word g d) :
    RegionDir { s with word := w } g a' b := by
  refine ⟨h.toRegionTables.advance ha hpde hold, ?_⟩
  obtain ⟨l, hl, hlen⟩ := h.supply
  refine ⟨l, hl.congr_word w, le_trans (Finset.card_le_card ?_) hlen⟩
  intro d hd
  rw [Finset.mem_filter] at hd ⊢
  have hw : w g d = 0#32 := hd.2.2
  rw [hpde d hd.2.1] at hw
  exact ⟨hd.1, hd.2.1.of_advance ha, hw⟩

theorem tableEntry_pdeOf (hb : p < s.npages) (hn : s.npages ≤ 2^20) (hne : p ≠ g) : TableEntry s g (pdeOf p) := by
  have hpn : pgnum (pdeOf p) = p := pgnum_pdeOf (lt_of_lt_of_le hb hn)
  refine ⟨has_pteP_pdeOf p, ?_, ?_, not_has_ptePS_pdeOf p, by rwa [hpn], by rwa [hpn]⟩
  · rw [has_pteW, pdeOf, BitVec.getLsbD_or, BitVec.getLsbD_or, show pteW.getLsbD 1 = true from rfl,
      show pteU.getLsbD 1 = false from rfl, Bool.or_true, Bool.or_false]
  · change has (pdeOf p) (BitVec.twoPow 32 2)
    rw [has_twoPow _ _ (by decide), pdeOf, BitVec.getLsbD_or, show pteU.getLsbD 2 = true from rfl,
      Bool.or_true]

/-- `page_alloc` for a page table, seen from the region. -/
theorem RegionDir.newTable (h : RegionDir s g a b) (hl : Listed s (p :: l)) (hd : Covers a b d)
    (hd' : d < nptentries) (hz : s.word g d = 0#32) (hlen : s.emptyPdes g a b ≤ l.length + 1) :
    RegionDir (s.newTable g d p) g a b ∧ TableEntry (s.newTable g d p) g ((s.newTable g d p).word g d) ∧
      pgnum ((s.newTable g d p).word g d) = p := by
  have hfree : s.IsFree p := (hl.isFree_iff p).mpr List.mem_cons_self
  have hgp : g ≠ p := fun hgp => h.notFree (hgp ▸ hfree)
  have hb : p < s.npages := hl.bound p List.mem_cons_self
  have hpn : pgnum (pdeOf p) = p := pgnum_pdeOf (lt_of_lt_of_le hb h.npages_le)
  have hself : (s.newTable g d p).word g d = pdeOf p := by rw [newTable_word_dir hgp, if_pos rfl]
  have hne (d' : ℕ) (hdd : d' ≠ d) : (s.newTable g d p).word g d' = s.word g d' := by
    rw [newTable_word_dir hgp, if_neg hdd]
  have hentry : TableEntry (s.newTable g d p) g (pdeOf p) := tableEntry_pdeOf (s := s.newTable g d p) hb h.npages_le hgp.symm
  -- a page in use is not the new table
  have hother (d' : ℕ) (hd' : d' < nptentries) (hp : has (s.word g d') pteP) (hps : ¬ has (s.word g d') ptePS) :
      pgnum (s.word g d') ≠ p := fun he => h.inUse d' hd' hp hps (he ▸ hfree)
  refine ⟨⟨?_, ?_⟩, hself ▸ hentry, hself ▸ hpn⟩
  constructor
  case npages_le => exact h.npages_le
  case notFree =>
    rw [hl.newTable_isFree]
    exact fun hf => h.notFree hf.1
  case inUse =>
    intro d' hd' hp hps
    rw [hl.newTable_isFree]
    by_cases hdd : d' = d
    · rw [hdd, hself, hpn]
      exact fun hf => hf.2 rfl
    · rw [hne d' hdd] at hp hps ⊢
      exact fun hf => h.inUse d' hd' hp hps hf.1
  case entry =>
    intro d' hd' hc
    by_cases hdd : d' = d
    · rw [hdd, hself]
      exact Or.inr hentry
    · rw [hne d' hdd]
      rcases h.entry d' hd' hc with h0 | ht
      · exact Or.inl h0
      · exact Or.inr ⟨ht.1, ht.2, ht.3, ht.4, ht.5, ht.6⟩
  case apart =>
    intro d₁ d₂ hd₁ hc hd₂ hdd hp hp' hps'
    by_cases h2 : d₂ = d
    · rw [h2, hself, hpn]
      have h1 : d₁ ≠ d := fun h1 => hdd (h2.trans h1.symm)
      rw [hne d₁ h1] at hp ⊢
      rcases h.entry d₁ hd₁ hc with h0 | ht
      · exact absurd h0 (ne_zero_of_has_pteP hp)
      · exact (hother d₁ hd₁ hp ht.small).symm
    · rw [hne d₂ h2] at hp' hps' ⊢
      by_cases h1 : d₁ = d
      · rw [h1, hself, hpn]
        exact hother d₂ hd₂ hp' hps'
      · rw [hne d₁ h1] at hp ⊢
        exact h.apart d₁ d₂ hd₁ hc hd₂ hdd hp hp' hps'
  · refine ⟨l, hl.newTable, ?_⟩
    -- one page table is lacking no more
    have hmem : d ∈ (Finset.range nptentries).filter fun d => Covers a b d ∧ s.word g d = 0#32 :=
      Finset.mem_filter.mpr ⟨Finset.mem_range.mpr hd', hd, hz⟩
    have hsub : ((Finset.range nptentries).filter fun d' => Covers a b d' ∧ (s.newTable g d p).word g d' = 0#32) ⊆
        ((Finset.range nptentries).filter fun d => Covers a b d ∧ s.word g d = 0#32).erase d := by
      intro d' hd'
      rw [Finset.mem_filter] at hd'
      have hdd : d' ≠ d := fun hdd => by
        rw [hdd, hself] at hd'
        exact ne_zero_of_has_pteP (has_pteP_pdeOf p) hd'.2.2
      rw [hne d' hdd] at hd'
      exact Finset.mem_erase.mpr ⟨hdd, Finset.mem_filter.mpr hd'⟩
    have hcard := Finset.card_le_card hsub
    rw [Finset.card_erase_of_mem hmem] at hcard
    unfold Pm.emptyPdes at hlen ⊢
    omega

/-- `pgdir_walk` in the region finds or makes a page table, and no translation changes. -/
theorem RegionDir.walk (h : RegionDir s g a b) (hd : Covers a b (pdx av)) :
    ∃ t q, pgdirWalk g av true s = .ret (some ⟨q, ptx av⟩) t ∧ RegionDir t g a b ∧
      TableEntry t g (t.word g (pdx av)) ∧ pgnum (t.word g (pdx av)) = q ∧ t.kernPgdir = s.kernPgdir ∧
      ∀ x, ¬ SelfMapped s.word g x → ¬ SelfMapped t.word g x ∧ translate t.word g x = translate s.word g x := by
  have hd' : pdx av < nptentries := pdx_lt av
  by_cases hz : s.word g (pdx av) = 0#32
  · obtain ⟨l, hl, hlen⟩ := h.supply
    have hpos : 1 ≤ s.emptyPdes g a b :=
      Finset.card_pos.mpr ⟨pdx av, Finset.mem_filter.mpr ⟨Finset.mem_range.mpr hd', hd, hz⟩⟩
    cases l with
    | nil =>
      rw [List.length_nil] at hlen
      omega
    | cons p l =>
      have hb := hl.bound p List.mem_cons_self
      have hfree : s.IsFree p := (hl.isFree_iff p).mpr List.mem_cons_self
      have hgp : g ≠ p := fun hgp => h.notFree (hgp ▸ hfree)
      obtain ⟨hr, ht, hpn⟩ := h.newTable hl hd hd' hz (by simpa using hlen)
      refine ⟨_, p, pgdirWalk_new hz (pageAlloc_some hl.chain.1 hb h.npages_le) hb h.npages_le, hr, ht, hpn,
        rfl, fun x hx => ?_⟩
      have hoff (hp : has (s.word g (pdx x)) pteP) (hps : ¬ has (s.word g (pdx x)) ptePS) :
          pgnum (s.word g (pdx x)) ≠ g ∧ pgnum (s.word g (pdx x)) ≠ p :=
        ⟨fun hg => hx ⟨hp, hps, hg⟩, fun he => h.inUse _ (pdx_lt x) hp hps (he ▸ hfree)⟩
      refine ⟨?_, translate_newTable hgp (lt_of_lt_of_le hb h.npages_le) hz hoff⟩
      rintro ⟨hp, hps, hg⟩
      by_cases hdx : pdx x = pdx av
      · rw [hdx, hpn] at hg
        exact hgp hg.symm
      · rw [newTable_word_dir hgp, if_neg hdx] at hp hps hg
        exact hx ⟨hp, hps, hg⟩
  · rcases h.entry _ hd' hd with h0 | ht
    · exact absurd h0 hz
    · exact ⟨s, _, pgdirWalk_table hz ht.bound, h, ht, rfl, rfl, fun x hx => ⟨hx, rfl⟩⟩

theorem region_flags (hperm : perm.toNat < 4096) : (perm ||| pteP).toNat < 2^12 := by
  rw [BitVec.toNat_or]
  exact Nat.or_lt_two_pow hperm (by decide)

/-- A flag of the entry that is written for the page-aligned address `pv`. -/
theorem region_has {f : Word} {k i : ℕ} (hpv : pv.toNat % 2^k = 0) (hi : i < k) (hk : k ≤ 32)
    (hf : f.getLsbD i = perm.getLsbD i) : has (pv ||| f) (BitVec.twoPow 32 i) ↔ has perm (BitVec.twoPow 32 i) := by
  rw [entry_flag hpv hi hk, has_twoPow _ _ (by omega), has_twoPow _ _ (by omega), hf]

/-- An entry is written into the page table of the address. -/
theorem RegionDir.store (h : RegionDir s g a b) (ha : av.toNat = a) (hav : a % 4096 = 0) (hab : a < b)
    (hpv : pv.toNat % 2^12 = 0) (hperm : perm.toNat < 4096) (ht : TableEntry s g (s.word g (pdx av)))
    (hs' : s' = s.setWord (pgnum (s.word g (pdx av))) (ptx av) (pv ||| (perm ||| pteP))) :
    RegionDir s' g (a + pgsize) b ∧ ∀ x, ¬ SelfMapped s.word g x → ¬ SelfMapped s'.word g x ∧
      translate s'.word g x = if a ≤ x.toNat ∧ x.toNat < a + pgsize then
        some ⟨pv + (x - av), has perm pteW, has perm pteU, has perm ptePCD, has perm ptePWT⟩
      else translate s.word g x := by
  have hdir : s'.word g = s.word g := by
    rw [hs']
    exact setWord_word_ne ht.other.symm
  have hcov : Covers a b (pdx av) := by
    have hps : ptsize = 4194304 := rfl
    unfold Covers
    rw [pdx_eq, ha, hps]
    omega
  refine ⟨?_, fun x hx => ?_⟩
  · have hadv := h.advance (Nat.le_add_right a pgsize) (w := s'.word) (fun d _ => congrFun hdir d)
      fun d _ _ => congrFun hdir d
    rw [hs'] at hadv ⊢
    exact hadv
  refine ⟨by unfold SelfMapped; rwa [hdir], ?_⟩
  have hin : (a ≤ x.toNat ∧ x.toNat < a + pgsize) ↔ pdx x = pdx av ∧ ptx x = ptx av := by
    have hps : pgsize = 4096 := rfl
    rw [pdx_eq, pdx_eq, ptx_eq, ptx_eq, ha, hps]
    omega
  by_cases hix : a ≤ x.toNat ∧ x.toNat < a + pgsize
  · rw [if_pos hix]
    obtain ⟨hd, ht'⟩ := hin.mp hix
    have hentry : s'.word (pgnum (s.word g (pdx av))) (ptx av) = pv ||| (perm ||| pteP) := by
      rw [hs', setWord_word_self, if_pos rfl]
    have hpres : has (pv ||| (perm ||| pteP)) pteP := by
      rw [has_pteP, BitVec.getLsbD_or, BitVec.getLsbD_or, show pteP.getLsbD 0 = true from rfl, Bool.or_true,
        Bool.or_true]
    have hbit (i : ℕ) (hi : 0 < i) (hi' : i < 12) :
        (decide (has (pv ||| (perm ||| pteP)) (BitVec.twoPow 32 i))) = decide (has perm (BitVec.twoPow 32 i)) := by
      apply decide_eq_decide.mpr
      apply region_has hpv hi' (by decide)
      have hp0 : pteP.getLsbD i = false := by
        change (BitVec.twoPow 32 0).getLsbD i = false
        rw [BitVec.getLsbD_twoPow]
        simp only [show ¬ 0 = i by omega, decide_false, Bool.and_false]
      rw [BitVec.getLsbD_or, hp0, Bool.or_false]
    have haddr : pteAddr (pv ||| (perm ||| pteP)) ||| (x &&& 0xFFF#32) = pv + (x - av) := by
      have hmask : pteAddr (pv ||| (perm ||| pteP)) = pv := entry_address hpv (region_flags hperm)
      have hoff : (x &&& 0xFFF#32).toNat = x.toNat % 4096 := pgoff_eq x
      rw [hmask]
      apply BitVec.eq_of_toNat_eq
      rw [entry_offset hpv (by rw [hoff]; exact Nat.mod_lt _ (by decide)), hoff]
      have hps : pgsize = 4096 := rfl
      have hlt := pv.isLt
      have hsub : (x - av).toNat = x.toNat - a := by bv_omega
      rw [BitVec.toNat_add, hsub]
      omega
    simp only [translate, hdir, hd, ht', hentry]
    rw [if_neg (not_not_intro ht.present), if_neg ht.small, if_neg (not_not_intro hpres)]
    simp only [Translation.of, haddr, ht.writable, ht.user, decide_true, Bool.true_and]
    have hW := hbit 1 (by decide) (by decide)
    have hU := hbit 2 (by decide) (by decide)
    have hC := hbit 4 (by decide) (by decide)
    have hT := hbit 3 (by decide) (by decide)
    exact congrArg some (congr (congr (congrArg₂ (Translation.mk _) hW hU) hC) hT)
  · rw [if_neg hix]
    apply translate_congr
    · rw [hdir]
    · intro hp hps
      rw [hs']
      by_cases hq : pgnum (s.word g (pdx x)) = pgnum (s.word g (pdx av))
      · have hdd : pdx x = pdx av := by
          by_contra hne
          exact h.apart _ _ (pdx_lt av) hcov (pdx_lt x) hne ht.present hp hps hq
        rw [hq, setWord_word_self, if_neg fun htt => hix (hin.mpr ⟨hdd, htt⟩)]
      · rw [setWord_word_ne hq]

/-- An entry of 4 MB is written into the directory. -/
theorem RegionDir.large (h : RegionDir s g a b) (ha : av.toNat = a) (hav : a % ptsize = 0)
    (hpv : pv.toNat % 2^22 = 0) (hperm : perm.toNat < 4096)
    (hs' : s' = s.setWord g (pdx av) (pv ||| (perm ||| pteP ||| ptePS))) :
    RegionDir s' g (a + ptsize) b ∧ ∀ x, ¬ SelfMapped s.word g x → ¬ SelfMapped s'.word g x ∧
      translate s'.word g x = if a ≤ x.toNat ∧ x.toNat < a + ptsize then
        some ⟨pv + (x - av), has perm pteW, has perm pteU, has perm ptePCD, has perm ptePWT⟩
      else translate s.word g x := by
  have hps : ptsize = 4194304 := rfl
  have hentry : s'.word g (pdx av) = pv ||| (perm ||| pteP ||| ptePS) := by
    rw [hs', setWord_word_self, if_pos rfl]
  have hother (d : ℕ) (hd : d ≠ pdx av) : s'.word g d = s.word g d := by
    rw [hs', setWord_word_self, if_neg hd]
  have hlarge : has (pv ||| (perm ||| pteP ||| ptePS)) ptePS := by
    change has _ (BitVec.twoPow 32 7)
    rw [has_twoPow _ _ (by decide), BitVec.getLsbD_or, BitVec.getLsbD_or, show ptePS.getLsbD 7 = true from rfl,
      Bool.or_true, Bool.or_true]
  have hpres : has (pv ||| (perm ||| pteP ||| ptePS)) pteP := by
    rw [has_pteP, BitVec.getLsbD_or, BitVec.getLsbD_or, BitVec.getLsbD_or, show pteP.getLsbD 0 = true from rfl,
      Bool.or_true, Bool.true_or, Bool.or_true]
  refine ⟨?_, fun x hx => ?_⟩
  · have hadv := h.advance (Nat.le_add_right a ptsize) (w := s'.word) (fun d hd => hother d fun hda => ?_)
      fun d hp hps' => hother d fun hda => ?_
    · rw [hs'] at hadv ⊢
      exact hadv
    · have hd1 := hd.1
      rw [hda, pdx_eq, ha, hps] at hd1
      omega
    · rw [hda, hentry] at hps'
      exact hps' hlarge
  have hin : (a ≤ x.toNat ∧ x.toNat < a + ptsize) ↔ pdx x = pdx av := by
    rw [pdx_eq, pdx_eq, ha, hps]
    rw [hps] at hav
    omega
  by_cases hix : a ≤ x.toNat ∧ x.toNat < a + ptsize
  · have hd := hin.mp hix
    refine ⟨fun hself => ?_, ?_⟩
    · rw [SelfMapped, hd, hentry] at hself
      exact hself.2.1 hlarge
    rw [if_pos hix]
    have hbit (i : ℕ) (hi : 0 < i) (hi' : i < 7) :
        (decide (has (pv ||| (perm ||| pteP ||| ptePS)) (BitVec.twoPow 32 i))) =
          decide (has perm (BitVec.twoPow 32 i)) := by
      apply decide_eq_decide.mpr
      apply region_has hpv (by omega) (by decide)
      have hp0 : (BitVec.twoPow 32 0).getLsbD i = false := by
        rw [BitVec.getLsbD_twoPow]
        simp only [show ¬ 0 = i by omega, decide_false, Bool.and_false]
      have hp7 : (BitVec.twoPow 32 7).getLsbD i = false := by
        rw [BitVec.getLsbD_twoPow]
        simp only [show ¬ 7 = i by omega, decide_false, Bool.and_false]
      change (perm ||| BitVec.twoPow 32 0 ||| BitVec.twoPow 32 7).getLsbD i = _
      rw [BitVec.getLsbD_or, BitVec.getLsbD_or, hp0, hp7, Bool.or_false, Bool.or_false]
    have haddr : ((pv ||| (perm ||| pteP ||| ptePS)) &&& ~~~(0x3FFFFF#32)) ||| (x &&& 0x3FFFFF#32) =
        pv + (x - av) := by
      have hflags : (perm ||| pteP ||| ptePS).toNat < 2^12 := by
        rw [BitVec.toNat_or]
        exact Nat.or_lt_two_pow (region_flags hperm) (by decide)
      have hmask : (pv ||| (perm ||| pteP ||| ptePS)) &&& ~~~(0x3FFFFF#32) = pv :=
        entry_address hpv (lt_trans hflags (by decide))
      have hoff : (x &&& 0x3FFFFF#32).toNat = x.toNat % 2^22 := by
        have hm : (0x3FFFFF#32).toNat = 2^22 - 1 := rfl
        rw [BitVec.toNat_and, hm, Nat.and_two_pow_sub_one_eq_mod]
      rw [hmask]
      apply BitVec.eq_of_toNat_eq
      rw [entry_offset hpv (by rw [hoff]; exact Nat.mod_lt _ (by decide)), hoff]
      have hlt := pv.isLt
      rw [hps] at hav
      have hsub : (x - av).toNat = x.toNat - a := by bv_omega
      rw [BitVec.toNat_add, hsub]
      omega
    simp only [translate, hd, hentry]
    rw [if_neg (not_not_intro hpres), if_pos hlarge]
    simp only [Translation.of, haddr, Bool.and_self]
    have hW := hbit 1 (by decide) (by decide)
    have hU := hbit 2 (by decide) (by decide)
    have hC := hbit 4 (by decide) (by decide)
    have hT := hbit 3 (by decide) (by decide)
    exact congrArg some (congr (congr (congrArg₂ (Translation.mk _) hW hU) hC) hT)
  · have hd : pdx x ≠ pdx av := fun hd => hix (hin.mpr hd)
    refine ⟨?_, ?_⟩
    · unfold SelfMapped
      rwa [hother _ hd]
    rw [if_neg hix]
    apply translate_congr
    · exact hother _ hd
    · intro hp hps'
      rw [hs', setWord_word_ne fun hg => hx ⟨hp, hps', hg⟩]

theorem RegionDir.mapSmall (h : RegionDir s g a b) (ha : av.toNat = a) (hav : a % 4096 = 0) (hab : a < b)
    (hpv : pv.toNat % 4096 = 0) (hperm : perm.toNat < 4096) :
    ∃ s', mapSmall g av pv perm s = .ret () s' ∧ s'.kernPgdir = s.kernPgdir ∧ RegionDir s' g (a + pgsize) b ∧
      ∀ x, ¬ SelfMapped s.word g x → ¬ SelfMapped s'.word g x ∧
        translate s'.word g x = if a ≤ x.toNat ∧ x.toNat < a + pgsize then
          some ⟨pv + (x - av), has perm pteW, has perm pteU, has perm ptePCD, has perm ptePWT⟩
        else translate s.word g x := by
  have hcov : Covers a b (pdx av) := by
    have hps : ptsize = 4194304 := rfl
    unfold Covers
    rw [pdx_eq, ha, hps]
    omega
  obtain ⟨t, q, hw, ht, hentry, rfl, hkern, hsame⟩ := h.walk hcov
  obtain ⟨hr, htr⟩ := ht.store ha hav hab hpv hperm hentry rfl
  refine ⟨t.setWord (pgnum (t.word g (pdx av))) (ptx av) (pv ||| (perm ||| pteP)), ?_, hkern, hr, fun x hx => ?_⟩
  · simp only [Sisop.mapSmall, Routine.bind_ret hw]
    rfl
  · obtain ⟨hx', heq⟩ := hsame x hx
    obtain ⟨hx'', heq'⟩ := htr x hx'
    rw [← heq]
    exact ⟨hx'', heq'⟩

variable {pse : Bool} {va pa : Word} {size i B : ℕ}

variable (pse) in
/-- The rest of the region is mapped page by page or 4 MB at a time, to the same effect. -/
theorem mapFrom_run (hva : va.toNat % 4096 = 0) (hpa : pa.toNat % 4096 = 0) (hsize : size % 4096 = 0)
    (hvb : va.toNat + size ≤ 2^32) (hB : va.toNat + size ≤ B) (hperm : perm.toNat < 4096)
    (hi : i % 4096 = 0) (his : i ≤ size) (h : RegionDir s g (va.toNat + i) B) :
    ∃ s', mapFrom pse g va pa perm size i s = .ret () s' ∧ s'.kernPgdir = s.kernPgdir ∧
      RegionDir s' g (va.toNat + size) B ∧ ∀ x, ¬ SelfMapped s.word g x → ¬ SelfMapped s'.word g x ∧
        translate s'.word g x = if va.toNat + i ≤ x.toNat ∧ x.toNat < va.toNat + size then
          some (regionTranslation va pa perm x)
        else translate s.word g x := by
  have hpg : pgsize = 4096 := rfl
  have hpt : ptsize = 4194304 := rfl
  induction hn : size - i using Nat.strong_induction_on generalizing i s with
  | _ n ih =>
    by_cases hlt : i < size
    swap
    · obtain rfl : i = size := by omega
      refine ⟨s, mapFrom_done hlt, rfl, h, fun x hx => ⟨hx, ?_⟩⟩
      rw [if_neg (by omega)]
    have hav : (va + BitVec.ofNat 32 i).toNat = va.toNat + i := by bv_omega
    have hpv : (pa + BitVec.ofNat 32 i).toNat % 4096 = 0 := by bv_omega
    have haddr (x : Word) : pa + BitVec.ofNat 32 i + (x - (va + BitVec.ofNat 32 i)) = pa + (x - va) := by bv_omega
    -- what one step has mapped, the later ones leave alone
    have hstep (inc : ℕ) (t : Pm) (hinc : 0 < inc) (hinc4 : inc % 4096 = 0) (hle : i + inc ≤ size)
        (heq : mapFrom pse g va pa perm size i s = mapFrom pse g va pa perm size (i + inc) t)
        (hkern : t.kernPgdir = s.kernPgdir) (ht : RegionDir t g (va.toNat + i + inc) B)
        (htr : ∀ x, ¬ SelfMapped s.word g x → ¬ SelfMapped t.word g x ∧
          translate t.word g x = if va.toNat + i ≤ x.toNat ∧ x.toNat < va.toNat + i + inc then
            some ⟨pa + BitVec.ofNat 32 i + (x - (va + BitVec.ofNat 32 i)), has perm pteW, has perm pteU,
              has perm ptePCD, has perm ptePWT⟩
          else translate s.word g x) :
        ∃ s', mapFrom pse g va pa perm size i s = .ret () s' ∧ s'.kernPgdir = s.kernPgdir ∧
          RegionDir s' g (va.toNat + size) B ∧ ∀ x, ¬ SelfMapped s.word g x → ¬ SelfMapped s'.word g x ∧
            translate s'.word g x = if va.toNat + i ≤ x.toNat ∧ x.toNat < va.toNat + size then
              some (regionTranslation va pa perm x)
            else translate s.word g x := by
      rw [Nat.add_assoc] at ht
      obtain ⟨s', hr, hk, hreg, hrest⟩ := ih (size - (i + inc)) (by omega) (by omega) hle ht rfl
      refine ⟨s', heq.trans hr, hk.trans hkern, hreg, fun x hx => ?_⟩
      obtain ⟨hx₁, h₁⟩ := htr x hx
      obtain ⟨hx₂, h₂⟩ := hrest x hx₁
      refine ⟨hx₂, ?_⟩
      rw [h₂, h₁, haddr x]
      by_cases hlow : x.toNat < va.toNat + i + inc
      · rw [if_neg (by omega)]
        apply if_congr _ rfl rfl
        omega
      · rw [if_neg (by omega : ¬ (va.toNat + i ≤ x.toNat ∧ x.toNat < va.toNat + i + inc))]
        apply if_congr _ rfl rfl
        omega
    by_cases hl : LargeStep pse (va + BitVec.ofNat 32 i) (pa + BitVec.ofNat 32 i) (size - i)
    · obtain ⟨-, hleft, hpx, hvx⟩ := id hl
      rw [ptx_eq] at hpx hvx
      rw [hav] at hvx
      rw [hpt] at hleft
      have hpv22 : (pa + BitVec.ofNat 32 i).toNat % 2^22 = 0 := by
        generalize (pa + BitVec.ofNat 32 i).toNat = v at hpx hpv ⊢
        omega
      have hl' := h.large hav (by rw [hpt]; omega) hpv22 hperm rfl
      exact hstep ptsize _ (by decide) (by decide) (by omega) (mapFrom_large hlt hl) rfl hl'.1 hl'.2
    · obtain ⟨t, hm, hkern, ht, htr⟩ := h.mapSmall hav (by omega) (by omega) hpv hperm
      exact hstep pgsize t (by decide) (by decide) (by omega) (mapFrom_small hlt hl hm) hkern ht htr

/-- Both builds of `boot_map_region` map the region as told, and nothing else. -/
theorem map_region_alike (hva : va.toNat % 4096 = 0) (hpa : pa.toNat % 4096 = 0) (hsize : size % 4096 = 0)
    (hvb : va.toNat + size ≤ 2^32) (hperm : perm.toNat < 4096)
    (h : RegionDir s g va.toNat (va.toNat + size)) :
    ∃ s₁ s₂, mapRegion false g va size pa perm s = .ret () s₁ ∧ mapRegion true g va size pa perm s = .ret () s₂ ∧
      ∀ x, ¬ SelfMapped s.word g x → translate s₂.word g x = translate s₁.word g x ∧
        translate s₁.word g x = if va.toNat ≤ x.toNat ∧ x.toNat < va.toNat + size then
          some (regionTranslation va pa perm x)
        else translate s.word g x := by
  have hrun (pse : Bool) := mapFrom_run pse hva hpa hsize hvb le_rfl hperm (Nat.zero_mod _) (Nat.zero_le _) h
  obtain ⟨s₁, hr₁, -, -, h₁⟩ := hrun false
  obtain ⟨s₂, hr₂, -, -, h₂⟩ := hrun true
  refine ⟨s₁, s₂, hr₁, hr₂, fun x hx => ?_⟩
  rw [(h₁ x hx).2, (h₂ x hx).2, Nat.add_zero]
  exact ⟨rfl, rfl⟩

end MapRegion

/-- The directory in page 1 has the given entries. Page 3 is free. -/
def dirWith (entries : ℕ → Word) : Pm where
  npages := 4
  pages := fun _ => ⟨none, 0⟩
  pageFreeList := some 3
  kernPgdir := 0
  word := Function.update (fun _ _ => 0#32) 1 entries

/-- The first page table is not for the user. -/
def noUserEntries : ℕ → Word := fun d => if d = 0 then 0x2003#32 else 0#32

/-- The directory maps itself at `UVPT`. -/
def selfEntries : ℕ → Word := fun d => if d = uvptPde then page2pa 1 ||| pteU ||| pteP else 0#32

/-- Two entries refer to one page table. -/
def sharedEntries : ℕ → Word := fun d => if d < 2 then 0x2007#32 else 0#32

theorem mapRegion_page {s t : Pm} {g : ℕ} {va pa perm : Word} (pse : Bool)
    (h : mapSmall g va pa perm s = .ret () t) : mapRegion pse g va 4096 pa perm s = .ret () t := by
  have h0 (w : Word) : w + BitVec.ofNat 32 0 = w := BitVec.add_zero w
  have hsmall : ¬ LargeStep pse (va + BitVec.ofNat 32 0) (pa + BitVec.ofNat 32 0) (4096 - 0) :=
    fun h => absurd h.2.1 (by decide)
  rw [mapRegion, mapFrom_small (by decide) hsmall (by rw [h0, h0]; exact h)]
  exact mapFrom_done (by decide)

/-- In either build, for one page: what is mapped for the user is not the user's under such an
entry; the window at `UVPT` shows the new page table; a shared page table maps the page a
second time; and flags above the low 12 bits change the address. -/
theorem map_region_exceptions :
    (∀ entries ∈ [noUserEntries, selfEntries, sharedEntries], ∀ d, ¬ has ((dirWith entries).word 1 d) ptePS) ∧
    ∀ pse, (∃ s', mapRegion pse 1 0#32 4096 0#32 (pteU ||| pteW) (dirWith noUserEntries) = .ret () s' ∧
      translate s'.word 1 0#32 ≠ some (regionTranslation 0#32 0#32 (pteU ||| pteW) 0#32)) ∧
    (∃ s', mapRegion pse 1 0#32 4096 0#32 pteW (dirWith selfEntries) = .ret () s' ∧
      translate s'.word 1 uvpt ≠ translate (dirWith selfEntries).word 1 uvpt) ∧
    (∃ s', mapRegion pse 1 0#32 4096 0#32 pteW (dirWith sharedEntries) = .ret () s' ∧
      translate s'.word 1 0x400000#32 ≠ translate (dirWith sharedEntries).word 1 0x400000#32) ∧
    ∃ s', mapRegion pse 1 0#32 4096 0#32 0x1000#32 (dirWith sharedEntries) = .ret () s' ∧
      translate s'.word 1 0#32 ≠ some (regionTranslation 0#32 0#32 0x1000#32 0#32) := by
  refine ⟨fun entries he d => ?_, fun pse => ⟨⟨_, mapRegion_page pse rfl, by decide⟩,
    ⟨_, mapRegion_page pse rfl, by decide⟩, ⟨_, mapRegion_page pse rfl, by decide⟩,
    _, mapRegion_page pse rfl, by decide⟩⟩
  simp only [List.mem_cons, List.not_mem_nil, or_false] at he
  change ¬ has (entries d) ptePS
  obtain rfl | rfl | rfl := he
  · unfold noUserEntries
    split_ifs <;> decide
  · unfold selfEntries
    split_ifs <;> decide
  · unfold sharedEntries
    split_ifs <;> decide

theorem emptyDir_region : RegionDir emptyDir 1 0x400000 0x800000 := by
  have hl := emptyDir_listed
  have hpres (d : ℕ) (hp : has (emptyDir.word 1 d) pteP) : False := ne_zero_of_has_pteP hp rfl
  refine ⟨⟨by decide, ?_, fun d _ hp => (hpres d hp).elim, fun _ _ _ => Or.inl rfl,
    fun d _ _ _ _ _ hp => (hpres d hp).elim⟩, [3], hl, ?_⟩
  · rw [hl.isFree_iff]
    decide
  · apply Finset.card_le_one.mpr
    intro d hd d' hd'
    obtain ⟨hlo, hhi⟩ := (Finset.mem_filter.mp hd).2.1
    obtain ⟨hlo', hhi'⟩ := (Finset.mem_filter.mp hd').2.1
    have hps : ptsize = 4194304 := rfl
    rw [hps] at hlo hhi hlo' hhi'
    omega

/-- A region of 4 MB in an empty directory: a page table with all its entries, and one entry with `PTE_PS`. -/
theorem map_region_alike_page : ∃ s₁ s₂, mapRegion false 1 0x400000#32 0x400000 0x800000#32 pteW emptyDir = .ret () s₁ ∧
    mapRegion true 1 0x400000#32 0x400000 0x800000#32 pteW emptyDir = .ret () s₂ ∧
    translate s₁.word 1 0x7FF123#32 = some (regionTranslation 0x400000#32 0x800000#32 pteW 0x7FF123#32) ∧
    translate s₂.word 1 0x7FF123#32 = translate s₁.word 1 0x7FF123#32 := by
  obtain ⟨s₁, s₂, hr₁, hr₂, htr⟩ :=
    @map_region_alike emptyDir 1 pteW 0x400000#32 0x800000#32 0x400000 (by decide) (by decide) (by decide) (by decide)
      (by decide) emptyDir_region
  refine ⟨s₁, s₂, hr₁, hr₂, ?_⟩
  obtain ⟨h₁, h₂⟩ := htr 0x7FF123#32 fun hself => ne_zero_of_has_pteP hself.1 rfl
  refine ⟨?_, h₁⟩
  rw [h₂]
  rfl

end Sisop
