import Sisop.DoubleFree
import Sisop.KernelMemory
import Sisop.PageSupply
import Sisop.TableWrites
import Sisop.Translate

/-! What `page_insert` changes and what it leaves alone, in any page directory whose user
part is in order. -/
namespace Sisop

namespace Pm

/-- The page mapped at `va`. The code takes every nonzero entry for a mapping. -/
def mappedPage (s : Pm) (g : ℕ) (va : Word) : Option ℕ :=
  (s.pteAt g va).bind fun pte => if pte = 0#32 then none else some (pgnum pte)

/-- The page that becomes a page table, where there is none for `va`. -/
def tableTaken (s : Pm) (g : ℕ) (va : Word) : Option ℕ :=
  if s.word g (pdx va) = 0#32 then s.pageFreeList else none

end Pm

/-- The user part of the page directory `g`: its page tables are distinct pages in use,
and what they map are valid pages with a reference. -/
structure UserDir (s : Pm) (g : ℕ) : Prop where
  notFree : ¬ s.IsFree g
  bound : ∀ d < userPdes, s.word g d ≠ 0#32 → pgnum (s.word g d) < s.npages
  table : ∀ d < userPdes, s.word g d ≠ 0#32 → pgnum (s.word g d) ≠ g ∧ ¬ s.IsFree (pgnum (s.word g d))
  apart : ∀ d < userPdes, ∀ d' < userPdes, s.word g d ≠ 0#32 → s.word g d' ≠ 0#32 →
    pgnum (s.word g d) = pgnum (s.word g d') → d = d'
  mapped : ∀ va q, pdx va < userPdes → s.mappedPage g va = some q → q < s.npages ∧ 1 ≤ s.refCount q

/-- What a successful `page_insert(g, pp, va, perm)` has made of the memory `s`. -/
structure Inserted (s : Pm) (g pp : ℕ) (va perm : Word) (s' : Pm) : Prop where
  entry : s'.pteAt g va = some (pteOf pp perm)
  others : ∀ va', va' < utop → pgnum va' ≠ pgnum va → translate s'.word g va' = translate s.word g va'
  counts : ∀ p, s'.refCount p + (if s.mappedPage g va = some p then 1 else 0) =
    s.refCount p + (if p = pp then 1 else 0) + (if s.tableTaken g va = some p then 1 else 0)
  free : ∀ p, s'.IsFree p ↔
    s.IsFree p ∧ s.tableTaken g va ≠ some p ∨ s.mappedPage g va = some p ∧ s'.refCount p = 0
  notFree : ¬ s'.IsFree pp
  listed : ∃ l, Listed s' l
  table : ∀ p, s.tableTaken g va = some p → s.IsFree p ∧ s'.refCount p = 1 ∧
    s'.word g (pdx va) = pdeOf p ∧ ∀ i, i ≠ ptx va → s'.word p i = 0#32
  kept : s.word g (pdx va) ≠ 0#32 → s'.word g (pdx va) = s.word g (pdx va)
  words : ∀ p i, s.tableTaken g va ≠ some p → (p = g → i ≠ pdx va) →
    (p = pgnum (s'.word g (pdx va)) → i ≠ ptx va) → s'.word p i = s.word p i
  npages : s'.npages = s.npages
  kernPgdir : s'.kernPgdir = s.kernPgdir

/-- The part of the effect that concerns the pages: `pp` has a reference more, `old` one less. -/
structure Recounted (s : Pm) (old : Option ℕ) (pp : ℕ) (s' : Pm) : Prop where
  counts : ∀ p, s'.refCount p + (if old = some p then 1 else 0) = s.refCount p + (if p = pp then 1 else 0)
  free : ∀ p, s'.IsFree p ↔ s.IsFree p ∨ old = some p ∧ s'.refCount p = 0
  listed : ∃ l, Listed s' l
  npages : s'.npages = s.npages
  kernPgdir : s'.kernPgdir = s.kernPgdir

section InsertEffect

variable {s s' s₁ s₂ : Pm} {g pp p q t i : ℕ} {va va' perm : Word} {l : List ℕ} {old : Option ℕ}

theorem Listed.congr_word (h : Listed s l) (w : ℕ → ℕ → Word) : Listed { s with word := w } l :=
  ⟨h.1, h.2, h.3, h.4, h.5⟩

theorem Listed.setRef (h : Listed s l) (hp : p ∉ l) (r : BitVec 16) : Listed (s.setRef p r) l :=
  h.use hp r s.word

/-- `page_decref` puts the page on the list with its last reference. -/
theorem Listed.decRef (h : Listed s l) (hp : p ∉ l) (hb : p < s.npages) :
    Listed (s.decRef p) (if (s.pages p).ppRef - 1 = 0 then p :: l else l) := by
  have hr := h.setRef hp ((s.pages p).ppRef - 1)
  by_cases h0 : (s.pages p).ppRef - 1 = 0
  · rw [Pm.decRef, if_pos h0, if_pos h0]
    apply hr.put hp _ hb
    rw [setRef_pages, if_pos rfl]
    exact h0
  · rw [Pm.decRef, if_neg h0, if_neg h0]
    exact hr

theorem Listed.ref_pos_not_mem (h : Listed s l) (hp : 1 ≤ s.refCount p) : p ∉ l := by
  intro hpl
  rw [Pm.refCount, h.zero p hpl] at hp
  exact absurd hp (by decide)

theorem incRef_refCount (h : s.refCount p < 65535) :
    (s.incRef p).refCount = Function.update s.refCount p (s.refCount p + 1) := by
  rw [Pm.incRef, setRef_refCount]
  congr 1
  rw [Pm.refCount] at h
  rw [BitVec.toNat_add, Pm.refCount]
  change ((s.pages p).ppRef.toNat + 1) % 2^16 = _
  omega

theorem decRef_refCount_pred (h : 1 ≤ s.refCount p) :
    (s.decRef p).refCount = Function.update s.refCount p (s.refCount p - 1) := by
  rw [decRef_refCount]
  congr 1
  have hlt := (s.pages p).ppRef.isLt
  have h1 : (1 : BitVec 16).toNat = 1 := rfl
  rw [Pm.refCount] at h
  rw [BitVec.toNat_sub, Pm.refCount, h1]
  omega

/-- A page joins the list with its last reference. -/
theorem Listed.decRef_isFree (h : Listed s l) (hq : 1 ≤ s.refCount q) (hb : q < s.npages) (p : ℕ) :
    (s.decRef q).IsFree p ↔ s.IsFree p ∨ p = q ∧ (s.decRef q).refCount p = 0 := by
  have hzero : (s.pages q).ppRef - 1 = 0 ↔ (s.decRef q).refCount q = 0 := by
    rw [decRef_refCount, Function.update_self]
    exact ⟨fun h => by rw [h]; rfl, fun h => BitVec.eq_of_toNat_eq h⟩
  rw [(h.decRef (h.ref_pos_not_mem hq) hb).isFree_iff, h.isFree_iff]
  by_cases h0 : (s.pages q).ppRef - 1 = 0
  · rw [if_pos h0, List.mem_cons, or_comm]
    apply or_congr_right
    constructor
    · rintro rfl
      exact ⟨rfl, hzero.mp h0⟩
    · exact fun hp => hp.1
  · rw [if_neg h0]
    refine ⟨Or.inl, fun hp => hp.resolve_right ?_⟩
    rintro ⟨rfl, hz⟩
    exact h0 (hzero.mpr hz)

theorem incRef_isFree (p q : ℕ) : (s.incRef p).IsFree q ↔ s.IsFree q := by
  have hlink : (fun r => ((s.incRef p).pages r).ppLink) = fun r => (s.pages r).ppLink := by
    funext r
    simp only [Pm.incRef, setRef_pages]
    split_ifs with hr
    · rw [hr]
    · rfl
  rw [Pm.IsFree, hlink]
  rfl

/-- Nothing was mapped before. -/
theorem recounted_incRef (hl : Listed s l) (hpp : ¬ s.IsFree pp) (href : s.refCount pp < 65535) :
    Recounted s none pp (s.incRef pp) := by
  refine ⟨fun p => ?_, fun p => ?_, ⟨l, hl.setRef ?_ _⟩, rfl, rfl⟩
  · rw [incRef_refCount href, Function.update_apply]
    split_ifs with hp <;> simp_all
  · rw [incRef_isFree]
    simp
  · exact fun h => hpp ((hl.isFree_iff pp).mpr h)

/-- The page `q` was mapped before. It may be `pp` itself. -/
theorem recounted_decRef (hl : Listed s l) (hpp : ¬ s.IsFree pp) (href : s.refCount pp < 65535)
    (hq : q < s.npages) (hqr : 1 ≤ s.refCount q) :
    Recounted s (some q) pp ((s.incRef pp).decRef q) := by
  have hl₁ : Listed (s.incRef pp) l := hl.setRef (fun h => hpp ((hl.isFree_iff pp).mpr h)) _
  have hq₁ : 1 ≤ (s.incRef pp).refCount q := by
    rw [incRef_refCount href, Function.update_apply]
    split_ifs <;> omega
  have hdec := decRef_refCount_pred hq₁
  have hl₂ := hl₁.decRef (hl₁.ref_pos_not_mem hq₁) hq
  refine ⟨fun p => ?_, fun p => ?_, ⟨_, hl₂⟩, decRef_npages _ _, decRef_kernPgdir _ _⟩
  · by_cases hqp : q = p
    · subst hqp
      rw [hdec, Function.update_self, if_pos rfl, Nat.sub_add_cancel hq₁, incRef_refCount href,
        Function.update_apply]
      split_ifs with h
      · rw [h]
      · rfl
    · rw [hdec, Function.update_of_ne (Ne.symm hqp), incRef_refCount href, Function.update_apply,
        if_neg (fun h => hqp (Option.some.inj h))]
      split_ifs with h
      · rw [h]
      · rfl
  · rw [hl₁.decRef_isFree hq₁ hq, incRef_isFree, Option.some.injEq, eq_comm (a := q)]

theorem Recounted.congr_word (h : Recounted s old pp s') (w : ℕ → ℕ → Word) :
    Recounted s old pp { s' with word := w } := by
  obtain ⟨l, hl⟩ := h.listed
  exact ⟨h.counts, h.free, ⟨l, hl.congr_word w⟩, h.npages, h.kernPgdir⟩

theorem pageRemove_run (hl : pageLookup g va s = .ret (some (q, ⟨p, ptx va⟩)) s)
    (hlink : (s.pages q).ppLink = none) :
    pageRemove g va s = .ret () ((s.decRef q).setWord p (ptx va) 0#32) := by
  simp only [pageRemove, Routine.bind_ret hl, Routine.bind_ret (pageDecref_run hlink)]
  rfl

/-- Mapping at an entry that is taken. -/
theorem pageInsert_taken (hw : pgdirWalk g va true s = .ret (some ⟨p, ptx va⟩) s)
    (hz : s.word p (ptx va) ≠ 0#32) (hr : pageRemove g va (s.incRef pp) = .ret () s₂) :
    pageInsert g pp va perm s = .ret (.ok ()) (s₂.setWord p (ptx va) (pteOf pp perm)) := by
  have hload : (s.incRef pp).load ⟨p, ptx va⟩ ≠ 0#32 := hz
  simp only [pageInsert, Routine.bind_ret hw, Routine.modify_bind_run, Routine.gets_bind_run]
  rw [if_pos hload, Routine.bind_ret hr]
  rfl

theorem pgnum_eq_of_indices (hd : pdx va = pdx va') (ht : ptx va = ptx va') : pgnum va = pgnum va' := by
  rw [pdx_eq, pdx_eq] at hd
  rw [ptx_eq, ptx_eq] at ht
  rw [pgnum_eq, pgnum_eq]
  omega

theorem mappedPage_of_pte (hz : s.word g (pdx va) ≠ 0#32) : s.mappedPage g va =
    if s.word (pgnum (s.word g (pdx va))) (ptx va) = 0#32 then none
    else some (pgnum (s.word (pgnum (s.word g (pdx va))) (ptx va))) := by
  rw [Pm.mappedPage, Pm.pteAt, if_neg hz, Option.bind_some]

theorem mappedPage_of_no_table (hz : s.word g (pdx va) = 0#32) : s.mappedPage g va = none := by
  rw [Pm.mappedPage, Pm.pteAt, if_pos hz, Option.bind_none]

/-- What the new entry changes, where there is a page table. -/
theorem UserDir.inserted (h : UserDir s g) (hd : pdx va < userPdes) (hz : s.word g (pdx va) ≠ 0#32)
    (hpp : ¬ s.IsFree pp) (hr : Recounted s (s.mappedPage g va) pp s')
    (hpos : s.mappedPage g va = some pp → s'.refCount pp ≠ 0)
    (hw : s'.word = (s.setWord (pgnum (s.word g (pdx va))) (ptx va) (pteOf pp perm)).word) :
    Inserted s g pp va perm s' := by
  have htg := (h.table _ hd hz).1
  have hdir : s'.word g = s.word g := by
    rw [hw]
    exact setWord_word_ne htg.symm
  have htaken : s.tableTaken g va = none := if_neg hz
  have hoff (p i : ℕ) (hp : p = pgnum (s.word g (pdx va)) → i ≠ ptx va) : s'.word p i = s.word p i := by
    rw [hw]
    by_cases hpt : p = pgnum (s.word g (pdx va))
    · rw [hpt, setWord_word_self, if_neg (hp hpt)]
    · rw [setWord_word_ne hpt]
  constructor
  case entry =>
    rw [Pm.pteAt, hdir, if_neg hz, hw, setWord_word_self, if_pos rfl]
  case others =>
    intro va' hva' hpg
    apply translate_congr
    · rw [hdir]
    · intro hp _
      apply hoff
      intro heq hix
      have hd' := pdx_lt_of_utop hva'
      have hdd := h.apart _ hd' _ hd (ne_zero_of_has_pteP hp) hz heq
      exact hpg (pgnum_eq_of_indices hdd hix)
  case counts =>
    intro p
    rw [hr.counts, htaken]
    rfl
  case free =>
    intro p
    rw [hr.free, htaken]
    simp
  case notFree =>
    rw [hr.free]
    rintro (hf | ⟨hm, h0⟩)
    · exact hpp hf
    · exact hpos hm h0
  case listed => exact hr.listed
  case table =>
    intro p hp
    rw [htaken] at hp
    cases hp
  case kept => exact fun _ => congrFun hdir _
  case words =>
    intro p i _ _ hp
    apply hoff
    rwa [hdir] at hp
  case npages => exact hr.npages
  case kernPgdir => exact hr.kernPgdir

/-- `page_insert` where there is a page table. -/
theorem UserDir.insert_table (h : UserDir s g) (hl : Listed s l) (hd : pdx va < userPdes)
    (hz : s.word g (pdx va) ≠ 0#32) (hpp : ¬ s.IsFree pp) (href : s.refCount pp < 65535) :
    ∃ s', pageInsert g pp va perm s = .ret (.ok ()) s' ∧ Inserted s g pp va perm s' := by
  have hw : pgdirWalk g va true s = _ := pgdirWalk_table hz (h.bound _ hd hz)
  have hmap := mappedPage_of_pte hz
  by_cases hpte : s.word (pgnum (s.word g (pdx va))) (ptx va) = 0#32
  · rw [if_pos hpte] at hmap
    refine ⟨_, pageInsert_empty hw hpte, h.inserted hd hz hpp ?_ ?_ rfl⟩
    · rw [hmap]
      exact (recounted_incRef hl hpp href).congr_word _
    · rw [hmap]
      exact fun hn => by cases hn
  · rw [if_neg hpte] at hmap
    obtain ⟨hq, hqr⟩ := h.mapped va _ hd hmap
    generalize hqdef : pgnum (s.word (pgnum (s.word g (pdx va))) (ptx va)) = q at hmap hq hqr
    have hl₁ : Listed (s.incRef pp) l := hl.setRef (fun hf => hpp ((hl.isFree_iff pp).mpr hf)) _
    have hwalk : pgdirWalk g va false (s.incRef pp) = _ := pgdirWalk_table hz (h.bound _ hd hz)
    have hlook := pageLookup_table hwalk (by
      change pgnum (s.word (pgnum (s.word g (pdx va))) (ptx va)) < s.npages
      rwa [hqdef])
    have hlink := hl₁.unlinked q (hl.ref_pos_not_mem hqr)
    change pageLookup g va (s.incRef pp) = .ret (some (pgnum (s.word (pgnum (s.word g (pdx va))) (ptx va)), _)) _ at hlook
    rw [hqdef] at hlook
    have hrec := recounted_decRef hl hpp href hq hqr
    refine ⟨_, pageInsert_taken hw hpte (pageRemove_run hlook hlink), h.inserted hd hz hpp ?_ ?_ ?_⟩
    · rw [hmap]
      exact hrec.congr_word _
    · intro hm
      obtain rfl : q = pp := Option.some.inj (hmap.symm.trans hm)
      have hc := hrec.counts q
      change ((s.incRef q).decRef q).refCount q ≠ 0
      rw [if_pos rfl, if_pos rfl] at hc
      omega
    · -- the entry that `page_remove` has cleared is the one that is written
      funext p j
      by_cases hp : p = pgnum (s.word g (pdx va))
      · rw [hp, setWord_word_self, setWord_word_self]
        split_ifs with hj
        · rfl
        · change (((s.incRef pp).decRef q).setWord (pgnum (s.word g (pdx va))) (ptx va) 0#32).word _ j = _
          rw [setWord_word_self, if_neg hj, decRef_word]
          rfl
      · rw [setWord_word_ne hp, setWord_word_ne hp]
        change (((s.incRef pp).decRef q).setWord (pgnum (s.word g (pdx va))) (ptx va) 0#32).word p j = _
        rw [setWord_word_ne hp, decRef_word]
        rfl

theorem newTable_word_dir (hg : g ≠ p) (d : ℕ) :
    (s.newTable g i p).word g d = if d = i then pdeOf p else s.word g d := by
  rw [Pm.newTable, setWord_word_self]
  split_ifs with hd
  · rfl
  · exact congrFun (taken_word_ne hg) d

theorem newTable_word_table (hg : g ≠ p) (j : ℕ) : (s.newTable g i p).word p j = 0#32 := by
  rw [Pm.newTable, setWord_word_ne hg.symm]
  exact congrFun (taken_word_self s p) j

theorem Listed.newTable (h : Listed s (p :: l)) : Listed (s.newTable g i p) l := by
  have hpl : p ∉ l := (List.nodup_cons.mp h.nodup).1
  have ht : Listed (s.taken p) l := h.take (Function.update s.word p fun _ => 0#32)
  exact (ht.setRef hpl _).congr_word _

theorem Listed.newTable_refCount (h : Listed s (p :: l)) (g i q : ℕ) :
    (s.newTable g i p).refCount q = s.refCount q + (if p = q then 1 else 0) := by
  by_cases hq : p = q
  · subst hq
    have hz := h.zero p List.mem_cons_self
    change ((((s.taken p).incRef p).pages p).ppRef).toNat = _
    rw [if_pos rfl, Pm.refCount, hz]
    simp only [Pm.incRef, setRef_pages, Pm.taken, Pm.clear, setLink_pages, if_true]
    rw [hz]
    rfl
  · rw [Pm.refCount, newTable_pages_ne (Ne.symm hq), if_neg hq]
    rfl

theorem Listed.newTable_isFree (h : Listed s (p :: l)) (g i q : ℕ) :
    (s.newTable g i p).IsFree q ↔ s.IsFree q ∧ p ≠ q := by
  have hpl : p ∉ l := (List.nodup_cons.mp h.nodup).1
  have hn : Listed (s.newTable g i p) l := h.newTable
  rw [hn.isFree_iff, h.isFree_iff, List.mem_cons]
  constructor
  · intro hq
    exact ⟨Or.inr hq, fun hpq => hpl (hpq ▸ hq)⟩
  · rintro ⟨hq | hq, hne⟩
    · exact absurd hq.symm hne
    · exact hq

/-- A new page table maps nothing. -/
theorem translate_newTable (hgp : g ≠ p) (hp : p < 2^20) (hz : s.word g i = 0#32)
    (h : has (s.word g (pdx va)) pteP → ¬ has (s.word g (pdx va)) ptePS →
      pgnum (s.word g (pdx va)) ≠ g ∧ pgnum (s.word g (pdx va)) ≠ p) :
    translate (s.newTable g i p).word g va = translate s.word g va := by
  by_cases hdi : pdx va = i
  · have hold : translate s.word g va = none := by
      apply translate_none_of_pde
      rw [hdi, hz]
      decide
    rw [hold, translate, newTable_word_dir hgp, if_pos hdi]
    dsimp only
    rw [if_neg (not_not_intro (has_pteP_pdeOf p)), if_neg (not_has_ptePS_pdeOf p), pgnum_pdeOf hp,
      newTable_word_table hgp, if_pos (by decide)]
  · apply translate_congr
    · rw [newTable_word_dir hgp, if_neg hdi]
    · intro hpde hps
      obtain ⟨h1, h2⟩ := h hpde hps
      rw [newTable_word_ne h1 h2]

section NewTable

variable (h : UserDir s g) (hl : Listed s (p :: l))

include h hl

theorem UserDir.free_ne_dir : g ≠ p := fun hgp =>
  h.notFree ((hl.isFree_iff g).mpr (hgp ▸ List.mem_cons_self))

theorem UserDir.free_ne_table {d : ℕ} (hd : d < userPdes) (hne : s.word g d ≠ 0#32) :
    pgnum (s.word g d) ≠ p := fun hp =>
  (h.table d hd hne).2 ((hl.isFree_iff _).mpr (hp ▸ List.mem_cons_self))

/-- Under the other entries nothing changes. -/
theorem UserDir.newTable_pteAt (hd : pdx va < userPdes) (hne : pdx va ≠ i) :
    (s.newTable g i p).pteAt g va = s.pteAt g va := by
  have hgp := h.free_ne_dir hl
  rw [Pm.pteAt, Pm.pteAt, newTable_word_dir hgp, if_neg hne]
  split_ifs with h0
  · rfl
  · rw [newTable_word_ne (h.table _ hd h0).1 (h.free_ne_table hl hd h0)]

theorem UserDir.newTable_translate (hn : s.npages ≤ 2^20) (hz : s.word g i = 0#32) (hd : pdx va < userPdes) :
    translate (s.newTable g i p).word g va = translate s.word g va := by
  apply translate_newTable (h.free_ne_dir hl) (lt_of_lt_of_le (hl.bound p List.mem_cons_self) hn) hz
  intro hpde _
  have h0 := ne_zero_of_has_pteP hpde
  exact ⟨(h.table _ hd h0).1, h.free_ne_table hl hd h0⟩

/-- A directory stays in order when it gets a new page table. -/
theorem UserDir.newTable (hn : s.npages ≤ 2^20) : UserDir (s.newTable g i p) g := by
  have hgp := h.free_ne_dir hl
  have hb := hl.bound p List.mem_cons_self
  have hpn : pgnum (pdeOf p) = p := pgnum_pdeOf (lt_of_lt_of_le hb hn)
  have hpl : p ∉ l := (List.nodup_cons.mp hl.nodup).1
  have hpt (d : ℕ) (hd : d < userPdes) (hne : (s.newTable g i p).word g d ≠ 0#32) (hdi : d ≠ i) :
      (s.newTable g i p).word g d = s.word g d ∧ s.word g d ≠ 0#32 ∧ pgnum (s.word g d) ≠ p := by
    rw [newTable_word_dir hgp, if_neg hdi] at hne ⊢
    exact ⟨rfl, hne, h.free_ne_table hl hd hne⟩
  have hnew : (s.newTable g i p).word g i = pdeOf p := by
    rw [newTable_word_dir hgp, if_pos rfl]
  constructor
  case notFree =>
    rw [hl.newTable_isFree]
    exact fun hf => h.notFree hf.1
  case bound =>
    intro d hd hne
    by_cases hdi : d = i
    · rw [hdi, hnew, hpn]
      exact hb
    · obtain ⟨heq, h0, -⟩ := hpt d hd hne hdi
      rw [heq]
      exact h.bound d hd h0
  case table =>
    intro d hd hne
    rw [hl.newTable_isFree]
    by_cases hdi : d = i
    · rw [hdi, hnew, hpn]
      exact ⟨hgp.symm, fun hf => hf.2 rfl⟩
    · obtain ⟨heq, h0, -⟩ := hpt d hd hne hdi
      rw [heq]
      exact ⟨(h.table d hd h0).1, fun hf => (h.table d hd h0).2 hf.1⟩
  case apart =>
    intro d hd d' hd' hne hne' heq
    by_cases hdi : d = i
    · by_cases hdi' : d' = i
      · rw [hdi, hdi']
      · obtain ⟨heq', -, hp'⟩ := hpt d' hd' hne' hdi'
        rw [hdi, hnew, hpn, heq'] at heq
        exact absurd heq.symm hp'
    · obtain ⟨heq₁, h0, hp₁⟩ := hpt d hd hne hdi
      by_cases hdi' : d' = i
      · rw [hdi', hnew, hpn, heq₁] at heq
        exact absurd heq hp₁
      · obtain ⟨heq₂, h0', -⟩ := hpt d' hd' hne' hdi'
        rw [heq₁, heq₂] at heq
        exact h.apart d hd d' hd' h0 h0' heq
  case mapped =>
    intro va q hd hq
    have hold : s.mappedPage g va = some q := by
      by_cases hdi : pdx va = i
      · rw [Pm.mappedPage, Pm.pteAt, hdi, hnew, if_neg (ne_zero_of_has_pteP (has_pteP_pdeOf p)), hpn,
          newTable_word_table hgp] at hq
        cases hq
      · rwa [Pm.mappedPage, h.newTable_pteAt hl hd hdi] at hq
    obtain ⟨hqb, hqr⟩ := h.mapped va q hd hold
    rw [hl.newTable_refCount]
    exact ⟨hqb, by omega⟩

end NewTable

/-- Where there is no page table, `page_insert` does in `s` what it does once there is one. -/
theorem Inserted.of_newTable (h : UserDir s g) (hl : Listed s (p :: l)) (hn : s.npages ≤ 2^20)
    (hz : s.word g (pdx va) = 0#32) (hpp : ¬ s.IsFree pp)
    (hi : Inserted (s.newTable g (pdx va) p) g pp va perm s') : Inserted s g pp va perm s' := by
  have hgp := h.free_ne_dir hl
  have hp20 : p < 2^20 := lt_of_lt_of_le (hl.bound p List.mem_cons_self) hn
  have hfree : s.IsFree p := (hl.isFree_iff p).mpr List.mem_cons_self
  have hppp : p ≠ pp := fun he => hpp (he ▸ hfree)
  have hpde : (s.newTable g (pdx va) p).word g (pdx va) = pdeOf p := by
    rw [newTable_word_dir hgp, if_pos rfl]
  have hpde0 : (s.newTable g (pdx va) p).word g (pdx va) ≠ 0#32 :=
    hpde ▸ ne_zero_of_has_pteP (has_pteP_pdeOf p)
  have hmap : s.mappedPage g va = none := mappedPage_of_no_table hz
  have hmap₁ : (s.newTable g (pdx va) p).mappedPage g va = none := by
    rw [mappedPage_of_pte hpde0, hpde, pgnum_pdeOf hp20, newTable_word_table hgp, if_pos rfl]
  have htab : s.tableTaken g va = some p := by
    rw [Pm.tableTaken, if_pos hz]
    exact hl.chain.1
  have htab₁ : (s.newTable g (pdx va) p).tableTaken g va = none := if_neg hpde0
  constructor
  case entry => exact hi.entry
  case others =>
    intro va' hva' hpg
    rw [hi.others va' hva' hpg]
    exact h.newTable_translate hl hn hz (pdx_lt_of_utop hva')
  case counts =>
    intro q
    have hc := hi.counts q
    simp only [hmap₁, htab₁, hl.newTable_refCount, reduceCtorEq, if_false] at hc
    simp only [hmap, htab, Option.some.injEq, reduceCtorEq, if_false]
    omega
  case free =>
    intro q
    rw [hi.free, hmap, hmap₁, htab, htab₁, hl.newTable_isFree]
    simp
  case notFree => exact hi.notFree
  case listed => exact hi.listed
  case table =>
    intro q hq
    obtain rfl : p = q := Option.some.inj (htab.symm.trans hq)
    have hc := hi.counts p
    simp only [hmap₁, htab₁, hl.newTable_refCount, reduceCtorEq, if_false, if_neg hppp, if_true] at hc
    have h0 : s.refCount p = 0 := by
      rw [Pm.refCount, hl.zero p List.mem_cons_self]
      rfl
    refine ⟨hfree, by omega, (hi.kept hpde0).trans hpde, fun j hj => ?_⟩
    rw [hi.words p j (by rw [htab₁]; exact fun hc => by cases hc) (fun hpg => absurd hpg.symm hgp)
      (fun _ => hj), newTable_word_table hgp]
  case kept => exact fun hne => absurd hz hne
  case words =>
    intro q j hq hqg hqt
    have hqp : q ≠ p := fun he => hq (by rw [htab, he])
    rw [hi.words q j (by rw [htab₁]; exact fun hc => by cases hc) hqg hqt]
    by_cases hgq : q = g
    · rw [hgq, newTable_word_dir hgp, if_neg (hqg hgq)]
    · rw [newTable_word_ne hgq hqp]
  case npages => exact hi.npages
  case kernPgdir => exact hi.kernPgdir

/-- `page_insert` returns, and what it does is known. -/
theorem UserDir.pageInsert_effect (h : UserDir s g) (hl : Listed s l) (hn : s.npages ≤ 2^20)
    (hpp : ¬ s.IsFree pp) (href : s.refCount pp < 65535) (hd : pdx va < userPdes) :
    (∃ s', pageInsert g pp va perm s = .ret (.ok ()) s' ∧ Inserted s g pp va perm s') ∨
    pageInsert g pp va perm s = .ret (.error .noMem) s ∧ s.word g (pdx va) = 0#32 ∧
      s.pageFreeList = none := by
  by_cases hz : s.word g (pdx va) = 0#32
  · cases l with
    | nil => exact Or.inr ⟨pageInsert_noMem (pgdirWalk_noMem hz hl.chain), hz, hl.chain⟩
    | cons p l =>
      left
      have hb := hl.bound p List.mem_cons_self
      have hgp := h.free_ne_dir hl
      have hwalk := pgdirWalk_new hz (pageAlloc_some hl.chain.1 hb hn) hb hn
      have hpde : (s.newTable g (pdx va) p).word g (pdx va) = pdeOf p := by
        rw [newTable_word_dir hgp, if_pos rfl]
      have hpp₁ : ¬ (s.newTable g (pdx va) p).IsFree pp := by
        rw [hl.newTable_isFree]
        exact fun hf => hpp hf.1
      have hppp : p ≠ pp := fun he => hpp ((hl.isFree_iff pp).mpr (he ▸ List.mem_cons_self))
      have href₁ : (s.newTable g (pdx va) p).refCount pp < 65535 := by
        rw [hl.newTable_refCount, if_neg hppp]
        exact href
      obtain ⟨s', hr, hi⟩ : ∃ s', pageInsert g pp va perm (s.newTable g (pdx va) p) = .ret (.ok ()) s' ∧
          Inserted (s.newTable g (pdx va) p) g pp va perm s' :=
        (h.newTable hl hn).insert_table hl.newTable hd
          (hpde ▸ ne_zero_of_has_pteP (has_pteP_pdeOf p)) hpp₁ href₁
      refine ⟨s', ?_, hi.of_newTable h hl hn hz hpp⟩
      rw [← hr]
      -- the walk finds in the new state the table that it makes in the old one
      have hwalk₁ := pgdirWalk_pde hpde hb hn true
      simp only [pageInsert]
      rw [Routine.bind_ret hwalk, Routine.bind_ret hwalk₁]
  · exact Or.inl (h.insert_table hl hd hz hpp href)

/-- `page_insert` maps the page, and changes what the entry, the counters and the page table
demand; or it needs a page table, no page is free, and nothing changes. -/
theorem page_insert_exact (h : UserDir s g) (hl : Listed s l) (hn : s.npages ≤ 2^20)
    (hpp : ¬ s.IsFree pp) (href : s.refCount pp < 65535) (hva : va < utop) :
    (∃ s', pageInsert g pp va perm s = .ret (.ok ()) s' ∧ Inserted s g pp va perm s') ∨
    pageInsert g pp va perm s = .ret (.error .noMem) s ∧ s.word g (pdx va) = 0#32 ∧
      s.pageFreeList = none :=
  h.pageInsert_effect hl hn hpp href (pdx_lt_of_utop hva)

theorem FreeList.listed (h : FreeList s l) : Listed s l := ⟨h.chain, h.nodup, h.zero, h.bound, h.unlinked⟩

/-- The directory of an environment is in order in every state the kernel reaches. -/
theorem MemInv.userDir {D : EnvIdx → Option ℕ} {held : Multiset ℕ} {e : EnvIdx} (h : MemInv s D held)
    (hg : D e = some g) : UserDir s g := by
  have htable (d : ℕ) (hd : d < userPdes) (hne : s.word g d ≠ 0#32) :
      slotMap s D (.pde e ⟨d, hd⟩) = some (pgnum (s.word g d)) := h.dir_present hg ⟨d, hd⟩ hne
  constructor
  case notFree => exact h.not_isFree_of_slot (show slotMap s D (.dir e) = some g from hg)
  case bound => exact fun d hd hne => h.bound _ _ (htable d hd hne)
  case table => exact fun d hd hne => ⟨h.table_ne_dir hg hd hne, h.not_isFree_of_slot (htable d hd hne)⟩
  case apart =>
    intro d hd d' hd' hne hne' heq
    have hslot := htable d' hd' hne'
    rw [← heq] at hslot
    have hsole : (Slot.pde e ⟨d, hd⟩).isTable := trivial
    have hsame := h.tally.slot_unique hsole (htable d hd hne) hslot
    simpa using hsame
  case mapped =>
    intro va q hd hq
    have hz : s.word g (pdx va) ≠ 0#32 := fun hz => by
      rw [mappedPage_of_no_table hz] at hq
      cases hq
    rw [mappedPage_of_pte hz] at hq
    split_ifs at hq with hpte
    have hslot := h.pte_present (htable _ hd hz) (vaPte va) hpte
    change slotMap s D _ = some (pgnum (s.word _ (ptx va))) at hslot
    rw [Option.some.inj hq] at hslot
    exact ⟨h.bound _ q hslot, h.tally.ref_pos hslot⟩

end InsertEffect

/-- Page 1 is an empty page directory, page 2 is in use, and page 3 is free. -/
def emptyDir : Pm := ⟨4, fun _ => ⟨none, 0⟩, some 3, 0, fun _ _ => 0#32⟩

theorem emptyDir_listed : Listed emptyDir [3] := by
  refine ⟨⟨rfl, rfl⟩, List.nodup_singleton 3, fun _ _ => rfl, fun p hp => ?_, fun _ _ => rfl⟩
  rw [List.mem_singleton.mp hp]
  decide

/-- A first mapping takes page 3 for a page table. -/
theorem page_insert_exact_first : ∃ s', pageInsert 1 2 0#32 7#32 emptyDir = .ret (.ok ()) s' ∧
    Inserted emptyDir 1 2 0#32 7#32 s' := by
  have hl := emptyDir_listed
  have hfree (p : ℕ) : emptyDir.IsFree p ↔ p = 3 := by rw [hl.isFree_iff, List.mem_singleton]
  have hg : UserDir emptyDir 1 := by
    refine ⟨by rw [hfree]; decide, fun _ _ h => absurd rfl h, fun _ _ h => absurd rfl h,
      fun _ _ _ _ h => absurd rfl h, fun va q _ hq => ?_⟩
    rw [mappedPage_of_no_table rfl] at hq
    cases hq
  have hpp : ¬ emptyDir.IsFree 2 := by
    rw [hfree]
    decide
  have hva : 0#32 < utop := by decide
  rcases @page_insert_exact emptyDir 1 2 0#32 7#32 [3] hg hl (by decide) hpp (by decide) hva with h | ⟨-, -, hnone⟩
  · exact h
  · cases hnone

end Sisop
