import Sisop.LoadIcode

/-! What `load_icode` makes of an ELF image: every segment in its place, and zeros around it. -/
namespace Sisop

section LoadImage

variable {s s' : Pm} {D : EnvIdx → Option ℕ} {e : EnvIdx} {g n : ℕ} {S T : Finset ℕ} {m : ByteMem}
  {x y va len : Word} {binary : List (BitVec 8)} {ph : Proghdr} {phs hdrs : List Proghdr}

theorem pagesNeeded_mono (h : S ⊆ T) : pagesNeeded S ≤ pagesNeeded T :=
  Nat.add_le_add (Finset.card_le_card h) (Finset.card_le_card (Finset.image_subset_image h))

theorem pgnum_mem_spanPages {i : ℕ} (hi : i < len.toNat) (hfit : va.toNat + len.toNat ≤ 2^32) :
    pgnum (va + BitVec.ofNat 32 i) ∈ spanPages va len := by
  have hadd : (va + BitVec.ofNat 32 i).toNat = va.toNat + i := by bv_omega
  rw [spanPages, Finset.mem_Icc, pgnum_eq, hadd]
  omega

theorem pgnum_of_inSpan (h : InSpan va len.toNat x) (hfit : va.toNat + len.toNat ≤ 2^32) :
    pgnum x ∈ spanPages va len := by
  have hx : va + BitVec.ofNat 32 (x - va).toNat = x := by bv_omega
  exact hx ▸ pgnum_mem_spanPages h hfit

/-- The pages of a region are new, and there is memory for them. -/
theorem Laid.regionAlloc (h : Laid s D e g S n m) (hlen : 0 < len.toNat) (hfit : va.toNat + len.toNat ≤ utop.toNat)
    (hnew : Disjoint (spanPages va len) S) (hN : pagesNeeded (spanPages va len ∪ S) ≤ n)
    (hm : ∀ y, pgnum y ∈ spanPages va len → m y = 0#8) :
    ∃ s', regionAlloc g va len s = .ret () s' ∧ Laid s' D e g (spanPages va len ∪ S) n m := by
  have hu : utop.toNat = 4005560320 := rfl
  have hstart := rounddown_toNat va
  have hadd : (va + len).toNat = va.toNat + len.toNat := by bv_omega
  have hfin : (roundup (va + len)).toNat = (va.toNat + len.toNat - 1) / 4096 * 4096 + 4096 := by
    rw [roundup_toNat (by omega), hadd]
    omega
  have hrounds : pageRounds (rounddown va) (roundup (va + len)) =
      (va.toNat + len.toNat - 1) / 4096 + 1 - va.toNat / 4096 := by
    rw [pageRounds, hstart, hfin, show pgsize = 4096 from rfl]
    omega
  have hspan : spanPages va len = Finset.Ico (va.toNat / 4096)
      (va.toNat / 4096 + pageRounds (rounddown va) (roundup (va + len))) := by
    ext k
    rw [hrounds, spanPages, Finset.mem_Icc, Finset.mem_Ico]
    omega
  unfold Sisop.regionAlloc
  rw [hspan] at hnew hN hm ⊢
  generalize pageRounds (rounddown va) (roundup (va + len)) = r at hrounds hnew hN hm ⊢
  apply Routine.loop_total (fun i t => Laid t D e g (Finset.Ico (va.toNat / 4096) (va.toNat / 4096 + i) ∪ S) n m) r
  · rw [Nat.add_zero, Finset.Ico_self, Finset.empty_union]
    exact h
  · intro i t hi ht
    have hx : (rounddown va + BitVec.ofNat 32 (pgsize * i)).toNat = (va.toNat / 4096 + i) * 4096 := by
      rw [show pgsize = 4096 from rfl, BitVec.toNat_add, BitVec.toNat_ofNat, hstart]
      omega
    have hp : pgnum (rounddown va + BitVec.ofNat 32 (pgsize * i)) = va.toNat / 4096 + i := by
      rw [pgnum_eq, hx]
      omega
    have hsucc : Finset.Ico (va.toNat / 4096) (va.toNat / 4096 + (i + 1)) ∪ S =
        insert (va.toNat / 4096 + i) (Finset.Ico (va.toNat / 4096) (va.toNat / 4096 + i) ∪ S) := by
      ext k
      have hk : k < va.toNat / 4096 + (i + 1) ↔ k = va.toNat / 4096 + i ∨ k < va.toNat / 4096 + i := by omega
      simp only [Finset.mem_union, Finset.mem_insert, Finset.mem_Ico, hk]
      grind
    have hmem : va.toNat / 4096 + i ∈ Finset.Ico (va.toNat / 4096) (va.toNat / 4096 + r) :=
      Finset.mem_Ico.mpr ⟨by omega, by omega⟩
    have hlt : rounddown va + BitVec.ofNat 32 (pgsize * i) < utop := by
      change (rounddown va + BitVec.ofNat 32 (pgsize * i)).toNat < utop.toNat
      omega
    have hround := ht.allocPage hlt ?_ ?_ ?_
    · rwa [hp, ← hsucc] at hround
    · rw [hp, Finset.mem_union, Finset.mem_Ico, not_or]
      exact ⟨by omega, Finset.disjoint_left.mp hnew hmem⟩
    · rw [hp, ← hsucc]
      apply le_trans (pagesNeeded_mono ?_) hN
      apply Finset.union_subset_union_left
      exact Finset.Ico_subset_Ico_right (by omega)
    · intro y hy
      apply hm y
      rw [hy, hp]
      exact hmem

/-- Bytes are written into pages that the program has. -/
theorem Laid.storeBytes {bs : List (BitVec 8)} (h : Laid s D e g S n m) (hfit : va.toNat + bs.length ≤ utop.toNat)
    (hin : ∀ i < bs.length, pgnum (va + BitVec.ofNat 32 i) ∈ S) :
    ∃ s', storeBytes g va bs s = .ret () s' ∧ Laid s' D e g S n (writeBytes m va bs) := by
  have hu : utop.toNat = 4005560320 := rfl
  induction bs generalizing s va m with
  | nil => exact ⟨s, rfl, h⟩
  | cons b bs ih =>
    rw [List.length_cons] at hfit hin
    have h0 := hin 0 (Nat.succ_pos _)
    rw [BitVec.add_zero] at h0
    obtain ⟨t, hb, ht⟩ := h.storeByte (x := va) (show va.toNat < utop.toNat by omega) h0 b
    obtain ⟨s', hbs, hs'⟩ := @ih t (Function.update m va b) (va + 1#32) ht (by bv_omega) fun i hi => by
      have hi' := hin (i + 1) (by omega)
      have heq : va + BitVec.ofNat 32 (i + 1) = va + 1#32 + BitVec.ofNat 32 i := by bv_omega
      rwa [heq] at hi'
    refine ⟨s', ?_, ?_⟩
    · rw [Sisop.storeBytes, Routine.bind_ret hb]
      exact hbs
    · rw [writeBytes_cons _ _ _ _ (by omega)]
      exact hs'

/-- The segments `done` are in their places, and everything else is zero. -/
structure Filled (binary : List (BitVec 8)) (done : List Proghdr) (m : ByteMem) : Prop where
  file : ∀ ph ∈ done, ∀ k < ph.pFilesz.toNat,
    binary[ph.pOffset.toNat + k]? = some (m (ph.pVa + BitVec.ofNat 32 k))
  bss : ∀ ph ∈ done, ∀ k, ph.pFilesz.toNat ≤ k → k < ph.pMemsz.toNat → m (ph.pVa + BitVec.ofNat 32 k) = 0#8
  rest : ∀ x, (∀ ph ∈ done, ¬ InSpan ph.pVa ph.pMemsz.toNat x) → m x = 0#8

theorem Fits.room (h : Fits binary ph) : ph.pVa.toNat + ph.pMemsz.toNat ≤ utop.toNat :=
  h.below.trans (by decide)

theorem Fits.pgnum_mem (h : Fits binary ph) (hx : InSpan ph.pVa ph.pMemsz.toNat x) : pgnum x ∈ ph.pages :=
  pgnum_of_inSpan hx (h.room.trans (by decide))

theorem mem_touched {k : ℕ} : k ∈ touched phs ↔ ∃ ph ∈ phs, k ∈ ph.pages := by
  induction phs with
  | nil => simp [touched]
  | cons ph phs ih => rw [touched, Finset.mem_union, ih, List.exists_mem_cons_iff]

theorem touched_congr {phs' : List Proghdr} (h : ∀ ph, ph ∈ phs ↔ ph ∈ phs') : touched phs = touched phs' := by
  ext k
  simp only [mem_touched, h]

/-- What `memset` and `memcpy` write. -/
def segmentMem (binary : List (BitVec 8)) (ph : Proghdr) (m : ByteMem) : ByteMem :=
  writeBytes (writeBytes m ph.pVa (List.replicate ph.pMemsz.toNat 0#8)) ph.pVa
    ((binary.drop ph.pOffset.toNat).take ph.pFilesz.toNat)

theorem inSpan_offset {k l : ℕ} (hk : k < l) (hl : l < 2^32) : InSpan va l (va + BitVec.ofNat 32 k) := by
  unfold InSpan
  bv_omega

theorem segmentMem_outside (hph : Fits binary ph) (hx : ¬ InSpan ph.pVa ph.pMemsz.toNat x) :
    segmentMem binary ph m x = m x := by
  have hfile := hph.filesz
  rw [segmentMem, writeBytes_of_not_inSpan, writeBytes_of_not_inSpan]
  · rwa [List.length_replicate]
  · unfold InSpan at hx ⊢
    rw [List.length_take]
    omega

theorem segmentMem_inside (hph : Fits binary ph) {k : ℕ} (hk : k < ph.pMemsz.toNat) :
    (k < ph.pFilesz.toNat → binary[ph.pOffset.toNat + k]? =
      some (segmentMem binary ph m (ph.pVa + BitVec.ofNat 32 k))) ∧
    (ph.pFilesz.toNat ≤ k → segmentMem binary ph m (ph.pVa + BitVec.ofNat 32 k) = 0#8) := by
  have hoff : (ph.pVa + BitVec.ofNat 32 k - ph.pVa).toNat = k := by
    have hlt : ph.pMemsz.toNat < 2^32 := ph.pMemsz.isLt
    bv_omega
  have hin := hph.inside
  simp only [segmentMem, writeBytes, hoff]
  constructor
  · intro hlt
    have hb : ph.pOffset.toNat + k < binary.length := by omega
    rw [List.getElem?_take_of_lt hlt, List.getElem?_drop, List.getElem?_eq_getElem hb]
    rfl
  · intro hle
    rw [List.getElem?_eq_none (by rw [List.length_take]; omega), List.getElem?_replicate, if_pos hk]
    rfl

/-- The next segment is in its place, and the others stay in theirs. -/
theorem Filled.next (h : Filled binary phs m) (hph : Fits binary ph) (hfit : ∀ ph' ∈ phs, Fits binary ph')
    (hdisj : ∀ ph' ∈ phs, Disjoint ph.pages ph'.pages) : Filled binary (ph :: phs) (segmentMem binary ph m) := by
  have hother (ph' : Proghdr) (hmem : ph' ∈ phs) (k : ℕ) (hk : k < ph'.pMemsz.toNat) :
      segmentMem binary ph m (ph'.pVa + BitVec.ofNat 32 k) = m (ph'.pVa + BitVec.ofNat 32 k) := by
    apply segmentMem_outside hph
    intro hin
    exact Finset.disjoint_left.mp (hdisj ph' hmem) (hph.pgnum_mem hin)
      ((hfit ph' hmem).pgnum_mem (inSpan_offset hk (BitVec.isLt _)))
  constructor
  case file =>
    intro ph' hmem k hk
    rcases List.mem_cons.mp hmem with rfl | hmem
    · exact (segmentMem_inside hph (lt_of_lt_of_le hk hph.filesz)).1 hk
    · rw [hother ph' hmem k (lt_of_lt_of_le hk (hfit ph' hmem).filesz)]
      exact h.file ph' hmem k hk
  case bss =>
    intro ph' hmem k hle hk
    rcases List.mem_cons.mp hmem with rfl | hmem
    · exact (segmentMem_inside hph hk).2 hle
    · rw [hother ph' hmem k hk]
      exact h.bss ph' hmem k hle hk
  case rest =>
    intro x hx
    rw [segmentMem_outside hph (hx ph List.mem_cons_self)]
    exact h.rest x fun ph' hmem => hx ph' (List.mem_cons_of_mem _ hmem)

/-- The body of the loop, for a segment with pages of its own. -/
theorem Laid.loadSegment (h : Laid s D e g (touched phs) n m) (hm : Filled binary phs m)
    (htype : ph.pType = elfProgLoad) (hph : Fits binary ph) (hfit : ∀ ph' ∈ phs, Fits binary ph')
    (hdisj : ∀ ph' ∈ phs, Disjoint ph.pages ph'.pages) (hN : pagesNeeded (touched (ph :: phs)) ≤ n) :
    ∃ s', loadSegment g binary ph s = .ret () s' ∧ Laid s' D e g (touched (ph :: phs)) n (segmentMem binary ph m) ∧
      Filled binary (ph :: phs) (segmentMem binary ph m) := by
  have hnew : Disjoint ph.pages (touched phs) := by
    rw [Finset.disjoint_left]
    intro k hk hkt
    obtain ⟨ph', hmem, hk'⟩ := mem_touched.mp hkt
    exact Finset.disjoint_left.mp (hdisj ph' hmem) hk hk'
  have hblank (y : Word) (hy : pgnum y ∈ ph.pages) : m y = 0#8 := by
    apply hm.rest
    intro ph' hmem hin
    exact Finset.disjoint_left.mp (hdisj ph' hmem) hy ((hfit ph' hmem).pgnum_mem hin)
  have hroom := hph.room
  have hin (k : ℕ) (hk : k < ph.pMemsz.toNat) : pgnum (ph.pVa + BitVec.ofNat 32 k) ∈ touched (ph :: phs) :=
    Finset.mem_union_left _ (hph.pgnum_mem (inSpan_offset hk (BitVec.isLt _)))
  have hfile := hph.filesz
  have hbytes : binaryBytes binary ph.pOffset.toNat ph.pFilesz.toNat =
      some ((binary.drop ph.pOffset.toNat).take ph.pFilesz.toNat) := if_pos hph.inside
  have hlen : ((binary.drop ph.pOffset.toNat).take ph.pFilesz.toNat).length ≤ ph.pFilesz.toNat := by
    rw [List.length_take]
    omega
  obtain ⟨s₁, h₁, hs₁⟩ := h.regionAlloc hph.memsz hroom hnew hN hblank
  obtain ⟨s₂, h₂, hs₂⟩ := @Laid.storeBytes s₁ D e g n (touched (ph :: phs)) m ph.pVa
    (List.replicate ph.pMemsz.toNat 0#8) hs₁ (by rwa [List.length_replicate])
    (by rwa [List.length_replicate])
  obtain ⟨s₃, h₃, hs₃⟩ := @Laid.storeBytes s₂ D e g n (touched (ph :: phs)) _ ph.pVa
    ((binary.drop ph.pOffset.toNat).take ph.pFilesz.toNat) hs₂ (by omega) (fun k hk => hin k (by omega))
  refine ⟨s₃, ?_, hs₃, hm.next hph hfit hdisj⟩
  rw [Sisop.loadSegment, if_pos htype, Routine.bind_ret h₁, Routine.bind_ret h₂, hbytes]
  exact h₃

/-- The loop over the headers, of which those in `phs` have been treated. -/
theorem Laid.loadProghdrs {off c : ℕ} (hhdrs : proghdrs binary off c = some hdrs)
    (h : Laid s D e g (touched phs) n m) (hm : Filled binary phs m)
    (hfit : ∀ ph ∈ (loadable hdrs).reverse ++ phs, Fits binary ph)
    (hapart : ((loadable hdrs).reverse ++ phs).Pairwise fun a b => Disjoint a.pages b.pages)
    (hN : pagesNeeded (touched ((loadable hdrs).reverse ++ phs)) ≤ n) :
    ∃ s' m', loadProghdrs g binary off c s = .ret () s' ∧
      Laid s' D e g (touched ((loadable hdrs).reverse ++ phs)) n m' ∧
      Filled binary ((loadable hdrs).reverse ++ phs) m' := by
  induction c generalizing s off hdrs phs m with
  | zero =>
    obtain rfl : [] = hdrs := Option.some.inj hhdrs
    exact ⟨s, m, rfl, h, hm⟩
  | succ c ih =>
    rw [proghdrs] at hhdrs
    obtain ⟨hdr, hhdr, hhdrs⟩ := Option.bind_eq_some_iff.mp hhdrs
    obtain ⟨rest, hrest, heq⟩ := Option.bind_eq_some_iff.mp hhdrs
    obtain rfl : hdr :: rest = hdrs := Option.some.inj heq
    have hread : readBinary (σ := Pm) (proghdrAt binary off) = pure hdr := by rw [hhdr]; rfl
    simp only [Sisop.loadProghdrs, hread, Routine.pure_bind_run]
    by_cases htype : hdr.pType = elfProgLoad
    · have hload : loadable (hdr :: rest) = hdr :: loadable rest := by
        rw [loadable, List.filter_cons_of_pos (by simpa using htype)]
        rfl
      rw [hload, List.reverse_cons, List.append_assoc, List.singleton_append] at hfit hapart hN ⊢
      obtain ⟨hhd, htl⟩ := List.pairwise_cons.mp (List.pairwise_append.mp hapart).2.1
      have hfit' (ph : Proghdr) (hmem : ph ∈ hdr :: phs) : Fits binary ph :=
        hfit ph (List.mem_append_right _ hmem)
      have hsub : touched (hdr :: phs) ⊆ touched ((loadable rest).reverse ++ hdr :: phs) := by
        intro k hk
        obtain ⟨ph, hmem, hk⟩ := mem_touched.mp hk
        exact mem_touched.mpr ⟨ph, List.mem_append_right _ hmem, hk⟩
      obtain ⟨t, ht, hlaid, hfilled⟩ := h.loadSegment hm htype (hfit' hdr List.mem_cons_self)
        (fun ph hmem => hfit' ph (List.mem_cons_of_mem _ hmem)) hhd ((pagesNeeded_mono hsub).trans hN)
      rw [Routine.bind_ret ht]
      exact ih hrest hlaid hfilled hfit hapart hN
    · have hload : loadable (hdr :: rest) = loadable rest := by
        rw [loadable, List.filter_cons_of_neg (by simpa using htype)]
        rfl
      rw [hload] at hfit hapart hN ⊢
      have hskip : Sisop.loadSegment g binary hdr s = .ret () s := by
        rw [Sisop.loadSegment, if_neg htype]
        rfl
      rw [Routine.bind_ret hskip]
      exact ih hrest h hm hfit hapart hN

/-- The walk through a page table that `pgdir_walk` has made. -/
theorem translate_pdeOf {word : ℕ → ℕ → Word} {p : ℕ} (hpde : word g (pdx x) = pdeOf p) :
    translate word g x = if has (word (pgnum (pdeOf p)) (ptx x)) pteP then
      some (.of (pteAddr (word (pgnum (pdeOf p)) (ptx x)) ||| (x &&& 0xFFF#32)) (pdeOf p)
        (word (pgnum (pdeOf p)) (ptx x))) else none := by
  simp only [translate, hpde, has_pteP_pdeOf, not_has_ptePS_pdeOf, not_true_eq_false, if_false, ite_not]

/-- What the processor finds in the tables. -/
theorem Laid.translate (h : Laid s D e g S n m) (hx : x < utop) :
    ((translate s.word g x).isSome ↔ pgnum x ∈ S) ∧
      ∀ t, translate s.word g x = some t → t.user ∧ t.writable := by
  by_cases hn : pgnum x ∈ S
  · obtain ⟨hpte, -, -⟩ := h.page hx hn
    have hz := pde_ne_zero_of_pteAt hpte
    obtain ⟨p, hpde⟩ := ((h.table _ (pdx_lt_of_utop hx)).resolve_left fun h0 => hz h0.1).2
    rw [Pm.pteAt, if_neg hz, hpde] at hpte
    rw [translate_pdeOf hpde, Option.some.inj hpte, if_pos (has_pteP_pteOf _ _)]
    refine ⟨iff_of_true rfl hn, fun t ht => ?_⟩
    obtain rfl := Option.some.inj ht
    have hpd := has_pdeOf p
    have hpt := has_pteOf (pageAt s g x)
    simp only [Translation.of, Bool.and_eq_true, decide_eq_true_eq]
    exact ⟨⟨has_mono hpd (by decide), has_mono hpt (by decide)⟩, has_mono hpd (by decide), has_mono hpt (by decide)⟩
  · have hno := h.absent x hx hn
    have hnone : Sisop.translate s.word g x = none := by
      rcases h.table _ (pdx_lt_of_utop hx) with ⟨hz, -⟩ | ⟨-, p, hpde⟩
      · apply translate_none_of_pde
        rw [hz]
        decide
      · have hz : s.word g (pdx x) ≠ 0#32 := hpde ▸ ne_zero_of_has_pteP (has_pteP_pdeOf p)
        rw [mappedPage_of_pte hz, hpde] at hno
        split_ifs at hno with hpte
        rw [translate_pdeOf hpde, hpte, if_neg (by decide)]
    rw [hnone]
    exact ⟨iff_of_false (by simp) hn, fun t ht => by cases ht⟩

theorem Pm.Supply.freePages (h : s.Supply n) : s.FreePages n := by
  obtain ⟨l, hl, hn, -⟩ := h
  refine ⟨l.toFinset, ?_, fun p hp => (hl.isFree_iff p).mpr (List.mem_toFinset.mp hp)⟩
  rwa [List.toFinset_card_of_nodup hl.nodup]

/-- The state in which `load_icode` starts: `e` has no pages. -/
theorem Laid.start (h : MemInv s D 0) (hg : D e = some g) (hbare : ∀ d < userPdes, s.word g d = 0#32)
    (hfree : s.FreePages n) : Laid s D e g (touched []) n fun _ => 0#8 := by
  have hno (x : Word) : pgnum x ∉ touched [] := Finset.notMem_empty _
  constructor
  case inv => exact h
  case dir => exact hg
  case table => exact fun d hd => Or.inl ⟨hbare d hd, Finset.notMem_empty _⟩
  case entry => exact fun x _ hx => absurd hx (hno x)
  case absent => exact fun x hx _ => mappedPage_of_no_table (hbare _ (pdx_lt_of_utop hx))
  case apart => exact fun x y _ _ hx => absurd hx (hno x)
  case bytes => exact fun x _ hx => absurd hx (hno x)
  case free =>
    obtain ⟨F, hF, hfree⟩ := hfree
    exact ⟨F, hF.trans (Nat.le_add_right _ _), hfree⟩

/-- The segments are in their places, and the stack is there. -/
theorem Laid.loaded (h : Laid s D e g (imagePages phs) n m) (hm : Filled binary phs m)
    (hfit : ∀ ph ∈ phs, Fits binary ph) : Loaded s g binary phs := by
  have hu : utop.toNat = 4005560320 := rfl
  have hbyte (ph : Proghdr) (hmem : ph ∈ phs) (k : ℕ) (hk : k < ph.pMemsz.toNat) :
      userMem s g (ph.pVa + BitVec.ofNat 32 k) = m (ph.pVa + BitVec.ofNat 32 k) := by
    have hroom := (hfit ph hmem).room
    have hlt : (ph.pVa + BitVec.ofNat 32 k).toNat < utop.toNat := by bv_omega
    apply h.bytes _ hlt
    apply Finset.mem_insert_of_mem
    exact mem_touched.mpr ⟨ph, hmem, (hfit ph hmem).pgnum_mem (inSpan_offset hk (BitVec.isLt _))⟩
  constructor
  case maps => exact fun x hx => (h.translate hx).1
  case writable => exact fun x t hx => (h.translate hx).2 t
  case file =>
    intro ph hmem k hk
    rw [hbyte ph hmem k (lt_of_lt_of_le hk (hfit ph hmem).filesz)]
    exact hm.file ph hmem k hk
  case bss =>
    intro ph hmem k hle hk
    rw [hbyte ph hmem k hk]
    exact hm.bss ph hmem k hle hk
  case rest =>
    intro x hx hn hout
    rw [h.bytes x hx hn]
    exact hm.rest x hout

theorem Filled.congr {phs' : List Proghdr} (h : Filled binary phs m) (hsame : ∀ ph, ph ∈ phs' ↔ ph ∈ phs) :
    Filled binary phs' m :=
  ⟨fun ph hmem => h.file ph ((hsame ph).mp hmem), fun ph hmem => h.bss ph ((hsame ph).mp hmem),
    fun x hx => h.rest x fun ph hmem => hx ph ((hsame ph).mpr hmem)⟩

/-- The segments leave the page of the stack alone. -/
theorem Fits.stack (h : Fits binary ph) : pgnum (ustacktop - 4096#32) ∉ ph.pages := by
  have hstack : (ustacktop - 4096#32).toNat = 0xEEBFD * 4096 := by decide
  have hbelow := h.below
  have hmemsz := h.memsz
  rw [Proghdr.pages, spanPages, Finset.mem_Icc, pgnum_eq, hstack]
  omega

/-- The stack page of `load_icode`. -/
theorem Laid.stack (h : Laid s D e g (touched phs) n m) (hm : Filled binary phs m) (hfit : ∀ ph ∈ phs, Fits binary ph)
    (hN : pagesNeeded (imagePages phs) ≤ n) :
    ∃ s', Sisop.regionAlloc g (ustacktop - 4096#32) 4096#32 s = .ret () s' ∧
      Laid s' D e g (imagePages phs) n m := by
  have hpages : spanPages (ustacktop - 4096#32) 4096#32 = {pgnum (ustacktop - 4096#32)} := by
    have hstack : (ustacktop - 4096#32).toNat = 0xEEBFD * 4096 := by decide
    rw [spanPages, pgnum_eq, hstack]
    exact Finset.Icc_self _
  have himage : spanPages (ustacktop - 4096#32) 4096#32 ∪ touched phs = imagePages phs := by
    rw [hpages]
    rfl
  have hrun := h.regionAlloc (show 0 < (4096#32).toNat by decide)
    (show (ustacktop - 4096#32).toNat + (4096#32).toNat ≤ utop.toNat by decide) ?_ (himage ▸ hN) ?_
  · rwa [himage] at hrun
  · rw [hpages, Finset.disjoint_singleton_left, mem_touched]
    rintro ⟨ph, hmem, hk⟩
    exact (hfit ph hmem).stack hk
  · intro y hy
    rw [hpages, Finset.mem_singleton] at hy
    apply hm.rest
    intro ph hmem hin
    exact (hfit ph hmem).stack (hy ▸ (hfit ph hmem).pgnum_mem hin)

/-- `load_icode` puts every segment in its place. -/
theorem load_icode_image {k : Kern} {elf : ElfHeader} (h : MemInv k.mem k.dirs 0) (hg : k.dirs e = some g)
    (hbare : ∀ d < userPdes, k.mem.word g d = 0#32) (himg : ElfImage binary elf hdrs)
    (hfree : k.mem.FreePages (pagesNeeded (imagePages (loadable hdrs)))) :
    ∃ k', loadIcode e binary k = .ret () k' ∧ k'.dirs e = some g ∧ Loaded k'.mem g binary (loadable hdrs) ∧
      (k'.envs e).envTf.tfEip = elf.eEntry := by
  have hlaid := Laid.start h hg hbare hfree
  have hfilled : Filled binary [] fun _ => 0#8 :=
    ⟨fun _ hmem => absurd hmem List.not_mem_nil, fun _ hmem => absurd hmem List.not_mem_nil, fun _ _ => rfl⟩
  have hrev (ph : Proghdr) : ph ∈ (loadable hdrs).reverse ++ [] ↔ ph ∈ loadable hdrs := by simp
  have htouched := touched_congr hrev
  obtain ⟨s₁, m, h₁, hlaid₁, hfilled₁⟩ := hlaid.loadProghdrs himg.proghdrs hfilled
    (fun ph hmem => himg.fits ph ((hrev ph).mp hmem))
    (by
      rw [List.append_nil, List.pairwise_reverse]
      exact himg.apart.imp fun hab => hab.symm)
    (pagesNeeded_mono (htouched ▸ Finset.subset_insert _ _))
  rw [htouched] at hlaid₁
  have hfilled' := hfilled₁.congr fun ph => (hrev ph).symm
  obtain ⟨s₂, h₂, hlaid₂⟩ := hlaid₁.stack hfilled' himg.fits le_rfl
  refine ⟨{ ({ k with mem := s₁ } : Kern).setEnv e fun env =>
    { env with envTf := { env.envTf with tfEip := elf.eEntry } } with mem := s₂ }, ?_, ?_,
    hlaid₂.loaded hfilled' himg.fits, ?_⟩
  · have hread : readBinary (σ := Kern) (elfHeader binary) = pure elf := by
      rw [himg.header]
      rfl
    simp only [loadIcode, hread, Routine.pure_bind_run, if_neg (not_not_intro himg.magic),
      Routine.bind_ret (envPgdir_run hg), Routine.bind_ret (mem_ret h₁), Routine.modify_bind_run]
    exact mem_ret h₂
  · simp only [Kern.dirs, Kern.setEnv, Function.update_self]
    exact hg
  · simp only [Kern.setEnv, Function.update_self]

/-- A program with one segment, of one byte in the file and five in memory. -/
def tinyElf : List (BitVec 8) :=
  [0x7F, 0x45, 0x4C, 0x46] ++ List.replicate 20 0 ++ [0x20, 0x00, 0x80, 0x00] ++ [0x34, 0x00, 0x00, 0x00] ++
  List.replicate 12 0 ++ [0x01, 0x00] ++ List.replicate 6 0 ++
  [0x01, 0x00, 0x00, 0x00] ++ [0x54, 0x00, 0x00, 0x00] ++ [0x20, 0x00, 0x80, 0x00] ++ List.replicate 4 0 ++
  [0x01, 0x00, 0x00, 0x00] ++ [0x05, 0x00, 0x00, 0x00] ++ List.replicate 8 0 ++ [0x90]

def tinySegment : Proghdr := ⟨1#32, 84#32, 0x800020#32, 1#32, 5#32⟩

theorem tinyElf_image : ElfImage tinyElf ⟨elfMagic, 0x800020#32, 52#32, 1#16⟩ [tinySegment] := by
  constructor
  case header => rfl
  case magic => rfl
  case proghdrs => rfl
  case fits =>
    intro ph hmem
    obtain rfl : ph = tinySegment := List.mem_singleton.mp hmem
    constructor <;> decide
  case apart => exact List.pairwise_singleton _ _

/-- The first environment gets this program. -/
theorem load_icode_image_tiny : ∃ k k' g, k.dirs 0 = some g ∧ loadIcode 0 tinyElf k = .ret () k' ∧
    userMem k'.mem g 0x800020#32 = 0x90#8 ∧ userMem k'.mem g 0x800021#32 = 0#8 ∧
    (k'.envs 0).envTf.tfEip = 0x800020#32 := by
  obtain ⟨s, hm, hn, -⟩ := machine64_bootMem
  obtain ⟨g, hdir, hi, hsup, hbare⟩ := hm.memInv.setupDir_run (e := 0) rfl hn
  have hdirs : ((envInit (afterMemInit s)).alloced 0 0#32 g (s.newDir g)).dirs = Function.update noDirs 0 (some g) := by
    funext i
    rw [alloced_dirs, Function.update_apply]
    rfl
  have hneed : pagesNeeded (imagePages (loadable [tinySegment])) ≤ 63 := by decide
  obtain ⟨k', hrun, -, hload, heip⟩ := load_icode_image
    (k := (envInit (afterMemInit s)).alloced 0 0#32 g (s.newDir g)) (e := 0) (hdirs ▸ hi)
    (hdirs ▸ Function.update_self ..) hbare tinyElf_image (hsup.mono hneed).freePages
  have hfile := hload.file tinySegment (List.mem_singleton_self _) 0 (by decide)
  have hbss := hload.bss tinySegment (List.mem_singleton_self _) 1 (by decide) (by decide)
  exact ⟨_, k', g, hdirs ▸ Function.update_self .., hrun, (Option.some.inj hfile).symm, hbss, heip⟩

end LoadImage
end Sisop
