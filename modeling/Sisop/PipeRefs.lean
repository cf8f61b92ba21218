import Sisop.FdTable

/-! The pages of a pipe. Every environment that has one of its descriptors has the page
of the pipe as well, because `dup` maps that page first and `devpipe_close` unmaps it
last; so the page of the pipe has as many mappings as its two descriptor pages together. -/
namespace Sisop

/-- `INDEX2FD(j)` and `INDEX2DATA(j)`, for a descriptor in range. -/
def fdPage (j : ℕ) : ℕ := 0xD0000 + j

def dataPage (j : ℕ) : ℕ := 0xD0020 + j

section Slots

variable {sp : Space} {pn q : ℕ} {i : ℤ}

theorem index_of_range (h0 : 0 ≤ i) (h : i < maxfd) :
    ∃ j < maxfd, index2fd i = fdPage j ∧ index2data i = dataPage j := by
  refine ⟨i.toNat, by omega, ?_, ?_⟩
  · unfold index2fd fdPage
    change i < ((32 : ℕ) : ℤ) at h
    omega
  · unfold index2data dataPage
    change i < ((32 : ℕ) : ℤ) at h
    omega

theorem utopPages_eq : utopPages = 0xEEC00 := by decide

theorem uxstackPage_eq : uxstackPage = 0xEEBFF := by decide

theorem dataPage_lt {j : ℕ} (h : j < maxfd) : dataPage j < utopPages := by
  rw [utopPages_eq]
  unfold dataPage
  change j < 32 at h
  omega

theorem dataPage_ne_uxstack {j : ℕ} (h : j < maxfd) : dataPage j ≠ uxstackPage := by
  rw [uxstackPage_eq]
  unfold dataPage
  change j < 32 at h
  omega

theorem fdPage_ne_dataPage {j j' : ℕ} (h : j < maxfd) : fdPage j ≠ dataPage j' := by
  unfold fdPage dataPage
  change j < 32 at h
  omega

theorem mappedPage_update (sp : Space) (pn q : ℕ) (m : Option (ℕ × Word)) :
    mappedPage (Function.update sp pn m) q = if q = pn then m.map Prod.fst else mappedPage sp q := by
  unfold mappedPage
  rw [Function.update_apply]
  split <;> rfl

theorem mappedPage_unmapPage (sp : Space) (pn q : ℕ) :
    mappedPage (unmapPage sp pn) q =
      if q = pn ∧ pn < utopPages then none else mappedPage sp q := by
  unfold unmapPage
  by_cases hp : pn < utopPages
  · rw [if_pos hp, mappedPage_update]
    simp only [hp, and_true, Option.map_none]
  · simp only [hp, and_false, if_false]

/-- `sys_page_map` maps the page of the source at the destination. -/
theorem mapPage_page {mem : Bool} {src dst : ℕ} {perm : Word} {sp' : Space}
    (h : mapPage mem sp src dst perm = some sp') :
    (mappedPage sp src).isSome ∧ dst < utopPages ∧
      ∀ q, mappedPage sp' q = if q = dst then mappedPage sp src else mappedPage sp q := by
  unfold mapPage at h
  split at h
  · cases h
  · next page pte hsrc =>
    split at h
    · next hc =>
      have hp : mappedPage sp src = some page := by
        unfold mappedPage
        rw [hsrc]
        rfl
      cases h
      refine ⟨by rw [hp]; rfl, hc.2.2.1, fun q => ?_⟩
      rw [mappedPage_update, hp]
      rfl
    · cases h

end Slots

/-- The pages of a pipe: those of its two descriptors, and its own. -/
structure PipePages where
  rfd : ℕ
  wfd : ℕ
  data : ℕ

/-- A page of a descriptor of the pipe. -/
def PipePages.IsFd (pp : PipePages) (p : ℕ) : Prop := p = pp.rfd ∨ p = pp.wfd

/-- The pages of the descriptors are mapped as such, each along with the page of the pipe. -/
def SlotsOk (pp : PipePages) (sp : Space) : Prop :=
  ∀ pn p, mappedPage sp pn = some p → pp.IsFd p →
    ∃ j < maxfd, pn = fdPage j ∧ mappedPage sp (dataPage j) = some pp.data

section SpaceSlots

variable {pp : PipePages} {sp sp' : Space} {i : ℤ}

theorem SlotsOk.congr (h : SlotsOk pp sp) (hm : ∀ q, mappedPage sp' q = mappedPage sp q) :
    SlotsOk pp sp' := by
  intro pn p hp hpp
  obtain ⟨j, hj, hpn, hd⟩ := h pn p (hm pn ▸ hp) hpp
  exact ⟨j, hj, hpn, (hm _).trans hd⟩

/-- A page is unmapped, but not the page of the pipe from under a descriptor. -/
theorem SlotsOk.unmap {pn : ℕ} (h : SlotsOk pp sp)
    (hpn : ∀ j < maxfd, pn = dataPage j → mappedPage sp (fdPage j) = none) :
    SlotsOk pp (unmapPage sp pn) := by
  intro q p hq hp
  rw [mappedPage_unmapPage] at hq
  split at hq
  · cases hq
  · obtain ⟨j, hj, rfl, hdata⟩ := h q p hq hp
    refine ⟨j, hj, rfl, ?_⟩
    rw [mappedPage_unmapPage, if_neg, hdata]
    rintro ⟨heq, -⟩
    rw [hpn j hj heq.symm] at hq
    cases hq

theorem SlotsOk.unmapFd (h : SlotsOk pp sp) (h0 : 0 ≤ i) (hi : i < maxfd) :
    SlotsOk pp (unmapPage sp (index2fd i)) := by
  obtain ⟨j, hj, hfd, -⟩ := index_of_range h0 hi
  rw [hfd]
  exact h.unmap fun j' _ heq => absurd heq (fdPage_ne_dataPage hj)

theorem SlotsOk.unmapData (h : SlotsOk pp sp) (h0 : 0 ≤ i) (hi : i < maxfd)
    (hfd : mappedPage sp (index2fd i) = none) : SlotsOk pp (unmapPage sp (index2data i)) := by
  obtain ⟨j, -, hj, hdata⟩ := index_of_range h0 hi
  rw [hdata]
  apply h.unmap
  intro j' _ heq
  have hjj : j = j' := by
    unfold dataPage at heq
    omega
  rw [← hjj, ← hj, hfd]

/-- A page is mapped: at a data page without a descriptor, or at a descriptor that has
the page of the pipe if need be. -/
theorem SlotsOk.map {dst : ℕ} {m : Option ℕ} (h : SlotsOk pp sp)
    (hmap : ∀ q, mappedPage sp' q = if q = dst then m else mappedPage sp q)
    (hdst : ∀ p, m = some p → pp.IsFd p →
      ∃ j < maxfd, dst = fdPage j ∧ mappedPage sp (dataPage j) = some pp.data)
    (hdata : ∀ j < maxfd, dst = dataPage j → mappedPage sp (fdPage j) = none) : SlotsOk pp sp' := by
  intro q p hq hp
  rw [hmap] at hq
  split at hq
  · next heq =>
    obtain ⟨j, hj, hfd, hd⟩ := hdst p hq hp
    refine ⟨j, hj, heq.trans hfd, ?_⟩
    rw [hmap, if_neg, hd]
    rw [hfd]
    exact (fdPage_ne_dataPage hj).symm
  · obtain ⟨j, hj, rfl, hd⟩ := h q p hq hp
    refine ⟨j, hj, rfl, ?_⟩
    rw [hmap, if_neg, hd]
    intro heq
    rw [hdata j hj heq.symm] at hq
    cases hq

end SpaceSlots

/-- A file descriptor in range. -/
def FdInRange (i : ℤ) : Prop := 0 ≤ i ∧ i < maxfd

/-- What an environment knows of its own descriptors. -/
def PcOk {E : Type} (pp : PipePages) (sp : Space) : FdPc E → Prop
  | .closeFd i k | .closeEnd i k => FdInRange i ∧ ∀ old, k = some old → FdInRange old
  | .closeData i k =>
    FdInRange i ∧ (∀ old, k = some old → FdInRange old) ∧ mappedPage sp (index2fd i) = none
  | .dupData old new => FdInRange old ∧ FdInRange new ∧ mappedPage sp (index2fd new) = none
  | .dupFd old new => FdInRange old ∧ FdInRange new ∧ mappedPage sp (index2fd new) = none ∧
      ∀ p, mappedPage sp (index2fd old) = some p → pp.IsFd p →
        mappedPage sp (index2data new) = some pp.data
  | .errFd new => FdInRange new
  | .errData new => FdInRange new ∧ mappedPage sp (index2fd new) = none
  | .idle | .dupPage .. | .remap .. | .pagerefFd .. | .pagerefData .. | .checkRuns .. | .embryo |
    .free => True

/-- The child that `fork` is filling, and the first page it has not come to. -/
def FdPc.copying {E : Type} : FdPc E → Option (E × ℕ)
  | .dupPage child pn => some (child, pn)
  | .remap child pn => some (child, pn + 1)
  | _ => none

/-- The environment is neither in a `fork` nor a child of one. -/
structure FdPc.Plain {E : Type} (pc : FdPc E) : Prop where
  copying : pc.copying = none
  embryo : pc ≠ .embryo
  free : pc ≠ .free

section Ops

variable {E : Type} {pp : PipePages} {sp sp' : Space} {pc pc' : FdPc E} {i old new : ℤ}
  {k : Option ℤ} {mem : Bool} {dev : ℕ → Option Dev}

theorem fd_ne_data (hi : FdInRange i) (hn : FdInRange new) : index2fd i ≠ index2data new := by
  obtain ⟨j, hj, hfd, -⟩ := index_of_range hi.1 hi.2
  obtain ⟨j', -, -, hd⟩ := index_of_range hn.1 hn.2
  rw [hfd, hd]
  exact fdPage_ne_dataPage hj

theorem mappedPage_unmapFd (hi : FdInRange i) :
    mappedPage (unmapPage sp (index2fd i)) (index2fd i) = none := by
  obtain ⟨j, hj, hfd, -⟩ := index_of_range hi.1 hi.2
  have hlt : index2fd i < utopPages := by
    rw [hfd, utopPages_eq]
    unfold fdPage
    change j < 32 at hj
    omega
  rw [mappedPage_unmapPage, if_pos ⟨rfl, hlt⟩]

theorem mappedPage_none_of_not_isSome {pn : ℕ} (h : ¬ (sp pn).isSome) : mappedPage sp pn = none := by
  unfold mappedPage
  rw [Option.not_isSome_iff_eq_none.mp h]
  rfl

theorem pcOk_afterClose (hi : FdInRange i) (hk : ∀ old, k = some old → FdInRange old)
    (hfd : mappedPage sp (index2fd i) = none) :
    PcOk pp sp (FdPc.afterClose i k : FdPc E) ∧ (FdPc.afterClose i k : FdPc E).Plain := by
  cases k with
  | none => exact ⟨trivial, rfl, nofun, nofun⟩
  | some old => exact ⟨⟨hk old rfl, hi, hfd⟩, rfl, nofun, nofun⟩

/-- The start of a `close`, or of a `dup` onto a descriptor in range. -/
theorem pcOk_closeStart (hk : ∀ old, k = some old → FdInRange old ∧ FdInRange i) :
    PcOk pp sp (closeStart dev sp i k : FdPc E) ∧ (closeStart dev sp i k : FdPc E).Plain := by
  unfold closeStart
  by_cases hl : FdLookup sp i
  · rw [if_pos hl]
    have hi : FdInRange i := ⟨hl.1, hl.2.1⟩
    split
    · exact ⟨⟨hi, fun old h => (hk old h).1⟩, rfl, nofun, nofun⟩
    · exact ⟨⟨hi, fun old h => (hk old h).1⟩, rfl, nofun, nofun⟩
  · rw [if_neg hl]
    cases k with
    | none => exact ⟨trivial, rfl, nofun, nofun⟩
    | some old =>
      obtain ⟨hold, hi⟩ := hk old rfl
      have hfd := mappedPage_none_of_not_isSome fun h => hl ⟨hi.1, hi.2, h⟩
      exact ⟨⟨hold, hi, hfd⟩, rfl, nofun, nofun⟩

theorem SlotsOk.data_of_fd {p : ℕ} (h : SlotsOk pp sp) (hi : FdInRange i)
    (hp : mappedPage sp (index2fd i) = some p) (hpp : pp.IsFd p) :
    mappedPage sp (index2data i) = some pp.data := by
  obtain ⟨j, -, hj, hd⟩ := h _ p hp hpp
  obtain ⟨j', -, hfd, hdata⟩ := index_of_range hi.1 hi.2
  have hjj : j = j' := by
    rw [hfd] at hj
    unfold fdPage at hj
    omega
  rw [hdata, ← hjj, hd]

/-- A page is mapped at a data page of which the descriptor is not open. -/
theorem SlotsOk.mapData (h : SlotsOk pp sp) (hold : FdInRange old) (hnew : FdInRange new)
    (hfd : mappedPage sp (index2fd new) = none)
    (hmap : ∀ q, mappedPage sp' q =
      if q = index2data new then mappedPage sp (index2data old) else mappedPage sp q) :
    SlotsOk pp sp' := by
  obtain ⟨j, hj, hfdj, hdj⟩ := index_of_range hnew.1 hnew.2
  apply h.map hmap
  · intro p hp hpp
    obtain ⟨j', hj', heq, -⟩ := h _ p hp hpp
    obtain ⟨j'', -, -, hd⟩ := index_of_range hold.1 hold.2
    exact absurd (heq.symm.trans hd) (fdPage_ne_dataPage hj')
  · intro j' _ heq
    have hjj : j = j' := by
      rw [hdj] at heq
      unfold dataPage at heq
      omega
    rw [← hjj, ← hfdj, hfd]

/-- A descriptor page is mapped where the page of the pipe is. -/
theorem SlotsOk.mapFd (h : SlotsOk pp sp) (hnew : FdInRange new)
    (hdata : ∀ p, mappedPage sp (index2fd old) = some p → pp.IsFd p →
      mappedPage sp (index2data new) = some pp.data)
    (hmap : ∀ q, mappedPage sp' q =
      if q = index2fd new then mappedPage sp (index2fd old) else mappedPage sp q) :
    SlotsOk pp sp' := by
  obtain ⟨j, hj, hfdj, hdj⟩ := index_of_range hnew.1 hnew.2
  apply h.map hmap
  · intro p hp hpp
    exact ⟨j, hj, hfdj, hdj ▸ hdata p hp hpp⟩
  · intro j' _ heq
    exact absurd (hfdj.symm.trans heq) (fdPage_ne_dataPage hj)

/-- One page system call of `close` or `dup`. -/
theorem SlotsOk.op (h : SlotsOk pp sp) (hpc : PcOk pp sp pc) (hop : pc.op mem sp = some (sp', pc')) :
    SlotsOk pp sp' ∧ PcOk pp sp' pc' ∧ pc'.Plain := by
  cases pc with
  | closeFd i k =>
    obtain ⟨hi, hk⟩ := hpc
    cases hop
    exact ⟨h.unmapFd hi.1 hi.2, ⟨hi, hk, mappedPage_unmapFd hi⟩, rfl, nofun, nofun⟩
  | closeData i k =>
    obtain ⟨hi, hk, hfd⟩ := hpc
    cases hop
    exact ⟨h.unmapData hi.1 hi.2 hfd, ⟨hi, hk⟩, rfl, nofun, nofun⟩
  | closeEnd i k =>
    obtain ⟨hi, hk⟩ := hpc
    cases hop
    exact ⟨h.unmapFd hi.1 hi.2, pcOk_afterClose hi hk (mappedPage_unmapFd hi)⟩
  | dupData old new =>
    obtain ⟨hold, hnew, hfd⟩ := hpc
    simp only [FdPc.op] at hop
    split at hop
    · split at hop
      · next sp₁ hmap =>
        cases hop
        obtain ⟨-, -, hm⟩ := mapPage_page hmap
        refine ⟨h.mapData hold hnew hfd hm, ⟨hold, hnew, ?_, ?_⟩, rfl, nofun, nofun⟩
        · rw [hm, if_neg (fd_ne_data hnew hnew), hfd]
        · intro p hp hpp
          rw [hm, if_neg (fd_ne_data hold hnew)] at hp
          rw [hm, if_pos rfl, h.data_of_fd hold hp hpp]
      · cases hop
        exact ⟨h, hnew, rfl, nofun, nofun⟩
    · next hn =>
      cases hop
      refine ⟨h, ⟨hold, hnew, hfd, ?_⟩, rfl, nofun, nofun⟩
      intro p hp hpp
      -- a descriptor of the pipe has a data page
      have hd := h.data_of_fd hold hp hpp
      rw [mappedPage_none_of_not_isSome hn] at hd
      cases hd
  | dupFd old new =>
    obtain ⟨hold, hnew, hfd, hdata⟩ := hpc
    simp only [FdPc.op] at hop
    split at hop
    · next sp₁ hmap =>
      cases hop
      obtain ⟨-, -, hm⟩ := mapPage_page hmap
      exact ⟨h.mapFd hnew hdata hm, trivial, rfl, nofun, nofun⟩
    · cases hop
      exact ⟨h, hnew, rfl, nofun, nofun⟩
  | errFd new =>
    cases hop
    exact ⟨h.unmapFd hpc.1 hpc.2, ⟨hpc, mappedPage_unmapFd hpc⟩, rfl, nofun, nofun⟩
  | errData new =>
    obtain ⟨hnew, hfd⟩ := hpc
    cases hop
    exact ⟨h.unmapData hnew.1 hnew.2 hfd, trivial, rfl, nofun, nofun⟩
  | idle | dupPage | remap | pagerefFd | pagerefData | checkRuns | embryo | free => cases hop

end Ops

/-- The descriptors of all environments are in order; the children of `fork` have got a
part of their parent's pages. -/
structure FdInv {E : Type} (pp : PipePages) (s : FdSys E) : Prop where
  slots : ∀ e, s.pc e ≠ .embryo → SlotsOk pp (s.space e)
  pcs : ∀ e, PcOk pp (s.space e) (s.pc e)
  copies : ∀ e c pn, (s.pc e).copying = some (c, pn) → s.pc c = .embryo ∧
    ∀ q, mappedPage (s.space c) q =
      if q < pn ∧ q ≠ uxstackPage then mappedPage (s.space e) q else none
  unique : ∀ e e' c pn pn', (s.pc e).copying = some (c, pn) → (s.pc e').copying = some (c, pn') → e = e'
  free : ∀ e, s.pc e = .free → s.space e = fun _ => none

/-- `dup` is called for a descriptor in range only. -/
def FdEvent.Fits {E : Type} : FdEvent E → Prop
  | .dup _ _ new => FdInRange new
  | _ => True

/-- The same pages at the same places, and the same children. -/
theorem FdInv.congr {E : Type} {pp : PipePages} {s s' : FdSys E} (h : FdInv pp s)
    (hm : ∀ i q, mappedPage (s'.space i) q = mappedPage (s.space i) q)
    (hc : ∀ i, (s'.pc i).copying = (s.pc i).copying) (he : ∀ i, s'.pc i = .embryo ↔ s.pc i = .embryo)
    (hpcs : ∀ i, PcOk pp (s'.space i) (s'.pc i)) (hf : ∀ i, s'.pc i = .free → s'.space i = fun _ => none) :
    FdInv pp s' := by
  refine ⟨fun i hi => ?_, hpcs, fun i c pn hi => ?_, fun i i' c pn pn' hi hi' => ?_, hf⟩
  · exact (h.slots i fun hemb => hi ((he i).mpr hemb)).congr (hm i)
  · obtain ⟨hemb, hq⟩ := h.copies i c pn (hc i ▸ hi)
    refine ⟨(he c).mpr hemb, fun q => ?_⟩
    rw [hm, hm]
    exact hq q
  · exact h.unique i i' c pn pn' (hc i ▸ hi) (hc i' ▸ hi')

section System

variable {E : Type} [DecidableEq E] {pp : PipePages} {s s' : FdSys E} {ev : FdEvent E}
  {dev : ℕ → Option Dev} {e c : E} {sp : Space} {pc : FdPc E}

theorem setPc_pc (s : FdSys E) (e : E) (pc : FdPc E) (i : E) :
    (s.setPc e pc).pc i = if i = e then pc else s.pc i := Function.update_apply ..

theorem setSpace_space (s : FdSys E) (e : E) (sp : Space) (i : E) :
    (s.setSpace e sp).space i = if i = e then sp else s.space i := Function.update_apply ..

/-- An environment changes its own pages, and leaves its `fork` if it was in one. -/
theorem FdInv.own (h : FdInv pp s) (hs : SlotsOk pp sp) (hpc : PcOk pp sp pc) (hcopy : pc.copying = none)
    (hfree : pc = .free → sp = fun _ => none) (hold : s.pc e ≠ .embryo) :
    FdInv pp ((s.setSpace e sp).setPc e pc) := by
  refine ⟨fun i hi => ?_, fun i => ?_, fun i c pn hi => ?_, fun i i' c pn pn' hi hi' => ?_, fun i hi => ?_⟩
  · change SlotsOk pp ((s.setSpace e sp).space i)
    rw [setPc_pc] at hi
    rw [setSpace_space]
    split
    · exact hs
    · next hie => exact h.slots i (by rwa [if_neg hie] at hi)
  · change PcOk pp ((s.setSpace e sp).space i) _
    rw [setPc_pc, setSpace_space]
    split
    · exact hpc
    · exact h.pcs i
  · rw [setPc_pc] at hi
    split at hi
    · rw [hcopy] at hi
      cases hi
    · next hie =>
      obtain ⟨hc, hm⟩ := h.copies i c pn hi
      have hce : c ≠ e := by
        rintro rfl
        exact hold hc
      refine ⟨by rw [setPc_pc, if_neg hce]; exact hc, fun q => ?_⟩
      change mappedPage ((s.setSpace e sp).space c) q =
        if _ then mappedPage ((s.setSpace e sp).space i) q else none
      rw [setSpace_space, setSpace_space, if_neg hce, if_neg hie]
      exact hm q
  · rw [setPc_pc] at hi hi'
    split at hi
    · rw [hcopy] at hi
      cases hi
    · split at hi'
      · rw [hcopy] at hi'
        cases hi'
      · exact h.unique i i' c pn pn' hi hi'
  · change (s.setSpace e sp).space i = _
    rw [setPc_pc] at hi
    rw [setSpace_space]
    split
    · next hie => exact hfree (by rwa [if_pos hie] at hi)
    · next hie => exact h.free i (by rwa [if_neg hie] at hi)

theorem FdInv.setPc (h : FdInv pp s) (hpc : PcOk pp (s.space e) pc) (hpl : pc.Plain)
    (hold : s.pc e ≠ .embryo) : FdInv pp (s.setPc e pc) := by
  have hown := h.own (h.slots e hold) hpc hpl.copying (fun hf => absurd hf hpl.free) hold
  have hsame : s.setSpace e (s.space e) = s := by
    unfold FdSys.setSpace
    rw [Function.update_eq_self]
  rwa [hsame] at hown

/-- `sys_exofork`. -/
theorem FdInv.fork (h : FdInv pp s) (hpc : s.pc e = .idle) (hc : s.pc c = .free) :
    FdInv pp ((s.setPc c .embryo).setPc e (.dupPage c 0)) := by
  have hce : c ≠ e := by
    rintro rfl
    rw [hpc] at hc
    cases hc
  refine ⟨fun i hi => ?_, fun i => ?_, fun i c' pn hi => ?_, fun i i' c' pn pn' hi hi' => ?_, fun i hi => ?_⟩
  · apply h.slots i
    intro hemb
    simp only [setPc_pc] at hi
    split_ifs at hi with hie hic
    · rw [hie, hpc] at hemb
      cases hemb
    · exact hi rfl
    · exact hi hemb
  · change PcOk pp (s.space i) _
    simp only [setPc_pc]
    split_ifs
    · trivial
    · trivial
    · exact h.pcs i
  · simp only [setPc_pc] at hi ⊢
    split_ifs at hi with hie hic
    · cases hi
      refine ⟨by rw [if_neg hce, if_pos rfl], fun q => ?_⟩
      change mappedPage (s.space c) q = _
      rw [h.free c hc, if_neg (fun hq => Nat.not_lt_zero q hq.1)]
      rfl
    · cases hi
    · obtain ⟨hemb, hq⟩ := h.copies i c' pn hi
      have hne : c' ≠ e := by
        rintro rfl
        rw [hpc] at hemb
        cases hemb
      have hnc : c' ≠ c := by
        rintro rfl
        rw [hc] at hemb
        cases hemb
      exact ⟨by rw [if_neg hne, if_neg hnc]; exact hemb, hq⟩
  · -- nobody else was copying to a free environment
    have hno (i : E) (pn : ℕ) (hi : (s.pc i).copying = some (c, pn)) : False := by
      have hemb := (h.copies i c pn hi).1
      rw [hc] at hemb
      cases hemb
    simp only [setPc_pc] at hi hi'
    split_ifs at hi with hie hic
    · cases hi
      split_ifs at hi' with hie' hic'
      · rw [hie, hie']
      · cases hi'
      · exact (hno i' pn' hi').elim
    · cases hi
    · split_ifs at hi' with hie' hic'
      · cases hi'
        exact (hno i pn hi).elim
      · cases hi'
      · exact h.unique i i' c' pn pn' hi hi'
  · simp only [setPc_pc] at hi
    split_ifs at hi
    exact h.free i hi

/-- `duppage` of the next page. -/
theorem FdInv.dupPage {pn q page : ℕ} {pte : Word} (h : FdInv pp s) (hpc : s.pc e = .dupPage c pn)
    (hle : pn ≤ q) (hx : q ≠ uxstackPage) (hq : mappedPage (s.space e) q = some page)
    (hskip : ∀ u, pn ≤ u → u < q → Skipped (s.space e) u) (hcopy : pc.copying = some (c, q + 1))
    (hok : ∀ sp, PcOk pp sp pc) (hfree : pc ≠ .free) :
    FdInv pp ((s.setSpace c (Function.update (s.space c) q (some (page, pte)))).setPc e pc) := by
  have hcp : (s.pc e).copying = some (c, pn) := by
    rw [hpc]
    rfl
  obtain ⟨hc, hm⟩ := h.copies e c pn hcp
  have hce : c ≠ e := by
    rintro rfl
    rw [hpc] at hc
    cases hc
  refine ⟨fun i hi => ?_, fun i => ?_, fun i c' pn' hi => ?_, fun i i' c' pn' pn'' hi hi' => ?_,
    fun i hi => ?_⟩
  · rw [setPc_pc] at hi
    change SlotsOk pp ((s.setSpace c _).space i)
    have hic : i ≠ c := by
      rintro rfl
      rw [if_neg hce] at hi
      exact hi hc
    rw [setSpace_space, if_neg hic]
    apply h.slots i
    intro hi'
    split_ifs at hi with hie
    · rw [hie, hpc] at hi'
      cases hi'
    · exact hi hi'
  · rw [setPc_pc]
    change PcOk pp ((s.setSpace c _).space i) _
    split_ifs with hie
    · exact hok _
    · rw [setSpace_space]
      split_ifs with hic
      · change PcOk pp _ (s.pc i)
        rw [hic, hc]
        trivial
      · exact h.pcs i
  · rw [setPc_pc] at hi
    split_ifs at hi with hie
    · rw [hcopy] at hi
      cases hi
      subst hie
      refine ⟨by rw [setPc_pc, if_neg hce]; exact hc, fun q' => ?_⟩
      change mappedPage ((s.setSpace c _).space c) q' =
        if _ then mappedPage ((s.setSpace c _).space i) q' else none
      rw [setSpace_space, setSpace_space, if_pos rfl, if_neg hce.symm, mappedPage_update, hm]
      by_cases hqq : q' = q
      · rw [if_pos hqq, hqq, if_pos ⟨Nat.lt_succ_self q, hx⟩, hq]
        rfl
      · rw [if_neg hqq]
        by_cases hlt : q' < pn
        · have hlt' : q' < q + 1 := by omega
          simp only [hlt, hlt', true_and]
        · rw [if_neg fun h => hlt h.1]
          -- the pages in between were passed over
          split_ifs with h'
          · rcases hskip q' (by omega) (by omega) with hnone | hux
            · unfold mappedPage
              rw [hnone]
              rfl
            · exact absurd hux h'.2
          · rfl
    · obtain ⟨hemb', hm'⟩ := h.copies i c' pn' hi
      have hcc : c' ≠ c := by
        rintro rfl
        exact hie (h.unique i e c' pn' pn hi hcp)
      have hne : c' ≠ e := by
        rintro rfl
        rw [hpc] at hemb'
        cases hemb'
      have hic : i ≠ c := by
        rintro rfl
        change (s.pc i).copying = _ at hi
        rw [hc] at hi
        cases hi
      refine ⟨by rw [setPc_pc, if_neg hne]; exact hemb', fun q' => ?_⟩
      change mappedPage ((s.setSpace c _).space c') q' =
        if _ then mappedPage ((s.setSpace c _).space i) q' else none
      rw [setSpace_space, setSpace_space, if_neg hcc, if_neg hic]
      exact hm' q'
  · -- the child of `e` is the same as before
    have hsame (i : E) (n : ℕ) (hi : (((s.setSpace c (Function.update (s.space c) q
        (some (page, pte)))).setPc e pc).pc i).copying = some (c', n)) :
        ∃ n', (s.pc i).copying = some (c', n') := by
      rw [setPc_pc] at hi
      split_ifs at hi with hie
      · rw [hcopy] at hi
        cases hi
        exact ⟨pn, hie ▸ hcp⟩
      · exact ⟨n, hi⟩
    obtain ⟨n, hn⟩ := hsame i pn' hi
    obtain ⟨n', hn'⟩ := hsame i' pn'' hi'
    exact h.unique i i' c' n n' hn hn'
  · rw [setPc_pc] at hi
    change (s.setSpace c _).space i = _
    split_ifs at hi with hie
    · exact absurd hi hfree
    · have hic : i ≠ c := by
        rintro rfl
        change s.pc i = _ at hi
        rw [hc] at hi
        cases hi
      rw [setSpace_space, if_neg hic]
      exact h.free i hi

/-- `fork` has come to its end, and the child may run. -/
theorem FdInv.forkEnd {pn : ℕ} (h : FdInv pp s) (hpc : s.pc e = .dupPage c pn)
    (hskip : ∀ u, pn ≤ u → u < utopPages → Skipped (s.space e) u) :
    FdInv pp ((s.setPc c .idle).setPc e .idle) := by
  have hcp : (s.pc e).copying = some (c, pn) := by
    rw [hpc]
    rfl
  obtain ⟨hc, hm⟩ := h.copies e c pn hcp
  have he : s.pc e ≠ .embryo := by
    rw [hpc]
    exact nofun
  have hchild : SlotsOk pp (s.space c) := by
    intro q p hq hp
    rw [hm] at hq
    split_ifs at hq
    obtain ⟨j, hj, rfl, hd⟩ := h.slots e he q p hq hp
    refine ⟨j, hj, rfl, ?_⟩
    have hlt : dataPage j < pn := by
      by_contra hge
      rcases hskip _ (Nat.le_of_not_lt hge) (dataPage_lt hj) with hnone | hux
      · unfold mappedPage at hd
        rw [hnone] at hd
        cases hd
      · exact dataPage_ne_uxstack hj hux
    rw [hm, if_pos ⟨hlt, dataPage_ne_uxstack hj⟩, hd]
  refine ⟨fun i hi => ?_, fun i => ?_, fun i c' pn' hi => ?_, fun i i' c' pn' pn'' hi hi' => ?_,
    fun i hi => ?_⟩
  · change SlotsOk pp (s.space i)
    by_cases hic : i = c
    · rwa [hic]
    · apply h.slots i
      intro hemb
      simp only [setPc_pc] at hi
      split_ifs at hi with hie
      · exact he (hie ▸ hemb)
      · exact hi hemb
  · simp only [setPc_pc]
    split_ifs
    · trivial
    · trivial
    · exact h.pcs i
  · simp only [setPc_pc] at hi ⊢
    split_ifs at hi with hie hic
    · cases hi
    · cases hi
    · obtain ⟨hemb, hq⟩ := h.copies i c' pn' hi
      have hne : c' ≠ e := by
        rintro rfl
        exact he hemb
      have hnc : c' ≠ c := by
        rintro rfl
        exact hie (h.unique i e c' pn' pn hi hcp)
      exact ⟨by rw [if_neg hne, if_neg hnc]; exact hemb, hq⟩
  · simp only [setPc_pc] at hi hi'
    split_ifs at hi
    · cases hi
    · cases hi
    · split_ifs at hi'
      · cases hi'
      · cases hi'
      · exact h.unique i i' c' pn' pn'' hi hi'
  · simp only [setPc_pc] at hi
    split_ifs at hi
    exact h.free i hi

/-- One step of an environment. -/
theorem FdInv.step [Fintype E] (h : FdInv pp s) (hs : FdStep dev s ev s') (hev : ev.Fits) :
    FdInv pp s' := by
  cases hs with
  | close e i hpc =>
    have hk : PcOk pp (s.space e) (closeStart dev (s.space e) i none : FdPc E) ∧
        (closeStart dev (s.space e) i none : FdPc E).Plain := pcOk_closeStart nofun
    exact h.setPc hk.1 hk.2 (by rw [hpc]; exact nofun)
  | dup e old new hpc hl =>
    have hk : PcOk pp (s.space e) (closeStart dev (s.space e) new (some old) : FdPc E) ∧
        (closeStart dev (s.space e) new (some old) : FdPc E).Plain := by
      apply pcOk_closeStart
      intro o ho
      cases ho
      exact ⟨⟨hl.1, hl.2.1⟩, hev⟩
    exact h.setPc hk.1 hk.2 (by rw [hpc]; exact nofun)
  | op e mem hop =>
    have hemb : s.pc e ≠ .embryo := by
      intro hpc
      rw [hpc] at hop
      cases hop
    obtain ⟨hsl, hpc, hpl⟩ := (h.slots e hemb).op (h.pcs e) hop
    exact h.own hsl hpc hpl.copying (fun hf => absurd hf hpl.free) hemb
  | exit e hf hc =>
    have hnone : SlotsOk pp fun _ => none := by
      intro pn p hp
      cases hp
    exact h.own hnone trivial rfl (fun _ => rfl) hc
  | fork e c hpc hc => exact h.fork hpc hc
  | dupPage e hpc hle hlt hx hq hskip =>
    have hqp : mappedPage (s.space e) _ = some _ := congrArg (Option.map Prod.fst) hq
    split
    · exact h.dupPage hpc hle hx hqp hskip rfl (fun _ => trivial) nofun
    · exact h.dupPage hpc hle hx hqp hskip rfl (fun _ => trivial) nofun
  | @remap e c q page pte hpc hq =>
    have hqp : mappedPage (s.space e) q = some page := congrArg (Option.map Prod.fst) hq
    have hs : s.pc e ≠ .embryo ∧ s.pc e ≠ .free := by
      rw [hpc]
      exact ⟨nofun, nofun⟩
    apply h.congr
    · intro i q'
      change mappedPage ((s.setSpace e _).space i) q' = _
      rw [setSpace_space]
      split_ifs with hie
      · rw [mappedPage_update, hie]
        split_ifs with hqq
        · rw [hqq, hqp]
          rfl
        · rfl
      · rfl
    · intro i
      rw [setPc_pc]
      split_ifs with hie
      · rw [hie, hpc]
        rfl
      · rfl
    · intro i
      rw [setPc_pc]
      split_ifs with hie
      · rw [hie]
        exact ⟨nofun, fun hemb => absurd hemb hs.1⟩
      · rfl
    · intro i
      rw [setPc_pc]
      change PcOk pp ((s.setSpace e _).space i) _
      split_ifs with hie
      · trivial
      · rw [setSpace_space, if_neg hie]
        exact h.pcs i
    · intro i hi
      rw [setPc_pc] at hi
      split_ifs at hi with hie
      change (s.setSpace e _).space i = _
      rw [setSpace_space, if_neg hie]
      exact h.free i hi
  | forkEnd e hpc hskip => exact h.forkEnd hpc hskip
  | isClosed e i hpc hl => exact h.setPc trivial ⟨rfl, nofun, nofun⟩ (by rw [hpc]; exact nofun)
  | pagerefFd e hpc => exact h.setPc trivial ⟨rfl, nofun, nofun⟩ (by rw [hpc]; exact nofun)
  | pagerefData e hpc => exact h.setPc trivial ⟨rfl, nofun, nofun⟩ (by rw [hpc]; exact nofun)
  | again e hpc hr => exact h.setPc trivial ⟨rfl, nofun, nofun⟩ (by rw [hpc]; exact nofun)
  | closedRet e hpc hr => exact h.setPc trivial ⟨rfl, nofun, nofun⟩ (by rw [hpc]; exact nofun)
  | resched e => exact ⟨h.slots, h.pcs, h.copies, h.unique, h.free⟩

end System

/-- No environment is in a `fork`. -/
def NotForking {E : Type} (s : FdSys E) : Prop := ∀ e, (s.pc e).copying = none ∧ s.pc e ≠ .embryo

section NotForking

variable {E : Type} [DecidableEq E] {pp : PipePages} {s s' : FdSys E} {ev : FdEvent E}
  {dev : ℕ → Option Dev}

theorem NotForking.setPc {e : E} {pc : FdPc E} (h : NotForking s) (hc : pc.copying = none)
    (he : pc ≠ .embryo) : NotForking (s.setPc e pc) := by
  intro i
  rw [setPc_pc]
  split_ifs
  · exact ⟨hc, he⟩
  · exact h i

theorem NotForking.step [Fintype E] (h : NotForking s) (hi : FdInv pp s) (hs : FdStep dev s ev s') (hev : ev.Fits)
    (hf : ∀ e c, ev ≠ .fork e c) : NotForking s' := by
  cases hs with
  | close e i hpc =>
    have hk : PcOk pp (s.space e) (closeStart dev (s.space e) i none : FdPc E) ∧
        (closeStart dev (s.space e) i none : FdPc E).Plain := pcOk_closeStart nofun
    exact h.setPc hk.2.copying hk.2.embryo
  | dup e old new hpc hl =>
    have hk : PcOk pp (s.space e) (closeStart dev (s.space e) new (some old) : FdPc E) ∧
        (closeStart dev (s.space e) new (some old) : FdPc E).Plain := by
      apply pcOk_closeStart
      intro o ho
      cases ho
      exact ⟨⟨hl.1, hl.2.1⟩, hev⟩
    exact h.setPc hk.2.copying hk.2.embryo
  | op e mem hop =>
    obtain ⟨-, -, hpl⟩ := (hi.slots e (h e).2).op (hi.pcs e) hop
    intro i
    rw [setPc_pc]
    split_ifs
    · exact ⟨hpl.copying, hpl.embryo⟩
    · exact h i
  | exit e _ _ =>
    intro i
    rw [setPc_pc]
    split_ifs
    · exact ⟨rfl, nofun⟩
    · exact h i
  | fork e c => exact absurd rfl (hf e c)
  | dupPage e hpc => exact absurd (h e).1 (by rw [hpc]; exact nofun)
  | remap e hpc => exact absurd (h e).1 (by rw [hpc]; exact nofun)
  | forkEnd e hpc => exact absurd (h e).1 (by rw [hpc]; exact nofun)
  | isClosed | pagerefFd | pagerefData | again | closedRet => exact h.setPc rfl nofun
  | resched => exact h

end NotForking

section Counts

variable {E : Type} [Fintype E] {pp : PipePages} {s : FdSys E}

/-- The page of the pipe is mapped as often as its two descriptor pages together. -/
theorem refs_le (hpp : pp.rfd ≠ pp.wfd) (h : ∀ e, SlotsOk pp (s.space e)) :
    s.refs pp.rfd + s.refs pp.wfd ≤ s.refs pp.data := by
  classical
  unfold FdSys.refs
  rw [← Finset.card_union_of_disjoint]
  · -- to the mapping of a descriptor page belongs that of the page of the pipe
    apply Finset.card_le_card_of_injOn fun x => (x.1, x.2 + 32)
    · rintro ⟨e, pn⟩ hx
      have hpn : ∃ p, mappedPage (s.space e) pn = some p ∧ pp.IsFd p := by
        rcases Finset.mem_union.mp hx with hx | hx
        · exact ⟨_, (Finset.mem_filter.mp hx).2, Or.inl rfl⟩
        · exact ⟨_, (Finset.mem_filter.mp hx).2, Or.inr rfl⟩
      obtain ⟨p, hp, hfd⟩ := hpn
      obtain ⟨j, hj, rfl, hd⟩ := h e pn p hp hfd
      have hj32 : fdPage j + 32 = dataPage j := by
        unfold fdPage dataPage
        omega
      refine Finset.mem_filter.mpr ⟨Finset.mem_product.mpr ⟨Finset.mem_univ _, ?_⟩, ?_⟩
      · rw [Finset.mem_range]
        change fdPage j + 32 < utopPages
        rw [hj32]
        exact dataPage_lt hj
      · change mappedPage (s.space e) (fdPage j + 32) = _
        rw [hj32, hd]
    · rintro ⟨e, pn⟩ - ⟨e', pn'⟩ - heq
      have h1 : e = e' := congrArg Prod.fst heq
      have h2 : pn + 32 = pn' + 32 := congrArg Prod.snd heq
      rw [h1, Nat.add_right_cancel h2]
  · apply Finset.disjoint_filter.mpr
    intro x _ hr hw
    exact hpp (Option.some.inj (hr.symm.trans hw))

/-- A page that has no more mappings is mapped nowhere. -/
theorem not_mapped_of_refs {p : ℕ} (h : s.refs p = 0) {e : E} {pn : ℕ} (hpn : pn < utopPages) :
    mappedPage (s.space e) pn ≠ some p := by
  intro hp
  have hmem : (e, pn) ∈ (Finset.univ ×ˢ Finset.range utopPages).filter
      fun x => mappedPage (s.space x.1) x.2 = some p :=
    Finset.mem_filter.mpr ⟨Finset.mem_product.mpr ⟨Finset.mem_univ e, Finset.mem_range.mpr hpn⟩, hp⟩
  exact absurd hmem (by rw [Finset.card_eq_zero.mp h]; exact Finset.notMem_empty _)

end Counts

/-- Every environment that has a descriptor of the pipe maps both of its pages. -/
structure PipeHeld {E : Type} (pp : PipePages) (s : FdSys E) : Prop where
  slots : ∀ e, SlotsOk pp (s.space e)
  pc : ∀ e, s.pc e = .idle ∨ s.pc e = .free ∧ s.space e = fun _ => none
  ends : pp.rfd ≠ pp.wfd

theorem PipeHeld.inv {E : Type} {pp : PipePages} {s : FdSys E} (h : PipeHeld pp s) :
    FdInv pp s ∧ NotForking s := by
  have hcopy (e : E) : (s.pc e).copying = none ∧ s.pc e ≠ .embryo := by
    rcases h.pc e with hpc | ⟨hpc, -⟩
    · rw [hpc]
      exact ⟨rfl, nofun⟩
    · rw [hpc]
      exact ⟨rfl, nofun⟩
  refine ⟨⟨fun e _ => h.slots e, fun e => ?_, fun e c pn he => ?_, fun e e' c pn pn' he => ?_,
    fun e he => ?_⟩, hcopy⟩
  · rcases h.pc e with hpc | ⟨hpc, -⟩ <;> rw [hpc] <;> trivial
  · rw [(hcopy e).1] at he
    cases he
  · rw [(hcopy e).1] at he
    cases he
  · rcases h.pc e with hpc | ⟨-, hsp⟩
    · rw [hpc] at he
      cases he
    · exact hsp

/-- A page system call of `dup`, `close` or an exit, or any other step but those of `fork`. -/
def FdOpStep {E : Type} [DecidableEq E] [Fintype E] (dev : ℕ → Option Dev) (s s' : FdSys E) : Prop :=
  ∃ ev, FdStep dev s ev s' ∧ ev.Fits ∧ ∀ e c, ev ≠ .fork e c

section Ordering

variable {E : Type} [DecidableEq E] [Fintype E] {pp : PipePages} {s : FdSys E} {dev : ℕ → Option Dev}

/-- When the page of an end of the pipe has as many mappings as the page of the pipe,
the other end is closed. -/
theorem pipe_refs_ordered (h : Reachable (PipeHeld pp) (FdOpStep dev) s) :
    s.refs pp.rfd + s.refs pp.wfd ≤ s.refs pp.data ∧
    (s.refs pp.rfd = s.refs pp.data →
      ∀ e, ∀ pn < utopPages, mappedPage (s.space e) pn ≠ some pp.wfd) ∧
    (s.refs pp.wfd = s.refs pp.data →
      ∀ e, ∀ pn < utopPages, mappedPage (s.space e) pn ≠ some pp.rfd) := by
  obtain ⟨hi, hn, hpp⟩ : FdInv pp s ∧ NotForking s ∧ pp.rfd ≠ pp.wfd := by
    apply h.invariant fun _ h => ⟨h.inv.1, h.inv.2, h.ends⟩
    rintro s s' ⟨hi, hn, hpp⟩ ⟨ev, hs, hev, hf⟩
    exact ⟨hi.step hs hev, hn.step hi hs hev hf, hpp⟩
  have hle := refs_le hpp fun e => hi.slots e (hn e).2
  refine ⟨hle, fun heq e pn hpn => ?_, fun heq e pn hpn => ?_⟩
  · exact not_mapped_of_refs (by omega) hpn
  · exact not_mapped_of_refs (by omega) hpn

/-- The space of an environment that has just called `pipe`. -/
def pipeSpace : Space := fun pn =>
  if pn = fdPage 0 then some (1, pteP ||| pteU ||| pteW)
  else if pn = fdPage 1 then some (2, pteP ||| pteU ||| pteW)
  else if pn = dataPage 0 ∨ pn = dataPage 1 then some (3, pteP ||| pteU ||| pteW)
  else none

theorem slotsOk_pipeSpace : SlotsOk ⟨1, 2, 3⟩ pipeSpace := by
  intro pn p hp hfd
  have hp' : (pipeSpace pn).map Prod.fst = some p := hp
  unfold pipeSpace at hp'
  split_ifs at hp' with h0 h1 hd
  · exact ⟨0, by decide, h0, by decide⟩
  · exact ⟨1, by decide, h1, by decide⟩
  · cases hp'
    rcases hfd with h | h <;> cases h
  · cases hp'

/-- One environment closes the read end of its new pipe. -/
theorem pipe_refs_ordered_close : ∃ s : FdSys Unit,
    Reachable (PipeHeld ⟨1, 2, 3⟩) (FdOpStep fun _ => some .pipe) s ∧
    mappedPage (s.space ()) (fdPage 0) = none ∧ mappedPage (s.space ()) (dataPage 0) = some 3 ∧
    s.refs 1 + s.refs 2 ≤ s.refs 3 := by
  obtain ⟨s₀, hs₀⟩ : ∃ s₀ : FdSys Unit, s₀ = ⟨fun _ => pipeSpace, fun _ => .idle, fun _ => 0⟩ := ⟨_, rfl⟩
  have hheld : PipeHeld ⟨1, 2, 3⟩ s₀ := by
    rw [hs₀]
    exact ⟨fun _ => slotsOk_pipeSpace, fun _ => Or.inl rfl, by decide⟩
  have hstart : closeStart (fun _ => some .pipe) (s₀.space ()) 0 none = (.closeFd 0 none : FdPc Unit) := by
    rw [hs₀]
    have hl : FdLookup pipeSpace 0 := by decide
    have hdev : (mappedPage pipeSpace (index2fd 0)).bind (fun _ => some Dev.pipe) = some .pipe := by decide
    unfold closeStart
    rw [if_pos hl, if_pos hdev]
  have hclose : FdStep (fun _ => some .pipe) s₀ (.close () 0) (s₀.setPc () (.closeFd 0 none)) := by
    rw [← hstart]
    exact .close () 0 (by rw [hs₀])
  have hop : FdStep (fun _ => some .pipe) (s₀.setPc () (.closeFd 0 none)) .tau _ := .op () true rfl
  have h₁ : Reachable (PipeHeld ⟨1, 2, 3⟩) (FdOpStep fun _ => some .pipe) _ :=
    (Reachable.init hheld).step ⟨_, hclose, trivial, nofun⟩
  have h₂ := h₁.step ⟨_, hop, trivial, nofun⟩
  refine ⟨_, h₂, ?_, ?_, (pipe_refs_ordered h₂).1⟩
  · rw [hs₀]
    decide
  · rw [hs₀]
    decide

end Ordering

end Sisop
