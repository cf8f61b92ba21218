import Sisop.EnvCycle
import Sisop.UserBytes

/-! `load_icode` of `kern/env.c` with the bytes it reads and writes. -/
namespace Sisop

section Binary

/-- The 16-bit field at the offset `i`. -/
def halfAt (binary : List (BitVec 8)) (i : ℕ) : Option (BitVec 16) := do
  let b₀ ← binary[i]?
  let b₁ ← binary[i + 1]?
  pure (b₁ ++ b₀)

/-- The 32-bit field at the offset `i`. -/
def wordAt (binary : List (BitVec 8)) (i : ℕ) : Option Word := do
  let lo ← halfAt binary i
  let hi ← halfAt binary (i + 2)
  pure (hi ++ lo)

/-- What `load_icode` reads of a `struct Elf`. -/
structure ElfHeader where
  eMagic : Word
  eEntry : Word
  ePhoff : Word
  ePhnum : BitVec 16

def elfHeader (binary : List (BitVec 8)) : Option ElfHeader := do
  let eMagic ← wordAt binary 0
  let eEntry ← wordAt binary 24
  let ePhoff ← wordAt binary 28
  let ePhnum ← halfAt binary 44
  pure ⟨eMagic, eEntry, ePhoff, ePhnum⟩

/-- What `load_icode` reads of a `struct Proghdr`. -/
structure Proghdr where
  pType : Word
  pOffset : Word
  pVa : Word
  pFilesz : Word
  pMemsz : Word

def proghdrAt (binary : List (BitVec 8)) (ph : ℕ) : Option Proghdr := do
  let pType ← wordAt binary ph
  let pOffset ← wordAt binary (ph + 4)
  let pVa ← wordAt binary (ph + 8)
  let pFilesz ← wordAt binary (ph + 16)
  let pMemsz ← wordAt binary (ph + 20)
  pure ⟨pType, pOffset, pVa, pFilesz, pMemsz⟩

/-- The `n` headers from the offset `ph` on. -/
def proghdrs (binary : List (BitVec 8)) : ℕ → ℕ → Option (List Proghdr)
  | _, 0 => some []
  | ph, n+1 => do
    let hdr ← proghdrAt binary ph
    let hdrs ← proghdrs binary (ph + 32) n
    pure (hdr :: hdrs)

def binaryBytes (binary : List (BitVec 8)) (offset n : ℕ) : Option (List (BitVec 8)) :=
  if offset + n ≤ binary.length then some ((binary.drop offset).take n) else none

end Binary

def elfMagic : Word := 0x464C457F#32

def elfProgLoad : Word := 1#32

/-- What is read of the binary. What lies behind its end is not part of the model, which
stops there. -/
def readBinary {σ α : Type} : Option α → Routine σ α
  | none => Routine.halt
  | some a => pure a

/-- The body of the loop of `load_icode`: `region_alloc`, `memset` and `memcpy`. -/
def loadSegment (g : ℕ) (binary : List (BitVec 8)) (ph : Proghdr) : Routine Pm Unit :=
  if ph.pType = elfProgLoad then do
    regionAlloc g ph.pVa ph.pMemsz
    storeBytes g ph.pVa (List.replicate ph.pMemsz.toNat 0#8)
    let bytes ← readBinary (binaryBytes binary ph.pOffset.toNat ph.pFilesz.toNat)
    storeBytes g ph.pVa bytes
  else pure ()

/-- The loop `for (; ph < eph; ph++)`, with `n` headers left. -/
def loadProghdrs (g : ℕ) (binary : List (BitVec 8)) : ℕ → ℕ → Routine Pm Unit
  | _, 0 => pure ()
  | ph, n+1 => do
    let hdr ← readBinary (proghdrAt binary ph)
    loadSegment g binary hdr
    loadProghdrs g binary (ph + 32) n

/-- `load_icode(e, binary)`. -/
def loadIcode (e : EnvIdx) (binary : List (BitVec 8)) : Routine Kern Unit := do
  let elf ← readBinary (elfHeader binary)
  if elf.eMagic ≠ elfMagic then Routine.halt
  else
    let g ← envPgdir e
    mem (loadProghdrs g binary elf.ePhoff.toNat elf.ePhnum.toNat)
    Routine.modify fun k => k.setEnv e fun env => { env with envTf := { env.envTf with tfEip := elf.eEntry } }
    mem (regionAlloc g (ustacktop - 4096#32) 4096#32)

/-- The pages with some of the `len` bytes from `va` on. -/
def spanPages (va len : Word) : Finset ℕ := Finset.Icc (va.toNat / 4096) ((va.toNat + len.toNat - 1) / 4096)

/-- The pages that a segment touches. -/
def Proghdr.pages (ph : Proghdr) : Finset ℕ := spanPages ph.pVa ph.pMemsz

/-- The segments that are loaded. -/
def loadable (hdrs : List Proghdr) : List Proghdr := hdrs.filter fun ph => ph.pType = elfProgLoad

/-- The pages that the segments touch. -/
def touched : List Proghdr → Finset ℕ
  | [] => ∅
  | ph :: phs => ph.pages ∪ touched phs

/-- The pages of the program: those of its segments, and one for the stack. -/
def imagePages (phs : List Proghdr) : Finset ℕ := insert (pgnum (ustacktop - 4096#32)) (touched phs)

/-- The numbers of the page tables for the pages `S`. -/
def tablesOf (S : Finset ℕ) : Finset ℕ := S.image fun n => n / 1024

/-- The pages and page tables that take up memory. -/
def pagesNeeded (S : Finset ℕ) : ℕ := S.card + (tablesOf S).card

/-- At least `n` pages are free. -/
def Pm.FreePages (s : Pm) (n : ℕ) : Prop := ∃ F : Finset ℕ, n ≤ F.card ∧ ∀ p ∈ F, s.IsFree p

/-- A segment that can be loaded: it lies below the stack page, and its bytes in the binary. -/
structure Fits (binary : List (BitVec 8)) (ph : Proghdr) : Prop where
  memsz : 0 < ph.pMemsz.toNat
  filesz : ph.pFilesz.toNat ≤ ph.pMemsz.toNat
  below : ph.pVa.toNat + ph.pMemsz.toNat ≤ (ustacktop - 4096#32).toNat
  inside : ph.pOffset.toNat + ph.pFilesz.toNat ≤ binary.length

/-- An ELF image whose segments can be loaded, each with pages of its own. -/
structure ElfImage (binary : List (BitVec 8)) (elf : ElfHeader) (hdrs : List Proghdr) : Prop where
  header : elfHeader binary = some elf
  magic : elf.eMagic = elfMagic
  proghdrs : proghdrs binary elf.ePhoff.toNat elf.ePhnum.toNat = some hdrs
  fits : ∀ ph ∈ loadable hdrs, Fits binary ph
  apart : (loadable hdrs).Pairwise fun a b => Disjoint a.pages b.pages

/-- The address space with the page directory `g` holds the segments `phs`, and a stack. -/
structure Loaded (s : Pm) (g : ℕ) (binary : List (BitVec 8)) (phs : List Proghdr) : Prop where
  maps : ∀ x, x < utop → ((translate s.word g x).isSome ↔ pgnum x ∈ imagePages phs)
  writable : ∀ x t, x < utop → translate s.word g x = some t → t.user ∧ t.writable
  file : ∀ ph ∈ phs, ∀ k < ph.pFilesz.toNat,
    binary[ph.pOffset.toNat + k]? = some (userMem s g (ph.pVa + BitVec.ofNat 32 k))
  bss : ∀ ph ∈ phs, ∀ k, ph.pFilesz.toNat ≤ k → k < ph.pMemsz.toNat →
    userMem s g (ph.pVa + BitVec.ofNat 32 k) = 0#8
  rest : ∀ x, x < utop → pgnum x ∈ imagePages phs → (∀ ph ∈ phs, ¬ InSpan ph.pVa ph.pMemsz.toNat x) →
    userMem s g x = 0#8

/-- The permissions of the pages of `region_alloc`. -/
def regionPerm : Word := pteP ||| pteU ||| pteW

/-- Part way through `load_icode`: the environment `e` has exactly the pages `S`, where it reads
`m`, and there is memory for `n` pages and page tables in all. -/
structure Laid (s : Pm) (D : EnvIdx → Option ℕ) (e : EnvIdx) (g : ℕ) (S : Finset ℕ) (n : ℕ) (m : ByteMem) :
    Prop where
  inv : MemInv s D 0
  dir : D e = some g
  table : ∀ d < userPdes, s.word g d = 0#32 ∧ d ∉ tablesOf S ∨ d ∈ tablesOf S ∧ ∃ p, s.word g d = pdeOf p
  entry : ∀ x, x < utop → pgnum x ∈ S → ∃ q < s.npages, s.pteAt g x = some (pteOf q regionPerm)
  absent : ∀ x, x < utop → pgnum x ∉ S → s.mappedPage g x = none
  apart : ∀ x y, x < utop → y < utop → pgnum x ∈ S → pgnum y ∈ S → pageAt s g x = pageAt s g y →
    pgnum x = pgnum y
  bytes : ∀ x, x < utop → pgnum x ∈ S → userMem s g x = m x
  free : ∃ F : Finset ℕ, n ≤ F.card + pagesNeeded S ∧ ∀ p ∈ F, s.IsFree p

section Laid

variable {s s' t : Pm} {D : EnvIdx → Option ℕ} {e : EnvIdx} {g n p q : ℕ} {S : Finset ℕ} {m : ByteMem}
  {x y : Word} {b : BitVec 8}

theorem pageAt_of_pteAt {w : Word} (h : s.pteAt g x = some w) : pageAt s g x = pgnum w := by
  unfold Pm.pteAt at h
  split_ifs at h
  rw [pageAt, Option.some.inj h]

theorem mappedPage_of_pteAt {w : Word} (h : s.pteAt g x = some w) (hw : w ≠ 0#32) :
    s.mappedPage g x = some (pgnum w) := by
  rw [Pm.mappedPage, h, Option.bind_some, if_neg hw]

theorem pde_ne_zero_of_pteAt {w : Word} (h : s.pteAt g x = some w) : s.word g (pdx x) ≠ 0#32 := by
  intro hz
  rw [Pm.pteAt, if_pos hz] at h
  cases h

theorem regionPerm_small : regionPerm.toNat < 4096 := by decide

theorem pteOf_ne_zero (q : ℕ) (perm : Word) : pteOf q perm ≠ 0#32 := ne_zero_of_has_pteP (has_pteP_pteOf q perm)

theorem tablesOf_insert (k : ℕ) (S : Finset ℕ) : tablesOf (insert k S) = insert (k / 1024) (tablesOf S) :=
  Finset.image_insert ..

theorem pgnum_div (x : Word) : pgnum x / 1024 = pdx x := by
  rw [pgnum_eq, pdx_eq]
  omega

theorem indices_of_page (h : pgnum y = pgnum x) : pdx y = pdx x ∧ ptx y = ptx x := by
  rw [pgnum_eq, pgnum_eq] at h
  rw [pdx_eq, pdx_eq, ptx_eq, ptx_eq]
  omega

theorem pteAt_of_page (h : pgnum y = pgnum x) : s.pteAt g y = s.pteAt g x := by
  obtain ⟨hd, ht⟩ := indices_of_page h
  rw [Pm.pteAt, Pm.pteAt, hd, ht]

theorem pageAt_of_page (h : pgnum y = pgnum x) : pageAt s g y = pageAt s g x := by
  obtain ⟨hd, ht⟩ := indices_of_page h
  rw [pageAt, pageAt, hd, ht]

/-- What a page of the program is mapped to. -/
theorem Laid.page (h : Laid s D e g S n m) (hx : x < utop) (hn : pgnum x ∈ S) :
    s.pteAt g x = some (pteOf (pageAt s g x) regionPerm) ∧ s.mappedPage g x = some (pageAt s g x) ∧
      slotMap s D (.pte e (vaPde x (pdx_lt_of_utop hx)) (vaPte x)) = some (pageAt s g x) := by
  obtain ⟨q, hq, hpte⟩ := h.entry x hx hn
  have hat : pageAt s g x = q := by
    rw [pageAt_of_pteAt hpte]
    exact pgnum_pteOf (lt_of_lt_of_le hq h.inv.npages_le) regionPerm_small
  have hmap : s.mappedPage g x = some (pageAt s g x) := by
    rw [pageAt_of_pteAt hpte]
    exact mappedPage_of_pteAt hpte (pteOf_ne_zero q regionPerm)
  refine ⟨hat ▸ hpte, hmap, ?_⟩
  rw [← h.inv.mappedPage_eq h.dir (pdx_lt_of_utop hx)]
  exact hmap

/-- A page of the program is not a table, and not free. -/
theorem Laid.userPage (h : Laid s D e g S n m) (hx : x < utop) (hn : pgnum x ∈ S) :
    UserPage s D (pageAt s g x) := h.inv.userPage_of_pte (h.page hx hn).2.2

/-- The directory and its tables decide what the environment has. -/
theorem Laid.congr {k : ℕ} {m' : ByteMem} (h : Laid s D e g S n m) (ht : MemInv t D 0) (hn : t.npages = s.npages)
    (hdir : t.word g = s.word g)
    (htab : ∀ d < userPdes, s.word g d ≠ 0#32 → t.word (pgnum (s.word g d)) = s.word (pgnum (s.word g d)))
    (hbytes : ∀ x, x < utop → pgnum x ∈ S → pageAt t g x = pageAt s g x → userMem t g x = m' x)
    (hF : ∃ F : Finset ℕ, k ≤ F.card + pagesNeeded S ∧ ∀ p ∈ F, t.IsFree p) : Laid t D e g S k m' := by
  have hpte (x : Word) (hx : x < utop) : t.pteAt g x = s.pteAt g x := by
    rw [Pm.pteAt, Pm.pteAt, hdir]
    by_cases hz : s.word g (pdx x) = 0#32
    · rw [if_pos hz, if_pos hz]
    · rw [if_neg hz, if_neg hz, htab _ (pdx_lt_of_utop hx) hz]
  have hat (x : Word) (hx : x < utop) (hn : pgnum x ∈ S) : pageAt t g x = pageAt s g x := by
    obtain ⟨q, -, hq⟩ := h.entry x hx hn
    rw [pageAt_of_pteAt hq, pageAt_of_pteAt ((hpte x hx).trans hq)]
  constructor
  case inv => exact ht
  case dir => exact h.dir
  case table =>
    rw [hdir]
    exact h.table
  case entry =>
    intro x hx hn'
    rw [hpte x hx, hn]
    exact h.entry x hx hn'
  case absent =>
    intro x hx hn'
    rw [Pm.mappedPage, hpte x hx]
    exact h.absent x hx hn'
  case apart =>
    intro x y hx hy hnx hny hxy
    rw [hat x hx hnx, hat y hy hny] at hxy
    exact h.apart x y hx hy hnx hny hxy
  case bytes => exact fun x hx hn' => hbytes x hx hn' (hat x hx hn')
  case free => exact hF

/-- A page is taken off the free list. -/
theorem Laid.taken (h : Laid s D e g S (n + 1) m) (hS : pagesNeeded S ≤ n) :
    ∃ p, pageAlloc s = .ret (some p) (s.taken p) ∧ Laid (s.taken p) D e g S n m ∧ Fresh (s.taken p) p := by
  obtain ⟨F, hF, hfree⟩ := h.free
  obtain ⟨q, hq⟩ : F.Nonempty := by
    apply Finset.card_pos.mp
    omega
  rcases h.inv.pageAlloc_cases with ⟨hnone, -⟩ | ⟨p, hf, hrun, hi, hfr, -⟩
  · have hq' := hfree q hq
    rw [Pm.IsFree, hnone] at hq'
    cases hq'
  refine ⟨p, hrun, ?_, hfr⟩
  have hpfree : s.IsFree p := by
    rw [Pm.IsFree, hf]
    exact OnChain.here p
  have hw (q : ℕ) (hq : ¬ s.IsFree q) : (s.taken p).word q = s.word q :=
    taken_word_ne fun hqp => hq (hqp ▸ hpfree)
  have hu := h.inv.userDir h.dir
  apply h.congr hi rfl (hw g hu.notFree)
  · exact fun d hd hz => hw _ (hu.table d hd hz).2
  · intro x hx hn hat
    rw [userMem, hat, hw _ (h.userPage hx hn).notFree]
    exact h.bytes x hx hn
  · refine ⟨F.erase p, ?_, fun q hq => ?_⟩
    · have hle := Finset.pred_card_le_card_erase (s := F) (a := p)
      omega
    · obtain ⟨hqp, hqF⟩ := Finset.mem_erase.mp hq
      exact (h.inv.taken_isFree hf q).mpr ⟨hfree q hqF, hqp.symm⟩

theorem pagesNeeded_insert {k : ℕ} (hk : k ∉ S) : pagesNeeded (insert k S) =
    pagesNeeded S + 1 + if k / 1024 ∈ tablesOf S then 0 else 1 := by
  rw [pagesNeeded, tablesOf_insert, Finset.card_insert_of_notMem hk, pagesNeeded]
  by_cases ht : k / 1024 ∈ tablesOf S
  · rw [if_pos ht, Finset.insert_eq_of_mem ht]
    omega
  · rw [if_neg ht, Finset.card_insert_of_notMem ht]
    omega

/-- The page table that `page_insert` has used: the one there was, or a free page. -/
theorem Inserted.table_cases {pp : ℕ} {perm : Word} {l : List ℕ} (h : Inserted s g pp x perm s') (hl : Listed s l)
    (hn : s.npages ≤ 2^20) (hf : s.word g (pdx x) = 0#32 → ∃ r, s.pageFreeList = some r) :
    (s.word g (pdx x) ≠ 0#32 ∧ s'.word g (pdx x) = s.word g (pdx x) ∧ s.tableTaken g x = none) ∨
    s.word g (pdx x) = 0#32 ∧ ∃ r, s.tableTaken g x = some r ∧ s.IsFree r ∧ s'.word g (pdx x) = pdeOf r ∧
      pgnum (s'.word g (pdx x)) = r := by
  by_cases hz : s.word g (pdx x) = 0#32
  · obtain ⟨r, hr⟩ := hf hz
    have ht : s.tableTaken g x = some r := by rw [Pm.tableTaken, if_pos hz, hr]
    obtain ⟨hfree, -, hpde, -⟩ := h.table r ht
    have hb := lt_of_lt_of_le (hl.bound r ((hl.isFree_iff r).mp hfree)) hn
    exact Or.inr ⟨hz, r, ht, hfree, hpde, hpde ▸ pgnum_pdeOf hb⟩
  · exact Or.inl ⟨hz, h.kept hz, if_neg hz⟩

/-- Of the pages in use only two entries change. -/
theorem Inserted.word_other {pp i : ℕ} {perm : Word} {l : List ℕ} (h : Inserted s g pp x perm s')
    (hl : Listed s l) (hn : s.npages ≤ 2^20) (hf : s.word g (pdx x) = 0#32 → ∃ r, s.pageFreeList = some r)
    (hq : ¬ s.IsFree q) (hg : q = g → i ≠ pdx x)
    (ht : s.word g (pdx x) ≠ 0#32 → q = pgnum (s.word g (pdx x)) → i ≠ ptx x) : s'.word q i = s.word q i := by
  apply h.words q i
  · exact fun htaken => hq (h.table q htaken).1
  · exact hg
  · rcases h.table_cases hl hn hf with ⟨hz, hsame, -⟩ | ⟨-, r, -, hfree, -, hr⟩
    · rw [hsame]
      exact ht hz
    · intro heq
      exact absurd hfree ((heq.trans hr) ▸ hq)

/-- Where there was a page table, the entries for the other pages stay. -/
theorem Inserted.pteAt_other {pp : ℕ} {perm : Word} {l : List ℕ} (h : Inserted s g pp x perm s') (hu : UserDir s g)
    (hl : Listed s l) (hn : s.npages ≤ 2^20) (hf : s.word g (pdx x) = 0#32 → ∃ r, s.pageFreeList = some r)
    (hx : pdx x < userPdes) (hd : pdx y < userPdes) (hy : pgnum y ≠ pgnum x) (hz : s.word g (pdx y) ≠ 0#32) :
    s'.pteAt g y = s.pteAt g y := by
  obtain ⟨hyg, hyfree⟩ := hu.table (pdx y) hd hz
  have hpde : s'.word g (pdx y) = s.word g (pdx y) := by
    by_cases hxy : pdx y = pdx x
    · rw [hxy] at hz ⊢
      exact h.kept hz
    · apply h.word_other hl hn hf hu.notFree (fun _ => hxy)
      intro hzx heq
      exact absurd heq.symm (hu.table _ hx hzx).1
  have hpte : s'.word (pgnum (s.word g (pdx y))) (ptx y) = s.word (pgnum (s.word g (pdx y))) (ptx y) := by
    apply h.word_other hl hn hf hyfree (fun heq => absurd heq hyg)
    intro hzx heq ht
    exact hy (pgnum_eq_of_indices (hu.apart _ hd _ hx hz hzx heq) ht)
  rw [Pm.pteAt, Pm.pteAt, hpde, if_neg hz, if_neg hz, hpte]

/-- A new page is mapped. -/
theorem Laid.mapNew (h : Laid s D e g S n m) (hfr : Fresh s p) (hx : x < utop) (hn : pgnum x ∉ S)
    (hN : pagesNeeded (insert (pgnum x) S) ≤ n + 1) (hm : ∀ y, pgnum y = pgnum x → m y = 0#8) :
    ∃ s', pageInsert g p x regionPerm s = .ret (.ok ()) s' ∧ Laid s' D e g (insert (pgnum x) S) (n + 1) m := by
  have hd := pdx_lt_of_utop hx
  have hu := h.inv.userDir h.dir
  obtain ⟨F, hF, hfree⟩ := h.free
  obtain ⟨l, hl⟩ := h.inv.free
  have hneed := pagesNeeded_insert hn
  rw [pgnum_div] at hneed
  have hz : s.word g (pdx x) = 0#32 ↔ pdx x ∉ tablesOf S := by
    rcases h.table _ hd with ⟨hz, hno⟩ | ⟨hin, q, hq⟩
    · exact iff_of_true hz hno
    · exact iff_of_false (hq ▸ ne_zero_of_has_pteP (has_pteP_pdeOf q)) (not_not_intro hin)
  have href : s.refCount p < 65535 := by
    rw [Pm.refCount, hfr.zero]
    decide
  obtain ⟨s', hr, hI⟩ : ∃ s', pageInsert g p x regionPerm s = .ret (.ok ()) s' ∧
      Inserted s g p x regionPerm s' := by
    rcases hu.pageInsert_effect hl.listed h.inv.npages_le hfr.notFree href hd with hok | ⟨-, hz', hnone⟩
    · exact hok
    · rw [if_neg (hz.mp hz')] at hneed
      obtain ⟨q, hq⟩ : F.Nonempty := by
        apply Finset.card_pos.mp
        omega
      have hq' := hfree q hq
      rw [Pm.IsFree, hnone] at hq'
      cases hq'
  refine ⟨s', hr, ?_⟩
  obtain ⟨hinv, M, hM, hcases⟩ := h.inv.pageInsert_slots h.dir hd (h.inv.userPage_of_fresh hfr)
    (by rw [hfr.zero]; decide) regionPerm_small hr
  have hf (h0 : s.word g (pdx x) = 0#32) : ∃ r, s.pageFreeList = some r := by
    rcases hcases with ⟨hne, -⟩ | ⟨-, r, hr, -⟩
    · exact absurd h0 hne
    · exact ⟨r, hr⟩
  have hnp := h.inv.npages_le
  have hat : pageAt s' g x = p := by
    rw [pageAt_of_pteAt hI.entry]
    exact pgnum_pteOf (lt_of_lt_of_le hfr.bound hnp) regionPerm_small
  have hold (y : Word) (hy : y < utop) (hyn : pgnum y ∈ S) :
      s'.pteAt g y = s.pteAt g y ∧ pageAt s' g y = pageAt s g y := by
    have hpte := (h.page hy hyn).1
    have hne : pgnum y ≠ pgnum x := fun heq => hn (heq ▸ hyn)
    have hsame := hI.pteAt_other hu hl.listed hnp hf hd (pdx_lt_of_utop hy) hne (pde_ne_zero_of_pteAt hpte)
    exact ⟨hsame, (pageAt_of_pteAt (hsame.trans hpte)).trans (pageAt_of_pteAt hpte).symm⟩
  have hdata (q : ℕ) (hq : UserPage s D q) : s'.word q = s.word q := by
    funext i
    apply hI.word_other hl.listed hnp hf hq.notFree
    · rintro rfl
      exact absurd h.dir (hq.notTable (.dir e) trivial)
    · rintro hzx rfl
      exact absurd (h.inv.dir_present h.dir (vaPde x hd) hzx) (hq.notTable (.pde e (vaPde x hd)) trivial)
  have hfresh (y : Word) (hy : y < utop) (hyn : pgnum y ∈ S) : pageAt s g y ≠ p := by
    intro heq
    exact h.inv.refs_eq_zero hfr.zero _ (heq ▸ (h.page hy hyn).2.2)
  constructor
  case inv => exact hinv
  case dir => exact h.dir
  case table =>
    intro d hd'
    rw [tablesOf_insert, pgnum_div, Finset.mem_insert, not_or]
    by_cases hdx : d = pdx x
    · rw [hdx]
      right
      refine ⟨Or.inl rfl, ?_⟩
      rcases hI.table_cases hl.listed hnp hf with ⟨hne, hsame, -⟩ | ⟨-, r, -, -, hpde, -⟩
      · rw [hsame]
        exact ((h.table _ hd).resolve_left fun h0 => hne h0.1).2
      · exact ⟨r, hpde⟩
    · have hsame : s'.word g d = s.word g d := by
        apply hI.word_other hl.listed hnp hf hu.notFree (fun _ => hdx)
        intro hzx heq
        exact absurd heq.symm (hu.table _ hd hzx).1
      rw [hsame]
      rcases h.table d hd' with ⟨h0, hno⟩ | ⟨hin, hp⟩
      · exact Or.inl ⟨h0, hdx, hno⟩
      · exact Or.inr ⟨Or.inr hin, hp⟩
  case entry =>
    intro y hy hyn
    rw [hI.npages]
    by_cases hyx : pgnum y = pgnum x
    · exact ⟨p, hfr.bound, (pteAt_of_page hyx).trans hI.entry⟩
    · have hyS := Finset.mem_of_mem_insert_of_ne hyn hyx
      obtain ⟨q, hq, hpte⟩ := h.entry y hy hyS
      exact ⟨q, hq, (hold y hy hyS).1.trans hpte⟩
  case absent =>
    intro y hy hyn
    obtain ⟨hyx, hyS⟩ := not_or.mp (mt Finset.mem_insert.mpr hyn)
    have hold' := h.absent y hy hyS
    have hdy := pdx_lt_of_utop hy
    rw [h.inv.mappedPage_eq h.dir hdy] at hold'
    rw [hinv.mappedPage_eq h.dir hdy, hM, Function.update_of_ne]
    · rcases hcases with ⟨-, rfl⟩ | ⟨-, r, -, rfl⟩
      · exact hold'
      · rw [Function.update_of_ne (by simp)]
        exact hold'
    · intro heq
      obtain ⟨-, h1, h2⟩ := Slot.pte.inj heq
      exact hyx (pgnum_eq_of_indices (Fin.mk.inj h1) (Fin.mk.inj h2))
  case apart =>
    intro y z hy hz hyn hzn heq
    rcases Finset.mem_insert.mp hyn with hyx | hyS
    · rcases Finset.mem_insert.mp hzn with hzx | hzS
      · exact hyx.trans hzx.symm
      · rw [pageAt_of_page hyx, hat, (hold z hz hzS).2] at heq
        exact absurd heq.symm (hfresh z hz hzS)
    · rcases Finset.mem_insert.mp hzn with hzx | hzS
      · rw [pageAt_of_page hzx, hat, (hold y hy hyS).2] at heq
        exact absurd heq (hfresh y hy hyS)
      · rw [(hold y hy hyS).2, (hold z hz hzS).2] at heq
        exact h.apart y z hy hz hyS hzS heq
  case bytes =>
    intro y hy hyn
    rcases Finset.mem_insert.mp hyn with hyx | hyS
    · rw [userMem, pageAt_of_page hyx, hat, hdata p (h.inv.userPage_of_fresh hfr), hfr.blank, hm y hyx]
      exact byteOf_zero _
    · rw [userMem, (hold y hy hyS).2, hdata _ (h.userPage hy hyS)]
      exact h.bytes y hy hyS
  case free =>
    have hnone := h.absent x hx hn
    rcases hI.table_cases hl.listed hnp hf with ⟨hne, -, ht⟩ | ⟨hz', r, ht, hfr', -⟩
    · refine ⟨F, ?_, fun q hq => (hI.free q).mpr (Or.inl ⟨hfree q hq, by rw [ht]; simp⟩)⟩
      rw [if_pos (not_not.mp (mt hz.mpr hne))] at hneed
      omega
    · refine ⟨F.erase r, ?_, fun q hq => ?_⟩
      · have hle := Finset.pred_card_le_card_erase (s := F) (a := r)
        rw [if_neg (hz.mp hz')] at hneed
        omega
      · obtain ⟨hqr, hqF⟩ := Finset.mem_erase.mp hq
        refine (hI.free q).mpr (Or.inl ⟨hfree q hqF, ?_⟩)
        rw [ht]
        exact fun heq => hqr (Option.some.inj heq).symm

/-- A round of `region_alloc`. -/
theorem Laid.allocPage (h : Laid s D e g S n m) (hx : x < utop) (hn : pgnum x ∉ S)
    (hN : pagesNeeded (insert (pgnum x) S) ≤ n) (hm : ∀ y, pgnum y = pgnum x → m y = 0#8) :
    ∃ s', allocPage g x s = .ret () s' ∧ Laid s' D e g (insert (pgnum x) S) n m := by
  have hneed := pagesNeeded_insert hn
  obtain ⟨k, rfl⟩ : ∃ k, n = k + 1 := Nat.exists_eq_succ_of_ne_zero (by omega)
  obtain ⟨p, ha, ht, hfr⟩ := h.taken (by omega)
  obtain ⟨s', hi, hs'⟩ := ht.mapNew hfr hx hn hN hm
  refine ⟨s', ?_, hs'⟩
  have hi' : pageInsert g p x (pteP ||| pteU ||| pteW) (s.taken p) = .ret (.ok ()) s' := hi
  simp only [Sisop.allocPage, Routine.bind_ret ha, Routine.bind_ret hi', Routine.pure_run]

/-- The page of an address of the program is its own. -/
theorem Laid.unshared (h : Laid s D e g S n m) (hx : x < utop) (hn : pgnum x ∈ S) :
    Unshared s g (fun y => y < utop ∧ pgnum y ∈ S) x := by
  have hpage := h.userPage hx hn
  constructor
  case here => exact ⟨hx, hn⟩
  case notDir =>
    intro heq
    exact hpage.notTable (.dir e) trivial (h.dir.trans (congrArg some heq.symm))
  case notTable =>
    intro y ⟨hy, hyn⟩ heq
    have htab := h.inv.dir_present h.dir (vaPde y (pdx_lt_of_utop hy))
      (pde_ne_zero_of_pteAt (h.page hy hyn).1)
    exact hpage.notTable (.pde e _) trivial (heq ▸ htab)
  case alone => exact fun y ⟨hy, hyn⟩ heq => h.apart y x hy hx hyn hn heq

/-- The flags of a page table, for the page table that `pgdir_walk` makes. -/
theorem has_pdeOf (p : ℕ) : has (pdeOf p) (pteP ||| pteU ||| pteW) := by
  rw [pdeOf, BitVec.or_assoc, BitVec.or_assoc]
  exact has_or_right (by decide)

theorem has_pteOf (p : ℕ) : has (pteOf p regionPerm) (pteP ||| pteU ||| pteW) := by
  rw [pteOf, BitVec.or_assoc]
  exact has_or_right (by decide)

/-- A byte of the program is written. -/
theorem Laid.storeByte (h : Laid s D e g S n m) (hx : x < utop) (hn : pgnum x ∈ S) (b : BitVec 8) :
    ∃ s', storeByte g x b s = .ret () s' ∧ Laid s' D e g S n (Function.update m x b) := by
  obtain ⟨hpte, hmap, hslot⟩ := h.page hx hn
  have hz := pde_ne_zero_of_pteAt hpte
  obtain ⟨p, hpde⟩ := ((h.table _ (pdx_lt_of_utop hx)).resolve_left fun h0 => hz h0.1).2
  have hw : s.word (pgnum (s.word g (pdx x))) (ptx x) = pteOf (pageAt s g x) regionPerm := by
    rw [Pm.pteAt, if_neg hz] at hpte
    exact Option.some.inj hpte
  have hacc : has (s.word g (pdx x)) (pteP ||| pteW) ∧
      has (s.word (pgnum (s.word g (pdx x))) (ptx x)) (pteP ||| pteW) := by
    rw [hw, hpde]
    exact ⟨has_mono (has_pdeOf p) (by decide), has_mono (has_pteOf _) (by decide)⟩
  obtain ⟨s', hs'⟩ : ∃ s', s' = s.setWord (pageAt s g x) (pgoff x / 4)
      (setByte (s.word (pageAt s g x) (pgoff x / 4)) (pgoff x % 4) b) := ⟨_, rfl⟩
  have hrun : Sisop.storeByte g x b s = .ret () s' := by
    unfold Sisop.storeByte
    rw [if_pos hacc, hs']
    rfl
  refine ⟨s', hrun, ?_⟩
  have hun := h.unshared hx hn
  have hother (q : ℕ) (hq : pageAt s g x ≠ q) : s'.word q = s.word q := by
    rw [hs']
    exact Function.update_of_ne hq.symm _ _
  have hinv : MemInv s' D 0 := by
    rw [hs']
    exact h.inv.setUserWord h.dir (pdx_lt_of_utop hx) (has_of_or hacc.1) (has_of_or hacc.2)
  apply h.congr hinv (hs' ▸ rfl) (hother g hun.notDir)
  · intro d hd hzd
    apply hother
    intro heq
    have htab := h.inv.dir_present h.dir ⟨d, hd⟩ hzd
    exact (h.userPage hx hn).notTable (.pde e _) trivial (heq ▸ htab)
  · intro y hy hyn _
    rw [(hun.storeByte hrun y ⟨hy, hyn⟩).1, Function.update_apply, Function.update_apply, h.bytes y hy hyn]
  · obtain ⟨F, hF, hfree⟩ := h.free
    refine ⟨F, hF, fun q hq => ?_⟩
    rw [hs']
    exact hfree q hq

end Laid
end Sisop
