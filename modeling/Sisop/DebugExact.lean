import Sisop.DebugReads

/-! When what `debuginfo_eip` reads for a user address has been checked: the checks have to
cover the table of stabs and three entries before it, but the length that is checked counts
entries, not bytes. -/
namespace Sisop

/-- The ranges in `known` make every byte that is read safe, and so do those that are checked later. -/
def ValidatedFrom (safe : Word → Word → Word → Prop) : List (Word × Word) → List Access → Prop
  | _, [] => True
  | known, .checked va len :: log => ValidatedFrom safe ((va, len) :: known) log
  | known, .read va n :: log =>
    (∀ b < n, ∃ r ∈ known, safe r.1 r.2 (va + BitVec.ofNat 32 b)) ∧ ValidatedFrom safe known log

/-- Nothing is read but what a check before it has made safe. -/
def Validated (safe : Word → Word → Word → Prop) (log : List Access) : Prop := ValidatedFrom safe [] log

/-- `x` is on a page with one of the addresses from `va` to `va + len`. -/
def OnPageOf (va len x : Word) : Prop := ∃ y, InSpan va len.toNat y ∧ rounddown x = rounddown y

section Searches

variable {tab : ℤ → Stab} {type l m i L R : ℤ} {p : ℤ → Prop} [DecidablePred p] {s : StabState} {addr : Word}

theorem scanBackReads_none (hnone : ∀ j, l ≤ j → j ≤ m → ¬ p j) (hlo : l ≤ i) (hhi : i ≤ m) : i ∈ scanBackReads p l m := by
  fun_induction scanBackReads p l m with
  | case1 m hle ih =>
    by_cases heq : i = m
    · rw [heq]
      exact List.mem_cons_self
    · apply List.mem_cons_of_mem
      rw [if_neg (hnone m hle (Int.le_refl m))]
      exact ih (fun j hlj hjm => hnone j hlj (by omega)) (by omega)
  | case2 m hlt => omega

/-- A search for a type that does not occur looks at every stab. -/
theorem stabLoopReads_none (hnone : ∀ j, s.l ≤ j → j ≤ s.r → ¬ IsType tab type j) (hlo : s.l ≤ i) (hhi : i ≤ s.r) :
    i ∈ stabLoopReads tab type s := by
  induction hn : stabMeasure tab s using Nat.strong_induction_on generalizing s with
  | _ n ih =>
    subst hn
    have hle : s.l ≤ s.r := by omega
    have hmid := trueMid_bounds hle
    rw [stabLoopReads, if_pos hle]
    apply List.mem_append.mpr
    by_cases him : i ≤ trueMid s.l s.r
    · left
      exact scanBackReads_none (fun j hlj hjm => hnone j hlj (by omega)) hlo him
    · right
      have hround : stabRound tab type s = { s with l := trueMid s.l s.r + 1 } := by
        obtain ⟨-, heq⟩ | ⟨m, hlm, hmm, htype, -⟩ := @stabRound_cases tab type s hle
        · exact heq
        · exact absurd htype (hnone m hlm (by omega))
      have hsmall := @stabMeasure_round tab type s hle
      rw [hround] at hsmall ⊢
      apply ih _ hsmall _ _ _ rfl
      · intro j hlj hjr
        change trueMid s.l s.r + 1 ≤ j at hlj
        exact hnone j (by omega) hjr
      · change trueMid s.l s.r + 1 ≤ i
        omega
      · exact hhi

theorem stabBinsearchReads_none (hnone : ∀ j, L ≤ j → j ≤ R → ¬ IsType tab type j) (hlo : L ≤ i) (hhi : i ≤ R) :
    i ∈ stabBinsearchReads tab type L R addr := by
  unfold stabBinsearchReads
  apply List.mem_append_left
  exact stabLoopReads_none hnone hlo hhi

/-- When the first stab of the range is the only one of its type and too large, the region
that is found is the place before it. -/
theorem stabBinsearch_before (hLR : L ≤ R) (htype : IsType tab type L) (hval : addr < (tab L).nValue)
    (hnone : ∀ j, L < j → j ≤ R → ¬ IsType tab type j) : stabBinsearch tab type L R addr = (L - 1, L - 1) := by
  have hmid := trueMid_bounds hLR
  have hround : stabRound tab type ⟨L, R, L, R, addr, false⟩ = ⟨L, L - 1, L, L - 1, addr, true⟩ := by
    obtain ⟨hno, -⟩ | ⟨m, hlm, hmm, hm, -, hcase⟩ := @stabRound_cases tab type ⟨L, R, L, R, addr, false⟩ hLR
    · exact absurd htype (hno L (Int.le_refl L) hmid.1)
    obtain rfl : m = L := by
      by_contra hne
      change L ≤ m at hlm
      change m ≤ trueMid L R at hmm
      exact hnone m (by omega) (by omega) hm
    obtain ⟨hlt, -⟩ | ⟨-, heq⟩ | ⟨heq, -⟩ := hcase
    · exact absurd hlt (BitVec.lt_asymm hval)
    · exact heq
    · change (tab m).nValue = addr at heq
      rw [heq] at hval
      exact absurd hval (BitVec.lt_irrefl _)
  unfold stabBinsearch
  rw [stabLoop_step (s := ⟨L, R, L, R, addr, false⟩) hLR, hround, stabLoop_done (by dsimp only; omega)]
  unfold stabFinish
  rw [if_pos rfl, scanBack_of_lt _ (by dsimp only; omega)]

/-- That search looks at the first stab. -/
theorem first_mem_stabBinsearchReads (hLR : L ≤ R) (hnone : ∀ j, L < j → j ≤ R → ¬ IsType tab type j) :
    L ∈ stabBinsearchReads tab type L R addr := by
  have hmid := trueMid_bounds hLR
  have hscan (m : ℤ) (hLm : L ≤ m) (hmR : m ≤ R) : L ∈ scanBackReads (IsType tab type) L m := by
    fun_induction scanBackReads (IsType tab type) L m with
    | case1 m hle ih =>
      by_cases heq : L = m
      · rw [← heq]
        exact List.mem_cons_self
      · apply List.mem_cons_of_mem
        rw [if_neg (hnone m (by omega) hmR)]
        exact ih (by omega) (by omega)
    | case2 m hlt => omega
  unfold stabBinsearchReads
  apply List.mem_append_left
  rw [stabLoopReads, if_pos (show L ≤ R from hLR)]
  apply List.mem_append_left
  exact hscan _ hmid.1 hmid.2

end Searches

section Tables

/-- The ranges that are checked. -/
def UserStabData.ranges (p : UserStabData) : List (Word × Word) :=
  [(p.stabstr, p.size), (p.stabs, BitVec.ofInt 32 p.count), (ustabdata, 16#32)]

/-- What the checks ask for. -/
structure ChecksPass (k : Pm) (g : ℕ) (p : UserStabData) : Prop where
  usd : userMemOk k g ustabdata 16#32 = true
  stabs : userMemOk k g p.stabs (BitVec.ofInt 32 p.count) = true
  strings : userMemOk k g p.stabstr p.size = true
  order : p.stabstr < p.stabstrEnd

/-- When the checks pass, they make the table safe to read, and the three entries before it. -/
def TableCovered (safe : Word → Word → Word → Prop) (k : Pm) (g : ℕ) (p : UserStabData) : Prop :=
  ChecksPass k g p → 0 < p.count → ∀ i, -3 ≤ i → i < p.count → ∀ b < 12,
    ∃ r ∈ p.ranges, safe r.1 r.2 (stabAddr p.stabs i + BitVec.ofNat 32 b)

/-- The table and the three entries before it do not overlap the structure itself, nor do they
or the structure hold the last byte of the string table. -/
structure TableApart (p : UserStabData) : Prop where
  stabs : ∀ x, InSpan (p.stabs - 36#32) (36 + 12 * p.count).toNat x → ¬ InSpan ustabdata 16 x ∧ x ≠ p.stabstrEnd - 1#32
  strings : ¬ InSpan ustabdata 16 (p.stabstrEnd - 1#32)

/-- A stab with this type and value. -/
def stabBytes (type : BitVec 8) (value : Word) : List (BitVec 8) :=
  wordBytes [0#32] ++ [type, 0#8, 0#8, 0#8] ++ wordBytes [value]

/-- Three entries, the last of which is the first one of the table. Each search finds its stab
where it begins, with a value that is too large. -/
def leftBytes : List (BitVec 8) := stabBytes 0x44#8 1#32 ++ stabBytes 0x24#8 2#32 ++ stabBytes 0x64#8 2#32

/-- What a user program can put at `USTABDATA` and into the entries from the second one before the table on. -/
def plant (p : UserStabData) (bs : List (BitVec 8)) : ByteMem :=
  writeBytes (writeBytes (fun _ => 0#8) (p.stabs - 24#32) bs) ustabdata
    (wordBytes [p.stabs, p.stabEnd, p.stabstr, p.stabstrEnd])

variable {safe : Word → Word → Word → Prop} {known : List (Word × Word)} {k : Pm} {g : ℕ} {kern p : UserStabData}
  {m : ByteMem} {addr : Word} {log : List Access} {i : ℤ} {j b : ℕ}

/-- A list of reads. -/
theorem validatedFrom_reads (hreads : ∀ a ∈ log, ∃ va n, a = .read va n) :
    ValidatedFrom safe known log ↔
      ∀ va n, .read va n ∈ log → ∀ b < n, ∃ r ∈ known, safe r.1 r.2 (va + BitVec.ofNat 32 b) := by
  induction log with
  | nil => exact ⟨fun _ _ _ h => (nomatch h), fun _ => trivial⟩
  | cons a log ih =>
    obtain ⟨va, n, rfl⟩ := hreads a List.mem_cons_self
    have ih := ih fun a ha => hreads a (List.mem_cons_of_mem _ ha)
    constructor
    · rintro ⟨hfirst, hrest⟩ va' n' hmem
      obtain heq | hmem := List.mem_cons.mp hmem
      · obtain ⟨rfl, rfl⟩ := Access.read.inj heq
        exact hfirst
      · exact ih.mp hrest va' n' hmem
    · intro h
      constructor
      · exact h va n List.mem_cons_self
      · exact ih.mpr fun va' n' hmem => h va' n' (List.mem_cons_of_mem _ hmem)

theorem UserStabData.count_le (p : UserStabData) : 12 * p.count < 2^31 := by
  unfold UserStabData.count
  have hlt := BitVec.two_mul_toInt_lt (x := p.stabEnd - p.stabs)
  have hdiv := Int.mul_tdiv_add_tmod (p.stabEnd - p.stabs).toInt 12
  by_cases hneg : (p.stabEnd - p.stabs).toInt < 0
  · have hmod := Int.lt_tmod_of_pos (p.stabEnd - p.stabs).toInt (show (0 : ℤ) < 12 by decide)
    omega
  · have hmod := Int.tmod_nonneg 12 (Int.not_lt.mp hneg)
    omega

/-- Entry `j`, counted from the third one before the table. -/
theorem stabAddr_nat (base : Word) (j : ℕ) : stabAddr base (j - 3) = base - 36#32 + BitVec.ofNat 32 (12 * j) := by
  have hint : (12 * ((j : ℤ) - 3)) = ((12 * j : ℕ) : ℤ) + (-36) := by
    push_cast
    omega
  unfold stabAddr
  rw [hint, BitVec.ofInt_add, BitVec.ofInt_natCast]
  have hneg : BitVec.ofInt 32 (-36) = - 36#32 := rfl
  rw [hneg]
  bv_omega

theorem plant_usd (p : UserStabData) (bs : List (BitVec 8)) : userStabData (plant p bs) = p := by
  have hword (j : ℕ) (hj : j < 4) := loadWord_writeBytes (writeBytes (fun _ => 0#8) (p.stabs - 24#32) bs) ustabdata
    [p.stabs, p.stabEnd, p.stabstr, p.stabstrEnd] j hj (by change 4 * 4 < 2^32; decide)
  unfold userStabData
  congr 1
  · exact hword 0 (by decide)
  · exact hword 1 (by decide)
  · exact hword 2 (by decide)
  · exact hword 3 (by decide)

theorem plant_string {bs : List (BitVec 8)} (h : TableApart p) (hcount : 0 < p.count) (hbs : bs.length ≤ 36) :
    plant p bs (p.stabstrEnd - 1#32) = 0#8 := by
  have hle := p.count_le
  unfold plant
  rw [writeBytes_of_not_inSpan h.strings, writeBytes_of_not_inSpan]
  intro hin
  apply (h.stabs (p.stabstrEnd - 1#32) _).2 rfl
  unfold InSpan at *
  bv_omega

/-- Byte `b` of entry `j`. -/
theorem plant_byte (bs : List (BitVec 8)) (h : TableApart p) (hj : 0 < j) (hcount : (j : ℤ) < 3 + p.count) (hb : b < 12) :
    plant p bs (stabAddr p.stabs (j - 3) + BitVec.ofNat 32 b) = (bs[12 * j + b - 12]?).getD 0#8 := by
  have hle := p.count_le
  have haddr : stabAddr p.stabs (j - 3) + BitVec.ofNat 32 b - (p.stabs - 36#32) = BitVec.ofNat 32 (12 * j + b) := by
    rw [stabAddr_nat]
    bv_omega
  have hin : InSpan (p.stabs - 36#32) (36 + 12 * p.count).toNat (stabAddr p.stabs (j - 3) + BitVec.ofNat 32 b) := by
    unfold InSpan
    rw [haddr, BitVec.toNat_ofNat, Nat.mod_eq_of_lt (by omega)]
    omega
  have hoff : (stabAddr p.stabs (j - 3) + BitVec.ofNat 32 b - (p.stabs - 24#32)).toNat = 12 * j + b - 12 := by
    bv_omega
  unfold plant
  rw [writeBytes_of_not_inSpan (h.stabs _ hin).1, writeBytes, hoff]

/-- What is done when the checks pass. -/
theorem debuginfoEip_searches (kern : UserStabData) (haddr : addr < ulim) (husd : userStabData m = p) (h : ChecksPass k g p)
    (hlast : m (p.stabstrEnd - 1#32) = 0#8) : ∃ info, (debuginfoEip k g kern m addr).log =
      [.checked ustabdata 16#32, .read ustabdata 16, .checked p.stabs (BitVec.ofInt 32 p.count), .checked p.stabstr p.size,
        .read (p.stabstrEnd - 1#32) 1] ++ (searchInfo (stabAt m p.stabs) p.count addr m p info).log := by
  obtain ⟨h1, h2, h3, h4⟩ := h
  refine ⟨⟨none, 0, none, 9, addr, 0⟩, ?_⟩
  unfold debuginfoEip
  dsimp only
  rw [husd, if_neg (BitVec.not_le.mpr haddr), if_neg (by rw [h1]; decide), if_neg (by rw [h2]; decide),
    if_neg (by rw [h3]; decide)]
  unfold stringChecks
  rw [if_neg (BitVec.not_le.mpr h4), if_neg (not_not_intro hlast)]
  rfl

/-- The checks pass, and then there is a search, or nothing more than the structure and the last
byte of the strings is read. -/
theorem debuginfoEip_validated (hsafe : ∀ va len x, InSpan va len.toNat x → safe va len x) (hcov : TableCovered safe k g p)
    (husd : userStabData m = p) (haddr : addr < ulim) : Validated safe (debuginfoEip k g kern m addr).log := by
  have husd16 {known : List (Word × Word)} (hmem : (ustabdata, 16#32) ∈ known) :
      ∀ b < 16, ∃ r ∈ known, safe r.1 r.2 (ustabdata + BitVec.ofNat 32 b) := by
    intro b hb
    refine ⟨_, hmem, hsafe _ _ _ ?_⟩
    unfold InSpan
    bv_omega
  have hend {known : List (Word × Word)} (hmem : (p.stabstr, p.size) ∈ known) (horder : p.stabstr < p.stabstrEnd) :
      ∀ b < 1, ∃ r ∈ known, safe r.1 r.2 (p.stabstrEnd - 1#32 + BitVec.ofNat 32 b) := by
    intro b hb
    refine ⟨_, hmem, hsafe _ _ _ ?_⟩
    unfold UserStabData.size InSpan
    bv_omega
  by_cases hpass : ChecksPass k g p ∧ m (p.stabstrEnd - 1#32) = 0#8
  · obtain ⟨hpass, hlast⟩ := hpass
    obtain ⟨info, hlog⟩ := debuginfoEip_searches kern haddr husd hpass hlast
    have hreads := fun a (ha : a ∈ (searchInfo (stabAt m p.stabs) p.count addr m p info).log) => searchInfo_reads hlast ha
    rw [hlog]
    refine ⟨husd16 List.mem_cons_self, hend List.mem_cons_self hpass.order, ?_⟩
    apply (validatedFrom_reads fun a ha => ?_).mpr
    · intro va n hmem b hb
      obtain ⟨i, hn, hlo, hhi, heq⟩ | ⟨va', n', heq, hspan⟩ := hreads _ hmem
      · obtain ⟨rfl, rfl⟩ := Access.read.inj heq
        exact hcov hpass hn i hlo hhi b hb
      · obtain ⟨rfl, rfl⟩ := Access.read.inj heq
        exact ⟨_, List.mem_cons_self, hsafe _ _ _ (hspan b hb)⟩
    · obtain ⟨i, -, -, -, heq⟩ | ⟨va', n', heq, -⟩ := hreads a ha
      · exact ⟨_, _, heq⟩
      · exact ⟨_, _, heq⟩
  · unfold debuginfoEip
    dsimp only
    rw [husd, if_neg (BitVec.not_le.mpr haddr)]
    split_ifs with h1 h2 h3
    · trivial
    · exact ⟨husd16 List.mem_cons_self, trivial⟩
    · exact ⟨husd16 List.mem_cons_self, trivial⟩
    · unfold stringChecks
      split_ifs with h4 h5
      · exact ⟨husd16 List.mem_cons_self, trivial⟩
      · exact ⟨husd16 List.mem_cons_self, hend List.mem_cons_self (BitVec.not_le.mp h4), trivial⟩
      · have hpass' : ChecksPass k g p := ⟨Bool.eq_true_of_not_eq_false h1, Bool.eq_true_of_not_eq_false h2,
          Bool.eq_true_of_not_eq_false h3, BitVec.not_le.mp h4⟩
        exact absurd ⟨hpass', not_not.mp h5⟩ hpass

/-- A stab that is read has to be safe. -/
theorem Validated.stab (haddr : addr < ulim) (husd : userStabData m = p) (hpass : ChecksPass k g p)
    (hlast : m (p.stabstrEnd - 1#32) = 0#8) (h : Validated safe (debuginfoEip k g kern m addr).log)
    (hread : ∀ info, .read (stabAddr p.stabs i) 12 ∈ (searchInfo (stabAt m p.stabs) p.count addr m p info).log) :
    ∀ b < 12, ∃ r ∈ p.ranges, safe r.1 r.2 (stabAddr p.stabs i + BitVec.ofNat 32 b) := by
  obtain ⟨info, hlog⟩ := debuginfoEip_searches kern haddr husd hpass hlast
  rw [hlog] at h
  obtain ⟨-, -, h⟩ := h
  apply (validatedFrom_reads fun a ha => ?_).mp h _ _ (hread info)
  obtain ⟨i, -, -, -, heq⟩ | ⟨va', n', heq, -⟩ := searchInfo_reads hlast ha
  · exact ⟨_, _, heq⟩
  · exact ⟨_, _, heq⟩

end Tables

section Exact

variable {safe : Word → Word → Word → Prop} {tab : ℤ → Stab} {k : Pm} {g : ℕ} {kern p usd : UserStabData} {m : ByteMem}
  {addr : Word} {info : Eipdebuginfo} {n i : ℤ}

theorem file_mem_log (hi : i ∈ stabBinsearchReads tab nSo 0 (n - 1) addr) :
    .read (stabAddr usd.stabs i) 12 ∈ (searchInfo tab n addr m usd info).log := by
  unfold searchInfo
  dsimp only
  by_cases hfile : (fileRegion tab n addr).1 = 0
  · rw [if_pos hfile]
    exact mem_stabReads.mpr ⟨i, hi, rfl⟩
  · rw [if_neg hfile]
    apply List.mem_append_left
    apply List.mem_append_left
    exact mem_stabReads.mpr ⟨i, List.mem_append_left _ hi, rfl⟩

theorem fun_mem_log (hfile : (fileRegion tab n addr).1 ≠ 0)
    (hi : i ∈ stabBinsearchReads tab nFun (fileRegion tab n addr).1 (fileRegion tab n addr).2 addr ∨
      HasFun tab n addr ∧ i = (funRegion tab n addr).1) :
    .read (stabAddr usd.stabs i) 12 ∈ (searchInfo tab n addr m usd info).log := by
  unfold searchInfo
  dsimp only
  rw [if_neg hfile]
  apply List.mem_append_left
  apply List.mem_append_left
  refine mem_stabReads.mpr ⟨i, List.mem_append_right _ (List.mem_append.mpr ?_), rfl⟩
  obtain hi | ⟨hfun, hi⟩ := hi
  · exact Or.inl hi
  · right
    rw [if_pos hfun]
    exact List.mem_singleton.mpr hi

theorem line_mem_log (hfile : (fileRegion tab n addr).1 ≠ 0) (hline : HasLine tab n addr) :
    .read (stabAddr usd.stabs (lineRegion tab n addr).1) 12 ∈ (searchInfo tab n addr m usd info).log := by
  unfold searchInfo
  dsimp only
  rw [if_neg hfile]
  apply List.mem_append_right
  refine mem_stabReads.mpr ⟨_, List.mem_append_left _ (List.mem_append_left _ (List.mem_append_right _ ?_)), rfl⟩
  rw [if_pos hline]
  exact List.mem_singleton_self _

/-- A table with a file, a function and a line that each begin too late for the address 1. -/
structure LateStabs (tab : ℤ → Stab) (n : ℤ) : Prop where
  pos : 0 < n
  file : IsType tab nSo 0 ∧ (tab 0).nValue = 2#32
  noFile : ∀ j, 0 < j → j < n → ¬ IsType tab nSo j
  fn : IsType tab nFun (-1) ∧ (tab (-1)).nValue = 2#32
  line : IsType tab nSline (-2) ∧ (tab (-2)).nValue = 1#32

/-- Each search goes one entry further to the left. -/
theorem LateStabs.regions (h : LateStabs tab n) :
    fileRegion tab n 1#32 = (-1, -1) ∧ funRegion tab n 1#32 = (-2, -2) ∧ lineRegion tab n 1#32 = (-3, -3) := by
  obtain ⟨hpos, ⟨hfile, hfileval⟩, hnone, ⟨hfn, hfnval⟩, hline, hlineval⟩ := h
  have hfiles : fileRegion tab n 1#32 = (-1, -1) :=
    stabBinsearch_before (by omega) hfile (by rw [hfileval]; decide) fun j hj hjn => hnone j hj (by omega)
  have hfuns : funRegion tab n 1#32 = (-2, -2) := by
    unfold funRegion
    rw [hfiles]
    exact stabBinsearch_before (Int.le_refl _) hfn (by rw [hfnval]; decide) fun j hj hjn => absurd hj (Int.not_lt.mpr hjn)
  have hstart : lineStart tab n 1#32 = ((-2, -2), 0#32) := by
    unfold lineStart
    rw [if_pos (by unfold HasFun; rw [hfuns]), hfuns]
    dsimp only
    rw [hlineval]
    rfl
  refine ⟨hfiles, hfuns, ?_⟩
  unfold lineRegion
  rw [hstart]
  exact stabBinsearch_before (Int.le_refl _) hline (by rw [hlineval]; decide) fun j hj hjn => absurd hj (Int.not_lt.mpr hjn)

/-- The three entries before the table are read. -/
theorem LateStabs.reads (h : LateStabs tab n) (hlo : -3 ≤ i) (hneg : i < 0) :
    .read (stabAddr usd.stabs i) 12 ∈ (searchInfo tab n 1#32 m usd info).log := by
  obtain ⟨hfiles, hfuns, hlines⟩ := h.regions
  have hfile : (fileRegion tab n 1#32).1 ≠ 0 := by
    rw [hfiles]
    decide
  obtain rfl | rfl | rfl : i = -1 ∨ i = -2 ∨ i = -3 := by omega
  · apply fun_mem_log hfile
    left
    rw [hfiles]
    exact first_mem_stabBinsearchReads (Int.le_refl _) fun j hj hjn => absurd hj (Int.not_lt.mpr hjn)
  · apply fun_mem_log hfile
    right
    unfold HasFun
    rw [hfuns]
    exact ⟨Int.le_refl _, rfl⟩
  · have hline : HasLine tab n 1#32 := by
      unfold HasLine
      rw [hlines]
    have hread : .read (stabAddr usd.stabs (lineRegion tab n 1#32).1) 12 ∈ (searchInfo tab n 1#32 m usd info).log :=
      line_mem_log hfile hline
    rw [hlines] at hread
    exact hread

/-- The whole table is read when it has no stab of a file. -/
theorem plant_nil_reads (addr : Word) (info : Eipdebuginfo) (h : TableApart p) (hlo : 0 ≤ i) (hhi : i < p.count) :
    .read (stabAddr p.stabs i) 12 ∈ (searchInfo (stabAt (plant p []) p.stabs) p.count addr (plant p []) p info).log := by
  have htype (j : ℤ) (hj : 0 ≤ j) (hjn : j ≤ p.count - 1) : ¬ IsType (stabAt (plant p []) p.stabs) nSo j := by
    obtain ⟨n, hn⟩ : ∃ n : ℕ, (n : ℤ) = j + 3 := ⟨(j + 3).toNat, by omega⟩
    obtain rfl : j = n - 3 := by omega
    have hbyte := plant_byte (b := 4) [] h (show 0 < n by omega) (by omega) (by decide)
    rw [List.getElem?_nil] at hbyte
    have hzero : (stabAt (plant p []) p.stabs (n - 3)).nType = 0#8 := hbyte
    unfold IsType
    rw [hzero]
    decide
  exact file_mem_log (stabBinsearchReads_none htype hlo (by omega))

/-- The type and the value of an entry that is planted. -/
theorem plant_stab {j : ℕ} (bs : List (BitVec 8)) (h : TableApart p) (hj : 0 < j) (hcount : (j : ℤ) < 3 + p.count) :
    (stabAt (plant p bs) p.stabs (j - 3)).nType = (bs[12 * j + 4 - 12]?).getD 0#8 ∧
      (stabAt (plant p bs) p.stabs (j - 3)).nValue = (bs[12 * j + 11 - 12]?).getD 0#8 ++ (bs[12 * j + 10 - 12]?).getD 0#8 ++
        (bs[12 * j + 9 - 12]?).getD 0#8 ++ (bs[12 * j + 8 - 12]?).getD 0#8 := by
  have hbyte (b : ℕ) (hb : b < 12) := plant_byte bs h hj hcount hb
  have hadd (b : ℕ) : stabAddr p.stabs (j - 3) + 8#32 + BitVec.ofNat 32 b = stabAddr p.stabs (j - 3) + BitVec.ofNat 32 (8 + b) := by
    bv_omega
  constructor
  · exact hbyte 4 (by decide)
  · unfold stabAt loadWord
    dsimp only
    rw [hadd 3, hadd 2, hadd 1, hbyte 11 (by decide), hbyte 10 (by decide), hbyte 9 (by decide), hbyte 8 (by decide)]

theorem plant_left (h : TableApart p) (hcount : 0 < p.count) : LateStabs (stabAt (plant p leftBytes) p.stabs) p.count := by
  have h0 := plant_stab leftBytes h (show 0 < 3 by decide) (by omega)
  have h1 := plant_stab leftBytes h (show 0 < 2 by decide) (by omega)
  have h2 := plant_stab leftBytes h (show 0 < 1 by decide) (by omega)
  have htype {j : ℤ} {t : BitVec 8} {type : ℤ} (hj : (stabAt (plant p leftBytes) p.stabs j).nType = t) (ht : (t.toNat : ℤ) = type) :
      IsType (stabAt (plant p leftBytes) p.stabs) type j := by
    unfold IsType
    rw [hj]
    exact ht
  constructor
  · exact hcount
  · exact ⟨htype h0.1 rfl, h0.2⟩
  · intro j hj hjn
    obtain ⟨n, hn⟩ : ∃ n : ℕ, (n : ℤ) = j + 3 := ⟨(j + 3).toNat, by omega⟩
    obtain rfl : j = n - 3 := by omega
    have hzero := (plant_stab leftBytes h (show 0 < n by omega) (by omega)).1
    rw [List.getElem?_eq_none (by change 36 ≤ _; omega)] at hzero
    unfold IsType
    rw [hzero]
    decide
  · exact ⟨htype h1.1 rfl, h1.2⟩
  · exact ⟨htype h2.1 rfl, h2.2⟩

/-- The check of the table counts entries, not bytes, and a search can end up to three entries
before it. So what is read has been checked, whatever the memory holds and for every user
address, if and only if what the three checks make safe includes the table and these entries. -/
theorem debuginfo_eip_iff (kern : UserStabData) (k : Pm) (g : ℕ) (p : UserStabData) (safe : Word → Word → Word → Prop)
    (hsafe : ∀ va len x, InSpan va len.toNat x → safe va len x) :
    (TableCovered safe k g p → ∀ m addr, userStabData m = p → addr < ulim →
      Validated safe (debuginfoEip k g kern m addr).log) ∧
    (TableApart p → (∀ m addr, userStabData m = p → addr < ulim → Validated safe (debuginfoEip k g kern m addr).log) →
      TableCovered safe k g p) := by
  constructor
  · intro hcov m addr husd haddr
    exact debuginfoEip_validated hsafe hcov husd haddr
  · intro hapart hvalid hpass hcount i hlo hhi
    by_cases hneg : i < 0
    · -- the searches fall off the left end of the table
      have h := hvalid (plant p leftBytes) 1#32 (plant_usd p leftBytes) (by decide)
      exact h.stab (by decide) (plant_usd p leftBytes) hpass (plant_string hapart hcount (by decide)) fun _ =>
        (plant_left hapart hcount).reads hlo hneg
    · have h := hvalid (plant p []) 1#32 (plant_usd p []) (by decide)
      exact h.stab (by decide) (plant_usd p []) hpass (plant_string hapart hcount (by decide)) fun _ =>
        plant_nil_reads _ _ hapart (Int.not_lt.mp hneg) hhi

/-- The pages at `0x200000`, `0x300000` and `0x400000`, and no others. -/
def threePages : Pm where
  npages := 2
  pages := fun _ => ⟨none, 0⟩
  pageFreeList := none
  kernPgdir := 0
  word := fun page i => if page = 0 then 0x1001#32 else if i = 0 ∨ i = 0x200 ∨ i = 0x300 then pteP else 0#32

/-- A table of one stab in the middle of a page. -/
def shortTable : UserStabData := ⟨0x300100#32, 0x30010c#32, 0x400000#32, 0x400010#32⟩

/-- This table is on one page with what is before it. -/
theorem debuginfo_eip_short :
    Validated OnPageOf (debuginfoEip threePages 0 shortTable (plant shortTable leftBytes) 1#32).log := by
  have hcov : TableCovered OnPageOf threePages 0 shortTable := by
    intro _ _ i hlo hhi b hb
    have hlt : i < 1 := hhi
    refine ⟨(0x300100#32, 1#32), by decide, 0x300100#32, by decide, ?_⟩
    obtain ⟨j, rfl⟩ : ∃ j : ℕ, i = j - 3 := ⟨(i + 3).toNat, by omega⟩
    apply BitVec.eq_of_toNat_eq
    have haddr : (stabAddr shortTable.stabs (j - 3) + BitVec.ofNat 32 b).toNat = 0x3000dc + 12 * j + b := by
      rw [stabAddr_nat]
      change (0x300100#32 - 36#32 + BitVec.ofNat 32 (12 * j) + BitVec.ofNat 32 b).toNat = _
      bv_omega
    rw [rounddown_toNat, rounddown_toNat, haddr]
    change _ = 0x300000
    omega
  exact (debuginfo_eip_iff shortTable threePages 0 shortTable OnPageOf fun _ _ x hx => ⟨x, hx, rfl⟩).1 hcov _ _
    (plant_usd shortTable leftBytes) (by decide)

/-- A table of 1000 stabs at `0x300000`. -/
def longTable : UserStabData := ⟨0x300000#32, 0x302ee0#32, 0x400000#32, 0x400010#32⟩

theorem longTable_apart : TableApart longTable := by
  have hcount : (36 + 12 * longTable.count).toNat = 12036 := by decide
  constructor
  · intro x hx
    rw [hcount] at hx
    unfold InSpan longTable at *
    dsimp only at *
    constructor
    · intro hin
      bv_omega
    · rintro rfl
      bv_omega
  · decide

/-- The checks let this table through, but its last page is not there. -/
theorem debuginfo_unchecked : ChecksPass threePages 0 longTable ∧ userStabData (plant longTable []) = longTable ∧
    .read 0x302ed4#32 12 ∈ (debuginfoEip threePages 0 longTable (plant longTable []) 1#32).log ∧
    userMemOk threePages 0 0x302ed4#32 12#32 = false ∧
    ¬ Validated OnPageOf (debuginfoEip threePages 0 longTable (plant longTable []) 1#32).log := by
  have hpass : ChecksPass threePages 0 longTable := by
    constructor <;> decide +kernel
  have husd := plant_usd longTable []
  have haddr : 1#32 < ulim := by decide
  have hlast : plant longTable [] (longTable.stabstrEnd - 1#32) = 0#8 :=
    plant_string longTable_apart (by decide) (by decide)
  have hread (info : Eipdebuginfo) := plant_nil_reads 1#32 info longTable_apart (show 0 ≤ 999 by decide)
    (show 999 < longTable.count by decide)
  refine ⟨hpass, husd, ?_, by decide +kernel, fun hvalid => ?_⟩
  · obtain ⟨info, hlog⟩ := debuginfoEip_searches longTable haddr husd hpass hlast
    rw [hlog]
    exact List.mem_append_right _ (hread info)
  · obtain ⟨r, hr, y, hy, hpage⟩ := hvalid.stab haddr husd hpass hlast hread 0 (by decide)
    have hx : rounddown (stabAddr longTable.stabs 999 + BitVec.ofNat 32 0) = 0x302000#32 := by decide
    rw [hx] at hpage
    have hranges : longTable.ranges = [(0x400000#32, 16#32), (0x300000#32, 1000#32), (0x200000#32, 16#32)] := by decide
    rw [hranges] at hr
    have hy' : y.toNat / 4096 = 0x302 := by
      have hnat := congrArg BitVec.toNat hpage
      rw [rounddown_toNat] at hnat
      change 0x302000 = _ at hnat
      omega
    unfold InSpan at hy
    simp only [List.mem_cons, List.not_mem_nil, or_false] at hr
    obtain rfl | rfl | rfl := hr
    all_goals bv_omega

end Exact

end Sisop
