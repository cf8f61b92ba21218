import Sisop.DebugInfo

/-! Which stabs and strings `debuginfo_eip` reads: some of those in the table, and up to three before it. -/
namespace Sisop

section Bounds

variable {p : ℤ → Prop} [DecidablePred p] {tab : ℤ → Stab} {type l m r i L R : ℤ} {s : StabState} {addr : Word}

theorem scanBackReads_bounds (hi : i ∈ scanBackReads p l m) : l ≤ i ∧ i ≤ m := by
  fun_induction scanBackReads p l m with
  | case1 m hle ih =>
    obtain rfl | hi := List.mem_cons.mp hi
    · exact ⟨hle, Int.le_refl i⟩
    · split_ifs at hi
      · cases hi
      · have hbounds := ih hi
        omega
  | case2 => cases hi

theorem scanOnReads_bounds (hi : i ∈ scanOnReads p l r) : l ≤ i ∧ i < r := by
  fun_induction scanOnReads p l r with
  | case1 l hlt ih =>
    obtain rfl | hi := List.mem_cons.mp hi
    · exact ⟨Int.le_refl i, hlt⟩
    · split_ifs at hi
      · have hbounds := ih hi
        omega
      · cases hi
  | case2 => cases hi

/-- A search among the stabs from `L` to `R`. -/
structure Inside (L R : ℤ) (s : StabState) : Prop where
  lo : L ≤ s.l
  hi : s.r ≤ R
  left : L ≤ s.regionLeft ∧ s.regionLeft ≤ R
  right : L - 1 ≤ s.regionRight ∧ s.regionRight ≤ R
  fresh : s.anyMatches = false → s.regionLeft = L

theorem Inside.round (h : Inside L R s) (hle : s.l ≤ s.r) : Inside L R (stabRound tab type s) := by
  obtain ⟨hlo, hhi, hleft, hright, hfresh⟩ := h
  have hmid := trueMid_bounds hle
  rcases @stabRound_cases tab type s hle with ⟨-, heq⟩ | ⟨m, hlm, hmm, -, -, ⟨-, heq⟩ | ⟨-, heq⟩ | ⟨-, heq⟩⟩
  · rw [heq]
    exact ⟨show L ≤ trueMid s.l s.r + 1 by omega, hhi, hleft, hright, hfresh⟩
  · rw [heq]
    exact ⟨show L ≤ trueMid s.l s.r + 1 by omega, hhi, show L ≤ m ∧ m ≤ R by omega, hright, nofun⟩
  · rw [heq]
    exact ⟨hlo, show m - 1 ≤ R by omega, hleft, show L - 1 ≤ m - 1 ∧ m - 1 ≤ R by omega, nofun⟩
  · rw [heq]
    exact ⟨show L ≤ m by omega, hhi, show L ≤ m ∧ m ≤ R by omega, hright, nofun⟩

/-- The loop stays among these stabs, and reads no others. -/
theorem Inside.loop (h : Inside L R s) : Inside L R (stabLoop tab type s) ∧ ∀ i ∈ stabLoopReads tab type s, L ≤ i ∧ i ≤ R := by
  induction hn : stabMeasure tab s using Nat.strong_induction_on generalizing s with
  | _ n ih =>
    subst hn
    by_cases hle : s.l ≤ s.r
    · obtain ⟨hstate, hreads⟩ := ih _ (stabMeasure_round hle) (h.round hle) rfl
      rw [stabLoop_step hle, stabLoopReads, if_pos hle]
      refine ⟨hstate, fun i hi => ?_⟩
      obtain hi | hi := List.mem_append.mp hi
      · have hbounds := scanBackReads_bounds hi
        have hmid := trueMid_bounds hle
        have hlo := h.lo
        have hhi := h.hi
        omega
      · exact hreads i hi
    · rw [stabLoop_done hle, stabLoopReads, if_neg hle]
      exact ⟨h, fun i hi => nomatch hi⟩

theorem inside_start (h : L ≤ R) (addr : Word) : Inside L R ⟨L, R, L, R, addr, false⟩ :=
  ⟨Int.le_refl L, Int.le_refl R, ⟨Int.le_refl L, h⟩, show L - 1 ≤ R ∧ R ≤ R by omega, fun _ => rfl⟩

theorem stabBinsearchReads_bounds (hi : i ∈ stabBinsearchReads tab type L R addr) : L ≤ i ∧ i ≤ R := by
  unfold stabBinsearchReads at hi
  dsimp only at hi
  by_cases hLR : L ≤ R
  · obtain ⟨hend, hreads⟩ := @Inside.loop tab type L R _ (inside_start hLR addr)
    obtain hi | hi := List.mem_append.mp hi
    · exact hreads i hi
    · split_ifs at hi
      · have hbounds := scanBackReads_bounds hi
        obtain ⟨-, -, hleft, hright, -⟩ := hend
        omega
      · cases hi
  · have hstop : ¬ (StabState.mk L R L R addr false).l ≤ (StabState.mk L R L R addr false).r := hLR
    rw [stabLoop_done hstop, stabLoopReads, if_neg hstop] at hi
    cases hi

/-- The region of a search can begin and end before the first stab, or it is empty. -/
theorem stabBinsearch_bounds (tab : ℤ → Stab) (type L R : ℤ) (addr : Word) :
    stabBinsearch tab type L R addr = (L, L - 1) ∨
      L ≤ R ∧ L - 1 ≤ (stabBinsearch tab type L R addr).1 ∧
        (stabBinsearch tab type L R addr).1 ≤ (stabBinsearch tab type L R addr).2 ∧
        (stabBinsearch tab type L R addr).2 ≤ R := by
  unfold stabBinsearch
  by_cases hLR : L ≤ R
  · obtain ⟨⟨-, -, hleft, hright, hfresh⟩, -⟩ := @Inside.loop tab type L R _ (inside_start hLR addr)
    generalize stabLoop tab type ⟨L, R, L, R, addr, false⟩ = t at *
    unfold stabFinish
    split_ifs with hany
    · right
      refine ⟨hLR, ?_⟩
      by_cases hlr : t.regionLeft ≤ t.regionRight
      · obtain ⟨hle, -, hend⟩ := scanBack_spec (IsType tab type) (show t.regionLeft + 1 ≤ t.regionRight + 1 by omega)
        dsimp only
        omega
      · rw [scanBack_of_lt _ (by omega)]
        dsimp only
        omega
    · left
      rw [hfresh (Bool.eq_false_of_not_eq_true hany)]
  · have hstop : ¬ (StabState.mk L R L R addr false).l ≤ (StabState.mk L R L R addr false).r := hLR
    rw [stabLoop_done hstop]
    exact Or.inl rfl

end Bounds

section Search

variable {tab : ℤ → Stab} {n i : ℤ} {addr : Word} {m : ByteMem} {usd : UserStabData} {info : Eipdebuginfo} {a : Access}

/-- Where the region of a file is when there is one. -/
theorem fileRegion_bounds (h : (fileRegion tab n addr).1 ≠ 0) :
    0 < n ∧ -1 ≤ (fileRegion tab n addr).1 ∧ (fileRegion tab n addr).1 ≤ (fileRegion tab n addr).2 ∧ (fileRegion tab n addr).2 < n := by
  obtain heq | ⟨hn, hlo, hle, hhi⟩ := stabBinsearch_bounds tab nSo 0 (n - 1) addr
  · exact absurd (congrArg Prod.fst heq) h
  · unfold fileRegion
    omega

/-- The function can be found one place before the file. -/
theorem funRegion_bounds (h : (fileRegion tab n addr).1 ≠ 0) : -2 ≤ (funRegion tab n addr).1 ∧ (funRegion tab n addr).1 < n ∧
    (funRegion tab n addr).2 < n := by
  obtain ⟨hn, hlo, hle, hhi⟩ := fileRegion_bounds h
  obtain heq | ⟨-, hlo', hle', hhi'⟩ := stabBinsearch_bounds tab nFun (fileRegion tab n addr).1 (fileRegion tab n addr).2 addr
  · have heq' : funRegion tab n addr = _ := heq
    rw [heq']
    dsimp only
    omega
  · unfold funRegion
    omega

theorem lineStart_bounds (h : (fileRegion tab n addr).1 ≠ 0) : -2 ≤ (lineStart tab n addr).1.1 ∧
    (lineStart tab n addr).1.1 ≤ (lineStart tab n addr).1.2 ∧ (lineStart tab n addr).1.2 < n := by
  obtain ⟨-, hlo, hle, hhi⟩ := fileRegion_bounds h
  obtain ⟨hlo', -, hhi'⟩ := funRegion_bounds h
  unfold lineStart
  split_ifs with hfun
  · exact ⟨hlo', hfun, hhi'⟩
  · dsimp only
    omega

/-- The line one place before the function. -/
theorem lineRegion_bounds (h : (fileRegion tab n addr).1 ≠ 0) : -3 ≤ (lineRegion tab n addr).1 ∧ (lineRegion tab n addr).1 < n := by
  obtain ⟨hlo, hle, hhi⟩ := lineStart_bounds h
  obtain heq | ⟨-, hlo', hle', hhi'⟩ :=
    stabBinsearch_bounds tab nSline (lineStart tab n addr).1.1 (lineStart tab n addr).1.2 (lineStart tab n addr).2
  · have heq' : lineRegion tab n addr = _ := heq
    rw [heq']
    dsimp only
    omega
  · unfold lineRegion
    omega

theorem fileStab_le : fileStab tab n addr ≤ (lineRegion tab n addr).1 := by
  unfold fileStab
  by_cases hle : (fileRegion tab n addr).1 ≤ (lineRegion tab n addr).1
  · exact (scanBack_spec _ (by omega)).1
  · rw [scanBack_of_lt _ (by omega)]

theorem mem_stabReads {base : Word} {is : List ℤ} : a ∈ stabReads base is ↔ ∃ i ∈ is, a = .read (stabAddr base i) 12 := by
  unfold stabReads
  rw [List.mem_map]
  simp only [eq_comm]

/-- A string that has a NUL at its end is not read behind it. -/
theorem strfindFrom_lt {c : BitVec 8} {k : ℕ} {s : Word} (hk : 0 < k) (hend : m (s + BitVec.ofNat 32 (k - 1)) = 0#8) :
    strfindFrom m c k s < k := by
  induction k generalizing s with
  | zero => exact absurd hk (Nat.lt_irrefl 0)
  | succ k ih =>
    unfold strfindFrom
    split_ifs with hstop
    · exact Nat.succ_pos k
    · have hk' : 0 < k := by
        by_contra h0
        obtain rfl : k = 0 := Nat.eq_zero_of_not_pos h0
        rw [Nat.sub_self, BitVec.add_zero] at hend
        exact hstop (Or.inl hend)
      have haddr : s + 1#32 + BitVec.ofNat 32 (k - 1) = s + BitVec.ofNat 32 (k + 1 - 1) := by
        rw [BitVec.add_assoc]
        congr 1
        bv_omega
      exact Nat.succ_lt_succ (ih hk' (by rw [haddr]; exact hend))

/-- A name that begins in the string table is not read behind it. -/
theorem nameOf_span {c : BitVec 8} {s : Word} (hlast : m (usd.stabstrEnd - 1#32) = 0#8) (hname : nameOf tab usd i = some s) :
    ∀ b < strfindFrom m c (usd.stabstrEnd - s).toNat s + 1, InSpan usd.stabstr usd.size.toNat (s + BitVec.ofNat 32 b) := by
  unfold nameOf at hname
  split_ifs at hname with hin
  obtain rfl := Option.some.inj hname
  generalize (tab i).nStrx = x at *
  unfold UserStabData.size at hin ⊢
  have hlt : x.toNat < (usd.stabstrEnd - usd.stabstr).toNat := hin
  have hlen : (usd.stabstrEnd - (usd.stabstr + x)).toNat = (usd.stabstrEnd - usd.stabstr).toNat - x.toNat := by bv_omega
  have hend : usd.stabstr + x + BitVec.ofNat 32 ((usd.stabstrEnd - (usd.stabstr + x)).toNat - 1) = usd.stabstrEnd - 1#32 := by
    bv_omega
  have hstop := strfindFrom_lt (m := m) (c := c) (s := usd.stabstr + x) (show 0 < (usd.stabstrEnd - (usd.stabstr + x)).toNat by omega)
    (by rw [hend]; exact hlast)
  intro b hb
  unfold InSpan
  bv_omega

/-- What the search reads when its tables are known: stabs of the table, up to three before it,
and strings that end in the string table. -/
theorem searchInfo_reads (hlast : m (usd.stabstrEnd - 1#32) = 0#8)
    (ha : a ∈ (searchInfo tab n addr m usd info).log) :
    (∃ i, 0 < n ∧ -3 ≤ i ∧ i < n ∧ a = .read (stabAddr usd.stabs i) 12) ∨
      ∃ va k, a = .read va k ∧ ∀ b < k, InSpan usd.stabstr usd.size.toNat (va + BitVec.ofNat 32 b) := by
  have hfirst (i : ℤ) (hi : i ∈ stabBinsearchReads tab nSo 0 (n - 1) addr) : 0 < n ∧ -3 ≤ i ∧ i < n := by
    have hbounds := stabBinsearchReads_bounds hi
    omega
  unfold searchInfo at ha
  dsimp only at ha
  by_cases hfile : (fileRegion tab n addr).1 = 0
  · rw [if_pos hfile] at ha
    obtain ⟨i, hi, rfl⟩ := mem_stabReads.mp ha
    obtain ⟨hn, hlo, hhi⟩ := hfirst i hi
    exact Or.inl ⟨i, hn, hlo, hhi, rfl⟩
  rw [if_neg hfile] at ha
  obtain ⟨hn, hlo, hle, hhi⟩ := fileRegion_bounds hfile
  obtain ⟨hfunlo, hfunhi, hfunr⟩ := funRegion_bounds hfile
  obtain ⟨hstartlo, hstartle, hstarthi⟩ := lineStart_bounds hfile
  obtain ⟨hlinelo, hlinehi⟩ := lineRegion_bounds hfile
  have hstab {is : List ℤ} (hmem : a ∈ stabReads usd.stabs is) (hbounds : ∀ i ∈ is, -3 ≤ i ∧ i < n) :
      ∃ i, 0 < n ∧ -3 ≤ i ∧ i < n ∧ a = .read (stabAddr usd.stabs i) 12 := by
    obtain ⟨i, hi, rfl⟩ := mem_stabReads.mp hmem
    obtain ⟨hilo, hihi⟩ := hbounds i hi
    exact ⟨i, hn, hilo, hihi, rfl⟩
  obtain ha | ha := List.mem_append.mp ha
  · obtain ha | ha := List.mem_append.mp ha
    · left
      apply hstab ha
      intro i hi
      obtain hi | hi := List.mem_append.mp hi
      · exact (hfirst i hi).2
      obtain hi | hi := List.mem_append.mp hi
      · have hbounds := stabBinsearchReads_bounds hi
        omega
      · split_ifs at hi
        · rw [List.mem_singleton.mp hi]
          omega
        · cases hi
    · -- the name of the function
      right
      by_cases hfun : HasFun tab n addr
      · rw [if_pos hfun] at ha
        cases hname : nameOf tab usd (funRegion tab n addr).1 with
        | none =>
          rw [hname] at ha
          cases ha
        | some s =>
          rw [hname] at ha
          exact ⟨_, _, List.mem_singleton.mp ha, nameOf_span hlast hname⟩
      · rw [if_neg hfun] at ha
        cases ha
  · left
    apply hstab ha
    intro i hi
    obtain hi | hi := List.mem_append.mp hi
    · obtain hi | hi := List.mem_append.mp hi
      · obtain hi | hi := List.mem_append.mp hi
        · have hbounds := stabBinsearchReads_bounds hi
          omega
        · split_ifs at hi
          · rw [List.mem_singleton.mp hi]
            exact ⟨hlinelo, hlinehi⟩
          · cases hi
      · obtain hi | hi := List.mem_append.mp hi
        · have hbounds := scanBackReads_bounds hi
          omega
        · split_ifs at hi with hback
          · have hbounds := @fileStab_le tab n addr
            rw [List.mem_singleton.mp hi]
            omega
          · cases hi
    · have hbounds := scanOnReads_bounds hi
      omega

end Search

end Sisop
