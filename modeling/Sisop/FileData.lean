import Sisop.FsCalls

/-! `file_read` and `file_write` as reads and writes of one array of bytes, where the blocks
of the files are given. -/
namespace Sisop

section Positions

variable {w pos : Word} {n fuel : ℕ}

theorem msb_small (h : w.toNat < 2^31) : w.msb = false := by
  rw [BitVec.msb_eq_false_iff_two_mul_lt]
  omega

theorem sdiv_block (h : w.toNat < 2^31) : (w.sdiv 4096#32).toNat = w.toNat / 4096 := by
  rw [BitVec.sdiv_eq, msb_small h]
  exact BitVec.toNat_udiv

theorem srem_block (h : w.toNat < 2^31) : (w.srem 4096#32).toNat = w.toNat % 4096 := by
  rw [BitVec.srem_eq, msb_small h]
  exact BitVec.toNat_umod

theorem spanLen_eq (h : pos.toNat < 2^31) (n : ℕ) : spanLen pos n = min (4096 - pos.toNat % 4096) n := by
  have hrem := srem_block h
  have hsub : (4096#32 - pos.srem 4096#32).toNat = 4096 - pos.toNat % 4096 := by bv_omega
  rw [spanLen, hsub]

/-- The first round, which ends with its block or with the last byte. -/
theorem spansFrom_round (hn : n ≠ 0) (hpos : pos.toNat + n < 2^31) : ∃ len, len = min (4096 - pos.toNat % 4096) n ∧
    (pos + BitVec.ofNat 32 len).toNat = pos.toNat + len ∧
    spansFrom (fuel + 1) pos n = ⟨pos.toNat / 4096, BitVec.ofNat 32 (pos.toNat % 4096), len⟩ ::
      spansFrom fuel (pos + BitVec.ofNat 32 len) (n - len) := by
  have hlen := spanLen_eq (show pos.toNat < 2^31 by omega) n
  refine ⟨spanLen pos n, hlen, by bv_omega, ?_⟩
  rw [spansFrom, if_neg hn, sdiv_block (by omega)]
  have hrem : pos.srem 4096#32 = BitVec.ofNat 32 (pos.toNat % 4096) := by
    apply BitVec.eq_of_toNat_eq
    rw [srem_block (by omega), BitVec.toNat_ofNat]
    omega
  rw [hrem]

/-- The first round, and the position of the next one. -/
theorem spansFrom_cons (hn : n ≠ 0) (hpos : pos.toNat + n < 2^31) : ∃ len, 0 < len ∧ len ≤ n ∧
    pos.toNat % 4096 + len ≤ 4096 ∧ (pos + BitVec.ofNat 32 len).toNat = pos.toNat + len ∧
    spansFrom (fuel + 1) pos n = ⟨pos.toNat / 4096, BitVec.ofNat 32 (pos.toNat % 4096), len⟩ ::
      spansFrom fuel (pos + BitVec.ofNat 32 len) (n - len) := by
  obtain ⟨len, hlen, hnext, hspans⟩ := @spansFrom_round pos n fuel hn hpos
  exact ⟨len, by omega, by omega, by omega, hnext, hspans⟩

theorem spansOf_eq {offset count : Word} (h : offset.toNat + count.toNat < 2^31) :
    spansOf offset count = spansFrom count.toNat offset count.toNat := by
  unfold spansOf
  by_cases hz : count.toNat = 0
  · rw [hz]
    split_ifs <;> rfl
  · rw [if_pos]
    bv_omega

end Positions

section Data

variable (files : Set Word) (used : Word → ℕ → Prop) (buffer : Word → ℕ → Word)

/-- The buffers for the blocks that are used have no byte in common, with each other or with
a `struct File`. -/
structure Buffers : Prop where
  apart : ∀ f b i g c j, used f b → used g c → i < 4096 → j < 4096 →
    buffer f b + BitVec.ofNat 32 i = buffer g c + BitVec.ofNat 32 j → f = g ∧ b = c ∧ i = j
  outside : ∀ f k g c j, f ∈ files → used g c → k < 256 → j < 4096 →
    f + BitVec.ofNat 32 k ≠ buffer g c + BitVec.ofNat 32 j
  nodes : ∀ f g k l, f ∈ files → g ∈ files → k < 256 → l < 256 → f + BitVec.ofNat 32 k = g + BitVec.ofNat 32 l → f = g
  mapped : ∀ f ∈ files, InDiskmap (rounddown f)

/-- Byte `q` of a file. -/
def fileByte (m : ByteMem) (f : Word) (q : ℕ) : BitVec 8 := m (buffer f (q / 4096) + BitVec.ofNat 32 (q % 4096))

/-- No byte and no size of a file has changed. -/
structure SameData (m m' : ByteMem) : Prop where
  bytes : ∀ g b j, used g b → j < 4096 → m' (buffer g b + BitVec.ofNat 32 j) = m (buffer g b + BitVec.ofNat 32 j)
  sizes : ∀ g ∈ files, fSize m' g = fSize m g

/-- The bytes `bs` are in the file from `q` on, and no other byte and no size has changed. -/
structure Stored (m m' : ByteMem) (f : Word) (q : ℕ) (bs : List (BitVec 8)) : Prop where
  data : ∀ k (hk : k < bs.length), fileByte buffer m' f (q + k) = bs[k]
  other : ∀ g b j, used g b → j < 4096 → ¬ (g = f ∧ q ≤ 4096 * b + j ∧ 4096 * b + j < q + bs.length) →
    m' (buffer g b + BitVec.ofNat 32 j) = m (buffer g b + BitVec.ofNat 32 j)
  sizes : ∀ g ∈ files, fSize m' g = fSize m g

/-- A `file_get_block` that gives out these buffers, in states with some invariant which
the stores to files keep. -/
structure GivesBlocks (getBlock : GetBlock) (I : Fs → Prop) : Prop where
  get : ∀ f b s, I s → used f b → ∃ s', getBlock f b s = .ret (.ok (buffer f b)) s' ∧ I s' ∧
    SameData files used buffer s.mem s'.mem
  bytes : ∀ f b i bs s, I s → used f b → i + bs.length ≤ 4096 → I (s.storeBytes (buffer f b + BitVec.ofNat 32 i) bs)
  size : ∀ f w s, f ∈ files → I s → I (s.storeUint (fSizeAddr f) w)
  flush : ∀ b s, I s → I (s.flush b)

variable {files used buffer} {m m' m'' : ByteMem} {f : Word} {q : ℕ} {bs cs : List (BitVec 8)}

theorem SameData.fileByte (h : SameData files used buffer m m') (hu : used f (q / 4096)) :
    fileByte buffer m' f q = fileByte buffer m f q := h.bytes f _ _ hu (Nat.mod_lt q (by decide))

theorem Stored.nil (h : SameData files used buffer m m') : Stored files used buffer m m' f q [] :=
  ⟨fun _ hk => absurd hk (Nat.not_lt_zero _), fun g b j hu hj _ => h.bytes g b j hu hj, h.sizes⟩

/-- A store is not changed by one behind it. -/
theorem Stored.append (h : Stored files used buffer m m' f q bs) (h' : Stored files used buffer m' m'' f (q + bs.length) cs)
    (hu : ∀ k < bs.length, used f ((q + k) / 4096)) : Stored files used buffer m m'' f q (bs ++ cs) := by
  constructor
  case data =>
    intro k hk
    rw [List.length_append] at hk
    by_cases hlt : k < bs.length
    · rw [List.getElem_append_left hlt, ← h.data k hlt]
      exact h'.other f _ _ (hu k hlt) (Nat.mod_lt _ (by decide)) (by omega)
    · rw [List.getElem_append_right (Nat.le_of_not_lt hlt), ← h'.data (k - bs.length) (by omega)]
      congr 1
      omega
  case other =>
    intro g b j hg hj hout
    rw [List.length_append] at hout
    rw [h'.other g b j hg hj fun ⟨heq, hle, hlt⟩ => hout ⟨heq, by omega, by omega⟩,
      h.other g b j hg hj fun ⟨heq, hle, hlt⟩ => hout ⟨heq, by omega, by omega⟩]
  case sizes => exact fun g hg => (h'.sizes g hg).trans (h.sizes g hg)

/-- A store in a block. -/
theorem Buffers.stored (hb : Buffers files used buffer) {b i : ℕ} (hu : used f b) (hi : i + bs.length ≤ 4096) :
    Stored files used buffer m (writeBytes m (buffer f b + BitVec.ofNat 32 i) bs) f (4096 * b + i) bs := by
  -- the bytes that are written are in this block
  have hspan (x : Word) (hx : InSpan (buffer f b + BitVec.ofNat 32 i) bs.length x) :
      ∃ k < bs.length, x = buffer f b + BitVec.ofNat 32 (i + k) := by
    refine ⟨_, hx, ?_⟩
    unfold InSpan at hx
    bv_omega
  constructor
  case data =>
    intro k hk
    have hdiv : (4096 * b + i + k) / 4096 = b := by omega
    have hmod : (4096 * b + i + k) % 4096 = i + k := by omega
    have hoff : (buffer f b + BitVec.ofNat 32 (i + k) - (buffer f b + BitVec.ofNat 32 i)).toNat = k := by bv_omega
    rw [fileByte, hdiv, hmod, writeBytes, hoff, List.getElem?_eq_getElem hk]
    rfl
  case other =>
    intro g c j hg hj hout
    apply writeBytes_of_not_inSpan
    intro hx
    obtain ⟨k, hk, heq⟩ := hspan _ hx
    obtain ⟨rfl, rfl, rfl⟩ := hb.apart g c j f b (i + k) hg hu hj (by omega) heq
    exact hout ⟨rfl, by omega, by omega⟩
  case sizes =>
    intro g hg
    apply loadWord_congr
    intro l hl
    apply writeBytes_of_not_inSpan
    intro hx
    obtain ⟨k, hk, heq⟩ := hspan _ hx
    have haddr : fSizeAddr g + BitVec.ofNat 32 l = g + BitVec.ofNat 32 (128 + l) := by
      unfold fSizeAddr
      bv_omega
    rw [haddr] at heq
    exact hb.outside g (128 + l) f b (i + k) hg hu (by omega) (by omega) heq

theorem SameData.trans (h : SameData files used buffer m m') (h' : SameData files used buffer m' m'') :
    SameData files used buffer m m'' :=
  ⟨fun g b j hg hj => (h'.bytes g b j hg hj).trans (h.bytes g b j hg hj),
    fun g hg => (h'.sizes g hg).trans (h.sizes g hg)⟩

theorem Stored.after (h : SameData files used buffer m m') (h' : Stored files used buffer m' m'' f q bs) :
    Stored files used buffer m m'' f q bs :=
  ⟨h'.data, fun g b j hg hj hout => (h'.other g b j hg hj hout).trans (h.bytes g b j hg hj),
    fun g hg => (h'.sizes g hg).trans (h.sizes g hg)⟩

end Data

section Runs

variable {files : Set Word} {used : Word → ℕ → Prop} {buffer : Word → ℕ → Word} {getBlock : GetBlock} {I : Fs → Prop}
  {f pos : Word} {s : Fs} {n : ℕ}

/-- The loop of `file_write`. -/
theorem writeSpans_run (hb : Buffers files used buffer) (hg : GivesBlocks files used buffer getBlock I) (fuel : ℕ)
    (buf : List (BitVec 8)) (hfuel : buf.length ≤ fuel) (hI : I s) (hpos : pos.toNat + buf.length < 2^31)
    (hu : ∀ k < buf.length, used f ((pos.toNat + k) / 4096)) :
    ∃ s', writeSpans getBlock f (spansFrom fuel pos buf.length) buf s = .ret (.ok ()) s' ∧ I s' ∧
      Stored files used buffer s.mem s'.mem f pos.toNat buf := by
  have hdone (fuel : ℕ) (s : Fs) (pos : Word) (hI : I s) :
      ∃ s', writeSpans getBlock f (spansFrom fuel pos 0) [] s = .ret (.ok ()) s' ∧ I s' ∧
        Stored files used buffer s.mem s'.mem f pos.toNat [] := by
    refine ⟨s, ?_, hI, .nil ⟨fun _ _ _ _ _ => rfl, fun _ _ => rfl⟩⟩
    cases fuel <;> rfl
  induction fuel generalizing s pos buf with
  | zero =>
    obtain rfl : buf = [] := List.length_eq_zero_iff.mp (Nat.le_zero.mp hfuel)
    exact hdone 0 s pos hI
  | succ fuel ih =>
    by_cases hz : buf.length = 0
    · obtain rfl : buf = [] := List.length_eq_zero_iff.mp hz
      exact hdone _ s pos hI
    obtain ⟨len, h0, hle, hfit, hnext, hspans⟩ := @spansFrom_cons pos buf.length fuel hz hpos
    have hu0 : used f (pos.toNat / 4096) := hu 0 (Nat.pos_of_ne_zero hz)
    obtain ⟨s₁, hget, hI₁, hsame⟩ := hg.get f _ s hI hu0
    have htake : (buf.take len).length = len := by
      rw [List.length_take]
      omega
    have hdrop : (buf.drop len).length = buf.length - len := List.length_drop
    -- the bytes for this block
    have hI₂ := hg.bytes f _ (pos.toNat % 4096) (buf.take len) s₁ hI₁ hu0 (by omega)
    have hst := @Buffers.stored files used buffer s₁.mem f (buf.take len) hb _ (pos.toNat % 4096) hu0 (by omega)
    rw [Nat.div_add_mod] at hst
    have hu' (k : ℕ) (hk : k < (buf.drop len).length) :
        used f (((pos + BitVec.ofNat 32 len).toNat + k) / 4096) := by
      rw [hnext, Nat.add_assoc]
      exact hu (len + k) (by omega)
    obtain ⟨s₂, hrun, hI', hst'⟩ := ih (buf.drop len) (by omega) hI₂ (by omega) hu'
    refine ⟨s₂, ?_, hI', ?_⟩
    · rw [hspans, writeSpans, Routine.bind_ret hget]
      dsimp only [orReturn]
      rw [Routine.modify_bind_run, ← hdrop]
      exact hrun
    · have hrest : Stored files used buffer (writeBytes s₁.mem (buffer f (pos.toNat / 4096) +
          BitVec.ofNat 32 (pos.toNat % 4096)) (buf.take len)) s₂.mem f (pos.toNat + (buf.take len).length) (buf.drop len) := by
        rw [htake, ← hnext]
        exact hst'
      have happ := (Stored.after hsame hst).append hrest fun k hk => hu k (by omega)
      rwa [List.take_append_drop] at happ

/-- The loop of `file_read`. -/
theorem readSpans_run (hg : GivesBlocks files used buffer getBlock I) (fuel n : ℕ) (buf : List (BitVec 8))
    (hfuel : n ≤ fuel) (hI : I s) (hpos : pos.toNat + n < 2^31) (hu : ∀ k < n, used f ((pos.toNat + k) / 4096)) :
    ∃ s', readSpans getBlock f (spansFrom fuel pos n) buf s =
      .ret (.ok (buf ++ (List.range n).map fun k => fileByte buffer s.mem f (pos.toNat + k))) s' ∧ I s' ∧
      SameData files used buffer s.mem s'.mem := by
  have hdone (fuel : ℕ) (s : Fs) (pos : Word) (hI : I s) (buf : List (BitVec 8)) :
      ∃ s', readSpans getBlock f (spansFrom fuel pos 0) buf s =
        .ret (.ok (buf ++ (List.range 0).map fun k => fileByte buffer s.mem f (pos.toNat + k))) s' ∧ I s' ∧
        SameData files used buffer s.mem s'.mem := by
    refine ⟨s, ?_, hI, ⟨fun _ _ _ _ _ => rfl, fun _ _ => rfl⟩⟩
    rw [List.range_zero, List.map_nil, List.append_nil]
    cases fuel <;> rfl
  induction fuel generalizing s pos n buf with
  | zero =>
    obtain rfl := Nat.le_zero.mp hfuel
    exact hdone 0 s pos hI buf
  | succ fuel ih =>
    by_cases hz : n = 0
    · rw [hz]
      exact hdone _ s pos hI buf
    obtain ⟨len, h0, hle, hfit, hnext, hspans⟩ := @spansFrom_cons pos n fuel hz hpos
    have hu0 : used f (pos.toNat / 4096) := hu 0 (Nat.pos_of_ne_zero hz)
    obtain ⟨s₁, hget, hI₁, hsame⟩ := hg.get f _ s hI hu0
    have hbytes : readBytes s₁.mem (buffer f (pos.toNat / 4096) + BitVec.ofNat 32 (pos.toNat % 4096)) len =
        (List.range len).map fun k => fileByte buffer s.mem f (pos.toNat + k) := by
      apply List.map_congr_left
      intro k hk
      have hk' := List.mem_range.mp hk
      have hdiv : (pos.toNat + k) / 4096 = pos.toNat / 4096 := by omega
      have hmod : (pos.toNat + k) % 4096 = pos.toNat % 4096 + k := by omega
      rw [BitVec.add_assoc, ← BitVec.ofNat_add, fileByte, hdiv, hmod]
      exact hsame.bytes f _ _ hu0 (by omega)
    have hu' (k : ℕ) (hk : k < n - len) : used f (((pos + BitVec.ofNat 32 len).toNat + k) / 4096) := by
      rw [hnext, Nat.add_assoc]
      exact hu (len + k) (by omega)
    obtain ⟨s₂, hrun, hI', hsame'⟩ := ih (n - len) (buf ++ (List.range len).map fun k => fileByte buffer s.mem f (pos.toNat + k))
      (by omega) hI₁ (by omega) hu'
    refine ⟨s₂, ?_, hI', hsame.trans hsame'⟩
    rw [hspans, readSpans, Routine.bind_ret hget]
    dsimp only [orReturn]
    rw [Routine.bind_ret (Routine.get_run _), hbytes, hrun]
    -- the bytes of this round and the ones behind them
    have hrest : ((List.range (n - len)).map fun k => fileByte buffer s₁.mem f ((pos + BitVec.ofNat 32 len).toNat + k)) =
        ((List.range (n - len)).map (len + ·)).map fun k => fileByte buffer s.mem f (pos.toNat + k) := by
      rw [List.map_map]
      apply List.map_congr_left
      intro k hk
      have hk' := List.mem_range.mp hk
      rw [hnext, Nat.add_assoc]
      exact hsame.fileByte (hu (len + k) (by omega))
    rw [hrest, List.append_assoc, ← List.map_append]
    have hrange : List.range len ++ (List.range (n - len)).map (len + ·) = List.range n := by
      rw [← List.range_add]
      congr 1
      omega
    rw [hrange]

end Runs
end Sisop
