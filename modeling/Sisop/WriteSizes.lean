import Sisop.CreateExact
import Sisop.WriteRange

/-! When the sizes of files stay in range, and a request that fails changes nothing. -/
namespace Sisop

variable {s s' : Fs} {m m' : ByteMem} {f pos : Word} {buf : List (BitVec 8)} {lo hi i n : ℕ} {r : Except FsErr Unit}

/-- What the loop of `file_write` has done when it returns. -/
structure SpansDone (s s' : Fs) (f : Word) (lo hi : ℕ) (r : Except FsErr Unit) : Prop where
  size : fSize s'.mem f = fSize s.mem f
  failed : ∀ e, r = .error e → ndirect + nindirect ≤ hi ∨ hi = ndirect ∧ fIndirect s.mem f = 0#32 ∧
    (freeWords s.mem).card = holes s.mem f lo

/-- The loop of `file_write` has stopped at the first block past the direct ones, for want of an indirect block. -/
structure SpansStopped (s s' : Fs) (f : Word) (lo : ℕ) (r : Except FsErr Unit) : Prop where
  size : fSize s'.mem f = fSize s.mem f
  error : ∃ e, r = .error e
  words : (freeWords s.mem).card = holes s.mem f lo
  full : freeSet s'.mem = ∅

section Loop

theorem RangeOk.mono (h : RangeOk m f lo hi) (hlo : lo ≤ i) : RangeOk m f i hi :=
  ⟨h.ok, fun j hj => h.blocks j (Nat.le_trans hlo hj)⟩

/-- A write in one block. -/
theorem writeBytes_block {bs : List (BitVec 8)} {off : ℕ} (hn : n < diskBlocks) (hlen : off + bs.length ≤ 4096) {x : Word}
    (hx : blockOf x ≠ n) : writeBytes m (blockAddr n + BitVec.ofNat 32 off) bs x = m x := by
  apply writeBytes_of_not_inSpan
  intro hin
  have hbase := blockAddr_toNat hn
  have hblock : blockOf x = n := by
    have hval : x.toNat = 0x10000000 + (n * 4096 + off + (x - (blockAddr n + BitVec.ofNat 32 off)).toNat) := by
      unfold InSpan at hin
      change n < 0xC0000 at hn
      bv_omega
    rw [blockOf_of_toNat hval]
    unfold InSpan at hin
    omega
  exact hx hblock

theorem OwnBlock.stored {off : ℕ} (h : OwnBlock m f n) (hf : FileOk m f) (bs : List (BitVec 8)) (hlen : off + bs.length ≤ 4096) :
    ∀ x, blockOf x ≠ n → writeBytes m (blockAddr n + BitVec.ofNat 32 off) bs x = m x :=
  fun _ hx => writeBytes_block (Nat.lt_of_lt_of_le h.data.lt hf.good.size) hlen hx

/-- One round of the loop, but for a block past the direct ones that it has added. -/
structure Advanced (m m' : ByteMem) (f : Word) (i hi : ℕ) : Prop where
  range : RangeOk m' f (i + 1) hi
  indirect : fIndirect m' f = fIndirect m f
  count : (freeWords m).card + holes m' f (i + 1) = (freeWords m').card + holes m f i

theorem HasBlock.direct_ne (h : HasBlock m f i n) (hi : i < ndirect) : loadWord m (fDirectAddr f i) ≠ 0#32 := by
  obtain ⟨slot, hslot, hno, hown⟩ := h
  unfold slotAt at hslot
  rw [if_pos hi] at hslot
  obtain rfl := Option.some.inj hslot
  intro hz
  have hstart := hown.data.start
  rw [← hno, hz] at hstart
  unfold dataStart at hstart
  change _ ≤ 0 at hstart
  omega

theorem HasBlock.own (h : HasBlock m f i n) : OwnBlock m f n := by
  obtain ⟨-, -, -, hown⟩ := h
  exact hown

theorem HasBlock.blockNo (h : HasBlock m f i n) (hi : i < ndirect) : blockNo m f i = n := by
  obtain ⟨slot, hslot, hno, -⟩ := h
  unfold slotAt at hslot
  rw [if_pos hi] at hslot
  obtain rfl := Option.some.inj hslot
  exact (link_direct hi).trans hno

theorem BlockGot.stored {s₁ : Fs} {blk : Word} {off : ℕ} (hgot : BlockGot s f i hi (.ok blk) s₁)
    (h : RangeOk s.mem f i hi) (bs : List (BitVec 8)) (hlen : off + bs.length ≤ 4096) :
    fSize (writeBytes s₁.mem (blk + BitVec.ofNat 32 off) bs) f = fSize s.mem f ∧
      ((i = ndirect ∧ hi = ndirect ∧ (freeSet s.mem).Nonempty) ∨
        Advanced s.mem (writeBytes s₁.mem (blk + BitVec.ofNat 32 off) bs) f i hi) := by
  cases hgot with
  | @found n hn =>
    have hm := hn.own.stored h.ok bs hlen
    have hw := hn.own.written h.ok hm
    refine ⟨hw.size, Or.inr ⟨(h.written hn.own hm).mono (Nat.le_succ i), hw.indirect, ?_⟩⟩
    rw [hw.words, hw.holes]
    by_cases hdir : i < ndirect
    · rw [holes_succ hdir, if_neg (hn.direct_ne hdir)]
      rfl
    · rw [holes_end (Nat.le_of_not_lt hdir), holes_end (Nat.le_succ_of_le (Nat.le_of_not_lt hdir))]
  | @taken b s₁ hdir hz hb hmem =>
    have hslot : slotAt s.mem f i = some (fDirectAddr f i) := by
      unfold slotAt
      rw [if_pos hdir]
    obtain ⟨-, hind, hsize, -, hown⟩ := h.ok.slot_taken hslot hb
    obtain ⟨hrange, hdirect, hset⟩ := h.taken hdir hb
    rw [← hmem] at hind hsize hown hrange hdirect hset
    have hm := hown.stored hrange.ok bs hlen
    have hw := hown.written hrange.ok hm
    refine ⟨hw.size.trans hsize, Or.inr ⟨hrange.written hown hm, hw.indirect.trans hind, ?_⟩⟩
    have hholes : holes s₁.mem f (i + 1) = holes s.mem f (i + 1) :=
      holes_congr fun j hj hjd => hdirect j hjd (Nat.ne_of_gt hj)
    rw [hw.words, hw.holes, hholes, holes_succ hdir, if_pos hz, freeWords_taken hb hset]
    omega
  | @last b s₁ hfirst hend hfree hok hown hsize =>
    have hm := hown.stored hok bs hlen
    exact ⟨(hown.written hok hm).size.trans hsize, Or.inl ⟨hfirst, hend, hfree⟩⟩

/-- The first round of the loop: there is no block, or the bytes that fall into it are stored and the rest follows. -/
theorem writeSpans_round {fuel : ℕ} (hbuf : buf ≠ []) (hpos : pos.toNat + buf.length < 2^31)
    (hrun : writeSpans fileGetBlock f (spansFrom (fuel + 1) pos buf.length) buf s = .ret r s') :
    ∃ len blk s₁, len = min (4096 - pos.toNat % 4096) buf.length ∧ (buf.take len).length = len ∧
      (buf.drop len).length = buf.length - len ∧ (pos + BitVec.ofNat 32 len).toNat = pos.toNat + len ∧
      fileGetBlock f (pos.toNat / 4096) s = .ret blk s₁ ∧
      ((∃ e, blk = .error e ∧ r = .error e ∧ s' = s₁) ∨
        ∃ va t, blk = .ok va ∧ t.mem = writeBytes s₁.mem (va + BitVec.ofNat 32 (pos.toNat % 4096)) (buf.take len) ∧
          writeSpans fileGetBlock f (spansFrom fuel (pos + BitVec.ofNat 32 len) (buf.drop len).length) (buf.drop len) t =
            .ret r s') := by
  have hz : buf.length ≠ 0 := fun hz => hbuf (List.length_eq_zero_iff.mp hz)
  obtain ⟨len, hlen, hnext, hspans⟩ := @spansFrom_round pos buf.length fuel hz hpos
  rw [hspans, writeSpans] at hrun
  obtain ⟨blk, s₁, hget, hrun⟩ := Routine.bind_eq_ret.mp hrun
  have htake : (buf.take len).length = len := by
    rw [List.length_take]
    omega
  have hdrop : (buf.drop len).length = buf.length - len := List.length_drop
  refine ⟨len, blk, s₁, hlen, htake, hdrop, hnext, hget, ?_⟩
  obtain ⟨e, rfl, rfl, rfl⟩ | ⟨va, rfl, hrun⟩ := orReturn_ret hrun
  · exact Or.inl ⟨e, rfl, rfl, rfl⟩
  · dsimp only [orReturn] at hrun
    rw [Routine.modify_bind_run, ← hdrop] at hrun
    exact Or.inr ⟨va, _, rfl, rfl, hrun⟩

theorem writeSpans_done (fuel : ℕ) (hr : RangeOk s.mem f (pos.toNat / 4096) hi) (hbuf : buf ≠ []) (hfuel : buf.length ≤ fuel)
    (hpos : pos.toNat + buf.length < 2^31) (hhi : hi = (pos.toNat + buf.length - 1) / 4096)
    (hrun : writeSpans fileGetBlock f (spansFrom fuel pos buf.length) buf s = .ret r s') :
    SpansDone s s' f (pos.toNat / 4096) hi r := by
  induction fuel generalizing s pos buf with
  | zero => exact absurd (List.length_eq_zero_iff.mp (Nat.le_zero.mp hfuel)) hbuf
  | succ fuel ih =>
    have hlength := List.length_pos_of_ne_nil hbuf
    obtain ⟨len, blk, s₁, hlen, htake, hdrop, hnext, hget, hcase⟩ := writeSpans_round hbuf hpos hrun
    have hgot := hr.getBlock (show pos.toNat / 4096 ≤ hi by omega) hget
    obtain ⟨e, rfl, rfl, rfl⟩ | ⟨va, t, rfl, hmem, hrun⟩ := hcase
    · -- there is no block
      cases hgot with
      | large hlarge =>
        exact ⟨rfl, fun _ _ => Or.inl (by omega)⟩
      | full hneeds hend hfree =>
        refine ⟨rfl, fun _ _ => Or.inr ⟨hend, hneeds.2.2, ?_⟩⟩
        rw [holes_end hneeds.1]
        exact freeWords_empty.mpr hfree
    · obtain ⟨hsize, hcase⟩ := hgot.stored hr (buf.take len) (show pos.toNat % 4096 + _ ≤ 4096 by omega)
      rw [← hmem] at hsize hcase
      by_cases hrest : buf.drop len = []
      · have hspans : spansFrom fuel (pos + BitVec.ofNat 32 len) 0 = [] := by cases fuel <;> rfl
        rw [hrest, List.length_nil, hspans] at hrun
        obtain ⟨rfl, rfl⟩ := Outcome.ret.inj hrun
        exact ⟨hsize, fun e heq => by cases heq⟩
      · have hpos' : 0 < (buf.drop len).length := List.length_pos_of_ne_nil hrest
        have hblock : (pos + BitVec.ofNat 32 len).toNat / 4096 = pos.toNat / 4096 + 1 := by omega
        obtain ⟨hfirst, hend, -⟩ | hadv := hcase
        · omega
        · have hrange := hadv.range
          have hcount := hadv.count
          rw [← hblock] at hrange hcount
          have hrec := ih hrange hrest (by omega) (by omega) (by omega) hrun
          refine ⟨hrec.size.trans hsize, fun e he => ?_⟩
          obtain hlarge | ⟨hend, hind, hcard⟩ := hrec.failed e he
          · exact Or.inl hlarge
          · exact Or.inr ⟨hend, hadv.indirect.symm.trans hind, by omega⟩

/-- The direct blocks of the range take all that is free, and the next block needs an indirect one. -/
theorem writeSpans_stopped (fuel : ℕ) (hr : RangeOk s.mem f (pos.toNat / 4096) ndirect) (hbuf : buf ≠ [])
    (hfuel : buf.length ≤ fuel) (hpos : pos.toNat + buf.length < 2^31) (hlo : pos.toNat / 4096 < ndirect + nindirect)
    (hhi : ndirect * 4096 < pos.toNat + buf.length) (hind : fIndirect s.mem f = 0#32)
    (hcard : (freeWords s.mem).card ≤ holes s.mem f (pos.toNat / 4096))
    (hrun : writeSpans fileGetBlock f (spansFrom fuel pos buf.length) buf s = .ret r s') :
    SpansStopped s s' f (pos.toNat / 4096) r := by
  induction fuel generalizing s pos buf with
  | zero => exact absurd (List.length_eq_zero_iff.mp (Nat.le_zero.mp hfuel)) hbuf
  | succ fuel ih =>
    have hlength := List.length_pos_of_ne_nil hbuf
    obtain ⟨len, blk, s₁, hlen, htake, hdrop, hnext, hget, hcase⟩ := writeSpans_round hbuf hpos hrun
    by_cases hdir : pos.toNat / 4096 < ndirect
    · have hgot := hr.getBlock (Nat.le_of_lt hdir) hget
      obtain ⟨e, rfl, rfl, rfl⟩ | ⟨va, t, rfl, hmem, hrun⟩ := hcase
      · cases hgot with
        | large hlarge => exact absurd hdir (Nat.not_lt.mpr (Nat.le_trans (Nat.le_add_right _ _) hlarge))
        | full hneeds => exact absurd hdir (Nat.not_lt.mpr hneeds.1)
      · obtain ⟨hsize, hcase⟩ := hgot.stored hr (buf.take len) (show pos.toNat % 4096 + _ ≤ 4096 by omega)
        rw [← hmem] at hsize hcase
        obtain ⟨hfirst, -, -⟩ | hadv := hcase
        · exact absurd hdir (Nat.not_lt.mpr (Nat.le_of_eq hfirst.symm))
        change pos.toNat / 4096 < 10 at hdir
        change 10 * 4096 < _ at hhi
        change _ < 10 + 4096 / 4 at hlo
        have hrest : buf.drop len ≠ [] := by
          intro hnil
          rw [hnil, List.length_nil] at hdrop
          omega
        have hblock : (pos + BitVec.ofNat 32 len).toNat / 4096 = pos.toNat / 4096 + 1 := by omega
        have hrange := hadv.range
        have hcount := hadv.count
        rw [← hblock] at hrange hcount
        have hrec := ih hrange hrest (by omega) (by omega) (show _ < 10 + 4096 / 4 by omega) (show 10 * 4096 < _ by omega)
          (hadv.indirect.trans hind) (by omega) hrun
        have hwords := hrec.words
        exact ⟨hrec.size.trans hsize, hrec.error, by omega, hrec.full⟩
    · -- the first block past the direct ones
      have hpast := Nat.le_of_not_lt hdir
      rw [holes_end hpast] at hcard
      have hfree : freeSet s.mem = ∅ := freeWords_empty.mp (Nat.le_zero.mp hcard)
      rw [fileGetBlock_full ⟨hpast, hlo, hind⟩ hfree] at hget
      obtain ⟨rfl, rfl⟩ := Outcome.ret.inj hget
      obtain ⟨e, -, rfl, rfl⟩ | ⟨va, t, hva, -⟩ := hcase
      · exact ⟨rfl, ⟨_, rfl⟩, by rw [holes_end hpast]; exact Nat.le_zero.mp hcard, hfree⟩
      · cases hva

end Loop

section Repeat

theorem writeBytes_at {a : Word} {bs : List (BitVec 8)} {k : ℕ} (hk : k < bs.length) (hlen : bs.length ≤ 2^32) :
    writeBytes m a bs (a + BitVec.ofNat 32 k) = bs[k] := by
  have hoff : (a + BitVec.ofNat 32 k - a).toNat = k := by bv_omega
  rw [writeBytes, hoff, List.getElem?_eq_getElem hk]
  rfl

/-- A write of what is there. -/
theorem writeBytes_self {a : Word} (bs : List (BitVec 8)) (hlen : bs.length ≤ 2^32) :
    writeBytes m a bs = m ↔ ∀ k (hk : k < bs.length), m (a + BitVec.ofNat 32 k) = bs[k] := by
  constructor
  · intro h k hk
    rw [← writeBytes_at (m := m) hk hlen, h]
  · intro h
    funext x
    by_cases hin : InSpan a bs.length x
    · have hx : x = a + BitVec.ofNat 32 (x - a).toNat := by
        unfold InSpan at hin
        bv_omega
      rw [hx, writeBytes_at hin hlen, h _ hin]
    · exact writeBytes_of_not_inSpan hin

/-- The bytes of a file, where its numbers say that its blocks are. -/
def heldByte (m : ByteMem) (f : Word) (q : ℕ) : BitVec 8 := fileByte (fun f b => blockAddr (blockNo m f b)) m f q

theorem HasBlock.heldByte {q : ℕ} (h : HasBlock m f (q / 4096) n) (hq : q / 4096 < ndirect) :
    heldByte m f q = m (blockAddr n + BitVec.ofNat 32 (q % 4096)) := by
  unfold Sisop.heldByte fileByte
  dsimp only
  rw [h.blockNo hq]

/-- A write in a direct block of a file repeats what is there if the bytes of the file are those written. -/
theorem HasBlock.repeats {bs : List (BitVec 8)} {q : ℕ} (h : HasBlock m f (q / 4096) n) (hq : q / 4096 < ndirect)
    (hlen : q % 4096 + bs.length ≤ 4096) : writeBytes m (blockAddr n + BitVec.ofNat 32 (q % 4096)) bs = m ↔
      ∀ k (hk : k < bs.length), Sisop.heldByte m f (q + k) = bs[k] := by
  rw [writeBytes_self bs (by omega)]
  refine forall_congr' fun k => forall_congr' fun hk => ?_
  have hdiv : (q + k) / 4096 = q / 4096 := by omega
  have hmod : (q + k) % 4096 = q % 4096 + k := by omega
  have hbyte : Sisop.heldByte m f (q + k) = m (blockAddr n + BitVec.ofNat 32 ((q + k) % 4096)) :=
    HasBlock.heldByte (hdiv.symm ▸ h) (hdiv.symm ▸ hq)
  rw [hbyte, hmod, BitVec.ofNat_add, BitVec.add_assoc]

/-- What holds of all places of a list holds of its first places and of those behind. -/
theorem forall_take_drop {α : Type} (l : List α) (P : ℕ → α → Prop) (len : ℕ) : (∀ k (hk : k < l.length), P k l[k]) ↔
    (∀ k (hk : k < (l.take len).length), P k (l.take len)[k]) ∧ ∀ k (hk : k < (l.drop len).length), P (len + k) (l.drop len)[k] := by
  constructor
  · intro h
    refine ⟨fun k hk => ?_, fun k hk => ?_⟩
    · rw [List.length_take] at hk
      rw [List.getElem_take]
      exact h k (by omega)
    · rw [List.length_drop] at hk
      rw [List.getElem_drop]
      exact h (len + k) (by omega)
  · rintro ⟨htake, hdrop⟩ k hk
    by_cases hlt : k < len
    · have hfirst := htake k (by rw [List.length_take]; omega)
      rwa [List.getElem_take] at hfirst
    · have hlast := hdrop (k - len) (by rw [List.length_drop]; omega)
      rw [List.getElem_drop] at hlast
      have hk' : len + (k - len) = k := by omega
      simpa only [hk'] using hlast

/-- When no block is free, `file_write` stops at the indirect block that the file does not have. The
blocks that it has written by then are as they were if it has only repeated them. -/
theorem writeSpans_repeat (fuel : ℕ) (hr : RangeOk s.mem f (pos.toNat / 4096) ndirect) (hbuf : buf ≠ [])
    (hfuel : buf.length ≤ fuel) (hpos : pos.toNat + buf.length < 2^31)
    (hlo : pos.toNat / 4096 < ndirect + nindirect) (hhi : ndirect * 4096 < pos.toNat + buf.length)
    (hind : fIndirect s.mem f = 0#32) (hfree : freeSet s.mem = ∅) (hholes : holes s.mem f (pos.toNat / 4096) = 0)
    (hapart : ∀ i j, i < ndirect → j < ndirect → blockNo s.mem f i ≠ 0 → blockNo s.mem f i = blockNo s.mem f j → i = j)
    (hrun : writeSpans fileGetBlock f (spansFrom fuel pos buf.length) buf s = .ret r s') :
    (∀ x, (∀ j, pos.toNat / 4096 ≤ j → j < ndirect → blockOf x ≠ blockNo s.mem f j) → s'.mem x = s.mem x) ∧
      (s'.mem = s.mem ↔ ∀ k (hk : k < buf.length), pos.toNat + k < ndirect * 4096 → heldByte s.mem f (pos.toNat + k) = buf[k]) := by
  induction fuel generalizing s pos buf with
  | zero => exact absurd (List.length_eq_zero_iff.mp (Nat.le_zero.mp hfuel)) hbuf
  | succ fuel ih =>
    have hlength := List.length_pos_of_ne_nil hbuf
    obtain ⟨len, blk, s₁, hlen, htake, hdrop, hnext, hget, hcase⟩ := writeSpans_round hbuf hpos hrun
    change _ < 10 + 4096 / 4 at hlo
    change 10 * 4096 < _ at hhi
    by_cases hdir : pos.toNat / 4096 < ndirect
    · have hgot := hr.getBlock (Nat.le_of_lt hdir) hget
      rw [holes_succ hdir] at hholes
      have hne : loadWord s.mem (fDirectAddr f (pos.toNat / 4096)) ≠ 0#32 := by
        intro hz
        rw [if_pos hz] at hholes
        omega
      cases hgot with
      | taken _ hz => exact absurd hz hne
      | last hfirst => exact absurd hdir (Nat.not_lt.mpr (Nat.le_of_eq hfirst.symm))
      | large hlarge => exact absurd hdir (Nat.not_lt.mpr (Nat.le_trans (Nat.le_add_right _ _) hlarge))
      | full hneeds => exact absurd hdir (Nat.not_lt.mpr hneeds.1)
      | @found n hn =>
        obtain ⟨e, he, -⟩ | ⟨va, t, hva, hmem, hrun⟩ := hcase
        · cases he
        obtain rfl := Except.ok.inj hva
        have hno := hn.blockNo hdir
        have hn0 : blockNo s.mem f (pos.toNat / 4096) ≠ 0 := by
          intro h0
          exact hne (BitVec.eq_of_toNat_eq ((link_direct hdir).symm.trans h0))
        have hm := hn.own.stored hr.ok (buf.take len) (show pos.toNat % 4096 + _ ≤ 4096 by omega)
        have hw := hn.own.written hr.ok hm
        have hrange := (hr.written hn.own hm).mono (Nat.le_succ (pos.toNat / 4096))
        have hself := hn.repeats hdir (show _ + (buf.take len).length ≤ 4096 by omega)
        rw [← hmem] at hm hw hrange hself
        change pos.toNat / 4096 < 10 at hdir
        have hblock : (pos + BitVec.ofNat 32 len).toNat / 4096 = pos.toNat / 4096 + 1 := by omega
        have hdirect (j : ℕ) (hj : j < ndirect) : blockNo t.mem f j = blockNo s.mem f j :=
          (link_direct hj).trans ((congrArg BitVec.toNat (hw.direct j hj)).trans (link_direct hj).symm)
        have hrest : buf.drop len ≠ [] := by
          intro hnil
          rw [hnil, List.length_nil] at hdrop
          omega
        obtain ⟨hframe, hiff⟩ := ih (by rw [hblock]; exact hrange) hrest (by omega) (by omega)
          (show _ < 10 + 4096 / 4 by omega) (show 10 * 4096 < _ by omega) (hw.indirect.trans hind) (hw.free.trans hfree)
          (by rw [hblock, hw.holes]; omega)
          (fun i j hi hj => by rw [hdirect i hi, hdirect j hj]; exact hapart i j hi hj) hrun
        -- what is behind is in other blocks
        have hlater (x : Word) (hx : blockOf x = n) : s'.mem x = t.mem x := by
          apply hframe
          intro j hj hjd heq
          rw [hdirect j hjd, hx, ← hno] at heq
          have hij := hapart _ j hdir hjd hn0 heq
          omega
        have hsame : s'.mem = s.mem ↔ t.mem = s.mem ∧ s'.mem = t.mem := by
          refine ⟨fun heq => ?_, fun heq => heq.2.trans heq.1⟩
          have ht : t.mem = s.mem := by
            funext x
            by_cases hx : blockOf x = n
            · rw [← hlater x hx, heq]
            · exact hm x hx
          exact ⟨ht, heq.trans ht.symm⟩
        constructor
        · intro x hx
          rw [hframe x fun j hj hjd => by rw [hdirect j hjd]; exact hx j (by omega) hjd]
          have hother := hx _ (Nat.le_refl _) hdir
          rw [hno] at hother
          exact hm x hother
        · have hsplit := forall_take_drop buf
            (fun k b => pos.toNat + k < ndirect * 4096 → heldByte s.mem f (pos.toNat + k) = b) len
          have hfirst : t.mem = s.mem ↔ ∀ k (hk : k < (buf.take len).length), pos.toNat + k < ndirect * 4096 →
              heldByte s.mem f (pos.toNat + k) = (buf.take len)[k] := by
            rw [hself]
            refine forall_congr' fun k => forall_congr' fun hk => ?_
            exact ⟨fun h _ => h, fun h => h (show _ < 10 * 4096 by omega)⟩
          rw [hsame, hfirst, hsplit, ← hfirst]
          refine and_congr_right fun heq => ?_
          rw [hiff, heq, hnext]
          simp only [Nat.add_assoc]
    · -- the first block past the direct ones
      have hpast := Nat.le_of_not_lt hdir
      rw [fileGetBlock_full ⟨hpast, hlo, hind⟩ hfree] at hget
      obtain ⟨rfl, rfl⟩ := Outcome.ret.inj hget
      obtain ⟨e, -, -, rfl⟩ | ⟨va, t, hva, -⟩ := hcase
      · refine ⟨fun _ _ => rfl, iff_of_true rfl fun k hk hlt => ?_⟩
        change 10 ≤ _ at hpast
        change _ < 10 * 4096 at hlt
        omega
      · cases hva

end Repeat

section Tree

/-- A file is in none of its own blocks. -/
theorem TreeOk.self_apart (ht : TreeOk m) (hf : InTree m f) : ∀ i ≤ ndirect, blockNo m f i ≠ 0 → blockNo m f i ≠ blockOf f := by
  induction hf with
  | root =>
    intro i hi hb heq
    have hstart := (ht.block_data .root hi hb).start
    have hroot : blockOf rootAddr = 1 := by decide
    rw [heq, hroot] at hstart
    unfold dataStart at hstart
    omega
  | @entry d j k hd hdir hj hb hk hn ih =>
    intro i hi hbi heq
    have hlow := ht.dir_index hd hdir hj
    have hdisk := Nat.lt_of_lt_of_le (ht.block_data hd hlow hb).lt ht.good.size
    have hhome := blockOf_slotAddr hdisk hk
    rw [hhome] at heq
    -- then it is the directory that has it
    obtain ⟨hsame, -⟩ := ht.apart _ d (some i) (some j) (.entry hd hdir hj hb hk hn) hd (lowLink_some hi) (lowLink_some hlow) hbi heq
    rw [hsame] at hhome
    exact ih j hlow hb hhome.symm

theorem slotAt_word {slot : Word} (hslot : slotAt m f i = some slot) (hi : i ≤ ndirect) :
    (loadWord m slot).toNat = blockNo m f i := by
  unfold slotAt at hslot
  split_ifs at hslot with hdir hin
  · obtain rfl := Option.some.inj hslot
    exact (link_direct hdir).symm
  · obtain rfl : i = ndirect := Nat.le_antisymm hi (Nat.le_of_not_lt hdir)
    have hslot := Option.some.inj hslot
    rw [Nat.sub_self] at hslot
    rw [← hslot]
    change (loadWord m (_ + 0#32)).toNat = _
    rw [BitVec.add_zero]
    exact (link_first hin.2.1).symm

theorem TreeOk.block_cases (ht : TreeOk m) (hf : InTree m f) (hi : i ≤ ndirect) : (∃ n, HasBlock m f i n) ∨ NoBlock m f i := by
  have hok := ht.fileOk hf
  obtain hlarge | ⟨slot, hslot⟩ | hneeds := @FileOk.slot_cases ⟨m, m, fun _ => false⟩ f hok i
  · change 10 + 4096 / 4 ≤ i at hlarge
    change i ≤ 10 at hi
    omega
  · have hword := slotAt_word hslot hi
    by_cases hz : loadWord m slot = 0#32
    · exact Or.inr (Or.inl ⟨slot, hslot, hz⟩)
    · left
      have hne : blockNo m f i ≠ 0 := fun h0 => hz (BitVec.eq_of_toNat_eq (hword.trans h0))
      refine ⟨_, slot, hslot, hword, ht.block_data hf hi hne, ht.self_apart hf i hi hne, fun hind heq => ?_⟩
      have hlink : link m f none = link m f (some i) := heq.symm
      have hlne : link m f none ≠ 0 := fun h0 => hind (BitVec.eq_of_toNat_eq h0)
      exact nomatch (ht.apart f f none (some i) hf hf lowLink_none (lowLink_some hi) hlne hlink).2
  · exact Or.inr (Or.inr hneeds)

/-- Past the direct blocks the file has the whole range, but for the first block if it is the last one. -/
def TailFound (m : ByteMem) (f : Word) (lo hi : ℕ) : Prop :=
  ∀ i, lo ≤ i → ndirect ≤ i → i ≤ hi → i < ndirect + nindirect → hi = ndirect ∨ ∃ n, HasBlock m f i n

theorem tailFound_direct : TailFound m f lo ndirect := fun _ _ _ _ _ => Or.inl rfl

theorem TreeOk.rangeOk (ht : TreeOk m) (hf : InTree m f) (htail : TailFound m f lo hi) : RangeOk m f lo hi := by
  refine ⟨ht.fileOk hf, fun i hlo hle hlt => ?_⟩
  by_cases hdir : i < ndirect
  · exact (ht.block_cases hf (Nat.le_of_lt hdir)).imp_right fun hno => ⟨hno, Or.inl hdir⟩
  · obtain hend | hhas := htail i hlo (Nat.le_of_not_lt hdir) hle hlt
    · exact (ht.block_cases hf (hend ▸ hle)).imp_right fun hno => ⟨hno, Or.inr hend⟩
    · exact Or.inl hhas

/-- A size is stored. -/
theorem RangeOk.sized (h : RangeOk m f lo hi) (w : Word) : RangeOk (storeWord m (fSizeAddr f) w) f lo hi ∧
    fIndirect (storeWord m (fSizeAddr f) w) f = fIndirect m f ∧
    freeWords (storeWord m (fSizeAddr f) w) = freeWords m ∧ ∀ i, holes (storeWord m (fSizeAddr f) w) f i = holes m f i := by
  obtain ⟨-, hind, hfree, hn⟩ := h.ok.size_changed w
  obtain ⟨-, hlo, hhi, -, hbound⟩ := h.ok.home
  have haddr := fSizeAddr_toNat hbound
  have hm : SameOutside m (storeWord m (fSizeAddr f) w) (f.toNat + 128) 4 := by
    rw [← haddr]
    exact storeWord_sameOutside (by omega)
  refine ⟨h.congr (Nat.le_refl lo) hn hind (fun b hb hold => ?_) ?_, hind, freeWords_congr hfree, fun i => ?_⟩
  · by_contra hbit
    have hmem : b ∈ freeSet (storeWord m (fSizeAddr f) w) :=
      mem_freeSet.mpr ⟨by rw [hn]; exact hb, (Bool.not_eq_false _).mp hbit⟩
    rw [hfree] at hmem
    have hbit' := (mem_freeSet.mp hmem).2
    rw [hold] at hbit'
    cases hbit'
  · intro i slot _ _ hslot
    apply hm.loadWord
    · exact (h.ok.slot_place hslot).2.1
    · obtain ⟨-, hval⟩ | ⟨-, -, hother, -, hstart, hend⟩ := h.ok.slot_area hslot
      · omega
      · omega
  · exact holes_congr fun j _ hj => fDirect_same hm hbound hj (by omega)

end Tree

section Sizes

variable {offset newsize : Word} {res : Except FsErr Word}

/-- The first block of the range past the direct ones has no place for its number, and the direct
blocks before it take all that is free. -/
def WriteStops (m : ByteMem) (f offset last : Word) : Prop :=
  offset < last ∧ offset.toNat / 4096 < ndirect + nindirect ∧ ndirect * 4096 < last.toNat ∧ fIndirect m f = 0#32 ∧
    (freeWords m).card ≤ holes m f (offset.toNat / 4096)

/-- The file does not get too large, and a write that stops has changed nothing. -/
def WriteFits (m : ByteMem) (f : Word) (buf : List (BitVec 8)) (offset : Word) : Prop :=
  (offset + BitVec.ofNat 32 buf.length).toNat ≤ maxfilesize ∧
    (WriteStops m f offset (offset + BitVec.ofNat 32 buf.length) →
      offset + BitVec.ofNat 32 buf.length ≤ fSize m f ∧ holes m f (offset.toNat / 4096) = 0 ∧
        ∀ k (hk : k < buf.length), offset.toNat + k < ndirect * 4096 → heldByte m f (offset.toNat + k) = buf[k])

/-- The blocks of the range past the direct ones are there, or the loop does not come to the second of them. -/
def WriteFound (m : ByteMem) (f offset last : Word) : Prop :=
  offset < last → WriteStops m f offset last ∨ TailFound m f (offset.toNat / 4096) ((last.toNat - 1) / 4096)

/-- The range does not end behind the largest positive position, or it begins where no block is. -/
def WriteAbove (offset last : Word) : Prop :=
  offset < last → last.toNat < 2^31 ∨ maxfilesize ≤ offset.toNat ∧ offset.toNat ≤ 2^32 - 4096

theorem fileWrite_ret (h : fileWrite fileGetBlock f buf offset s = .ret res s') : ∃ t r,
    (fSize s.mem f < offset + BitVec.ofNat 32 buf.length ∧
        fileSetSize f (offset + BitVec.ofNat 32 buf.length) s = .ret (.ok ()) t ∨
      ¬ fSize s.mem f < offset + BitVec.ofNat 32 buf.length ∧ t = s) ∧
    writeSpans fileGetBlock f (spansOf offset (BitVec.ofNat 32 buf.length)) buf t = .ret r s' ∧
    ∀ e, res = .error e ↔ r = .error e := by
  have hloop (t : Fs) (hrun : (writeSpans fileGetBlock f (spansOf offset (BitVec.ofNat 32 buf.length)) buf >>=
      fun r => orReturn r fun _ => (pure (.ok (BitVec.ofNat 32 buf.length)) : Routine Fs (Except FsErr Word))) t = .ret res s') :
      ∃ r, writeSpans fileGetBlock f (spansOf offset (BitVec.ofNat 32 buf.length)) buf t = .ret r s' ∧
        ∀ e, res = .error e ↔ r = .error e := by
    obtain ⟨r, u, hspans, hrun⟩ := Routine.bind_eq_ret.mp hrun
    obtain ⟨e, rfl, rfl, rfl⟩ | ⟨a, rfl, hrun⟩ := orReturn_ret hrun
    · exact ⟨_, hspans, fun e' => ⟨fun heq => congrArg _ (Except.error.inj heq), fun heq => congrArg _ (Except.error.inj heq)⟩⟩
    · obtain ⟨rfl, rfl⟩ := Outcome.ret.inj hrun
      exact ⟨_, hspans, fun e => ⟨nofun, nofun⟩⟩
  unfold fileWrite at h
  rw [Routine.bind_ret (Routine.get_run s)] at h
  by_cases hgrow : fSize s.mem f < offset + BitVec.ofNat 32 buf.length
  · rw [if_pos hgrow] at h
    obtain ⟨r₀, t, hset, h⟩ := Routine.bind_eq_ret.mp h
    obtain ⟨rfl, -⟩ := fileSetSize_ret hset
    obtain ⟨r, hspans, hres⟩ := hloop t h
    exact ⟨t, r, Or.inl ⟨hgrow, hset⟩, hspans, hres⟩
  · rw [if_neg hgrow] at h
    obtain ⟨r, hspans, hres⟩ := hloop s h
    exact ⟨s, r, Or.inr ⟨hgrow, rfl⟩, hspans, hres⟩

/-- The sum does not wrap around when the loop is entered. -/
theorem last_eq (hlen : buf.length < 2^32) (hlast : offset < offset + BitVec.ofNat 32 buf.length) :
    (offset + BitVec.ofNat 32 buf.length).toNat = offset.toNat + buf.length ∧ buf ≠ [] ∧
      spansOf offset (BitVec.ofNat 32 buf.length) = spansFrom buf.length offset buf.length := by
  have hcount : (BitVec.ofNat 32 buf.length).toNat = buf.length := by
    rw [BitVec.toNat_ofNat, Nat.mod_eq_of_lt hlen]
  have hsum : (offset + BitVec.ofNat 32 buf.length).toNat = offset.toNat + buf.length := by
    rw [BitVec.lt_def, BitVec.toNat_add, hcount] at hlast
    rw [BitVec.toNat_add, hcount]
    omega
  refine ⟨hsum, ?_, ?_⟩
  · rintro rfl
    rw [BitVec.lt_def, hsum] at hlast
    exact Nat.lt_irrefl _ hlast
  · unfold spansOf
    rw [if_pos hlast, hcount]

/-- The state in which the loop of `file_write` begins. -/
structure WriteReady (m m₁ : ByteMem) (f : Word) (lo hi : ℕ) (size : Word) : Prop where
  range : RangeOk m₁ f lo hi
  size : fSize m₁ f = size
  indirect : fIndirect m₁ f = fIndirect m f
  words : freeWords m₁ = freeWords m
  holes : ∀ i, holes m₁ f i = holes m f i

theorem RangeOk.grown {t : Fs} (h : RangeOk s.mem f lo hi) (hold : SizeInRange (fSize s.mem f)) (hsmall : newsize.toNat < 2^31)
    (hlt : fSize s.mem f < newsize) (hset : fileSetSize f newsize s = .ret (.ok ()) t) :
    WriteReady s.mem t.mem f lo hi newsize := by
  have hle : (fSize s.mem f).toInt ≤ newsize.toInt := by
    rw [hold.toInt, BitVec.toInt_eq_toNat_of_lt (by omega)]
    exact Int.ofNat_le.mpr (Nat.le_of_lt hlt)
  rw [fileSetSize_grown hle hset]
  obtain ⟨hrange, hind, hwords, hholes⟩ := h.sized newsize
  exact ⟨hrange, loadWord_storeWord .., hind, hwords, hholes⟩

/-- The loop runs, from the state that it begins in. -/
theorem WriteReady.run {t : Fs} (h : WriteReady s.mem t.mem f (offset.toNat / 4096)
    (((offset + BitVec.ofNat 32 buf.length).toNat - 1) / 4096) newsize) (hlen : buf.length < 2^32)
    (hlast : offset < offset + BitVec.ofNat 32 buf.length) (hsmall : (offset + BitVec.ofNat 32 buf.length).toNat < 2^31)
    (hrun : writeSpans fileGetBlock f (spansOf offset (BitVec.ofNat 32 buf.length)) buf t = .ret r s') :
    SpansDone t s' f (offset.toNat / 4096) (((offset + BitVec.ofNat 32 buf.length).toNat - 1) / 4096) r := by
  obtain ⟨hsum, hbuf, hspans⟩ := last_eq hlen hlast
  rw [hspans] at hrun
  rw [hsum] at hsmall
  exact writeSpans_done buf.length h.range hbuf (Nat.le_refl _) hsmall (by rw [hsum]) hrun

/-- The loop runs to where it stops. -/
theorem WriteStops.run {t : Fs} (h : WriteStops s.mem f offset (offset + BitVec.ofNat 32 buf.length))
    (hready : WriteReady s.mem t.mem f (offset.toNat / 4096) ndirect newsize) (hlen : buf.length < 2^32)
    (hsmall : (offset + BitVec.ofNat 32 buf.length).toNat < 2^31)
    (hrun : writeSpans fileGetBlock f (spansOf offset (BitVec.ofNat 32 buf.length)) buf t = .ret r s') :
    SpansStopped t s' f (offset.toNat / 4096) r := by
  obtain ⟨hlast, hlo, hhi, hind, hcard⟩ := h
  obtain ⟨hsum, hbuf, hspans⟩ := last_eq hlen hlast
  rw [hspans] at hrun
  rw [hsum] at hsmall hhi
  exact writeSpans_stopped buf.length hready.range hbuf (Nat.le_refl _) hsmall hlo hhi (hready.indirect.trans hind)
    (by rw [hready.words, hready.holes]; exact hcard) hrun

/-- No round of the loop. -/
theorem writeSpans_none {t : Fs} (hlast : ¬ offset < offset + BitVec.ofNat 32 buf.length)
    (hrun : writeSpans fileGetBlock f (spansOf offset (BitVec.ofNat 32 buf.length)) buf t = .ret r s') : r = .ok () ∧ s' = t := by
  unfold spansOf at hrun
  rw [if_neg hlast] at hrun
  obtain ⟨rfl, rfl⟩ := Outcome.ret.inj hrun
  exact ⟨rfl, rfl⟩

/-- The blocks that are there when the loop is left for want of an indirect block. -/
theorem fileWrite_repeat (ht : TreeOk s.mem) (hf : InTree s.mem f) (hlen : buf.length < 2^32)
    (hsmall : (offset + BitVec.ofNat 32 buf.length).toNat < 2^31)
    (hstops : WriteStops s.mem f offset (offset + BitVec.ofNat 32 buf.length)) (hholes : holes s.mem f (offset.toNat / 4096) = 0)
    (hrun : writeSpans fileGetBlock f (spansOf offset (BitVec.ofNat 32 buf.length)) buf s = .ret r s') :
    s'.mem = s.mem ↔ ∀ k (hk : k < buf.length), offset.toNat + k < ndirect * 4096 → heldByte s.mem f (offset.toNat + k) = buf[k] := by
  obtain ⟨hlast, hlo, hhi, hind, hcard⟩ := hstops
  obtain ⟨hsum, hbuf, hspans⟩ := last_eq hlen hlast
  have hfree : freeSet s.mem = ∅ := freeWords_empty.mp (by omega)
  rw [hspans] at hrun
  rw [hsum] at hhi hsmall
  refine (writeSpans_repeat buf.length (ht.rangeOk hf tailFound_direct) hbuf (Nat.le_refl _) hsmall hlo hhi hind hfree hholes ?_
    hrun).2
  intro i j hi hj hne heq
  have hlink := ht.apart f f (some i) (some j) hf hf (lowLink_some (Nat.le_of_lt hi)) (lowLink_some (Nat.le_of_lt hj)) hne heq
  exact Option.some.inj hlink.2

/-- A write that fits keeps the size in range. -/
theorem fileWrite_kept (ht : TreeOk s.mem) (hf : InTree s.mem f) (hold : SizeInRange (fSize s.mem f))
    (hlen : buf.length < 2^32) (hfound : WriteFound s.mem f offset (offset + BitVec.ofNat 32 buf.length))
    (hfits : WriteFits s.mem f buf offset) (hrun : fileWrite fileGetBlock f buf offset s = .ret res s') : SizeKept s s' f res := by
  obtain ⟨hmax, hrepeat⟩ := hfits
  have hrange : SizeInRange (offset + BitVec.ofNat 32 buf.length) := sizeInRange_iff.mpr hmax
  change _ ≤ 4235264 at hmax
  obtain ⟨t, r, hset, hspans, hres⟩ := fileWrite_ret hrun
  have hsize : SizeInRange (fSize t.mem f) := by
    obtain ⟨-, hset⟩ | ⟨-, rfl⟩ := hset
    · rw [(fileSetSize_ret hset).2]
      exact hrange
    · exact hold
  by_cases hlast : offset < offset + BitVec.ofNat 32 buf.length
  · by_cases hstops : WriteStops s.mem f offset (offset + BitVec.ofNat 32 buf.length)
    · -- then all that is written was there
      obtain ⟨hle, hholes, hbytes⟩ := hrepeat hstops
      obtain ⟨hlt, -⟩ | ⟨-, rfl⟩ := hset
      · exact absurd hlt (BitVec.not_lt.mpr hle)
      · have hsame := (fileWrite_repeat ht hf hlen (by omega) hstops hholes hspans).mpr hbytes
        exact ⟨by rw [hsame]; exact hsize, fun _ _ => hsame⟩
    · have hready : ∃ size, WriteReady s.mem t.mem f (offset.toNat / 4096)
          (((offset + BitVec.ofNat 32 buf.length).toNat - 1) / 4096) size := by
        have hfirst := ht.rangeOk hf ((hfound hlast).resolve_left hstops)
        obtain ⟨hlt, hset⟩ | ⟨-, rfl⟩ := hset
        · exact ⟨_, hfirst.grown hold (by omega) hlt hset⟩
        · exact ⟨_, hfirst, rfl, rfl, rfl, fun _ => rfl⟩
      obtain ⟨size, hready⟩ := hready
      have hdone := hready.run hlen hlast (by omega) hspans
      refine ⟨by rw [hdone.size]; exact hsize, fun e he => ?_⟩
      obtain hlarge | ⟨hend, hind, hcard⟩ := hdone.failed e ((hres e).mp he)
      · change 10 + 4096 / 4 ≤ _ at hlarge
        omega
      · rw [hready.words, hready.holes] at hcard
        change _ = 10 at hend
        have hlt := BitVec.lt_def.mp hlast
        exact absurd ⟨hlast, show _ < 10 + 4096 / 4 by omega, show 10 * 4096 < _ by omega, hready.indirect.symm.trans hind,
          Nat.le_of_eq hcard⟩ hstops
  · obtain ⟨rfl, rfl⟩ := writeSpans_none hlast hspans
    exact ⟨hsize, fun e he => nomatch (hres e).mp he⟩

/-- No file has a block at these positions. -/
theorem sdiv_large (hlo : maxfilesize ≤ offset.toNat) (hhi : offset.toNat ≤ 2^32 - 4096) :
    ndirect + nindirect ≤ (offset.sdiv 4096#32).toNat := by
  change 4235264 ≤ _ at hlo
  change 1034 ≤ _
  by_cases hsmall : offset.toNat < 2^31
  · rw [sdiv_block hsmall]
    omega
  · have hmsb : offset.msb = true := by
      rw [BitVec.msb_eq_true_iff_two_mul_ge]
      omega
    have hneg : (-offset).toNat = 2^32 - offset.toNat := by bv_omega
    rw [BitVec.sdiv_eq, hmsb]
    change 1034 ≤ (-((-offset) / 4096#32)).toNat
    have hdiv : ((-offset) / 4096#32).toNat = (2^32 - offset.toNat) / 4096 := by
      rw [BitVec.toNat_udiv, hneg]
      rfl
    bv_omega

/-- A write behind the largest size leaves that size. -/
theorem fileWrite_large (ht : TreeOk s.mem) (hf : InTree s.mem f) (hold : SizeInRange (fSize s.mem f))
    (hlen : buf.length < 2^32) (hfound : WriteFound s.mem f offset (offset + BitVec.ofNat 32 buf.length))
    (habove : WriteAbove offset (offset + BitVec.ofNat 32 buf.length))
    (hlarge : maxfilesize < (offset + BitVec.ofNat 32 buf.length).toNat)
    (hrun : fileWrite fileGetBlock f buf offset s = .ret res s') : fSize s'.mem f = offset + BitVec.ofNat 32 buf.length := by
  have hgrow : fSize s.mem f < offset + BitVec.ofNat 32 buf.length := Nat.lt_of_le_of_lt (sizeInRange_iff.mp hold) hlarge
  obtain ⟨t, r, ⟨-, hset⟩ | ⟨hnot, -⟩, hspans, hres⟩ := fileWrite_ret hrun
  · have hsize := (fileSetSize_ret hset).2
    by_cases hlast : offset < offset + BitVec.ofNat 32 buf.length
    · obtain hsmall | ⟨hlo, hhi⟩ := habove hlast
      · obtain hstops | htail := hfound hlast
        · have hready := (ht.rangeOk hf (@tailFound_direct s.mem f (offset.toNat / 4096))).grown hold hsmall hgrow hset
          rw [(hstops.run hready hlen hsmall hspans).size]
          exact hsize
        · have hready := (ht.rangeOk hf htail).grown hold hsmall hgrow hset
          rw [(hready.run hlen hlast hsmall hspans).size]
          exact hsize
      · obtain ⟨-, hbuf, hof⟩ := last_eq hlen hlast
        obtain ⟨n, hn⟩ := Nat.exists_eq_succ_of_ne_zero fun hz => hbuf (List.length_eq_zero_iff.mp hz)
        rw [hof, hn, spansFrom, if_neg (Nat.succ_ne_zero n), writeSpans,
          Routine.bind_ret (fileGetBlock_inval (sdiv_large hlo hhi))] at hspans
        obtain ⟨-, rfl⟩ := Outcome.ret.inj hspans
        exact hsize
    · obtain ⟨-, rfl⟩ := writeSpans_none hlast hspans
      exact hsize
  · exact absurd hgrow hnot

/-- A write that stops has no more than repeated what is there. -/
theorem fileWrite_stops (ht : TreeOk s.mem) (hf : InTree s.mem f) (hold : SizeInRange (fSize s.mem f)) (hlen : buf.length < 2^32)
    (hmax : (offset + BitVec.ofNat 32 buf.length).toNat ≤ maxfilesize) (hkept : SizeKept s s' f res)
    (hstops : WriteStops s.mem f offset (offset + BitVec.ofNat 32 buf.length))
    (hrun : fileWrite fileGetBlock f buf offset s = .ret res s') :
    offset + BitVec.ofNat 32 buf.length ≤ fSize s.mem f ∧ holes s.mem f (offset.toNat / 4096) = 0 ∧
      ∀ k (hk : k < buf.length), offset.toNat + k < ndirect * 4096 → heldByte s.mem f (offset.toNat + k) = buf[k] := by
  have hsmall : (offset + BitVec.ofNat 32 buf.length).toNat < 2^31 := by
    change _ ≤ 4235264 at hmax
    omega
  obtain ⟨t, r, hset, hspans, hres⟩ := fileWrite_ret hrun
  have hfirst := ht.rangeOk hf (@tailFound_direct s.mem f (offset.toNat / 4096))
  obtain ⟨size, hsize, hready⟩ : ∃ size, (fSize s.mem f < offset + BitVec.ofNat 32 buf.length → fSize s.mem f < size) ∧
      WriteReady s.mem t.mem f (offset.toNat / 4096) ndirect size := by
    obtain ⟨hlt, hset⟩ | ⟨hnot, rfl⟩ := hset
    · exact ⟨_, id, hfirst.grown hold hsmall hlt hset⟩
    · exact ⟨_, fun hlt => absurd hlt hnot, hfirst, rfl, rfl, rfl, fun _ => rfl⟩
  obtain ⟨hkeep, ⟨e, he⟩, hwords, hfull⟩ := hstops.run hready hlen hsmall hspans
  have hsame := hkept.rejected e ((hres e).mpr he)
  have hle : offset + BitVec.ofNat 32 buf.length ≤ fSize s.mem f := by
    by_contra hlt
    have hne := hsize (BitVec.not_le.mp hlt)
    rw [← hready.size, ← hkeep, hsame] at hne
    exact absurd hne (BitVec.lt_irrefl _)
  obtain ⟨hlt, -⟩ | ⟨-, rfl⟩ := hset
  · exact absurd hlt (BitVec.not_lt.mpr hle)
  have hholes : holes t.mem f (offset.toNat / 4096) = 0 := by
    rw [hsame] at hfull
    rw [← hwords]
    exact freeWords_empty.mpr hfull
  exact ⟨hle, hholes, (fileWrite_repeat ht hf hlen hsmall hstops hholes hspans).mp hsame⟩

/-- `file_set_size` keeps the size of a file in range if and only if it is told a size in range,
and `file_write` if the range that it writes fits. -/
theorem file_sizes_iff (s s' : Fs) (f : Word) :
    (∀ (newsize : Word) (r : Except FsErr Unit), SizeInRange (fSize s.mem f) →
      fileSetSize f newsize s = .ret r s' → (SizeKept s s' f r ∧ CountsKept s.mem f newsize ↔ SizeInRange newsize)) ∧
    ∀ (offset : Word) (buf : List (BitVec 8)) (r : Except FsErr Word), TreeOk s.mem → InTree s.mem f →
      SizeInRange (fSize s.mem f) → buf.length < 2^32 → fileWrite fileGetBlock f buf offset s = .ret r s' →
      (WriteFound s.mem f offset (offset + BitVec.ofNat 32 buf.length) ∧ WriteFits s.mem f buf offset → SizeKept s s' f r ∧
        (fSize s.mem f < offset + BitVec.ofNat 32 buf.length → CountsKept s.mem f (offset + BitVec.ofNat 32 buf.length))) ∧
      (WriteFound s.mem f offset (offset + BitVec.ofNat 32 buf.length) ∧
        WriteAbove offset (offset + BitVec.ofNat 32 buf.length) ∧ SizeKept s s' f r → WriteFits s.mem f buf offset) := by
  refine ⟨fun newsize r hold hrun => fileSetSize_kept hold hrun, fun offset buf r ht hf hold hlen hrun => ⟨?_, ?_⟩⟩
  · rintro ⟨hfound, hfits⟩
    have hnew : SizeInRange (offset + BitVec.ofNat 32 buf.length) := sizeInRange_iff.mpr hfits.1
    exact ⟨fileWrite_kept ht hf hold hlen hfound hfits hrun, fun _ _ => ⟨hold.countOk, hnew.countOk⟩⟩
  · rintro ⟨hfound, habove, hkept⟩
    have hmax : (offset + BitVec.ofNat 32 buf.length).toNat ≤ maxfilesize := by
      by_contra hlarge
      have hlt := Nat.lt_of_not_le hlarge
      have hsize := fileWrite_large ht hf hold hlen hfound habove hlt hrun
      have hrange := sizeInRange_iff.mp hkept.range
      rw [hsize] at hrange
      exact hlarge hrange
    exact ⟨hmax, fun hstops => fileWrite_stops ht hf hold hlen hmax hkept hstops hrun⟩

theorem file_sizes_root :
    (∃ r s', fileSetSize rootAddr 1#32 oneFileFs = .ret r s' ∧ SizeKept oneFileFs s' rootAddr r) ∧
      ∃ r s', fileWrite fileGetBlock rootAddr [7#8] 0#32 oneFileFs = .ret r s' ∧ SizeKept oneFileFs s' rootAddr r := by
  have hsize := oneFileFs_dir.2.1
  have hold : SizeInRange (fSize oneFileFs.mem rootAddr) := by
    rw [hsize, sizeInRange_iff]
    decide
  obtain ⟨r₁, s₁, hset⟩ := Outcome.returns_iff.mp (by decide +kernel : (fileSetSize rootAddr 1#32 oneFileFs).returns = true)
  obtain ⟨r₂, s₂, hwrite⟩ := Outcome.returns_iff.mp
    (by decide +kernel : (fileWrite fileGetBlock rootAddr [7#8] 0#32 oneFileFs).returns = true)
  have hkept := ((file_sizes_iff _ _ _).1 _ _ hold hset).mpr (sizeInRange_iff.mpr (by decide))
  have hiff := (file_sizes_iff _ _ _).2 _ _ _ oneFileFs_treeOk .root hold (by decide) hwrite
  refine ⟨⟨r₁, s₁, hset, hkept.1⟩, r₂, s₂, hwrite, (hiff.1 ⟨fun _ => Or.inr fun i _ hi hle => ?_, by decide, fun hstops => ?_⟩).1⟩
  · exact absurd (Nat.le_trans hi hle) (by decide)
  · exact absurd hstops.2.2.1 (by decide)

/-- A client sets the size -1. -/
theorem set_size_negative : TreeOk oneFileFs.mem ∧ InTree oneFileFs.mem (slotAddr 3 0) ∧
    SizeInRange (fSize oneFileFs.mem (slotAddr 3 0)) ∧
    ∃ r s', fileSetSize (slotAddr 3 0) 0xFFFFFFFF#32 oneFileFs = .ret r s' ∧ ¬ SizeKept oneFileFs s' (slotAddr 3 0) r := by
  have hno : blockNo oneFileFs.mem rootAddr 0 = 3 := oneFileFs_words.2.2.2.2.1 0 (by decide)
  have htree : InTree oneFileFs.mem (slotAddr 3 0) := by
    have hentry := @InTree.entry oneFileFs.mem rootAddr 0 0 .root (by decide +kernel) (by decide +kernel)
      (by rw [hno]; decide) (by decide) (by decide +kernel)
    rwa [hno] at hentry
  obtain ⟨r, s', hrun⟩ :=
    Outcome.returns_iff.mp (by decide +kernel : (fileSetSize (slotAddr 3 0) 0xFFFFFFFF#32 oneFileFs).returns = true)
  refine ⟨oneFileFs_treeOk, htree, sizeInRange_iff.mpr (by decide +kernel), r, s', hrun, fun hkept => ?_⟩
  have hrange := sizeInRange_iff.mp hkept.range
  rw [(fileSetSize_ret hrun).2] at hrange
  exact absurd hrange (by decide)

end Sizes

end Sisop
