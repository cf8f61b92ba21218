import Sisop.CStrings
import Sisop.Mmu
import Sisop.Terminal

/-! `cga_putc` of `kern/console.c`. -/
namespace Sisop

abbrev crtRows : ℕ := 25

abbrev crtCols : ℕ := 80

/-- `CRT_SIZE`. -/
abbrev crtSize : ℕ := crtRows * crtCols

/-- `crt_buf`, `crt_pos`, and the two cursor registers of the device. -/
structure Cga where
  crtBuf : List (BitVec 16)
  crtPos : BitVec 16
  cursorHigh : BitVec 8
  cursorLow : BitVec 8

/-- A blank in black on white. -/
def crtBlank : BitVec 16 := 0x0720#16

/-- `crt_buf[i] = x`. -/
def crtStore (buf : List (BitVec 16)) (i : ℕ) (x : BitVec 16) : Option (List (BitVec 16)) :=
  if i < buf.length then some (buf.set i x) else none

/-- `memmove(crt_buf, crt_buf + CRT_COLS, (CRT_SIZE - CRT_COLS) * sizeof(uint16_t))`. -/
def crtMove (buf : List (BitVec 16)) : Option (List (BitVec 16)) :=
  if crtSize ≤ buf.length then some ((buf.drop crtCols).take (crtSize - crtCols) ++ buf.drop (crtSize - crtCols)) else none

/-- The loop that blanks `n` cells from `i` on. -/
def crtClear : ℕ → ℕ → List (BitVec 16) → Option (List (BitVec 16))
  | 0, _, buf => some buf
  | n + 1, i, buf => do
    let buf ← crtStore buf i crtBlank
    crtClear n (i + 1) buf

/-- What `cga_putc` does after the switch. -/
def crtSettle (s : Cga) : Option Cga := do
  let s ← if crtSize ≤ s.crtPos.toNat then do
      let buf ← crtMove s.crtBuf
      let buf ← crtClear crtCols (crtSize - crtCols) buf
      some { s with crtBuf := buf, crtPos := s.crtPos - 80#16 }
    else some s
  some { s with cursorHigh := (s.crtPos >>> 8).setWidth 8, cursorLow := s.crtPos.setWidth 8 }

/-- A character without an attribute gets black on white. -/
def crtAttribute (c : Word) : Word := if c &&& ~~~0xff#32 = 0#32 then c ||| 0x0700#32 else c

/-- The attribute of a character keeps the character. -/
theorem crtAttribute_low (c : Word) : crtAttribute c &&& 0xff#32 = c &&& 0xff#32 := by
  unfold crtAttribute
  split
  next => rw [BitVec.and_or_distrib_right, show 0x0700#32 &&& 0xff#32 = 0#32 from rfl, BitVec.or_zero]
  next => rfl

/-- `cga_putc`. What `cons_putc` does to the other devices is left out. -/
def cgaPutc (c : Word) (s : Cga) : Option Cga :=
  let ch := crtAttribute c
  let s := if ch &&& 0xff#32 = 0x08#32 then
      if 0 < s.crtPos.toNat then do
        let pos := s.crtPos - 1#16
        let buf ← crtStore s.crtBuf pos.toNat ((ch &&& ~~~0xff#32 ||| 0x20#32).setWidth 16)
        some { s with crtBuf := buf, crtPos := pos }
      else some s
    else if ch &&& 0xff#32 = 0x0a#32 then
      let pos := s.crtPos + 80#16
      some { s with crtPos := pos - pos % 80#16 }
    else if ch &&& 0xff#32 = 0x0d#32 then some { s with crtPos := s.crtPos - s.crtPos % 80#16 }
    else if _h : ch &&& 0xff#32 = 0x09#32 then do
      let s ← cgaPutc 0x20#32 s
      let s ← cgaPutc 0x20#32 s
      let s ← cgaPutc 0x20#32 s
      let s ← cgaPutc 0x20#32 s
      cgaPutc 0x20#32 s
    else do
      let buf ← crtStore s.crtBuf s.crtPos.toNat (ch.setWidth 16)
      some { s with crtBuf := buf, crtPos := s.crtPos + 1#16 }
  s.bind crtSettle
termination_by if c &&& 0xff#32 = 0x09#32 then 1 else 0
decreasing_by
  all_goals
    rw [if_neg (by decide), if_pos ((crtAttribute_low c).symm.trans _h)]
    exact Nat.one_pos

/-- What the reference terminal does with a character. -/
def Terminal.putc (c : Word) (t : Terminal crtRows crtCols (BitVec 16)) : Terminal crtRows crtCols (BitVec 16) :=
  let ch := crtAttribute c
  if ch &&& 0xff#32 = 0x08#32 then t.backspace ((ch &&& ~~~0xff#32 ||| 0x20#32).setWidth 16)
  else if ch &&& 0xff#32 = 0x0a#32 then t.newline crtBlank
  else if ch &&& 0xff#32 = 0x0d#32 then t.carriageReturn
  else if ch &&& 0xff#32 = 0x09#32 then (fun t => t.print crtBlank crtBlank)^[5] t
  else t.print crtBlank (ch.setWidth 16)

/-- The buffer and the position are those of the terminal. -/
abbrev Cga.Shows (s : Cga) (t : Terminal crtRows crtCols (BitVec 16)) : Prop := t.Shows s.crtBuf s.crtPos.toNat

/-- The cursor registers have the position. -/
def Cga.CursorSet (s : Cga) : Prop := s.cursorHigh ++ s.cursorLow = s.crtPos

variable {s : Cga} {t : Terminal crtRows crtCols (BitVec 16)} {buf : List (BitVec 16)} {n i : ℕ}

theorem crtStore_some (h : i < buf.length) (x : BitVec 16) : crtStore buf i x = some (buf.set i x) := if_pos h

theorem crtClear_eq (n : ℕ) : ∀ {i buf}, i + n ≤ buf.length →
    crtClear n i buf = some (buf.take i ++ List.replicate n crtBlank ++ buf.drop (i + n)) := by
  induction n with
  | zero =>
    intro i buf _
    rw [List.replicate_zero, List.append_nil, Nat.add_zero, List.take_append_drop]
    rfl
  | succ n ih =>
    intro i buf h
    have hset : (buf.set i crtBlank).take (i + 1) = buf.take i ++ [crtBlank] := by
      rw [List.take_succ_eq_append_getElem (by rw [List.length_set]; omega), List.take_set_of_le le_rfl, List.getElem_set_self]
    change Option.bind (crtStore _ _ _) _ = _
    rw [crtStore_some (by omega), Option.bind_some, ih (by rw [List.length_set]; omega), hset, List.drop_set_of_lt (by omega),
      List.replicate_succ, List.append_assoc (buf.take i), List.singleton_append, Nat.add_right_comm, Nat.add_assoc]

/-- The buffer scrolls by one row. -/
theorem crtScroll (hbuf : buf.length = crtSize) :
    (crtMove buf).bind (crtClear crtCols (crtSize - crtCols)) = some (buf.drop crtCols ++ List.replicate crtCols crtBlank) := by
  have hmove : crtMove buf = some (buf.drop crtCols ++ buf.drop (crtSize - crtCols)) := by
    unfold crtMove
    rw [if_pos hbuf.ge, List.take_of_length_le]
    rw [List.length_drop, hbuf]
  have hfront : (buf.drop crtCols).length = crtSize - crtCols := by rw [List.length_drop, hbuf]
  have hback : (buf.drop (crtSize - crtCols)).length = crtCols := by
    rw [List.length_drop, hbuf]
    rfl
  have hlength : (buf.drop crtCols ++ buf.drop (crtSize - crtCols)).length = crtSize - crtCols + crtCols := by
    rw [List.length_append, hfront, hback]
  rw [hmove, Option.bind_some, crtClear_eq crtCols hlength.ge, List.take_left' hfront, List.drop_of_length_le hlength.le,
    List.append_nil]

theorem cursor_registers (pos : BitVec 16) : (pos >>> 8).setWidth 8 ++ pos.setWidth 8 = pos := by
  apply BitVec.eq_of_getLsbD_eq
  intro i hi
  rw [BitVec.getLsbD_append, BitVec.getLsbD_setWidth, BitVec.getLsbD_setWidth, BitVec.getLsbD_ushiftRight]
  by_cases hlow : i < 8
  · simp [hlow]
  · have heq : 8 + (i - 8) = i := by omega
    simp [hlow, heq, show i - 8 < 8 by omega]

/-- A position on the screen stays as it is. -/
theorem settle_stay (h : s.Shows t) : ∃ s', crtSettle s = some s' ∧ s'.Shows t ∧ s'.CursorSet := by
  refine ⟨{ s with cursorHigh := (s.crtPos >>> 8).setWidth 8, cursorLow := s.crtPos.setWidth 8 }, ?_, h, cursor_registers s.crtPos⟩
  unfold crtSettle
  rw [if_neg (not_le.mpr h.pos_lt)]
  rfl

/-- A position at the start of the next row is one on the screen, or it is the one behind the last row. -/
theorem settle_newline (h : t.Shows s.crtBuf i) (hpos : s.crtPos.toNat = (t.row + 1) * crtCols) :
    ∃ s', crtSettle s = some s' ∧ s'.Shows (t.newline crtBlank) ∧ s'.CursorSet := by
  unfold Terminal.newline
  by_cases hrow : t.row.val + 1 < crtRows
  · have hmoved : s.Shows { t with row := ⟨t.row.val + 1, hrow⟩, col := ⟨0, t.col.pos⟩ } := by
      have hmove := h.move ⟨t.row.val + 1, hrow⟩ ⟨0, t.col.pos⟩
      change Terminal.Shows _ ((t.row.val + 1) * crtCols + 0) _ at hmove
      rwa [Nat.add_zero, ← hpos] at hmove
    rw [dif_pos hrow]
    exact settle_stay hmoved
  · have hlast : t.row.val = crtRows - 1 := by have := t.row.isLt; omega
    have hend : s.crtPos.toNat = crtSize := by
      rw [hpos, hlast]
      rfl
    have hback : (s.crtPos - 80#16).toNat = t.row.val * crtCols + 0 := by
      rw [BitVec.toNat_sub_of_le (BitVec.le_def.mpr (by rw [hend]; decide)), hend, hlast]
      rfl
    rw [dif_neg hrow]
    refine ⟨⟨s.crtBuf.drop crtCols ++ List.replicate crtCols crtBlank, s.crtPos - 80#16, _, _⟩, ?_, ?_, cursor_registers _⟩
    · have hscroll := crtScroll h.length
      unfold crtSettle
      rw [if_pos hend.ge]
      cases hmove : crtMove s.crtBuf with
      | none =>
        rw [hmove] at hscroll
        cases hscroll
      | some buf =>
        rw [hmove, Option.bind_some] at hscroll
        rw [Option.bind_eq_bind, Option.bind_some, hscroll]
        rfl
    · change Terminal.Shows _ (s.crtPos - 80#16).toNat _
      rw [hback]
      exact (h.scroll crtBlank).move t.row ⟨0, t.col.pos⟩

/-- The position of the cursor in rows and columns. -/
theorem Cga.Shows.place (h : s.Shows t) : s.crtPos.toNat = t.row * 80 + t.col ∧ t.row.val < 25 ∧ t.col.val < 80 :=
  ⟨h.pos, t.row.isLt, t.col.isLt⟩

/-- The default case of the switch. -/
theorem settle_print (h : s.Shows t) (x : BitVec 16) :
    ∃ s', (crtStore s.crtBuf s.crtPos.toNat x).bind (fun buf => crtSettle { s with crtBuf := buf, crtPos := s.crtPos + 1#16 }) = some s' ∧
      s'.Shows (t.print crtBlank x) ∧ s'.CursorSet := by
  obtain ⟨hpos, hrow, hcol⟩ := h.place
  have hnext : (s.crtPos + 1#16).toNat = t.row * 80 + (t.col + 1) := by
    rw [BitVec.toNat_add_of_lt] <;> rw [hpos]
    · rfl
    · change _ + 1 < _
      omega
  rw [crtStore_some (h.pos_lt.trans_eq h.length.symm), Option.bind_some]
  have hput := h.put x
  unfold Terminal.print
  by_cases hlt : t.col.val + 1 < crtCols
  · rw [dif_pos hlt]
    apply settle_stay
    have hmove := hput.move t.row ⟨t.col.val + 1, hlt⟩
    change Terminal.Shows _ (s.crtPos + 1#16).toNat _
    rw [hnext]
    exact hmove
  · have hlast : ¬ t.col.val + 1 < 80 := hlt
    rw [dif_neg hlt]
    refine settle_newline hput ?_
    change (s.crtPos + 1#16).toNat = (t.row.val + 1) * 80
    omega

/-- The case of the newline. -/
theorem settle_lineFeed (h : s.Shows t) : ∃ s',
    crtSettle { s with crtPos := s.crtPos + 80#16 - (s.crtPos + 80#16) % 80#16 } = some s' ∧ s'.Shows (t.newline crtBlank) ∧
      s'.CursorSet := by
  obtain ⟨hpos, hrow, hcol⟩ := h.place
  refine settle_newline (s := { s with crtPos := s.crtPos + 80#16 - (s.crtPos + 80#16) % 80#16 }) h ?_
  have hadd : (s.crtPos + 80#16).toNat = (t.row + 1) * 80 + t.col := by
    rw [BitVec.toNat_add_of_lt] <;> rw [hpos]
    · change _ + 80 = _
      omega
    · change _ + 80 < _
      omega
  have hmod : ((s.crtPos + 80#16) % 80#16).toNat = t.col := by
    rw [BitVec.toNat_umod, hadd]
    change _ % 80 = _
    omega
  change (s.crtPos + 80#16 - (s.crtPos + 80#16) % 80#16).toNat = (t.row.val + 1) * 80
  rw [BitVec.toNat_sub_of_le (BitVec.le_def.mpr (by omega)), hadd, hmod, Nat.add_sub_cancel]

/-- The case of the carriage return. -/
theorem settle_return (h : s.Shows t) : ∃ s',
    crtSettle { s with crtPos := s.crtPos - s.crtPos % 80#16 } = some s' ∧ s'.Shows t.carriageReturn ∧ s'.CursorSet := by
  obtain ⟨hpos, hrow, hcol⟩ := h.place
  have hmod : (s.crtPos % 80#16).toNat = t.col := by
    rw [BitVec.toNat_umod, hpos]
    change _ % 80 = _
    omega
  have hback : (s.crtPos - s.crtPos % 80#16).toNat = t.row * 80 + 0 := by
    rw [BitVec.toNat_sub_of_le (BitVec.le_def.mpr (by omega)), hmod, hpos, Nat.add_sub_cancel, Nat.add_zero]
  apply settle_stay
  change Terminal.Shows _ (s.crtPos - s.crtPos % 80#16).toNat _
  rw [hback]
  exact h.move t.row ⟨0, t.col.pos⟩

/-- The case of the backspace. -/
theorem settle_backspace (h : s.Shows t) (x : BitVec 16) : ∃ s',
    (if 0 < s.crtPos.toNat then (crtStore s.crtBuf (s.crtPos - 1#16).toNat x).bind fun buf => some { s with crtBuf := buf, crtPos := s.crtPos - 1#16 }
      else some s).bind crtSettle = some s' ∧ s'.Shows (t.backspace x) ∧ s'.CursorSet := by
  obtain ⟨hpos, hrow, hcol⟩ := h.place
  by_cases hzero : 0 < s.crtPos.toNat
  · have hback : (s.crtPos - 1#16).toNat = s.crtPos.toNat - 1 :=
      BitVec.toNat_sub_of_le (BitVec.le_def.mpr hzero)
    have hlt : (s.crtPos - 1#16).toNat < s.crtBuf.length := by
      rw [hback]
      exact (Nat.sub_le _ _).trans_lt (h.pos_lt.trans_eq h.length.symm)
    rw [if_pos hzero, crtStore_some hlt, Option.bind_some, Option.bind_some]
    unfold Terminal.backspace
    apply settle_stay
    change Terminal.Shows _ (s.crtPos - 1#16).toNat _
    by_cases hc : 0 < t.col.val
    · have hmove := h.move t.row ⟨t.col.val - 1, (Nat.sub_le _ _).trans_lt t.col.isLt⟩
      have heq : (s.crtPos - 1#16).toNat = t.row.val * crtCols + (t.col.val - 1) := by
        change _ = t.row.val * 80 + _
        omega
      rw [if_pos hc, heq]
      exact hmove.put x
    · have hr : 0 < t.row.val := by omega
      have hmove := h.move ⟨t.row.val - 1, (Nat.sub_le _ _).trans_lt t.row.isLt⟩ ⟨crtCols - 1, Nat.sub_lt t.col.pos Nat.one_pos⟩
      have heq : (s.crtPos - 1#16).toNat = (t.row.val - 1) * crtCols + (crtCols - 1) := by
        change _ = (t.row.val - 1) * 80 + 79
        omega
      rw [if_neg hc, if_pos hr, heq]
      exact hmove.put x
  · have hc : ¬ 0 < t.col.val := by omega
    have hr : ¬ 0 < t.row.val := by omega
    unfold Terminal.backspace
    rw [if_neg hzero, if_neg hc, if_neg hr, Option.bind_some]
    exact settle_stay h

theorem cgaPutc_default (h : s.Shows t) {c : Word} (hb : crtAttribute c &&& 0xff#32 ≠ 0x08#32) (hn : crtAttribute c &&& 0xff#32 ≠ 0x0a#32)
    (hr : crtAttribute c &&& 0xff#32 ≠ 0x0d#32) (ht : crtAttribute c &&& 0xff#32 ≠ 0x09#32) :
    ∃ s', cgaPutc c s = some s' ∧ s'.Shows (t.print crtBlank ((crtAttribute c).setWidth 16)) ∧ s'.CursorSet := by
  obtain ⟨s', hs', hshows⟩ := settle_print h ((crtAttribute c).setWidth 16)
  refine ⟨s', ?_, hshows⟩
  rw [cgaPutc]
  simp only [if_neg hb, if_neg hn, if_neg hr, dif_neg ht]
  rw [← hs', Option.bind_eq_bind, Option.bind_assoc]
  rfl

theorem cgaPutc_space (h : s.Shows t) : ∃ s', cgaPutc 0x20#32 s = some s' ∧ s'.Shows (t.print crtBlank crtBlank) ∧ s'.CursorSet :=
  cgaPutc_default h (by decide) (by decide) (by decide) (by decide)

/-- One character. -/
theorem cgaPutc_shows (h : s.Shows t) (c : Word) : ∃ s', cgaPutc c s = some s' ∧ s'.Shows (t.putc c) ∧ s'.CursorSet := by
  unfold Terminal.putc
  by_cases hb : crtAttribute c &&& 0xff#32 = 0x08#32
  · rw [cgaPutc]
    simp only [if_pos hb]
    exact settle_backspace h _
  by_cases hn : crtAttribute c &&& 0xff#32 = 0x0a#32
  · rw [cgaPutc]
    simp only [if_neg hb, if_pos hn]
    exact settle_lineFeed h
  by_cases hr : crtAttribute c &&& 0xff#32 = 0x0d#32
  · rw [cgaPutc]
    simp only [if_neg hb, if_neg hn, if_pos hr]
    exact settle_return h
  by_cases ht : crtAttribute c &&& 0xff#32 = 0x09#32
  · rw [cgaPutc]
    simp only [if_neg hb, if_neg hn, if_neg hr, if_pos ht, dif_pos ht]
    obtain ⟨s₁, hs₁, h₁, -⟩ := cgaPutc_space h
    obtain ⟨s₂, hs₂, h₂, -⟩ := cgaPutc_space h₁
    obtain ⟨s₃, hs₃, h₃, -⟩ := cgaPutc_space h₂
    obtain ⟨s₄, hs₄, h₄, -⟩ := cgaPutc_space h₃
    obtain ⟨s₅, hs₅, h₅, -⟩ := cgaPutc_space h₄
    simp only [hs₁, hs₂, hs₃, hs₄, hs₅, Option.bind_eq_bind, Option.bind_some]
    exact settle_stay h₅
  · simp only [if_neg hb, if_neg hn, if_neg hr, if_neg ht]
    exact cgaPutc_default h hb hn hr ht

/-- From every position below `CRT_SIZE` on, every sequence of characters leaves on the screen, and the cursor at, what the
terminal has that showed the same screen before. No write is outside of the buffer. -/
theorem cga_terminal (hbuf : s.crtBuf.length = crtSize) (hpos : s.crtPos.toNat < crtSize) :
    ∃ t : Terminal crtRows crtCols (BitVec 16), s.Shows t ∧ ∀ cs : List Word,
      ∃ s', cs.foldlM (fun s c => cgaPutc c s) s = some s' ∧ s'.crtPos.toNat < crtSize ∧
        s'.Shows (cs.foldl (fun t c => t.putc c) t) ∧ (cs ≠ [] → s'.CursorSet) := by
  obtain ⟨t, ht⟩ : ∃ t : Terminal crtRows crtCols (BitVec 16), s.Shows t := Terminal.exists_shows s.crtBuf hbuf hpos
  refine ⟨t, ht, fun cs => ?_⟩
  induction cs using List.reverseRecOn with
  | nil => exact ⟨s, rfl, hpos, ht, fun hne => absurd rfl hne⟩
  | append_singleton cs c ih =>
    obtain ⟨s₁, hrun, -, h₁, -⟩ := ih
    obtain ⟨s', hc, h', hcursor⟩ := cgaPutc_shows h₁ c
    refine ⟨s', ?_, h'.pos_lt, ?_, fun _ => hcursor⟩
    · rw [List.foldlM_append, hrun]
      change Option.bind (some s₁) _ = _
      rw [Option.bind_some, List.foldlM_cons, hc]
      rfl
    · rw [List.foldl_append, List.foldl_cons, List.foldl_nil]
      exact h'

/-- A blank screen with the cursor at its last place. -/
theorem cga_terminal_last : ∃ t : Terminal crtRows crtCols (BitVec 16),
    Cga.Shows ⟨List.replicate crtSize crtBlank, 1999#16, 0#8, 0#8⟩ t ∧ ∀ cs : List Word,
      ∃ s', cs.foldlM (fun s c => cgaPutc c s) ⟨List.replicate crtSize crtBlank, 1999#16, 0#8, 0#8⟩ = some s' ∧
        s'.crtPos.toNat < crtSize ∧ s'.Shows (cs.foldl (fun t c => t.putc c) t) ∧ (cs ≠ [] → s'.CursorSet) :=
  cga_terminal List.length_replicate (by decide)

end Sisop
