import Mathlib.Algebra.Order.Group.Nat
import Mathlib.Data.List.Basic
import Mathlib.Tactic.Common

/-! A terminal of rows and columns, and the buffer that keeps its cells row by row. -/
namespace Sisop

/-- The cells of the screen, and the place of the cursor. -/
structure Terminal (rows cols : ℕ) (α : Type) where
  cell : Fin rows → Fin cols → α
  row : Fin rows
  col : Fin cols

namespace Terminal

variable {rows cols : ℕ} {α : Type}

/-- All rows go up by one, and the last one is blank. -/
def scroll (blank : α) (t : Terminal rows cols α) : Terminal rows cols α :=
  { t with cell := fun r c => if h : r.val + 1 < rows then t.cell ⟨r.val + 1, h⟩ c else blank }

/-- The cell at the cursor is set. -/
def put (x : α) (t : Terminal rows cols α) : Terminal rows cols α :=
  { t with cell := fun r c => if r = t.row ∧ c = t.col then x else t.cell r c }

def carriageReturn (t : Terminal rows cols α) : Terminal rows cols α := { t with col := ⟨0, t.col.pos⟩ }

/-- The cursor goes to the start of the next row. On the last row the screen scrolls instead. -/
def newline (blank : α) (t : Terminal rows cols α) : Terminal rows cols α :=
  if h : t.row.val + 1 < rows then { t with row := ⟨t.row.val + 1, h⟩, col := ⟨0, t.col.pos⟩ }
  else (t.scroll blank).carriageReturn

/-- A cell is printed, and the cursor goes on to the next place. -/
def print (blank x : α) (t : Terminal rows cols α) : Terminal rows cols α :=
  if h : t.col.val + 1 < cols then { t.put x with col := ⟨t.col.val + 1, h⟩ } else (t.put x).newline blank

/-- The cursor goes back to the place before, whose cell is set. There is none before the first place of the screen. -/
def backspace (x : α) (t : Terminal rows cols α) : Terminal rows cols α :=
  if 0 < t.col.val then { t with col := ⟨t.col.val - 1, (Nat.sub_le _ _).trans_lt t.col.isLt⟩ }.put x
  else if 0 < t.row.val then { t with row := ⟨t.row.val - 1, (Nat.sub_le _ _).trans_lt t.row.isLt⟩, col := ⟨cols - 1, Nat.sub_lt t.col.pos Nat.one_pos⟩ }.put x
  else t

/-- The buffer has the cells of the screen, and `pos` is the place of the cursor in it. -/
structure Shows (buf : List α) (pos : ℕ) (t : Terminal rows cols α) : Prop where
  length : buf.length = rows * cols
  pos : pos = t.row * cols + t.col
  cell : ∀ r c, buf[r.val * cols + c.val]? = some (t.cell r c)

section Shows

variable {t : Terminal rows cols α} {buf : List α} {pos r r' : ℕ} {x blank : α}

theorem place_lt (hr : r < rows) (c : Fin cols) : r * cols + c.val < rows * cols := by
  calc r * cols + c.val < r * cols + cols := Nat.add_lt_add_left c.isLt _
    _ = (r + 1) * cols := (Nat.succ_mul r cols).symm
    _ ≤ rows * cols := Nat.mul_le_mul_right cols hr

/-- A place in the buffer is one place of the screen. -/
theorem place_inj {c c' : Fin cols} (h : r * cols + c.val = r' * cols + c'.val) : r = r' ∧ c = c' := by
  have hrow : ∀ (r : ℕ) (c : Fin cols), (r * cols + c.val) / cols = r := by
    intro r c
    rw [Nat.add_comm, Nat.add_mul_div_right _ _ c.pos, Nat.div_eq_of_lt c.isLt, Nat.zero_add]
  have heq : r = r' := by rw [← hrow r c, h, hrow]
  subst heq
  exact ⟨rfl, Fin.ext (Nat.add_left_cancel h)⟩

theorem Shows.pos_lt (h : t.Shows buf pos) : pos < rows * cols := by
  rw [h.pos]
  exact place_lt t.row.isLt t.col

theorem Shows.put (h : t.Shows buf pos) (x : α) : (t.put x).Shows (buf.set pos x) pos := by
  refine ⟨List.length_set.trans h.length, h.pos, fun r c => ?_⟩
  change _ = some (if r = t.row ∧ c = t.col then x else t.cell r c)
  by_cases heq : r = t.row ∧ c = t.col
  · rw [if_pos heq, heq.1, heq.2, ← h.pos]
    exact List.getElem?_set_self (h.pos_lt.trans_eq h.length.symm)
  · have hne : pos ≠ r.val * cols + c.val := by
      intro hpos
      obtain ⟨hr, hc⟩ := place_inj (hpos.symm.trans h.pos)
      exact heq ⟨Fin.ext hr, hc⟩
    rw [if_neg heq, List.getElem?_set_ne hne, h.cell]

theorem Shows.scroll (h : t.Shows buf pos) (blank : α) :
    (t.scroll blank).Shows (buf.drop cols ++ List.replicate cols blank) pos := by
  have hlength : (buf.drop cols).length = (rows - 1) * cols := by
    rw [List.length_drop, h.length, Nat.sub_mul, Nat.one_mul]
  have hrows : rows = rows - 1 + 1 := by have := t.row.isLt; omega
  refine ⟨?_, h.pos, fun r c => ?_⟩
  · rw [List.length_append, hlength, List.length_replicate, ← Nat.succ_mul, Nat.succ_eq_add_one, ← hrows]
  · change _ = some (dite _ _ _)
    by_cases hr : r.val + 1 < rows
    · have hlt : r.val * cols + c.val < (rows - 1) * cols := place_lt (by omega) c
      rw [dif_pos hr, List.getElem?_append_left (hlt.trans_eq hlength.symm), List.getElem?_drop, ← h.cell]
      congr 1
      rw [Nat.succ_mul]
      omega
    · have hlast : r.val = rows - 1 := by omega
      rw [dif_neg hr, List.getElem?_append_right (by rw [hlength, hlast]; omega), hlength, hlast, Nat.add_sub_cancel_left,
        List.getElem?_replicate, if_pos c.isLt]

/-- The same screen with the cursor at another place. -/
theorem Shows.move (h : t.Shows buf pos) (row : Fin rows) (col : Fin cols) :
    Shows buf (row.val * cols + col.val) { t with row := row, col := col } := ⟨h.length, rfl, h.cell⟩

/-- Every buffer of the right size and every place in it are those of a screen. -/
theorem exists_shows (buf : List α) (hbuf : buf.length = rows * cols) (hpos : pos < rows * cols) :
    ∃ t : Terminal rows cols α, t.Shows buf pos := by
  have hcols : 0 < cols := Nat.pos_of_mul_pos_left (Nat.zero_lt_of_lt hpos)
  have hrow : pos / cols < rows := Nat.div_lt_of_lt_mul (hpos.trans_eq (Nat.mul_comm _ _))
  refine ⟨⟨fun r c => buf.get ⟨r.val * cols + c.val, hbuf ▸ place_lt r.isLt c⟩, ⟨pos / cols, hrow⟩, ⟨pos % cols, Nat.mod_lt _ hcols⟩⟩,
    hbuf, ?_, fun r c => ?_⟩
  · change pos = pos / cols * cols + pos % cols
    rw [Nat.mul_comm]
    exact (Nat.div_add_mod pos cols).symm
  · exact List.getElem?_eq_getElem _

end Shows
end Terminal
end Sisop
