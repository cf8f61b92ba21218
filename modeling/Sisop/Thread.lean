import Sisop.Chain

/-! A list under construction. Its nodes are linked from a cell of memory on, and the cell behind the last one is known, which is
where the next node is stored. The cell of a node is its link. -/
namespace Sisop

variable {α κ : Type} {cell cell' : κ → Option α} {node : α → κ} {c t : κ} {l m : List α} {a : α}

/-- From the cell `c` on the nodes `l` are linked, and `t` is the cell behind them. -/
def Thread (cell : κ → Option α) (node : α → κ) : κ → List α → κ → Prop
  | c, [], t => t = c
  | c, a :: l, t => cell c = some a ∧ Thread cell node (node a) l t

namespace Thread

theorem tail_mem (h : Thread cell node c l t) : t ∈ c :: l.map node := by
  induction l generalizing c with
  | nil =>
    obtain rfl : t = c := h
    exact List.mem_cons_self
  | cons a l ih => exact List.mem_cons_of_mem c (ih h.2)

/-- What is in the last cell, and in cells elsewhere, does not count. -/
theorem congr (h : Thread cell node c l t) (hnd : (c :: l.map node).Nodup)
    (hcell : ∀ x ∈ c :: l.map node, x ≠ t → cell' x = cell x) : Thread cell' node c l t := by
  induction l generalizing c with
  | nil => exact h
  | cons a l ih =>
    obtain ⟨ha, ht⟩ := h
    obtain ⟨hc, hnd⟩ := List.nodup_cons.mp hnd
    have hne : c ≠ t := fun heq => hc (heq ▸ ht.tail_mem)
    refine ⟨?_, ih ht hnd fun x hx => hcell x (List.mem_cons_of_mem c hx)⟩
    rw [hcell c List.mem_cons_self hne, ha]

/-- A node is stored to the last cell. -/
theorem snoc (h : Thread cell node c l t) (ha : cell t = some a) : Thread cell node c (l ++ [a]) (node a) := by
  induction l generalizing c with
  | nil =>
    obtain rfl : t = c := h
    exact ⟨ha, rfl⟩
  | cons b l ih => exact ⟨h.1, ih h.2⟩

/-- The nodes are in front of what is linked from the last cell. -/
theorem chain (h : Thread cell node c l t) (hm : Chain (fun a => cell (node a)) (cell t) m) :
    Chain (fun a => cell (node a)) (cell c) (l ++ m) := by
  induction l generalizing c with
  | nil =>
    obtain rfl : t = c := h
    exact hm
  | cons a l ih => exact ⟨h.1, ih h.2⟩

end Thread
end Sisop
