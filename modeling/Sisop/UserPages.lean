import Sisop.ForkPages
import Sisop.Bytes

/-! The address spaces of a process and of an environment that it creates, and the bytes of
the physical pages. -/
namespace Sisop

/-- The caller of the system calls, or the environment that it creates. -/
inductive Side where
  | caller | child
  deriving DecidableEq

structure PageSys where
  space : Side → Space
  byte : ℕ → Bytes

namespace PageSys

def setEntry (s : PageSys) (e : Side) (pn : ℕ) (m : Option (ℕ × Word)) : PageSys :=
  { s with space := Function.update s.space e (Function.update (s.space e) pn m) }

def setByte (s : PageSys) (page : ℕ) (f : Bytes) : PageSys := { s with byte := Function.update s.byte page f }

/-- `sys_page_alloc(e, pn, perm)`, which finds a page. -/
def pageAlloc (s : PageSys) (e : Side) (pn page : ℕ) (perm : Word) : PageSys :=
  (s.setByte page fun _ => 0#8).setEntry e pn (some (page, perm))

/-- `sys_page_map(e, src, e', dst, perm)`. -/
def pageMap (s : PageSys) (e : Side) (src : ℕ) (e' : Side) (dst : ℕ) (perm : Word) : Option PageSys :=
  (s.space e src).map fun m => s.setEntry e' dst (some (m.1, perm))

/-- `sys_page_unmap(e, pn)`. -/
def pageUnmap (s : PageSys) (e : Side) (pn : ℕ) : PageSys := s.setEntry e pn none

/-- The bytes of a page that is mapped. -/
def read (s : PageSys) (e : Side) (pn : ℕ) : Option Bytes := (s.space e pn).map fun m => s.byte m.1

/-- Store to a page that is mapped. -/
def store (s : PageSys) (e : Side) (pn : ℕ) (f : Bytes → Bytes) : Option PageSys :=
  (s.space e pn).map fun m => s.setByte m.1 (f (s.byte m.1))

variable {s : PageSys} {e e' : Side} {pn pn' page page' : ℕ} {m : Option (ℕ × Word)} {f : Bytes} {perm : Word}

@[simp] theorem setEntry_byte : (s.setEntry e pn m).byte = s.byte := rfl

@[simp] theorem setByte_space : (s.setByte page f).space = s.space := rfl

theorem setEntry_same : (s.setEntry e pn m).space e = Function.update (s.space e) pn m := Function.update_self _ _ _

theorem setEntry_other (h : e' ≠ e) : (s.setEntry e pn m).space e' = s.space e' := Function.update_of_ne h _ _

/-- Of two entries at one place the last one counts. -/
theorem setEntry_twice {m' : Option (ℕ × Word)} : (((s.setEntry e pn m).setByte page f).setEntry e pn m').space =
    (s.setEntry e pn m').space := by
  unfold setEntry setByte
  dsimp only
  rw [Function.update_self, Function.update_idem, Function.update_idem]

theorem setByte_same : (s.setByte page f).byte page = f := Function.update_self _ _ _

theorem setByte_other (h : page' ≠ page) : (s.setByte page f).byte page' = s.byte page' := Function.update_of_ne h _ _

theorem pageAlloc_self : (s.pageAlloc e pn page perm).space e pn = some (page, perm) := by
  unfold pageAlloc
  rw [setEntry_same, Function.update_self]

theorem pageMap_of_space {src dst q : ℕ} {pte : Word} (h : s.space e src = some (q, pte)) :
    s.pageMap e src e' dst perm = some (s.setEntry e' dst (some (q, perm))) := by
  unfold pageMap
  rw [h]
  rfl

theorem store_of_space {q : ℕ} {pte : Word} {g : Bytes → Bytes} (h : s.space e pn = some (q, pte)) :
    s.store e pn g = some (s.setByte q (g (s.byte q))) := by
  unfold store
  rw [h]
  rfl

theorem read_of_space {q : ℕ} {pte : Word} (h : s.space e pn = some (q, pte)) : s.read e pn = some (s.byte q) := by
  unfold read
  rw [h]
  rfl

end PageSys

end Sisop
