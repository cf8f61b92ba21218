import Sisop.Mmu
import Sisop.Routine

/-! The page allocator and the two-level page tables of `kern/pmap.c`. Physical
memory is a table of words by page number and index; a page directory or a page
table is one of its pages. Pointers to pages are page numbers. -/
namespace Sisop

/-- `struct PageInfo`. The counter is a `uint16_t` and wraps around. -/
structure PageInfo where
  ppLink : Option ℕ
  ppRef : BitVec 16

/-- The memory state of the kernel: `npages`, the `pages` array, the head of the
free list, the page of `kern_pgdir` and the contents of physical memory. -/
structure Pm where
  npages : ℕ
  pages : ℕ → PageInfo
  pageFreeList : Option ℕ
  kernPgdir : ℕ
  word : ℕ → ℕ → Word

/-- A `pte_t *`: a word of a page. -/
structure PtePtr where
  page : ℕ
  idx : ℕ

/-- Error codes of `inc/error.h` that the kernel returns. -/
inductive Err where
  | badEnv | inval | noMem | noFreeEnv | fault | ipcNotRecv
  deriving DecidableEq, Repr

namespace Pm

def setRef (s : Pm) (p : ℕ) (r : BitVec 16) : Pm :=
  { s with pages := Function.update s.pages p { s.pages p with ppRef := r } }

def setLink (s : Pm) (p : ℕ) (l : Option ℕ) : Pm :=
  { s with pages := Function.update s.pages p { s.pages p with ppLink := l } }

def setWord (s : Pm) (p i : ℕ) (w : Word) : Pm :=
  { s with word := Function.update s.word p (Function.update (s.word p) i w) }

/-- `memset(page, 0, PGSIZE)`. -/
def clear (s : Pm) (p : ℕ) : Pm :=
  { s with word := Function.update s.word p fun _ => 0#32 }

def load (s : Pm) (e : PtePtr) : Word := s.word e.page e.idx

def store (s : Pm) (e : PtePtr) (w : Word) : Pm := s.setWord e.page e.idx w

/-- `pp->pp_ref++`. -/
def incRef (s : Pm) (p : ℕ) : Pm := s.setRef p ((s.pages p).ppRef + 1)

end Pm

/-- `KADDR(pa)`: the page at `pa`; panics beyond the end of memory. -/
def kaddr (pa : Word) : Routine Pm ℕ := fun s =>
  if pgnum pa < s.npages then .ret (pgnum pa) s else .halt

/-- `pa2page(pa)`. -/
def pa2page (pa : Word) : Routine Pm ℕ := fun s =>
  if pgnum pa < s.npages then .ret (pgnum pa) s else .halt

/-- `page2kva(pp)`. -/
def page2kva (pp : ℕ) : Routine Pm ℕ := kaddr (page2pa pp)

/-- `page_alloc(ALLOC_ZERO)`, the only way the kernel proper calls it. -/
def pageAlloc : Routine Pm (Option ℕ) := do
  match (← Routine.gets Pm.pageFreeList) with
  | none => pure none
  | some result =>
    Routine.modify fun s => { s with pageFreeList := (s.pages result).ppLink }
    Routine.modify fun s => s.setLink result none
    let page ← page2kva result
    Routine.modify fun s => s.clear page
    pure (some result)

/-- `page_free(pp)`. The two panics are its checks for live and double-freed pages. -/
def pageFree (pp : ℕ) : Routine Pm Unit := fun s =>
  if (s.pages pp).ppRef ≠ 0 then .halt
  else if (s.pages pp).ppLink ≠ none then .halt
  else .ret () { s.setLink pp s.pageFreeList with pageFreeList := some pp }

/-- `page_decref(pp)`. -/
def pageDecref (pp : ℕ) : Routine Pm Unit := do
  Routine.modify fun s => s.setRef pp ((s.pages pp).ppRef - 1)
  let ref ← Routine.gets fun s => (s.pages pp).ppRef
  if ref = 0 then pageFree pp else pure ()

/-- The word `pgdir_walk` installs for a new page table. -/
def pdeOf (page : ℕ) : Word := page2pa page ||| pteP ||| pteW ||| pteU

/-- `pgdir_walk(pgdir, va, create)`. -/
def pgdirWalk (pgdir : ℕ) (va : Word) (create : Bool) : Routine Pm (Option PtePtr) := do
  let pde ← Routine.gets fun s => s.word pgdir (pdx va)
  if pde = 0#32 then
    if create then
      match (← pageAlloc) with
      | none => pure none
      | some page =>
        Routine.modify fun s => s.incRef page
        Routine.modify fun s => s.setWord pgdir (pdx va) (pdeOf page)
        let table ← entryTable
        pure (some ⟨table, ptx va⟩)
    else pure none
  else
    let table ← entryTable
    pure (some ⟨table, ptx va⟩)
where
  /-- `KADDR(PTE_ADDR(pgdir[index]))`. -/
  entryTable : Routine Pm ℕ := do
    let pde ← Routine.gets fun s => s.word pgdir (pdx va)
    kaddr (pteAddr pde)

/-- `page_lookup(pgdir, va, &pte)`: the page and the entry. The entry's present
bit is not consulted. -/
def pageLookup (pgdir : ℕ) (va : Word) : Routine Pm (Option (ℕ × PtePtr)) := do
  match (← pgdirWalk pgdir va false) with
  | none => pure none
  | some entry =>
    let pte ← Routine.gets fun s => s.load entry
    let page ← pa2page (pteAddr pte)
    pure (some (page, entry))

/-- `page_remove(pgdir, va)`. There is no TLB in the model to invalidate. -/
def pageRemove (pgdir : ℕ) (va : Word) : Routine Pm Unit := do
  match (← pageLookup pgdir va) with
  | none => pure ()
  | some (page, pte) =>
    pageDecref page
    Routine.modify fun s => s.store pte 0#32

/-- The word `page_insert` writes: `page2pa(pp) | perm | PTE_P`. -/
def pteOf (pp : ℕ) (perm : Word) : Word := page2pa pp ||| perm ||| pteP

/-- `page_insert(pgdir, pp, va, perm)`. The test `*entry && PTE_P` is a logical
conjunction with a nonzero constant, so it asks whether the entry is nonzero. -/
def pageInsert (pgdir pp : ℕ) (va perm : Word) : Routine Pm (Except Err Unit) := do
  match (← pgdirWalk pgdir va true) with
  | none => pure (.error .noMem)
  | some entry =>
    Routine.modify fun s => s.incRef pp
    let pte ← Routine.gets fun s => s.load entry
    if pte ≠ 0#32 then pageRemove pgdir va else pure ()
    Routine.modify fun s => s.store entry (pteOf pp perm)
    pure (.ok ())

end Sisop
