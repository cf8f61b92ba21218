import Sisop.ByteMem
import Sisop.Env
import Sisop.Printfmt
import Sisop.Translate

/-! `user_mem_check` of `kern/pmap.c`, and loads and stores through a page directory. -/
namespace Sisop

/-- The rounds of the loop of `user_mem_check` from `address` on. The error is
`user_mem_check_addr`. -/
def userMemCheckFrom (g : ℕ) (va perm : Word) : ℕ → Word → Routine Pm (Except Word Unit)
  | 0, _ => pure (.ok ())
  | n+1, address => do
    let bad := if address < va then va else address
    if ulim ≤ address then
      pure (.error bad)
    else
      match (← pgdirWalk g address false) with
      | none => pure (.error bad)
      | some pte =>
        let w ← Routine.gets fun s => s.load pte
        if has w (perm ||| pteP) then userMemCheckFrom g va perm n (address + 4096#32)
        else pure (.error bad)

/-- `user_mem_check(env, va, len, perm)`. The sum and the rounding are those of
`uint32_t`, which wrap around. -/
def userMemCheck (g : ℕ) (va len perm : Word) : Routine Pm (Except Word Unit) :=
  let start := rounddown va
  userMemCheckFrom g va perm (pageRounds start (roundup (va + len))) start

/-- The byte that the kernel loads at a linear address, where there is a page. -/
def loadByte (s : Pm) (g : ℕ) (la : Word) : Option (BitVec 8) :=
  (translate s.word g la).map fun t => byteOf (s.word (pgnum t.pa) (pgoff t.pa / 4)) (pgoff t.pa % 4)

/-- The bytes from an address on, `n` of them at most, up to the first that cannot be loaded. -/
def loadBytes (s : Pm) (g : ℕ) : ℕ → Word → List (BitVec 8)
  | 0, _ => []
  | n+1, la => match loadByte s g la with
    | none => []
    | some b => b :: loadBytes s g n (la + 1#32)

/-- `cprintf("%.*s", len, s)`, of which only the loads matter: a page fault in the kernel is a panic. -/
def cprintfLoads (g : ℕ) (len va : Word) : Routine Pm Unit := fun s =>
  if (cprintfChars va (loadBytes s g (2^32) va) len).isSome then .ret () s else .halt

def setByte (w : Word) (i : ℕ) (b : BitVec 8) : Word :=
  (w &&& ~~~(0xFF#32 <<< (8 * i))) ||| (b.setWidth 32 <<< (8 * i))

/-- A store by the kernel at a linear address. With `CR0_WP` set a page that is
absent or read-only faults, and the kernel panics. -/
def storeByte (g : ℕ) (va : Word) (b : BitVec 8) : Routine Pm Unit := fun s =>
  let pde := s.word g (pdx va)
  let pte := s.word (pgnum pde) (ptx va)
  if has pde (pteP ||| pteW) ∧ has pte (pteP ||| pteW) then
    let i := pgoff va / 4
    .ret () (s.setWord (pgnum pte) i (setByte (s.word (pgnum pte) i) (pgoff va % 4) b))
  else .halt

/-- A store by user code, below `UTOP` and where both entries let it through. What
the hardware refuses is a trap. -/
def userStoreByte (g : ℕ) (va : Word) (b : BitVec 8) : Routine Pm Unit := fun s =>
  let pde := s.word g (pdx va)
  let pte := s.word (pgnum pde) (ptx va)
  if va < utop ∧ has pde (pteP ||| pteW ||| pteU) ∧ has pte (pteP ||| pteW ||| pteU) then
    let i := pgoff va / 4
    .ret () (s.setWord (pgnum pte) i (setByte (s.word (pgnum pte) i) (pgoff va % 4) b))
  else .halt

def storeBytes (g : ℕ) : Word → List (BitVec 8) → Routine Pm Unit
  | _, [] => pure ()
  | va, b :: bs => do
    storeByte g va b
    storeBytes g (va + 1#32) bs

end Sisop
