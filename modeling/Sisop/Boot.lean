import Sisop.MemInvariant

/-! `mem_init` of `kern/pmap.c`: the boot-time allocator, the page array, and the
kernel's part of the address space. -/
namespace Sisop

/-- What `mem_init` finds: the pages of the machine, of which the kernel can map
256 MB; the end of the kernel image, which is loaded at `EXTPHYSMEM`; and the
physical addresses of the kernel stacks. -/
structure Machine where
  npages : ℕ
  kernEnd : ℕ
  bootstack : Word
  percpuKstacks : ℕ → Word
  npages_le : npages ≤ 65536
  kernEnd_ge : 0x100000 ≤ kernEnd

/-- `NCPU`, the stacks that `mem_init_mp` maps. -/
abbrev ncpu : ℕ := 8

/-- The state while `boot_alloc` is in use; `nextfree` is a physical address. -/
structure BootState where
  pm : Pm
  nextfree : Option ℕ

/-- `ROUNDUP(a, PGSIZE)`, far from the end of the address space. -/
def roundupPage (a : ℕ) : ℕ := (a + pgsize - 1) / pgsize * pgsize

section Alloc

variable (m : Machine)

/-- `boot_alloc(n)`. -/
def bootAlloc (n : ℕ) : Routine BootState ℕ := fun b =>
  let nextfree := b.nextfree.getD (roundupPage m.kernEnd)
  if nextfree > m.npages * pgsize then .halt
  else if n = 0 then .ret nextfree { b with nextfree := some nextfree }
  else .ret nextfree { b with nextfree := some (roundupPage (nextfree + n)) }

/-- One round of the loop of `page_init`; `current` is the last page of the list so far. -/
def pageInitRound (first fin i : ℕ) (current : Option ℕ) (s : Pm) : Option ℕ × Pm :=
  if first ≤ i ∧ i < fin ∨ i = 7 then (current, s)
  else
    match current with
    | none => (some i, { s with pageFreeList := some i })
    | some cur => (some i, (s.setLink cur (some i)).setLink i none)

/-- The loop of `page_init`, from page 1 to page `n`. -/
def pageInitLoop (first fin : ℕ) (s : Pm) : ℕ → Option ℕ × Pm
  | 0 => (none, s)
  | n+1 =>
    let (current, s) := pageInitLoop first fin s n
    pageInitRound first fin (n+1) current s

/-- `page_init()`. -/
def pageInit : Routine BootState Unit := do
  Routine.modify fun b => { b with pm := { b.pm with pageFreeList := none } }
  let fin ← bootAlloc m 0
  Routine.modify fun b => { b with
    pm := (pageInitLoop (pgnum iophysmem) (fin / pgsize) b.pm (m.npages - 1)).2 }

/-- `sizeof(struct PageInfo)` and `sizeof(struct Env)`. -/
abbrev sizeofPageInfo : ℕ := 8
abbrev sizeofEnv : ℕ := 124

/-- The first part of `mem_init`, up to `page_init`. It returns the physical
addresses of `pages` and `envs`. -/
def memInitAlloc : Routine BootState (ℕ × ℕ) := do
  let kern ← bootAlloc m pgsize
  Routine.modify fun b => { b with
    pm := ({ b.pm with npages := m.npages, kernPgdir := kern / pgsize } : Pm).clear (kern / pgsize) }
  Routine.modify fun b => { b with
    pm := b.pm.setWord b.pm.kernPgdir uvptPde (page2pa b.pm.kernPgdir ||| pteU ||| pteP) }
  let pages ← bootAlloc m (m.npages * sizeofPageInfo)
  Routine.modify fun b => { b with pm := { b.pm with pages := fun _ => ⟨none, 0⟩ } }
  let envs ← bootAlloc m (nenv * sizeofEnv)
  pageInit m
  pure (pages, envs)

end Alloc

/-- One mapping through a page table. Without memory for the table it is left out. -/
def mapSmall (g : ℕ) (va pa perm : Word) : Routine Pm Unit := do
  match (← pgdirWalk g va true) with
  | none => pure ()
  | some entry => Routine.modify fun s => s.store entry (pa ||| (perm ||| pteP))

/-- One mapping of 4 MB in the page directory itself. -/
def mapLarge (g : ℕ) (va pa perm : Word) : Routine Pm Unit :=
  Routine.modify fun s => s.setWord g (pdx va) (pa ||| (perm ||| pteP ||| ptePS))

/-- What `boot_map_region` asks before it takes a step of 4 MB. -/
def LargeStep (pse : Bool) (va pa : Word) (left : ℕ) : Prop :=
  pse = true ∧ ptsize ≤ left ∧ ptx pa = 0 ∧ ptx va = 0

instance (pse : Bool) (va pa : Word) (left : ℕ) : Decidable (LargeStep pse va pa left) :=
  inferInstanceAs (Decidable (_ ∧ _))

/-- The loop of `boot_map_region(pgdir, va, size, pa, perm)` from the offset `i` on, compiled
with `TP1_PSE` or without it. The offset does not wrap around for sizes up to 2^32 - 4096. -/
def mapFrom (pse : Bool) (g : ℕ) (va pa perm : Word) (size i : ℕ) : Routine Pm Unit :=
  if i < size then
    if LargeStep pse (va + BitVec.ofNat 32 i) (pa + BitVec.ofNat 32 i) (size - i) then do
      mapLarge g (va + BitVec.ofNat 32 i) (pa + BitVec.ofNat 32 i) perm
      mapFrom pse g va pa perm size (i + ptsize)
    else do
      mapSmall g (va + BitVec.ofNat 32 i) (pa + BitVec.ofNat 32 i) perm
      mapFrom pse g va pa perm size (i + pgsize)
  else pure ()
termination_by size - i
decreasing_by
  · have hps : ptsize = 4194304 := rfl
    omega
  · have hps : pgsize = 4096 := rfl
    omega

/-- `boot_map_region(pgdir, va, size, pa, perm)`. -/
def mapRegion (pse : Bool) (g : ℕ) (va : Word) (size : ℕ) (pa perm : Word) : Routine Pm Unit :=
  mapFrom pse g va pa perm size 0

/-- One round of `boot_map_region`, which goes on when there is no memory for a table. -/
def bootMapPage (va pa perm : Word) : Routine Pm Unit := do
  let pgdir ← Routine.gets Pm.kernPgdir
  match (← pgdirWalk pgdir va true) with
  | none => pure ()
  | some entry => Routine.modify fun s => s.store entry (pa ||| (perm ||| pteP))

/-- `boot_map_region(kern_pgdir, va, size, pa, perm)`. -/
def bootMapRegion (va : Word) (size : ℕ) (pa perm : Word) : Routine Pm Unit :=
  Routine.loop ((size + pgsize - 1) / pgsize) fun i =>
    bootMapPage (va + BitVec.ofNat 32 (pgsize * i)) (pa + BitVec.ofNat 32 (pgsize * i)) perm

/-- `mem_init_mp()`. -/
def memInitMp (m : Machine) : Routine Pm Unit :=
  Routine.loop ncpu fun i =>
    bootMapRegion (kstacktop - BitVec.ofNat 32 i * (kstksize + kstkgap) - kstksize) kstksize.toNat
      (m.percpuKstacks i) pteW

/-- The second part of `mem_init`: the mappings above `UTOP`. -/
def memInitMaps (m : Machine) (pages envs : ℕ) : Routine Pm Unit := do
  bootMapRegion upages (m.npages * sizeofPageInfo) (BitVec.ofNat 32 pages) pteU
  bootMapRegion uenvs (nenv * sizeofEnv) (BitVec.ofNat 32 envs) (pteU ||| pteP)
  bootMapRegion (kstacktop - kstksize) kstksize.toNat m.bootstack pteW
  bootMapRegion kernbase (2^32 - kernbase.toNat) 0#32 pteW
  memInitMp m

/-- `MMIOLIM`. -/
abbrev mmiolim : Word := 0xEFC00000#32

/-- The memory, and the static variable `base`. -/
structure Mmio where
  mem : Pm
  base : Word

/-- The flags of the mappings of devices. -/
abbrev mmioPerm : Word := pteW ||| ptePCD ||| ptePWT

/-- `mmio_map_region(pa, size)`, on a kernel compiled with `TP1_PSE` or without it. -/
def mmioMapRegion (pse : Bool) (pa size : Word) : Routine Mmio Word := do
  let base ← Routine.gets Mmio.base
  let roundedSize := roundup size
  if mmiolim < base + roundedSize then Routine.halt
  else do
    let kernPgdir ← Routine.gets fun m => m.mem.kernPgdir
    Routine.zoom Mmio.mem (fun t m => { m with mem := t })
      (mapRegion pse kernPgdir base roundedSize.toNat pa mmioPerm)
    Routine.modify fun m => { m with base := base + roundedSize }
    pure base

/-- `check_va2pa(kern_pgdir, va)`. -/
def checkVa2pa (va : Word) : Routine Pm Word := do
  let pde ← Routine.gets fun s => s.word s.kernPgdir (pdx va)
  if ¬ has pde pteP then pure (~~~0#32)
  else if has pde ptePS then pure (pde >>> 22 <<< 22 ||| (va >>> 12 &&& 0x3FF#32) <<< 12 ||| va &&& 0xFFF#32)
  else do
    let p ← kaddr (pteAddr pde)
    let pte ← Routine.gets fun s => s.word p (ptx va)
    pure (if has pte pteP then pteAddr pte else ~~~0#32)

/-- `pgdir_walk(kern_pgdir, va, 0)`, where the result is dereferenced. -/
def walkKern (va : Word) : Routine Pm PtePtr := do
  let pgdir ← Routine.gets Pm.kernPgdir
  match (← pgdirWalk pgdir va false) with
  | none => Routine.halt
  | some entry => pure entry

def clearKern (va : Word) : Routine Pm Unit := do
  let entry ← walkKern va
  Routine.modify fun s => s.store entry 0#32

/-- The assertions of `check_page` about the two regions at `mm1` and `mm2`, and what it does with them. -/
def checkRegions (mm1 mm2 : Word) : Routine Pm Unit := do
  Routine.panicUnless (mmiobase ≤ mm1 ∧ mm1 + 8096#32 < mmiolim)
  Routine.panicUnless (mmiobase ≤ mm2 ∧ mm2 + 8096#32 < mmiolim)
  Routine.panicUnless (mm1 % 4096#32 = 0#32 ∧ mm2 % 4096#32 = 0#32)
  Routine.panicUnless (mm1 + 8096#32 ≤ mm2)
  let pa ← checkVa2pa mm1
  Routine.panicUnless (pa = 0#32)
  let pa ← checkVa2pa (mm1 + 4096#32)
  Routine.panicUnless (pa = 4096#32)
  let pa ← checkVa2pa mm2
  Routine.panicUnless (pa = 0#32)
  let pa ← checkVa2pa (mm2 + 4096#32)
  Routine.panicUnless (pa = ~~~0#32)
  let entry ← walkKern mm1
  let pte ← Routine.gets fun s => s.load entry
  Routine.panicUnless (pte &&& (pteW ||| ptePWT ||| ptePCD) ≠ 0#32)
  Routine.panicUnless (pte &&& pteU = 0#32)
  clearKern mm1
  clearKern (mm1 + 4096#32)
  clearKern mm2

/-- The end of `check_page`, from `test mmio_map_region` on. It leaves the page table behind that the devices share. -/
def checkMmio : Routine Mmio Unit := do
  let mm1 ← mmioMapRegion false 0#32 4097#32
  let mm2 ← mmioMapRegion false 0#32 4096#32
  Routine.zoom Mmio.mem (fun t m => { m with mem := t }) (checkRegions mm1 mm2)

/-- The `check_` functions of `mem_init`, the end of `check_page` apart, take pages off the free list, scribble
over them, and put all of them back in some order. -/
structure SelfTested (s s' : Pm) : Prop where
  npages : s'.npages = s.npages
  kernPgdir : s'.kernPgdir = s.kernPgdir
  ppRef : ∀ p, (s'.pages p).ppRef = (s.pages p).ppRef
  word : ∀ p, ¬ s.IsFree p → s'.word p = s.word p
  free : ∀ l, FreeList s l → ∃ l', l'.Perm l ∧ FreeList s' l'

/-- The states that `mem_init` ends in. -/
def MemInit (m : Machine) (s : Mmio) : Prop :=
  ∃ b₀ pages envs b₁ s₁ s₂ s₃, memInitAlloc m ⟨b₀, none⟩ = .ret (pages, envs) b₁ ∧
    SelfTested b₁.pm s₁ ∧ checkMmio ⟨s₁, mmiobase⟩ = .ret () s₂ ∧
    memInitMaps m pages envs s₂.mem = .ret () s₃ ∧ SelfTested s₃ s.mem ∧ s.base = s₂.base

/-- `lapic_init()`, as far as it maps the registers of the local APIC. -/
def lapicInit (lapicaddr : Word) : Routine Mmio Unit := do
  if lapicaddr = 0#32 then pure ()
  else do
    let _ ← mmioMapRegion false lapicaddr 4096#32
    pure ()

end Sisop
