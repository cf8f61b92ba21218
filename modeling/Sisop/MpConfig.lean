import Sisop.Boot
import Sisop.ByteMem
import Sisop.Env

/-! `kern/mpconfig.c`, which finds the processors in the tables of the BIOS. -/
namespace Sisop

/-- The fields of `struct CpuInfo` that are set here. -/
structure MpCpu where
  cpuId : BitVec 8
  cpuStatus : CpuStatus

/-- Physical memory where the kernel has it mapped, the variables of `mpconfig.c`, and what
was written to the two ports of the interrupt mode. `bootcpu` is an index. -/
structure Mp where
  mem : ByteMem
  npages : ℕ
  cpus : ℕ → MpCpu
  bootcpu : ℕ
  ismp : Bool
  ncpu : ℕ
  lapicaddr : Word
  imcr : BitVec 8
  imcrSelect : BitVec 8

section Tables

/-- The `uint16_t` at an address. -/
def loadHalf (m : ByteMem) (a : Word) : BitVec 16 := m (a + 1#32) ++ m a

/-- `memcmp(a, sig, n) == 0`. -/
def hasBytes (m : ByteMem) (a : Word) : List (BitVec 8) → Bool
  | [] => true
  | b :: bs => m a = b && hasBytes m (a + 1#32) bs

/-- `sum(addr, len)`. -/
def sumBytes (m : ByteMem) (a : Word) (len : ℕ) : BitVec 8 :=
  (List.range len).foldl (fun sum i => sum + m (a + BitVec.ofNat 32 i)) 0#8

/-- `"_MP_"`. -/
def mpSignature : List (BitVec 8) := [0x5F#8, 0x4D#8, 0x50#8, 0x5F#8]

/-- `"PCMP"`. -/
def pcmpSignature : List (BitVec 8) := [0x50#8, 0x43#8, 0x4D#8, 0x50#8]

def isMpFloat (m : ByteMem) (mp : Word) : Bool := hasBytes m mp mpSignature && sumBytes m mp 16 = 0#8

/-! Fields of `struct mpconf`, of `struct mp` and of `struct mpproc`. -/

def confLength (m : ByteMem) (conf : Word) : ℕ := (loadHalf m (conf + 4#32)).toNat
def confVersion (m : ByteMem) (conf : Word) : BitVec 8 := m (conf + 6#32)
def confEntry (m : ByteMem) (conf : Word) : ℕ := (loadHalf m (conf + 34#32)).toNat
def confLapicaddr (m : ByteMem) (conf : Word) : Word := loadWord m (conf + 36#32)
def confXlength (m : ByteMem) (conf : Word) : ℕ := (loadHalf m (conf + 40#32)).toNat
def confXchecksum (m : ByteMem) (conf : Word) : BitVec 8 := m (conf + 42#32)
def confEntries (conf : Word) : Word := conf + 44#32

def mpPhysaddr (m : ByteMem) (mp : Word) : Word := loadWord m (mp + 4#32)
def mpType (m : ByteMem) (mp : Word) : BitVec 8 := m (mp + 11#32)
def mpImcrp (m : ByteMem) (mp : Word) : BitVec 8 := m (mp + 12#32)

/-- `proc->flags & MPPROC_BOOT`. -/
def procBoot (m : ByteMem) (proc : Word) : Bool := m (proc + 3#32) &&& 2#8 ≠ 0#8

end Tables

section Search

/-- `KADDR(pa)`. -/
def mpKaddr (pa : Word) : Routine Mp Word := fun s =>
  if pgnum pa < s.npages then .ret (pa + kernbase) s else .halt

/-- `mpsearch1(a, len)`. -/
def mpsearch1 (a len : Word) : Routine Mp (Option Word) := do
  let mp ← mpKaddr a
  let bound ← mpKaddr (a + len)
  let m ← Routine.gets Mp.mem
  return ((List.range ((bound.toNat - mp.toNat + 15) / 16)).map fun i => mp + BitVec.ofNat 32 (16 * i)).find? (isMpFloat m)

/-- `mpsearch`. -/
def mpsearch : Routine Mp (Option Word) := do
  let bda ← mpKaddr 0x400#32
  let m ← Routine.gets Mp.mem
  let ebda := (loadHalf m (bda + 0xE#32)).setWidth 32
  let found ←
    if ebda ≠ 0#32 then mpsearch1 (ebda <<< 4) 1024#32
    else mpsearch1 ((loadHalf m (bda + 0x13#32)).setWidth 32 * 1024#32 - 1024#32) 1024#32
  match found with
  | some mp => return some mp
  | none => mpsearch1 0xF0000#32 0x10000#32

/-- `mpconfig`: the floating pointer structure and the table, if there is a good one. -/
def mpconfig : Routine Mp (Option (Word × Word)) := do
  match (← mpsearch) with
  | none => return none
  | some mp => do
    let m ← Routine.gets Mp.mem
    if mpPhysaddr m mp = 0#32 ∨ mpType m mp ≠ 0#8 then
      return none
    else do
      let conf ← mpKaddr (mpPhysaddr m mp)
      if ¬ hasBytes m conf pcmpSignature then
        return none
      else if sumBytes m conf (confLength m conf) ≠ 0#8 then
        return none
      else if confVersion m conf ≠ 1#8 ∧ confVersion m conf ≠ 4#8 then
        return none
      else if sumBytes m (conf + BitVec.ofNat 32 (confLength m conf)) (confXlength m conf) + confXchecksum m conf ≠ 0#8 then
        return none
      else
        return some (mp, conf)

end Search

section Init

/-- `cpus[i].cpu_id = i`. -/
def Mp.setId (s : Mp) (i : ℕ) : Mp :=
  { s with cpus := Function.update s.cpus i { s.cpus i with cpuId := BitVec.ofNat 8 i } }

/-- `bootcpu->cpu_status = CPU_STARTED`. -/
def Mp.startBoot (s : Mp) : Mp :=
  { s with cpus := Function.update s.cpus s.bootcpu { s.cpus s.bootcpu with cpuStatus := .started } }

/-- The case `MPPROC`. -/
def mpProc (proc : Word) : Routine Mp Unit := do
  let m ← Routine.gets Mp.mem
  if procBoot m proc then Routine.modify fun s => { s with bootcpu := s.ncpu } else pure ()
  let n ← Routine.gets Mp.ncpu
  if n < ncpu then
    Routine.modify fun s => { s.setId n with ncpu := n + 1 }
  else
    pure ()

/-- The loop over the entries of the table, of which there are `n` more. An entry of a type
that is not known sets `i` to the number of entries, and ends it. -/
def mpEntries : ℕ → Word → Routine Mp Unit
  | 0, _ => pure ()
  | n+1, p => do
    let m ← Routine.gets Mp.mem
    if m p = 0#8 then do
      mpProc p
      mpEntries n (p + 20#32)
    else if m p ≤ 4#8 then
      mpEntries n (p + 8#32)
    else
      Routine.modify fun s => { s with ismp := false }

/-- `mp_init`. -/
def mpInit : Routine Mp Unit := do
  Routine.modify fun s => { s with bootcpu := 0 }
  match (← mpconfig) with
  | none => pure ()
  | some (mp, conf) => do
    let m ← Routine.gets Mp.mem
    Routine.modify fun s => { s with ismp := true, lapicaddr := confLapicaddr m conf }
    mpEntries (confEntry m conf) (confEntries conf)
    Routine.modify Mp.startBoot
    let ismp ← Routine.gets Mp.ismp
    if ¬ ismp then
      Routine.modify fun s => { s with ncpu := 1, lapicaddr := 0#32 }
    else if mpImcrp m mp ≠ 0#8 then
      Routine.modify fun s => { s with imcrSelect := 0x70#8, imcr := s.imcr ||| 1#8 }
    else
      pure ()

end Init
end Sisop
