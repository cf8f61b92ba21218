import Sisop.KernelRuns
import Sisop.UserBytes

/-! A page fault that user code handles: the frame that `page_fault_handler` pushes,
`_pgfault_upcall` of `lib/pfentry.S`, and the way back to the instruction that faulted. -/
namespace Sisop

/-- The general-purpose registers but for the stack pointer. -/
structure Gpr where
  edi : Word
  esi : Word
  ebp : Word
  ebx : Word
  edx : Word
  ecx : Word
  eax : Word

/-- A program in user mode. `eflags` is what `pushfl` shows; `writable` says which bytes it
may write to. -/
structure UserState where
  gpr : Gpr
  esp : Word
  eip : Word
  eflags : Word
  mem : ByteMem
  writable : Word → Bool

/-- The registers that `_pgfault_upcall` names. -/
inductive UReg where
  | eax | ebx | esp

namespace UserState

def reg (s : UserState) : UReg → Word
  | .eax => s.gpr.eax
  | .ebx => s.gpr.ebx
  | .esp => s.esp

def setReg (s : UserState) (r : UReg) (w : Word) : UserState :=
  match r with
  | .eax => { s with gpr := { s.gpr with eax := w } }
  | .ebx => { s with gpr := { s.gpr with ebx := w } }
  | .esp => { s with esp := w }

/-- All of the `n` bytes from `a` on are writable. -/
def canWrite (s : UserState) (a : Word) (n : ℕ) : Bool :=
  (List.range n).all fun i => s.writable (a + BitVec.ofNat 32 i)

/-- A store of a word. It faults where a byte is not writable. -/
def store (s : UserState) (a w : Word) : Option UserState :=
  if s.canWrite a 4 then some { s with mem := storeWord s.mem a w } else none

/-- `pushl` of a value. -/
def push (s : UserState) (w : Word) : Option UserState :=
  (s.store (s.esp - 4#32) w).map fun s => { s with esp := s.esp - 4#32 }

end UserState

/-- `FL_CF`, `FL_PF`, `FL_AF`, `FL_ZF`, `FL_SF` and `FL_OF`, which arithmetic sets. -/
abbrev arithMask : Word := 0x8D5#32

/-- A flag at its place in `eflags`. -/
def flagBit (b : Bool) (i : ℕ) : Word := if b then BitVec.twoPow 32 i else 0#32

/-- The flags that tell the parity of the low byte of a result, whether it is zero, and its sign. -/
def resultFlags (r : Word) : Word :=
  flagBit ((List.range 8).foldl (fun even i => even != r.getLsbD i) true) 2 |||
    flagBit (r == 0#32) 6 ||| flagBit r.msb 7

def addFlags (a b : Word) : Word :=
  flagBit (decide (a + b < a)) 0 ||| flagBit ((a ^^^ b ^^^ (a + b)).getLsbD 4) 4 |||
    flagBit ((a ^^^ (a + b)) &&& (b ^^^ (a + b))).msb 11 ||| resultFlags (a + b)

def subFlags (a b : Word) : Word :=
  flagBit (decide (a < b)) 0 ||| flagBit ((a ^^^ b ^^^ (a - b)).getLsbD 4) 4 |||
    flagBit ((a ^^^ b) &&& (a ^^^ (a - b))).msb 11 ||| resultFlags (a - b)

def setFlags (flags arith : Word) : Word := (flags &&& ~~~arithMask) ||| (arith &&& arithMask)

/-- The flags that `popfl` sets in user mode: the arithmetic flags, `TF`, `DF`, `NT`, `AC` and
`ID`, and `IF` if `IOPL` is 3. -/
def popMask (flags : Word) : Word :=
  if flags &&& 0x3000#32 = 0x3000#32 then 0x244FD5#32 else 0x244DD5#32

def popFlags (flags w : Word) : Word := (w &&& popMask flags) ||| (flags &&& ~~~popMask flags)

/-- The instructions of `_pgfault_upcall`, operands in the order of the source. -/
inductive Instr where
  | pushl (r : UReg)
  | movlHandler (r : UReg)
  | call (r : UReg)
  | addl (k : Word) (r : UReg)
  | subl (k : Word) (r : UReg)
  | load (d : Word) (base r : UReg)
  | store (r : UReg) (d : Word) (base : UReg)
  | popal
  | popfl
  | popl (r : UReg)
  | ret

/-- Where the program is linked: the variable `_pgfault_handler`, and the instruction behind
the `call`. -/
structure UpcallLink where
  pgfaultHandler : Word
  back : Word

def Instr.exec (link : UpcallLink) (s : UserState) : Instr → Option UserState
  | pushl r => s.push (s.reg r)
  | movlHandler r => some (s.setReg r (loadWord s.mem link.pgfaultHandler))
  | call r => (s.push link.back).map fun t => { t with eip := s.reg r }
  | addl k r =>
    let a := s.reg r
    some { s.setReg r (a + k) with eflags := setFlags s.eflags (addFlags a k) }
  | subl k r =>
    let a := s.reg r
    some { s.setReg r (a - k) with eflags := setFlags s.eflags (subFlags a k) }
  | load d base r => some (s.setReg r (loadWord s.mem (s.reg base + d)))
  | store r d base => s.store (s.reg base + d) (s.reg r)
  | popal =>
    let word (i : Word) := loadWord s.mem (s.esp + i)
    some { s with
      gpr := ⟨word 0#32, word 4#32, word 8#32, word 16#32, word 20#32, word 24#32, word 28#32⟩
      esp := s.esp + 32#32 }
  | popfl => some { s with eflags := popFlags s.eflags (loadWord s.mem s.esp), esp := s.esp + 4#32 }
  | popl r => some ({ s with esp := s.esp + 4#32 }.setReg r (loadWord s.mem s.esp))
  | ret => some { s with eip := loadWord s.mem s.esp, esp := s.esp + 4#32 }

def execAll (link : UpcallLink) : List Instr → UserState → Option UserState
  | [], s => some s
  | i :: is, s => (i.exec link s).bind (execAll link is)

/-- `_pgfault_upcall` up to the call of the handler. -/
def upcallEntry : List Instr := [.pushl .esp, .movlHandler .eax, .call .eax]

/-- `_pgfault_upcall` from the return of the handler on. -/
def upcallExit : List Instr :=
  [.addl 4#32 .esp, .load 40#32 .esp .eax, .load 48#32 .esp .ebx, .subl 4#32 .ebx,
    .store .ebx 48#32 .esp, .store .eax 0#32 .ebx, .addl 8#32 .esp, .popal, .addl 4#32 .esp,
    .popfl, .popl .esp, .ret]

/-- The frame `tf` holds the registers of the program. -/
structure Saves (tf : Trapframe) (s : UserState) : Prop where
  edi : tf.tfRegs.regEdi = s.gpr.edi
  esi : tf.tfRegs.regEsi = s.gpr.esi
  ebp : tf.tfRegs.regEbp = s.gpr.ebp
  ebx : tf.tfRegs.regEbx = s.gpr.ebx
  edx : tf.tfRegs.regEdx = s.gpr.edx
  ecx : tf.tfRegs.regEcx = s.gpr.ecx
  eax : tf.tfRegs.regEax = s.gpr.eax
  eip : tf.tfEip = s.eip
  eflags : tf.tfEflags = s.eflags
  esp : tf.tfEsp = s.esp

/-- What `page_fault_handler` does to the program, if `user_mem_assert` lets it. -/
def pushUtf (faultVa : Word) (tf : Trapframe) (upcall : Word) (s : UserState) : Option UserState :=
  if s.canWrite (utfAddr tf.tfEsp) 52 then
    some { s with
      mem := writeBytes s.mem (utfAddr tf.tfEsp) (wordBytes (utrapframe faultVa tf))
      eip := upcall
      esp := utfAddr tf.tfEsp }
  else none

/-- From the fault to the first instruction of the handler in C. -/
def enterHandler (link : UpcallLink) (faultVa : Word) (tf : Trapframe) (upcall : Word)
    (s : UserState) : Option UserState :=
  (pushUtf faultVa tf upcall s).bind (execAll link upcallEntry)

section RoundTrip

variable {s s' s₁ s₂ : UserState} {link : UpcallLink} {tf : Trapframe} {a u faultVa upcall : Word}
  {n : ℕ}

theorem UserState.canWrite_of (h : ∀ x, InSpan a n x → s.writable x = true) (hn : n ≤ 2^32) :
    s.canWrite a n = true := by
  unfold canWrite
  rw [List.all_eq_true]
  intro i hi
  rw [List.mem_range] at hi
  apply h
  unfold InSpan
  bv_omega

theorem UserState.store_eq (w : Word) (h : ∀ x, InSpan a 4 x → s.writable x = true) :
    s.store a w = some { s with mem := storeWord s.mem a w } := by
  unfold store
  rw [if_pos (canWrite_of h (by decide))]

/-- The flags that a program cannot change. -/
def SameSystem (flags flags' : Word) : Prop := flags' &&& ~~~popMask flags = flags &&& ~~~popMask flags

theorem popMask_iopl (flags : Word) : ~~~popMask flags &&& 0x3000#32 = 0x3000#32 := by
  unfold popMask
  split <;> decide

theorem SameSystem.popMask_eq {flags flags' : Word} (h : SameSystem flags flags') :
    popMask flags' = popMask flags := by
  have hiopl : flags' &&& 0x3000#32 = flags &&& 0x3000#32 := by
    calc flags' &&& 0x3000#32 = (flags' &&& ~~~popMask flags) &&& 0x3000#32 := by
          rw [BitVec.and_assoc, popMask_iopl]
      _ = (flags &&& ~~~popMask flags) &&& 0x3000#32 := by rw [h]
      _ = flags &&& 0x3000#32 := by rw [BitVec.and_assoc, popMask_iopl]
  unfold popMask
  rw [hiopl]

theorem SameSystem.refl (flags : Word) : SameSystem flags flags := rfl

theorem SameSystem.trans {f g h : Word} (h1 : SameSystem f g) (h2 : SameSystem g h) :
    SameSystem f h := by
  unfold SameSystem at h1 h2 ⊢
  rw [SameSystem.popMask_eq h1] at h2
  rw [h2, h1]

theorem sameSystem_setFlags (flags arith : Word) : SameSystem flags (setFlags flags arith) := by
  have hclear : arithMask &&& ~~~popMask flags = 0#32 := by
    unfold popMask
    split <;> decide
  have hkeep : ~~~arithMask &&& ~~~popMask flags = ~~~popMask flags := by
    unfold popMask
    split <;> decide
  calc setFlags flags arith &&& ~~~popMask flags
      = (flags &&& (~~~arithMask &&& ~~~popMask flags)) ||| (arith &&& (arithMask &&& ~~~popMask flags)) := by
        unfold setFlags
        rw [BitVec.and_comm, BitVec.and_or_distrib_left, BitVec.and_comm, BitVec.and_assoc,
          BitVec.and_comm _ (arith &&& arithMask), BitVec.and_assoc]
    _ = flags &&& ~~~popMask flags := by rw [hkeep, hclear, BitVec.and_zero, BitVec.or_zero]

/-- `popfl` brings back the flags of the trap. -/
theorem SameSystem.popFlags {flags flags' : Word} (h : SameSystem flags flags') :
    Sisop.popFlags flags' flags = flags := by
  unfold Sisop.popFlags
  rw [h.popMask_eq, h]
  apply BitVec.eq_of_getLsbD_eq
  intro i hi
  simp only [BitVec.getLsbD_or, BitVec.getLsbD_and, BitVec.getLsbD_not]
  grind

/-- The words of the frame are in memory, from `u` on. -/
def FrameAt (m : ByteMem) (u faultVa : Word) (tf : Trapframe) : Prop :=
  ∀ j (hj : j < 13), loadWord m (u + BitVec.ofNat 32 (4 * j)) = (utrapframe faultVa tf)[j]

/-- Once the handler has returned, the rest of `_pgfault_upcall` goes back to the trap. -/
theorem upcallExit_run (hesp : s.esp = u - 4#32) (hframe : FrameAt s.mem u faultVa tf)
    (hsys : SameSystem tf.tfEflags s.eflags)
    (hslot : ∀ x, InSpan (u + 48#32) 4 x → s.writable x = true)
    (hblank : ∀ x, InSpan (tf.tfEsp - 4#32) 4 x → s.writable x = true)
    (hapart : ∀ j < 13, WordsApart (u + BitVec.ofNat 32 (4 * j)) (tf.tfEsp - 4#32)) :
    execAll link upcallExit s = some { s with
      gpr := ⟨tf.tfRegs.regEdi, tf.tfRegs.regEsi, tf.tfRegs.regEbp, tf.tfRegs.regEbx,
        tf.tfRegs.regEdx, tf.tfRegs.regEcx, tf.tfRegs.regEax⟩
      esp := tf.tfEsp
      eip := tf.tfEip
      eflags := tf.tfEflags
      mem := storeWord (storeWord s.mem (u + 48#32) (tf.tfEsp - 4#32)) (tf.tfEsp - 4#32) tf.tfEip } := by
  have hu : u - 4#32 + 4#32 = u := BitVec.sub_add_cancel ..
  have heip : loadWord s.mem (u + 40#32) = tf.tfEip := hframe 10 (by decide)
  have hsp : loadWord s.mem (u + 48#32) = tf.tfEsp := hframe 12 (by decide)
  simp only [upcallExit, execAll, Instr.exec, UserState.reg, UserState.setReg, Option.bind_some,
    hesp, hu, heip, hsp]
  rw [UserState.store_eq, Option.bind_some, BitVec.add_zero, UserState.store_eq, Option.bind_some]
  rotate_left
  · exact hblank
  · exact hslot
  generalize hm : storeWord (storeWord s.mem (u + 48#32) (tf.tfEsp - 4#32)) (tf.tfEsp - 4#32)
    tf.tfEip = m
  -- the two stores leave the first twelve words of the frame alone
  have hword (j : ℕ) (hj : j < 13) (hne : j ≠ 12) : loadWord m (u + BitVec.ofNat 32 (4 * j)) =
      (utrapframe faultVa tf)[j] := by
    rw [← hm, loadWord_storeWord_apart (hapart j hj), loadWord_storeWord_apart]
    · exact hframe j hj
    · unfold WordsApart
      bv_omega
  have hesp' : loadWord m (u + 48#32) = tf.tfEsp - 4#32 := by
    rw [← hm, loadWord_storeWord_apart (hapart 12 (by decide)), loadWord_storeWord]
  have heip' : loadWord m (tf.tfEsp - 4#32) = tf.tfEip := by
    rw [← hm, loadWord_storeWord]
  have hflags : SameSystem tf.tfEflags (setFlags (setFlags (setFlags (setFlags s.eflags
      (addFlags (u - 4#32) 4#32)) (subFlags tf.tfEsp 4#32)) (addFlags u 8#32))
      (addFlags (u + (8#32 + 32#32)) 4#32)) := by
    apply (((hsys.trans (sameSystem_setFlags _ _)).trans (sameSystem_setFlags _ _)).trans
      (sameSystem_setFlags _ _)).trans
    exact sameSystem_setFlags _ _
  have hadd (a b : Word) : u + a + b = u + (a + b) := BitVec.add_assoc u a b
  simp only [hadd]
  have hefl : loadWord m (u + (8#32 + 32#32 + 4#32)) = tf.tfEflags := hword 11 (by decide) (by decide)
  have hpop : loadWord m (u + (8#32 + 32#32 + 4#32 + 4#32)) = tf.tfEsp - 4#32 := hesp'
  rw [hefl, hpop, heip', hflags.popFlags, BitVec.sub_add_cancel]
  have hedi : loadWord m (u + (8#32 + 0#32)) = tf.tfRegs.regEdi := hword 2 (by decide) (by decide)
  have hesi : loadWord m (u + (8#32 + 4#32)) = tf.tfRegs.regEsi := hword 3 (by decide) (by decide)
  have hebp : loadWord m (u + (8#32 + 8#32)) = tf.tfRegs.regEbp := hword 4 (by decide) (by decide)
  have hebx : loadWord m (u + (8#32 + 16#32)) = tf.tfRegs.regEbx := hword 6 (by decide) (by decide)
  have hedx : loadWord m (u + (8#32 + 20#32)) = tf.tfRegs.regEdx := hword 7 (by decide) (by decide)
  have hecx : loadWord m (u + (8#32 + 24#32)) = tf.tfRegs.regEcx := hword 8 (by decide) (by decide)
  have heax : loadWord m (u + (8#32 + 28#32)) = tf.tfRegs.regEax := hword 9 (by decide) (by decide)
  rw [hedi, hesi, hebp, hebx, hedx, hecx, heax]

/-- The page of the exception stack. -/
def InXstack (x : Word) : Prop := uxstacktop - 4096#32 ≤ x ∧ x < uxstacktop

/-- What a part of a handler whose frame is at `u` leaves as it is: the frame and the stack above
it, the flags of the system, access to the addresses in `held`, and the contents of those in
`keep` outside the exception stack. -/
structure Keeps (held keep : Word → Prop) (u : Word) (s s' : UserState) : Prop where
  stack : ∀ x, u ≤ x → x < uxstacktop → s'.mem x = s.mem x
  rest : ∀ x, keep x → ¬ InXstack x → s'.mem x = s.mem x
  system : SameSystem s.eflags s'.eflags
  access : ∀ x, held x → s.writable x = true → s'.writable x = true

/-- A fault of the handler whose frame is at `u`: the stack pointer is in its part of the
exception stack, with room for another frame and for the call of the handler. -/
def FaultsInside (u : Word) (s : UserState) : Prop :=
  uxstacktop - 4096#32 + 64#32 ≤ s.esp ∧ s.esp ≤ u - 8#32

/-- The handler has returned to `_pgfault_upcall`, whose frame is at `u`. -/
def Returned (link : UpcallLink) (u : Word) (s : UserState) : Prop :=
  s.eip = link.back ∧ s.esp = u - 4#32

/-- The runs of a handler whose frame is at `u`. Its own instructions do what they like, but
for what `Keeps` says; where it faults, it is interrupted by the whole of another page fault,
with a handler of the same kind. -/
inductive HandlerRun (link : UpcallLink) (upcall : Word) (held keep : Word → Prop) :
    Word → UserState → UserState → Prop
  | start (u : Word) (s : UserState) : HandlerRun link upcall held keep u s s
  | own {u : Word} {s t t' : UserState} (hr : HandlerRun link upcall held keep u s t)
      (hk : Keeps held keep u t t') : HandlerRun link upcall held keep u s t'
  | fault {u faultVa : Word} {tf : Trapframe} {s t t₁ t₂ t₃ : UserState}
      (hr : HandlerRun link upcall held keep u s t) (hf : FaultsInside u t) (htf : Saves tf t)
      (henter : enterHandler link faultVa tf upcall t = some t₁)
      (hrun : HandlerRun link upcall held keep (utfAddr t.esp) t₁ t₂)
      (hret : Returned link (utfAddr t.esp) t₂)
      (hexit : execAll link upcallExit t₂ = some t₃) : HandlerRun link upcall held keep u s t₃

variable {held keep : Word → Prop}

theorem Keeps.refl (u : Word) (s : UserState) : Keeps held keep u s s :=
  ⟨fun _ _ _ => rfl, fun _ _ _ => rfl, SameSystem.refl _, fun _ _ h => h⟩

theorem Keeps.trans {t : UserState} (h : Keeps held keep u s t) (h' : Keeps held keep u t s') :
    Keeps held keep u s s' where
  stack x h1 h2 := (h'.stack x h1 h2).trans (h.stack x h1 h2)
  rest x hk hx := (h'.rest x hk hx).trans (h.rest x hk hx)
  system := h.system.trans h'.system
  access x hx hw := h'.access x hx (h.access x hx hw)

/-- A fault that `page_fault_handler` can push a frame for: the stack pointer is at most
`USTACKTOP`, or in the exception stack with room for a frame and the call of the handler;
the exception stack and the word below the stack pointer are writable. -/
structure TrapOk (s : UserState) : Prop where
  place : s.esp ≤ ustacktop ∨ uxstacktop - 4096#32 + 64#32 ≤ s.esp ∧ s.esp < uxstacktop
  stack : ∀ x, InXstack x → s.writable x = true
  below : ∀ x, InSpan (s.esp - 4#32) 4 x → s.writable x = true

/-- Back where the fault was: the registers are as they were, and so is the memory, outside
the exception stack below the top of the frame and the word below the stack pointer. -/
structure BackAtTrap (keep : Word → Prop) (s s' : UserState) : Prop where
  gpr : s'.gpr = s.gpr
  eflags : s'.eflags = s.eflags
  eip : s'.eip = s.eip
  esp : s'.esp = s.esp
  mem : ∀ x, (keep x ∨ InXstack x) → ¬ (InXstack x ∧ x < utfAddr s.esp + utfSize) →
    ¬ InSpan (s.esp - 4#32) 4 x → s'.mem x = s.mem x

theorem inXstack_iff (x : Word) : InXstack x ↔ 0xEEBFF000 ≤ x.toNat ∧ x.toNat < 0xEEC00000 := by
  have h : uxstacktop - 4096#32 = 0xEEBFF000#32 := by decide
  unfold InXstack
  rw [h, BitVec.le_def, BitVec.lt_def]
  rfl

/-- Where the new frame is: at the top of the exception stack, or below the stack pointer with
a blank word between. -/
theorem TrapOk.frame_place (h : TrapOk s) : 0xEEBFF008 ≤ (utfAddr s.esp).toNat ∧
    (utfAddr s.esp).toNat + 52 ≤ 0xEEC00000 ∧
    (s.esp.toNat ≤ 0xEEBFE000 ∨ s.esp = utfAddr s.esp + 56#32) := by
  have hlow : uxstacktop - 4096#32 = 0xEEBFF000#32 := by decide
  have hplace := h.place
  unfold utfAddr
  rw [hlow] at hplace ⊢
  rcases hplace with hp | ⟨h1, h2⟩
  · have hout : ¬ (0xEEBFF000#32 ≤ s.esp ∧ s.esp < uxstacktop) := by
      rintro ⟨h1, -⟩
      simp only [ustacktop] at hp
      bv_omega
    rw [if_neg hout]
    have htop : (uxstacktop - utfSize).toNat = 0xEEBFFFCC := by decide
    rw [htop]
    have hesp : s.esp.toNat ≤ 0xEEBFE000 := by
      rw [BitVec.le_def] at hp
      exact hp
    omega
  · have hin : 0xEEBFF000#32 ≤ s.esp ∧ s.esp < uxstacktop := by
      refine ⟨?_, h2⟩
      bv_omega
    rw [if_pos hin]
    simp only [uxstacktop, utop, uenvs, utfSize] at h2 ⊢
    refine ⟨?_, ?_, Or.inr ?_⟩
    · bv_omega
    · bv_omega
    · bv_omega

/-- The bytes of the frame and the two words below it are on the exception stack. -/
theorem TrapOk.inXstack (h : TrapOk s) {x : Word} (hx : InSpan (utfAddr s.esp - 8#32) 60 x) :
    InXstack x ∧ x < utfAddr s.esp + utfSize := by
  obtain ⟨h1, h2, -⟩ := h.frame_place
  rw [inXstack_iff]
  unfold InSpan at hx
  generalize utfAddr s.esp = u at h1 h2 hx ⊢
  refine ⟨?_, ?_⟩
  · bv_omega
  · bv_omega

/-- The kernel and the entry of `_pgfault_upcall`: the frame is there, and nothing else has
changed but the two words that the call of the handler pushes. -/
theorem TrapOk.enter (h : TrapOk s) (ht : Saves tf s) (link : UpcallLink) (faultVa upcall : Word) :
    ∃ s₁, enterHandler link faultVa tf upcall s = some s₁ ∧
      FrameAt s₁.mem (utfAddr s.esp) faultVa tf ∧ s₁.esp = utfAddr s.esp - 8#32 ∧
      s₁.eflags = s.eflags ∧ s₁.writable = s.writable ∧
      ∀ x, ¬ (InXstack x ∧ x < utfAddr s.esp + utfSize) → s₁.mem x = s.mem x := by
  have hplace := h.frame_place
  have hin (x : Word) (hx : InSpan (utfAddr s.esp - 8#32) 60 x) := h.inXstack hx
  have hwrite (x : Word) (hx : InSpan (utfAddr s.esp - 8#32) 60 x) : s.writable x = true :=
    h.stack x (hin x hx).1
  generalize hu : utfAddr s.esp = u at *
  have hcan : s.canWrite u 52 = true := by
    refine UserState.canWrite_of (fun x hx => hwrite x ?_) (by decide)
    unfold InSpan at hx ⊢
    bv_omega
  unfold enterHandler pushUtf
  rw [ht.esp, hu, if_pos hcan, Option.bind_some]
  simp only [upcallEntry, execAll, Instr.exec, UserState.push, UserState.reg, UserState.setReg]
  have hfour : u - 4#32 - 4#32 = u - 8#32 := by bv_omega
  rw [UserState.store_eq]
  rotate_left
  · intro x hx
    apply hwrite
    unfold InSpan at hx ⊢
    bv_omega
  simp only [Option.map_some, Option.bind_some, hfour]
  rw [UserState.store_eq]
  rotate_left
  · intro x hx
    apply hwrite
    unfold InSpan at hx ⊢
    bv_omega
  simp only [Option.map_some, Option.bind_some]
  refine ⟨_, rfl, ?_, hfour, rfl, rfl, ?_⟩
  · intro j hj
    change loadWord (storeWord (storeWord (writeBytes s.mem u (wordBytes (utrapframe faultVa tf)))
      (u - 4#32) u) (u - 8#32) link.back) (u + BitVec.ofNat 32 (4 * j)) = _
    rw [loadWord_storeWord_apart, loadWord_storeWord_apart]
    · exact loadWord_writeBytes s.mem u (utrapframe faultVa tf) j hj (show 4 * 13 < 2^32 by decide)
    · unfold WordsApart
      bv_omega
    · unfold WordsApart
      bv_omega
  · intro x hx
    have hout : ¬ InSpan (u - 8#32) 60 x := fun hspan => hx (hin x hspan)
    unfold InSpan at hout
    change storeWord (storeWord (writeBytes s.mem u (wordBytes (utrapframe faultVa tf)))
      (u - 4#32) u) (u - 8#32) link.back x = s.mem x
    rw [storeWord_of_not_inSpan, storeWord_of_not_inSpan, writeBytes_of_not_inSpan]
    · have hlen : (wordBytes (utrapframe faultVa tf)).length = 52 := wordBytes_length _
      rw [hlen]
      unfold InSpan
      bv_omega
    · unfold InSpan
      bv_omega
    · unfold InSpan
      bv_omega

/-- One page fault, from the trap to the instruction that faulted. -/
theorem TrapOk.round_trip (h : TrapOk s) (ht : Saves tf s)
    (hstack : ∀ x, InXstack x → held x) (hbelow : ∀ x, InSpan (s.esp - 4#32) 4 x → held x)
    (henter : enterHandler link faultVa tf upcall s = some s₁)
    (hk : Keeps held keep (utfAddr s.esp) s₁ s₂) (hret : Returned link (utfAddr s.esp) s₂) :
    ∃ s₃, execAll link upcallExit s₂ = some s₃ ∧ BackAtTrap keep s s₃ ∧
      ∀ x, held x → s.writable x = true → s₃.writable x = true := by
  obtain ⟨t, ht₁, hframe, -, hflags, hwritable, hmem⟩ := h.enter ht link faultVa upcall
  obtain rfl : t = s₁ := Option.some.inj (ht₁.symm.trans henter)
  obtain ⟨h1, h2, h3⟩ := h.frame_place
  have hin (x : Word) (hx : InSpan (utfAddr s.esp - 8#32) 60 x) := h.inXstack hx
  have haccess (x : Word) (hx : held x) (hw : s.writable x = true) : s₂.writable x = true := by
    apply hk.access x hx
    rw [hwritable]
    exact hw
  generalize hu : utfAddr s.esp = u at *
  have hframe₂ : FrameAt s₂.mem u faultVa tf := by
    intro j hj
    rw [← hframe j hj]
    apply loadWord_congr
    intro i hi
    apply hk.stack
    · bv_omega
    · simp only [uxstacktop, utop, uenvs]
      bv_omega
  have hslot (x : Word) (hx : InSpan (u + 48#32) 4 x) : s₂.writable x = true := by
    have hxs : InXstack x := by
      apply (hin x _).1
      unfold InSpan at hx ⊢
      bv_omega
    exact haccess x (hstack x hxs) (h.stack x hxs)
  have hblank (x : Word) (hx : InSpan (tf.tfEsp - 4#32) 4 x) : s₂.writable x = true := by
    rw [ht.esp] at hx
    exact haccess x (hbelow x hx) (h.below x hx)
  have hapart (j : ℕ) (hj : j < 13) : WordsApart (u + BitVec.ofNat 32 (4 * j)) (tf.tfEsp - 4#32) := by
    rw [ht.esp]
    unfold WordsApart
    rcases h3 with h3 | h3
    · bv_omega
    · rw [h3]
      bv_omega
  have hsys : SameSystem tf.tfEflags s₂.eflags := by
    rw [ht.eflags, ← hflags]
    exact hk.system
  refine ⟨_, upcallExit_run hret.2 hframe₂ hsys hslot hblank hapart, ?_, haccess⟩
  constructor
  · change Gpr.mk _ _ _ _ _ _ _ = s.gpr
    rw [ht.edi, ht.esi, ht.ebp, ht.ebx, ht.edx, ht.ecx, ht.eax]
  · exact ht.eflags
  · exact ht.eip
  · exact ht.esp
  · intro x hkeep hx hword
    change storeWord (storeWord s₂.mem (u + 48#32) (tf.tfEsp - 4#32)) (tf.tfEsp - 4#32) tf.tfEip x = _
    rw [hu] at hx
    rw [ht.esp, storeWord_of_not_inSpan hword, storeWord_of_not_inSpan]
    · rw [← hmem x hx]
      by_cases hxs : InXstack x
      · apply hk.stack x
        · have hge : ¬ x < u + utfSize := fun hlt => hx ⟨hxs, hlt⟩
          simp only [utfSize] at hge
          bv_omega
        · exact hxs.2
      · exact hk.rest x (hkeep.resolve_right hxs) hxs
    · intro hspan
      apply hx
      apply hin
      unfold InSpan at hspan ⊢
      bv_omega

/-- A fault inside a handler is one that the kernel can push a frame for, and that frame is
below the one of the handler. -/
theorem FaultsInside.trapOk (hf : FaultsInside u s) (hu : 8 ≤ u.toNat ∧ u.toNat ≤ 0xEEC00000)
    (hw : ∀ x, InXstack x → s.writable x = true) : TrapOk s := by
  have hlow : uxstacktop - 4096#32 + 64#32 = 0xEEBFF040#32 := by decide
  obtain ⟨h1, h2⟩ := hf
  have hlt : s.esp < uxstacktop := by
    simp only [uxstacktop, utop, uenvs]
    bv_omega
  refine ⟨Or.inr ⟨h1, hlt⟩, hw, fun x hx => hw x ?_⟩
  rw [hlow] at h1
  rw [inXstack_iff]
  unfold InSpan at hx
  constructor
  · bv_omega
  · bv_omega

/-- What a handler does itself, and the faults in it at any depth, keep its frame, the stack
above it, and the flags of the system. -/
theorem HandlerRun.keeps (hstack : ∀ x, InXstack x → held x)
    (hr : HandlerRun link upcall held keep u s s') (hu : 8 ≤ u.toNat ∧ u.toNat ≤ 0xEEC00000)
    (hw : ∀ x, InXstack x → s.writable x = true) : Keeps held keep u s s' := by
  induction hr with
  | start u s => exact Keeps.refl u s
  | own hr hk ih => exact (ih hu hw).trans hk
  | @fault u faultVa tf s t t₁ t₂ t₃ hr hf htf henter hrun hret hexit ih ihrun =>
    have hkt := ih hu hw
    have hwt (x : Word) (hx : InXstack x) : t.writable x = true := hkt.access x (hstack x hx) (hw x hx)
    have hok := hf.trapOk hu hwt
    obtain ⟨hp1, hp2, hp3⟩ := hok.frame_place
    obtain ⟨t', ht', -, -, -, hwritable, -⟩ := hok.enter htf link faultVa upcall
    obtain rfl : t' = t₁ := Option.some.inj (ht'.symm.trans henter)
    have hk := ihrun ⟨by omega, by omega⟩ fun x hx => by
      rw [hwritable]
      exact hwt x hx
    obtain ⟨h1, h2⟩ := hf
    have hlow : uxstacktop - 4096#32 + 64#32 = 0xEEBFF040#32 := by decide
    rw [hlow] at h1
    have hbelow (x : Word) (hx : InSpan (t.esp - 4#32) 4 x) : InXstack x := by
      rw [inXstack_iff]
      unfold InSpan at hx
      constructor
      · bv_omega
      · bv_omega
    obtain ⟨t₃', ht₃, hres, hacc⟩ := hok.round_trip htf hstack (fun x hx => hstack x (hbelow x hx)) henter hk hret
    obtain rfl : t₃' = t₃ := Option.some.inj (ht₃.symm.trans hexit)
    apply hkt.trans
    have hesp : t.esp = utfAddr t.esp + 56#32 := by
      rcases hp3 with hp3 | hp3
      · bv_omega
      · exact hp3
    constructor
    · intro x hx1 hx2
      -- the inner frame and its blank word are below the outer frame
      have hx3 : x.toNat < 0xEEC00000 := hx2
      apply hres.mem x
      · right
        rw [inXstack_iff]
        constructor
        · bv_omega
        · exact hx3
      · rintro ⟨-, hlt⟩
        simp only [utfSize] at hlt
        generalize utfAddr t.esp = v at *
        bv_omega
      · unfold InSpan
        bv_omega
    · intro x hkeep hx
      apply hres.mem x (Or.inl hkeep)
      · exact fun hin => hx hin.1
      · exact fun hspan => hx (hbelow x hspan)
    · rw [hres.eflags]
      exact SameSystem.refl _
    · exact hacc

/-- A program that faults on its normal stack. -/
def userFault : UserState where
  gpr := ⟨1, 2, 3, 4, 5, 6, 7⟩
  esp := 0xEEBFDF00#32
  eip := 0x800020#32
  eflags := 0x246#32
  mem _ := 0
  writable _ := true

def userFaultTf : Trapframe where
  tfRegs := ⟨1, 2, 3, 0, 4, 5, 6, 7⟩
  tfEs := 0x23
  tfDs := 0x23
  tfTrapno := 14
  tfErr := 7
  tfEip := 0x800020#32
  tfCs := 0x1b
  tfEflags := 0x246#32
  tfEsp := 0xEEBFDF00#32
  tfSs := 0x23

def userLink : UpcallLink := ⟨0x802000#32, 0x800108#32⟩

theorem userFault_trapOk : TrapOk userFault :=
  ⟨Or.inl (by decide), fun _ _ => rfl, fun _ _ => rfl⟩

theorem userFault_saves : Saves userFaultTf userFault := ⟨rfl, rfl, rfl, rfl, rfl, rfl, rfl, rfl, rfl, rfl⟩

end RoundTrip
end Sisop
