import Sisop.MapSegment

/-! `init_stack` of `lib/spawn.c`, which lays out the arguments of a program on its stack page. The page is filled at
`UTEMP`, with 32-bit pointers; a store outside of it fails. -/
namespace Sisop

/-- `UTEMP`. -/
abbrev utempAddr : Word := 0x400000#32

/-- `-E_NO_MEM`. -/
abbrev eNoMem : ℤ := -4

/-- `UTEMP2USTACK(addr)`. -/
def utemp2ustack (addr : Word) : Word := addr + (ustacktop - 4096#32) - utempAddr

/-- A store to the page at `UTEMP`. -/
def storeUtemp (m : Bytes) (a : Word) (bs : List (BitVec 8)) : Option Bytes :=
  if utempAddr.toNat ≤ a.toNat ∧ a.toNat + bs.length ≤ utempAddr.toNat + pgsize then
    some (putBytes m (a.toNat - utempAddr.toNat) bs) else none

/-- What the page system calls of `init_stack` return. To unmap an own page does not fail. -/
structure StackCalls where
  alloc : Except ℤ ℕ
  map : Except ℤ Unit

section Source

/-- `string_size`, of strings that are given without their NUL. -/
def stringSize (argv : List (List (BitVec 8))) : Word :=
  argv.foldl (fun n str => n + (BitVec.ofNat 32 str.length + 1#32)) 0#32

/-- `string_store`, before the loop. -/
def stringStore (argv : List (List (BitVec 8))) : Word := utempAddr + 4096#32 - stringSize argv

/-- `argv_store`. -/
def argvStore (argv : List (List (BitVec 8))) : Word :=
  stringStore argv - stringStore argv % 4#32 - 4#32 * (BitVec.ofNat 32 argv.length + 1#32)

/-- The loop, which returns `string_store` as well. `a` is `&argv_store[i]`. -/
def storeArgs (m : Bytes) (a string_store : Word) : List (List (BitVec 8)) → Option (Bytes × Word)
  | [] => some (m, string_store)
  | str :: rest => do
    let m ← storeUtemp m a (wordBytes [utemp2ustack string_store])
    let m ← storeUtemp m string_store (str ++ [0#8])
    storeArgs m (a + 4#32) (string_store + (BitVec.ofNat 32 str.length + 1#32)) rest

/-- The stores behind the loop. -/
def storeWords (m : Bytes) (argv : List (List (BitVec 8))) (string_store : Word) : Option Bytes := do
  let m ← storeUtemp m (argvStore argv + 4#32 * BitVec.ofNat 32 argv.length) (wordBytes [0#32])
  -- `assert(string_store == (char *) UTEMP + PGSIZE)`
  if string_store = utempAddr + 4096#32 then
    let m ← storeUtemp m (argvStore argv - 4#32) (wordBytes [utemp2ustack (argvStore argv)])
    storeUtemp m (argvStore argv - 8#32) (wordBytes [BitVec.ofNat 32 argv.length])
  else none

/-- The stores to the stack page. -/
def fillStack (m : Bytes) (argv : List (List (BitVec 8))) : Option Bytes := do
  let (m, string_store) ← storeArgs m (argvStore argv) (stringStore argv) argv
  storeWords m argv string_store

/-- `init_stack(child, argv, init_esp)`, which returns the stack pointer or an error. -/
def PageSys.initStack (calls : StackCalls) (s : PageSys) (argv : List (List (BitVec 8))) : Option (Except ℤ Word × PageSys) :=
  if argvStore argv - 8#32 < utempAddr then some (.error eNoMem, s)
  else match calls.alloc with
    | .error r => some (.error r, s)
    | .ok q => do
      let s := s.pageAlloc .caller utempPage q (pteP ||| pteU ||| pteW)
      let m ← fillStack (s.byte q) argv
      let s := s.setByte q m
      match calls.map with
      | .error r => some (.error r, s.pageUnmap .caller utempPage)
      | .ok () => do
        let s ← s.pageMap .caller utempPage .child ustackPage (pteP ||| pteU ||| pteW)
        some (.ok (utemp2ustack (argvStore argv - 8#32)), s.pageUnmap .caller utempPage)

end Source

/-- `USTACKTOP - PGSIZE`. -/
abbrev stackBase : ℕ := 0xEEBFD000

/-- `n` bytes at `a` are on the stack page. -/
def OnStack (a : Word) (n : ℕ) : Prop := stackBase ≤ a.toNat ∧ a.toNat + n ≤ stackBase + pgsize

/-- A string with its NUL, at `a`. -/
def StringAt (m : Bytes) (a : Word) (str : List (BitVec 8)) : Prop :=
  OnStack a (str.length + 1) ∧ ∀ k, (h : k < (str ++ [0#8]).length) → m (a.toNat - stackBase + k) = (str ++ [0#8])[k]

/-- What a program finds on its stack page: `argc`, and `argv`, which points to the pointers to the strings. -/
structure StackPage (m : Bytes) (argv : List (List (BitVec 8))) (esp p : Word) : Prop where
  onStack : OnStack esp 8
  count : getWord m (esp.toNat - stackBase) = BitVec.ofNat 32 argv.length
  array : getWord m (esp.toNat - stackBase + 4) = p
  arrayOnStack : OnStack p (4 * (argv.length + 1))
  null : getWord m (p.toNat - stackBase + 4 * argv.length) = 0#32
  strings : ∀ i, (h : i < argv.length) → StringAt m (getWord m (p.toNat - stackBase + 4 * i)) argv[i]

/-- What the strings take up, with their NULs. -/
def stringBytes (argv : List (List (BitVec 8))) : ℕ := (argv.map fun str => str.length + 1).sum

/-- The strings, the array of pointers and the two words fit in one page. -/
def FitsPage (argv : List (List (BitVec 8))) : Prop := stringBytes argv + 4 * (argv.length + 1) + 8 ≤ pgsize

/-- What is needed of the page, with the padding below the strings. -/
def stackNeed (argv : List (List (BitVec 8))) : ℕ := (stringBytes argv + 3) / 4 * 4 + 4 * (argv.length + 1) + 8

/-- What `init_stack` should do, whatever the system calls return: no store goes outside the page, and the arguments can be
read back. It returns `-E_NO_MEM` where they do not fit. -/
structure PageSys.InitStackOk (calls : StackCalls) (s : PageSys) (argv : List (List (BitVec 8))) : Prop where
  inside : ∃ r s', s.initStack calls argv = some (r, s')
  error : ∀ e s', s.initStack calls argv = some (.error e, s') → e < 0
  ok : ∀ esp s', s.initStack calls argv = some (.ok esp, s') → ∃ m p, s'.read .child ustackPage = some m ∧ StackPage m argv esp p
  noMem : (∃ q, calls.alloc = .ok q) → calls.map = .ok () →
    ((∃ s', s.initStack calls argv = some (.error eNoMem, s')) ↔ ¬ FitsPage argv)

/-- Errors are negative. -/
structure StackCalls.Valid (calls : StackCalls) : Prop where
  alloc : ∀ e, calls.alloc = .error e → e < 0
  map : ∀ e, calls.map = .error e → e < 0

section Layout

variable {m m' : Bytes} {a b : Word} {bs str : List (BitVec 8)} {argv : List (List (BitVec 8))} {off off' k : ℕ}

/-- The string size is counted in 32 bits. -/
theorem foldl_size (n : Word) (argv : List (List (BitVec 8))) :
    argv.foldl (fun n str => n + (BitVec.ofNat 32 str.length + 1#32)) n = n + BitVec.ofNat 32 (stringBytes argv) := by
  induction argv generalizing n with
  | nil => exact (BitVec.add_zero n).symm
  | cons str argv ih =>
    have hcons : stringBytes (str :: argv) = str.length + 1 + stringBytes argv := rfl
    rw [List.foldl_cons, ih, hcons, BitVec.ofNat_add, BitVec.ofNat_add, BitVec.add_assoc]

theorem stringStore_toNat (argv : List (List (BitVec 8))) : ((stringStore argv).toNat + stringBytes argv) % 2^32 = 0x401000 := by
  unfold stringStore stringSize
  rw [foldl_size, BitVec.toNat_sub, BitVec.toNat_add, BitVec.toNat_add, BitVec.toNat_ofNat, BitVec.toNat_ofNat, BitVec.toNat_ofNat,
    BitVec.toNat_ofNat]
  omega

/-- Where the lowest word of the stack would be, in 32 bits. -/
theorem argvStore_toNat (argv : List (List (BitVec 8))) : ((argvStore argv - 8#32).toNat + stackNeed argv) % 2^32 = 0x401000 := by
  have hstore := stringStore_toNat argv
  have hmod : (stringStore argv - stringStore argv % 4#32).toNat = (stringStore argv).toNat / 4 * 4 := by
    have hrem : (stringStore argv % 4#32).toNat = (stringStore argv).toNat % 4 := BitVec.toNat_umod
    rw [BitVec.toNat_sub, hrem]
    omega
  have harr : (4#32 * (BitVec.ofNat 32 argv.length + 1#32)).toNat = 4 * (argv.length + 1) % 2^32 := by
    rw [BitVec.toNat_mul, BitVec.toNat_add, BitVec.toNat_ofNat, BitVec.toNat_ofNat, BitVec.toNat_ofNat]
    omega
  unfold argvStore stackNeed
  rw [BitVec.toNat_sub, BitVec.toNat_sub, hmod, harr, BitVec.toNat_ofNat]
  omega

/-- The test of `init_stack`, on what is needed. -/
theorem test_iff (argv : List (List (BitVec 8))) :
    argvStore argv - 8#32 < utempAddr ↔ 4096 < stackNeed argv % 2^32 ∧ stackNeed argv % 2^32 ≤ 0x401000 := by
  have hneed := argvStore_toNat argv
  have hlt := (argvStore argv - 8#32).isLt
  change (argvStore argv - 8#32).toNat < 0x400000 ↔ _
  omega

theorem fitsPage_iff (argv : List (List (BitVec 8))) : FitsPage argv ↔ stackNeed argv ≤ 4096 := by
  change stringBytes argv + 4 * (argv.length + 1) + 8 ≤ 4096 ↔ _
  unfold stackNeed
  omega

theorem storeUtemp_at (ha : a.toNat = 0x400000 + off) (h : off + bs.length ≤ 4096) : storeUtemp m a bs = some (putBytes m off bs) := by
  unfold storeUtemp
  change (if 0x400000 ≤ a.toNat ∧ a.toNat + bs.length ≤ 0x400000 + 4096 then some (putBytes m (a.toNat - 0x400000) bs) else none) = _
  rw [if_pos (by omega), ha, Nat.add_sub_cancel_left]

theorem utemp2ustack_toNat (ha : a.toNat = 0x400000 + off) (h : off ≤ 4096) : (utemp2ustack a).toNat = stackBase + off := by
  unfold utemp2ustack
  change (a + (0xEEBFE000#32 - 4096#32) - 0x400000#32).toNat = 0xEEBFD000 + off
  have hbase : (0xEEBFE000#32 - 4096#32).toNat = 0xEEBFD000 := rfl
  rw [BitVec.toNat_sub, BitVec.toNat_add, hbase, ha, BitVec.toNat_ofNat]
  omega

/-- What the loop has laid out: the pointers from the offset `off` on, the strings from `off'` on. -/
structure LaidOut (m m' : Bytes) (off off' : ℕ) (argv : List (List (BitVec 8))) : Prop where
  frame : ∀ x, x < off ∨ off + 4 * argv.length ≤ x ∧ x < off' → m' x = m x
  strings : ∀ i, (h : i < argv.length) → StringAt m' (getWord m' (off + 4 * i)) argv[i]
  above : ∀ i < argv.length, stackBase + off' ≤ (getWord m' (off + 4 * i)).toNat

theorem storeArgs_laidOut (argv : List (List (BitVec 8))) : ∀ {m a b off off'}, a.toNat = 0x400000 + off → b.toNat = 0x400000 + off' →
    off + 4 * argv.length ≤ off' → off' + stringBytes argv = 4096 →
    ∃ m' b', storeArgs m a b argv = some (m', b') ∧ b'.toNat = 0x401000 ∧ LaidOut m m' off off' argv := by
  induction argv with
  | nil =>
    intro m a b off off' ha hb _ hend
    have hzero : stringBytes [] = 0 := rfl
    exact ⟨m, b, rfl, by omega, fun _ _ => rfl, nofun, nofun⟩
  | cons str argv ih =>
    intro m a b off off' ha hb hroom hend
    have hcons : stringBytes (str :: argv) = str.length + 1 + stringBytes argv := rfl
    rw [List.length_cons] at hroom
    have hword : (wordBytes [utemp2ustack b]).length = 4 := rfl
    have hstr : (str ++ [0#8]).length = str.length + 1 := List.length_append
    have ha' : (a + 4#32).toNat = 0x400000 + (off + 4) := by
      rw [BitVec.toNat_add, ha, BitVec.toNat_ofNat]
      omega
    have hb' : (b + (BitVec.ofNat 32 str.length + 1#32)).toNat = 0x400000 + (off' + (str.length + 1)) := by
      rw [BitVec.toNat_add, BitVec.toNat_add, hb, BitVec.toNat_ofNat, BitVec.toNat_ofNat]
      omega
    obtain ⟨m', b', hrest, hb'', hout⟩ := ih (m := putBytes (putBytes m off (wordBytes [utemp2ustack b])) off' (str ++ [0#8]))
      ha' hb' (by omega) (by omega)
    have hto := utemp2ustack_toNat hb (by omega)
    have hptr : getWord m' (off + 4 * 0) = utemp2ustack b := by
      rw [Nat.mul_zero, Nat.add_zero]
      calc getWord m' off = getWord (putBytes m off (wordBytes [utemp2ustack b])) off :=
            getWord_congr fun i hi => by rw [hout.frame _ (by omega), putBytes_outside (by omega)]
        _ = utemp2ustack b := getWord_putWord m off _
    have hnext : ∀ i, off + 4 * (i + 1) = off + 4 + 4 * i := fun i => by omega
    refine ⟨m', b', ?_, hb'', fun x hx => ?_, fun i hi => ?_, fun i hi => ?_⟩
    · unfold storeArgs
      rw [storeUtemp_at ha (by omega), Option.bind_eq_bind, Option.bind_some, storeUtemp_at hb (by omega), Option.bind_some]
      exact hrest
    · rw [List.length_cons] at hx
      rw [hout.frame x (by omega), putBytes_outside (by omega), putBytes_outside (by omega)]
    · cases i with
      | zero =>
        rw [hptr]
        refine ⟨?_, fun k hk => ?_⟩
        · unfold OnStack
          change stackBase ≤ _ ∧ _ + (str.length + 1) ≤ stackBase + 4096
          omega
        · have hk' : k < (str ++ [0#8]).length := hk
          rw [hto, Nat.add_sub_cancel_left, hout.frame _ (by omega)]
          exact putBytes_inside hk'
      | succ i =>
        rw [hnext]
        exact hout.strings i (Nat.lt_of_succ_lt_succ hi)
    · cases i with
      | zero => rw [hptr, hto]
      | succ i =>
        have habove := hout.above i (Nat.lt_of_succ_lt_succ hi)
        rw [hnext]
        omega

theorem StringAt.congr {w : Word} (h : StringAt m w str) (hm : ∀ x, w.toNat - stackBase ≤ x → m' x = m x) : StringAt m' w str :=
  ⟨h.1, fun k hk => (hm _ (Nat.le_add_right _ _)).trans (h.2 k hk)⟩

/-- Where the arguments fit, the whole page is laid out. -/
theorem fillStack_page (hfits : FitsPage argv) (m : Bytes) : ∃ m' p, fillStack m argv = some m' ∧
    StackPage m' argv (utemp2ustack (argvStore argv - 8#32)) p := by
  have hneed := (fitsPage_iff argv).mp hfits
  have hlow := argvStore_toNat argv
  have hstr := stringStore_toNat argv
  obtain ⟨off, hoff⟩ : ∃ off, off + stackNeed argv = 4096 + 8 := ⟨4096 + 8 - stackNeed argv, by omega⟩
  have hneed8 : 8 + 4 * (argv.length + 1) + stringBytes argv ≤ stackNeed argv := by
    unfold stackNeed
    omega
  have hsub : (argvStore argv - 8#32).toNat = 0x400000 + (off - 8) := by omega
  have ha : (argvStore argv).toNat = 0x400000 + off := by
    rw [BitVec.toNat_sub, BitVec.toNat_ofNat] at hsub
    omega
  have hb : (stringStore argv).toNat = 0x400000 + (4096 - stringBytes argv) := by omega
  obtain ⟨m₁, b, hargs, hb', hout⟩ := storeArgs_laidOut (m := m) argv ha hb (by omega) (by omega)
  have hnull : (argvStore argv + 4#32 * BitVec.ofNat 32 argv.length).toNat = 0x400000 + (off + 4 * argv.length) := by
    rw [BitVec.toNat_add, BitVec.toNat_mul, ha, BitVec.toNat_ofNat, BitVec.toNat_ofNat]
    omega
  have hargv : (argvStore argv - 4#32).toNat = 0x400000 + (off - 4) := by
    rw [BitVec.toNat_sub, ha, BitVec.toNat_ofNat]
    omega
  have hend : b = utempAddr + 4096#32 := by
    apply BitVec.eq_of_toNat_eq
    rw [hb', BitVec.toNat_add, BitVec.toNat_ofNat, BitVec.toNat_ofNat]
  have hword : ∀ w : Word, (wordBytes [w]).length = 4 := fun _ => rfl
  obtain ⟨m₄, hm₄⟩ : ∃ m₄, m₄ = putBytes (putBytes (putBytes m₁ (off + 4 * argv.length) (wordBytes [0#32])) (off - 4)
    (wordBytes [utemp2ustack (argvStore argv)])) (off - 8) (wordBytes [BitVec.ofNat 32 argv.length]) := ⟨_, rfl⟩
  have hfill : fillStack m argv = some m₄ := by
    unfold fillStack
    rw [hargs, Option.bind_eq_bind, Option.bind_some]
    change storeWords m₁ argv b = some m₄
    unfold storeWords
    rw [storeUtemp_at hnull (by rw [hword]; omega), Option.bind_eq_bind, Option.bind_some, if_pos hend,
      storeUtemp_at hargv (by rw [hword]; omega), Option.bind_some, storeUtemp_at hsub (by rw [hword]; omega), hm₄]
  have hesp := utemp2ustack_toNat hsub (by omega)
  have hp := utemp2ustack_toNat ha (by omega)
  refine ⟨m₄, utemp2ustack (argvStore argv), hfill, ?_, ?_, ?_, ?_, ?_, ?_⟩
  · unfold OnStack
    change stackBase ≤ _ ∧ _ + 8 ≤ stackBase + 4096
    omega
  · rw [hesp, Nat.add_sub_cancel_left, hm₄]
    exact getWord_putWord _ _ _
  · rw [hesp, Nat.add_sub_cancel_left, hm₄, show off - 8 + 4 = off - 4 by omega, getWord_putBytes_outside (by rw [hword]; omega)]
    exact getWord_putWord _ _ _
  · unfold OnStack
    change stackBase ≤ _ ∧ _ + 4 * (argv.length + 1) ≤ stackBase + 4096
    omega
  · rw [hp, Nat.add_sub_cancel_left, hm₄, getWord_putBytes_outside (by rw [hword]; omega), getWord_putBytes_outside (by rw [hword]; omega)]
    exact getWord_putWord _ _ _
  · intro i hi
    have hkeep : getWord m₄ (off + 4 * i) = getWord m₁ (off + 4 * i) := by
      rw [hm₄, getWord_putBytes_outside (by rw [hword]; omega), getWord_putBytes_outside (by rw [hword]; omega),
        getWord_putBytes_outside (by rw [hword]; omega)]
    have habove := hout.above i hi
    rw [hp, Nat.add_sub_cancel_left, hkeep]
    apply (hout.strings i hi).congr
    intro x hx
    rw [hm₄, putBytes_outside (by rw [hword]; omega), putBytes_outside (by rw [hword]; omega), putBytes_outside (by rw [hword]; omega)]

end Layout

namespace PageSys

variable {calls : StackCalls} {s s' : PageSys} {argv : List (List (BitVec 8))} {q : ℕ}

theorem initStack_noMem (calls : StackCalls) (s : PageSys) (htest : argvStore argv - 8#32 < utempAddr) : s.initStack calls argv = some (.error eNoMem, s) := by
  unfold initStack
  rw [if_pos htest]

theorem initStack_noPage {r : ℤ} (htest : ¬ argvStore argv - 8#32 < utempAddr) (halloc : calls.alloc = .error r) :
    s.initStack calls argv = some (.error r, s) := by
  unfold initStack
  rw [if_neg htest, halloc]

/-- The page is filled, and then mapped. -/
theorem initStack_page (htest : ¬ argvStore argv - 8#32 < utempAddr) (halloc : calls.alloc = .ok q) :
    s.initStack calls argv = (fillStack (fun _ => 0#8) argv).bind fun m =>
      match calls.map with
      | .error r => some (.error r, ((s.pageAlloc .caller utempPage q (pteP ||| pteU ||| pteW)).setByte q m).pageUnmap .caller utempPage)
      | .ok () => (((s.pageAlloc .caller utempPage q (pteP ||| pteU ||| pteW)).setByte q m).pageMap .caller utempPage .child ustackPage
          (pteP ||| pteU ||| pteW)).bind fun s => some (.ok (utemp2ustack (argvStore argv - 8#32)), s.pageUnmap .caller utempPage) := by
  have hzero : (s.pageAlloc .caller utempPage q (pteP ||| pteU ||| pteW)).byte q = fun _ => 0#8 := setByte_same
  unfold initStack
  rw [if_neg htest, halloc]
  dsimp only
  rw [hzero]
  rfl

/-- With a page and a mapping there is no error behind the test. -/
theorem initStack_not_error (htest : ¬ argvStore argv - 8#32 < utempAddr) (halloc : calls.alloc = .ok q)
    (hmap : calls.map = .ok ()) (e : ℤ) : s.initStack calls argv ≠ some (.error e, s') := by
  intro h
  rw [initStack_page htest halloc, hmap] at h
  obtain ⟨m, -, h⟩ := Option.bind_eq_some_iff.mp h
  obtain ⟨s₁, -, h⟩ := Option.bind_eq_some_iff.mp h
  cases h

/-- Where the arguments fit. -/
theorem initStack_fits (hfits : FitsPage argv) (halloc : calls.alloc = .ok q) : ∃ m p,
    StackPage m argv (utemp2ustack (argvStore argv - 8#32)) p ∧
    (∀ r, calls.map = .error r → ∃ s', s.initStack calls argv = some (.error r, s')) ∧
    (calls.map = .ok () → ∃ s', s.initStack calls argv = some (.ok (utemp2ustack (argvStore argv - 8#32)), s') ∧
      s'.read .child ustackPage = some m) := by
  have hneed := (fitsPage_iff argv).mp hfits
  have htest : ¬ argvStore argv - 8#32 < utempAddr := by
    rw [test_iff]
    omega
  obtain ⟨m, p, hfill, hpage⟩ := fillStack_page hfits fun _ => 0#8
  refine ⟨m, p, hpage, fun r hr => ?_, fun hr => ?_⟩
  · rw [initStack_page htest halloc, hfill, hr]
    exact ⟨_, rfl⟩
  · have hutemp : ((s.pageAlloc .caller utempPage q (pteP ||| pteU ||| pteW)).setByte q m).space .caller utempPage =
        some (q, pteP ||| pteU ||| pteW) := by
      rw [setByte_space, pageAlloc_self]
    rw [initStack_page htest halloc, hfill, hr, Option.bind_some]
    dsimp only
    rw [pageMap_of_space hutemp, Option.bind_some]
    refine ⟨_, rfl, ?_⟩
    unfold pageUnmap read
    rw [setEntry_other (by decide), setEntry_same, Function.update_self, setEntry_byte, setEntry_byte, Option.map_some]
    exact congrArg some setByte_same

theorem initStackOk (hvalid : calls.Valid)
    (h : stackNeed argv ≤ 4096 ∨ 4096 < stackNeed argv % 2^32 ∧ stackNeed argv % 2^32 ≤ 0x401000) :
    InitStackOk calls s argv := by
  rcases h with hneed | hneed
  · have hfits := (fitsPage_iff argv).mpr hneed
    have htest : ¬ argvStore argv - 8#32 < utempAddr := by
      rw [test_iff]
      omega
    cases halloc : calls.alloc with
    | error r =>
      have hout := initStack_noPage (s := s) htest halloc
      refine ⟨⟨_, _, hout⟩, fun e s' h => ?_, fun esp s' h => ?_, fun hq => ?_⟩
      · rw [hout] at h
        obtain ⟨hr, -⟩ := Prod.mk.inj (Option.some.inj h)
        exact hvalid.alloc e (by rw [halloc, Except.error.inj hr])
      · rw [hout] at h
        cases h
      · obtain ⟨q, hq⟩ := hq
        rw [halloc] at hq
        cases hq
    | ok q =>
      obtain ⟨m, p, hpage, herror, hok⟩ := initStack_fits (s := s) hfits halloc
      cases hmap : calls.map with
      | error r =>
        obtain ⟨s₁, hout⟩ := herror r hmap
        refine ⟨⟨_, _, hout⟩, fun e s' h => ?_, fun esp s' h => ?_, fun _ hm => ?_⟩
        · rw [hout] at h
          obtain ⟨hr, -⟩ := Prod.mk.inj (Option.some.inj h)
          exact hvalid.map e (by rw [hmap, Except.error.inj hr])
        · rw [hout] at h
          cases h
        · rw [hmap] at hm
          cases hm
      | ok u =>
        obtain ⟨s₁, hout, hread⟩ := hok hmap
        refine ⟨⟨_, _, hout⟩, fun e s' h => ?_, fun esp s' h => ?_, fun _ _ => ⟨fun h => ?_, fun h => absurd hfits h⟩⟩
        · rw [hout] at h
          cases h
        · rw [hout] at h
          obtain ⟨hesp, rfl⟩ := Prod.mk.inj (Option.some.inj h)
          obtain rfl := Except.ok.inj hesp
          exact ⟨m, p, hread, hpage⟩
        · obtain ⟨s', h⟩ := h
          rw [hout] at h
          cases h
  · have hout := initStack_noMem calls s ((test_iff argv).mpr hneed)
    refine ⟨⟨_, _, hout⟩, fun e s' h => ?_, fun esp s' h => ?_, fun _ _ => ⟨fun _ hfits => ?_, fun _ => ⟨s, hout⟩⟩⟩
    · rw [hout] at h
      obtain ⟨hr, -⟩ := Prod.mk.inj (Option.some.inj h)
      obtain rfl := Except.error.inj hr
      decide
    · rw [hout] at h
      cases h
    · have hle := (fitsPage_iff argv).mp hfits
      omega

/-- Where the test goes wrong in 32 bits the error is not returned. -/
theorem not_initStackOk (hneed : 4096 < stackNeed argv)
    (h : ¬ (4096 < stackNeed argv % 2^32 ∧ stackNeed argv % 2^32 ≤ 0x401000)) : ¬ InitStackOk ⟨.ok q, .ok ()⟩ s argv := by
  intro hok
  have hfits : ¬ FitsPage argv := fun hfits => absurd ((fitsPage_iff argv).mp hfits) (by omega)
  obtain ⟨s', hout⟩ := (hok.noMem ⟨q, rfl⟩ rfl).mpr hfits
  exact initStack_not_error (fun hlt => h ((test_iff argv).mp hlt)) rfl rfl eNoMem hout

end PageSys

/-- `init_stack` does what it should do exactly if the arguments fit into the page, or the test still shows that they do not:
what they need is compared in 32 bits. -/
theorem initStack_iff (s : PageSys) (argv : List (List (BitVec 8))) :
    (∀ calls : StackCalls, calls.Valid → PageSys.InitStackOk calls s argv) ↔
      stackNeed argv ≤ 4096 ∨ 4096 < stackNeed argv % 2^32 ∧ stackNeed argv % 2^32 ≤ 0x401000 := by
  constructor
  · intro hok
    by_contra hnot
    rw [not_or] at hnot
    exact PageSys.not_initStackOk (by omega) hnot.2 (hok ⟨.ok 0, .ok ()⟩ ⟨nofun, nofun⟩)
  · exact fun h calls hvalid => PageSys.initStackOk hvalid h

theorem stackNeed_one (n : ℕ) (c : BitVec 8) : stackNeed [List.replicate n c] = (n + 4) / 4 * 4 + 16 := by
  unfold stackNeed stringBytes
  rw [List.map_singleton, List.length_replicate, List.sum_singleton]
  rfl

/-- One argument of more than four megabytes passes the test. -/
theorem initStack_huge : ∃ n, n = 0x401000 ∧
    ¬ PageSys.InitStackOk ⟨.ok 0, .ok ()⟩ PageSys.emptyProcess [List.replicate n 0x61#8] := by
  obtain ⟨n, hn⟩ : ∃ n, n = 0x401000 := ⟨_, rfl⟩
  have hneed := stackNeed_one n 0x61#8
  refine ⟨n, hn, PageSys.not_initStackOk (by omega) (by omega)⟩

end Sisop
