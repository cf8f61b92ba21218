import Sisop.UserPages

/-! `map_segment` of `lib/spawn.c`, which fills the pages of a segment one by one at `UTEMP`. -/
namespace Sisop

/-- What the calls of one round of `map_segment` return: `sys_page_alloc` a page, `seek`, `readn` from an offset so many
bytes, and whether `sys_page_map` succeeds. -/
structure Round where
  alloc : Except ℤ ℕ
  seek : Word → Except ℤ Unit
  readn : Word → Word → Except ℤ (List (BitVec 8))
  map : Bool

/-- The calls succeed: `sys_page_alloc` finds the page `q`, and `seek` and `readn` return the bytes of the file. -/
structure Round.Succeeds (call : Round) (q : ℕ) (file : List (BitVec 8)) : Prop where
  alloc : call.alloc = .ok q
  seek : ∀ off, call.seek off = .ok ()
  readn : ∀ off n : Word, off.toNat + n.toNat ≤ file.length → call.readn off n = .ok ((file.drop off.toNat).take n.toNat)
  map : call.map = true

namespace PageSys

/-- One round of the loop: a blank page, or one that comes from the file. -/
def mapSegmentRound (call : Round) (s : PageSys) (va filesz fileoffset perm i : Word) : Option (Except ℤ Unit × PageSys) :=
  match call.alloc with
  | .error r => some (.error r, s)
  | .ok q =>
    if filesz ≤ i then some (.ok (), s.pageAlloc .child (pgnum (va + i)) q perm)
    else
      let s := s.pageAlloc .caller utempPage q (pteP ||| pteU ||| pteW)
      match call.seek (fileoffset + i) with
      | .error r => some (.error r, s)
      | .ok () =>
        match call.readn (fileoffset + i) (if 4096#32 < filesz - i then 4096#32 else filesz - i) with
        | .error r => some (.error r, s)
        | .ok bs => do
          let s ← s.store .caller utempPage fun m => putBytes m 0 bs
          if call.map then
            let s ← s.pageMap .caller utempPage .child (pgnum (va + i)) perm
            some (.ok (), s.pageUnmap .caller utempPage)
          else none

/-- `for (i = 0; i < memsz; i += PGSIZE)`, from round `k` on, where `i` is converted to `size_t`. -/
def mapSegmentLoop (calls : ℕ → Round) (va memsz filesz fileoffset perm : Word) :
    ℕ → ℕ → Word → PageSys → Option (Except ℤ Unit × PageSys)
  | 0, _, _, _ => none
  | fuel + 1, k, i, s =>
    if i < memsz then do
      let (r, s) ← mapSegmentRound (calls k) s va filesz fileoffset perm i
      match r with
      | .error r => some (.error r, s)
      | .ok () => mapSegmentLoop calls va memsz filesz fileoffset perm fuel (k + 1) (i + 4096#32) s
    else some (.ok (), s)

/-- `map_segment(child, va, memsz, fd, filesz, fileoffset, perm)`, in at most `fuel` rounds. -/
def mapSegment (calls : ℕ → Round) (fuel : ℕ) (s : PageSys) (va memsz filesz fileoffset perm : Word) :
    Option (Except ℤ Unit × PageSys) :=
  let i := va &&& 0xFFF#32
  mapSegmentLoop calls (va - i) (memsz + i) (filesz + i) (fileoffset - i) perm fuel 0 0#32 s

/-- The byte at an address. -/
def byteAt (s : PageSys) (e : Side) (a : ℕ) : Option (BitVec 8) := (s.read e (a / pgsize)).map fun m => m (a % pgsize)

/-- The child maps the pages of `[va, va + memsz)`, with the bytes of the file and then zeros, and nothing else has changed
but for the contents of these pages. -/
structure SegmentMapped (s s' : PageSys) (va memsz filesz fileoffset perm : Word) (file : List (BitVec 8)) : Prop where
  pages : ∀ pn, va.toNat / pgsize ≤ pn → pn * pgsize < va.toNat + memsz.toNat → ∃ q, s'.space .child pn = some (q, perm)
  others : ∀ pn, pn < va.toNat / pgsize ∨ va.toNat + memsz.toNat ≤ pn * pgsize → s'.space .child pn = s.space .child pn
  data : ∀ k < filesz.toNat, s'.byteAt .child (va.toNat + k) = file[fileoffset.toNat + k]?
  bss : ∀ k, filesz.toNat ≤ k → k < memsz.toNat → s'.byteAt .child (va.toNat + k) = some 0#8
  caller : s'.space .caller = s.space .caller

/-- Byte `x` of a segment whose bytes come from the file at `off` up to `filesz`. -/
def segmentByte (file : List (BitVec 8)) (off filesz x : ℕ) : BitVec 8 := if x < filesz then (file[off + x]?).getD 0#8 else 0#8

/-- One page more. -/
structure PageAdded (s s' : PageSys) (pn q : ℕ) (perm : Word) (bytes : Bytes) : Prop where
  caller : s'.space .caller = s.space .caller
  child : s'.space .child = Function.update (s.space .child) pn (some (q, perm))
  other : ∀ p ≠ q, s'.byte p = s.byte p
  bytes : ∀ x < pgsize, s'.byte q x = bytes x

section Segment

variable {call : Round} {calls : ℕ → Round} {s s' : PageSys} {va memsz filesz fileoffset perm i : Word} {q k : ℕ} {file : List (BitVec 8)}

theorem blank_round (h : call.Succeeds q file) (hi : filesz ≤ i) :
    ∃ s', mapSegmentRound call s va filesz fileoffset perm i = some (.ok (), s') ∧
      PageAdded s s' (pgnum (va + i)) q perm fun x => segmentByte file fileoffset.toNat filesz.toNat (i.toNat + x) := by
  unfold mapSegmentRound
  rw [h.alloc]
  dsimp only
  rw [if_pos hi]
  refine ⟨_, rfl, setEntry_other (by decide), setEntry_same, fun p hp => setByte_other hp, fun x _ => ?_⟩
  have hle : filesz.toNat ≤ i.toNat := hi
  unfold segmentByte
  rw [if_neg (by omega)]
  exact congrFun setByte_same x

/-- The bytes that `readn` puts at `UTEMP`. -/
theorem putBytes_file {off n x fsz : ℕ} (hlen : off + fsz ≤ file.length) (hn : n = min 4096 (fsz - k)) (hk : k < fsz)
    (hx : x < pgsize) : putBytes (fun _ => 0#8) 0 ((file.drop (off + k)).take n) x = segmentByte file off fsz (k + x) := by
  change x < 4096 at hx
  have hlen' : ((file.drop (off + k)).take n).length = n := by
    rw [List.length_take, List.length_drop]
    omega
  unfold putBytes segmentByte
  rw [if_pos (Nat.zero_le x), Nat.sub_zero]
  by_cases hxn : x < n
  · rw [List.getElem?_take_of_lt hxn, List.getElem?_drop, if_pos (by omega), Nat.add_assoc]
  · rw [List.getElem?_eq_none (by omega), if_neg (by omega)]
    rfl

theorem file_round (h : call.Succeeds q file) (hi : i < filesz) (hutemp : s.space .caller utempPage = none)
    (hlen : fileoffset.toNat + filesz.toNat ≤ file.length) (hlt : fileoffset.toNat + filesz.toNat < 2^31) :
    ∃ s', mapSegmentRound call s va filesz fileoffset perm i = some (.ok (), s') ∧
      PageAdded s s' (pgnum (va + i)) q perm fun x => segmentByte file fileoffset.toNat filesz.toNat (i.toNat + x) := by
  have hilt : i.toNat < filesz.toNat := hi
  have hnot : ¬ filesz ≤ i := fun hle => Nat.not_le_of_lt hilt hle
  have hoff : (fileoffset + i).toNat = fileoffset.toNat + i.toNat := by
    rw [BitVec.toNat_add]
    omega
  have hn : (if 4096#32 < filesz - i then 4096#32 else filesz - i).toNat = min 4096 (filesz.toNat - i.toNat) := by
    have hsub : (filesz - i).toNat = filesz.toNat - i.toNat := BitVec.toNat_sub_of_le (Nat.le_of_lt hilt)
    split
    next hc =>
      have hc' : 4096 < (filesz - i).toNat := hc
      rw [show (4096#32).toNat = 4096 from rfl]
      omega
    next hc =>
      have hc' : ¬ 4096 < (filesz - i).toNat := hc
      omega
  have hread := h.readn (fileoffset + i) (if 4096#32 < filesz - i then 4096#32 else filesz - i) (by omega)
  have hself : (s.pageAlloc .caller utempPage q (pteP ||| pteU ||| pteW)).space .caller utempPage =
      some (q, pteP ||| pteU ||| pteW) := pageAlloc_self
  unfold mapSegmentRound
  rw [h.alloc]
  dsimp only
  rw [if_neg hnot, h.seek]
  dsimp only
  rw [hread]
  dsimp only
  have hzero : (s.pageAlloc .caller utempPage q (pteP ||| pteU ||| pteW)).byte q = fun _ => 0#8 := setByte_same
  rw [store_of_space hself, hzero, Option.bind_eq_bind, Option.bind_some, if_pos h.map]
  have hfile : ∀ x < pgsize, putBytes (fun _ => 0#8) 0 ((file.drop (fileoffset + i).toNat).take
      (if 4096#32 < filesz - i then 4096#32 else filesz - i).toNat) x =
        segmentByte file fileoffset.toNat filesz.toNat (i.toNat + x) := by
    intro x hx
    rw [hoff]
    exact putBytes_file hlen hn hilt hx
  generalize putBytes (fun _ => 0#8) 0 _ = bytes at hfile ⊢
  have hself' : ((s.pageAlloc .caller utempPage q (pteP ||| pteU ||| pteW)).setByte q bytes).space .caller utempPage =
      some (q, pteP ||| pteU ||| pteW) := hself
  rw [pageMap_of_space hself', Option.bind_some]
  refine ⟨_, rfl, ?_, ?_, fun p hp => ?_, fun x hx => ?_⟩
  · unfold pageUnmap pageAlloc
    rw [setEntry_same, setEntry_other (by decide), setByte_space, setEntry_same, Function.update_idem, setByte_space, ← hutemp]
    exact Function.update_eq_self _ _
  · unfold pageUnmap pageAlloc
    rw [setEntry_other (by decide), setEntry_same, setByte_space, setEntry_other (by decide), setByte_space]
  · exact (setByte_other hp).trans (setByte_other hp)
  · exact (congrFun setByte_same x).trans (hfile x hx)

/-- A round adds a page. -/
theorem round_added (h : call.Succeeds q file) (hutemp : s.space .caller utempPage = none)
    (hlen : fileoffset.toNat + filesz.toNat ≤ file.length) (hlt : fileoffset.toNat + filesz.toNat < 2^31) (va perm i : Word) :
    ∃ s', mapSegmentRound call s va filesz fileoffset perm i = some (.ok (), s') ∧
      PageAdded s s' (pgnum (va + i)) q perm fun x => segmentByte file fileoffset.toNat filesz.toNat (i.toNat + x) := by
  by_cases hi : filesz ≤ i
  · exact blank_round h hi
  · exact file_round h (Nat.lt_of_not_le hi) hutemp hlen hlt

/-- The first `k` pages from the page `b` on have been added. -/
structure Filled (page : ℕ → ℕ) (s s' : PageSys) (b : ℕ) (perm : Word) (file : List (BitVec 8)) (off filesz k : ℕ) : Prop where
  caller : s'.space .caller = s.space .caller
  child : ∀ pn, s'.space .child pn = if b ≤ pn ∧ pn < b + k then some (page (pn - b), perm) else s.space .child pn
  bytes : ∀ j < k, ∀ x < pgsize, s'.byte (page j) x = segmentByte file off filesz (pgsize * j + x)

theorem Filled.step {page : ℕ → ℕ} {s₁ : PageSys} {b off fsz : ℕ} (hinj : Function.Injective page)
    (h : Filled page s s₁ b perm file off fsz k)
    (hadd : PageAdded s₁ s' (b + k) (page k) perm fun x => segmentByte file off fsz (pgsize * k + x)) :
    Filled page s s' b perm file off fsz (k + 1) where
  caller := hadd.caller.trans h.caller
  child pn := by
    rw [hadd.child]
    by_cases hpn : pn = b + k
    · rw [hpn, Function.update_self, if_pos (by omega), Nat.add_sub_cancel_left]
    · rw [Function.update_of_ne hpn, h.child]
      by_cases hin : b ≤ pn ∧ pn < b + k
      · rw [if_pos hin, if_pos (by omega)]
      · rw [if_neg hin, if_neg (by omega)]
  bytes j hj x hx := by
    rcases Nat.lt_succ_iff_lt_or_eq.mp hj with hlt | rfl
    · rw [hadd.other (page j) fun heq => hlt.ne (hinj heq)]
      exact h.bytes j hlt x hx
    · exact hadd.bytes x hx

/-- The loop adds the pages up to `memsz`. -/
theorem loop_filled {page : ℕ → ℕ} {b n : ℕ} (hcalls : ∀ j, (calls j).Succeeds (page j) file) (hinj : Function.Injective page)
    (hutemp : s.space .caller utempPage = none) (hlen : fileoffset.toNat + filesz.toNat ≤ file.length)
    (hlt : fileoffset.toNat + filesz.toNat < 2^31) (hva : va.toNat = b * 4096) (hmem : memsz.toNat ≤ 4096 * n)
    (hlast : 4096 * n < memsz.toNat + 4096) (htop : va.toNat + 4096 * n < 2^32) (fuel : ℕ) : ∀ {k s₁}, k ≤ n → n < fuel + k →
    Filled page s s₁ b perm file fileoffset.toNat filesz.toNat k →
    ∃ s', mapSegmentLoop calls va memsz filesz fileoffset perm fuel k (BitVec.ofNat 32 (4096 * k)) s₁ = some (.ok (), s') ∧
      Filled page s s' b perm file fileoffset.toNat filesz.toNat n := by
  induction fuel with
  | zero => exact fun hk hfuel => absurd hfuel (by omega)
  | succ fuel ih =>
    intro k s₁ hk hfuel h
    have hi : (BitVec.ofNat 32 (4096 * k)).toNat = 4096 * k := by
      rw [BitVec.toNat_ofNat]
      omega
    unfold mapSegmentLoop
    by_cases hkn : k = n
    · have hnot : ¬ BitVec.ofNat 32 (4096 * k) < memsz := by
        intro hlt
        have hlt' : (BitVec.ofNat 32 (4096 * k)).toNat < memsz.toNat := hlt
        omega
      rw [if_neg hnot]
      rw [hkn] at h
      exact ⟨s₁, rfl, h⟩
    · have hmore : BitVec.ofNat 32 (4096 * k) < memsz := by
        change (BitVec.ofNat 32 (4096 * k)).toNat < memsz.toNat
        omega
      have hutemp₁ : s₁.space .caller utempPage = none := by rw [h.caller, hutemp]
      obtain ⟨s₂, hround, hadd⟩ := round_added (hcalls k) hutemp₁ hlen hlt va perm (BitVec.ofNat 32 (4096 * k))
      have hpn : pgnum (va + BitVec.ofNat 32 (4096 * k)) = b + k := by
        rw [pgnum_eq, BitVec.toNat_add, hi]
        omega
      rw [hpn, hi] at hadd
      have hnext : BitVec.ofNat 32 (4096 * k) + 4096#32 = BitVec.ofNat 32 (4096 * (k + 1)) := by
        apply BitVec.eq_of_toNat_eq
        rw [BitVec.toNat_add, hi, BitVec.toNat_ofNat, BitVec.toNat_ofNat]
        omega
      rw [if_pos hmore, hround, Option.bind_eq_bind, Option.bind_some, hnext]
      exact ih (by omega) (by omega) (h.step hinj hadd)

/-- A byte of the pages that have been added. -/
theorem Filled.byteAt {page : ℕ → ℕ} {b off fsz n a : ℕ} (h : Filled page s s' b perm file off fsz n) (hlo : b * 4096 ≤ a)
    (hhi : a < (b + n) * 4096) : s'.byteAt .child a = some (segmentByte file off fsz (a - b * 4096)) := by
  have hchild : s'.space .child (a / 4096) = some (page (a / 4096 - b), perm) := by
    rw [h.child, if_pos (by omega)]
  unfold PageSys.byteAt
  rw [show a / pgsize = a / 4096 from rfl, read_of_space hchild, Option.map_some, h.bytes _ (by omega) _ (Nat.mod_lt _ (by decide))]
  congr 2
  change 4096 * (a / 4096 - b) + a % 4096 = a - b * 4096
  omega

/-- The pages that have been added are those of the segment. -/
theorem Filled.mapped {page : ℕ → ℕ} {n o : ℕ} (ho : o = va.toNat % 4096) (hle : o ≤ fileoffset.toNat)
    (h : Filled page s s' (va.toNat / 4096) perm file (fileoffset.toNat - o) (filesz.toNat + o) n)
    (hlen : fileoffset.toNat + filesz.toNat ≤ file.length) (hfs : filesz.toNat ≤ memsz.toNat)
    (hmem : memsz.toNat + o ≤ 4096 * n) (hlast : 4096 * n < memsz.toNat + o + 4096) :
    SegmentMapped s s' va memsz filesz fileoffset perm file where
  pages pn hlo hhi := by
    change pn * 4096 < va.toNat + memsz.toNat at hhi
    change va.toNat / 4096 ≤ pn at hlo
    use page (pn - va.toNat / 4096)
    rw [h.child, if_pos (by omega)]
  others pn hout := by
    change pn < va.toNat / 4096 ∨ va.toNat + memsz.toNat ≤ pn * 4096 at hout
    rw [h.child, if_neg (by omega)]
  data k hk := by
    rw [h.byteAt (by omega) (by omega)]
    have hx : va.toNat + k - va.toNat / 4096 * 4096 = k + o := by omega
    have hidx : fileoffset.toNat - o + (k + o) = fileoffset.toNat + k := by omega
    unfold segmentByte
    rw [hx, if_pos (by omega), hidx, List.getElem?_eq_getElem (by omega)]
    rfl
  bss k hk hlt := by
    rw [h.byteAt (by omega) (by omega)]
    have hx : va.toNat + k - va.toNat / 4096 * 4096 = k + o := by omega
    unfold segmentByte
    rw [hx, if_neg (by omega)]
  caller := h.caller

end Segment

/-- Where the page system calls succeed, and `seek` and `readn` return the bytes of the file, `map_segment` maps the segment. -/
theorem mapSegment_mapped (calls : ℕ → Round) (page : ℕ → ℕ) (s : PageSys) (va memsz filesz fileoffset perm : Word)
    (file : List (BitVec 8)) (hcalls : ∀ k, (calls k).Succeeds (page k) file) (hinj : Function.Injective page)
    (hutemp : s.space .caller utempPage = none) (hmem : memsz.toNat < 2^31) (htop : va.toNat + memsz.toNat ≤ utop.toNat)
    (hfs : filesz.toNat ≤ memsz.toNat) (hoff : pgoff fileoffset = pgoff va) (hlt : fileoffset.toNat + filesz.toNat < 2^31)
    (hlen : fileoffset.toNat + filesz.toNat ≤ file.length) (fuel : ℕ) (hfuel : 2^20 ≤ fuel) :
    ∃ s', mapSegment calls fuel s va memsz filesz fileoffset perm = some (.ok (), s') ∧
      SegmentMapped s s' va memsz filesz fileoffset perm file ∧ s'.space .caller utempPage = none := by
  obtain ⟨o, ho⟩ : ∃ o, o = (va &&& 0xFFF#32).toNat := ⟨_, rfl⟩
  have hva : o = va.toNat % 4096 := ho.trans (pgoff_eq va)
  have hfile : o = fileoffset.toNat % 4096 := by
    rw [hva, ← pgoff_eq va, ← hoff, pgoff_eq]
  change va.toNat + memsz.toNat ≤ 0xEEC00000 at htop
  -- the three quantities are moved down to the page boundary
  have hva' : (va - (va &&& 0xFFF#32)).toNat = va.toNat / 4096 * 4096 := by
    rw [BitVec.toNat_sub, ← ho]
    omega
  have hmem' : (memsz + (va &&& 0xFFF#32)).toNat = memsz.toNat + o := by
    rw [BitVec.toNat_add, ← ho]
    omega
  have hfs' : (filesz + (va &&& 0xFFF#32)).toNat = filesz.toNat + o := by
    rw [BitVec.toNat_add, ← ho]
    omega
  have hoff' : (fileoffset - (va &&& 0xFFF#32)).toNat = fileoffset.toNat - o := by
    rw [BitVec.toNat_sub, ← ho]
    omega
  obtain ⟨n, hn⟩ : ∃ n, n = (memsz.toNat + o + 4095) / 4096 := ⟨_, rfl⟩
  have hstart : Filled page s s (va.toNat / 4096) perm file (fileoffset - (va &&& 0xFFF#32)).toNat
      (filesz + (va &&& 0xFFF#32)).toNat 0 := by
    refine ⟨rfl, fun pn => ?_, nofun⟩
    rw [if_neg (by omega)]
  obtain ⟨s', hloop, hfilled⟩ := loop_filled (n := n) hcalls hinj hutemp (by rw [hoff', hfs']; omega) (by rw [hoff', hfs']; omega)
    hva' (by rw [hmem']; omega) (by rw [hmem']; omega) (by rw [hva']; omega) fuel (Nat.zero_le n) (by omega) hstart
  rw [hoff', hfs'] at hfilled
  exact ⟨s', hloop, hfilled.mapped hva (by omega) hlen hfs (by omega) (by omega), by rw [hfilled.caller, hutemp]⟩

/-- A file, and a process that maps nothing. -/
def emptyProcess : PageSys where
  space _ _ := none
  byte _ _ := 0xCC#8

def servedRound (file : List (BitVec 8)) (k : ℕ) : Round where
  alloc := .ok k
  seek _ := .ok ()
  readn off n := .ok ((file.drop off.toNat).take n.toNat)
  map := true

/-- Two pages, with the last bytes of the file at the end of the first one and at the start of the second one. -/
theorem mapSegment_mapped_twoPages : ∃ s',
    mapSegment (servedRound (List.replicate 8000 0xAB#8)) (2^20) emptyProcess 0x800F00#32 0x300#32 0x200#32 0xF00#32
      (pteP ||| pteU ||| pteW) = some (.ok (), s') ∧
    SegmentMapped emptyProcess s' 0x800F00#32 0x300#32 0x200#32 0xF00#32 (pteP ||| pteU ||| pteW) (List.replicate 8000 0xAB#8) ∧
    s'.space .caller utempPage = none := by
  apply mapSegment_mapped _ id
  · exact fun k => ⟨rfl, fun _ => rfl, fun _ _ _ => rfl, rfl⟩
  · exact Function.injective_id
  · rfl
  · decide
  · decide
  · decide
  · decide
  · decide
  · rw [List.length_replicate]
    decide
  · exact le_rfl

end PageSys

end Sisop
