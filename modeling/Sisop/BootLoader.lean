import Sisop.LoadIcode

/-! The boot loader of `boot/main.c`, which brings the kernel from the disk into memory. -/
namespace Sisop

/-- What a drive is asked for through the ports `0x1F3` to `0x1F6`: which of the two it is, and the sector. -/
def driveSector (p₃ p₄ p₅ p₆ : BitVec 8) : Bool × ℕ :=
  (p₆.getLsbD 4, p₃.toNat + 2 ^ 8 * p₄.toNat + 2 ^ 16 * p₅.toNat + 2 ^ 24 * (p₆ &&& 0xF#8).toNat)

/-- `readsect(dst, offset)`, where the drives have the bytes `disk`. -/
def readsect (disk : Bool → ℕ → BitVec 8) (dst offset : Word) (m : ByteMem) : ByteMem :=
  let r := driveSector (offset.setWidth 8) ((offset >>> 8).setWidth 8) ((offset >>> 16).setWidth 8)
    ((offset >>> 24 ||| 0xE0#32).setWidth 8)
  writeBytes m dst ((List.range 512).map fun i => disk r.1 (512 * r.2 + i))

/-- The loop of `readseg`, for at most `n` sectors. -/
def readsegLoop (disk : Bool → ℕ → BitVec 8) (endPa : Word) : ℕ → Word → Word → ByteMem → Option ByteMem
  | 0, _, _, _ => none
  | n + 1, pa, offset, m =>
    if pa < endPa then readsegLoop disk endPa n (pa + 512#32) (offset + 1#32) (readsect disk pa offset m) else some m

/-- `readseg(pa, count, offset)`. -/
def readseg (disk : Bool → ℕ → BitVec 8) (n : ℕ) (pa count offset : Word) (m : ByteMem) : Option ByteMem :=
  readsegLoop disk (pa + count) n (pa &&& ~~~(511#32)) (offset / 512#32 + 1#32) m

/-- What `bootmain` reads of a `struct Proghdr`. -/
structure BootSeg where
  pOffset : Word
  pPa : Word
  pMemsz : Word
  deriving DecidableEq

def bootSegAt (m : ByteMem) (ph : Word) : BootSeg := ⟨loadWord m (ph + 4#32), loadWord m (ph + 12#32), loadWord m (ph + 20#32)⟩

/-- The loop of `bootmain` over the program headers, for at most `k` of them. -/
def bootLoop (disk : Bool → ℕ → BitVec 8) (n : ℕ) (eph : Word) : ℕ → Word → ByteMem → Option ByteMem
  | 0, _, _ => none
  | k + 1, ph, m =>
    if ph < eph then do
      let s := bootSegAt m ph
      let m ← readseg disk n s.pPa s.pMemsz s.pOffset m
      bootLoop disk n eph k (ph + 32#32) m
    else some m

/-- `ELFHDR`. -/
def elfhdr : Word := 0x10000#32

/-- How `bootmain` ends: in the loop behind `bad`, or in the kernel. -/
inductive BootEnd where
  | bad
  | entered (eip : Word)

/-- `bootmain()`, where each of its loops takes less than `n` rounds. -/
def bootmain (disk : Bool → ℕ → BitVec 8) (n : ℕ) (m : ByteMem) : Option (BootEnd × ByteMem) := do
  let m ← readseg disk n elfhdr 4096#32 0#32 m
  if loadWord m elfhdr ≠ elfMagic then some (.bad, m)
  else
    let ph := elfhdr + loadWord m (elfhdr + 28#32)
    let phnum := m (elfhdr + 45#32) ++ m (elfhdr + 44#32)
    let m ← bootLoop disk n (ph + 32#32 * phnum.setWidth 32) n ph m
    some (.entered (loadWord m (elfhdr + 24#32)), m)

/-- The word at the offset `i` of the kernel's image. -/
def imageWord (image : ℕ → BitVec 8) (i : ℕ) : Word := image (i + 3) ++ image (i + 2) ++ image (i + 1) ++ image i

def imagePhoff (image : ℕ → BitVec 8) : ℕ := (imageWord image 28).toNat

def imagePhnum (image : ℕ → BitVec 8) : ℕ := (image 45 ++ image 44).toNat

/-- The `j`-th segment of the image. -/
def imageSeg (image : ℕ → BitVec 8) (j : ℕ) : BootSeg :=
  ⟨imageWord image (imagePhoff image + 32 * j + 4), imageWord image (imagePhoff image + 32 * j + 12),
    imageWord image (imagePhoff image + 32 * j + 20)⟩

def imageSegs (image : ℕ → BitVec 8) : List BootSeg := (List.range (imagePhnum image)).map (imageSeg image)

namespace BootSeg

/-- The sectors of memory that a segment is read to begin at `first`. -/
def first (s : BootSeg) : ℕ := s.pPa.toNat / 512 * 512

def sectors (s : BootSeg) : ℕ := (s.pPa.toNat + s.pMemsz.toNat - s.first + 511) / 512

/-- The address `x` is in the sectors of the segment. -/
def Covers (s : BootSeg) (x : Word) : Prop := s.first ≤ x.toNat ∧ x.toNat < s.first + 512 * s.sectors

instance (s : BootSeg) (x : Word) : Decidable (s.Covers x) := inferInstanceAs (Decidable (_ ∧ _))

/-- The memory with the segment in it, and what the disk has around it. -/
def place (image : ℕ → BitVec 8) (m : ByteMem) (s : BootSeg) : ByteMem := fun x =>
  if s.Covers x then image (s.pOffset.toNat / 512 * 512 + (x.toNat - s.first)) else m x

/-- The segment lies behind the page of the ELF header, if anything is read for it, and a sector in front of the end of the
address space. -/
structure Fits (s : BootSeg) : Prop where
  above : 0 < s.sectors → 0x11000 ≤ s.pPa.toNat
  below : s.pPa.toNat + s.pMemsz.toNat + 512 ≤ 2 ^ 32

/-- The segment and its place in the image are equally far from a sector's begin. -/
def Aligned (s : BootSeg) : Prop := s.pPa.toNat % 512 = s.pOffset.toNat % 512

/-- What is read for `t` does not spoil a byte of `s`. -/
def Spares (s t : BootSeg) : Prop :=
  s.pPa.toNat + t.pOffset.toNat = t.pPa.toNat + s.pOffset.toNat ∨
    ∀ x : Word, s.pPa.toNat ≤ x.toNat → x.toNat < s.pPa.toNat + s.pMemsz.toNat → ¬ t.Covers x

end BootSeg

/-- An image that `bootmain` can load. -/
structure Bootable (image : ℕ → BitVec 8) : Prop where
  magic : imageWord image 0 = elfMagic
  headers : imagePhoff image + 32 * imagePhnum image ≤ 4096
  fits : ∀ s ∈ imageSegs image, s.Fits

section Sectors

variable {disk : Bool → ℕ → BitVec 8} {m : ByteMem} {dst offset endPa pa x : Word} {n : ℕ}

theorem toNat_sector (w : Word) : (w &&& ~~~(511#32)).toNat = w.toNat / 512 * 512 := by
  have hlow : ∀ i < 32, (511#32).getLsbD i = decide (i < 9) := by decide
  -- the mask takes away the lowest nine bits
  have hw : w &&& ~~~(511#32) = (w >>> 9) <<< 9 := by
    apply BitVec.eq_of_getLsbD_eq
    intro i hi
    rw [BitVec.getLsbD_and, BitVec.getLsbD_not, hlow i hi, BitVec.getLsbD_shiftLeft, BitVec.getLsbD_ushiftRight]
    by_cases h9 : i < 9
    · simp [h9]
    · simp [h9, hi, show 9 + (i - 9) = i by omega]
  have hlt := w.isLt
  rw [hw, BitVec.toNat_shiftLeft, BitVec.toNat_ushiftRight, Nat.shiftLeft_eq, Nat.shiftRight_eq_div_pow]
  omega

/-- The drive is asked for the sector that is meant. -/
theorem driveSector_of_lt (h : offset.toNat < 2 ^ 24) :
    driveSector (offset.setWidth 8) ((offset >>> 8).setWidth 8) ((offset >>> 16).setWidth 8)
      ((offset >>> 24 ||| 0xE0#32).setWidth 8) = (false, offset.toNat) := by
  -- what the last port gets beside the number of the sector asks for the first drive
  have hhigh : offset >>> 24 = 0#32 := by
    apply BitVec.eq_of_toNat_eq
    rw [BitVec.toNat_ushiftRight, Nat.shiftRight_eq_div_pow]
    exact Nat.div_eq_of_lt h
  have hlast : ((0#32 ||| 0xE0#32).setWidth 8 : BitVec 8) = 0xE0#8 := by decide
  have hnibble : (0xE0#8 &&& 0xF#8).toNat = 0 := by decide
  have hdrive : (0xE0#8).getLsbD 4 = false := by decide
  unfold driveSector
  rw [hhigh, hlast, hnibble, hdrive]
  congr 1
  simp only [BitVec.toNat_setWidth, BitVec.toNat_ushiftRight, Nat.shiftRight_eq_div_pow]
  omega

theorem readsect_apply (h : offset.toNat < 2 ^ 24) : readsect disk dst offset m x =
    if InSpan dst 512 x then disk false (512 * offset.toNat + (x - dst).toNat) else m x := by
  unfold readsect writeBytes
  rw [driveSector_of_lt h]
  by_cases hx : InSpan dst 512 x
  · have hlt : (x - dst).toNat < 512 := hx
    rw [if_pos hx, List.getElem?_map, List.getElem?_range hlt]
    rfl
  · rw [if_neg hx, List.getElem?_eq_none (by
      rw [List.length_map, List.length_range]
      exact Nat.le_of_not_lt hx)]
    rfl

/-- `readseg` takes `r` rounds, for the sectors up to the end. -/
theorem readsegLoop_reads (r : ℕ) : ∀ {n pa offset m}, r < n → pa.toNat + 512 * r < 2 ^ 32 → endPa.toNat ≤ pa.toNat + 512 * r →
    pa.toNat + 512 * r < endPa.toNat + 512 → offset.toNat + r ≤ 2 ^ 24 → readsegLoop disk endPa n pa offset m =
      some fun x => if InSpan pa (512 * r) x then disk false (512 * offset.toNat + (x - pa).toNat) else m x := by
  induction r with
  | zero =>
    intro n pa offset m hn _ hend _ _
    obtain ⟨n, rfl⟩ := Nat.exists_eq_succ_of_ne_zero (Nat.ne_of_gt hn)
    -- the address has passed the end
    have hstop : ¬ pa < endPa := by
      rw [BitVec.lt_def]
      omega
    rw [readsegLoop, if_neg hstop]
    exact congrArg some (funext fun x => (if_neg (Nat.not_lt_zero _)).symm)
  | succ r ih =>
    intro n pa offset m hn hfit hend hlast hoff
    obtain ⟨n, rfl⟩ := Nat.exists_eq_succ_of_ne_zero (Nat.ne_of_gt (Nat.zero_lt_of_lt hn))
    have hgo : pa < endPa := by
      rw [BitVec.lt_def]
      omega
    -- neither the address nor the sector wraps around
    have hpa : (pa + 512#32).toNat = pa.toNat + 512 := by bv_omega
    have hnext : (offset + 1#32).toNat = offset.toNat + 1 := by bv_omega
    rw [readsegLoop, if_pos hgo, ih (by omega) (by omega) (by omega) (by omega) (by omega)]
    refine congrArg some (funext fun x => ?_)
    rw [readsect_apply (by omega), hnext]
    -- the sector that has been read, and those that are still to come
    by_cases hfirst : InSpan pa 512 x
    · have hlt : (x - pa).toNat < 512 := hfirst
      have hrest : ¬ InSpan (pa + 512#32) (512 * r) x := by
        unfold InSpan
        bv_omega
      have hall : InSpan pa (512 * (r + 1)) x := by
        unfold InSpan
        omega
      rw [if_neg hrest, if_pos hfirst, if_pos hall]
    · have hge : 512 ≤ (x - pa).toNat := Nat.le_of_not_lt hfirst
      have hsub : (x - (pa + 512#32)).toNat = (x - pa).toNat - 512 := by bv_omega
      have hrest : InSpan (pa + 512#32) (512 * r) x ↔ InSpan pa (512 * (r + 1)) x := by
        unfold InSpan
        omega
      rw [if_neg hfirst]
      by_cases hall : InSpan pa (512 * (r + 1)) x
      · rw [if_pos (hrest.mpr hall), if_pos hall]
        exact congrArg (disk false) (by omega)
      · rw [if_neg (mt hrest.mp hall), if_neg hall]

end Sectors

section Segments

variable {disk : Bool → ℕ → BitVec 8} {image : ℕ → BitVec 8} {m : ByteMem} {s t : BootSeg} {x : Word} {n i j : ℕ} {l : List BootSeg}

/-- The kernel's image is in the sectors behind the first one. -/
def kernelImage (disk : Bool → ℕ → BitVec 8) (i : ℕ) : BitVec 8 := disk false (512 + i)

/-- `readseg` brings the sectors of a segment to their place. -/
theorem readseg_places (hfit : s.pPa.toNat + s.pMemsz.toNat + 512 ≤ 2 ^ 32) (hn : 2 ^ 23 < n) :
    readseg disk n s.pPa s.pMemsz s.pOffset m = some (BootSeg.place (kernelImage disk) m s) := by
  have hstart := toNat_sector s.pPa
  have hend : (s.pPa + s.pMemsz).toNat = s.pPa.toNat + s.pMemsz.toNat := by bv_omega
  have hoff : (s.pOffset / 512#32 + 1#32).toNat = s.pOffset.toNat / 512 + 1 := by
    have hlt := s.pOffset.isLt
    have hdiv : (s.pOffset / 512#32).toNat = s.pOffset.toNat / 512 := BitVec.toNat_udiv
    rw [BitVec.toNat_add, hdiv]
    change (s.pOffset.toNat / 512 + 1) % 2 ^ 32 = _
    omega
  have hlt := s.pOffset.isLt
  unfold readseg
  -- at most 2 ^ 23 sectors, from 2 ^ 23 on at the latest: the drive can tell them apart
  have hsec : s.sectors = (s.pPa.toNat + s.pMemsz.toNat - s.pPa.toNat / 512 * 512 + 511) / 512 := rfl
  rw [readsegLoop_reads s.sectors (by omega) (by omega) (by omega) (by omega) (by omega)]
  refine congrArg some (funext fun x => ?_)
  have hspan : InSpan (s.pPa &&& ~~~(511#32)) (512 * s.sectors) x ↔ s.Covers x := by
    unfold InSpan BootSeg.Covers BootSeg.first
    -- an address in front of the first sector is far behind it modulo 2 ^ 32
    by_cases hx : s.pPa.toNat / 512 * 512 ≤ x.toNat
    · have hsub : (x - (s.pPa &&& ~~~(511#32))).toNat = x.toNat - s.pPa.toNat / 512 * 512 := by bv_omega
      omega
    · have hsub : (x - (s.pPa &&& ~~~(511#32))).toNat = 2 ^ 32 + x.toNat - s.pPa.toNat / 512 * 512 := by bv_omega
      omega
  unfold BootSeg.place
  by_cases hc : s.Covers x
  · have hge : s.pPa.toNat / 512 * 512 ≤ x.toNat := hc.1
    have hsub : (x - (s.pPa &&& ~~~(511#32))).toNat = x.toNat - s.first := by
      rw [BootSeg.first]
      bv_omega
    rw [if_pos (hspan.mpr hc), if_pos hc, hoff, hsub, kernelImage]
    exact congrArg (disk false) (by omega)
  · rw [if_neg (mt hspan.mp hc), if_neg hc]

/-- The page that `bootmain` reads first. -/
def headerSeg : BootSeg := ⟨0#32, elfhdr, 4096#32⟩

def HeaderAt (image : ℕ → BitVec 8) (m : ByteMem) : Prop := ∀ i < 4096, m (elfhdr + BitVec.ofNat 32 i) = image i

theorem elfhdr_toNat (hi : i < 4096) : (elfhdr + BitVec.ofNat 32 i).toNat = 65536 + i := by
  have helf : elfhdr.toNat = 65536 := rfl
  bv_omega

theorem headerAt_place (image : ℕ → BitVec 8) (m : ByteMem) : HeaderAt image (BootSeg.place image m headerSeg) := by
  intro i hi
  have hfirst : headerSeg.first = 65536 := rfl
  have hsectors : headerSeg.sectors = 8 := rfl
  have hx := elfhdr_toNat hi
  unfold BootSeg.place
  rw [if_pos (by
    unfold BootSeg.Covers
    omega), hx, hfirst]
  have hoff : headerSeg.pOffset.toNat = 0 := rfl
  exact congrArg image (by omega)

/-- The segments leave the page of the header alone. -/
theorem HeaderAt.place (h : HeaderAt image m) (hs : s.Fits) : HeaderAt image (BootSeg.place image m s) := by
  intro i hi
  have hx := elfhdr_toNat hi
  rw [← h i hi]
  unfold BootSeg.place
  refine if_neg fun hc => ?_
  have hfirst : s.first = s.pPa.toNat / 512 * 512 := rfl
  obtain ⟨hge, hlt⟩ := hc
  have habove := hs.above (by omega)
  omega

theorem HeaderAt.foldl (h : HeaderAt image m) (hl : ∀ s ∈ l, s.Fits) : HeaderAt image (l.foldl (BootSeg.place image) m) := by
  induction l generalizing m with
  | nil => exact h
  | cons s l ih => exact ih (h.place (hl s List.mem_cons_self)) fun t ht => hl t (List.mem_cons_of_mem s ht)

theorem HeaderAt.word (h : HeaderAt image m) (hi : i + 4 ≤ 4096) : loadWord m (elfhdr + BitVec.ofNat 32 i) = imageWord image i := by
  have hbyte (d : ℕ) (hd : d < 4) : m (elfhdr + BitVec.ofNat 32 i + BitVec.ofNat 32 d) = image (i + d) := by
    rw [← h (i + d) (by omega)]
    congr 1
    bv_omega
  unfold loadWord imageWord
  rw [hbyte 3 (by decide), hbyte 2 (by decide), hbyte 1 (by decide), h i (by omega)]

/-- The loop of `bootmain` puts the segments to their places, one after the other. -/
theorem bootLoop_places (h : Bootable (kernelImage disk)) (hn : 2 ^ 23 < n) (k : ℕ) : ∀ {fuel j m}, k < fuel →
    j + k = imagePhnum (kernelImage disk) → HeaderAt (kernelImage disk) m →
    bootLoop disk n (elfhdr + BitVec.ofNat 32 (imagePhoff (kernelImage disk) + 32 * imagePhnum (kernelImage disk))) fuel
      (elfhdr + BitVec.ofNat 32 (imagePhoff (kernelImage disk) + 32 * j)) m =
    some (((List.range' j k).map (imageSeg (kernelImage disk))).foldl (BootSeg.place (kernelImage disk)) m) := by
  have hhdrs := h.headers
  have helf : elfhdr.toNat = 65536 := rfl
  induction k with
  | zero =>
    intro fuel j m hfuel hj _
    obtain ⟨fuel, rfl⟩ := Nat.exists_eq_succ_of_ne_zero (Nat.ne_of_gt hfuel)
    rw [bootLoop, if_neg, List.range'_zero]
    · rfl
    · rw [← hj, Nat.add_zero]
      exact Nat.lt_irrefl _
  | succ k ih =>
    intro fuel j m hfuel hj hm
    obtain ⟨fuel, rfl⟩ := Nat.exists_eq_succ_of_ne_zero (Nat.ne_of_gt (Nat.zero_lt_of_lt hfuel))
    -- the header `j` is in the page that has been read, and no segment has overwritten it
    have hgo : elfhdr + BitVec.ofNat 32 (imagePhoff (kernelImage disk) + 32 * j) <
        elfhdr + BitVec.ofNat 32 (imagePhoff (kernelImage disk) + 32 * imagePhnum (kernelImage disk)) := by
      rw [BitVec.lt_def]
      bv_omega
    have hword (d : ℕ) (hd : d + 4 ≤ 32) : loadWord m (elfhdr + BitVec.ofNat 32 (imagePhoff (kernelImage disk) + 32 * j) +
        BitVec.ofNat 32 d) = imageWord (kernelImage disk) (imagePhoff (kernelImage disk) + 32 * j + d) := by
      rw [← hm.word (by omega)]
      congr 1
      bv_omega
    have hseg : bootSegAt m (elfhdr + BitVec.ofNat 32 (imagePhoff (kernelImage disk) + 32 * j)) = imageSeg (kernelImage disk) j := by
      unfold bootSegAt imageSeg
      rw [hword 4 (by decide), hword 12 (by decide), hword 20 (by decide)]
    have hmem : imageSeg (kernelImage disk) j ∈ imageSegs (kernelImage disk) :=
      List.mem_map_of_mem (List.mem_range.mpr (by omega))
    have hfit := h.fits _ hmem
    have hph : elfhdr + BitVec.ofNat 32 (imagePhoff (kernelImage disk) + 32 * j) + 32#32 =
        elfhdr + BitVec.ofNat 32 (imagePhoff (kernelImage disk) + 32 * (j + 1)) := by bv_omega
    rw [bootLoop, if_pos hgo]
    dsimp only
    rw [hseg, readseg_places hfit.below hn, hph]
    change bootLoop disk n _ fuel _ (BootSeg.place (kernelImage disk) m (imageSeg (kernelImage disk) j)) = _
    rw [ih (by omega) (by omega) (hm.place hfit), List.range'_succ]
    rfl

/-- What `bootmain` does with an image that it can load. -/
theorem bootmain_places (h : Bootable (kernelImage disk)) (hn : 2 ^ 23 < n) (m : ByteMem) : bootmain disk n m =
    some (.entered (imageWord (kernelImage disk) 24),
      (imageSegs (kernelImage disk)).foldl (BootSeg.place (kernelImage disk)) (BootSeg.place (kernelImage disk) m headerSeg)) := by
  have hheader : readseg disk n elfhdr 4096#32 0#32 m = some (BootSeg.place (kernelImage disk) m headerSeg) :=
    readseg_places (s := headerSeg) (by decide) hn
  have hat := headerAt_place (kernelImage disk) m
  have hhdrs := h.headers
  have hword {i : ℕ} (hi : i + 4 ≤ 4096) := hat.word hi
  have hmagic : loadWord (BootSeg.place (kernelImage disk) m headerSeg) elfhdr = elfMagic := (hword (i := 0) (by decide)).trans h.magic
  have hphoff : elfhdr + loadWord (BootSeg.place (kernelImage disk) m headerSeg) (elfhdr + 28#32) =
      elfhdr + BitVec.ofNat 32 (imagePhoff (kernelImage disk) + 32 * 0) := by
    rw [hword (i := 28) (by decide), Nat.mul_zero, Nat.add_zero, imagePhoff, BitVec.ofNat_toNat, BitVec.setWidth_eq]
  have hphnum : BootSeg.place (kernelImage disk) m headerSeg (elfhdr + 45#32) ++
      BootSeg.place (kernelImage disk) m headerSeg (elfhdr + 44#32) = kernelImage disk 45 ++ kernelImage disk 44 := by
    rw [hat 45 (by decide), hat 44 (by decide)]
  have heph : elfhdr + BitVec.ofNat 32 (imagePhoff (kernelImage disk) + 32 * 0) +
      32#32 * (kernelImage disk 45 ++ kernelImage disk 44).setWidth 32 =
      elfhdr + BitVec.ofNat 32 (imagePhoff (kernelImage disk) + 32 * imagePhnum (kernelImage disk)) := by
    have hnum : (kernelImage disk 45 ++ kernelImage disk 44).setWidth 32 = BitVec.ofNat 32 (imagePhnum (kernelImage disk)) :=
      BitVec.eq_of_toNat_eq (by
        rw [BitVec.toNat_setWidth, BitVec.toNat_ofNat]
        rfl)
    rw [hnum]
    bv_omega
  unfold bootmain
  rw [hheader]
  change (if loadWord _ elfhdr ≠ elfMagic then _ else _) = _
  rw [if_neg (not_not.mpr hmagic)]
  rw [hphoff, hphnum, heph, bootLoop_places h hn (imagePhnum (kernelImage disk)) (by omega) (Nat.zero_add _) hat,
    ← List.range_eq_range']
  -- the entry point is read after the segments
  have hentry := (hat.foldl h.fits).word (i := 24) (by decide)
  exact congrArg (fun eip => some (BootEnd.entered eip, _)) hentry

theorem place_byte (hs : s.Fits) (hal : s.Aligned) (hi : i < s.pMemsz.toNat) :
    BootSeg.place image m s (s.pPa + BitVec.ofNat 32 i) = image (s.pOffset.toNat + i) := by
  have hbelow := hs.below
  have hx : (s.pPa + BitVec.ofNat 32 i).toNat = s.pPa.toNat + i := by bv_omega
  have hfirst : s.first = s.pPa.toNat / 512 * 512 := rfl
  have hsec : s.sectors = (s.pPa.toNat + s.pMemsz.toNat - s.first + 511) / 512 := rfl
  have hmod : s.pPa.toNat % 512 = s.pOffset.toNat % 512 := hal
  unfold BootSeg.place
  rw [if_pos (by
    unfold BootSeg.Covers
    omega), hx]
  exact congrArg image (by omega)

/-- The segments behind one that they spare leave its bytes as they are. -/
theorem foldl_byte (hs : s.Fits) (hi : i < s.pMemsz.toNat) (hl : ∀ t ∈ l, t.Aligned ∧ s.Spares t) : ∀ {m : ByteMem},
    m (s.pPa + BitVec.ofNat 32 i) = image (s.pOffset.toNat + i) →
    l.foldl (BootSeg.place image) m (s.pPa + BitVec.ofNat 32 i) = image (s.pOffset.toNat + i) := by
  have hbelow := hs.below
  have hx : (s.pPa + BitVec.ofNat 32 i).toNat = s.pPa.toNat + i := by bv_omega
  induction l with
  | nil =>
    intro m hm
    exact hm
  | cons t l ih =>
    intro m hm
    refine ih (fun t' ht' => hl t' (List.mem_cons_of_mem t ht')) ?_
    obtain ⟨hal, hspares⟩ := hl t List.mem_cons_self
    unfold BootSeg.place
    by_cases hc : t.Covers (s.pPa + BitVec.ofNat 32 i)
    · rw [if_pos hc]
      obtain hsame | hapart := hspares
      · -- what comes again is the same byte
        have hmod : t.pPa.toNat % 512 = t.pOffset.toNat % 512 := hal
        have hfirst : t.first = t.pPa.toNat / 512 * 512 := rfl
        have hge := hc.1
        rw [hx]
        exact congrArg image (by omega)
      · exact absurd hc (hapart _ (by omega) (by omega))
    · rw [if_neg hc]
      exact hm

theorem foldl_segments (hfits : ∀ s ∈ l, s.Fits) (hal : ∀ s ∈ l, s.Aligned) (hsp : l.Pairwise BootSeg.Spares) : ∀ {m : ByteMem},
    ∀ s ∈ l, ∀ i < s.pMemsz.toNat, l.foldl (BootSeg.place image) m (s.pPa + BitVec.ofNat 32 i) = image (s.pOffset.toNat + i) := by
  induction l with
  | nil => exact fun s hs => absurd hs List.not_mem_nil
  | cons t l ih =>
    intro m s hs i hi
    rw [List.pairwise_cons] at hsp
    have hal' : ∀ s ∈ l, s.Aligned := fun s hs => hal s (List.mem_cons_of_mem t hs)
    -- the segment itself, and then those behind it that spare it
    rcases List.mem_cons.mp hs with rfl | hs
    · exact foldl_byte (hfits s List.mem_cons_self) hi (fun t ht => ⟨hal' t ht, hsp.1 t ht⟩)
        (place_byte (hfits s List.mem_cons_self) (hal s List.mem_cons_self) hi)
    · exact ih (fun s hs => hfits s (List.mem_cons_of_mem t hs)) hal' hsp.2 s hs i hi

theorem foldl_outside (hl : ∀ s ∈ l, ¬ s.Covers x) : ∀ {m : ByteMem}, l.foldl (BootSeg.place image) m x = m x := by
  induction l with
  | nil => exact rfl
  | cons s l ih =>
    intro m
    have hs : BootSeg.place image m s x = m x := if_neg (hl s List.mem_cons_self)
    exact (ih fun t ht => hl t (List.mem_cons_of_mem s ht)).trans hs

/-- `bootmain` enters the kernel with every segment of its image in its place and with the memory around the sectors as it was, if
the segments lie like their places in the image and none is read over another one. -/
theorem bootmain_loads (h : Bootable (kernelImage disk)) (hal : ∀ s ∈ imageSegs (kernelImage disk), s.Aligned)
    (hsp : (imageSegs (kernelImage disk)).Pairwise BootSeg.Spares) (hn : 2 ^ 23 < n) (m : ByteMem) :
    ∃ m', bootmain disk n m = some (.entered (imageWord (kernelImage disk) 24), m') ∧
      (∀ s ∈ imageSegs (kernelImage disk), ∀ i < s.pMemsz.toNat,
        m' (s.pPa + BitVec.ofNat 32 i) = kernelImage disk (s.pOffset.toNat + i)) ∧
      ∀ x, ¬ headerSeg.Covers x → (∀ s ∈ imageSegs (kernelImage disk), ¬ s.Covers x) → m' x = m x := by
  refine ⟨_, bootmain_places h hn m, foldl_segments h.fits hal hsp, fun x hheader hsegs => ?_⟩
  rw [foldl_outside hsegs]
  exact if_neg hheader

/-- A disk with the header of a kernel of one segment, and of another one without any bytes. -/
def oneSegment (_ : Bool) (i : ℕ) : BitVec 8 :=
  ([(512, 0x7F#8), (513, 0x45#8), (514, 0x4C#8), (515, 0x46#8), (536, 0x0C#8), (538, 0x10#8), (540, 0x34#8), (556, 2#8), (569, 0x10#8),
    (578, 0x10#8), (585, 4#8)].lookup i).getD 0#8

theorem bootmain_loads_one : ∃ m', bootmain oneSegment (2 ^ 23 + 1) (fun _ => 0#8) =
      some (.entered (imageWord (kernelImage oneSegment) 24), m') ∧
    (∀ s ∈ imageSegs (kernelImage oneSegment), ∀ i < s.pMemsz.toNat,
      m' (s.pPa + BitVec.ofNat 32 i) = kernelImage oneSegment (s.pOffset.toNat + i)) ∧
    ∀ x, ¬ headerSeg.Covers x → (∀ s ∈ imageSegs (kernelImage oneSegment), ¬ s.Covers x) → m' x = 0#8 := by
  have hfacts : imageSegs (kernelImage oneSegment) = [⟨0x1000#32, 0x100000#32, 0x400#32⟩, ⟨0#32, 0#32, 0#32⟩] ∧
      imageWord (kernelImage oneSegment) 0 = elfMagic ∧
      imagePhoff (kernelImage oneSegment) + 32 * imagePhnum (kernelImage oneSegment) ≤ 4096 := by decide +kernel
  obtain ⟨hsegs, hmagic, hheaders⟩ := hfacts
  have hcases {s : BootSeg} (hs : s ∈ imageSegs (kernelImage oneSegment)) :
      s = ⟨0x1000#32, 0x100000#32, 0x400#32⟩ ∨ s = ⟨0#32, 0#32, 0#32⟩ := by
    rw [hsegs] at hs
    simpa only [List.mem_cons, List.not_mem_nil, or_false] using hs
  refine bootmain_loads ⟨hmagic, hheaders, fun s hs => ?_⟩ (fun s hs => ?_) ?_ (Nat.lt_succ_self _) _
  · obtain rfl | rfl := hcases hs
    · exact ⟨fun _ => by decide, by decide⟩
    · exact ⟨fun h => absurd h (by decide), by decide⟩
  · obtain rfl | rfl := hcases hs
    · rfl
    · rfl
  · rw [hsegs]
    refine List.pairwise_pair.mpr (Or.inr fun x _ _ hc => ?_)
    -- nothing is read for the second one
    exact absurd (Nat.lt_of_le_of_lt hc.1 hc.2) (by decide)

end Segments
end Sisop
