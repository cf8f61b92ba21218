import Sisop.FileBlocks

/-! When `file_create` fails it has changed nothing, unless it was to add a block to the
directory and there was none. -/
namespace Sisop

/-- How a search through the blocks of a directory ends: with a file, behind the last block, or at a block that is not there. -/
inductive Search where
  | found (f : Word)
  | absent
  | hole (i : ℕ)

/-- The search for a file of some kind in `n` blocks of a directory, from block `i` on. -/
def search (m : ByteMem) (p : Word → Bool) (d : Word) : ℕ → ℕ → Search
  | 0, _ => .absent
  | n + 1, i => match blockAt m d i with
    | none => .hole i
    | some blk => match (List.range blkfiles).find? fun j => p (entryAddr blk j) with
      | some j => .found (entryAddr blk j)
      | none => search m p d n (i + 1)

/-- The search for a name in a whole directory. -/
def searchName (m : ByteMem) (d : Word) (name : Name) : Search :=
  search m (fun f => decide (nameAt m f = name)) d (dirLength m d) 0

/-- A directory in which a name can be searched for. -/
structure Searched (m : ByteMem) (d : Word) (name : Name) : Prop where
  dir : fType m d = ftypeDir
  size : (fSize m d).srem 4096#32 = 0#32
  len : name.length < maxnamelen

/-- The names lead from the root to a file, and no block was missing on the way. -/
inductive Finds (m : ByteMem) : List Name → Option Word → Word → Prop where
  | root : Finds m [] none rootAddr
  | step {ns : List Name} {name : Name} {dir : Option Word} {d f : Word} (h : Finds m ns dir d) (hd : Searched m d name)
      (hname : searchName m d name = .found f) : Finds m (ns ++ [name]) (some d) f

/-- No file of the directory is free. -/
def DirFull (m : ByteMem) (d : Word) : Prop := ∀ f ∈ filesFrom m d 0 (dirLength m d), m f ≠ 0#8

/-- The directory for the last name of a path is full, and there is no place for the number of
another block. -/
def Stuck (m : ByteMem) (path : List (BitVec 8)) : Prop :=
  ∃ ns dir d name, components path = ns ++ [name] ∧ Finds m ns dir d ∧ Searched m d name ∧ searchName m d name = .absent ∧
    DirFull m d ∧ (ndirect + nindirect ≤ dirLength m d ∨ NeedsIndirect m d (dirLength m d) ∧ freeSet m = ∅)

/-- `file_get_block` takes a free block for block `i` of a file. -/
def TakesBlock (m : ByteMem) (f : Word) (i : ℕ) : Prop :=
  freeSet m ≠ ∅ ∧ (NeedsIndirect m f i ∨ ∃ slot, slotAt m f i = some slot ∧ loadWord m slot = 0#32)

/-- The search for one of the names comes to a block that is not there, and takes one for it. -/
def Refills (m : ByteMem) (ns : List Name) : Prop :=
  ∃ ns₁ name ns₂ dir d i, ns = ns₁ ++ name :: ns₂ ∧ Finds m ns₁ dir d ∧ Searched m d name ∧ searchName m d name = .hole i ∧
    TakesBlock m d i

/-- A `file_create` that fails leaves all of the file system as it was. -/
def CreateKeeps (s : Fs) (path : List (BitVec 8)) : Prop :=
  ∀ e s', fileCreate fileGetBlock path s = .ret (.error e) s' → s'.mem = s.mem

section Errors

variable {s s' : Fs} {m : ByteMem} {f slot : Word} {i : ℕ} {e : FsErr}

theorem getSlot_ok {r : Except FsErr Word} (h : getSlot slot s = .ret r s') : ∃ blk, r = .ok blk := by
  unfold getSlot at h
  rw [Routine.bind_ret (Routine.get_run s)] at h
  split_ifs at h with hz
  · obtain ⟨-, -, -, rfl⟩ := slotBlock_ret h
    exact ⟨_, rfl⟩
  · obtain ⟨b, t, -, h⟩ := Routine.bind_eq_ret.mp h
    obtain ⟨-, u, -, h⟩ := Routine.bind_eq_ret.mp h
    obtain ⟨-, -, -, rfl⟩ := slotBlock_ret h
    exact ⟨_, rfl⟩

/-- The two errors of `file_get_block`, after both of which nothing has changed. -/
theorem fileGetBlock_error (h : FileOk s.mem f) (hr : fileGetBlock f i s = .ret (.error e) s') :
    s' = s ∧ (ndirect + nindirect ≤ i ∨ NeedsIndirect s.mem f i ∧ freeSet s.mem = ∅) := by
  rcases h.slot_cases i with hlarge | ⟨slot, hslot⟩ | hneeds
  · rw [fileGetBlock_inval hlarge] at hr
    exact ⟨(Outcome.ret.inj hr).2.symm, Or.inl hlarge⟩
  · rw [fileGetBlock_slot hslot] at hr
    obtain ⟨blk, heq⟩ := getSlot_ok hr
    cases heq
  · by_cases hfull : freeSet s.mem = ∅
    · rw [fileGetBlock_full hneeds hfull] at hr
      exact ⟨(Outcome.ret.inj hr).2.symm, Or.inr ⟨hneeds, hfull⟩⟩
    · obtain ⟨c, hc⟩ := exists_least (Set.nonempty_iff_ne_empty.mpr hfull)
      obtain ⟨t, slot, -, -, -, hget⟩ := fileGetBlock_indirect h hneeds hc
      rw [hget] at hr
      obtain ⟨blk, heq⟩ := getSlot_ok hr
      cases heq

/-- The size of a file is stored. -/
theorem FileOk.size_changed (h : FileOk m f) (w : Word) :
    FileOk (storeWord m (fSizeAddr f) w) f ∧ fIndirect (storeWord m (fSizeAddr f) w) f = fIndirect m f ∧
      freeSet (storeWord m (fSizeAddr f) w) = freeSet m ∧ nblocksIn (storeWord m (fSizeAddr f) w) = nblocksIn m := by
  obtain ⟨hblock, hlo, hhi, hbase, hbound⟩ := h.home
  have haddr := fSizeAddr_toNat hbound
  have hm : SameOutside m (storeWord m (fSizeAddr f) w) (f.toNat + 128) 4 := by
    rw [← haddr]
    exact storeWord_sameOutside (by omega)
  have harea : f.toNat + 128 + 4 ≤ 0x10002000 ∨ 0x10000000 + dataStart m * 4096 ≤ f.toNat + 128 := by
    obtain hone | hdata := hblock
    · rw [hone] at hhi
      omega
    · have hstart := hdata.start
      omega
  have hn := nblocksIn_same hm (by omega)
  have hind := fIndirect_same hm hbound (by omega)
  have hbits (b : ℕ) (hb : b < nblocksIn m) := freeBit_same hm harea hb
  refine ⟨h.congr hn hind fun b hb hold => (hbits b hb).trans hold, hind, ?_, hn⟩
  ext b
  rw [mem_freeSet, mem_freeSet, hn]
  exact and_congr_right fun hb => by rw [hbits b hb]

end Errors

section Create

variable {s s' : Fs} {path : List (BitVec 8)} {d f : Word} {name : Name} {e : FsErr}

theorem walkPath_run (ht : DirTree s.mem) (h0 : 0#8 ∉ path) :
    walkPath fileGetBlock path s = .ret (resolveFrom s.mem (components path) none rootAddr) s := by
  have hskip : 0#8 ∉ skipSlash path := fun hmem => h0 ((List.dropWhile_suffix _).subset hmem)
  have hwalk := walkFrom_run ht Reaches.root hskip (head_skipSlash path)
  rw [components_skipSlash] at hwalk
  exact hwalk

/-- The first free file of a directory, in the order in which they are looked at. -/
def freeFile (m : ByteMem) (d : Word) : Option Word :=
  (filesFrom m d 0 (dirLength m d)).find? fun f => decide (m f = 0#8)

theorem freeFile_none {m : ByteMem} : freeFile m d = none ↔ DirFull m d := by
  unfold freeFile
  rw [List.find?_eq_none]
  simp only [decide_eq_true_eq]
  rfl

theorem dirAllocFile_free (h : DirOk s.mem d) (hf : freeFile s.mem d = some f) :
    dirAllocFile fileGetBlock d s = .ret (.ok f) s := by
  have hfind := h.find fun m f => decide (m f = 0#8)
  unfold freeFile at hf
  rw [hf] at hfind
  unfold dirAllocFile
  rw [Routine.bind_ret h.blocks_run, Routine.bind_ret hfind]
  rfl

/-- The directory gets larger before the block that it needs is there. -/
theorem dirAllocFile_grow (h : DirOk s.mem d) (hfull : DirFull s.mem d) : dirAllocFile fileGetBlock d s =
    fileGetBlock d (dirLength s.mem d) (s.storeUint (fSizeAddr d) (fSize s.mem d + 4096#32)) := by
  have hfind := h.find fun m f => decide (m f = 0#8)
  have hnone := freeFile_none.mpr hfull
  unfold freeFile at hnone
  rw [hnone] at hfind
  unfold dirAllocFile
  rw [Routine.bind_ret h.blocks_run, Routine.bind_ret hfind]
  rfl

/-- What `file_create` does when the walk has come to a missing name. -/
theorem fileCreate_walked (hwalk : walkPath fileGetBlock path s = .ret (.missing d name) s) :
    fileCreate fileGetBlock path s = (dirAllocFile fileGetBlock d >>= fun r => orReturn r fun f => do
      Routine.modify (Fs.storeBytes f (name ++ [0#8]))
      fileFlush d
      return .ok f) s := by
  unfold fileCreate
  rw [Routine.bind_ret hwalk]

/-- Where a new file is to be put, `file_create` fails only for want of a place for it. -/
theorem fileCreate_missing (ht : DirTree s.mem) (h0 : 0#8 ∉ path) (hm : Missing s.mem (components path) d name) :
    fileCreate fileGetBlock path s = (dirAllocFile fileGetBlock d >>= fun r => orReturn r fun f => do
      Routine.modify (Fs.storeBytes f (name ++ [0#8]))
      fileFlush d
      return .ok f) s := by
  have hwalk := walkPath_run ht h0
  rw [resolve_missing_iff.mpr hm] at hwalk
  exact fileCreate_walked hwalk

theorem Missing.reaches {m : ByteMem} {ns : List Name} (h : Missing m ns d name) :
    ∃ ns' dir, Reaches m ns' dir d ∧ fType m d = ftypeDir := by
  obtain ⟨ns', dir, -, hr, hdir, -⟩ := h
  exact ⟨ns', dir, hr, hdir⟩

section Holes

variable {m : ByteMem} {ns : List Name} {dir : Option Word} {i k n : ℕ} {p : Word → Bool} {r : Except FsErr Word}

theorem search_hole (h : search m p d n i = .hole k) : blockAt m d k = none := by
  induction n generalizing i with
  | zero => cases h
  | succ n ih =>
    unfold search at h
    split at h
    next hnone =>
      obtain rfl := Search.hole.inj h
      exact hnone
    next =>
      split at h
      · cases h
      · exact ih h

/-- A search to the end has seen all blocks. -/
theorem search_absent (h : search m p d n i = .absent) : ∀ j, i ≤ j → j < i + n → (blockAt m d j).isSome := by
  induction n generalizing i with
  | zero =>
    intro j hj hlt
    omega
  | succ n ih =>
    unfold search at h
    split at h
    · cases h
    next blk hblk =>
      split at h
      · cases h
      · intro j hj hlt
        obtain rfl | hlt' := Nat.eq_or_lt_of_le hj
        · rw [hblk]
          rfl
        · exact ih h j hlt' (by omega)

/-- Where all blocks are there the search goes over the files in order. -/
theorem search_of_blocks (h : ∀ j, i ≤ j → j < i + n → (blockAt m d j).isSome) :
    search m p d n i = ((filesFrom m d i n).find? p).elim .absent .found := by
  induction n generalizing i with
  | zero => rfl
  | succ n ih =>
    obtain ⟨blk, hblk⟩ := Option.isSome_iff_exists.mp (h i (Nat.le_refl i) (by omega))
    have hfiles : filesFrom m d i (n + 1) = (List.range blkfiles).map (entryAddr blk) ++ filesFrom m d (i + 1) n := by
      unfold filesFrom
      rw [List.range'_succ, List.flatMap_cons, hblk]
      rfl
    unfold search
    rw [hblk, hfiles, List.find?_append, List.find?_map, ih fun j hj hlt => h j (by omega) (by omega)]
    have hcomp : (p ∘ entryAddr blk) = fun j => p (entryAddr blk j) := rfl
    rw [hcomp]
    dsimp only
    cases (List.range blkfiles).find? fun j => p (entryAddr blk j) with
    | some j => rfl
    | none => rfl

theorem searchName_of_dirOk (h : DirOk m d) : searchName m d name = (lookupIn m d name).elim .absent .found :=
  search_of_blocks fun j _ hlt => h.blocks j (by omega)

/-- On a disk whose directories have all their blocks the names that are found are those that reach a file. -/
theorem Finds.reaches {dir : Option Word} (ht : DirTree m) (h : Finds m ns dir f) : Reaches m ns dir f := by
  induction h with
  | root => exact .root
  | step _ hd hname ih =>
    rw [searchName_of_dirOk (ht _ _ _ ih hd.dir)] at hname
    cases hf : lookupIn m _ _ with
    | none =>
      rw [hf] at hname
      cases hname
    | some f =>
      rw [hf] at hname
      exact .step ih hd.len hd.dir (hf.trans (congrArg some (Search.found.inj hname)))

/-- On such a disk no lookup takes a block. -/
theorem DirTree.not_refills (ht : DirTree m) (ns : List Name) : ¬ Refills m ns := by
  rintro ⟨ns₁, name, -, dir, d, i, -, h, hd, hhole, -⟩
  rw [searchName_of_dirOk (ht _ _ _ (h.reaches ht) hd.dir)] at hhole
  cases hf : lookupIn m d name with
  | none =>
    rw [hf] at hhole
    cases hhole
  | some f =>
    rw [hf] at hhole
    cases hhole

/-- The loop of `dir_lookup` up to where the search ends. -/
theorem dirFind_search (p : ByteMem → Word → Bool) (n i : ℕ) : match search s.mem (p s.mem) d n i with
    | .found f => dirFind fileGetBlock p d n i s = .ret (.ok (some f)) s
    | .absent => dirFind fileGetBlock p d n i s = .ret (.ok none) s
    | .hole k => ∃ l, dirFind fileGetBlock p d n i s = dirFind fileGetBlock p d (l + 1) k s := by
  induction n generalizing i with
  | zero => rfl
  | succ n ih =>
    unfold search
    cases hblk : blockAt s.mem d i with
    | none => exact ⟨n, rfl⟩
    | some blk =>
      have hrun : dirFind fileGetBlock p d (n + 1) i s =
          match (List.range blkfiles).find? fun j => p s.mem (entryAddr blk j) with
          | some j => .ret (.ok (some (entryAddr blk j))) s
          | none => dirFind fileGetBlock p d n (i + 1) s := by
        rw [dirFind, Routine.bind_ret (fileGetBlock_at hblk)]
        dsimp only [orReturn]
        rw [Routine.bind_ret (Routine.get_run s)]
        cases (List.range blkfiles).find? fun j => p s.mem (entryAddr blk j) with
        | some j => rfl
        | none => rfl
      rw [hrun]
      dsimp only
      cases (List.range blkfiles).find? fun j => p s.mem (entryAddr blk j) with
      | some j => rfl
      | none => exact ih (i + 1)

/-- A missing block for which none is taken is an error, or a panic. -/
theorem fileGetBlock_hole (h : FileOk s.mem d) (hb : blockAt s.mem d i = none) (htaken : ¬ TakesBlock s.mem d i)
    (hr : fileGetBlock d i s = .ret r s') : ∃ e, r = .error e ∧ e ≠ .notFound ∧ s' = s := by
  rcases h.slot_cases i with hlarge | ⟨slot, hslot⟩ | hneeds
  · rw [fileGetBlock_inval hlarge] at hr
    obtain ⟨rfl, rfl⟩ := Outcome.ret.inj hr
    exact ⟨_, rfl, by decide, rfl⟩
  · rw [fileGetBlock_slot hslot] at hr
    by_cases hz : loadWord s.mem slot = 0#32
    · have hfull : freeSet s.mem = ∅ := by
        by_contra hne
        exact htaken ⟨hne, Or.inr ⟨slot, hslot, hz⟩⟩
      rw [getSlot_full h hslot hz hfull] at hr
      cases hr
    · -- the number is no block of the disk
      have hbad : ¬ (loadWord s.mem slot ≠ 0#32 ∧ (loadWord s.mem slot).toNat < nblocksIn s.mem) := by
        intro hgood
        unfold blockAt at hb
        rw [hslot] at hb
        dsimp only [bind, Option.bind] at hb
        rw [if_pos hgood] at hb
        cases hb
      unfold getSlot slotBlock diskaddr at hr
      rw [Routine.bind_ret (Routine.get_run s), if_pos hz, Routine.bind_ret (Routine.get_run s), Routine.bind_assoc_run,
        Routine.bind_ret (Routine.get_run s), Routine.bind_assoc_run, Routine.panicUnless_bind_not hbad] at hr
      cases hr
  · have hfull : freeSet s.mem = ∅ := by
      by_contra hne
      exact htaken ⟨hne, Or.inl hneeds⟩
    rw [fileGetBlock_full hneeds hfull] at hr
    obtain ⟨rfl, rfl⟩ := Outcome.ret.inj hr
    exact ⟨_, rfl, by decide, rfl⟩

theorem dirBlocks_run (hsize : (fSize s.mem d).srem 4096#32 = 0#32) : dirBlocks d s = .ret (dirLength s.mem d) s := by
  unfold dirBlocks
  rw [Routine.bind_ret (Routine.get_run s), Routine.panicUnless_bind hsize]
  rfl

/-- The search of `dir_lookup`. -/
theorem dirLookup_eq (hd : Searched s.mem d name) (h0 : 0#8 ∉ name) : dirLookup fileGetBlock d name s =
    (dirFind fileGetBlock (fun m f => decide (nameAt m f = name)) d (dirLength s.mem d) 0 >>= fun r =>
      orReturn r fun f => pure (f.elim (.error .notFound) .ok)) s := by
  have hsame : (fun (m : ByteMem) f => nameIs m f name) = fun m f => decide (nameAt m f = name) := by
    funext m f
    rw [Bool.eq_iff_iff, decide_eq_true_iff]
    exact nameIs_iff h0 hd.len
  unfold dirLookup
  rw [Routine.bind_ret (dirBlocks_run hd.size), hsame]

theorem dirLookup_found (hd : Searched s.mem d name) (h0 : 0#8 ∉ name) (hf : searchName s.mem d name = .found f) :
    dirLookup fileGetBlock d name s = .ret (.ok f) s := by
  have hfind := dirFind_search (s := s) (d := d) (fun m f => decide (nameAt m f = name)) (dirLength s.mem d) 0
  unfold searchName at hf
  rw [hf] at hfind
  rw [dirLookup_eq hd h0, Routine.bind_ret hfind]
  rfl

theorem dirLookup_absent (hd : Searched s.mem d name) (h0 : 0#8 ∉ name) (hf : searchName s.mem d name = .absent) :
    dirLookup fileGetBlock d name s = .ret (.error .notFound) s := by
  have hfind := dirFind_search (s := s) (d := d) (fun m f => decide (nameAt m f = name)) (dirLength s.mem d) 0
  unfold searchName at hf
  rw [hf] at hfind
  rw [dirLookup_eq hd h0, Routine.bind_ret hfind]
  rfl

/-- A lookup that takes no block changes nothing, and finds the file or says that it is not there only if that is so. -/
theorem dirLookup_keeps (h : FileOk s.mem d) (hd : Searched s.mem d name) (h0 : 0#8 ∉ name)
    (hkeep : ∀ i, searchName s.mem d name = .hole i → ¬ TakesBlock s.mem d i) (hr : dirLookup fileGetBlock d name s = .ret r s') :
    s' = s ∧ (∀ f, r = .ok f → searchName s.mem d name = .found f) ∧
      (r = .error .notFound → searchName s.mem d name = .absent) := by
  cases hf : searchName s.mem d name with
  | found f =>
    rw [dirLookup_found hd h0 hf] at hr
    obtain ⟨rfl, rfl⟩ := Outcome.ret.inj hr
    exact ⟨rfl, fun f' heq => by rw [Except.ok.inj heq], fun heq => by cases heq⟩
  | absent =>
    rw [dirLookup_absent hd h0 hf] at hr
    obtain ⟨rfl, rfl⟩ := Outcome.ret.inj hr
    refine ⟨rfl, fun f heq => ?_, fun _ => rfl⟩
    cases heq
  | hole i =>
    have hfind := dirFind_search (s := s) (d := d) (fun m f => decide (nameAt m f = name)) (dirLength s.mem d) 0
    have hhole := hf
    unfold searchName at hf
    rw [hf] at hfind
    obtain ⟨l, hfind⟩ := hfind
    rw [dirLookup_eq hd h0] at hr
    obtain ⟨q, t, hq, hend⟩ := Routine.bind_eq_ret.mp hr
    rw [hfind] at hq
    unfold dirFind at hq
    obtain ⟨b, u, hb, hrest⟩ := Routine.bind_eq_ret.mp hq
    obtain ⟨e, rfl, hne, rfl⟩ := fileGetBlock_hole h (search_hole hf) (hkeep i hhole) hb
    obtain ⟨rfl, rfl⟩ := Outcome.ret.inj hrest
    obtain ⟨rfl, rfl⟩ := Outcome.ret.inj hend
    refine ⟨rfl, fun f heq => ?_, fun heq => absurd (Except.error.inj heq) hne⟩
    cases heq

/-- What is left of a path after its first name. -/
structure FirstName (path : List (BitVec 8)) (name : Name) (rest : List (BitVec 8)) : Prop where
  first : path.takeWhile (· ≠ slash) = name
  remains : skipSlash (path.dropWhile (· ≠ slash)) = rest
  names : components path = name :: components rest
  head : rest.head? ≠ some slash
  zero : 0#8 ∉ rest
  name_zero : 0#8 ∉ name

theorem firstName_of_ne (hne : path ≠ []) (hhead : path.head? ≠ some slash) (h0 : 0#8 ∉ path) :
    ∃ name rest, FirstName path name rest := by
  refine ⟨_, _, rfl, rfl, ?_, head_skipSlash _, zero_rest h0, fun hmem => h0 ((List.takeWhile_prefix _).subset hmem)⟩
  rw [components_skipSlash]
  exact components_cons hne hhead

theorem components_eq_nil (hhead : path.head? ≠ some slash) : components path = [] ↔ path = [] := by
  refine ⟨fun h => ?_, fun h => h ▸ components_nil⟩
  by_contra hne
  rw [components_cons hne hhead] at h
  exact List.cons_ne_nil _ _ h

/-- All files that names lead to, without a missing block on the way, are those of a consistent disk. -/
def FindsOk (m : ByteMem) : Prop := ∀ ns dir f, Finds m ns dir f → FileOk m f

/-- A walk that takes no block changes nothing, and where it says that the last name is missing that is so. -/
theorem walkFrom_keeps {w : Walk} (h : FindsOk s.mem) (hr : Finds s.mem ns dir f) (h0 : 0#8 ∉ path)
    (hhead : path.head? ≠ some slash) (hkeep : ¬ Refills s.mem (ns ++ components path))
    (hrun : walkFrom fileGetBlock path dir f s = .ret w s') : s' = s ∧ ∀ d name, w = .missing d name →
      ∃ ns₁ dir₁, ns ++ components path = ns₁ ++ [name] ∧ Finds s.mem ns₁ dir₁ d ∧ Searched s.mem d name ∧
        searchName s.mem d name = .absent := by
  -- by induction on the length of what is left of the path
  induction hn : path.length using Nat.strong_induction_on generalizing path ns dir f with
  | _ n ih =>
    subst hn
    unfold walkFrom at hrun
    by_cases hpath : path = []
    · rw [dif_pos hpath] at hrun
      obtain ⟨rfl, rfl⟩ := Outcome.ret.inj hrun
      exact ⟨rfl, nofun⟩
    · have hshort := skipSlash_shorter path hpath
      obtain ⟨name, rest, hfirst⟩ := firstName_of_ne hpath hhead h0
      rw [hfirst.remains] at hshort
      rw [dif_neg hpath, Routine.bind_ret (Routine.get_run s), hfirst.first, hfirst.remains] at hrun
      split_ifs at hrun with hlen hdir
      · obtain ⟨rfl, rfl⟩ := Outcome.ret.inj hrun
        exact ⟨rfl, nofun⟩
      · obtain ⟨rfl, rfl⟩ := Outcome.ret.inj hrun
        exact ⟨rfl, nofun⟩
      obtain ⟨r, t, hlookup, hrun⟩ := Routine.bind_eq_ret.mp hrun
      have hsize : (fSize s.mem f).srem 4096#32 = 0#32 := by
        by_contra hbad
        unfold dirLookup dirBlocks at hlookup
        rw [Routine.bind_assoc_run, Routine.bind_ret (Routine.get_run s), Routine.bind_assoc_run,
          Routine.panicUnless_bind_not hbad] at hlookup
        cases hlookup
      have hd : Searched s.mem f name := ⟨not_not.mp hdir, hsize, Nat.lt_of_not_le hlen⟩
      have hnames : ns ++ components path = ns ++ name :: components rest := by rw [hfirst.names]
      have hstay (i : ℕ) (hi : searchName s.mem f name = .hole i) : ¬ TakesBlock s.mem f i := fun htaken =>
        hkeep ⟨ns, name, components rest, dir, f, i, hnames, hr, hd, hi, htaken⟩
      obtain ⟨rfl, hfound, habsent⟩ := dirLookup_keeps (h ns dir f hr) hd hfirst.name_zero hstay hlookup
      cases r with
      | ok f' =>
        have hsplit : ns ++ components path = ns ++ [name] ++ components rest := by
          rw [hnames, List.append_assoc, List.singleton_append]
        rw [hsplit]
        exact ih _ hshort (hr.step hd (hfound f' rfl)) hfirst.zero hfirst.head (hsplit ▸ hkeep) hrun rfl
      | error e =>
        dsimp only at hrun
        split_ifs at hrun with hlast
        · obtain ⟨rfl, rfl⟩ := Outcome.ret.inj hrun
          refine ⟨rfl, fun d' name' heq => ?_⟩
          obtain ⟨rfl, rfl⟩ := Walk.missing.inj heq
          refine ⟨ns, dir, ?_, hr, hd, habsent (by rw [hlast.1])⟩
          rw [hnames, hlast.2, components_nil]
        · obtain ⟨rfl, rfl⟩ := Outcome.ret.inj hrun
          exact ⟨rfl, nofun⟩

/-- The walk along names that are found. -/
theorem walkPath_finds {ms : List Name} (hr : Finds s.mem ns dir d) (h0 : 0#8 ∉ path) (hpath : components path = ns ++ ms) :
    ∃ rest, walkPath fileGetBlock path s = walkFrom fileGetBlock rest dir d s ∧ components rest = ms ∧ 0#8 ∉ rest ∧
      rest.head? ≠ some slash := by
  induction hr generalizing ms with
  | root =>
    refine ⟨skipSlash path, rfl, (components_skipSlash path).trans hpath, ?_, head_skipSlash path⟩
    exact fun hmem => h0 ((List.dropWhile_suffix _).subset hmem)
  | @step ns name dir d f hr hd hname ih =>
    obtain ⟨path', hwalk, hnames, h0', hhead⟩ := ih (hpath.trans (List.append_assoc ..))
    have hne : path' ≠ [] := fun hnil => by
      rw [hnil] at hnames
      cases hnames
    obtain ⟨name', rest, hfirst⟩ := firstName_of_ne hne hhead h0'
    obtain ⟨rfl, hrest⟩ := List.cons.inj (hfirst.names.symm.trans hnames)
    refine ⟨rest, hwalk.trans ?_, hrest, hfirst.zero, hfirst.head⟩
    rw [walkFrom, dif_neg hne, Routine.bind_ret (Routine.get_run s), hfirst.first, hfirst.remains,
      if_neg (Nat.not_le.mpr hd.len), if_neg (not_not_intro hd.dir), Routine.bind_ret (dirLookup_found hd hfirst.name_zero hname)]

/-- The walk to a name that is missing. -/
theorem walkPath_absent (hr : Finds s.mem ns dir d) (h0 : 0#8 ∉ path) (hpath : components path = ns ++ [name])
    (hd : Searched s.mem d name) (hname : searchName s.mem d name = .absent) :
    walkPath fileGetBlock path s = .ret (.missing d name) s := by
  obtain ⟨path', hwalk, hnames, h0', hhead⟩ := walkPath_finds hr h0 hpath
  have hne : path' ≠ [] := fun hnil => by
    rw [hnil] at hnames
    cases hnames
  obtain ⟨name', rest, hfirst⟩ := firstName_of_ne hne hhead h0'
  obtain ⟨rfl, hrest⟩ := List.cons.inj (hfirst.names.symm.trans hnames)
  rw [hwalk, walkFrom, dif_neg hne, Routine.bind_ret (Routine.get_run s), hfirst.first, hfirst.remains,
    if_neg (Nat.not_le.mpr hd.len), if_neg (not_not_intro hd.dir), Routine.bind_ret (dirLookup_absent hd hfirst.name_zero hname)]
  exact congrArg (fun w => Outcome.ret w s) (if_pos ⟨rfl, (components_eq_nil hfirst.head).mp hrest⟩)

/-- A directory that was searched to the end has its blocks. -/
theorem dirOk_of_absent (hd : Searched m d name) (h : searchName m d name = .absent) : DirOk m d :=
  ⟨hd.size, fun i hi => search_absent h i (Nat.zero_le i) (by omega)⟩

/-- A full directory that cannot grow has another size all the same. -/
theorem create_stuck (h : FindsOk s.mem) (h0 : 0#8 ∉ path) (hstuck : Stuck s.mem path) : ¬ CreateKeeps s path := by
  obtain ⟨ns, dir, d, name, hpath, hr, hd, hname, hfull, hstuck⟩ := hstuck
  have hok := h ns dir d hr
  obtain ⟨-, hind, hfree, -⟩ := hok.size_changed (fSize s.mem d + 4096#32)
  let t := s.storeUint (fSizeAddr d) (fSize s.mem d + 4096#32)
  have hget : ∃ e, fileGetBlock d (dirLength s.mem d) t = .ret (.error e) t := by
    obtain hlarge | ⟨hneeds, hnone⟩ := hstuck
    · exact ⟨_, fileGetBlock_inval hlarge⟩
    · exact ⟨_, fileGetBlock_full ⟨hneeds.1, hneeds.2.1, hind.trans hneeds.2.2⟩ (hfree.trans hnone)⟩
  obtain ⟨e, hget⟩ := hget
  have halloc := (dirAllocFile_grow (dirOk_of_absent hd hname) hfull).trans hget
  have hrun : fileCreate fileGetBlock path s = .ret (.error e) t := by
    rw [fileCreate_walked (walkPath_absent hr h0 hpath hd hname), Routine.bind_ret halloc]
    rfl
  intro hkeeps
  have hsize : fSize t.mem d = fSize s.mem d + 4096#32 := loadWord_storeWord ..
  rw [hkeeps e t hrun] at hsize
  bv_omega

/-- A failed `file_create` keeps everything if no search on the way takes a block for one that is missing and the directory
is not one that cannot grow. If it is one, a `file_create` fails that does not keep everything. -/
theorem create_keeps_iff (h : FindsOk s.mem) (h0 : 0#8 ∉ path) :
    (¬ Refills s.mem (components path) → (CreateKeeps s path ↔ ¬ Stuck s.mem path)) ∧
      (Stuck s.mem path → ¬ CreateKeeps s path) := by
  refine ⟨fun hkeep => ⟨fun hkeeps hstuck => create_stuck h h0 hstuck hkeeps, fun hstuck e s' hrun => ?_⟩, create_stuck h h0⟩
  have hskip : 0#8 ∉ skipSlash path := fun hmem => h0 ((List.dropWhile_suffix _).subset hmem)
  have hnames : [] ++ components (skipSlash path) = components path := components_skipSlash path
  unfold fileCreate at hrun
  obtain ⟨w, t, hwalk, hrun⟩ := Routine.bind_eq_ret.mp hrun
  obtain ⟨rfl, hmissing⟩ := walkFrom_keeps h .root hskip (head_skipSlash path) (hnames ▸ hkeep) hwalk
  cases w with
  | found dir f => exact congrArg Fs.mem (Outcome.ret.inj hrun).2.symm
  | failed e' => exact congrArg Fs.mem (Outcome.ret.inj hrun).2.symm
  | missing d name =>
    obtain ⟨ns, dir, hpath, hr, hd, hname⟩ := hmissing d name rfl
    rw [hnames] at hpath
    obtain ⟨r, u, halloc, hrun⟩ := Routine.bind_eq_ret.mp hrun
    obtain ⟨e', rfl, -, rfl⟩ | ⟨f, rfl, hrun⟩ := orReturn_ret hrun
    swap
    · obtain ⟨-, u, -, hrun⟩ := Routine.bind_eq_ret.mp hrun
      obtain ⟨-, v, -, hrun⟩ := Routine.bind_eq_ret.mp hrun
      cases (Outcome.ret.inj hrun).1
    have hok := h ns dir d hr
    have hdirOk := dirOk_of_absent hd hname
    cases hf : freeFile t.mem d with
    | some f =>
      rw [dirAllocFile_free hdirOk hf] at halloc
      cases halloc
    | none =>
      have hfull := freeFile_none.mp hf
      obtain ⟨hok', hind, hfree, -⟩ := hok.size_changed (fSize t.mem d + 4096#32)
      rw [dirAllocFile_grow hdirOk hfull] at halloc
      obtain ⟨-, hlarge | ⟨hneeds, hnone⟩⟩ := fileGetBlock_error hok' halloc
      · exact absurd ⟨ns, dir, d, name, hpath, hr, hd, hname, hfull, Or.inl hlarge⟩ hstuck
      · exact absurd ⟨ns, dir, d, name, hpath, hr, hd, hname, hfull, Or.inr ⟨⟨hneeds.1, hneeds.2.1, hind.symm.trans hneeds.2.2⟩,
          hfree.symm.trans hnone⟩⟩ hstuck

end Holes

/-- What is not in the root directory: the super block, the bitmap, and the links of the files. -/
theorem oneFileFs_words : nblocksIn oneFileFs.mem = 8 ∧ (∀ b < 4, freeBit oneFileFs.mem b = false) ∧
    dataStart oneFileFs.mem ≤ 3 ∧ fIndirect oneFileFs.mem rootAddr = 0#32 ∧
    (∀ i < ndirect, blockNo oneFileFs.mem rootAddr i = if i = 0 then 3 else 0) ∧ blockNo oneFileFs.mem rootAddr ndirect = 0 ∧
    ∀ j < blkfiles, fIndirect oneFileFs.mem (slotAddr 3 j) = 0#32 ∧
      ∀ i < ndirect, loadWord oneFileFs.mem (fDirectAddr (slotAddr 3 j) i) = 0#32 := by
  decide +kernel

theorem oneFileFs_good : GoodSuper oneFileFs.mem := by
  obtain ⟨hn, hbits, -⟩ := oneFileFs_words
  exact GoodSuper.of_small hn (by decide) (by decide) (hbits 1 (by decide)) (hbits 2 (by decide))

theorem oneFileFs_data : DataBlock oneFileFs.mem 3 := by
  obtain ⟨hn, hbits, hstart, -⟩ := oneFileFs_words
  exact ⟨hstart, by rw [hn]; decide, hbits 3 (by decide)⟩

theorem oneFileFs_sound : FindsOk oneFileFs.mem := by
  obtain ⟨-, hbits, -, hroot, -, -, hfiles⟩ := oneFileFs_words
  have hzero := hbits 0 (by decide)
  intro ns dir f h
  obtain rfl | hmem := oneFileFs_reaches (h.reaches oneFileFs_tree)
  · exact ⟨oneFileFs_good, hzero, Or.inl rfl, fun hne => absurd hroot hne⟩
  · obtain ⟨j, hj, rfl⟩ := List.mem_map.mp hmem
    have hj := List.mem_range.mp hj
    exact ⟨oneFileFs_good, hzero, Or.inr ⟨3, j, oneFileFs_data, hj, rfl⟩, fun hne => absurd (hfiles j hj).1 hne⟩

/-- A file cannot be created in a file that is no directory, and the attempt changes nothing. -/
theorem create_keeps_nondir : CreateKeeps oneFileFs [slash, 97#8, slash, 98#8] := by
  have hpath : components [slash, 97#8, slash, 98#8] = [[97#8], [98#8]] := by decide
  have hiff := @create_keeps_iff _ [slash, 97#8, slash, 98#8] oneFileFs_sound (by decide)
  refine (hiff.1 (oneFileFs_tree.not_refills _)).mpr ?_
  rintro ⟨ns, dir, d, name, heq, h, hd, -⟩
  rw [hpath] at heq
  obtain ⟨rfl, -⟩ := List.append_inj' (show [[97#8]] ++ [[98#8]] = _ from heq) rfl
  have hentry : d ∈ (List.range blkfiles).map (entryAddr (blockAddr 3)) := by
    rw [← oneFileFs_dir.1.1]
    generalize hns : [[97#8]] = ns at h
    cases h.reaches oneFileFs_tree with
    | root => cases hns
    | @step ns' name' dir' d' _ h' hlen hdir hname =>
      have hempty : ns' = [] := by
        obtain ⟨hnil, -⟩ := List.append_inj' (show [] ++ [[97#8]] = ns' ++ [name'] from hns) rfl
        exact hnil.symm
      subst hempty
      obtain ⟨rfl, rfl⟩ := Walk.found.inj (resolve_found_iff.mpr h')
      exact mem_of_lookupIn hname
  obtain ⟨j, hj, rfl⟩ := List.mem_map.mp hentry
  have hdir := hd.dir
  rw [oneFileFs_types j (List.mem_range.mp hj)] at hdir
  exact absurd hdir (by decide)

end Create

section FullDisk

/-- A disk without a free block, where ten blocks of the root directory are full of files. -/
def fullDiskFs : Fs :=
  let m := storeWord (fun _ => 0#8) nblocksAddr 13#32
  let m := storeWord (storeWord m (fSizeAddr rootAddr) 40960#32) (fTypeAddr rootAddr) ftypeDir
  let m := writeBytes m (fDirectAddr rootAddr 0) (wordBytes [3#32, 4#32, 5#32, 6#32, 7#32, 8#32, 9#32, 10#32, 11#32, 12#32])
  ⟨fun a => if 3 ≤ blockOf a ∧ blockOf a < 13 then 1#8 else m a, fun _ => 0#8, fun _ => false⟩

theorem fullDiskFs_words : (dirLength fullDiskFs.mem rootAddr = 10 ∧
      ∀ i < 10, blockAt fullDiskFs.mem rootAddr i = some (blockAddr (3 + i))) ∧
    nblocksIn fullDiskFs.mem = 13 ∧ (∀ b < 13, freeBit fullDiskFs.mem b = false) ∧ fType fullDiskFs.mem rootAddr = ftypeDir ∧
    fSize fullDiskFs.mem rootAddr = 40960#32 ∧ fIndirect fullDiskFs.mem rootAddr = 0#32 := by
  decide +kernel

theorem fullDiskFs_blocks : dirLength fullDiskFs.mem rootAddr = 10 ∧
    ∀ i < 10, blockAt fullDiskFs.mem rootAddr i = some (blockAddr (3 + i)) := fullDiskFs_words.1

theorem fullDiskFs_dirOk : DirOk fullDiskFs.mem rootAddr := by
  obtain ⟨⟨hlength, hblocks⟩, -, -, -, hsize, -⟩ := fullDiskFs_words
  refine ⟨by rw [hsize]; decide, ?_⟩
  rw [hlength]
  intro i hi
  rw [hblocks i hi]
  rfl

theorem fullDiskFs_files {f : Word} (hf : f ∈ filesFrom fullDiskFs.mem rootAddr 0 10) :
    ∀ k < maxnamelen, fullDiskFs.mem (f + BitVec.ofNat 32 k) = 1#8 := by
  unfold filesFrom at hf
  obtain ⟨i, hi, hf⟩ := List.mem_flatMap.mp hf
  rw [List.mem_range'_1, Nat.zero_add] at hi
  rw [fullDiskFs_blocks.2 i hi.2] at hf
  obtain ⟨j, hj, rfl⟩ := List.mem_map.mp hf
  have hj := List.mem_range.mp hj
  intro k hk
  change j < 16 at hj
  change k < 128 at hk
  have haddr := slotAddr_toNat (show 3 + i < 0xC0000 by omega) hj
  have hbyte : (slotAddr (3 + i) j + BitVec.ofNat 32 k).toNat = 0x10000000 + ((3 + i) * 4096 + 256 * j + k) := by
    bv_omega
  apply if_pos
  rw [blockOf_of_toNat hbyte]
  omega

/-- The names of the files are too long to be looked up. -/
theorem fullDiskFs_names {f : Word} (hf : f ∈ filesFrom fullDiskFs.mem rootAddr 0 10) :
    maxnamelen ≤ (nameAt fullDiskFs.mem f).length := by
  have hbytes : readBytes fullDiskFs.mem f maxnamelen = List.replicate maxnamelen 1#8 := by
    unfold readBytes
    rw [List.eq_replicate_iff]
    refine ⟨by rw [List.length_map, List.length_range], fun c hc => ?_⟩
    obtain ⟨k, hk, rfl⟩ := List.mem_map.mp hc
    exact fullDiskFs_files hf k (List.mem_range.mp hk)
  unfold nameAt
  rw [hbytes, List.takeWhile_replicate, if_pos (by decide), List.length_replicate]

theorem fullDiskFs_lookup {name : Name} (hlen : name.length < maxnamelen) :
    lookupIn fullDiskFs.mem rootAddr name = none := by
  unfold lookupIn
  rw [fullDiskFs_blocks.1, List.find?_eq_none]
  intro f hf hname
  have hlong := fullDiskFs_names hf
  rw [of_decide_eq_true hname] at hlong
  exact absurd hlen (Nat.not_lt.mpr hlong)

theorem fullDiskFs_absent {name : Name} (hlen : name.length < maxnamelen) :
    searchName fullDiskFs.mem rootAddr name = .absent := by
  rw [searchName_of_dirOk fullDiskFs_dirOk, fullDiskFs_lookup hlen]
  rfl

theorem fullDiskFs_finds {ns : List Name} {dir : Option Word} {f : Word} (h : Finds fullDiskFs.mem ns dir f) : f = rootAddr := by
  induction h with
  | root => rfl
  | step _ hd hname ih =>
    rw [ih, fullDiskFs_absent hd.len] at hname
    cases hname

theorem fullDiskFs_sound : FindsOk fullDiskFs.mem := by
  obtain ⟨-, hn, hbits, -, -, hind⟩ := fullDiskFs_words
  have hgood := GoodSuper.of_small hn (by decide) (by decide) (hbits 1 (by decide)) (hbits 2 (by decide))
  intro ns dir f h
  rw [fullDiskFs_finds h]
  exact ⟨hgood, hbits 0 (by decide), Or.inl rfl, fun hne => absurd hind hne⟩

theorem fullDiskFs_stuck : Stuck fullDiskFs.mem [97#8] := by
  obtain ⟨⟨hlength, -⟩, hn, hbits, hdir, -, hind⟩ := fullDiskFs_words
  have hsearched : Searched fullDiskFs.mem rootAddr [97#8] := ⟨hdir, fullDiskFs_dirOk.size, by decide⟩
  refine ⟨[], none, rootAddr, [97#8], rfl, .root, hsearched, fullDiskFs_absent hsearched.len, ?_, Or.inr ?_⟩
  · intro f hf hzero
    rw [hlength] at hf
    have hbyte := fullDiskFs_files hf 0 (by decide)
    rw [BitVec.add_zero, hzero] at hbyte
    cases hbyte
  · rw [hlength]
    refine ⟨⟨by decide, by decide, hind⟩, ?_⟩
    rw [Set.eq_empty_iff_forall_notMem]
    intro b hb
    obtain ⟨hlt, hfree⟩ := mem_freeSet.mp hb
    rw [hbits b (hn ▸ hlt)] at hfree
    cases hfree

/-- The root directory gets an eleventh block in its size, but not on the disk. -/
theorem create_not_kept : FindsOk fullDiskFs.mem ∧ 0#8 ∉ [97#8] ∧ ¬ CreateKeeps fullDiskFs [97#8] :=
  ⟨fullDiskFs_sound, by decide, create_stuck fullDiskFs_sound (by decide) fullDiskFs_stuck⟩

end FullDisk

end Sisop
