import Sisop.PathWalk

/-! `walk_path` finds what the names of a path lead to. -/
namespace Sisop

section Components

variable {path : List (BitVec 8)} {name : Name}

theorem components_nil : components [] = [] := rfl

theorem components_slash (path : List (BitVec 8)) : components (slash :: path) = components path := by
  unfold components
  rw [List.splitOnP_cons_eq_if_modifyHead, if_pos (by decide)]
  exact List.filter_cons_of_neg (by decide)

theorem components_skipSlash (path : List (BitVec 8)) : components (skipSlash path) = components path := by
  unfold skipSlash
  induction path with
  | nil => rfl
  | cons c path ih =>
    by_cases hc : c = slash
    · rw [List.dropWhile_cons_of_pos (by simp [hc]), ih, hc, components_slash]
    · rw [List.dropWhile_cons_of_neg (by simp [hc])]

/-- Up to the first slash there is one name. -/
theorem components_cons (hne : path ≠ []) (hhead : path.head? ≠ some slash) :
    components path = path.takeWhile (· ≠ slash) :: components (path.dropWhile (· ≠ slash)) := by
  have hmem : ∀ c ∈ path.takeWhile (· ≠ slash), decide (c = slash) = false := by
    intro c hc
    have hslash := List.all_eq_true.mp List.all_takeWhile c hc
    simpa using hslash
  have hkept : path.takeWhile (· ≠ slash) ≠ [] := by
    cases path with
    | nil => exact absurd rfl hne
    | cons c path =>
      rw [List.takeWhile_cons_of_pos (by simpa using hhead)]
      exact List.cons_ne_nil _ _
  have hsplit := List.takeWhile_append_dropWhile (p := (· ≠ slash)) (l := path)
  have hrest := List.head?_dropWhile_not (· ≠ slash) path
  generalize path.takeWhile (· ≠ slash) = elem at *
  generalize path.dropWhile (· ≠ slash) = rest at *
  subst hsplit
  unfold components
  cases rest with
  | nil =>
    rw [List.append_nil, List.splitOnP_eq_singleton hmem, List.filter_cons_of_pos (by simpa using hkept)]
    rfl
  | cons c rest =>
    have hc : c = slash := by simpa using hrest
    rw [List.splitOnP_append_cons_of_forall_mem hmem c (by simpa using hc),
      List.filter_cons_of_pos (by simpa using hkept), List.splitOnP_cons_eq_if_modifyHead, if_pos (by simpa using hc)]
    rw [List.filter_cons_of_neg (by decide)]

end Components

section Names

variable {m : ByteMem} {va : Word} {name : Name} {n : ℕ} {buf : Bytes}

theorem readBytes_succ (m : ByteMem) (va : Word) (n : ℕ) : readBytes m va (n + 1) = m va :: readBytes m (va + 1#32) n := by
  unfold readBytes
  rw [List.range_succ_eq_map, List.map_cons, List.map_map]
  congr 1
  · exact congrArg m (BitVec.add_zero va)
  · apply List.map_congr_left
    intro i _
    change m (va + BitVec.ofNat 32 (i + 1)) = m (va + 1#32 + BitVec.ofNat 32 i)
    congr 1
    bv_omega

/-- `strcmp` compares a name with what is before the first NUL. -/
theorem nameIs_iff_takeWhile (hname : 0#8 ∉ name) (hlen : name.length < n) :
    nameIs m va name = true ↔ (readBytes m va n).takeWhile (· ≠ 0#8) = name := by
  induction name generalizing va n with
  | nil =>
    obtain ⟨n, rfl⟩ := Nat.exists_eq_succ_of_ne_zero (Nat.ne_of_gt hlen)
    rw [readBytes_succ, List.takeWhile_cons]
    by_cases hz : m va = 0#8
    · simp [nameIs, hz]
    · simp [nameIs, hz]
  | cons c name ih =>
    obtain ⟨n, rfl⟩ := Nat.exists_eq_succ_of_ne_zero (Nat.ne_of_gt (Nat.zero_lt_of_lt hlen))
    have hc : c ≠ 0#8 := fun hc => hname (hc ▸ List.mem_cons_self)
    have ih := @ih (va + 1#32) n (fun hmem => hname (List.mem_cons_of_mem c hmem)) (Nat.lt_of_succ_lt_succ hlen)
    rw [readBytes_succ, List.takeWhile_cons]
    by_cases hva : m va = c
    · simp only [nameIs, hva, decide_true, Bool.true_and, ih]
      simp [hc]
    · by_cases hz : m va = 0#8
      · simp [nameIs, hz, hc.symm]
      · simp [nameIs, hva, hz]

theorem nameIs_iff (hname : 0#8 ∉ name) (hlen : name.length < maxnamelen) :
    nameIs m va name = true ↔ nameAt m va = name := nameIs_iff_takeWhile hname hlen

/-- A string ends at its first NUL. -/
theorem takeWhile_string {N : ℕ} {g : ℕ → BitVec 8} (hname : 0#8 ∉ name) (hlen : name.length < N)
    (hchars : ∀ i (hi : i < name.length), g i = name[i]) (hend : g name.length = 0#8) :
    ((List.range N).map g).takeWhile (· ≠ 0#8) = name := by
  obtain ⟨k, rfl⟩ := Nat.exists_eq_add_of_lt hlen
  have hfront : (List.range name.length).map g = name := by
    apply List.ext_getElem
    · rw [List.length_map, List.length_range]
    · intro i hi hi'
      rw [List.getElem_map, List.getElem_range]
      exact hchars i hi'
  rw [Nat.add_assoc, List.range_add, List.map_append, hfront, Nat.add_comm k 1, List.range_add]
  rw [List.takeWhile_append_of_pos (by
    intro c hc
    have hne : c ≠ 0#8 := fun h => hname (h ▸ hc)
    simpa using hne)]
  simp [hend]

/-- What was copied to the name buffer is the string in it. -/
theorem bufString_put (hname : 0#8 ∉ name) (hlen : name.length < maxnamelen) :
    bufString (putBytes (putBytes buf 0 name) name.length [0#8]) = name := by
  have hput := putBytes_append buf 0 name [0#8]
  rw [Nat.zero_add] at hput
  have hbyte (i : ℕ) (hi : i < (name ++ [0#8]).length) : putBytes buf 0 (name ++ [0#8]) i = (name ++ [0#8])[i] := by
    have hin := @putBytes_inside buf 0 i (name ++ [0#8]) hi
    rwa [Nat.zero_add] at hin
  have htotal : (name ++ [0#8]).length = name.length + 1 := List.length_append
  unfold bufString
  rw [hput]
  apply takeWhile_string hname hlen
  · intro i hi
    rw [hbyte i (by omega), List.getElem_append_left hi]
  · rw [hbyte _ (by omega), List.getElem_append_right (Nat.le_refl _)]
    simp

/-- A name that was stored with its NUL is the name of the file. -/
theorem nameAt_stored (hname : 0#8 ∉ name) (hlen : name.length < maxnamelen) :
    nameAt (writeBytes m va (name ++ [0#8])) va = name := by
  have hbyte (i : ℕ) (hi : i < (name ++ [0#8]).length) (hi' : i < 2^32) :
      writeBytes m va (name ++ [0#8]) (va + BitVec.ofNat 32 i) = (name ++ [0#8])[i] := by
    have hoff : (va + BitVec.ofNat 32 i - va).toNat = i := by bv_omega
    unfold writeBytes
    rw [hoff, List.getElem?_eq_getElem hi]
    rfl
  have htotal : (name ++ [0#8]).length = name.length + 1 := List.length_append
  change name.length < 128 at hlen
  apply takeWhile_string hname hlen
  · intro i hi
    rw [hbyte i (by omega) (by omega), List.getElem_append_left hi]
  · rw [hbyte _ (by omega) (by omega), List.getElem_append_right (Nat.le_refl _)]
    simp

end Names

section Lookup

variable {s : Fs} {d f slot blk : Word} {i n : ℕ} {name : Name}

theorem fileBlockWalk_at (h : slotAt s.mem f i = some slot) (alloc : Bool) :
    fileBlockWalk f i alloc s = .ret (.ok slot) s := by
  unfold fileBlockWalk
  unfold slotAt at h
  rw [Routine.bind_ret (Routine.get_run s)]
  split_ifs at h with hi hind
  · obtain rfl := Option.some.inj h
    have hin : ¬ ndirect + nindirect ≤ i := fun hle => Nat.not_le.mpr hi (Nat.le_trans (Nat.le_add_right _ _) hle)
    rw [if_neg hin, if_pos hi]
    rfl
  · obtain rfl := Option.some.inj h
    rw [if_neg (Nat.not_le.mpr hind.1), if_neg hi, if_pos hind.2.1]
    unfold indirectSlot diskaddr
    rw [Routine.bind_ret (Routine.get_run s), Routine.bind_assoc_run, Routine.bind_ret (Routine.get_run s),
      Routine.bind_assoc_run, Routine.panicUnless_bind hind.2]
    rfl

/-- A block that is there is found, and nothing is changed for it. -/
theorem fileGetBlock_at (h : blockAt s.mem f i = some blk) : fileGetBlock f i s = .ret (.ok blk) s := by
  unfold blockAt at h
  cases hslot : slotAt s.mem f i with
  | none =>
    rw [hslot] at h
    cases h
  | some slot =>
    rw [hslot] at h
    dsimp only [bind, Option.bind] at h
    split_ifs at h with hb
    obtain rfl := Option.some.inj h
    unfold fileGetBlock
    rw [Routine.bind_ret (fileBlockWalk_at hslot true)]
    dsimp only [orReturn]
    unfold getSlot slotBlock diskaddr
    rw [Routine.bind_ret (Routine.get_run s), if_pos hb.1, Routine.bind_ret (Routine.get_run s), Routine.bind_assoc_run,
      Routine.bind_ret (Routine.get_run s), Routine.bind_assoc_run, Routine.panicUnless_bind hb]
    rfl

theorem mem_of_lookupIn {m : ByteMem} (h : lookupIn m d name = some f) : f ∈ filesFrom m d 0 (dirLength m d) :=
  List.mem_of_find?_eq_some h

/-- The search goes over the files of the blocks in order. -/
theorem dirFind_at (p : ByteMem → Word → Bool) (n i : ℕ)
    (h : ∀ j, i ≤ j → j < i + n → (blockAt s.mem d j).isSome) :
    dirFind fileGetBlock p d n i s = .ret (.ok ((filesFrom s.mem d i n).find? (p s.mem))) s := by
  induction n generalizing i with
  | zero => rfl
  | succ n ih =>
    obtain ⟨blk, hblk⟩ := Option.isSome_iff_exists.mp (h i (Nat.le_refl i) (by omega))
    have hfiles : filesFrom s.mem d i (n + 1) = (List.range blkfiles).map (entryAddr blk) ++ filesFrom s.mem d (i + 1) n := by
      unfold filesFrom
      rw [List.range'_succ, List.flatMap_cons, hblk]
      rfl
    unfold dirFind
    rw [Routine.bind_ret (fileGetBlock_at hblk), hfiles, List.find?_append, List.find?_map]
    dsimp only [orReturn]
    rw [Routine.bind_ret (Routine.get_run s)]
    have hcomp : (p s.mem ∘ entryAddr blk) = fun j => p s.mem (entryAddr blk j) := rfl
    rw [hcomp]
    cases (List.range blkfiles).find? fun j => p s.mem (entryAddr blk j) with
    | some j => rfl
    | none => exact ih (i + 1) fun j hj hlt => h j (by omega) (by omega)

theorem DirOk.blocks_run (h : DirOk s.mem d) : dirBlocks d s = .ret (dirLength s.mem d) s := by
  unfold dirBlocks
  rw [Routine.bind_ret (Routine.get_run s), Routine.panicUnless_bind h.size]
  rfl

theorem DirOk.find (h : DirOk s.mem d) (p : ByteMem → Word → Bool) :
    dirFind fileGetBlock p d (dirLength s.mem d) 0 s =
      .ret (.ok ((filesFrom s.mem d 0 (dirLength s.mem d)).find? (p s.mem))) s :=
  dirFind_at p _ 0 fun j _ hj => h.blocks j (by omega)

/-- `dir_lookup` looks a name up in the map of the directory. -/
theorem DirOk.lookup (h : DirOk s.mem d) (hname : 0#8 ∉ name) (hlen : name.length < maxnamelen) :
    dirLookup fileGetBlock d name s = .ret ((lookupIn s.mem d name).elim (.error .notFound) .ok) s := by
  have hsame : (fun f => nameIs s.mem f name) = fun f => decide (nameAt s.mem f = name) := by
    funext f
    rw [Bool.eq_iff_iff, decide_eq_true_iff]
    exact nameIs_iff hname hlen
  have hfind := h.find fun m f => nameIs m f name
  rw [hsame] at hfind
  unfold dirLookup
  rw [Routine.bind_ret h.blocks_run, Routine.bind_ret hfind]
  rfl

end Lookup

section Resolve

variable {m : ByteMem} {ns ms : List Name} {name : Name} {dir : Option Word} {d f : Word}

/-- A name that is too long is come to first. -/
def TooLong (m : ByteMem) (ns : List Name) : Prop :=
  ∃ ns₁ name ns₂ dir f, ns = ns₁ ++ name :: ns₂ ∧ Reaches m ns₁ dir f ∧ maxnamelen ≤ name.length

/-- All names but the last lead to a directory, and that one does not have the last name. -/
def Missing (m : ByteMem) (ns : List Name) (d : Word) (name : Name) : Prop :=
  ∃ ns₁ dir, ns = ns₁ ++ [name] ∧ Reaches m ns₁ dir d ∧ fType m d = ftypeDir ∧ name.length < maxnamelen ∧
    lookupIn m d name = none

/-- Looks names up one after another, from a file on. -/
def resolveFrom (m : ByteMem) : List Name → Option Word → Word → Walk
  | [], dir, f => .found dir f
  | name :: ns, _, f =>
    if maxnamelen ≤ name.length then .failed .badPath
    else if fType m f ≠ ftypeDir then .failed .notFound
    else
      match lookupIn m f name with
      | some f' => resolveFrom m ns (some f) f'
      | none => if ns = [] then .missing f name else .failed .notFound

/-- Names that lead to a file can be looked up first. -/
theorem Reaches.resolve (h : Reaches m ns dir f) (ms : List Name) :
    resolveFrom m (ns ++ ms) none rootAddr = resolveFrom m ms dir f := by
  induction h generalizing ms with
  | root => rfl
  | @step ns name dir d f _ hlen hdir hname ih =>
    rw [List.append_assoc, ih]
    change resolveFrom m (name :: ms) dir d = _
    rw [resolveFrom, if_neg (Nat.not_le.mpr hlen), if_neg (not_not_intro hdir), hname]

/-- How the walk ends, by what the names lead to. -/
def Walk.Right (m : ByteMem) (ns : List Name) : Walk → Prop
  | .found dir f => Reaches m ns dir f
  | .missing d name => Missing m ns d name
  | .failed e => e = .badPath ∧ TooLong m ns ∨ e = .notFound

theorem Reaches.right (h : Reaches m ns dir f) (ms : List Name) : (resolveFrom m ms dir f).Right m (ns ++ ms) := by
  induction ms generalizing ns dir f with
  | nil =>
    rw [List.append_nil]
    exact h
  | cons name ms ih =>
    rw [resolveFrom]
    by_cases hlen : maxnamelen ≤ name.length
    · rw [if_pos hlen]
      exact Or.inl ⟨rfl, ns, name, ms, dir, f, rfl, h, hlen⟩
    by_cases hdir : fType m f = ftypeDir
    · rw [if_neg hlen, if_neg (not_not_intro hdir)]
      have hlen := Nat.not_le.mp hlen
      cases hname : lookupIn m f name with
      | some f' =>
        have hright := ih (h.step hlen hdir hname)
        rw [List.append_assoc] at hright
        exact hright
      | none =>
        by_cases hms : ms = []
        · rw [hms]
          exact ⟨ns, dir, rfl, h, hdir, hlen, hname⟩
        · dsimp only
          rw [if_neg hms]
          exact Or.inr rfl
    · rw [if_neg hlen, if_pos hdir]
      exact Or.inr rfl

theorem resolve_right (m : ByteMem) (ns : List Name) : (resolveFrom m ns none rootAddr).Right m ns :=
  Reaches.root.right ns

theorem resolve_found_iff : resolveFrom m ns none rootAddr = .found dir f ↔ Reaches m ns dir f := by
  constructor
  · intro heq
    have hright := resolve_right m ns
    rwa [heq] at hright
  · intro h
    have hresolve := h.resolve []
    rwa [List.append_nil] at hresolve

theorem resolve_badPath (h : TooLong m ns) : resolveFrom m ns none rootAddr = .failed .badPath := by
  obtain ⟨ns₁, name, ns₂, dir, f, rfl, h, hlen⟩ := h
  rw [h.resolve, resolveFrom, if_pos hlen]

theorem resolve_missing_iff : resolveFrom m ns none rootAddr = .missing d name ↔ Missing m ns d name := by
  constructor
  · intro heq
    have hright := resolve_right m ns
    rwa [heq] at hright
  · rintro ⟨ns₁, dir, rfl, h, hdir, hlen, hname⟩
    rw [h.resolve, resolveFrom, if_neg (Nat.not_le.mpr hlen), if_neg (not_not_intro hdir), hname]
    rfl

end Resolve

section Walk

variable {s s' : Fs} {path : List (BitVec 8)} {ns : List Name} {dir : Option Word} {f : Word} {name : Bytes} {w : Walk}
  {getBlock : GetBlock}

theorem zero_rest (h : 0#8 ∉ path) : 0#8 ∉ skipSlash (path.dropWhile (· ≠ slash)) := fun hmem =>
  h ((List.dropWhile_suffix _).subset ((List.dropWhile_suffix _).subset hmem))

theorem head_skipSlash (path : List (BitVec 8)) : (skipSlash path).head? ≠ some slash := by
  have hhead := List.head?_dropWhile_not (· = slash) path
  intro heq
  unfold skipSlash at heq
  rw [heq] at hhead
  simp at hhead

/-- In a directory tree the loop looks the names of the path up one after another. -/
theorem walkFrom_run (ht : DirTree s.mem) (hr : Reaches s.mem ns dir f) (h0 : 0#8 ∉ path)
    (hhead : path.head? ≠ some slash) :
    walkFrom fileGetBlock path dir f s = .ret (resolveFrom s.mem (components path) dir f) s := by
  -- by induction on the length of what is left of the path
  induction hn : path.length using Nat.strong_induction_on generalizing path ns dir f with
  | _ n ih =>
    subst hn
    unfold walkFrom
    by_cases hpath : path = []
    · rw [dif_pos hpath, hpath]
      rfl
    · rw [dif_neg hpath, Routine.bind_ret (Routine.get_run s), components_cons hpath hhead, resolveFrom]
      by_cases hlen : maxnamelen ≤ (path.takeWhile (· ≠ slash)).length
      · rw [if_pos hlen, if_pos hlen]
        rfl
      by_cases hdir : fType s.mem f = ftypeDir
      · rw [if_neg hlen, if_neg hlen, if_neg (not_not_intro hdir), if_neg (not_not_intro hdir)]
        have hlen := Nat.not_le.mp hlen
        have hname : 0#8 ∉ path.takeWhile (· ≠ slash) := fun hmem => h0 ((List.takeWhile_prefix _).subset hmem)
        have hlookup := (ht ns dir f hr hdir).lookup hname hlen
        have hshort := skipSlash_shorter path hpath
        have hhead' := head_skipSlash (path.dropWhile (· ≠ slash))
        have hcomponents := components_skipSlash (path.dropWhile (· ≠ slash))
        rw [Routine.bind_ret hlookup]
        cases hfound : lookupIn s.mem f (path.takeWhile (· ≠ slash)) with
        | some f' =>
          have hrest := ih _ hshort (hr.step hlen hdir hfound) (zero_rest h0) hhead' rfl
          rw [hcomponents] at hrest
          exact hrest
        | none =>
          -- nothing but slashes is left if there are no more names
          have hend : skipSlash (path.dropWhile (· ≠ slash)) = [] ↔ components (path.dropWhile (· ≠ slash)) = [] := by
            rw [← hcomponents]
            refine ⟨fun h => h ▸ components_nil, fun h => ?_⟩
            by_contra hne
            rw [components_cons hne hhead'] at h
            exact List.cons_ne_nil _ _ h
          by_cases hnil : components (path.dropWhile (· ≠ slash)) = []
          · have hrest := hend.mpr hnil
            simp only [Option.elim_none, hnil, hrest, and_self, if_true]
            rfl
          · have hrest := mt hend.mp hnil
            simp only [Option.elim_none, hnil, hrest, and_false, if_false]
            rfl
      · rw [if_neg hlen, if_neg hlen, if_pos hdir, if_pos hdir]
        rfl

/-- What `walk_path` returns. -/
def Walk.result : Walk → Except FsErr Unit
  | .found _ _ => .ok ()
  | .missing _ _ => .error .notFound
  | .failed e => .error e

/-- What is in the variables at the end. -/
def Walk.vars (name : Bytes) : Walk → WalkVars
  | .found dir f => ⟨name, dir, some f, none⟩
  | .missing d lastelem => ⟨name, some d, none, some lastelem⟩
  | .failed _ => ⟨name, none, none, none⟩

/-- With its buffer the loop ends as it does without, and what is behind the buffer stays as
it was. -/
theorem walkLoop_run (h0 : 0#8 ∉ path) (hrun : walkFrom getBlock path dir f s = .ret w s') :
    ∃ name', walkLoop getBlock path dir f ⟨name, none, none, none⟩ s = .ret (w.result, w.vars name') s' ∧
      ∀ i, maxnamelen ≤ i → name' i = name i := by
  induction hn : path.length using Nat.strong_induction_on generalizing path dir f s name with
  | _ n ih =>
    subst hn
    unfold walkFrom at hrun
    unfold walkLoop
    by_cases hpath : path = []
    · rw [dif_pos hpath] at hrun ⊢
      obtain ⟨rfl, rfl⟩ := Outcome.ret.inj hrun
      exact ⟨name, rfl, fun _ _ => rfl⟩
    · rw [dif_neg hpath, Routine.bind_ret (Routine.get_run s)] at hrun
      rw [dif_neg hpath]
      by_cases hlen : maxnamelen ≤ (path.takeWhile (· ≠ slash)).length
      · rw [if_pos hlen] at hrun ⊢
        obtain ⟨rfl, rfl⟩ := Outcome.ret.inj hrun
        exact ⟨name, rfl, fun _ _ => rfl⟩
      rw [if_neg hlen] at hrun ⊢
      have hlen := Nat.not_le.mp hlen
      have hname : 0#8 ∉ path.takeWhile (· ≠ slash) := fun hmem => h0 ((List.takeWhile_prefix _).subset hmem)
      have hstring := @bufString_put (path.takeWhile (· ≠ slash)) name hname hlen
      have hshort := skipSlash_shorter path hpath
      have hrest := zero_rest h0
      generalize path.takeWhile (· ≠ slash) = elem at *
      generalize skipSlash (path.dropWhile (· ≠ slash)) = rest at *
      -- the copy and its NUL are in the buffer
      have hkept : ∀ i, maxnamelen ≤ i → putBytes (putBytes name 0 elem) elem.length [0#8] i = name i := by
        intro i hi
        rw [putBytes_outside (Or.inr (Nat.le_trans hlen hi)), putBytes_outside (Or.inr (by omega))]
      rw [Routine.bind_ret (Routine.get_run s)]
      dsimp only at hstring ⊢
      rw [hstring]
      generalize putBytes (putBytes name 0 elem) elem.length [0#8] = name' at *
      by_cases hdir : fType s.mem f = ftypeDir
      · rw [if_neg (not_not_intro hdir)] at hrun ⊢
        obtain ⟨r, t, hlookup, hrun⟩ := Routine.bind_eq_ret.mp hrun
        rw [Routine.bind_ret hlookup]
        cases r with
        | ok f' =>
          obtain ⟨name'', hloop, hsame⟩ := @ih _ hshort t rest (some f) f' name' hrest hrun rfl
          exact ⟨name'', hloop, fun i hi => (hsame i hi).trans (hkept i hi)⟩
        | error e =>
          dsimp only at hrun ⊢
          obtain ⟨rfl, rfl⟩ := Outcome.ret.inj hrun
          refine ⟨name', ?_, hkept⟩
          by_cases hlast : e = .notFound ∧ rest = []
          · rw [if_pos hlast, if_pos hlast, hlast.1]
            rfl
          · rw [if_neg hlast, if_neg hlast]
            rfl
      · rw [if_pos hdir] at hrun ⊢
        obtain ⟨rfl, rfl⟩ := Outcome.ret.inj hrun
        exact ⟨name', rfl, hkept⟩

/-- What `walk_path` returns and sets is what the names of its path ask for. -/
structure Resolved (m : ByteMem) (ns : List Name) (r : Except FsErr Unit) (v : WalkVars) : Prop where
  found : ∀ dir f, Reaches m ns dir f → r = .ok () ∧ v.pdir = dir ∧ v.pf = some f
  badPath : TooLong m ns → r = .error .badPath ∧ v.pdir = none
  missing : ∀ d name, Missing m ns d name → r = .error .notFound ∧ v.pdir = some d ∧ v.lastelem = some name
  otherwise : (∀ dir f, ¬ Reaches m ns dir f) → ¬ TooLong m ns → (∀ d name, ¬ Missing m ns d name) →
    r = .error .notFound ∧ v.pdir = none
  untouched : (∀ d name, ¬ Missing m ns d name) → v.lastelem = none
  pf : (∀ dir f, ¬ Reaches m ns dir f) → v.pf = none

theorem resolved (m : ByteMem) (ns : List Name) (name : Bytes) :
    Resolved m ns (resolveFrom m ns none rootAddr).result ((resolveFrom m ns none rootAddr).vars name) := by
  constructor
  case found =>
    intro dir f h
    rw [resolve_found_iff.mpr h]
    exact ⟨rfl, rfl, rfl⟩
  case badPath =>
    intro h
    rw [resolve_badPath h]
    exact ⟨rfl, rfl⟩
  case missing =>
    intro d name h
    rw [resolve_missing_iff.mpr h]
    exact ⟨rfl, rfl, rfl⟩
  case otherwise =>
    intro hfound hlong hmissing
    cases hw : resolveFrom m ns none rootAddr with
    | found dir f => exact absurd (resolve_found_iff.mp hw) (hfound dir f)
    | missing d name => exact absurd (resolve_missing_iff.mp hw) (hmissing d name)
    | failed e =>
      have hright := resolve_right m ns
      rw [hw] at hright
      obtain ⟨-, h⟩ | rfl := hright
      · exact absurd h hlong
      · exact ⟨rfl, rfl⟩
  case untouched =>
    intro hmissing
    cases hw : resolveFrom m ns none rootAddr with
    | found dir f => rfl
    | missing d name => exact absurd (resolve_missing_iff.mp hw) (hmissing d name)
    | failed e => rfl
  case pf =>
    intro hfound
    cases hw : resolveFrom m ns none rootAddr with
    | found dir f => exact absurd (resolve_found_iff.mp hw) (hfound dir f)
    | missing d name => rfl
    | failed e => rfl

/-- `walk_path` resolves a path name by name. -/
theorem walk_path_resolves (ht : DirTree s.mem) (h0 : 0#8 ∉ path) (name : Bytes) :
    ∃ r v, walkPathVars fileGetBlock path name s = .ret (r, v) s ∧ Resolved s.mem (components path) r v ∧
      ∀ i, maxnamelen ≤ i → v.name i = name i := by
  have hskip : 0#8 ∉ skipSlash path := fun hmem => h0 ((List.dropWhile_suffix _).subset hmem)
  have hwalk := walkFrom_run ht Reaches.root hskip (head_skipSlash path)
  rw [components_skipSlash] at hwalk
  obtain ⟨name', hrun, hsame⟩ := @walkLoop_run s s (skipSlash path) none rootAddr (putBytes name 0 [0#8]) _ fileGetBlock hskip hwalk
  refine ⟨_, _, hrun, resolved s.mem (components path) name', fun i hi => ?_⟩
  have hname : ((resolveFrom s.mem (components path) none rootAddr).vars name').name = name' := by
    cases resolveFrom s.mem (components path) none rootAddr <;> rfl
  rw [hname, hsame i hi]
  exact putBytes_outside (Or.inr (Nat.le_trans (by decide) hi))

/-- A disk with one file in the root directory, whose name is `a`. -/
def oneFileFs : Fs :=
  let m := storeWord (fun _ => 0#8) nblocksAddr 8#32
  let m := storeWord (storeWord m (fDirectAddr rootAddr 0) 3#32) (fSizeAddr rootAddr) 4096#32
  ⟨Function.update (storeWord m (fTypeAddr rootAddr) ftypeDir) (blockAddr 3) 97#8, fun _ => 0#8, fun _ => false⟩

theorem oneFileFs_dir : (filesFrom oneFileFs.mem rootAddr 0 (dirLength oneFileFs.mem rootAddr) =
      (List.range blkfiles).map (entryAddr (blockAddr 3)) ∧
    ∀ j < blkfiles, fType oneFileFs.mem (entryAddr (blockAddr 3) j) = 0#32) ∧
    fSize oneFileFs.mem rootAddr = 4096#32 ∧
    ∀ i < dirLength oneFileFs.mem rootAddr, (blockAt oneFileFs.mem rootAddr i).isSome := by
  decide +kernel

theorem oneFileFs_types : ∀ j < blkfiles, fType oneFileFs.mem (entryAddr (blockAddr 3) j) = 0#32 := oneFileFs_dir.1.2

/-- Only the root is a directory. -/
theorem oneFileFs_reaches {dir : Option Word} {f : Word} (h : Reaches oneFileFs.mem ns dir f) :
    f = rootAddr ∨ f ∈ (List.range blkfiles).map (entryAddr (blockAddr 3)) := by
  induction h with
  | root => exact Or.inl rfl
  | step _ _ hdir hname ih =>
    obtain rfl | hmem := ih
    · have hmem := mem_of_lookupIn hname
      rw [oneFileFs_dir.1.1] at hmem
      exact Or.inr hmem
    · obtain ⟨j, hj, rfl⟩ := List.mem_map.mp hmem
      rw [oneFileFs_types j (List.mem_range.mp hj)] at hdir
      exact absurd hdir (by decide)

theorem oneFileFs_tree : DirTree oneFileFs.mem := by
  intro ns dir f h hdir
  obtain rfl | hmem := oneFileFs_reaches h
  · obtain ⟨-, hsize, hblocks⟩ := oneFileFs_dir
    exact ⟨by rw [hsize]; decide, hblocks⟩
  · obtain ⟨j, hj, rfl⟩ := List.mem_map.mp hmem
    rw [oneFileFs_types j (List.mem_range.mp hj)] at hdir
    exact absurd hdir (by decide)

theorem walk_path_one : ∃ r v, walkPathVars fileGetBlock [slash, 97#8, slash] (fun _ => 0#8) oneFileFs = .ret (r, v) oneFileFs ∧
    Resolved oneFileFs.mem (components [slash, 97#8, slash]) r v ∧ ∀ i, maxnamelen ≤ i → v.name i = 0#8 :=
  walk_path_resolves oneFileFs_tree (by decide) fun _ => 0#8

end Walk

end Sisop
