import Mathlib.Data.List.Nodup
import Sisop.CStrings

/-! `find` of `fork/find.c`. All levels of the recursion put their names into one buffer. -/
namespace Sisop

/-- `PATH_MAX`. -/
def pathMax : ℕ := 4096

/-- What `readdir` returns for an open directory, one entry after the other. A directory among the entries has entries of its
own, and `opened` tells whether `open_directory` opens it. -/
inductive Dir where
  | done
  | file (dName : List (BitVec 8)) (next : Dir)
  | dir (dName : List (BitVec 8)) (opened : Bool) (entries next : Dir)

/-- `strcmp(file_name, ".") == 0 || strcmp(file_name, "..") == 0`. -/
def IsDot (dName : List (BitVec 8)) : Prop := dName = [chr '.'] ∨ dName = [chr '.', chr '.']

instance (dName : List (BitVec 8)) : Decidable (IsDot dName) := inferInstanceAs (Decidable (_ ∨ _))

/-- `strcpy(&dst[i], src)`. -/
def strcpyAt (dst : List (BitVec 8)) (i : ℕ) : List (BitVec 8) → Option (List (BitVec 8))
  | [] => storeAt dst i 0#8
  | c :: src => do
    let dst ← storeAt dst i c
    strcpyAt dst (i + 1) src

/-- `printf("%.*s%s\n", (int)len, path, file_name)`, for a name that matches. -/
def printEntry (strSearch : List (BitVec 8) → Bool) (path : List (BitVec 8)) (len : ℕ) (fileName : List (BitVec 8)) :
    List (List (BitVec 8)) :=
  if strSearch fileName then [(path.take len).takeWhile (· ≠ 0#8) ++ fileName ++ [chr '\n']] else []

/-- `_find`: what the buffer holds afterwards, and what has been printed. It fails where it writes behind the buffer. -/
def findDir (strSearch : List (BitVec 8) → Bool) : Dir → List (BitVec 8) → ℕ → Option (List (BitVec 8) × List (List (BitVec 8)))
  | .done, path, _ => some (path, [])
  | .file fileName next, path, len =>
    if IsDot fileName then findDir strSearch next path len
    else do
      let (path', rest) ← findDir strSearch next path len
      some (path', printEntry strSearch path len fileName ++ rest)
  | .dir fileName opened entries next, path, len =>
    if IsDot fileName then findDir strSearch next path len
    else
      let line := printEntry strSearch path len fileName
      if ¬ opened then some (path, line)
      else do
        let path ← strcpyAt path len fileName
        let newLen := (← cstr path).length
        let path ← storeAt path newLen (chr '/')
        let (path, below) ← findDir strSearch entries path (newLen + 1)
        let (path, rest) ← findDir strSearch next path len
        some (path, line ++ below ++ rest)

/-- `find`, once the start directory is open. The array `path` is not initialised. -/
def find (strSearch : List (BitVec 8) → Bool) (cwd : Dir) (path : List (BitVec 8)) :
    Option (List (BitVec 8) × List (List (BitVec 8))) :=
  findDir strSearch cwd path 0

namespace Dir

/-- The entries of a tree, other than `.` and `..`: the names that lead to them from the start directory. -/
inductive Entry : Dir → List (List (BitVec 8)) → Prop where
  | file {n : List (BitVec 8)} {next : Dir} (hn : ¬ IsDot n) : Entry (.file n next) [n]
  | fileNext {n : List (BitVec 8)} {next : Dir} {p : List (List (BitVec 8))} (h : Entry next p) : Entry (.file n next) p
  | dir {n : List (BitVec 8)} {opened : Bool} {entries next : Dir} (hn : ¬ IsDot n) : Entry (.dir n opened entries next) [n]
  | inside {n : List (BitVec 8)} {opened : Bool} {entries next : Dir} {p : List (List (BitVec 8))} (hn : ¬ IsDot n)
    (h : Entry entries p) : Entry (.dir n opened entries next) (n :: p)
  | dirNext {n : List (BitVec 8)} {opened : Bool} {entries next : Dir} {p : List (List (BitVec 8))} (h : Entry next p) :
    Entry (.dir n opened entries next) p

/-- The names in a directory. -/
def names : Dir → List (List (BitVec 8))
  | .done => []
  | .file n next => n :: next.names
  | .dir n _ _ next => n :: next.names

/-- A name is not empty and has no slash and no NUL. -/
structure GoodName (n : List (BitVec 8)) : Prop where
  slash : chr '/' ∉ n
  nul : 0#8 ∉ n
  nonempty : n ≠ []

/-- The names of a tree are good ones, and no directory has a name twice. -/
def WellNamed : Dir → Prop
  | .done => True
  | .file n next => GoodName n ∧ n ∉ next.names ∧ next.WellNamed
  | .dir n _ entries next => GoodName n ∧ n ∉ next.names ∧ (¬ IsDot n → entries.WellNamed) ∧ next.WellNamed

/-- All directories of a tree can be opened. -/
def Opens : Dir → Prop
  | .done => True
  | .file _ next => next.Opens
  | .dir n opened entries next => (¬ IsDot n → opened ∧ entries.Opens) ∧ next.Opens

/-- The entries in the order in which `_find` comes to them. -/
def walk : Dir → List (List (List (BitVec 8)))
  | .done => []
  | .file n next => (if IsDot n then [] else [[n]]) ++ next.walk
  | .dir n _ entries next => (if IsDot n then [] else [n] :: entries.walk.map (n :: ·)) ++ next.walk

end Dir

/-- The path that the names make. -/
def pathText : List (List (BitVec 8)) → List (BitVec 8)
  | [] => []
  | [n] => n
  | n :: m :: p => n ++ chr '/' :: pathText (m :: p)

variable {strSearch : List (BitVec 8) → Bool} {d : Dir} {pre junk n : List (BitVec 8)} {p q : List (List (BitVec 8))}

theorem pathText_cons (hp : p ≠ []) : pathText (n :: p) = n ++ chr '/' :: pathText p := by
  cases p with
  | nil => exact absurd rfl hp
  | cons m p => rfl

/-- With a slash behind every name the path of a directory is a beginning of those below it. -/
theorem pathText_slash (hp : p ≠ []) : pathText p ++ [chr '/'] = p.flatMap (· ++ [chr '/']) := by
  induction p with
  | nil => exact absurd rfl hp
  | cons n p ih =>
    rw [List.flatMap_cons]
    by_cases hnil : p = []
    · rw [hnil, List.flatMap_nil, List.append_nil]
      rfl
    · rw [pathText_cons hnil, ← ih hnil, List.append_assoc, List.append_assoc, List.cons_append, List.singleton_append]

section Walk

theorem Dir.mem_walk : p ∈ d.walk ↔ d.Entry p := by
  induction d generalizing p with
  | done => exact ⟨fun h => absurd h List.not_mem_nil, fun h => by cases h⟩
  | file n next ih =>
    unfold walk
    rw [List.mem_append, ih]
    constructor
    · rintro (h | h)
      · split at h
        next => exact absurd h List.not_mem_nil
        next hn =>
          obtain rfl := List.mem_singleton.mp h
          exact .file hn
      · exact .fileNext h
    · intro h
      cases h with
      | file hn => exact .inl (by rw [if_neg hn]; exact List.mem_singleton_self _)
      | fileNext h => exact .inr h
  | dir n opened entries next ihe ihn =>
    unfold walk
    rw [List.mem_append, ihn]
    constructor
    · rintro (h | h)
      · split at h
        next => exact absurd h List.not_mem_nil
        next hn =>
          rcases List.mem_cons.mp h with rfl | h
          · exact .dir hn
          · obtain ⟨q, hq, rfl⟩ := List.mem_map.mp h
            exact .inside hn (ihe.mp hq)
      · exact .dirNext h
    · intro h
      cases h with
      | dir hn => exact .inl (by rw [if_neg hn]; exact List.mem_cons_self)
      | inside hn h => exact .inl (by rw [if_neg hn]; exact List.mem_cons_of_mem _ (List.mem_map_of_mem (ihe.mpr h)))
      | dirNext h => exact .inr h

/-- A path begins with a name of the directory. -/
theorem Dir.Entry.head (h : d.Entry p) : ∃ n ∈ d.names, ∃ q, p = n :: q := by
  induction h with
  | file | dir => exact ⟨_, List.mem_cons_self, [], rfl⟩
  | inside _ _ _ => exact ⟨_, List.mem_cons_self, _, rfl⟩
  | fileNext _ ih | dirNext _ ih =>
    obtain ⟨n, hn, q, rfl⟩ := ih
    exact ⟨n, List.mem_cons_of_mem _ hn, q, rfl⟩

theorem Dir.Entry.ne_nil (h : d.Entry p) : p ≠ [] := by
  obtain ⟨n, -, q, rfl⟩ := h.head
  exact List.cons_ne_nil n q

/-- The names on a path are good ones. -/
theorem Dir.Entry.good (h : d.Entry p) (hd : d.WellNamed) : ∀ n ∈ p, GoodName n := by
  induction h with
  | file => exact fun n hn => (List.mem_singleton.mp hn) ▸ hd.1
  | dir => exact fun n hn => (List.mem_singleton.mp hn) ▸ hd.1
  | fileNext _ ih => exact ih hd.2.2
  | dirNext _ ih => exact ih hd.2.2.2
  | inside hdot _ ih =>
    intro n hn
    rcases List.mem_cons.mp hn with rfl | hn
    · exact hd.1
    · exact ih (hd.2.2.1 hdot) n hn

/-- Nothing comes before a directory that it is in. -/
theorem Dir.walk_pairwise (hd : d.WellNamed) : d.walk.Pairwise fun p q => ¬ q <+: p := by
  induction d with
  | done => exact List.Pairwise.nil
  | file n next ih =>
    unfold walk
    split
    next => exact ih hd.2.2
    next =>
      rw [List.singleton_append, List.pairwise_cons]
      refine ⟨fun q hq hpre => ?_, ih hd.2.2⟩
      obtain ⟨m, hm, r, rfl⟩ := (mem_walk.mp hq).head
      obtain ⟨rfl, -⟩ := List.cons_prefix_cons.mp hpre
      exact hd.2.1 hm
  | dir n opened entries next ihe ihn =>
    unfold walk
    split
    next => exact ihn hd.2.2.2
    next hdot =>
      have hlater : ∀ q ∈ next.walk, ∀ r, ¬ q <+: n :: r := by
        intro q hq r hpre
        obtain ⟨m, hm, s, rfl⟩ := (mem_walk.mp hq).head
        obtain ⟨rfl, -⟩ := List.cons_prefix_cons.mp hpre
        exact hd.2.1 hm
      rw [List.cons_append, List.pairwise_cons, List.pairwise_append]
      refine ⟨fun q hq hpre => ?_, ?_, ihn hd.2.2.2, fun q hq r hr => ?_⟩
      · rcases List.mem_append.mp hq with hq | hq
        · obtain ⟨r, hr, rfl⟩ := List.mem_map.mp hq
          exact (mem_walk.mp hr).ne_nil (List.prefix_nil.mp (List.cons_prefix_cons.mp hpre).2)
        · exact hlater q hq [] hpre
      · rw [List.pairwise_map]
        exact (ihe (hd.2.2.1 hdot)).imp fun h hpre => h (List.cons_prefix_cons.mp hpre).2
      · obtain ⟨s, -, rfl⟩ := List.mem_map.mp hq
        exact hlater r hr s

end Walk

section Text

variable {a b m : List (BitVec 8)}

theorem slash_prefix (n : List (BitVec 8)) : ∀ {m}, chr '/' ∉ n → chr '/' ∉ m → n ++ chr '/' :: a <+: m ++ chr '/' :: b →
    n = m ∧ a <+: b := by
  induction n with
  | nil =>
    intro m _ hm h
    cases m with
    | nil => exact ⟨rfl, (List.cons_prefix_cons.mp h).2⟩
    | cons c m => exact absurd ((List.cons_prefix_cons.mp h).1 ▸ List.mem_cons_self) hm
  | cons c n ih =>
    intro m hn hm h
    cases m with
    | nil => exact absurd ((List.cons_prefix_cons.mp h).1 ▸ List.mem_cons_self) hn
    | cons c' m =>
      obtain ⟨rfl, htail⟩ := List.cons_prefix_cons.mp h
      obtain ⟨rfl, hab⟩ := ih (fun hc => hn (List.mem_cons_of_mem _ hc)) (fun hc => hm (List.mem_cons_of_mem _ hc)) htail
      exact ⟨rfl, hab⟩

/-- The text shows which directories a path goes through. -/
theorem flatMap_slash_prefix (q : List (List (BitVec 8))) : ∀ {p}, (∀ n ∈ q, Dir.GoodName n) → (∀ n ∈ p, Dir.GoodName n) →
    q.flatMap (· ++ [chr '/']) <+: p.flatMap (· ++ [chr '/']) → q <+: p := by
  induction q with
  | nil => exact fun _ _ _ => List.nil_prefix
  | cons n q ih =>
    intro p hq hp h
    rw [List.flatMap_cons, List.append_assoc, List.singleton_append] at h
    cases p with
    | nil =>
      rw [List.flatMap_nil] at h
      exact absurd (List.prefix_nil.mp h) (List.append_ne_nil_of_right_ne_nil _ (List.cons_ne_nil _ _))
    | cons m p =>
      rw [List.flatMap_cons, List.append_assoc, List.singleton_append] at h
      obtain ⟨rfl, htail⟩ := slash_prefix n (hq n List.mem_cons_self).slash (hp m List.mem_cons_self).slash h
      have hrest : q <+: p :=
        ih (fun k hk => hq k (List.mem_cons_of_mem _ hk)) (fun k hk => hp k (List.mem_cons_of_mem _ hk)) htail
      exact List.cons_prefix_cons.mpr ⟨rfl, hrest⟩

/-- Different entries have different paths. -/
theorem Dir.Entry.pathText_inj (hp : d.Entry p) (hq : d.Entry q) (hd : d.WellNamed) (h : pathText p = pathText q) : p = q := by
  have hslash : p.flatMap (· ++ [chr '/']) = q.flatMap (· ++ [chr '/']) := by
    rw [← pathText_slash hp.ne_nil, ← pathText_slash hq.ne_nil, h]
  have hpq := flatMap_slash_prefix p (hp.good hd) (hq.good hd) (hslash ▸ List.prefix_refl _)
  have hqp := flatMap_slash_prefix q (hq.good hd) (hp.good hd) (hslash ▸ List.prefix_refl _)
  exact hpq.eq_of_length (le_antisymm hpq.length_le hqp.length_le)

end Text

section Buffer

/-- The lines for the entries, below a directory with the path `pre`. -/
def pathLines (strSearch : List (BitVec 8) → Bool) (pre : List (BitVec 8)) (ps : List (List (List (BitVec 8)))) : List (List (BitVec 8)) :=
  (ps.filter fun p => strSearch (p.getLastD [])).map fun p => pre ++ pathText p ++ [chr '\n']

theorem pathLines_append (ps qs : List (List (List (BitVec 8)))) :
    pathLines strSearch pre (ps ++ qs) = pathLines strSearch pre ps ++ pathLines strSearch pre qs := by
  unfold pathLines
  rw [List.filter_append, List.map_append]

/-- The entries of a directory are printed with its name and a slash before them. -/
theorem pathLines_inside (ps : List (List (List (BitVec 8)))) (h : ∀ p ∈ ps, p ≠ []) :
    pathLines strSearch pre (ps.map (n :: ·)) = pathLines strSearch (pre ++ n ++ [chr '/']) ps := by
  unfold pathLines
  rw [List.filter_map, List.map_map]
  have hlast : ∀ p ∈ ps, ((fun p => strSearch (p.getLastD [])) ∘ (n :: ·)) p = strSearch (p.getLastD []) := by
    intro p hp
    have hcons : (n :: p).getLastD [] = p.getLastD [] := by
      cases p with
      | nil => exact absurd rfl (h [] hp)
      | cons m p => rfl
    exact congrArg strSearch hcons
  rw [List.filter_congr hlast]
  refine List.map_congr_left fun p hp => ?_
  have hne := h p (List.mem_filter.mp hp).1
  simp only [Function.comp_apply, pathText_cons hne, List.append_assoc, List.cons_append, List.nil_append]

/-- The buffer begins with the path of the directory, and it is printed up to there. -/
theorem printEntry_eq (hpre : 0#8 ∉ pre) (junk n : List (BitVec 8)) :
    printEntry strSearch (pre ++ junk) pre.length n = pathLines strSearch pre [[n]] := by
  have htake : ((pre ++ junk).take pre.length).takeWhile (· ≠ 0#8) = pre := by
    rw [List.take_left, List.takeWhile_eq_self_iff]
    intro c hc
    apply decide_eq_true
    rintro rfl
    exact hpre hc
  have hfilter : [[n]].filter (fun p => strSearch (p.getLastD [])) = if strSearch n then [[n]] else [] := List.filter_cons
  unfold printEntry pathLines
  rw [htake, hfilter]
  split <;> rfl

/-- A string that fits into the buffer. -/
theorem strcpyAt_eq (src : List (BitVec 8)) : ∀ {pre junk : List (BitVec 8)}, src.length < junk.length →
    strcpyAt (pre ++ junk) pre.length src = some (pre ++ src ++ 0#8 :: junk.drop (src.length + 1)) := by
  induction src with
  | nil =>
    intro pre junk h
    cases junk with
    | nil => exact absurd h (Nat.not_lt_zero _)
    | cons c junk =>
      have hlt : pre.length < (pre ++ c :: junk).length := by
        rw [List.length_append, List.length_cons]
        omega
      change storeAt _ _ _ = _
      rw [storeAt_some hlt, List.set_append_right _ _ le_rfl, Nat.sub_self, List.set_cons_zero, List.append_nil, List.length_nil,
        Nat.zero_add, List.drop_one, List.tail_cons]
  | cons c src ih =>
    intro pre junk h
    cases junk with
    | nil => exact absurd h (Nat.not_lt_zero _)
    | cons c' junk =>
      have hlt : pre.length < (pre ++ c' :: junk).length := by
        rw [List.length_append, List.length_cons]
        omega
      have hset : (pre ++ c' :: junk).set pre.length c = pre ++ [c] ++ junk := by
        rw [List.set_append_right _ _ le_rfl, Nat.sub_self, List.set_cons_zero, List.append_assoc, List.singleton_append]
      have hlength : (pre ++ [c]).length = pre.length + 1 := by rw [List.length_append, List.length_singleton]
      change Option.bind (storeAt _ _ _) _ = _
      rw [storeAt_some hlt, Option.bind_some, hset, ← hlength, ih (Nat.lt_of_succ_lt_succ h), List.length_cons, List.drop_succ_cons,
        List.append_assoc pre [c], List.singleton_append]

/-- `_find` for a directory whose path the buffer begins with: what is behind that path may change, and a line is printed for
each entry that matches. -/
theorem findDir_spec (d : Dir) : ∀ {pre junk}, d.WellNamed → d.Opens → (∀ p ∈ d.walk, pre.length + (pathText p).length < pathMax - 1) →
    0#8 ∉ pre → pre.length + junk.length = pathMax → ∃ junk', junk'.length = junk.length ∧
      findDir strSearch d (pre ++ junk) pre.length = some (pre ++ junk', pathLines strSearch pre d.walk) := by
  induction d with
  | done => exact fun _ _ _ _ _ => ⟨_, rfl, rfl⟩
  | file n next ih =>
    intro pre junk hd hopens hlen hpre hsize
    obtain ⟨junk', hjunk, hfind⟩ := ih hd.2.2 hopens (fun p hp => hlen p (List.mem_append_right _ hp)) hpre hsize
    refine ⟨junk', hjunk, ?_⟩
    rw [findDir, Dir.walk, hfind]
    by_cases hdot : IsDot n
    · rw [if_pos hdot, if_pos hdot, List.nil_append]
    · rw [if_neg hdot, if_neg hdot, pathLines_append, printEntry_eq hpre, Option.bind_eq_bind, Option.bind_some]
  | dir n opened entries next ihe ihn =>
    intro pre junk hd hopens hlen hpre hsize
    have hnext : ∀ p ∈ next.walk, pre.length + (pathText p).length < pathMax - 1 := fun p hp =>
      hlen p (List.mem_append_right _ hp)
    rw [findDir, Dir.walk]
    by_cases hdot : IsDot n
    · obtain ⟨junk', hjunk, hfind⟩ := ihn hd.2.2.2 hopens.2 hnext hpre hsize
      refine ⟨junk', hjunk, ?_⟩
      rw [if_pos hdot, if_pos hdot, List.nil_append, hfind]
    · have hin : ∀ p ∈ [n] :: entries.walk.map (n :: ·), pre.length + (pathText p).length < pathMax - 1 := by
        intro p hp
        refine hlen p ?_
        rw [Dir.walk, if_neg hdot]
        exact List.mem_append_left _ hp
      obtain ⟨hopen, hopens'⟩ := hopens.1 hdot
      have hn : pre.length + n.length < pathMax - 1 := hin [n] List.mem_cons_self
      have hnul : 0#8 ∉ pre ++ n := fun hmem => (List.mem_append.mp hmem).elim hpre hd.1.nul
      have hcopy : strcpyAt (pre ++ junk) pre.length n = some (pre ++ n ++ 0#8 :: junk.drop (n.length + 1)) :=
        strcpyAt_eq n (by omega)
      -- The slash takes the place of the NUL.
      have hslash : storeAt (pre ++ n ++ 0#8 :: junk.drop (n.length + 1)) (pre ++ n).length (chr '/') =
          some (pre ++ n ++ [chr '/'] ++ junk.drop (n.length + 1)) := by
        rw [storeAt_some, List.set_append_right _ _ le_rfl, Nat.sub_self, List.set_cons_zero, List.append_assoc _ [chr '/'],
          List.singleton_append]
        simp only [List.length_append, List.length_cons]
        omega
      have hlength : (pre ++ n ++ [chr '/']).length = (pre ++ n).length + 1 := by rw [List.length_append, List.length_singleton]
      have hlen' : ∀ p ∈ entries.walk, (pre ++ n ++ [chr '/']).length + (pathText p).length < pathMax - 1 := by
        intro p hp
        have hp' := hin (n :: p) (List.mem_cons_of_mem _ (List.mem_map_of_mem hp))
        rw [pathText_cons (Dir.mem_walk.mp hp).ne_nil] at hp'
        simp only [List.length_append, List.length_cons, List.length_nil] at hp' ⊢
        omega
      have hnul' : 0#8 ∉ pre ++ n ++ [chr '/'] := fun hmem => (List.mem_append.mp hmem).elim hnul (by decide)
      have hsize' : (pre ++ n ++ [chr '/']).length + (junk.drop (n.length + 1)).length = pathMax := by
        simp only [List.length_append, List.length_cons, List.length_nil, List.length_drop]
        omega
      obtain ⟨junk₁, hjunk₁, hbelow⟩ := ihe (hd.2.2.1 hdot) hopens' hlen' hnul' hsize'
      have hback : pre ++ n ++ [chr '/'] ++ junk₁ = pre ++ (n ++ chr '/' :: junk₁) := by
        rw [List.append_assoc, List.append_assoc, List.singleton_append]
      have hjunk₂ : (n ++ chr '/' :: junk₁).length = junk.length := by
        rw [List.length_append, List.length_cons, hjunk₁, List.length_drop]
        omega
      obtain ⟨junk', hjunk', hrest⟩ := ihn hd.2.2.2 hopens.2 hnext hpre (hjunk₂.symm ▸ hsize)
      refine ⟨junk', hjunk'.trans hjunk₂, ?_⟩
      rw [← pathLines_inside _ fun p hp => (Dir.mem_walk.mp hp).ne_nil, hback, hlength] at hbelow
      rw [if_neg hdot, if_neg hdot, if_neg (not_not.mpr hopen), ← List.singleton_append, pathLines_append, pathLines_append,
        ← printEntry_eq hpre junk n]
      simp only [hcopy, cstr_append hnul, hslash, hbelow, hrest, Option.bind_eq_bind, Option.bind_some]

end Buffer

/-- Two elements of a list are in the order that the relation allows. -/
theorem pair_sublist {α : Type} {R : α → α → Prop} {l : List α} {x y : α} (h : l.Pairwise R) (hx : x ∈ l) (hy : y ∈ l)
    (hne : x ≠ y) (hR : ¬ R y x) : [x, y].Sublist l := by
  induction h with
  | nil => exact absurd hx List.not_mem_nil
  | @cons a l ha _ ih =>
    rcases List.mem_cons.mp hx with rfl | hxl
    · have hyl : y ∈ l := (List.mem_cons.mp hy).resolve_left hne.symm
      exact List.Sublist.cons_cons _ (List.singleton_sublist.mpr hyl)
    · rcases List.mem_cons.mp hy with rfl | hyl
      · exact absurd (ha x hxl) hR
      · exact (ih hxl hyl).cons a

/-- `find` prints the path of each entry whose name matches, once, and that of a directory before those of what is in it. -/
theorem find_prints (strSearch : List (BitVec 8) → Bool) (hd : d.WellNamed) (hopens : d.Opens)
    (hlen : ∀ p, d.Entry p → (pathText p).length < pathMax - 1) {path : List (BitVec 8)} (hpath : path.length = pathMax) :
    ∃ path' out, find strSearch d path = some (path', out) ∧
      (∀ line, line ∈ out ↔ ∃ p, d.Entry p ∧ strSearch (p.getLastD []) ∧ line = pathText p ++ [chr '\n']) ∧ out.Nodup ∧
      ∀ p q, d.Entry p → d.Entry q → strSearch (p.getLastD []) → strSearch (q.getLastD []) → p <+: q → p ≠ q →
        [pathText p ++ [chr '\n'], pathText q ++ [chr '\n']].Sublist out := by
  have hwalk : ∀ p ∈ d.walk, ([] : List (BitVec 8)).length + (pathText p).length < pathMax - 1 := by
    intro p hp
    rw [List.length_nil, Nat.zero_add]
    exact hlen p (Dir.mem_walk.mp hp)
  obtain ⟨path', -, hfind⟩ := @findDir_spec strSearch d [] path hd hopens hwalk List.not_mem_nil
    ((congrArg (0 + ·) hpath).trans (Nat.zero_add _))
  have hpair := Dir.walk_pairwise hd
  refine ⟨path', _, hfind, fun line => ?_, ?_, fun p q hp hq hmp hmq hpre hne => ?_⟩
  · unfold pathLines
    rw [List.mem_map]
    constructor
    · rintro ⟨p, hp, rfl⟩
      obtain ⟨hmem, hmatch⟩ := List.mem_filter.mp hp
      exact ⟨p, Dir.mem_walk.mp hmem, hmatch, rfl⟩
    · rintro ⟨p, hp, hmatch, rfl⟩
      exact ⟨p, List.mem_filter.mpr ⟨Dir.mem_walk.mpr hp, hmatch⟩, rfl⟩
  · have hnodup : d.walk.Nodup := by
      refine List.Pairwise.imp (fun {p q} hnot heq => hnot ?_) hpair
      subst heq
      exact List.prefix_refl p
    refine List.Nodup.map_on (fun p hp q hq heq => ?_) (hnodup.filter _)
    have hp' := Dir.mem_walk.mp (List.mem_filter.mp hp).1
    have hq' := Dir.mem_walk.mp (List.mem_filter.mp hq).1
    exact hp'.pathText_inj hq' hd (List.append_cancel_right heq)
  · have hsub := pair_sublist hpair (Dir.mem_walk.mpr hp) (Dir.mem_walk.mpr hq) hne (not_not.mpr hpre)
    have hfilter := hsub.filter fun p => strSearch (p.getLastD [])
    have hboth : [p, q].filter (fun p => strSearch (p.getLastD [])) = [p, q] := by
      simp only [List.filter_cons, hmp, hmq, if_true, List.filter_nil]
    rw [hboth] at hfilter
    exact hfilter.map fun p => [] ++ pathText p ++ [chr '\n']

/-- A directory with two entries, and a file in it. -/
def findTree : Dir := .dir [chr '.'] true .done (.dir [chr 'a'] true (.file [chr 'b'] .done) (.file [chr 'c'] .done))

theorem find_prints_tree : ∃ path' out, find (fun _ => true) findTree (List.replicate pathMax 0xff#8) = some (path', out) ∧
    (∀ line, line ∈ out ↔ ∃ p, findTree.Entry p ∧ true ∧ line = pathText p ++ [chr '\n']) ∧ out.Nodup ∧
    ∀ p q, findTree.Entry p → findTree.Entry q → true → true → p <+: q → p ≠ q →
      [pathText p ++ [chr '\n'], pathText q ++ [chr '\n']].Sublist out := by
  have hgood : ∀ c : BitVec 8, c ≠ chr '/' → c ≠ 0#8 → Dir.GoodName [c] := fun c hslash hnul =>
    ⟨fun h => hslash (List.mem_singleton.mp h).symm, fun h => hnul (List.mem_singleton.mp h).symm, List.cons_ne_nil _ _⟩
  have hd : findTree.WellNamed := by
    refine ⟨hgood _ (by decide) (by decide), by decide, fun hdot => absurd (.inl rfl) hdot, hgood _ (by decide) (by decide), by decide,
      fun _ => ⟨hgood _ (by decide) (by decide), by decide, trivial⟩, hgood _ (by decide) (by decide), by decide, trivial⟩
  have hopens : findTree.Opens := ⟨fun hdot => absurd (.inl rfl) hdot, fun _ => ⟨rfl, trivial⟩, trivial⟩
  have hlen : ∀ p, findTree.Entry p → (pathText p).length < pathMax - 1 := by
    intro p hp
    have hmem := Dir.mem_walk.mpr hp
    have hshort : ∀ p ∈ findTree.walk, (pathText p).length < pathMax - 1 := by decide
    exact hshort p hmem
  exact find_prints (fun _ => true) hd hopens hlen List.length_replicate

end Sisop
