import Mathlib.Data.List.Nodup
import Mathlib.Logic.Function.Basic

/-! Processes that fork, and the pipes between them. A program tells which system call comes next, and where it goes on after
that. -/
namespace Sisop

/-- What a file descriptor refers to: an end of a pipe, or something else. -/
inductive FdEnd where
  | file
  | readEnd (p : ℕ)
  | writeEnd (p : ℕ)
  deriving DecidableEq

/-- The file descriptors of a process. -/
abbrev FdTab := ℕ → Option FdEnd

section Calls

variable {κ α : Type}

/-- The system calls, where an item is read or written as a whole. `read` goes on with `stop` at the end of its input and after
an error. -/
inductive Syscall (κ α : Type) where
  | exit
  | close (fd : ℕ) (next : κ)
  | read (fd : ℕ) (got : α → κ) (stop : κ)
  | write (fd : ℕ) (x : α) (next bad : κ)
  | pipe (next : ℕ → ℕ → κ)
  | print (x : α) (next : κ)
  | fork (child parent : κ)
  | wait (next : κ)

/-- A process, with the children that it has not waited for. There is no `ctl` once it has exited. -/
structure Process (κ : Type) where
  ctl : Option κ
  tab : FdTab
  kids : List ℕ

/-- The processes and the pipes, numbered as they came into being, and what has been printed. -/
structure System (κ α : Type) where
  nprocs : ℕ
  proc : ℕ → Process κ
  npipes : ℕ
  pipe : ℕ → List α
  out : List α

def Process.gone : Process κ := ⟨none, fun _ => none, []⟩

def Process.goto (p : Process κ) (c : κ) : Process κ := { p with ctl := some c }

def System.setProc (s : System κ α) (k : ℕ) (p : Process κ) : System κ α := { s with proc := Function.update s.proc k p }

def System.setPipe (s : System κ α) (i : ℕ) (xs : List α) : System κ α := { s with pipe := Function.update s.pipe i xs }

/-- Some process has the end of a pipe open. -/
def System.HasEnd (s : System κ α) (e : FdEnd) : Prop := ∃ j < s.nprocs, ∃ f, (s.proc j).tab f = some e

/-- A pipe for process `k`, with its ends at the descriptors `r` and `w`. -/
def System.addPipe (s : System κ α) (k r w : ℕ) (c : κ) : System κ α :=
  { s with
    proc := Function.update s.proc k
      { s.proc k with
        ctl := some c
        tab := Function.update (Function.update (s.proc k).tab r (some (.readEnd s.npipes))) w (some (.writeEnd s.npipes)) }
    npipes := s.npipes + 1
    pipe := Function.update s.pipe s.npipes [] }

/-- A child of process `k`. -/
def System.addProc (s : System κ α) (k : ℕ) (child parent : κ) : System κ α :=
  { s with
    nprocs := s.nprocs + 1
    proc := Function.update
      (Function.update s.proc k { s.proc k with ctl := some parent, kids := (s.proc k).kids ++ [s.nprocs] })
      s.nprocs ⟨some child, (s.proc k).tab, []⟩ }

theorem System.addPipe_self (s : System κ α) (k r w : ℕ) (c : κ) :
    (s.addPipe k r w c).proc k =
      ⟨some c, Function.update (Function.update (s.proc k).tab r (some (.readEnd s.npipes))) w (some (.writeEnd s.npipes)),
        (s.proc k).kids⟩ := Function.update_self ..

theorem System.addProc_child (s : System κ α) (k : ℕ) (child parent : κ) :
    (s.addProc k child parent).proc s.nprocs = ⟨some child, (s.proc k).tab, []⟩ := Function.update_self ..

theorem System.addProc_parent {s : System κ α} {k : ℕ} (hk : k ≠ s.nprocs) (child parent : κ) :
    (s.addProc k child parent).proc k = ⟨some parent, (s.proc k).tab, (s.proc k).kids ++ [s.nprocs]⟩ :=
  (Function.update_of_ne hk ..).trans (Function.update_self ..)

theorem System.addProc_other {s : System κ α} {j k : ℕ} (hj : j ≠ s.nprocs) (hjk : j ≠ k) (child parent : κ) :
    (s.addProc k child parent).proc j = s.proc j := (Function.update_of_ne hj ..).trans (Function.update_of_ne hjk ..)

/-- What a system call of process `k` can do, with pipes of capacity `cap`. No call fails for want of resources, and what is not
a pipe is neither read nor written. -/
inductive Effect (cap : ℕ) (s : System κ α) (k : ℕ) : Syscall κ α → System κ α → Prop where
  | exit : Effect cap s k .exit (s.setProc k .gone)
  | close (fd : ℕ) (next : κ) :
    Effect cap s k (.close fd next)
      (s.setProc k { s.proc k with ctl := some next, tab := Function.update (s.proc k).tab fd none })
  | read {fd i : ℕ} {x : α} {xs : List α} (got : α → κ) (stop : κ) (hfd : (s.proc k).tab fd = some (.readEnd i))
      (hi : s.pipe i = x :: xs) :
    Effect cap s k (.read fd got stop) ((s.setProc k ((s.proc k).goto (got x))).setPipe i xs)
  | eof {fd i : ℕ} (got : α → κ) (stop : κ) (hfd : (s.proc k).tab fd = some (.readEnd i)) (hi : s.pipe i = [])
      (hw : ¬ s.HasEnd (.writeEnd i)) : Effect cap s k (.read fd got stop) (s.setProc k ((s.proc k).goto stop))
  | readBad {fd : ℕ} (got : α → κ) (stop : κ)
      (hfd : (s.proc k).tab fd = none ∨ ∃ i, (s.proc k).tab fd = some (.writeEnd i)) :
    Effect cap s k (.read fd got stop) (s.setProc k ((s.proc k).goto stop))
  | write {fd i : ℕ} (x : α) (next bad : κ) (hfd : (s.proc k).tab fd = some (.writeEnd i)) (hr : s.HasEnd (.readEnd i))
      (hcap : (s.pipe i).length < cap) :
    Effect cap s k (.write fd x next bad) ((s.setProc k ((s.proc k).goto next)).setPipe i (s.pipe i ++ [x]))
  | sigpipe {fd i : ℕ} (x : α) (next bad : κ) (hfd : (s.proc k).tab fd = some (.writeEnd i))
      (hr : ¬ s.HasEnd (.readEnd i)) : Effect cap s k (.write fd x next bad) (s.setProc k .gone)
  | writeBad {fd : ℕ} (x : α) (next bad : κ) (hfd : (s.proc k).tab fd = none ∨ ∃ i, (s.proc k).tab fd = some (.readEnd i)) :
    Effect cap s k (.write fd x next bad) (s.setProc k ((s.proc k).goto bad))
  | pipe {r w : ℕ} (next : ℕ → ℕ → κ) (hr : (s.proc k).tab r = none) (hw : (s.proc k).tab w = none) (hne : r ≠ w) :
    Effect cap s k (.pipe next) (s.addPipe k r w (next r w))
  | print (x : α) (next : κ) (hfd : (s.proc k).tab 1 = some .file) :
    Effect cap s k (.print x next) { s.setProc k ((s.proc k).goto next) with out := s.out ++ [x] }
  | fork (child parent : κ) : Effect cap s k (.fork child parent) (s.addProc k child parent)
  | wait {j : ℕ} (next : κ) (hj : j ∈ (s.proc k).kids) (hgone : (s.proc j).ctl = none) :
    Effect cap s k (.wait next) (s.setProc k { s.proc k with ctl := some next, kids := (s.proc k).kids.erase j })
  | waitNone (next : κ) (hkids : (s.proc k).kids = []) :
    Effect cap s k (.wait next) (s.setProc k ((s.proc k).goto next))

/-- A step of process `k`. -/
inductive System.Step (prog : κ → Syscall κ α) (cap : ℕ) (s : System κ α) (k : ℕ) (s' : System κ α) : Prop where
  | intro {c : κ} (hk : k < s.nprocs) (hc : (s.proc k).ctl = some c) (h : Effect cap s k (prog c) s')

/-- Every process has exited. -/
def System.Finished (s : System κ α) : Prop := ∀ k < s.nprocs, (s.proc k).ctl = none

end Calls

section Descriptors

variable {t tab : FdTab} {l : List (ℕ × FdEnd)} {f r w : ℕ} {e e' : FdEnd}

/-- The table `t` with some more descriptors. -/
def openFds (t : FdTab) : List (ℕ × FdEnd) → FdTab
  | [] => t
  | x :: l => Function.update (openFds t l) x.1 (some x.2)

/-- The descriptors of `l`, and no others, are open beside those of `t`. -/
structure Opened (t : FdTab) (l : List (ℕ × FdEnd)) (tab : FdTab) : Prop where
  tab : tab = openFds t l
  nodup : (l.map Prod.fst).Nodup
  free : ∀ x ∈ l, t x.1 = none

theorem openFds_cases (h : openFds t l f = some e) : t f = some e ∨ (f, e) ∈ l := by
  induction l with
  | nil => exact Or.inl h
  | cons x l ih =>
    rw [openFds, Function.update_apply] at h
    split_ifs at h with hf
    · obtain rfl := Option.some.inj h
      exact Or.inr (hf ▸ List.mem_cons_self)
    · exact (ih h).imp_right (List.mem_cons_of_mem x)

theorem openFds_mem (hnodup : (l.map Prod.fst).Nodup) (h : (f, e) ∈ l) : openFds t l f = some e := by
  induction l with
  | nil => exact absurd h List.not_mem_nil
  | cons x l ih =>
    rw [List.map_cons, List.nodup_cons] at hnodup
    rw [openFds, Function.update_apply]
    rcases List.mem_cons.mp h with rfl | h
    · exact if_pos rfl
    · rw [if_neg, ih hnodup.2 h]
      rintro rfl
      exact hnodup.1 (List.mem_map.mpr ⟨_, h, rfl⟩)

theorem openFds_eq_none : openFds t l f = none ↔ t f = none ∧ f ∉ l.map Prod.fst := by
  induction l with
  | nil => exact (and_iff_left List.not_mem_nil).symm
  | cons x l ih =>
    rw [openFds, Function.update_apply, List.map_cons, List.mem_cons, not_or]
    split_ifs with hf
    · exact ⟨fun h => h.elim, fun h => absurd hf h.2.1⟩
    · rw [ih]
      exact ⟨fun h => ⟨h.1, hf, h.2⟩, fun h => ⟨h.1, h.2.2⟩⟩

theorem openFds_close (hf : t f = none) : Function.update (openFds t l) f none = openFds t (l.filter fun x => x.1 ≠ f) := by
  induction l with
  | nil =>
    change Function.update t f none = t
    rw [← hf, Function.update_eq_self]
  | cons x l ih =>
    by_cases hx : x.1 = f
    · rw [List.filter_cons_of_neg (by simpa using hx), openFds, hx, Function.update_idem, ih]
    · rw [List.filter_cons_of_pos (by simpa using hx), openFds, openFds, ← ih, Function.update_comm hx]

theorem Opened.get (h : Opened t l tab) (hf : (f, e) ∈ l) : tab f = some e := by
  rw [h.tab]
  exact openFds_mem h.nodup hf

theorem Opened.cases (h : Opened t l tab) (hf : tab f = some e) : t f = some e ∨ (f, e) ∈ l := by
  rw [h.tab] at hf
  exact openFds_cases hf

theorem Opened.kept (h : Opened t l tab) (hf : t f = some e) : tab f = some e := by
  have hfree := h.free
  rw [h.tab]
  clear h
  induction l with
  | nil => exact hf
  | cons x l ih =>
    have hx := hfree x List.mem_cons_self
    have hne : f ≠ x.1 := by
      rintro rfl
      rw [hx] at hf
      cases hf
    rw [openFds, Function.update_of_ne hne]
    exact ih fun y hy => hfree y (List.mem_cons_of_mem x hy)

theorem Opened.eq (h : Opened t l tab) (hmem : (f, e) ∈ l) (hf : tab f = some e') : e' = e :=
  Option.some.inj (hf.symm.trans (h.get hmem))

theorem Opened.close (h : Opened t l tab) (hf : t f = none) :
    Opened t (l.filter fun x => x.1 ≠ f) (Function.update tab f none) := by
  refine ⟨?_, ?_, fun x hx => h.free x (List.mem_of_mem_filter hx)⟩
  · rw [h.tab, openFds_close hf]
  · exact h.nodup.sublist (List.filter_sublist.map Prod.fst)

theorem Opened.close_head (h : Opened t ((f, e) :: l) tab) : Opened t l (Function.update tab f none) := by
  have hclose := h.close (h.free (f, e) List.mem_cons_self)
  have hnodup := h.nodup
  rw [List.map_cons, List.nodup_cons] at hnodup
  rw [List.filter_cons_of_neg (by simp)] at hclose
  rwa [List.filter_eq_self.mpr] at hclose
  intro x hx
  refine decide_eq_true fun hxf => hnodup.1 ?_
  exact List.mem_map.mpr ⟨x, hx, hxf⟩

theorem Opened.swap {x y : ℕ × FdEnd} (h : Opened t (x :: y :: l) tab) : Opened t (y :: x :: l) tab := by
  have hnodup := h.nodup
  rw [List.map_cons, List.map_cons, List.nodup_cons, List.mem_cons, not_or] at hnodup
  refine ⟨?_, ?_, fun z hz => h.free z ((List.Perm.swap x y l).mem_iff.mp hz)⟩
  · rw [h.tab, openFds, openFds, openFds, openFds, Function.update_comm hnodup.1.1]
  · exact ((List.Perm.swap y x l).map Prod.fst).nodup_iff.mp h.nodup

theorem Opened.close_second {x : ℕ × FdEnd} (h : Opened t (x :: (f, e) :: l) tab) :
    Opened t (x :: l) (Function.update tab f none) := h.swap.close_head

theorem Opened.pipe (h : Opened t l tab) (hr : tab r = none) (hw : tab w = none) (hne : r ≠ w) :
    Opened t ((w, e') :: (r, e) :: l) (Function.update (Function.update tab r (some e)) w (some e')) := by
  rw [h.tab, openFds_eq_none] at hr hw
  refine ⟨?_, ?_, ?_⟩
  · rw [h.tab]
    rfl
  · rw [List.map_cons, List.map_cons, List.nodup_cons, List.nodup_cons, List.mem_cons, not_or]
    exact ⟨⟨hne.symm, hw.2⟩, hr.2, h.nodup⟩
  · intro x hx
    rcases List.mem_cons.mp hx with rfl | hx
    · exact hw.1
    · rcases List.mem_cons.mp hx with rfl | hx
      · exact hr.1
      · exact h.free x hx

/-- Only so many descriptors are open. -/
def FewFds (t : FdTab) : Prop := ∃ m, ∀ f, m ≤ f → t f = none

theorem FewFds.opened (ht : FewFds t) (h : Opened t l tab) : FewFds tab := by
  obtain ⟨m, hm⟩ := ht
  rw [h.tab]
  clear h
  induction l with
  | nil => exact ⟨m, hm⟩
  | cons x l ih =>
    obtain ⟨m', hm'⟩ := ih
    refine ⟨max m' (x.1 + 1), fun f hf => ?_⟩
    rw [openFds, Function.update_of_ne (by omega)]
    exact hm' f (by omega)

theorem FewFds.exists_pipe (h : FewFds t) : ∃ r w, t r = none ∧ t w = none ∧ r ≠ w := by
  obtain ⟨m, hm⟩ := h
  exact ⟨m, m + 1, hm m (Nat.le_refl m), hm (m + 1) (by omega), by omega⟩

end Descriptors
end Sisop
