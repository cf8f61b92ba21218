import Mathlib.Algebra.BigOperators.Group.Finset.Basic
import Mathlib.Algebra.Order.BigOperators.Group.Finset
import Sisop.Primes
import Sisop.Trace

/-! Every number that `primes` prints is the next prime. -/
namespace Sisop
namespace Primes

variable {t : FdTab} {n cap k j i : ℕ} {s s' : PrimesSystem} {T T' xs : List ℕ} {l : List (ℕ × FdEnd)} {fs : List Frame}

/-- The numbers that a process is still to write, where those of `T` are still to reach it. -/
def Pc.future (n : ℕ) (T : List ℕ) : Pc → List ℕ
  | .pipe0 | .fork0 .. | .close0 .. => List.range' 2 (n - 2)
  | .loop0 _ _ i => List.range' i (n - i)
  | .pipe _ prime | .print _ prime .. | .fork _ prime .. | .loop _ prime .. => sift prime T
  | .write _ prime _ _ next => next :: sift prime T
  | _ => []

/-- The numbers that are still to be printed, where those of `T` are still to reach the last process, and those of `T'` the one
after it. -/
def Pc.rest (T T' : List ℕ) : Pc → List ℕ
  | .pipe0 | .fork0 .. | .fork .. => sieve T'
  | .pipe _ prime | .print _ prime .. => prime :: sieve T'
  | _ => sieve T

def future (n : ℕ) (T : List ℕ) : Option Ctl → List ℕ
  | some c => c.1.future n T
  | none => []

def rest (T T' : List ℕ) : Option Ctl → List ℕ
  | some c => c.1.rest T T'
  | none => sieve T

/-- The numbers that are still to reach process `k`. -/
def into (n : ℕ) (s : PrimesSystem) : ℕ → List ℕ
  | 0 => []
  | k + 1 => s.pipe k ++ future n (into n s k) (s.proc k).ctl

/-- The steps of a call of `filter` and of what comes after it, the child and all that comes from it included, where `q` calls are
to be returned to and the numbers of `T` are still to reach it. -/
def filterCost : List ℕ → ℕ → ℕ
  | [], q => 2 * q + 3
  | prime :: T, q => 2 * T.length + 2 * q + 11 + filterCost (sift prime T) (q + 1)
termination_by T => T.length
decreasing_by exact Nat.lt_succ_of_le (sift_length_le prime T)

/-- The steps that are left to a process, and to those that come from it. -/
def Pc.cost (n : ℕ) (T : List ℕ) (q : ℕ) : Pc → ℕ
  | .pipe0 => n - 2 + 2 * q + 7 + filterCost (List.range' 2 (n - 2)) (q + 1)
  | .fork0 .. => n - 2 + 2 * q + 6 + filterCost (List.range' 2 (n - 2)) (q + 1)
  | .close0 .. => n - 2 + 2 * q + 4
  | .loop0 _ _ i => n - i + 2 * q + 3
  | .read _ => filterCost T q
  | .pipe _ prime => 2 * T.length + 2 * q + 10 + filterCost (sift prime T) (q + 1)
  | .print _ prime .. => 2 * T.length + 2 * q + 9 + filterCost (sift prime T) (q + 1)
  | .fork _ prime .. => 2 * T.length + 2 * q + 8 + filterCost (sift prime T) (q + 1)
  | .child .. => filterCost T (q + 1) + 2
  | .child0 .. | .childRead .. => filterCost T (q + 1) + 1
  | .loop .. => 2 * T.length + 2 * q + 5
  | .write .. => 2 * T.length + 2 * q + 6
  | .close .. => 2 * q + 4
  | .closeWrite _ => 2 * q + 3
  | .wait | .done _ => 2 * q + 2
  | .error .. => 2 * q + 3
  | .exit => 2 * q + 1

def cost (n : ℕ) (T : List ℕ) : Option Ctl → ℕ
  | some c => c.1.cost n T c.2.length
  | none => 0

/-- The steps that are left to all processes. -/
def total (n : ℕ) (s : PrimesSystem) : ℕ := ∑ k ∈ Finset.range s.nprocs, cost n (into n s k) (s.proc k).ctl

/-- The descriptors from which the process reads, and no others, are open. -/
def Drained (k : ℕ) (l : List (ℕ × FdEnd)) : Prop := ∀ x ∈ l, x.2 = .readEnd (k - 1)

/-- The place of process `k`: with `m` processes and `p` pipes, it has the descriptors of `l`, the children `kids`, and the
numbers of `T` are still to reach it. -/
def Pc.At (k m p : ℕ) (T : List ℕ) (l : List (ℕ × FdEnd)) (kids : List ℕ) : Pc → Prop
  | .pipe0 => k = 0 ∧ m = k + 1 ∧ p = k ∧ l = [] ∧ kids = []
  | .fork0 r w => k = 0 ∧ m = k + 1 ∧ p = k + 1 ∧ l = [(w, .writeEnd k), (r, .readEnd k)] ∧ kids = []
  | .child0 r w => k = 1 ∧ m = k + 1 ∧ p = k ∧ l = [(w, .writeEnd (k - 1)), (r, .readEnd (k - 1))] ∧ kids = []
  | .close0 r w => k = 0 ∧ k + 1 < m ∧ l = [(w, .writeEnd k), (r, .readEnd k)] ∧ kids = [k + 1]
  | .loop0 _ w _ => k = 0 ∧ k + 1 < m ∧ l = [(w, .writeEnd k)] ∧ kids = [k + 1]
  | .read fd => 0 < k ∧ kids = [] ∧ (T = [] ∧ Drained k l ∨ m = k + 1 ∧ p = k ∧ l = [(fd, .readEnd (k - 1))])
  | .pipe fd _ => 0 < k ∧ m = k + 1 ∧ p = k ∧ l = [(fd, .readEnd (k - 1))] ∧ kids = []
  | .print fd _ r w | .fork fd _ r w =>
    0 < k ∧ m = k + 1 ∧ p = k + 1 ∧ l = [(w, .writeEnd k), (r, .readEnd k), (fd, .readEnd (k - 1))] ∧ kids = []
  | .child fd r w =>
    1 < k ∧ m = k + 1 ∧ p = k ∧ l = [(w, .writeEnd (k - 1)), (r, .readEnd (k - 1)), (fd, .readEnd (k - 1 - 1))] ∧ kids = []
  | .childRead fd r => 1 < k ∧ m = k + 1 ∧ p = k ∧ l = [(r, .readEnd (k - 1)), (fd, .readEnd (k - 1 - 1))] ∧ kids = []
  | .loop fd _ r w | .write fd _ r w _ =>
    0 < k ∧ k + 1 < m ∧ l = [(w, .writeEnd k), (r, .readEnd k), (fd, .readEnd (k - 1))] ∧ kids = [k + 1]
  | .close r w => 0 < k ∧ k + 1 < m ∧ T = [] ∧ kids = [k + 1] ∧
    ∃ fd, l = [(w, .writeEnd k), (r, .readEnd k), (fd, .readEnd (k - 1))]
  | .closeWrite w => 0 < k ∧ k + 1 < m ∧ T = [] ∧ kids = [k + 1] ∧ ∃ fd, l = [(w, .writeEnd k), (fd, .readEnd (k - 1))]
  | .wait => k + 1 < m ∧ T = [] ∧ Drained k l ∧ kids = [k + 1]
  | .done _ | .exit => 1 < m ∧ T = [] ∧ Drained k l ∧ kids = []
  | .error .. => False

/-- The calls to which a process returns are for descriptors that are not in use otherwise, and `primes` returns to nothing. -/
def FramesOk (t : FdTab) (k : ℕ) (fs : List Frame) : Prop :=
  (k = 0 → fs = []) ∧ ∀ fd, .again fd ∈ fs ∨ .closeRead fd ∈ fs → t fd = none

/-- The descriptor of the next call of `filter`. -/
def Pc.fd? : Pc → Option ℕ
  | .read fd | .done fd => some fd
  | _ => none

def ProcOk (t : FdTab) (k m p : ℕ) (T : List ℕ) (q : Process Ctl) : Prop :=
  match q.ctl with
  | some (pc, fs) => FramesOk t k fs ∧ (∀ fd ∈ pc.fd?, t fd = none) ∧ ∃ l, Opened t l q.tab ∧ pc.At k m p T l q.kids
  | none => 1 < m ∧ T = [] ∧ q.tab = fun _ => none

structure Invariant (t : FdTab) (n : ℕ) (s : PrimesSystem) : Prop where
  pos : 0 < s.nprocs
  procs : ∀ k < s.nprocs, ProcOk t k s.nprocs s.npipes (into n s k) (s.proc k)
  pipes : ∀ i, s.nprocs ≤ i + 1 → s.pipe i = []
  data : s.out ++ rest (into n s (s.nprocs - 1)) (into n s s.nprocs) (s.proc (s.nprocs - 1)).ctl = sieve (List.range' 2 (n - 2))

/-- What every step from a state with the invariant leads to. -/
structure Next (t : FdTab) (n : ℕ) (s s' : PrimesSystem) : Prop where
  invariant : Invariant t n s'
  total_lt : total n s' < total n s

section Into

theorem into_succ (n : ℕ) (s : PrimesSystem) (k : ℕ) : into n s (k + 1) = s.pipe k ++ future n (into n s k) (s.proc k).ctl := rfl

/-- A step of process `k` that writes what it was to write changes nothing about what is still to reach any process. -/
theorem into_congr {m : ℕ} (hpipe : ∀ i < m, i ≠ k → s'.pipe i = s.pipe i) (hproc : ∀ i < m, i ≠ k → s'.proc i = s.proc i)
    (h : s'.pipe k ++ future n (into n s k) (s'.proc k).ctl = s.pipe k ++ future n (into n s k) (s.proc k).ctl) (hj : j ≤ m) :
    into n s' j = into n s j := by
  induction j with
  | zero => rfl
  | succ j ih =>
    rw [into_succ, into_succ, ih (by omega)]
    by_cases hjk : j = k
    · rw [hjk, h]
    · rw [hpipe j hj hjk, hproc j hj hjk]

/-- Process `k + 1` reads a number. -/
theorem into_read (n : ℕ) (s' : PrimesSystem) {x : ℕ} (hpipe : s.pipe k = x :: xs) (hpipe' : s'.pipe = Function.update s.pipe k xs)
    (hproc : ∀ i, i ≠ k + 1 → s'.proc i = s.proc i) :
    into n s (k + 1) = x :: into n s' (k + 1) ∧ ∀ j ≤ k, into n s' j = into n s j := by
  have hbelow : ∀ j ≤ k, into n s' j = into n s j := by
    intro j hj
    induction j with
    | zero => rfl
    | succ j ih => rw [into_succ, into_succ, ih (by omega), hpipe', Function.update_of_ne (by omega), hproc j (by omega)]
  refine ⟨?_, hbelow⟩
  rw [into_succ, into_succ, hbelow k (Nat.le_refl k), hpipe', Function.update_self, hproc k (by omega), hpipe, List.cons_append]

/-- What is still to reach the processes above depends on what is still to reach this one. -/
theorem into_above (hpipe : ∀ i, k ≤ i → s'.pipe i = s.pipe i) (hproc : ∀ i, k ≤ i → s'.proc i = s.proc i)
    (h : into n s' k = into n s k) (hj : k ≤ j) : into n s' j = into n s j := by
  induction j, hj using Nat.le_induction with
  | base => exact h
  | succ j hj ih => rw [into_succ, into_succ, ih, hpipe j hj, hproc j hj]

end Into

section Places

variable {m m' p p' : ℕ} {kids : List ℕ} {pc : Pc} {q : Process Ctl}

/-- What happens at the end of the chain does not matter to the processes before it. -/
theorem Pc.At.later (h : pc.At k m p T l kids) (hk : k + 1 < m) (hm : m ≤ m') : pc.At k m' p' T l kids := by
  cases pc <;> simp only [Pc.At] at h ⊢ <;> grind

theorem ProcOk.later (h : ProcOk t k m p T q) (hk : k + 1 < m) (hm : m ≤ m') : ProcOk t k m' p' T q := by
  unfold ProcOk at h ⊢
  split at h
  · obtain ⟨hfs, hfd, l, hl, hat⟩ := h
    exact ⟨hfs, hfd, l, hl, hat.later hk hm⟩
  · exact ⟨h.1.trans_le hm, h.2⟩

end Places

section Frame

variable {q : Process Ctl}

/-- A step of process `k` alone. -/
theorem Invariant.update (h : Invariant t n s) (hk : k < s.nprocs) (hm : s'.nprocs = s.nprocs)
    (hp : s'.npipes = s.npipes ∨ k + 1 = s.nprocs) (hpipes : ∀ i, s.nprocs ≤ i + 1 → s'.pipe i = []) (hproc : ∀ j, j ≠ k → s'.proc j = s.proc j)
    (hinto : ∀ j < s.nprocs, j ≠ k → into n s' j = into n s j)
    (hok : ProcOk t k s'.nprocs s'.npipes (into n s' k) (s'.proc k))
    (hcost : cost n (into n s' k) (s'.proc k).ctl < cost n (into n s k) (s.proc k).ctl)
    (hlast : k + 1 = s.nprocs → s'.out ++ rest (into n s' k) (into n s' (k + 1)) (s'.proc k).ctl =
      s.out ++ rest (into n s k) (into n s (k + 1)) (s.proc k).ctl)
    (hout : k + 1 ≠ s.nprocs → s'.out = s.out ∧ into n s' s.nprocs = into n s s.nprocs) : Next t n s s' := by
  refine ⟨⟨hm ▸ h.pos, ?_, fun i hi => hpipes i (hm ▸ hi), ?_⟩, ?_⟩
  · intro j hj
    by_cases hjk : j = k
    · rwa [hjk]
    · have hold := h.procs j (hm ▸ hj)
      rw [hproc j hjk, hinto j (hm ▸ hj) hjk, hm]
      rcases hp with hp | hp
      · rwa [hp]
      · exact hold.later (by omega) (Nat.le_refl _)
  · rw [hm, ← h.data]
    by_cases hkm : k + 1 = s.nprocs
    · have hk' : s.nprocs - 1 = k := by omega
      rw [hk', ← hkm]
      exact hlast hkm
    · obtain ⟨hout, htail⟩ := hout hkm
      rw [hout, htail, hproc _ (by omega), hinto _ (by omega) (by omega)]
  · unfold total
    rw [hm]
    refine Finset.sum_lt_sum (fun j hj => ?_) ⟨k, Finset.mem_range.mpr hk, hcost⟩
    by_cases hjk : j = k
    · rw [hjk]
      exact hcost.le
    · rw [hproc j hjk, hinto j (Finset.mem_range.mp hj) hjk]

/-- The process moves on, and nothing but its descriptors and its children changes. -/
theorem Invariant.moves (h : Invariant t n s) (hk : k < s.nprocs)
    (hfut : future n (into n s k) q.ctl = future n (into n s k) (s.proc k).ctl)
    (hrest : ∀ T', rest (into n s k) T' q.ctl = rest (into n s k) T' (s.proc k).ctl)
    (hcost : cost n (into n s k) q.ctl < cost n (into n s k) (s.proc k).ctl)
    (hok : ProcOk t k s.nprocs s.npipes (into n s k) q) : Next t n s (s.setProc k q) := by
  have hself : (s.setProc k q).proc k = q := Function.update_self ..
  have hother (j : ℕ) (hj : j ≠ k) : (s.setProc k q).proc j = s.proc j := Function.update_of_ne hj ..
  have hinto (j : ℕ) : into n (s.setProc k q) j = into n s j :=
    into_congr (m := j) (fun _ _ _ => rfl) (fun i _ => hother i) (by rw [hself, hfut]; rfl) (Nat.le_refl j)
  refine h.update hk rfl (Or.inl rfl) h.pipes hother (fun j _ _ => hinto j) ?_ ?_ ?_ fun _ => ⟨rfl, hinto _⟩
  · rwa [hself, hinto]
  · rwa [hself, hinto]
  · intro _
    rw [hself, hinto, hinto, hrest]
    rfl

/-- What a process with these descriptors and children is to show. -/
theorem Invariant.at {pc : Pc} (h : Invariant t n s) (hk : k < s.nprocs) (hc : (s.proc k).ctl = some (pc, fs)) :
    FramesOk t k fs ∧ (∀ fd ∈ pc.fd?, t fd = none) ∧
      ∃ l, Opened t l (s.proc k).tab ∧ pc.At k s.nprocs s.npipes (into n s k) l (s.proc k).kids := by
  have hok := h.procs k hk
  unfold ProcOk at hok
  rwa [hc] at hok

end Frame

section Ends

variable {m p : ℕ} {kids : List ℕ} {pc : Pc}

/-- A process that is still to write has the write end of its pipe. -/
theorem Pc.At.writeEnd (h : pc.At k m p T l kids) (hk : k + 1 < m) (hT : pc.future n T ≠ []) : ∃ w, (w, .writeEnd k) ∈ l := by
  cases pc <;> simp only [Pc.At, Pc.future] at h hT <;> grind

/-- A process that is still to read has the read end of its pipe. -/
theorem Pc.At.readEnd (h : pc.At k m p T l kids) (hk : 0 < k) (hT : T ≠ []) : ∃ r, (r, .readEnd (k - 1)) ∈ l := by
  cases pc <;> simp only [Pc.At] at h <;> grind

/-- At the end of the input, nothing is still to reach the process. -/
theorem Invariant.drained (h : Invariant t n s) (hk : k + 1 < s.nprocs) (hpipe : s.pipe k = []) (hw : ¬ s.HasEnd (.writeEnd k)) :
    into n s (k + 1) = [] := by
  rw [into_succ, hpipe, List.nil_append]
  match hc : (s.proc k).ctl with
  | none => rfl
  | some (pc, fs) =>
    obtain ⟨-, -, l, hl, hat⟩ := h.at (by omega) hc
    by_contra hne
    obtain ⟨w, hmem⟩ := hat.writeEnd hk hne
    exact hw ⟨k, by omega, w, hl.get hmem⟩

theorem Invariant.hasReadEnd (h : Invariant t n s) (hk : k + 1 < s.nprocs) (hT : into n s (k + 1) ≠ []) :
    s.HasEnd (.readEnd k) := by
  match hc : (s.proc (k + 1)).ctl with
  | none =>
    have hok := h.procs (k + 1) hk
    unfold ProcOk at hok
    rw [hc] at hok
    exact absurd hok.2.1 hT
  | some (pc, fs) =>
    obtain ⟨-, -, l, hl, hat⟩ := h.at hk hc
    obtain ⟨r, hmem⟩ := hat.readEnd (Nat.succ_pos k) hT
    exact ⟨k + 1, hk, r, hl.get hmem⟩

end Ends

end Primes
end Sisop
