import Sisop.PrimesSteps
import Mathlib.Data.Nat.Find

/-! No state of `primes` is stuck before its processes have finished: it prints the primes. -/
namespace Sisop
namespace Primes

variable {t : FdTab} {n cap k j i f m p : ℕ} {s s' : PrimesSystem} {T : List ℕ} {l : List (ℕ × FdEnd)} {fs : List Frame} {pc : Pc}
  {kids : List ℕ}

/-- A child that has not closed the write end of the pipe from which it is to read. -/
def Pc.IsChild : Pc → Prop
  | .child0 .. | .child .. => True
  | _ => False

section Ends

theorem Pc.At.holds (h : pc.At k m p T l kids) (hmem : (f, .writeEnd i) ∈ l) : k = i ∧ pc ≠ .wait ∨ k = i + 1 ∧ pc.IsChild := by
  cases pc <;> simp only [Pc.At, Drained, Pc.IsChild] at h ⊢ <;> grind

/-- Who has the write end of a pipe. -/
theorem Invariant.holds (h : Invariant t n s) (hplain : ∀ f e, t f = some e → e = .file) (hw : s.HasEnd (.writeEnd i)) :
    ∃ k < s.nprocs, ∃ pc fs, (s.proc k).ctl = some (pc, fs) ∧ (k = i ∧ pc ≠ .wait ∨ k = i + 1 ∧ pc.IsChild) := by
  obtain ⟨k, hk, f, hf⟩ := hw
  match hc : (s.proc k).ctl with
  | none =>
    have hok := h.procs k hk
    unfold ProcOk at hok
    rw [hc] at hok
    rw [hok.2.2] at hf
    cases hf
  | some (pc, fs) =>
    obtain ⟨-, -, l, hl, hat⟩ := h.at hk hc
    rcases hl.cases hf with hold | hmem
    · cases hplain f _ hold
    · exact ⟨k, hk, pc, fs, hc, hat.holds hmem⟩

end Ends

section Progress

/-- Some process can take a step. -/
def CanStep (n cap : ℕ) (s : PrimesSystem) : Prop := ∃ k s', Step n cap s k s'

theorem canStep {c : Syscall Ctl ℕ} (hk : k < s.nprocs) (hc : (s.proc k).ctl = some (pc, fs)) (hcall : call n (pc, fs) = c)
    (he : Effect cap s k c s') : CanStep n cap s := by
  rw [← hcall] at he
  exact ⟨k, s', hk, hc, he⟩

/-- A process that is to read can do so, unless it waits for the one before it. -/
theorem Invariant.canRead {fd : ℕ} {got : ℕ → Ctl} {stop : Ctl} (h : Invariant t n s) (hplain : ∀ f e, t f = some e → e = .file)
    (hk : k + 1 < s.nprocs) (hc : (s.proc (k + 1)).ctl = some (pc, fs)) (hpc : ¬ pc.IsChild)
    (hcall : call n (pc, fs) = .read fd got stop) (hfd : (s.proc (k + 1)).tab fd = some (.readEnd k))
    (hbefore : ∀ pc fs, (s.proc k).ctl = some (pc, fs) → pc ≠ .wait → s.pipe k = [] → CanStep n cap s) : CanStep n cap s := by
  match hpipe : s.pipe k with
  | x :: xs => exact canStep hk hc hcall (.read got stop hfd hpipe)
  | [] =>
    by_cases hw : s.HasEnd (.writeEnd k)
    · obtain ⟨j, -, pc', fs', hc', hj | ⟨rfl, hchild⟩⟩ := h.holds hplain hw
      · obtain ⟨rfl, hwait⟩ := hj
        exact hbefore pc' fs' hc' hwait hpipe
      · rw [hc] at hc'
        cases hc'
        exact absurd hchild hpc
    · exact canStep hk hc hcall (.eof got stop hfd hpipe hw)

/-- A process that is to write can do so when there is room. -/
theorem Invariant.canWrite {w x : ℕ} {next bad : Ctl} (h : Invariant t n s) (hk : k + 1 < s.nprocs)
    (hc : (s.proc k).ctl = some (pc, fs)) (hcall : call n (pc, fs) = .write w x next bad) (hl : Opened t l (s.proc k).tab)
    (hmem : (w, .writeEnd k) ∈ l) (hfut : pc.future n (into n s k) ≠ []) (hroom : (s.pipe k).length < cap) : CanStep n cap s := by
  refine canStep (by omega) hc hcall (.write x next bad (hl.get hmem) (h.hasReadEnd hk ?_) hroom)
  rw [into_succ, hc]
  exact List.append_ne_nil_of_right_ne_nil _ hfut

/-- A process that does not wait for its child can take a step, or one before it can. -/
theorem Invariant.chainStep (h : Invariant t n s) (hplain : ∀ f e, t f = some e → e = .file) (hstdout : t 1 = some .file)
    (hfew : FewFds t) (hcap : 0 < cap) : ∀ {k pc fs}, k < s.nprocs → (s.proc k).ctl = some (pc, fs) → pc ≠ .wait →
    (k + 1 < s.nprocs → (s.pipe k).length < cap) → CanStep n cap s := by
  intro k
  induction k using Nat.strong_induction_on with
  | _ k ih =>
    intro pc fs hk hc hwait hroom
    obtain ⟨hfs, hfree, l, hl, hat⟩ := h.at hk hc
    -- the process before this one
    have hbefore (k' : ℕ) (hk' : k = k' + 1) (pc' : Pc) (fs' : List Frame) (hc' : (s.proc k').ctl = some (pc', fs'))
        (hwait' : pc' ≠ .wait) (hpipe : s.pipe k' = []) : CanStep n cap s := by
      refine ih k' (by omega) (by omega) hc' hwait' fun _ => ?_
      rwa [hpipe]
    have hpipe : ∃ r w, (s.proc k).tab r = none ∧ (s.proc k).tab w = none ∧ r ≠ w := (hfew.opened hl).exists_pipe
    cases pc with
    | pipe0 =>
      obtain ⟨r, w, hr, hw, hne⟩ := hpipe
      exact canStep hk hc rfl (.pipe _ hr hw hne)
    | pipe fd prime =>
      obtain ⟨r, w, hr, hw, hne⟩ := hpipe
      exact canStep hk hc rfl (.pipe _ hr hw hne)
    | fork0 r w => exact canStep hk hc rfl (.fork _ _)
    | fork fd prime r w => exact canStep hk hc rfl (.fork _ _)
    | child0 r w => exact canStep hk hc rfl (.close _ _)
    | close0 r w => exact canStep hk hc rfl (.close _ _)
    | done fd => exact canStep hk hc rfl (.close _ _)
    | child fd r w => exact canStep hk hc rfl (.close _ _)
    | childRead fd r => exact canStep hk hc rfl (.close _ _)
    | close r w => exact canStep hk hc rfl (.close _ _)
    | closeWrite w => exact canStep hk hc rfl (.close _ _)
    | print fd prime r w => exact canStep hk hc rfl (.print _ _ (hl.kept hstdout))
    | exit => exact canStep hk hc rfl .exit
    | wait => exact absurd rfl hwait
    | error r w => cases hat
    | loop0 r w i =>
      obtain ⟨-, hm, rfl, -⟩ := hat
      by_cases hi : i < n
      · refine h.canWrite hm hc (if_pos hi) hl List.mem_cons_self ?_ (hroom hm)
        change List.range' i (n - i) ≠ []
        rw [show n - i = n - (i + 1) + 1 by omega, List.range'_succ]
        exact List.cons_ne_nil _ _
      · exact canStep hk hc (if_neg hi) (.close _ _)
    | write fd prime r w next =>
      obtain ⟨-, hm, rfl, -⟩ := hat
      exact h.canWrite hm hc rfl hl List.mem_cons_self (List.cons_ne_nil _ _) (hroom hm)
    | loop fd prime r w =>
      obtain ⟨hk0, -, rfl, -⟩ := hat
      obtain ⟨k, rfl⟩ := Nat.exists_eq_add_one_of_ne_zero (Nat.ne_of_gt hk0)
      exact h.canRead hplain hk hc (fun hchild => hchild) rfl (hl.get (by simp)) (hbefore k rfl)
    | read fd =>
      obtain ⟨hk0, -, hinput⟩ := hat
      obtain ⟨k, rfl⟩ := Nat.exists_eq_add_one_of_ne_zero (Nat.ne_of_gt hk0)
      have hdrained : Drained (k + 1) l := by
        rcases hinput with ⟨-, hdrained⟩ | ⟨-, -, rfl⟩
        · exact hdrained
        · intro x hx
          rw [List.mem_singleton.mp hx]
      match hfd : (s.proc (k + 1)).tab fd with
      | none => exact canStep hk hc rfl (.readBad _ _ (Or.inl hfd))
      | some e =>
        rw [hdrained.eq hl (hfree fd rfl) hfd] at hfd
        exact h.canRead hplain hk hc (fun hchild => hchild) rfl hfd (hbefore k rfl)

/-- As long as some process has not finished, some process can take a step. -/
theorem Invariant.progress (h : Invariant t n s) (hplain : ∀ f e, t f = some e → e = .file) (hstdout : t 1 = some .file)
    (hfew : FewFds t) (hcap : 0 < cap) (hs : ¬ s.Finished) : CanStep n cap s := by
  classical
  -- the last process that has not finished
  obtain ⟨k, ⟨hk, halive⟩, hlast⟩ : ∃ k, (k < s.nprocs ∧ (s.proc k).ctl ≠ none) ∧ ∀ j, k < j → j < s.nprocs → (s.proc j).ctl = none := by
    unfold System.Finished at hs
    push Not at hs
    obtain ⟨k, hk, halive⟩ := hs
    refine ⟨Nat.findGreatest (fun k => k < s.nprocs ∧ (s.proc k).ctl ≠ none) s.nprocs, ?_, ?_⟩
    · exact Nat.findGreatest_spec (P := fun k => k < s.nprocs ∧ (s.proc k).ctl ≠ none) hk.le ⟨hk, halive⟩
    · intro j hj hjm
      by_contra halive'
      exact Nat.findGreatest_is_greatest hj hjm.le ⟨hjm, halive'⟩
  obtain ⟨⟨pc, fs⟩, hc⟩ := Option.ne_none_iff_exists'.mp halive
  by_cases hwait : pc = .wait
  · subst hwait
    obtain ⟨-, -, l, -, hm, -, -, hkids⟩ := h.at hk hc
    refine canStep hk hc rfl (.wait (j := k + 1) _ ?_ (hlast (k + 1) (by omega) hm))
    rw [hkids]
    exact List.mem_singleton_self _
  · refine h.chainStep hplain hstdout hfew hcap hk hc hwait fun hm => ?_
    -- the process that reads from this pipe has finished, after it has read everything
    have hok := h.procs (k + 1) hm
    unfold ProcOk at hok
    rw [hlast (k + 1) (by omega) hm] at hok
    have hinto := hok.2.1
    rw [into_succ, List.append_eq_nil_iff] at hinto
    rwa [hinto.1]

end Progress

section Output

theorem Invariant.finished_out (h : Invariant t n s) (hs : s.Finished) : s.out = sieve (List.range' 2 (n - 2)) := by
  have hpos := h.pos
  have hlast := h.procs (s.nprocs - 1) (by omega)
  have hdata := h.data
  unfold ProcOk at hlast
  rw [hs _ (by omega)] at hlast hdata
  rw [← hdata, hlast.2.1]
  change s.out = s.out ++ sieve []
  rw [sieve_nil, List.append_nil]

theorem run_total {s₀ : PrimesSystem} {ks : List ℕ} (h0 : Start t s₀) (h : Run (Step n cap) s₀ ks s) :
    Invariant t n s ∧ ks.length + total n s ≤ total n s₀ := by
  refine h.invariant (I := fun ks s => Invariant t n s ∧ ks.length + total n s ≤ total n s₀) ⟨h0.invariant, by simp⟩ ?_
  rintro ks k s s' ⟨hs, hle⟩ hst
  have hnext := hs.step hst
  have := hnext.total_lt
  refine ⟨hnext.invariant, ?_⟩
  rw [List.length_append, List.length_singleton]
  omega

/-- The processes of `primes` all finish, whatever the order of their steps, and print the primes below `n`. -/
theorem primes_prints {s₀ : PrimesSystem} (hcap : 0 < cap) (h0 : Start t s₀) :
    (∃ m, ∀ ks s, Run (Step n cap) s₀ ks s → ks.length ≤ m) ∧ ∀ ks s, Run (Step n cap) s₀ ks s →
      s.out <+: (List.range n).filter (fun x => decide x.Prime) ∧
        (s.Finished → s.out = (List.range n).filter fun x => decide x.Prime) ∧
        (¬ s.Finished → ∃ k s', Step n cap s k s') := by
  refine ⟨⟨total n s₀, fun ks s h => ?_⟩, fun ks s h => ?_⟩
  · have := (run_total h0 h).2
    omega
  · have hs := (run_total h0 h).1
    rw [← sieve_range]
    refine ⟨?_, hs.finished_out, hs.progress h0.plain h0.stdout h0.few hcap⟩
    rw [← hs.data]
    exact List.prefix_append _ _

theorem primes_prints_ten : ∃ (s₀ : PrimesSystem) (ks : List ℕ) (s : PrimesSystem),
    Run (Step 10 1) s₀ ks s ∧ s.Finished ∧ s.out = [2, 3, 5, 7] := by
  let t : FdTab := fun f => if f < 3 then some .file else none
  let s₀ : PrimesSystem := ⟨1, fun _ => ⟨some (.pipe0, []), t, []⟩, 0, fun _ => [], []⟩
  have hplain (f : ℕ) (e : FdEnd) (h : t f = some e) : e = .file := by
    change (if f < 3 then some FdEnd.file else none) = some e at h
    split_ifs at h
    exact (Option.some.inj h).symm
  have h0 : Start t s₀ := ⟨rfl, hplain, ⟨3, fun f hf => if_neg (by omega)⟩, rfl, rfl, rfl, fun _ => rfl, rfl⟩
  obtain ⟨⟨m, hm⟩, hall⟩ := @primes_prints t 10 1 s₀ Nat.one_pos h0
  obtain ⟨ks, s, hrun, hlast⟩ := Run.exists_last hm
  obtain ⟨-, hout, hprogress⟩ := hall ks s hrun
  have hfinished : s.Finished := by
    by_contra hs
    obtain ⟨k, s', hst⟩ := hprogress hs
    exact hlast k s' hst
  refine ⟨s₀, ks, s, hrun, hfinished, (hout hfinished).trans ?_⟩
  rw [← sieve_range]
  simp [List.range', sieve_cons, sift]

end Output

end Primes
end Sisop
