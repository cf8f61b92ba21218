import Sisop.PrimesInvariant

/-! The steps of `primes` keep its invariant. -/
namespace Sisop
namespace Primes

variable {t : FdTab} {n cap k m p : ℕ} {s s' : PrimesSystem} {T : List ℕ} {l : List (ℕ × FdEnd)} {fs fs' : List Frame} {pc pc' : Pc}
  {kids : List ℕ} {tab : FdTab}

section Returns

theorem future_ret (n : ℕ) (T : List ℕ) (fs : List Frame) : (ret fs).1.future n T = [] := by
  cases fs with
  | nil => rfl
  | cons f fs => cases f <;> rfl

theorem rest_ret (T T' : List ℕ) (fs : List Frame) : (ret fs).1.rest T T' = sieve T := by
  cases fs with
  | nil => rfl
  | cons f fs => cases f <;> rfl

theorem pc_free (h : pc.fd? = none) : ∀ fd ∈ pc.fd?, t fd = none := by
  intro fd hfd
  rw [h] at hfd
  cases hfd

theorem pc_fd {fd : ℕ} (h : pc.fd? = some fd) (ht : t fd = none) : ∀ fd ∈ pc.fd?, t fd = none := by
  intro fd' hfd
  rw [h] at hfd
  rwa [← Option.some.inj hfd]

theorem cost_ret (n : ℕ) (fs : List Frame) : cost n [] (some (ret fs)) ≤ 2 * fs.length + 1 := by
  cases fs with
  | nil => exact Nat.le_refl 1
  | cons f fs =>
    cases f with
    | again fd =>
      change filterCost [] fs.length ≤ 2 * (fs.length + 1) + 1
      rw [filterCost]
      omega
    | closeRead fd =>
      change 2 * fs.length + 2 ≤ 2 * (fs.length + 1) + 1
      omega

/-- Nothing is left to do for a process that has read its whole input and waited for its child. -/
theorem FramesOk.ret (hfs : FramesOk t k fs) (hm : 1 < m) (hl : Opened t l tab) (hdrained : Drained k l) :
    ProcOk t k m p [] ⟨some (ret fs), tab, []⟩ := by
  cases fs with
  | nil => exact ⟨hfs, pc_free rfl, l, hl, hm, rfl, hdrained, rfl⟩
  | cons f fs =>
    have htail : FramesOk t k fs :=
      ⟨fun hk => absurd (hfs.1 hk) (List.cons_ne_nil f fs),
        fun fd hfd => hfs.2 fd (hfd.imp (List.mem_cons_of_mem f) (List.mem_cons_of_mem f))⟩
    have hk : 0 < k := Nat.pos_of_ne_zero fun hk => absurd (hfs.1 hk) (List.cons_ne_nil f fs)
    cases f with
    | again fd =>
      have hfd : t fd = none := hfs.2 fd (Or.inl List.mem_cons_self)
      exact ⟨htail, pc_fd rfl hfd, l, hl, hk, rfl, Or.inl ⟨rfl, hdrained⟩⟩
    | closeRead fd =>
      have hfd : t fd = none := hfs.2 fd (Or.inr List.mem_cons_self)
      exact ⟨htail, pc_fd rfl hfd, l, hl, hm, rfl, hdrained, rfl⟩

theorem FramesOk.cons {f : Frame} {r : ℕ} (hfs : FramesOk t k fs) (hk : 0 < k) (hf : f = .again r ∨ f = .closeRead r) (hr : t r = none) :
    FramesOk t k (f :: fs) := by
  refine ⟨fun h => absurd h (Nat.ne_of_gt hk), fun fd hfd => ?_⟩
  grind [FramesOk]

theorem Drained.close {f : ℕ} (h : Drained k l) : Drained k (l.filter fun x => x.1 ≠ f) :=
  fun x hx => h x (List.mem_of_mem_filter hx)

end Returns

section Close

/-- A call of `close`. -/
theorem Invariant.closes {fd : ℕ} (h : Invariant t n s) (hk : k < s.nprocs) (hc : (s.proc k).ctl = some (pc, fs))
    (he : Effect cap s k (.close fd (pc', fs')) s')
    (hfut : pc'.future n (into n s k) = pc.future n (into n s k)) (hrest : ∀ T', pc'.rest (into n s k) T' = pc.rest (into n s k) T')
    (hcost : pc'.cost n (into n s k) fs'.length < pc.cost n (into n s k) fs.length)
    (hok : ProcOk t k s.nprocs s.npipes (into n s k) ⟨some (pc', fs'), Function.update (s.proc k).tab fd none, (s.proc k).kids⟩) :
    Next t n s s' := by
  cases he
  refine h.moves hk ?_ ?_ ?_ hok
  · rw [hc]
    exact hfut
  · rw [hc]
    exact hrest
  · rw [hc]
    exact hcost

/-- A process closes a descriptor once it has read its whole input, and returns. -/
theorem Invariant.done {fd : ℕ} (h : Invariant t n s) (hk : k < s.nprocs) (hc : (s.proc k).ctl = some (.done fd, fs))
    (he : Effect cap s k (.close fd (ret fs)) s') : Next t n s s' := by
  obtain ⟨hfs, hfd, l, hl, hm, hT, hdrained, hkids⟩ := h.at hk hc
  have hok := hfs.ret (p := s.npipes) hm (hl.close (hfd fd rfl)) hdrained.close
  refine h.closes hk hc he (future_ret n _ fs) (fun T' => rest_ret _ T' fs) ?_ ?_
  · rw [hT]
    exact (cost_ret n fs).trans_lt (Nat.lt_succ_self _)
  · rw [hT, hkids]
    exact hok

theorem Invariant.child0 {r w : ℕ} (h : Invariant t n s) (hk : k < s.nprocs) (hc : (s.proc k).ctl = some (.child0 r w, fs))
    (he : Effect cap s k (.close w (.read r, .closeRead r :: fs)) s') : Next t n s s' := by
  obtain ⟨hfs, -, l, hl, rfl, hm, hp, rfl, hkids⟩ := h.at hk hc
  have hr : t r = none := hl.free (r, _) (List.mem_cons_of_mem _ List.mem_cons_self)
  refine h.closes hk hc he rfl (fun _ => rfl) (Nat.lt_succ_self _) ⟨hfs.cons Nat.one_pos (Or.inr rfl) hr, pc_fd rfl hr, _, hl.close_head, ?_⟩
  exact ⟨Nat.one_pos, hkids, Or.inr ⟨hm, hp, rfl⟩⟩

theorem Invariant.close0 {r w : ℕ} (h : Invariant t n s) (hk : k < s.nprocs) (hc : (s.proc k).ctl = some (.close0 r w, fs))
    (he : Effect cap s k (.close r (.loop0 r w 2, fs)) s') : Next t n s s' := by
  obtain ⟨hfs, -, l, hl, hk0, hm, rfl, hkids⟩ := h.at hk hc
  exact h.closes hk hc he rfl (fun _ => rfl) (Nat.lt_succ_self _) ⟨hfs, pc_free rfl, _, hl.close_second, hk0, hm, rfl, hkids⟩

/-- The last number has been written. -/
theorem Invariant.loop0_end {r w i : ℕ} (h : Invariant t n s) (hk : k < s.nprocs) (hi : ¬ i < n)
    (hc : (s.proc k).ctl = some (.loop0 r w i, fs)) (he : Effect cap s k (.close w (.wait, fs)) s') : Next t n s s' := by
  obtain ⟨hfs, -, l, hl, rfl, hm, rfl, hkids⟩ := h.at hk hc
  have hfut : ([] : List ℕ) = List.range' i (n - i) := by rw [Nat.sub_eq_zero_of_le (Nat.le_of_not_lt hi), List.range'_zero]
  have hcost : Pc.wait.cost n (into n s 0) fs.length < (Pc.loop0 r w i).cost n (into n s 0) fs.length := by
    change 2 * fs.length + 2 < n - i + 2 * fs.length + 3
    omega
  exact h.closes hk hc he hfut (fun _ => rfl) hcost
    ⟨hfs, pc_free rfl, _, hl.close_head, hm, rfl, fun _ hx => absurd hx List.not_mem_nil, hkids⟩

theorem Invariant.child {fd r w : ℕ} (h : Invariant t n s) (hk : k < s.nprocs) (hc : (s.proc k).ctl = some (.child fd r w, fs))
    (he : Effect cap s k (.close w (.childRead fd r, fs)) s') : Next t n s s' := by
  obtain ⟨hfs, -, l, hl, hk1, hm, hp, rfl, hkids⟩ := h.at hk hc
  exact h.closes hk hc he rfl (fun _ => rfl) (Nat.lt_succ_self _) ⟨hfs, pc_free rfl, _, hl.close_head, hk1, hm, hp, rfl, hkids⟩

theorem Invariant.childRead {fd r : ℕ} (h : Invariant t n s) (hk : k < s.nprocs) (hc : (s.proc k).ctl = some (.childRead fd r, fs))
    (he : Effect cap s k (.close fd (.read r, .again r :: fs)) s') : Next t n s s' := by
  obtain ⟨hfs, -, l, hl, hk1, hm, hp, rfl, hkids⟩ := h.at hk hc
  have hr : t r = none := hl.free (r, _) List.mem_cons_self
  refine h.closes hk hc he rfl (fun _ => rfl) (Nat.lt_succ_self _)
    ⟨hfs.cons (by omega) (Or.inl rfl) hr, pc_fd rfl hr, _, hl.close_second, ?_⟩
  exact ⟨by omega, hkids, Or.inr ⟨hm, hp, rfl⟩⟩

theorem Invariant.close {r w : ℕ} (h : Invariant t n s) (hk : k < s.nprocs) (hc : (s.proc k).ctl = some (.close r w, fs))
    (he : Effect cap s k (.close r (.closeWrite w, fs)) s') : Next t n s s' := by
  obtain ⟨hfs, -, l, hl, hk0, hm, hT, hkids, fd, rfl⟩ := h.at hk hc
  exact h.closes hk hc he rfl (fun _ => rfl) (Nat.lt_succ_self _)
    ⟨hfs, pc_free rfl, _, hl.close_second, hk0, hm, hT, hkids, fd, rfl⟩

theorem Invariant.closeWrite {w : ℕ} (h : Invariant t n s) (hk : k < s.nprocs) (hc : (s.proc k).ctl = some (.closeWrite w, fs))
    (he : Effect cap s k (.close w (.wait, fs)) s') : Next t n s s' := by
  obtain ⟨hfs, -, l, hl, hk0, hm, hT, hkids, fd, rfl⟩ := h.at hk hc
  refine h.closes hk hc he rfl (fun _ => rfl) (Nat.lt_succ_self _) ⟨hfs, pc_free rfl, _, hl.close_head, hm, hT, fun x hx => ?_, hkids⟩
  rw [List.mem_singleton.mp hx]

end Close

section Read

/-- A process that has only its input open, or not even that, reads from its input or from nothing. -/
theorem Drained.eq {fd : ℕ} {e : FdEnd} (h : Drained k l) (hl : Opened t l tab) (hfree : t fd = none) (hfd : tab fd = some e) :
    e = .readEnd (k - 1) := by
  rcases hl.cases hfd with hf | hmem
  · rw [hfree] at hf
    cases hf
  · exact h _ hmem

/-- A call of `read` that returns no number. -/
theorem Invariant.stops (h : Invariant t n s) (hk : k < s.nprocs) (hc : (s.proc k).ctl = some (pc, fs))
    (hfut : pc'.future n (into n s k) = pc.future n (into n s k)) (hrest : ∀ T', pc'.rest (into n s k) T' = pc.rest (into n s k) T')
    (hcost : pc'.cost n (into n s k) fs.length < pc.cost n (into n s k) fs.length)
    (hok : ProcOk t k s.nprocs s.npipes (into n s k) ⟨some (pc', fs), (s.proc k).tab, (s.proc k).kids⟩) :
    Next t n s (s.setProc k ((s.proc k).goto (pc', fs))) := by
  refine h.moves hk ?_ ?_ ?_ hok
  · rw [hc]
    exact hfut
  · rw [hc]
    exact hrest
  · rw [hc]
    exact hcost

/-- A call of `read` that returns a number, in a process that is not the last one. -/
theorem Invariant.receives {x : ℕ} {xs : List ℕ} (h : Invariant t n s) (hk : k + 1 + 1 < s.nprocs)
    (hc : (s.proc (k + 1)).ctl = some (pc, fs)) (hpipe : s.pipe k = x :: xs)
    (hfut : ∀ T, pc'.future n T = pc.future n (x :: T)) (hcost : ∀ T, pc'.cost n T fs.length < pc.cost n (x :: T) fs.length)
    (hok : ∀ T, ProcOk t (k + 1) s.nprocs s.npipes T ⟨some (pc', fs), (s.proc (k + 1)).tab, (s.proc (k + 1)).kids⟩) :
    Next t n s ((s.setProc (k + 1) ((s.proc (k + 1)).goto (pc', fs))).setPipe k xs) := by
  set s' := (s.setProc (k + 1) ((s.proc (k + 1)).goto (pc', fs))).setPipe k xs with hs'
  have hself : s'.proc (k + 1) = (s.proc (k + 1)).goto (pc', fs) := Function.update_self ..
  have hother (i : ℕ) (hi : i ≠ k + 1) : s'.proc i = s.proc i := Function.update_of_ne hi ..
  obtain ⟨hinto, hbelow⟩ := into_read n s' hpipe rfl hother
  have hnext : into n s' (k + 1 + 1) = into n s (k + 1 + 1) := by
    rw [into_succ n s' (k + 1), into_succ n s (k + 1), hself, hc, hinto]
    change Function.update s.pipe k xs (k + 1) ++ pc'.future n (into n s' (k + 1)) = _
    rw [Function.update_of_ne (by omega), hfut]
    rfl
  have habove (j : ℕ) (hj : k + 1 + 1 ≤ j) : into n s' j = into n s j :=
    into_above (fun i hi => Function.update_of_ne (by omega) ..) (fun i hi => hother i (by omega)) hnext hj
  refine h.update (by omega) rfl (Or.inl rfl) ?_ hother ?_ ?_ ?_ (fun hk' => absurd hk' (by omega))
    fun _ => ⟨rfl, habove _ (by omega)⟩
  · intro i hi
    exact (Function.update_of_ne (by omega) ..).trans (h.pipes i hi)
  · intro j _ hjk
    rcases Nat.lt_or_ge k j with hj | hj
    · exact habove j (by omega)
    · exact hbelow j hj
  · rw [hself]
    exact hok _
  · rw [hself, hc, hinto]
    exact hcost _

theorem Invariant.loop {fd prime r w : ℕ} (h : Invariant t n s) (hk : k < s.nprocs) (hc : (s.proc k).ctl = some (.loop fd prime r w, fs))
    (he : Effect cap s k (call n (.loop fd prime r w, fs)) s') : Next t n s s' := by
  obtain ⟨hfs, -, l, hl, hk0, hm, rfl, hkids⟩ := h.at hk hc
  obtain ⟨k, rfl⟩ := Nat.exists_eq_add_one_of_ne_zero (Nat.ne_of_gt hk0)
  have hmem : (fd, .readEnd k) ∈ [(w, .writeEnd (k + 1)), (r, .readEnd (k + 1)), (fd, FdEnd.readEnd k)] := by simp
  cases he with
  | read got stop hfd hi =>
    obtain rfl := (FdEnd.readEnd.inj (hl.eq hmem hfd)).symm
    rename_i x xs
    beta_reduce
    -- a multiple of the prime goes no further
    by_cases hx : x % prime ≠ 0
    · rw [if_pos hx]
      refine h.receives hm hc hi (fun T => (sift_keep hx T).symm) (fun T => ?_) fun T => ⟨hfs, pc_free rfl, _, hl, hk0, hm, rfl, hkids⟩
      change 2 * T.length + 2 * fs.length + 6 < 2 * (T.length + 1) + 2 * fs.length + 5
      omega
    · rw [if_neg hx]
      refine h.receives hm hc hi (fun T => (sift_drop hx T).symm) (fun T => ?_) fun T => ⟨hfs, pc_free rfl, _, hl, hk0, hm, rfl, hkids⟩
      change 2 * T.length + 2 * fs.length + 5 < 2 * (T.length + 1) + 2 * fs.length + 5
      omega
  | eof got stop hfd hi hw =>
    obtain rfl := (FdEnd.readEnd.inj (hl.eq hmem hfd)).symm
    have hT := h.drained hk hi hw
    refine h.stops hk hc ?_ (fun _ => rfl) ?_ ⟨hfs, pc_free rfl, _, hl, hk0, hm, hT, hkids, fd, rfl⟩
    · rw [hT]
      rfl
    · change 2 * fs.length + 4 < 2 * (into n s (k + 1)).length + 2 * fs.length + 5
      omega
  | readBad got stop hfd =>
    rcases hfd with hfd | ⟨i, hfd⟩
    · cases hfd.symm.trans (hl.get hmem)
    · cases hl.eq hmem hfd

/-- The first number that reaches the last process, or the end of its input. -/
theorem Invariant.read {fd : ℕ} (h : Invariant t n s) (hk : k < s.nprocs) (hc : (s.proc k).ctl = some (.read fd, fs))
    (he : Effect cap s k (call n (.read fd, fs)) s') : Next t n s s' := by
  obtain ⟨hfs, hfree, l, hl, hk0, hkids, hinput⟩ := h.at hk hc
  obtain ⟨k, rfl⟩ := Nat.exists_eq_add_one_of_ne_zero (Nat.ne_of_gt hk0)
  have hfd := hfree fd rfl
  have hread (i : ℕ) (hi : (s.proc (k + 1)).tab fd = some (.readEnd i)) : i = k := by
    rcases hinput with ⟨-, hdrained⟩ | ⟨-, -, rfl⟩
    · exact FdEnd.readEnd.inj (hdrained.eq hl hfd hi)
    · exact FdEnd.readEnd.inj (hl.eq List.mem_cons_self hi)
  have hdone (hT : into n s (k + 1) = []) : Next t n s (s.setProc (k + 1) ((s.proc (k + 1)).goto (.done fd, fs))) := by
    have hdrained : Drained (k + 1) l := by
      rcases hinput with ⟨-, hdrained⟩ | ⟨-, -, rfl⟩
      · exact hdrained
      · intro x hx
        rw [List.mem_singleton.mp hx]
    refine h.stops hk hc rfl (fun _ => rfl) ?_ ⟨hfs, hfree, l, hl, by omega, hT, hdrained, hkids⟩
    change 2 * fs.length + 2 < filterCost (into n s (k + 1)) fs.length
    rw [hT, filterCost]
    exact Nat.lt_succ_self _
  cases he with
  | read got stop hi hpipe =>
    obtain rfl := (hread _ hi).symm
    rename_i x xs
    set s' := (s.setProc (k + 1) ((s.proc (k + 1)).goto (.pipe fd x, fs))).setPipe k xs with hs'
    have hself : s'.proc (k + 1) = (s.proc (k + 1)).goto (.pipe fd x, fs) := Function.update_self ..
    have hother (i : ℕ) (hi : i ≠ k + 1) : s'.proc i = s.proc i := Function.update_of_ne hi ..
    obtain ⟨hinto, hbelow⟩ := into_read n s' hpipe rfl hother
    rcases hinput with ⟨hT, -⟩ | ⟨hm, hp, rfl⟩
    · rw [hinto] at hT
      cases hT
    refine h.update hk rfl (Or.inl rfl) ?_ hother (fun j hj hjk => hbelow j (by omega)) ?_ ?_ ?_
      fun hk' => absurd hm.symm hk'
    · intro i hi
      exact (Function.update_of_ne (by omega) ..).trans (h.pipes i hi)
    · rw [hself]
      exact ⟨hfs, pc_free rfl, _, hl, hk0, hm, hp, rfl, hkids⟩
    · rw [hself, hc, hinto]
      change 2 * (into n s' (k + 1)).length + 2 * fs.length + 10 + filterCost _ (fs.length + 1) < filterCost (x :: into n s' (k + 1)) fs.length
      rw [filterCost]
      omega
    · intro _
      have hnext : s.pipe (k + 1) = [] := h.pipes (k + 1) (by omega)
      rw [into_succ n s' (k + 1), hself, hc, hinto]
      change s.out ++ x :: sieve (Function.update s.pipe k xs (k + 1) ++ sift x (into n s' (k + 1))) = s.out ++ sieve (x :: into n s' (k + 1))
      rw [Function.update_of_ne (by omega), hnext, List.nil_append, sieve_cons]
  | eof got stop hi hpipe hw =>
    obtain rfl := (hread _ hi).symm
    exact hdone (h.drained hk hpipe hw)
  | readBad got stop hbad =>
    rcases hinput with ⟨hT, -⟩ | ⟨-, -, rfl⟩
    · exact hdone hT
    · rcases hbad with hbad | ⟨i, hbad⟩
      · cases hbad.symm.trans (hl.get List.mem_cons_self)
      · cases hl.eq List.mem_cons_self hbad

end Read

section Write

/-- A call of `write`. -/
theorem Invariant.sends {w x : ℕ} {bad : Ctl} (h : Invariant t n s) (hk : k + 1 < s.nprocs) (hc : (s.proc k).ctl = some (pc, fs))
    (he : Effect cap s k (.write w x (pc', fs) bad) s') (hl : Opened t l (s.proc k).tab) (hmem : (w, .writeEnd k) ∈ l)
    (hfut : ∀ T, pc.future n T = x :: pc'.future n T) (hcost : ∀ T, pc'.cost n T fs.length < pc.cost n T fs.length)
    (hok : ProcOk t k s.nprocs s.npipes (into n s k) ⟨some (pc', fs), (s.proc k).tab, (s.proc k).kids⟩) : Next t n s s' := by
  cases he with
  | write x next bad hw hr hcap =>
    obtain rfl := (FdEnd.writeEnd.inj (hl.eq hmem hw)).symm
    set s' := (s.setProc k ((s.proc k).goto (pc', fs))).setPipe k (s.pipe k ++ [x]) with hs'
    have hself : s'.proc k = (s.proc k).goto (pc', fs) := Function.update_self ..
    have hother (i : ℕ) (hi : i ≠ k) : s'.proc i = s.proc i := Function.update_of_ne hi ..
    have hinto (j : ℕ) : into n s' j = into n s j := by
      refine into_congr (m := j) (fun i _ hi => Function.update_of_ne hi ..) (fun i _ => hother i) ?_ (Nat.le_refl j)
      rw [hself, hc]
      change Function.update s.pipe k _ k ++ pc'.future n _ = s.pipe k ++ pc.future n _
      rw [Function.update_self, hfut, List.append_assoc, List.singleton_append]
    refine h.update (by omega) rfl (Or.inl rfl) ?_ hother (fun j _ _ => hinto j) ?_ ?_ (fun hk' => absurd hk' (by omega))
      fun _ => ⟨rfl, hinto _⟩
    · intro i hi
      exact (Function.update_of_ne (by omega) ..).trans (h.pipes i hi)
    · rw [hself, hinto]
      exact hok
    · rw [hself, hc, hinto]
      exact hcost _
  | sigpipe x next bad hw hr =>
    obtain rfl := (FdEnd.writeEnd.inj (hl.eq hmem hw)).symm
    refine absurd (h.hasReadEnd hk ?_) hr
    rw [into_succ, hc]
    change s.pipe k ++ pc.future n _ ≠ []
    rw [hfut]
    exact List.append_ne_nil_of_right_ne_nil _ (List.cons_ne_nil _ _)
  | writeBad x next bad hw =>
    rcases hw with hw | ⟨i, hw⟩
    · cases hw.symm.trans (hl.get hmem)
    · cases hl.eq hmem hw

theorem Invariant.loop0 {r w i : ℕ} (h : Invariant t n s) (hk : k < s.nprocs) (hc : (s.proc k).ctl = some (.loop0 r w i, fs))
    (he : Effect cap s k (call n (.loop0 r w i, fs)) s') : Next t n s s' := by
  rw [call] at he
  split_ifs at he with hi
  · obtain ⟨hfs, -, l, hl, hk0, hm, rfl, hkids⟩ := h.at hk hc
    refine h.sends hm hc he hl List.mem_cons_self (fun T => ?_) (fun T => ?_) ⟨hfs, pc_free rfl, _, hl, hk0, hm, rfl, hkids⟩
    · change List.range' i (n - i) = i :: List.range' (i + 1) (n - (i + 1))
      rw [← List.range'_succ, show n - i = n - (i + 1) + 1 by omega]
    · change n - (i + 1) + 2 * fs.length + 3 < n - i + 2 * fs.length + 3
      omega
  · exact h.loop0_end hk hi hc he

theorem Invariant.write {fd prime r w next : ℕ} (h : Invariant t n s) (hk : k < s.nprocs)
    (hc : (s.proc k).ctl = some (.write fd prime r w next, fs))
    (he : Effect cap s k (.write w next (.loop fd prime r w, fs) (.error r w, fs)) s') : Next t n s s' := by
  obtain ⟨hfs, -, l, hl, hk0, hm, rfl, hkids⟩ := h.at hk hc
  exact h.sends hm hc he hl List.mem_cons_self (fun T => rfl) (fun T => Nat.lt_succ_self _) ⟨hfs, pc_free rfl, _, hl, hk0, hm, rfl, hkids⟩

end Write

section Chain

/-- A call of `pipe`, in the last process. -/
theorem Invariant.pipes_step {r w : ℕ} (h : Invariant t n s) (hm : s.nprocs = k + 1) (hp : s.npipes = k)
    (hc : (s.proc k).ctl = some (pc, fs)) (hfut : pc'.future n (into n s k) = pc.future n (into n s k))
    (hrest : ∀ T', pc'.rest (into n s k) T' = pc.rest (into n s k) T')
    (hcost : pc'.cost n (into n s k) fs.length < pc.cost n (into n s k) fs.length)
    (hok : ProcOk t k (k + 1) (k + 1) (into n s k) ((s.addPipe k r w (pc', fs)).proc k)) : Next t n s (s.addPipe k r w (pc', fs)) := by
  set s' := s.addPipe k r w (pc', fs) with hs'
  have hctl : (s'.proc k).ctl = some (pc', fs) := by
    rw [hs', System.addPipe_self]
  have hother (i : ℕ) (hi : i ≠ k) : s'.proc i = s.proc i := Function.update_of_ne hi ..
  have hpipe : s'.pipe = s.pipe := by
    change Function.update s.pipe s.npipes [] = s.pipe
    rw [← h.pipes s.npipes (by omega), Function.update_eq_self]
  have hinto (j : ℕ) : into n s' j = into n s j := by
    refine into_congr (m := j) (fun i _ _ => by rw [hpipe]) (fun i _ => hother i) ?_ (Nat.le_refl j)
    rw [hctl, hc, hpipe]
    exact congrArg (s.pipe k ++ ·) hfut
  refine h.update (by omega) rfl (Or.inr hm.symm) ?_ hother (fun j _ _ => hinto j) ?_ ?_ ?_ fun hk' => absurd hm.symm hk'
  · intro i hi
    rw [hpipe]
    exact h.pipes i hi
  · rw [hinto]
    change ProcOk t k s.nprocs (s.npipes + 1) _ _
    rwa [hm, hp]
  · rw [hinto, hctl, hc]
    exact hcost
  · intro _
    rw [hinto, hinto, hctl, hc]
    exact congrArg (s.out ++ ·) (hrest _)

theorem Invariant.pipe0 (h : Invariant t n s) (hk : k < s.nprocs) (hc : (s.proc k).ctl = some (.pipe0, fs))
    (he : Effect cap s k (call n (.pipe0, fs)) s') : Next t n s s' := by
  obtain ⟨hfs, -, l, hl, hk0, hm, hp, rfl, hkids⟩ := h.at hk hc
  cases he with
  | pipe next hr hw hne =>
    refine h.pipes_step hm hp hc rfl (fun _ => rfl) ?_ ?_
    · exact Nat.add_lt_add_right (Nat.lt_succ_self _) _
    · rw [System.addPipe_self, hp]
      exact ⟨hfs, pc_free rfl, _, hl.pipe hr hw hne, hk0, rfl, rfl, rfl, hkids⟩

theorem Invariant.pipe {fd prime : ℕ} (h : Invariant t n s) (hk : k < s.nprocs) (hc : (s.proc k).ctl = some (.pipe fd prime, fs))
    (he : Effect cap s k (call n (.pipe fd prime, fs)) s') : Next t n s s' := by
  obtain ⟨hfs, -, l, hl, hk0, hm, hp, rfl, hkids⟩ := h.at hk hc
  cases he with
  | pipe next hr hw hne =>
    refine h.pipes_step hm hp hc rfl (fun _ => rfl) ?_ ?_
    · exact Nat.add_lt_add_right (Nat.lt_succ_self _) _
    · rw [System.addPipe_self, hp]
      exact ⟨hfs, pc_free rfl, _, hl.pipe hr hw hne, hk0, rfl, rfl, rfl, hkids⟩

theorem Invariant.print {fd prime r w : ℕ} (h : Invariant t n s) (hk : k < s.nprocs)
    (hc : (s.proc k).ctl = some (.print fd prime r w, fs)) (he : Effect cap s k (.print prime (.fork fd prime r w, fs)) s') :
    Next t n s s' := by
  obtain ⟨hfs, -, l, hl, hk0, hm, hp, rfl, hkids⟩ := h.at hk hc
  cases he
  set s' : PrimesSystem := { s.setProc k ((s.proc k).goto (.fork fd prime r w, fs)) with out := s.out ++ [prime] } with hs'
  have hself : s'.proc k = (s.proc k).goto (.fork fd prime r w, fs) := Function.update_self ..
  have hother (i : ℕ) (hi : i ≠ k) : s'.proc i = s.proc i := Function.update_of_ne hi ..
  have hinto (j : ℕ) : into n s' j = into n s j := by
    refine into_congr (m := j) (fun _ _ _ => rfl) (fun i _ => hother i) ?_ (Nat.le_refl j)
    rw [hself, hc]
    rfl
  refine h.update hk rfl (Or.inl rfl) h.pipes hother (fun j _ _ => hinto j) ?_ ?_ ?_ fun hk' => absurd hm.symm hk'
  · rw [hself]
    exact ⟨hfs, pc_free rfl, _, hl, hk0, hm, hp, rfl, hkids⟩
  · rw [hself, hinto, hc]
    exact Nat.add_lt_add_right (Nat.lt_succ_self _) _
  · intro _
    rw [hinto, hinto, hself, hc]
    exact List.append_assoc s.out [prime] _

/-- A call of `fork`, in the last process: what was still to reach the next process is now still to reach the child. -/
theorem Invariant.forks {cpc : Pc} (h : Invariant t n s) (hm : s.nprocs = k + 1) (hp : s.npipes = k + 1)
    (hc : (s.proc k).ctl = some (pc, fs)) (hkids : (s.proc k).kids = []) (hfut : pc'.future n (into n s k) = pc.future n (into n s k))
    (hrest : ∀ T T', pc.rest T T' = sieve T') (hchild : ∀ T T', cpc.rest T T' = sieve T)
    (hcost : pc'.cost n (into n s k) fs.length + cpc.cost n (into n s (k + 1)) fs.length < pc.cost n (into n s k) fs.length)
    (hparent : ProcOk t k (k + 2) (k + 1) (into n s k) ⟨some (pc', fs), (s.proc k).tab, [k + 1]⟩)
    (hnew : ProcOk t (k + 1) (k + 2) (k + 1) (into n s (k + 1)) ⟨some (cpc, fs), (s.proc k).tab, []⟩) :
    Next t n s (s.addProc k (cpc, fs) (pc', fs)) := by
  set s' := s.addProc k (cpc, fs) (pc', fs) with hs'
  have hself : s'.proc k = ⟨some (pc', fs), (s.proc k).tab, [k + 1]⟩ := by
    rw [hs', System.addProc_parent (by omega), hkids, hm]
    rfl
  have hlast : s'.proc (k + 1) = ⟨some (cpc, fs), (s.proc k).tab, []⟩ := by
    rw [hs', ← hm, System.addProc_child]
  have hother (i : ℕ) (hi : i < k + 1) (hik : i ≠ k) : s'.proc i = s.proc i := System.addProc_other (by omega) hik ..
  have hinto (j : ℕ) (hj : j ≤ k + 1) : into n s' j = into n s j := by
    refine into_congr (fun _ _ _ => rfl) hother ?_ hj
    rw [hself, hc]
    exact congrArg (s.pipe k ++ ·) hfut
  have hnprocs : s'.nprocs = k + 2 := congrArg (· + 1) hm
  have hnpipes : s'.npipes = k + 1 := hp
  refine ⟨⟨by omega, ?_, fun i hi => h.pipes i (by omega), ?_⟩, ?_⟩
  · intro j hj
    rw [hnprocs] at hj
    rw [hnprocs, hnpipes, hinto j (by omega)]
    rcases Nat.lt_trichotomy j k with hjk | rfl | hjk
    · rw [hother j (by omega) (by omega)]
      have hold := h.procs j (by omega)
      rw [hm] at hold
      exact hold.later (by omega) (by omega)
    · rw [hself]
      exact hparent
    · obtain rfl : j = k + 1 := by omega
      rw [hlast]
      exact hnew
  · have hdata := h.data
    rw [hm, Nat.add_sub_cancel, hc] at hdata
    rw [hnprocs, show k + 2 - 1 = k + 1 by omega, hlast, hinto _ (Nat.le_refl _), ← hdata]
    change s.out ++ cpc.rest _ _ = s.out ++ pc.rest _ _
    rw [hchild, hrest]
  · have hbelow : ∑ j ∈ Finset.range k, cost n (into n s' j) (s'.proc j).ctl = ∑ j ∈ Finset.range k, cost n (into n s j) (s.proc j).ctl := by
      refine Finset.sum_congr rfl fun j hj => ?_
      have hjk := Finset.mem_range.mp hj
      rw [hother j (by omega) (by omega), hinto j (by omega)]
    unfold total
    rw [hnprocs, hm, Finset.sum_range_succ, Finset.sum_range_succ, Finset.sum_range_succ, hbelow, hself, hlast, hinto k (by omega),
      hinto (k + 1) (Nat.le_refl _), hc, Nat.add_assoc]
    exact Nat.add_lt_add_left hcost _

theorem FramesOk.child (hfs : FramesOk t k fs) : FramesOk t (k + 1) fs := ⟨fun hk => absurd hk (Nat.succ_ne_zero k), hfs.2⟩

theorem Invariant.fork0 {r w : ℕ} (h : Invariant t n s) (hk : k < s.nprocs) (hc : (s.proc k).ctl = some (.fork0 r w, fs))
    (he : Effect cap s k (.fork (.child0 r w, fs) (.close0 r w, fs)) s') : Next t n s s' := by
  obtain ⟨hfs, -, l, hl, hk0, hm, hp, rfl, hkids⟩ := h.at hk hc
  cases he
  have hinto : into n s (k + 1) = List.range' 2 (n - 2) := by
    rw [into_succ, h.pipes k (by omega), hc]
    rfl
  refine h.forks hm hp hc hkids rfl (fun _ _ => rfl) (fun _ _ => rfl) ?_ ?_ ?_
  · rw [hinto]
    change n - 2 + 2 * fs.length + 4 + (filterCost _ (fs.length + 1) + 1) < n - 2 + 2 * fs.length + 6 + filterCost _ (fs.length + 1)
    omega
  · exact ⟨hfs, pc_free rfl, _, hl, hk0, Nat.lt_succ_self _, rfl, rfl⟩
  · exact ⟨hfs.child, pc_free rfl, _, hl, congrArg (· + 1) hk0, rfl, rfl, rfl, rfl⟩

theorem Invariant.fork {fd prime r w : ℕ} (h : Invariant t n s) (hk : k < s.nprocs)
    (hc : (s.proc k).ctl = some (.fork fd prime r w, fs))
    (he : Effect cap s k (.fork (.child fd r w, fs) (.loop fd prime r w, fs)) s') : Next t n s s' := by
  obtain ⟨hfs, -, l, hl, hk0, hm, hp, rfl, hkids⟩ := h.at hk hc
  cases he
  have hinto : into n s (k + 1) = sift prime (into n s k) := by
    rw [into_succ, h.pipes k (by omega), hc]
    rfl
  refine h.forks hm hp hc hkids rfl (fun _ _ => rfl) (fun _ _ => rfl) ?_ ?_ ?_
  · rw [hinto]
    change 2 * (into n s k).length + 2 * fs.length + 5 + (filterCost _ (fs.length + 1) + 2) <
      2 * (into n s k).length + 2 * fs.length + 8 + filterCost _ (fs.length + 1)
    omega
  · exact ⟨hfs, pc_free rfl, _, hl, hk0, Nat.lt_succ_self _, rfl, rfl⟩
  · exact ⟨hfs.child, pc_free rfl, _, hl, Nat.succ_lt_succ hk0, rfl, rfl, rfl, rfl⟩

end Chain

section End

theorem Invariant.wait (h : Invariant t n s) (hk : k < s.nprocs) (hc : (s.proc k).ctl = some (.wait, fs))
    (he : Effect cap s k (.wait (ret fs)) s') : Next t n s s' := by
  obtain ⟨hfs, -, l, hl, hm, hT, hdrained, hkids⟩ := h.at hk hc
  cases he with
  | wait next hj hgone =>
    refine h.moves hk ?_ (fun T' => ?_) ?_ ?_
    · rw [hc]
      exact future_ret n _ fs
    · rw [hc]
      exact rest_ret _ T' fs
    · rw [hT, hc]
      exact (cost_ret n fs).trans_lt (Nat.lt_succ_self _)
    · rw [hT]
      rw [hkids, List.mem_singleton] at hj
      rw [hj, hkids, List.erase_cons_head]
      exact hfs.ret (by omega) hl hdrained
  | waitNone next hnone =>
    rw [hkids] at hnone
    cases hnone

theorem Invariant.exit (h : Invariant t n s) (hk : k < s.nprocs) (hc : (s.proc k).ctl = some (.exit, fs))
    (he : Effect cap s k .exit s') : Next t n s s' := by
  obtain ⟨-, -, l, -, hm, hT, -, -⟩ := h.at hk hc
  cases he
  refine h.moves hk ?_ (fun T' => ?_) ?_ ⟨hm, hT, rfl⟩
  · rw [hc]
    rfl
  · rw [hc]
    rfl
  · rw [hc]
    exact Nat.succ_pos _

end End

section Runs

theorem Invariant.step (h : Invariant t n s) (hs : Step n cap s k s') : Next t n s s' := by
  obtain ⟨hk, hc, he⟩ := hs
  rename_i c
  obtain ⟨pc, fs⟩ := c
  cases pc with
  | pipe0 => exact h.pipe0 hk hc he
  | fork0 r w => exact h.fork0 hk hc he
  | child0 r w => exact h.child0 hk hc he
  | close0 r w => exact h.close0 hk hc he
  | loop0 r w i => exact h.loop0 hk hc he
  | read fd => exact h.read hk hc he
  | done fd => exact h.done hk hc he
  | pipe fd prime => exact h.pipe hk hc he
  | print fd prime r w => exact h.print hk hc he
  | fork fd prime r w => exact h.fork hk hc he
  | child fd r w => exact h.child hk hc he
  | childRead fd r => exact h.childRead hk hc he
  | loop fd prime r w => exact h.loop hk hc he
  | write fd prime r w next => exact h.write hk hc he
  | close r w => exact h.close hk hc he
  | closeWrite w => exact h.closeWrite hk hc he
  | wait => exact h.wait hk hc he
  | error r w =>
    obtain ⟨-, -, l, -, hat⟩ := h.at hk hc
    cases hat
  | exit => exact h.exit hk hc he

theorem Start.invariant (h : Start t s) : Invariant t n s where
  pos := by
    have := h.nprocs
    omega
  procs := by
    intro k hk
    rw [h.nprocs] at hk
    obtain rfl : k = 0 := by omega
    rw [h.proc, h.nprocs, h.npipes]
    have hfs : FramesOk t 0 [] := ⟨fun _ => rfl, fun fd hfd => absurd hfd (by simp)⟩
    exact ⟨hfs, pc_free rfl, [], ⟨rfl, List.nodup_nil, fun x hx => absurd hx List.not_mem_nil⟩, rfl, rfl, rfl, rfl, rfl⟩
  pipes := fun i _ => h.pipe i
  data := by
    rw [h.nprocs, h.out, into_succ, h.pipe, h.proc]
    rfl

end Runs

end Primes
end Sisop
