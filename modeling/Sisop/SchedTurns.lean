import Sisop.SchedChoice

/-! How long an environment waits for its turn, when one CPU goes on choosing. -/
namespace Sisop

/-- A CPU comes to `sched_yield` in the states `k 0`, `k 1` and so on. What happens in between is
open, but for two things: `e` waits until it is chosen, and any other environment that has been
chosen is still the current one of the CPU. -/
structure Queues (c : ℕ) (e : EnvIdx) (k : ℕ → Kern) : Prop where
  waits : ∀ i, (∀ j < i, (k j).decision c ≠ .run e) → (k i).status e = .runnable
  back : ∀ i f, (k i).decision c = .run f → f ≠ e → (k (i + 1)).searchStart c % nenv = (f.val + 1) % nenv

section Turns

variable {k : Kern} {ks : ℕ → Kern} {c s d q : ℕ} {e : EnvIdx}

theorem envAt_inj {p p' : ℕ} (hp : p < nenv) (hp' : p' < nenv) (h : envAt (s + p) = envAt (s + p')) : p = p' := by
  have hval : (s + p) % 1024 = (s + p') % 1024 := congrArg Fin.val h
  change p < 1024 at hp
  change p' < 1024 at hp'
  omega

/-- One choice: nothing behind `e` comes before it. -/
theorem choice_upto (hs : k.searchStart c % nenv = (s + q) % nenv) (hq : q ≤ d) (hd : d < nenv - 1)
    (hrun : k.status (envAt (s + d)) = .runnable) :
    ∃ p, q ≤ p ∧ p ≤ d ∧ k.decision c = .run (envAt (s + p)) := by
  have hat (i : ℕ) : envAt (k.searchStart c + i) = envAt (s + (q + i)) := by
    apply Fin.ext
    change (k.searchStart c + i) % nenv = (s + (q + i)) % nenv
    rw [Nat.add_mod, hs, ← Nat.add_mod, Nat.add_assoc]
  cases hnext : k.nextRunnable (k.searchStart c) with
  | none =>
    have hnone := nextRunnable_none hnext (d - q) (Nat.lt_of_le_of_lt (Nat.sub_le d q) hd)
    rw [hat (d - q), Nat.add_sub_cancel' hq] at hnone
    exact absurd hrun hnone
  | some f =>
    obtain ⟨i, hi, rfl, hf, hbefore⟩ := nextRunnable_some hnext
    refine ⟨q + i, Nat.le_add_right q i, ?_, ?_⟩
    · by_contra hlt
      have hbehind := hat (d - q)
      rw [Nat.add_sub_cancel' hq] at hbehind
      exact hbefore (d - q) (by omega) (hbehind ▸ hrun)
    · have hdec : k.decision c = .run (envAt (k.searchStart c + i)) := by
        unfold Kern.decision
        rw [hnext]
      exact hdec.trans (congrArg Decision.run (hat i))

/-- From a search that starts `q` slots behind `s` on. Induction on the way that is left to `e`. -/
theorem Queues.turn (h : Queues c e ks) (he : e = envAt (s + d)) (hd : d < nenv - 1) (r : ℕ) (hr : d - q = r)
    (hq : q ≤ d) (hs : (ks 0).searchStart c % nenv = (s + q) % nenv) :
    ∃ n ≤ r, (ks n).decision c = .run e ∧
      ∀ i < n, ∃ p, q ≤ p ∧ p < d ∧ (ks i).decision c = .run (envAt (s + p)) ∧
        ∀ j, i < j → j ≤ n → (ks j).decision c ≠ (ks i).decision c := by
  induction r using Nat.strongRecOn generalizing ks q with
  | ind r ih =>
    have hwait := h.waits 0 fun _ hj => absurd hj (Nat.not_lt_zero _)
    rw [he] at hwait
    obtain ⟨p, hqp, hpd, hdec⟩ := choice_upto hs hq hd hwait
    rcases Nat.lt_or_eq_of_le hpd with hlt | rfl
    swap
    · exact ⟨0, Nat.zero_le _, by rw [he]; exact hdec, fun _ hi => absurd hi (Nat.not_lt_zero _)⟩
    have hne : envAt (s + p) ≠ e := by
      rw [he]
      exact fun heq => hlt.ne (envAt_inj (by omega) (by omega) heq)
    -- what comes after the first choice
    have htail : Queues c e fun i => ks (i + 1) := by
      refine ⟨fun i hi => h.waits (i + 1) fun j hj => ?_, fun i f => h.back (i + 1) f⟩
      cases j with
      | zero => exact fun heq => hne (Decision.run.inj (hdec.symm.trans heq))
      | succ j => exact hi j (Nat.lt_of_succ_lt_succ hj)
    have hstart : (ks 1).searchStart c % nenv = (s + (p + 1)) % nenv := by
      have hback := h.back 0 _ hdec hne
      change _ = ((s + p) % nenv + 1) % nenv at hback
      rwa [Nat.mod_add_mod, Nat.add_assoc] at hback
    obtain ⟨n, hn, hlast, hother⟩ := ih (d - (p + 1)) (by omega) htail rfl hlt hstart
    refine ⟨n + 1, by omega, hlast, fun i hi => ?_⟩
    cases i with
    | succ i =>
      obtain ⟨p', hp', hpd', hdec', hdiff⟩ := hother i (Nat.lt_of_succ_lt_succ hi)
      refine ⟨p', by omega, hpd', hdec', fun j hj hjn => ?_⟩
      cases j with
      | zero => exact absurd hj (Nat.not_lt_zero _)
      | succ j => exact hdiff j (Nat.lt_of_succ_lt_succ hj) (Nat.le_of_succ_le_succ hjn)
    | zero =>
      refine ⟨p, hqp, hlt, hdec, fun j hj hjn => ?_⟩
      rw [hdec]
      cases j with
      | zero => exact absurd hj (Nat.lt_irrefl 0)
      | succ j =>
        intro heq
        rcases Nat.lt_or_eq_of_le (Nat.le_of_succ_le_succ hjn) with hjn | rfl
        · obtain ⟨p', hp', hpd', hdec', -⟩ := hother j hjn
          have hpp := envAt_inj (by omega) (by omega) (Decision.run.inj (hdec'.symm.trans heq))
          omega
        · exact hne (Decision.run.inj (hlast.symm.trans heq)).symm

/-- An environment that waits, and is not in the one slot that the first call does not look at, is chosen in
one of the next `NENV - 1` calls, and before that no other environment is chosen twice. -/
theorem sched_bounded_wait (h : Queues c e ks) (hskip : (ks 0).skipped c ≠ e) :
    ∃ n < nenv - 1, schedYield c (ks n) = envRun c e (ks n) ∧
      ∀ i < n, ∃ f, f ≠ e ∧ schedYield c (ks i) = envRun c f (ks i) ∧
        ∀ j, i < j → j ≤ n → (ks j).decision c ≠ .run f := by
  obtain ⟨d, hd, he⟩ := exists_envAt ((ks 0).searchStart c) e
  have hlast : d ≠ nenv - 1 := by
    rintro rfl
    exact hskip he.symm
  have hd' : d < nenv - 1 := by omega
  obtain ⟨n, hn, hdec, hother⟩ := h.turn he hd' d (Nat.sub_zero d) (Nat.zero_le d) rfl
  refine ⟨n, by omega, ?_, fun i hi => ?_⟩
  · rw [schedYield_decision, hdec]
    rfl
  · obtain ⟨p, -, hpd, hdeci, hdiff⟩ := hother i hi
    refine ⟨envAt ((ks 0).searchStart c + p), fun heq => ?_, ?_, fun j hj hjn => ?_⟩
    · rw [he] at heq
      exact hpd.ne (envAt_inj (by omega) hd heq)
    · rw [schedYield_decision, hdeci]
      rfl
    · rw [← hdeci]
      exact hdiff j hj hjn

end Turns

/-- The environments 0 and 1 have something to do, and 0 may have the CPU. -/
def twoEnvs (cur : Option EnvIdx) : Kern :=
  { lastRunnable with
    envs := fun e => { lastRunnable.envs e with
      envStatus := if cur = some e then .running else if e.val < 2 then .runnable else .free }
    cpus := fun _ => ⟨.started, cur, false⟩ }

/-- The CPU takes environment 0, and comes back with it each time. -/
def twoTurns (n : ℕ) : Kern := twoEnvs (if n = 0 then none else some (envAt 0))

theorem sched_bounded_wait_two : ∃ n < nenv - 1, schedYield 0 (twoTurns n) = envRun 0 1 (twoTurns n) ∧
    ∀ i < n, ∃ f, f ≠ 1 ∧ schedYield 0 (twoTurns i) = envRun 0 f (twoTurns i) ∧
      ∀ j, i < j → j ≤ n → (twoTurns j).decision 0 ≠ .run f := by
  have hfacts : (twoEnvs none).decision 0 = .run 0 ∧ (twoEnvs (some (envAt 0))).decision 0 = .run 1 ∧
      (twoEnvs none).status 1 = .runnable ∧ (twoEnvs (some (envAt 0))).status 1 = .runnable ∧
      (twoEnvs (some (envAt 0))).searchStart 0 = 1 ∧ (twoEnvs none).skipped 0 ≠ 1 := by decide +kernel
  obtain ⟨hfirst, hsecond, hnone, hsome, hstart, hskip⟩ := hfacts
  apply @sched_bounded_wait twoTurns 0 1 ?_ hskip
  constructor
  case waits =>
    intro i _
    cases i with
    | zero => exact hnone
    | succ i => exact hsome
  case back =>
    intro i f hdec hne
    cases i with
    | zero =>
      obtain rfl := Decision.run.inj (hfirst.symm.trans hdec)
      exact congrArg (· % nenv) hstart
    | succ i => exact absurd (Decision.run.inj (hsecond.symm.trans hdec)).symm hne

end Sisop
