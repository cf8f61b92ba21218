import Sisop.CStrings
import Sisop.Ring
import Sisop.Trace

/-! The input buffer of the console. The device interrupts fill it, and `cons_getc` takes the characters out of it, after it
has polled the devices. -/
namespace Sisop

/-- `CONSBUFSIZE`. -/
abbrev consbufsize : ℕ := 512

/-- The `cons` struct. -/
structure Cons where
  buf : List (BitVec 8)
  rpos : ℕ
  wpos : ℕ

/-- `cons`, as a static variable is at first. -/
def consStart : Cons := ⟨List.replicate consbufsize 0#8, 0, 0⟩

/-- `cons_intr`, for what `proc` returns up to the `-1`. -/
def consIntr : List (BitVec 8) → Cons → Option Cons
  | [], s => some s
  | c :: proc, s =>
    if c = 0#8 then consIntr proc s
    else do
      let buf ← storeAt s.buf s.wpos c
      consIntr proc ⟨buf, s.rpos, if s.wpos + 1 = consbufsize then 0 else s.wpos + 1⟩

/-- `serial_intr`. -/
def serialIntr (serialExists : Bool) (proc : List (BitVec 8)) (s : Cons) : Option Cons :=
  if serialExists then consIntr proc s else some s

/-- `cons_getc`: the polls get what `serial_proc_data` and `kbd_proc_data` return. -/
def consGetc (serialExists : Bool) (serial kbd : List (BitVec 8)) (s : Cons) : Option (BitVec 8 × Cons) := do
  let s ← serialIntr serialExists serial s
  let s ← consIntr kbd s
  if s.rpos ≠ s.wpos then
    let c ← s.buf[s.rpos]?
    some (c, { s with rpos := if s.rpos + 1 = consbufsize then 0 else s.rpos + 1 })
  else some (0#8, s)

/-- The calls of the three functions, with what the devices have for them. -/
inductive ConsCall where
  | serialIntr (serial : List (BitVec 8))
  | kbdIntr (kbd : List (BitVec 8))
  | consGetc (serial kbd : List (BitVec 8))

/-- What `cons_intr` gets from the devices in a call. -/
def ConsCall.results (serialExists : Bool) : ConsCall → List (BitVec 8)
  | .serialIntr serial => if serialExists then serial else []
  | .kbdIntr kbd => kbd
  | .consGetc serial kbd => (if serialExists then serial else []) ++ kbd

/-- A call, with the character that it returns. -/
def consCall (serialExists : Bool) : ConsCall → Cons → Option (Option (BitVec 8) × Cons)
  | .serialIntr serial, s => (serialIntr serialExists serial s).map fun s => (none, s)
  | .kbdIntr kbd, s => (consIntr kbd s).map fun s => (none, s)
  | .consGetc serial kbd, s => (consGetc serialExists serial kbd s).map fun r => (some r.1, r.2)

/-- A call and what it returned. -/
abbrev ConsEvent : Type := ConsCall × Option (BitVec 8)

/-- A step of the console: a call that stays inside of the buffer. -/
def ConsStep (serialExists : Bool) (s : Cons) (e : ConsEvent) (s' : Cons) : Prop :=
  consCall serialExists e.1 s = some (e.2, s')

/-- The characters that the devices have delivered. -/
def charsDelivered (serialExists : Bool) (es : List ConsEvent) : List (BitVec 8) :=
  es.flatMap fun e => (e.1.results serialExists).filter (· ≠ 0#8)

/-- The characters that `cons_getc` has returned. -/
def charsReturned (es : List ConsEvent) : List (BitVec 8) := (es.filterMap Prod.snd).filter (· ≠ 0#8)

/-- Once a call has its characters, fewer than `CONSBUFSIZE` of those delivered have not been returned. -/
def FewPending (serialExists : Bool) (es : List ConsEvent) : Prop :=
  ∀ es' e, es' ++ [e] <+: es →
    (charsDelivered serialExists (es' ++ [e])).length < (charsReturned es').length + consbufsize

variable {serialExists : Bool} {s s' : Cons} {q : List (BitVec 8)} {es : List ConsEvent} {e : ConsEvent}

theorem charsDelivered_snoc : charsDelivered serialExists (es ++ [e]) =
    charsDelivered serialExists es ++ (e.1.results serialExists).filter (· ≠ 0#8) := by
  unfold charsDelivered
  rw [List.flatMap_append, List.flatMap_singleton]

theorem charsReturned_snoc : charsReturned (es ++ [e]) = charsReturned es ++ e.2.toList.filter (· ≠ 0#8) := by
  have hsnd : [e].filterMap Prod.snd = e.2.toList := by
    cases h : e.2 with
    | none => exact List.filterMap_cons_none h
    | some c => exact List.filterMap_cons_some h
  unfold charsReturned
  rw [List.filterMap_append, hsnd, List.filter_append]

theorem FewPending.of_snoc (h : FewPending serialExists (es ++ [e])) : FewPending serialExists es :=
  fun es' e' hpre => h es' e' (hpre.trans (List.prefix_append es [e]))

/-- The characters in the buffer, in the order in which they are read. -/
structure ConsHolds (s : Cons) (q : List (BitVec 8)) : Prop where
  length : s.buf.length = consbufsize
  rpos : s.rpos < consbufsize
  few : q.length < consbufsize
  wpos : s.wpos = (s.rpos + q.length) % consbufsize
  cells : RingHolds (fun i => s.buf[i]?) consbufsize s.rpos q

theorem ConsHolds.wpos_lt (h : ConsHolds s q) : s.wpos < consbufsize := by
  rw [h.wpos]
  exact Nat.mod_lt _ (Nat.succ_pos _)

theorem consStart_holds : ConsHolds consStart [] := by
  constructor
  · exact List.length_replicate
  · exact Nat.succ_pos _
  · exact Nat.succ_pos _
  · rfl
  · exact RingHolds.nil

/-- A poll appends the characters that are not zero. -/
theorem ConsHolds.intr (h : ConsHolds s q) (proc : List (BitVec 8))
    (hfew : (q ++ proc.filter (· ≠ 0#8)).length < consbufsize) :
    ∃ s', consIntr proc s = some s' ∧ ConsHolds s' (q ++ proc.filter (· ≠ 0#8)) := by
  induction proc generalizing s q with
  | nil => exact ⟨s, rfl, by rwa [List.filter_nil, List.append_nil]⟩
  | cons c proc ih =>
    by_cases hc : c = 0#8
    · have hskip : consIntr (c :: proc) s = consIntr proc s := if_pos hc
      have hfilter : (c :: proc).filter (· ≠ 0#8) = proc.filter (· ≠ 0#8) :=
        List.filter_cons_of_neg (by simpa using hc)
      rw [hfilter] at hfew ⊢
      rw [hskip]
      exact ih h hfew
    · have hfilter : (c :: proc).filter (· ≠ 0#8) = [c] ++ proc.filter (· ≠ 0#8) :=
        List.filter_cons_of_pos (by simpa using hc)
      rw [hfilter, ← List.append_assoc] at hfew ⊢
      have hlt : s.wpos < s.buf.length := h.wpos_lt.trans_eq h.length.symm
      have hstore : consIntr (c :: proc) s =
          consIntr proc ⟨s.buf.set s.wpos c, s.rpos, if s.wpos + 1 = consbufsize then 0 else s.wpos + 1⟩ := by
        have hbind := congrArg (fun b => Option.bind b fun buf =>
          consIntr proc ⟨buf, s.rpos, if s.wpos + 1 = consbufsize then 0 else s.wpos + 1⟩) (storeAt_some hlt c)
        exact (if_neg hc).trans hbind
      have hq : (q ++ [c]).length < consbufsize := by
        rw [List.length_append] at hfew
        omega
      rw [hstore]
      refine ih ⟨?_, h.rpos, hq, ?_, ?_⟩ hfew
      · exact List.length_set.trans h.length
      · calc (if s.wpos + 1 = consbufsize then 0 else s.wpos + 1) = (s.wpos + 1) % consbufsize := ring_next h.wpos_lt
          _ = (s.rpos + (q ++ [c]).length) % consbufsize := by
            rw [h.wpos, Nat.mod_add_mod, List.length_append, List.length_singleton, Nat.add_assoc]
      · refine h.cells.push h.few ?_ ?_
        · rw [← h.wpos]
          exact List.getElem?_set_self hlt
        · intro j hj
          rw [← h.wpos] at hj
          exact List.getElem?_set_ne hj.symm

theorem ConsHolds.serial (h : ConsHolds s q) (proc : List (BitVec 8))
    (hfew : (q ++ (if serialExists then proc else []).filter (· ≠ 0#8)).length < consbufsize) :
    ∃ s', serialIntr serialExists proc s = some s' ∧
      ConsHolds s' (q ++ (if serialExists then proc else []).filter (· ≠ 0#8)) := by
  cases serialExists with
  | true => exact h.intr proc hfew
  | false => exact ⟨s, rfl, by rwa [if_neg Bool.false_ne_true, List.filter_nil, List.append_nil]⟩

/-- The two positions are the same exactly when the buffer is empty. -/
theorem ConsHolds.empty_iff (h : ConsHolds s q) : s.rpos = s.wpos ↔ q = [] := by
  rw [← List.length_eq_zero_iff, h.wpos]
  constructor
  · intro heq
    by_contra hne
    have hcell : (s.rpos + q.length) % consbufsize ≠ s.rpos % consbufsize :=
      ring_cell_ne (by omega) (Nat.add_lt_add_left h.few _)
    rw [Nat.mod_eq_of_lt h.rpos] at hcell
    exact hcell heq.symm
  · intro hzero
    rw [hzero, Nat.add_zero, Nat.mod_eq_of_lt h.rpos]

/-- What `cons_getc` does after the polls takes the first character. -/
theorem ConsHolds.take (h : ConsHolds s q) : ∃ s',
    (if s.rpos ≠ s.wpos then
      s.buf[s.rpos]?.bind fun c => some (c, { s with rpos := if s.rpos + 1 = consbufsize then 0 else s.rpos + 1 })
    else some (0#8, s)) = some (q.headD 0#8, s') ∧ ConsHolds s' q.tail := by
  cases q with
  | nil =>
    have heq : s.rpos = s.wpos := h.empty_iff.mpr rfl
    exact ⟨s, if_neg (fun hne => hne heq), h⟩
  | cons c q =>
    have hne : s.rpos ≠ s.wpos := fun heq => List.cons_ne_nil c q (h.empty_iff.mp heq)
    obtain ⟨hfirst, hrest⟩ := h.cells.pop
    rw [Nat.mod_eq_of_lt h.rpos] at hfirst
    rw [if_pos hne, hfirst, Option.bind_some]
    refine ⟨_, rfl, h.length, ?_, ?_, ?_, ?_⟩
    · rw [ring_next h.rpos]
      exact Nat.mod_lt _ (Nat.succ_pos _)
    · exact (Nat.lt_succ_self _).trans h.few
    · rw [ring_next h.rpos, Nat.mod_add_mod, h.wpos, List.length_cons, List.tail_cons, Nat.add_comm q.length 1, Nat.add_assoc]
    · rw [ring_next h.rpos]
      exact hrest

/-- What a call does to the list of the characters that are pending. -/
def ConsCall.onQueue (serialExists : Bool) (call : ConsCall) (q : List (BitVec 8)) : Option (BitVec 8) × List (BitVec 8) :=
  let q := q ++ (call.results serialExists).filter (· ≠ 0#8)
  match call with
  | .consGetc _ _ => (some (q.headD 0#8), q.tail)
  | _ => (none, q)

variable (serialExists) in
/-- The buffer does for a call what the list does. -/
theorem ConsHolds.call (h : ConsHolds s q) (call : ConsCall)
    (hfew : (q ++ (call.results serialExists).filter (· ≠ 0#8)).length < consbufsize) :
    ∃ s', consCall serialExists call s = some ((call.onQueue serialExists q).1, s') ∧
      ConsHolds s' (call.onQueue serialExists q).2 := by
  cases call with
  | serialIntr serial =>
    obtain ⟨s', hs, hholds⟩ := h.serial serial hfew
    exact ⟨s', congrArg (Option.map _) hs, hholds⟩
  | kbdIntr kbd =>
    obtain ⟨s', hs, hholds⟩ := h.intr kbd hfew
    exact ⟨s', congrArg (Option.map _) hs, hholds⟩
  | consGetc serial kbd =>
    have happend : q ++ (ConsCall.results serialExists (.consGetc serial kbd)).filter (· ≠ 0#8) =
        q ++ (if serialExists then serial else []).filter (· ≠ 0#8) ++ kbd.filter (· ≠ 0#8) := by
      rw [List.append_assoc, ← List.filter_append]
      rfl
    rw [happend] at hfew
    have hserial : (q ++ (if serialExists then serial else []).filter (· ≠ 0#8)).length < consbufsize := by
      rw [List.length_append] at hfew
      omega
    obtain ⟨s₁, hs₁, h₁⟩ := h.serial serial hserial
    obtain ⟨s₂, hs₂, h₂⟩ := h₁.intr kbd hfew
    obtain ⟨s', htake, hholds⟩ := h₂.take
    have hgetc : consGetc serialExists serial kbd s = some (List.headD
        (q ++ (if serialExists then serial else []).filter (· ≠ 0#8) ++ kbd.filter (· ≠ 0#8)) 0#8, s') := by
      unfold consGetc
      rw [hs₁, Option.bind_eq_bind, Option.bind_some, hs₂, Option.bind_eq_bind, Option.bind_some]
      exact htake
    unfold ConsCall.onQueue
    rw [happend]
    exact ⟨s', congrArg (Option.map _) hgetc, hholds⟩

/-- What has been returned and what is in the buffer make up what has been delivered. -/
structure ConsAccount (serialExists : Bool) (es : List ConsEvent) (s : Cons) (q : List (BitVec 8)) : Prop where
  holds : ConsHolds s q
  account : charsReturned es ++ q = charsDelivered serialExists es

namespace ConsAccount

variable {call : ConsCall}

/-- A call appends to the list no more than it can hold. -/
theorem few (h : ConsAccount serialExists es s q) (result : Option (BitVec 8))
    (hfew : (charsDelivered serialExists (es ++ [(call, result)])).length < (charsReturned es).length + consbufsize) :
    (q ++ (call.results serialExists).filter (· ≠ 0#8)).length < consbufsize := by
  rw [charsDelivered_snoc, ← h.account, List.append_assoc, List.length_append] at hfew
  exact Nat.lt_of_add_lt_add_left hfew

/-- No character of the list is zero, also with those that a call appends. -/
theorem ne_zero (h : ConsAccount serialExists es s q) {c : BitVec 8}
    (hc : c ∈ q ++ (call.results serialExists).filter (· ≠ 0#8)) : c ≠ 0#8 := by
  have hmem : c ∈ charsDelivered serialExists (es ++ [(call, none)]) := by
    rw [charsDelivered_snoc, ← h.account, List.append_assoc]
    exact List.mem_append_right _ hc
  obtain ⟨e, -, hce⟩ := List.mem_flatMap.mp hmem
  exact of_decide_eq_true (List.mem_filter.mp hce).2

/-- The account is right after a call as well. -/
theorem onQueue (h : ConsAccount serialExists es s q) :
    charsReturned (es ++ [(call, (call.onQueue serialExists q).1)]) ++ (call.onQueue serialExists q).2 =
      charsDelivered serialExists (es ++ [(call, (call.onQueue serialExists q).1)]) := by
  rw [charsReturned_snoc, charsDelivered_snoc, ← h.account, List.append_assoc, List.append_assoc]
  congr 1
  have hne : ∀ c ∈ q ++ (call.results serialExists).filter (· ≠ 0#8), c ≠ 0#8 := fun c hc => h.ne_zero hc
  cases call with
  | serialIntr serial => rfl
  | kbdIntr kbd => rfl
  | consGetc serial kbd =>
    change List.filter (· ≠ 0#8) [List.headD _ _] ++ List.tail _ = _
    generalize q ++ List.filter (· ≠ 0#8) (ConsCall.results serialExists (.consGetc serial kbd)) = l at hne ⊢
    cases l with
    | nil => rfl
    | cons c l =>
      have hc : [c].filter (· ≠ 0#8) = [c] := List.filter_cons_of_pos (decide_eq_true (hne c List.mem_cons_self))
      rw [List.headD_cons, List.tail_cons, hc, List.singleton_append]

theorem step (h : ConsAccount serialExists es s q) (hs : ConsStep serialExists s e s') (hfew : FewPending serialExists (es ++ [e])) :
    e.2 = (e.1.onQueue serialExists q).1 ∧ ConsAccount serialExists (es ++ [e]) s' (e.1.onQueue serialExists q).2 := by
  obtain ⟨call, result⟩ := e
  obtain ⟨t, ht, hholds⟩ := h.holds.call serialExists call (h.few result (hfew es _ (List.prefix_refl _)))
  obtain ⟨rfl, rfl⟩ := Prod.mk.inj (Option.some.inj (hs.symm.trans ht))
  exact ⟨rfl, hholds, h.onQueue⟩

end ConsAccount

/-- What holds along a run in which few characters are pending. -/
structure ConsTraced (serialExists : Bool) (es : List ConsEvent) (s : Cons) (q : List (BitVec 8)) : Prop
    extends ConsAccount serialExists es s q where
  getc : ∀ es' serial kbd c, es' ++ [(.consGetc serial kbd, some c)] <+: es →
    (c = 0#8 ↔ charsReturned es' = charsDelivered serialExists (es' ++ [(.consGetc serial kbd, some c)]))

theorem ConsAccount.getc (h : ConsAccount serialExists es s q) (serial kbd : List (BitVec 8)) {c : BitVec 8}
    (hc : some c = (ConsCall.onQueue serialExists (.consGetc serial kbd) q).1) :
    c = 0#8 ↔ charsReturned es = charsDelivered serialExists (es ++ [(.consGetc serial kbd, some c)]) := by
  have hne : ∀ c ∈ q ++ ((ConsCall.consGetc serial kbd).results serialExists).filter (· ≠ 0#8), c ≠ 0#8 :=
    fun c hc => h.ne_zero hc
  rw [charsDelivered_snoc, ← h.account, List.append_assoc, List.self_eq_append_right]
  obtain rfl := Option.some.inj hc
  change _ ↔ q ++ ((ConsCall.consGetc serial kbd).results serialExists).filter (· ≠ 0#8) = []
  generalize q ++ ((ConsCall.consGetc serial kbd).results serialExists).filter (· ≠ 0#8) = l at hne ⊢
  cases l with
  | nil => exact ⟨fun _ => rfl, fun _ => rfl⟩
  | cons c l => exact ⟨fun heq => absurd heq (hne c List.mem_cons_self), fun heq => absurd heq (List.cons_ne_nil c l)⟩

theorem consRun_traced (h : Run (ConsStep serialExists) consStart es s) (hfew : FewPending serialExists es) :
    ∃ q, ConsTraced serialExists es s q := by
  induction h with
  | nil =>
    refine ⟨[], ⟨consStart_holds, rfl⟩, ?_⟩
    intro es' serial kbd c hpre
    exact absurd (List.prefix_nil.mp hpre) (List.append_ne_nil_of_right_ne_nil _ (List.cons_ne_nil _ _))
  | @snoc es e t u _ hs ih =>
    obtain ⟨q, htraced⟩ := ih hfew.of_snoc
    obtain ⟨hresult, haccount⟩ := htraced.step hs hfew
    refine ⟨_, haccount, ?_⟩
    intro es' serial kbd c hpre
    rcases List.prefix_concat_iff.mp hpre with heq | hpre
    · obtain ⟨rfl, hlast⟩ := List.append_inj' heq rfl
      obtain rfl := (List.cons.inj hlast).1
      exact htraced.toConsAccount.getc serial kbd hresult
    · exact htraced.getc es' serial kbd c hpre

/-- Over every run in which fewer than `CONSBUFSIZE` characters are ever pending: the positions stay inside of the buffer, the
characters returned are the first ones of those delivered, and `cons_getc` returned zero exactly when all of them had been
returned before. Every further call that keeps few characters pending comes to its end inside of the buffer. -/
theorem cons_fifo (h : Run (ConsStep serialExists) consStart es s) (hfew : FewPending serialExists es) :
    s.rpos < consbufsize ∧ s.wpos < consbufsize ∧ charsReturned es <+: charsDelivered serialExists es ∧
    (∀ es' serial kbd c, es' ++ [(.consGetc serial kbd, some c)] <+: es →
      (c = 0#8 ↔ charsReturned es' = charsDelivered serialExists (es' ++ [(.consGetc serial kbd, some c)]))) ∧
    ∀ call : ConsCall, (charsDelivered serialExists (es ++ [(call, none)])).length < (charsReturned es).length + consbufsize →
      ∃ result s', ConsStep serialExists s (call, result) s' := by
  obtain ⟨q, htraced⟩ := consRun_traced h hfew
  refine ⟨htraced.holds.rpos, htraced.holds.wpos_lt, ⟨q, htraced.account⟩, htraced.getc, fun call hcall => ?_⟩
  obtain ⟨s', hs', -⟩ := htraced.holds.call serialExists call (htraced.few none hcall)
  exact ⟨_, s', hs'⟩

/-- Few characters are pending when few have been delivered. -/
theorem FewPending.of_length (h : (charsDelivered serialExists es).length < consbufsize) : FewPending serialExists es := by
  intro es' e hpre
  obtain ⟨rest, rfl⟩ := hpre
  unfold charsDelivered at h ⊢
  rw [List.flatMap_append, List.length_append] at h
  omega

/-- Two keys, two reads, and a read that finds nothing. -/
def consTyped : List ConsEvent :=
  [(.kbdIntr [0x61#8, 0#8, 0x62#8], none), (.consGetc [] [], some 0x61#8), (.consGetc [] [], some 0x62#8), (.consGetc [] [0#8], some 0#8)]

theorem cons_fifo_typed : ∃ s : Cons, s.rpos < consbufsize ∧ s.wpos < consbufsize ∧
    charsReturned consTyped <+: charsDelivered true consTyped ∧
    (∀ es' serial kbd c, es' ++ [(.consGetc serial kbd, some c)] <+: consTyped →
      (c = 0#8 ↔ charsReturned es' = charsDelivered true (es' ++ [(.consGetc serial kbd, some c)]))) ∧
    ∀ call : ConsCall, (charsDelivered true (consTyped ++ [(call, none)])).length < (charsReturned consTyped).length + consbufsize →
      ∃ result s', ConsStep true s (call, result) s' := by
  obtain ⟨s₁, h₁, hq₁⟩ := consStart_holds.call true (.kbdIntr [0x61#8, 0#8, 0x62#8]) (by decide)
  obtain ⟨s₂, h₂, hq₂⟩ := hq₁.call true (.consGetc [] []) (by decide)
  obtain ⟨s₃, h₃, hq₃⟩ := hq₂.call true (.consGetc [] []) (by decide)
  obtain ⟨s, h₄, -⟩ := hq₃.call true (.consGetc [] [0#8]) (by decide)
  have hrun : Run (ConsStep true) consStart consTyped s := (((Run.nil.snoc h₁).snoc h₂).snoc h₃).snoc h₄
  exact ⟨s, cons_fifo hrun (FewPending.of_length (by decide))⟩

end Sisop
