import Sisop.CStrings

/-! `xargs` of `fork/xargs.c`, with the children that come back from `execvp`. -/
namespace Sisop
namespace Xargs

/-- The line feed. -/
abbrev nl : BitVec 8 := 0x0a#8

/-- `getline`, with what is left in the buffer of the process and what is left to `read`: the line with its line feed, or
what there is before the end of the input. -/
def getline : List (BitVec 8) → List (List (BitVec 8)) → List (BitVec 8) × List (BitVec 8) × List (List (BitVec 8))
  | buf, [] => if buf.contains nl then (buf.takeWhile (· ≠ nl) ++ [nl], (buf.dropWhile (· ≠ nl)).tail, []) else (buf, [], [])
  | buf, c :: chunks =>
    if buf.contains nl then (buf.takeWhile (· ≠ nl) ++ [nl], (buf.dropWhile (· ≠ nl)).tail, c :: chunks)
    else
      let (line, rest, chunks) := getline c chunks
      (buf ++ line, rest, chunks)

/-- The string that is left of a line once its last character is a NUL. -/
def lineArg (line : List (BitVec 8)) : List (BitVec 8) := line.dropLast.takeWhile (· ≠ 0#8)

/-- What the processes do: a call of `getline`, where `proc` counts the forks since the start, and a call of `execvp`. -/
inductive Event where
  | read (proc : ℕ)
  | exec (args : List (List (BitVec 8)))

/-- `execute`. When `execvp` fails the child comes back, and `child` is what it does from there on. The parent waits for its
end of it. What can still be `read` is the same for both; a command that takes some of it as its own input is left out. -/
def execute (runs : Bool) (args : List (List (BitVec 8))) (child : List (List (BitVec 8)) → Option (List Event × List (List (BitVec 8))))
    (chunks : List (List (BitVec 8))) : Option (List Event × List (List (BitVec 8))) :=
  if runs then some ([.exec args], chunks)
  else do
    let (events, chunks) ← child chunks
    some (.exec args :: events, chunks)

/-- The loop of `xargs`, for at most `m` lines: `buf` is the buffer of `stdin` in this process, and `args` has the lines that
wait. -/
def xargsLoop (nargs : ℕ) (runs : Bool) : ℕ → ℕ → List (List (BitVec 8)) → List (BitVec 8) → List (List (BitVec 8)) →
    Option (List Event × List (List (BitVec 8)))
  | 0, _, _, _, _ => none
  | m + 1, proc, args, buf, chunks =>
    let (line, buf, chunks) := getline buf chunks
    if line = [] then do
      let (events, chunks) ← execute runs args (fun chunks => some ([], chunks)) chunks
      some (.read proc :: events, chunks)
    else
      let args := args ++ [lineArg line]
      if args.length = nargs then do
        let (events, chunks) ← execute runs args (xargsLoop nargs runs m (proc + 1) [] buf) chunks
        let (rest, chunks) ← xargsLoop nargs runs m proc [] buf chunks
        some (.read proc :: (events ++ rest), chunks)
      else do
        let (rest, chunks) ← xargsLoop nargs runs m proc args buf chunks
        some (.read proc :: rest, chunks)

/-- `xargs`, for an input that `read` returns in these pieces. -/
def xargs (nargs : ℕ) (runs : Bool) (m : ℕ) (chunks : List (List (BitVec 8))) : Option (List Event) :=
  (xargsLoop nargs runs m 0 [] [] chunks).map Prod.fst

/-- The arguments of the calls of `execvp`. -/
def execs : List Event → List (List (List (BitVec 8))) := List.filterMap fun
  | .exec args => some args
  | .read _ => none

/-- Groups of `n` lines each, but for the last one, which is not empty if there is any line. -/
structure Batched {α : Type} (n : ℕ) (lines : List α) (groups : List (List α)) : Prop where
  flatten : groups.flatten = lines
  full : ∀ g ∈ groups.dropLast, g.length = n
  last : ∀ g ∈ groups.getLast?, g.length ≤ n ∧ (lines ≠ [] → g ≠ [])

/-- The last line, if the input does not end with a line feed. -/
def lastLine (last : List (BitVec 8)) : List (List (BitVec 8)) := if last = [] then [] else [last]

/-- The groups that the loop makes. -/
def batches {α : Type} (n : ℕ) : List α → List α → List (List α)
  | args, [] => [args]
  | args, x :: lines =>
    if (args ++ [x]).length = n then (args ++ [x]) :: batches n [] lines else batches n (args ++ [x]) lines

section Batches

variable {α : Type} {n : ℕ} {args lines : List α}

/-- Only the last group can be of another size. -/
theorem batches_spec (lines : List α) : ∀ {args}, args.length < n → ∃ init g, batches n args lines = init ++ [g] ∧
    (∀ x ∈ init, x.length = n) ∧ g.length = (args.length + lines.length) % n ∧ init.flatten ++ g = args ++ lines := by
  induction lines with
  | nil =>
    intro args h
    exact ⟨[], args, rfl, fun x hx => absurd hx List.not_mem_nil, (Nat.mod_eq_of_lt h).symm, (List.append_nil args).symm⟩
  | cons x lines ih =>
    intro args h
    have hlength : (args ++ [x]).length = args.length + 1 := by rw [List.length_append, List.length_singleton]
    rw [batches]
    by_cases hfull : (args ++ [x]).length = n
    · obtain ⟨init, g, heq, hinit, hg, hflat⟩ := @ih [] (Nat.zero_lt_of_lt h)
      rw [if_pos hfull, heq]
      refine ⟨(args ++ [x]) :: init, g, rfl, ?_, ?_, ?_⟩
      · intro y hy
        rcases List.mem_cons.mp hy with rfl | hy
        · exact hfull
        · exact hinit y hy
      · rw [hg, List.length_nil, Nat.zero_add, List.length_cons, show args.length + (lines.length + 1) = lines.length + n by omega,
          Nat.add_mod_right]
      · rw [List.flatten_cons, List.append_assoc, hflat, List.nil_append, List.append_assoc, List.singleton_append]
    · obtain ⟨init, g, heq, hinit, hg, hflat⟩ := @ih (args ++ [x]) (by omega)
      rw [if_neg hfull]
      refine ⟨init, g, heq, hinit, ?_, ?_⟩
      · rw [hg, hlength, List.length_cons, Nat.add_assoc, Nat.add_comm 1]
      · rw [hflat, List.append_assoc, List.singleton_append]

/-- When the groups are those of the lines that they ought to be. -/
theorem batched_iff (hn : 0 < n) (lines' : List α) :
    Batched n lines (batches n [] lines') ↔ lines' = lines ∧ (lines ≠ [] → ¬ n ∣ lines.length) := by
  obtain ⟨init, g, heq, hinit, hg, hflat⟩ := @batches_spec α n lines' [] hn
  rw [List.length_nil, Nat.zero_add] at hg
  rw [List.nil_append] at hflat
  have hjoin : (init ++ [g]).flatten = lines' := by rw [List.flatten_append, List.flatten_singleton, hflat]
  rw [heq]
  constructor
  · intro h
    obtain rfl : lines' = lines := hjoin.symm.trans h.flatten
    refine ⟨rfl, fun hne hdvd => ?_⟩
    have hlast := (h.last g List.getLast?_concat).2 hne
    rw [Nat.mod_eq_zero_of_dvd hdvd] at hg
    exact hlast (List.length_eq_zero_iff.mp hg)
  · rintro ⟨rfl, hmultiple⟩
    refine ⟨hjoin, ?_, ?_⟩
    · rw [List.dropLast_concat]
      exact hinit
    · intro g' hg'
      obtain rfl : g = g' := Option.some.inj (List.getLast?_concat.symm.trans hg')
      refine ⟨hg.trans_le (Nat.mod_lt _ hn).le, fun hne hnil => ?_⟩
      rw [hnil, List.length_nil] at hg
      exact hmultiple hne (Nat.dvd_of_mod_eq_zero hg.symm)

end Batches

section Input

variable {buf rest l : List (BitVec 8)} {chunks : List (List (BitVec 8))}

theorem cut_line (hl : nl ∉ l) (rest : List (BitVec 8)) :
    (l ++ nl :: rest).takeWhile (· ≠ nl) = l ∧ ((l ++ nl :: rest).dropWhile (· ≠ nl)).tail = rest := by
  have hne : ∀ c ∈ l, decide (c ≠ nl) = true := by
    intro c hc
    apply decide_eq_true
    rintro rfl
    exact hl hc
  constructor
  · rw [List.takeWhile_append_of_pos hne, List.takeWhile_cons_of_neg (by decide), List.append_nil]
  · rw [List.dropWhile_append_of_pos hne, List.dropWhile_cons_of_neg (by decide), List.tail_cons]

/-- A line feed of the input that is in the buffer. -/
theorem buffered_line (hl : nl ∉ l) (hin : buf ++ chunks.flatten = l ++ nl :: rest) (hbuf : nl ∈ buf) :
    buf.takeWhile (· ≠ nl) = l ∧ (buf.dropWhile (· ≠ nl)).tail ++ chunks.flatten = rest := by
  obtain ⟨l', rest', rfl, hl'⟩ := List.eq_append_cons_of_mem hbuf
  rw [List.append_assoc, List.cons_append] at hin
  obtain ⟨htake, hdrop⟩ := cut_line hl' (rest' ++ chunks.flatten)
  obtain ⟨htake', hdrop'⟩ := cut_line hl rest
  rw [hin] at htake hdrop
  rw [(cut_line hl' rest').1, (cut_line hl' rest').2]
  exact ⟨htake.symm.trans htake', hdrop.symm.trans hdrop'⟩

/-- A buffer without a line feed has only a part of the line. -/
theorem unbuffered_line {x : List (BitVec 8)} (hin : buf ++ x = l ++ nl :: rest) (hbuf : nl ∉ buf) :
    ∃ l', l = buf ++ l' ∧ x = l' ++ nl :: rest := by
  rcases List.append_eq_append_iff.mp hin with ⟨l', hl', hx⟩ | ⟨y, hy, hx⟩
  · exact ⟨l', hl', hx⟩
  · cases y with
    | nil => exact ⟨[], by rw [List.append_nil, hy, List.append_nil], hx.symm⟩
    | cons c y =>
      obtain ⟨rfl, -⟩ := List.cons.inj hx
      exact absurd (hy ▸ List.mem_append_right l List.mem_cons_self) hbuf

/-- The next line of the input, wherever the pieces end. -/
theorem getline_line (chunks : List (List (BitVec 8))) : ∀ {buf l}, nl ∉ l → buf ++ chunks.flatten = l ++ nl :: rest →
    ∃ buf' chunks', getline buf chunks = (l ++ [nl], buf', chunks') ∧ buf' ++ chunks'.flatten = rest := by
  induction chunks with
  | nil =>
    intro buf l hl hin
    have hbuf : nl ∈ buf := by
      rw [List.flatten_nil, List.append_nil] at hin
      rw [hin]
      exact List.mem_append_right _ List.mem_cons_self
    obtain ⟨htake, hdrop⟩ := buffered_line hl hin hbuf
    rw [getline, if_pos (List.contains_iff_mem.mpr hbuf), htake]
    exact ⟨_, _, rfl, hdrop⟩
  | cons c chunks ih =>
    intro buf l hl hin
    rw [getline]
    by_cases hbuf : nl ∈ buf
    · obtain ⟨htake, hdrop⟩ := buffered_line hl hin hbuf
      rw [if_pos (List.contains_iff_mem.mpr hbuf), htake]
      exact ⟨_, _, rfl, hdrop⟩
    · obtain ⟨l', rfl, hrest⟩ := unbuffered_line hin hbuf
      obtain ⟨buf', chunks', hget, hin'⟩ := ih (fun hmem => hl (List.mem_append_right _ hmem)) hrest
      rw [if_neg fun hmem => hbuf (List.contains_iff_mem.mp hmem), hget, List.append_assoc]
      exact ⟨buf', chunks', rfl, hin'⟩

/-- What follows the last line feed, or the end of the input. -/
theorem getline_last (chunks : List (List (BitVec 8))) : ∀ {buf}, nl ∉ buf ++ chunks.flatten →
    getline buf chunks = (buf ++ chunks.flatten, [], []) := by
  induction chunks with
  | nil =>
    intro buf h
    rw [List.flatten_nil, List.append_nil] at h ⊢
    rw [getline, if_neg fun hmem => h (List.contains_iff_mem.mp hmem)]
  | cons c chunks ih =>
    intro buf h
    rw [getline, if_neg fun hmem => h (List.mem_append_left _ (List.contains_iff_mem.mp hmem)),
      ih fun hmem => h (List.mem_append_right _ hmem), List.flatten_cons]

end Input

section Loop

variable {nargs : ℕ} {runs : Bool} {proc : ℕ} {args ls : List (List (BitVec 8))} {buf last : List (BitVec 8)}
  {chunks : List (List (BitVec 8))} {events : List Event}

/-- What follows the lines that end with a line feed. -/
def passedLast (last : List (BitVec 8)) : List (List (BitVec 8)) := if last = [] then [] else [lineArg last]

/-- The arguments that the lines become. -/
def passed (ls : List (List (BitVec 8))) (last : List (BitVec 8)) : List (List (BitVec 8)) :=
  ls.map (·.takeWhile (· ≠ 0#8)) ++ passedLast last

/-- What a process reads is read by itself. -/
def ReadsBy (proc : ℕ) (events : List Event) : Prop := ∀ p, .read p ∈ events → p = proc

theorem ReadsBy.cons (h : ReadsBy proc events) : ReadsBy proc (.read proc :: events) := by
  intro p hp
  rcases List.mem_cons.mp hp with heq | hp
  · exact Event.read.inj heq
  · exact h p hp

theorem ReadsBy.exec (h : ReadsBy proc events) (args : List (List (BitVec 8))) : ReadsBy proc (.exec args :: events) := by
  intro p hp
  rcases List.mem_cons.mp hp with heq | hp
  · cases heq
  · exact h p hp

theorem lineArg_line (l : List (BitVec 8)) : lineArg (l ++ [nl]) = l.takeWhile (· ≠ 0#8) := by
  unfold lineArg
  rw [List.dropLast_concat]

/-- The end of the input: the lines that wait are passed, and a child that comes back ends as well. -/
theorem loop_end (hin : buf ++ chunks.flatten = []) (m : ℕ) :
    xargsLoop nargs runs (m + 1) proc args buf chunks = some ([.read proc, .exec args], []) := by
  have hget : getline buf chunks = ([], [], []) := by
    rw [getline_last chunks (hin ▸ List.not_mem_nil), hin]
  rw [xargsLoop, hget]
  cases runs <;> rfl

/-- One line. -/
theorem loop_line {line : List (BitVec 8)} {buf' : List (BitVec 8)} {chunks' : List (List (BitVec 8))} (hline : line ≠ [])
    (hget : getline buf chunks = (line, buf', chunks')) (m : ℕ) :
    xargsLoop nargs runs (m + 1) proc args buf chunks =
      (if (args ++ [lineArg line]).length = nargs then do
        let (events, chunks) ← execute runs (args ++ [lineArg line]) (xargsLoop nargs runs m (proc + 1) [] buf') chunks'
        let (rest, chunks) ← xargsLoop nargs runs m proc [] buf' chunks
        some (.read proc :: (events ++ rest), chunks)
      else do
        let (rest, chunks) ← xargsLoop nargs runs m proc (args ++ [lineArg line]) buf' chunks'
        some (.read proc :: rest, chunks)) := by
  rw [xargsLoop, hget]
  exact if_neg hline

/-- The loop in this state makes these groups of the lines that are left, and nobody else reads. -/
def Makes (nargs : ℕ) (runs : Bool) (proc k : ℕ) (args : List (List (BitVec 8))) (buf : List (BitVec 8)) (chunks : List (List (BitVec 8)))
    (groups : List (List (List (BitVec 8)))) : Prop :=
  ∃ events chunks', (∀ m ≥ k, xargsLoop nargs runs m proc args buf chunks = some (events, chunks')) ∧ execs events = groups ∧
    ReadsBy proc events

theorem makes_end (hin : buf ++ chunks.flatten = []) : Makes nargs runs proc 1 args buf chunks [args] := by
  refine ⟨[.read proc, .exec args], [], fun m hm => ?_, rfl, ?_⟩
  · obtain ⟨m, rfl⟩ := Nat.exists_eq_add_of_le' hm
    exact loop_end hin m
  · exact ReadsBy.cons (ReadsBy.exec (fun p hp => absurd hp List.not_mem_nil) args)

/-- A line more, where no child comes back. -/
theorem makes_line {line buf' : List (BitVec 8)} {chunks' rest : List (List (BitVec 8))} {k : ℕ} (hline : line ≠ [])
    (hget : getline buf chunks = (line, buf', chunks')) (hruns : runs = true ∨ (args ++ [lineArg line]).length ≠ nargs)
    (h : ∀ args', args' = [] ∨ args' = args ++ [lineArg line] ∧ (args ++ [lineArg line]).length ≠ nargs →
      Makes nargs runs proc k args' buf' chunks' (batches nargs args' rest)) :
    Makes nargs runs proc (k + 1) args buf chunks (batches nargs args (lineArg line :: rest)) := by
  by_cases hfull : (args ++ [lineArg line]).length = nargs
  · obtain ⟨events, chunks'', hrun, hexecs, hreads⟩ := h [] (.inl rfl)
    have htrue : runs = true := hruns.resolve_right (not_not.mpr hfull)
    refine ⟨.read proc :: .exec (args ++ [lineArg line]) :: events, chunks'', fun m hm => ?_, ?_, (hreads.exec _).cons⟩
    · obtain ⟨m, rfl⟩ := Nat.exists_eq_add_of_le' (Nat.one_le_of_lt (Nat.lt_of_succ_le hm))
      have hexec : execute runs (args ++ [lineArg line]) (xargsLoop nargs runs m (proc + 1) [] buf') chunks' =
          some ([.exec (args ++ [lineArg line])], chunks') := by
        unfold execute
        rw [if_pos htrue]
      rw [loop_line hline hget, if_pos hfull, hexec]
      simp only [Option.bind_eq_bind, Option.bind_some, hrun m (by omega), List.singleton_append]
    · rw [batches, if_pos hfull, ← hexecs]
      rfl
  · obtain ⟨events, chunks'', hrun, hexecs, hreads⟩ := h _ (.inr ⟨rfl, hfull⟩)
    refine ⟨.read proc :: events, chunks'', fun m hm => ?_, ?_, hreads.cons⟩
    · obtain ⟨m, rfl⟩ := Nat.exists_eq_add_of_le' (Nat.one_le_of_lt (Nat.lt_of_succ_le hm))
      rw [loop_line hline hget, if_neg hfull, hrun m (by omega)]
      rfl
    · rw [batches, if_neg hfull, ← hexecs]
      rfl

/-- The whole input, when every group can be executed or there are too few lines for one. -/
theorem makes_batches (hlast : nl ∉ last) (ls : List (List (BitVec 8))) : ∀ {args buf chunks}, (∀ l ∈ ls, nl ∉ l) →
    args.length < nargs → runs = true ∨ args.length + (passed ls last).length < nargs →
    buf ++ chunks.flatten = ls.flatMap (· ++ [nl]) ++ last →
    Makes nargs runs proc (ls.length + 2) args buf chunks (batches nargs args (passed ls last)) := by
  induction ls with
  | nil =>
    intro args buf chunks _ hargs hruns hin
    rw [List.flatMap_nil, List.nil_append] at hin
    by_cases hempty : last = []
    · have hnone : passed [] last = [] := if_pos hempty
      obtain ⟨events, chunks', hrun, hrest⟩ : Makes nargs runs proc 1 args buf chunks [args] := makes_end (hin.trans hempty)
      rw [hnone]
      exact ⟨events, chunks', fun m hm => hrun m (by omega), hrest⟩
    · have hone : passed [] last = [lineArg last] := if_neg hempty
      have hget : getline buf chunks = (last, [], []) := by rw [getline_last chunks (hin ▸ hlast), hin]
      have hlength : (args ++ [lineArg last]).length = args.length + 1 := by rw [List.length_append, List.length_singleton]
      rw [hone] at hruns ⊢
      refine makes_line hempty hget (hruns.imp_right fun hlt => ?_) fun args' _ => makes_end rfl
      rw [hlength]
      exact hlt.ne
  | cons l ls ih =>
    intro args buf chunks hls hargs hruns hin
    rw [List.flatMap_cons, List.append_assoc, List.append_assoc, List.singleton_append] at hin
    obtain ⟨buf', chunks', hget, hin'⟩ := getline_line chunks (hls l List.mem_cons_self) hin
    have hpassed : passed (l :: ls) last = lineArg (l ++ [nl]) :: passed ls last := by
      rw [lineArg_line]
      rfl
    have hlength : (args ++ [lineArg (l ++ [nl])]).length = args.length + 1 := by
      rw [List.length_append, List.length_singleton]
    rw [hpassed, List.length_cons] at hruns
    rw [hpassed]
    refine makes_line (List.append_ne_nil_of_right_ne_nil _ (List.cons_ne_nil _ _)) hget (hruns.imp_right (by omega)) ?_
    intro args' hargs'
    refine ih (fun l' hl' => hls l' (List.mem_cons_of_mem _ hl')) ?_ (hruns.imp_right fun hlt => ?_) hin'
    · rcases hargs' with rfl | ⟨rfl, hne⟩
      · exact Nat.zero_lt_of_lt hargs
      · omega
    · rcases hargs' with rfl | ⟨rfl, hne⟩
      · rw [List.length_nil]
        omega
      · omega

/-- A process reads before anything else. -/
theorem loop_reads {m : ℕ} {chunks' : List (List (BitVec 8))} (h : xargsLoop nargs runs m proc args buf chunks = some (events, chunks')) :
    .read proc ∈ events := by
  cases m with
  | zero => cases h
  | succ m =>
    by_cases hline : (getline buf chunks).1 = []
    · rw [xargsLoop] at h
      simp only [if_pos hline, Option.bind_eq_bind] at h
      obtain ⟨x, -, hx⟩ := Option.bind_eq_some_iff.mp h
      obtain ⟨rfl, -⟩ := Prod.mk.inj (Option.some.inj hx)
      exact List.mem_cons_self
    · rw [loop_line hline rfl] at h
      split at h
      next =>
        simp only [Option.bind_eq_bind] at h
        obtain ⟨x, -, hx⟩ := Option.bind_eq_some_iff.mp h
        obtain ⟨y, -, hy⟩ := Option.bind_eq_some_iff.mp hx
        obtain ⟨rfl, -⟩ := Prod.mk.inj (Option.some.inj hy)
        exact List.mem_cons_self
      next =>
        simp only [Option.bind_eq_bind] at h
        obtain ⟨x, -, hx⟩ := Option.bind_eq_some_iff.mp h
        obtain ⟨rfl, -⟩ := Prod.mk.inj (Option.some.inj hx)
        exact List.mem_cons_self

/-- A line that completes a group is followed by a child that comes back and reads, or the lines go on. -/
theorem child_line {line buf' : List (BitVec 8)} {chunks' left : List (List (BitVec 8))} {m : ℕ} (hline : line ≠ [])
    (hget : getline buf chunks = (line, buf', chunks'))
    (h : xargsLoop nargs false m proc args buf chunks = some (events, left)) : .read (proc + 1) ∈ events ∨
      ∃ m' events', (args ++ [lineArg line]).length ≠ nargs ∧ events = .read proc :: events' ∧
        xargsLoop nargs false m' proc (args ++ [lineArg line]) buf' chunks' = some (events', left) := by
  cases m with
  | zero => cases h
  | succ m =>
    rw [loop_line hline hget] at h
    split at h
    next =>
      simp only [Option.bind_eq_bind] at h
      obtain ⟨x, hexec, hx⟩ := Option.bind_eq_some_iff.mp h
      obtain ⟨y, -, hy⟩ := Option.bind_eq_some_iff.mp hx
      obtain ⟨rfl, -⟩ := Prod.mk.inj (Option.some.inj hy)
      obtain ⟨z, hchild, hz⟩ := Option.bind_eq_some_iff.mp hexec
      obtain rfl := Option.some.inj hz
      exact .inl (List.mem_cons_of_mem _ (List.mem_append_left _ (List.mem_cons_of_mem _ (loop_reads hchild))))
    next hne =>
      simp only [Option.bind_eq_bind] at h
      obtain ⟨⟨events', left'⟩, hrest, hx⟩ := Option.bind_eq_some_iff.mp h
      obtain ⟨rfl, rfl⟩ := Prod.mk.inj (Option.some.inj hx)
      exact .inr ⟨m, events', hne, rfl, hrest⟩

/-- When a group is complete and cannot be executed, the child reads on. -/
theorem child_reads (hlast : nl ∉ last) (ls : List (List (BitVec 8))) : ∀ {args buf chunks m events left}, (∀ l ∈ ls, nl ∉ l) →
    args.length < nargs → nargs ≤ args.length + (passed ls last).length → buf ++ chunks.flatten = ls.flatMap (· ++ [nl]) ++ last →
    xargsLoop nargs false m proc args buf chunks = some (events, left) → .read (proc + 1) ∈ events := by
  induction ls with
  | nil =>
    intro args buf chunks m events left _ hargs hmany hin h
    rw [List.flatMap_nil, List.nil_append] at hin
    by_cases hempty : last = []
    · have hnone : passed [] last = [] := if_pos hempty
      rw [hnone, List.length_nil] at hmany
      omega
    · have hone : passed [] last = [lineArg last] := if_neg hempty
      have hget : getline buf chunks = (last, [], []) := by rw [getline_last chunks (hin ▸ hlast), hin]
      rcases child_line hempty hget h with hread | ⟨m', events', hne, -, -⟩
      · exact hread
      · rw [hone, List.length_singleton] at hmany
        rw [List.length_append, List.length_singleton] at hne
        omega
  | cons l ls ih =>
    intro args buf chunks m events left hls hargs hmany hin h
    rw [List.flatMap_cons, List.append_assoc, List.append_assoc, List.singleton_append] at hin
    obtain ⟨buf', chunks', hget, hin'⟩ := getline_line chunks (hls l List.mem_cons_self) hin
    have hlength : (passed (l :: ls) last).length = (passed ls last).length + 1 := rfl
    rcases child_line (List.append_ne_nil_of_right_ne_nil _ (List.cons_ne_nil _ _)) hget h with hread | ⟨m', events', hne, rfl, hrest⟩
    · exact hread
    · rw [List.length_append, List.length_singleton] at hne
      refine List.mem_cons_of_mem _ (ih (fun l' hl' => hls l' (List.mem_cons_of_mem _ hl')) ?_ ?_ hin' hrest)
      · rw [List.length_append, List.length_singleton]
        omega
      · rw [List.length_append, List.length_singleton]
        omega

/-- When the arguments are the lines. -/
theorem passed_iff : passed ls last = ls ++ lastLine last ↔ last = [] ∧ ∀ l ∈ ls, 0#8 ∉ l := by
  have hmap : ls.map (·.takeWhile (· ≠ 0#8)) = ls ↔ ∀ l ∈ ls, 0#8 ∉ l := by
    have hid : ls.map (·.takeWhile (· ≠ 0#8)) = ls ↔ ls.map (·.takeWhile (· ≠ 0#8)) = ls.map id := by rw [List.map_id]
    rw [hid, List.map_inj_left]
    refine forall₂_congr fun l _ => ?_
    rw [id, List.takeWhile_eq_self_iff]
    constructor
    · exact fun h hmem => of_decide_eq_true (h _ hmem) rfl
    · intro h c hc
      apply decide_eq_true
      rintro rfl
      exact h hc
  unfold passed passedLast lastLine
  by_cases hempty : last = []
  · rw [if_pos hempty, if_pos hempty, List.append_nil, List.append_nil, hmap]
    exact ⟨fun h => ⟨hempty, h⟩, And.right⟩
  · rw [if_neg hempty, if_neg hempty]
    refine ⟨fun h => ?_, fun h => absurd h.1 hempty⟩
    have hshort : (lineArg last).length < last.length := by
      have hpos := List.length_pos_iff.mpr hempty
      have hle := (List.takeWhile_prefix (fun c => decide (c ≠ 0#8)) (l := last.dropLast)).length_le
      rw [List.length_dropLast] at hle
      exact Nat.lt_of_le_of_lt hle (by omega)
    have heq := (List.cons.inj (List.append_inj' h rfl).2).1
    rw [heq] at hshort
    exact absurd hshort (lt_irrefl _)

end Loop

/-- `xargs` does what it ought to: it executes the command on groups of `nargs` lines, and only the first process reads. -/
def RunsRight (nargs : ℕ) (runs : Bool) (chunks lines : List (List (BitVec 8))) : Prop :=
  ∃ k events, (∀ m ≥ k, xargs nargs runs m chunks = some events) ∧ Batched nargs lines (execs events) ∧ ReadsBy 0 events

section Xargs

variable {nargs : ℕ} {runs : Bool} {ls chunks : List (List (BitVec 8))} {last : List (BitVec 8)}

theorem xargs_batches (hn : 0 < nargs) (hls : ∀ l ∈ ls, nl ∉ l) (hlast : nl ∉ last)
    (hruns : runs = true ∨ (passed ls last).length < nargs) (hin : chunks.flatten = ls.flatMap (· ++ [nl]) ++ last) :
    ∃ k events, (∀ m ≥ k, xargs nargs runs m chunks = some events) ∧ execs events = batches nargs [] (passed ls last) ∧
      ReadsBy 0 events := by
  have hruns' : runs = true ∨ ([] : List (List (BitVec 8))).length + (passed ls last).length < nargs := by
    rwa [List.length_nil, Nat.zero_add]
  obtain ⟨events, left, hrun, hexecs, hreads⟩ := @makes_batches nargs runs 0 last hlast ls [] [] chunks hls hn hruns' hin
  exact ⟨ls.length + 2, events, fun m hm => congrArg (Option.map Prod.fst) (hrun m hm), hexecs, hreads⟩

/-- `xargs` does what it ought to exactly when each group can be executed, or no group gets full, every line ends with a line
feed and has no NUL in it, and the lines do not all fit into full groups. -/
theorem xargs_iff (hn : 0 < nargs) (runs : Bool) (hls : ∀ l ∈ ls, nl ∉ l) (hlast : nl ∉ last)
    (hin : chunks.flatten = ls.flatMap (· ++ [nl]) ++ last) :
    RunsRight nargs runs chunks (ls ++ lastLine last) ↔
      (runs = true ∨ ls.length < nargs) ∧ last = [] ∧ (ls ≠ [] → ¬ nargs ∣ ls.length) ∧ ∀ l ∈ ls, 0#8 ∉ l := by
  have hlength : last = [] → (passed ls last).length = ls.length := by
    rintro rfl
    unfold passed passedLast
    rw [if_pos rfl, List.append_nil, List.length_map]
  have hlines : last = [] → ls ++ lastLine last = ls := by
    rintro rfl
    exact List.append_nil ls
  constructor
  · rintro ⟨k, events, hrun, hbatched, hreads⟩
    have hruns : runs = true ∨ (passed ls last).length < nargs := by
      -- A child that comes back would read.
      rcases Bool.eq_false_or_eq_true runs with htrue | rfl
      · exact .inl htrue
      · right
        by_contra hmany
        obtain ⟨x, hloop, rfl⟩ := Option.map_eq_some_iff.mp (hrun k le_rfl)
        have hmany' : nargs ≤ ([] : List (List (BitVec 8))).length + (passed ls last).length := by
          rw [List.length_nil]
          omega
        exact absurd (hreads _ (child_reads hlast ls hls hn hmany' hin hloop)) (Nat.succ_ne_zero 0)
    obtain ⟨k', events', hrun', hexecs, -⟩ := xargs_batches hn hls hlast hruns hin
    obtain rfl : events = events' :=
      Option.some.inj ((hrun _ (le_max_left k k')).symm.trans (hrun' _ (le_max_right k k')))
    rw [hexecs, batched_iff hn, passed_iff] at hbatched
    obtain ⟨⟨hempty, hnul⟩, hmultiple⟩ := hbatched
    rw [hlines hempty] at hmultiple
    rw [hlength hempty] at hruns
    exact ⟨hruns, hempty, hmultiple, hnul⟩
  · rintro ⟨hruns, hempty, hmultiple, hnul⟩
    rw [← hlength hempty] at hruns
    obtain ⟨k, events, hrun, hexecs, hreads⟩ := xargs_batches hn hls hlast hruns hin
    refine ⟨k, events, hrun, ?_, hreads⟩
    rw [hexecs, batched_iff hn, passed_iff, hlines hempty]
    exact ⟨⟨hempty, hnul⟩, hmultiple⟩

/-- One line. -/
theorem xargs_one : RunsRight 4 true [[0x61#8, nl]] [[0x61#8]] ↔
    (true = true ∨ [[0x61#8]].length < 4) ∧ ([] : List (BitVec 8)) = [] ∧ ([[0x61#8]] ≠ [] → ¬ 4 ∣ [[0x61#8]].length) ∧
      ∀ l ∈ [[0x61#8]], 0#8 ∉ l :=
  @xargs_iff 4 [[0x61#8]] [[0x61#8, nl]] [] (by decide) true (by decide) List.not_mem_nil rfl

/-- After four lines the command is executed once more without any. -/
theorem xargs_four : ¬ RunsRight 4 true [[0x61#8, nl, 0x62#8, nl, 0x63#8, nl, 0x64#8, nl]] [[0x61#8], [0x62#8], [0x63#8], [0x64#8]] := by
  rintro ⟨k, events, hrun, hbatched, -⟩
  obtain ⟨k', events', hrun', hexecs, -⟩ :=
    @xargs_batches 4 true [[0x61#8], [0x62#8], [0x63#8], [0x64#8]] [[0x61#8, nl, 0x62#8, nl, 0x63#8, nl, 0x64#8, nl]] []
      (by decide) (by decide) List.not_mem_nil (.inl rfl) rfl
  obtain rfl : events = events' :=
    Option.some.inj ((hrun _ (le_max_left k k')).symm.trans (hrun' _ (le_max_right k k')))
  rw [hexecs, batched_iff (by decide)] at hbatched
  exact hbatched.2 (List.cons_ne_nil _ _) (by decide)

end Xargs
end Xargs
end Sisop
