import Sisop.InitStack
import Sisop.LoadIcode

/-! `spawn` of `lib/spawn.c`, and what it leaves behind when it fails. -/
namespace Sisop

/-- `-E_NOT_EXEC`. -/
abbrev eNotExec : ℤ := -14

/-- The address spaces of the caller and of the environment that it creates, the open descriptors of the caller and the
environments that it has created, the last ones first. -/
structure Spawner where
  pages : PageSys
  fds : List ℕ
  envs : List ℕ

/-- What the calls of `spawn` return: `open`; `readn` of the ELF header, with `elf_buf` and the memory behind it; `sys_exofork`;
those of `init_stack`; those of `map_segment` for each program header; `sys_env_set_trapframe`, for the entry point and the
stack pointer; `sys_env_set_status`. `close` and `sys_env_destroy` do what they are called for. -/
structure SpawnCalls where
  opened : Except ℤ ℕ
  headerRead : ℤ
  header : Bytes
  exofork : Except ℤ ℕ
  stack : StackCalls
  segment : ℕ → ℕ → Round
  trapframe : Word → Word → Except ℤ Unit
  status : Except ℤ Unit

namespace Spawner

def openFd (s : Spawner) (fd : ℕ) : Spawner := { s with fds := fd :: s.fds }

def closeFd (s : Spawner) (fd : ℕ) : Spawner := { s with fds := s.fds.erase fd }

def create (s : Spawner) (child : ℕ) : Spawner := { s with envs := child :: s.envs }

def destroy (s : Spawner) (child : ℕ) : Spawner := { s with envs := s.envs.erase child }

end Spawner

section Source

/-- `readn` has read the whole header, and it is one. -/
def SpawnCalls.HeaderOk (calls : SpawnCalls) : Prop := calls.headerRead = 512 ∧ getWord calls.header 0 = elfMagic

instance (calls : SpawnCalls) : Decidable calls.HeaderOk := inferInstanceAs (Decidable (_ ∧ _))

/-- `perm`, from `ph->p_flags`. -/
def segmentFlags (flags : Word) : Word := if flags &&& 2#32 ≠ 0#32 then pteP ||| pteU ||| pteW else pteP ||| pteU

/-- The loop over the program headers, from header `i` at `ph` on. -/
def mapHeaders (calls : ℕ → ℕ → Round) (fuel : ℕ) (m : Bytes) : ℕ → ℕ → ℕ → PageSys → Option (Except ℤ Unit × PageSys)
  | 0, _, _, s => some (.ok (), s)
  | n + 1, i, ph, s =>
    if getWord m ph ≠ elfProgLoad then mapHeaders calls fuel m n (i + 1) (ph + 32) s
    else do
      let (r, s) ← PageSys.mapSegment (calls i) fuel s (getWord m (ph + 8)) (getWord m (ph + 20)) (getWord m (ph + 16))
        (getWord m (ph + 4)) (segmentFlags (getWord m (ph + 24)))
      match r with
      | .error r => some (.error r, s)
      | .ok () => mapHeaders calls fuel m n (i + 1) (ph + 32) s

/-- `e_phnum`, a `uint16_t`. -/
def ePhnum (m : Bytes) : ℕ := (m 45 ++ m 44).toNat

/-- `spawn(prog, argv)`, with at most `fuel` rounds for each segment. It returns the child or an error; a panic has no result. -/
def Spawner.spawn (calls : SpawnCalls) (fuel : ℕ) (s : Spawner) (argv : List (List (BitVec 8))) : Option (Except ℤ ℕ × Spawner) :=
  match calls.opened with
  | .error r => some (.error r, s)
  | .ok fd =>
    let s := s.openFd fd
    if ¬ calls.HeaderOk then some (.error eNotExec, s.closeFd fd)
    else match calls.exofork with
      | .error r => some (.error r, s)
      | .ok child => do
        let s := s.create child
        let (r, pages) ← s.pages.initStack calls.stack argv
        let s := { s with pages := pages }
        match r with
        | .error r => some (.error r, s)
        | .ok esp => do
          let (r, pages) ← mapHeaders calls.segment fuel calls.header (ePhnum calls.header) 0 (getWord calls.header 28).toNat s.pages
          let s := { s with pages := pages }
          match r with
          | .error r => some (.error r, (s.destroy child).closeFd fd)
          | .ok () =>
            match calls.trapframe (getWord calls.header 24) esp, calls.status with
            | .ok (), .ok () => some (.ok child, s.closeFd fd)
            | _, _ => none

end Source

/-- How a round of `map_segment` ends: with the page mapped, with an error of `sys_page_alloc`, with an error of `seek` or of
`readn`, or not at all. -/
inductive RoundEnd where
  | mapped
  | noPage
  | noFile
  | panic
  deriving DecidableEq

def Round.ends (call : Round) (filesz fileoffset i : Word) : RoundEnd :=
  match call.alloc with
  | .error _ => .noPage
  | .ok _ =>
    if filesz ≤ i then .mapped
    else match call.seek (fileoffset + i) with
      | .error _ => .noFile
      | .ok () =>
        match call.readn (fileoffset + i) (if 4096#32 < filesz - i then 4096#32 else filesz - i) with
        | .error _ => .noFile
        | .ok _ => if call.map then .mapped else .panic

/-- The end of the first round that does not map its page, if there is one. -/
def loopEnds (calls : ℕ → Round) (memsz filesz fileoffset : Word) : ℕ → ℕ → Word → RoundEnd
  | 0, _, _ => .panic
  | fuel + 1, k, i =>
    if i < memsz then
      if (calls k).ends filesz fileoffset i = .mapped then loopEnds calls memsz filesz fileoffset fuel (k + 1) (i + 4096#32)
      else (calls k).ends filesz fileoffset i
    else .mapped

/-- So for a segment, whose start is rounded down. -/
def segmentEnds (calls : ℕ → Round) (fuel : ℕ) (va memsz filesz fileoffset : Word) : RoundEnd :=
  let i := va &&& 0xFFF#32
  loopEnds calls (memsz + i) (filesz + i) (fileoffset - i) fuel 0 0#32

/-- So for all segments. -/
def headersEnd (calls : ℕ → ℕ → Round) (fuel : ℕ) (m : Bytes) : ℕ → ℕ → ℕ → RoundEnd
  | 0, _, _ => .mapped
  | n + 1, i, ph =>
    if getWord m ph ≠ elfProgLoad then headersEnd calls fuel m n (i + 1) (ph + 32)
    else
      let e := segmentEnds (calls i) fuel (getWord m (ph + 8)) (getWord m (ph + 20)) (getWord m (ph + 16)) (getWord m (ph + 4))
      if e = .mapped then headersEnd calls fuel m n (i + 1) (ph + 32) else e

/-- The result that goes with such an end. -/
def EndsAs (r : Option (Except ℤ Unit × PageSys)) : RoundEnd → Prop
  | .mapped => ∃ s, r = some (.ok (), s) ∧ s.space .caller utempPage = none
  | .noPage => ∃ e s, r = some (.error e, s) ∧ s.space .caller utempPage = none
  | .noFile => ∃ e s, r = some (.error e, s) ∧ s.space .caller utempPage ≠ none
  | .panic => r = none

section Segments

variable {call : Round} {calls : ℕ → Round} {s : PageSys} {va memsz filesz fileoffset perm i : Word}

theorem unmapped_utemp (s : PageSys) : (s.pageUnmap .caller utempPage).space .caller utempPage = none := by
  unfold PageSys.pageUnmap
  rw [PageSys.setEntry_same, Function.update_self]

theorem round_ends (h : s.space .caller utempPage = none) (call : Round) (va filesz fileoffset perm i : Word) :
    EndsAs (PageSys.mapSegmentRound call s va filesz fileoffset perm i) (call.ends filesz fileoffset i) := by
  unfold PageSys.mapSegmentRound Round.ends
  cases call.alloc with
  | error e => exact ⟨e, s, rfl, h⟩
  | ok q =>
    dsimp only
    by_cases hi : filesz ≤ i
    · rw [if_pos hi, if_pos hi]
      refine ⟨_, rfl, ?_⟩
      unfold PageSys.pageAlloc
      rw [PageSys.setEntry_other (by decide), PageSys.setByte_space]
      exact h
    rw [if_neg hi, if_neg hi]
    have hself : (s.pageAlloc .caller utempPage q (pteP ||| pteU ||| pteW)).space .caller utempPage = some (q, pteP ||| pteU ||| pteW) :=
      PageSys.pageAlloc_self
    have hne : (s.pageAlloc .caller utempPage q (pteP ||| pteU ||| pteW)).space .caller utempPage ≠ none := by
      rw [hself]
      exact Option.some_ne_none _
    cases call.seek (fileoffset + i) with
    | error e => exact ⟨e, _, rfl, hne⟩
    | ok u =>
      dsimp only
      cases call.readn (fileoffset + i) (if 4096#32 < filesz - i then 4096#32 else filesz - i) with
      | error e => exact ⟨e, _, rfl, hne⟩
      | ok bs =>
        dsimp only
        rw [PageSys.store_of_space hself, Option.bind_eq_bind, Option.bind_some]
        generalize putBytes _ 0 bs = bytes
        have hself' : ((s.pageAlloc .caller utempPage q (pteP ||| pteU ||| pteW)).setByte q bytes).space .caller utempPage =
            some (q, pteP ||| pteU ||| pteW) := hself
        cases call.map with
        | false => exact rfl
        | true =>
          rw [if_pos rfl, if_pos rfl, PageSys.pageMap_of_space hself', Option.bind_some]
          exact ⟨_, rfl, unmapped_utemp _⟩

/-- What follows is reached only if all pages so far are mapped. -/
theorem EndsAs.bind {r : Option (Except ℤ Unit × PageSys)} {e e' : RoundEnd}
    {f : Except ℤ Unit × PageSys → Option (Except ℤ Unit × PageSys)} (h : EndsAs r e) (herror : ∀ r s, f (.error r, s) = some (.error r, s))
    (hnext : ∀ s, s.space .caller utempPage = none → EndsAs (f (.ok (), s)) e') :
    EndsAs (r.bind f) (if e = .mapped then e' else e) := by
  cases e with
  | mapped =>
    obtain ⟨s, rfl, hs⟩ := h
    exact hnext s hs
  | noPage =>
    obtain ⟨r, s, rfl, hs⟩ := h
    exact ⟨r, s, herror r s, hs⟩
  | noFile =>
    obtain ⟨r, s, rfl, hs⟩ := h
    exact ⟨r, s, herror r s, hs⟩
  | panic =>
    obtain rfl : r = none := h
    exact rfl

theorem loop_ends (calls : ℕ → Round) (va memsz filesz fileoffset perm : Word) (fuel : ℕ) :
    ∀ {k i s}, s.space .caller utempPage = none →
    EndsAs (PageSys.mapSegmentLoop calls va memsz filesz fileoffset perm fuel k i s) (loopEnds calls memsz filesz fileoffset fuel k i) := by
  induction fuel with
  | zero =>
    intro k i s _
    exact rfl
  | succ fuel ih =>
    intro k i s h
    unfold PageSys.mapSegmentLoop loopEnds
    by_cases hi : i < memsz
    · rw [if_pos hi, if_pos hi]
      exact (round_ends h (calls k) va filesz fileoffset perm i).bind (fun _ _ => rfl) fun s' hs' => ih hs'
    · rw [if_neg hi, if_neg hi]
      exact ⟨s, rfl, h⟩

theorem headers_end (calls : ℕ → ℕ → Round) (fuel : ℕ) (m : Bytes) (n : ℕ) : ∀ {i ph s}, s.space .caller utempPage = none →
    EndsAs (mapHeaders calls fuel m n i ph s) (headersEnd calls fuel m n i ph) := by
  induction n with
  | zero =>
    intro i ph s h
    exact ⟨s, rfl, h⟩
  | succ n ih =>
    intro i ph s h
    unfold mapHeaders headersEnd
    by_cases hload : getWord m ph ≠ elfProgLoad
    · rw [if_pos hload, if_pos hload]
      exact ih h
    rw [if_neg hload, if_neg hload]
    exact EndsAs.bind (loop_ends _ _ _ _ _ _ fuel h) (fun _ _ => rfl) fun s' hs' => ih hs'

end Segments

/-- `init_stack` returns an error: the arguments do not fit, or a page system call fails. -/
def StackCalls.Fails (calls : StackCalls) (argv : List (List (BitVec 8))) : Prop :=
  argvStore argv - 8#32 < utempAddr ∨ (∃ e, calls.alloc = .error e) ∨
    (∃ e, calls.map = .error e) ∧ ∃ m, fillStack (fun _ => 0#8) argv = some m

def StackCalls.Succeeds (calls : StackCalls) (argv : List (List (BitVec 8))) : Prop :=
  ¬ argvStore argv - 8#32 < utempAddr ∧ (∃ q, calls.alloc = .ok q) ∧ calls.map = .ok () ∧ ∃ m, fillStack (fun _ => 0#8) argv = some m

/-- A failed `spawn` leaves the caller its descriptors, no page at `UTEMP`, and no environment. -/
def NothingLeft (calls : SpawnCalls) (fuel : ℕ) (s : Spawner) (argv : List (List (BitVec 8))) : Prop :=
  ∀ e s', s.spawn calls fuel argv = some (.error e, s') →
    s'.fds = s.fds ∧ s'.pages.space .caller utempPage = none ∧ s'.envs = s.envs

/-- `sys_exofork` and `init_stack` do not fail, and no segment ends with an error of `seek` or `readn`. A page that the caller had
at `UTEMP` would stay there if the file could not be opened or had no header. -/
structure FailsTidily (calls : SpawnCalls) (fuel : ℕ) (s : Spawner) (argv : List (List (BitVec 8))) : Prop where
  utemp : (∃ e, calls.opened = .error e) ∨ ¬ calls.HeaderOk → s.pages.space .caller utempPage = none
  exofork : (∃ fd, calls.opened = .ok fd) → calls.HeaderOk → ∃ child, calls.exofork = .ok child
  stack : (∃ fd, calls.opened = .ok fd) → calls.HeaderOk → (∃ child, calls.exofork = .ok child) → ¬ calls.stack.Fails argv
  segments : (∃ fd, calls.opened = .ok fd) → calls.HeaderOk → (∃ child, calls.exofork = .ok child) → calls.stack.Succeeds argv →
    headersEnd calls.segment fuel calls.header (ePhnum calls.header) 0 (getWord calls.header 28).toNat ≠ .noFile

section Spawn

variable {calls : SpawnCalls} {fuel fd child : ℕ} {s : Spawner} {argv : List (List (BitVec 8))}

theorem initStack_ends (calls : StackCalls) (s : PageSys) (argv : List (List (BitVec 8))) :
    (calls.Fails argv ∧ ∃ e s', s.initStack calls argv = some (.error e, s')) ∨
    (calls.Succeeds argv ∧ ∃ esp s', s.initStack calls argv = some (.ok esp, s') ∧ s'.space .caller utempPage = none) ∨
    ¬ calls.Fails argv ∧ ¬ calls.Succeeds argv ∧ s.initStack calls argv = none := by
  by_cases htest : argvStore argv - 8#32 < utempAddr
  · exact Or.inl ⟨Or.inl htest, _, _, PageSys.initStack_noMem calls s htest⟩
  cases halloc : calls.alloc with
  | error e => exact Or.inl ⟨Or.inr (Or.inl ⟨e, halloc⟩), e, s, PageSys.initStack_noPage htest halloc⟩
  | ok q =>
    have hpage := PageSys.initStack_page (s := s) htest halloc
    have hself₀ : (s.pageAlloc .caller utempPage q (pteP ||| pteU ||| pteW)).space .caller utempPage = some (q, pteP ||| pteU ||| pteW) :=
      PageSys.pageAlloc_self
    have hself (m : Bytes) : ((s.pageAlloc .caller utempPage q (pteP ||| pteU ||| pteW)).setByte q m).space .caller utempPage =
        some (q, pteP ||| pteU ||| pteW) := hself₀
    cases hfill : fillStack (fun _ => 0#8) argv with
    | none =>
      rw [hfill] at hpage
      refine Or.inr (Or.inr ⟨?_, ?_, hpage⟩)
      · rintro (hlow | ⟨e, herr⟩ | ⟨-, m, hm⟩)
        · exact htest hlow
        · rw [halloc] at herr
          cases herr
        · rw [hfill] at hm
          cases hm
      · rintro ⟨-, -, -, m, hm⟩
        rw [hfill] at hm
        cases hm
    | some m =>
      rw [hfill, Option.bind_some] at hpage
      cases hmap : calls.map with
      | error e =>
        rw [hmap] at hpage
        exact Or.inl ⟨Or.inr (Or.inr ⟨⟨e, hmap⟩, m, hfill⟩), e, _, hpage⟩
      | ok u =>
        rw [hmap] at hpage
        dsimp only at hpage
        rw [PageSys.pageMap_of_space (hself m), Option.bind_some] at hpage
        exact Or.inr (Or.inl ⟨⟨htest, ⟨q, halloc⟩, hmap, m, hfill⟩, _, _, hpage, unmapped_utemp _⟩)

theorem NothingLeft.of_panic (h : s.spawn calls fuel argv = none) : NothingLeft calls fuel s argv := by
  intro e s' hret
  rw [h] at hret
  cases hret

/-- Two errors return with the descriptor open. -/
theorem not_nothingLeft {e : ℤ} {s' : Spawner} (h : s.spawn calls fuel argv = some (.error e, s')) (hfds : s'.fds = fd :: s.fds) :
    ¬ NothingLeft calls fuel s argv := by
  intro hleft
  have hlen := congrArg List.length (hfds.symm.trans (hleft e s' h).1)
  rw [List.length_cons] at hlen
  omega

theorem spawn_notOpen {e : ℤ} (hopen : calls.opened = .error e) : s.spawn calls fuel argv = some (.error e, s) := by
  unfold Spawner.spawn
  rw [hopen]

theorem spawn_notExec (hopen : calls.opened = .ok fd) (hheader : ¬ calls.HeaderOk) :
    s.spawn calls fuel argv = some (.error eNotExec, (s.openFd fd).closeFd fd) := by
  unfold Spawner.spawn
  rw [hopen]
  exact if_pos hheader

theorem spawn_noChild {e : ℤ} (hopen : calls.opened = .ok fd) (hheader : calls.HeaderOk) (hfork : calls.exofork = .error e) :
    s.spawn calls fuel argv = some (.error e, s.openFd fd) := by
  unfold Spawner.spawn
  rw [hopen, hfork]
  exact if_neg (not_not.mpr hheader)

theorem spawn_noStack {e : ℤ} {pages : PageSys} (hopen : calls.opened = .ok fd) (hheader : calls.HeaderOk)
    (hfork : calls.exofork = .ok child) (hstack : s.pages.initStack calls.stack argv = some (.error e, pages)) :
    s.spawn calls fuel argv = some (.error e, { (s.openFd fd).create child with pages := pages }) := by
  have hpages : ((s.openFd fd).create child).pages.initStack calls.stack argv = some (.error e, pages) := hstack
  unfold Spawner.spawn
  rw [hopen, hfork]
  dsimp only
  rw [if_neg (not_not.mpr hheader), hpages]
  rfl

theorem spawn_noResult (hopen : calls.opened = .ok fd) (hheader : calls.HeaderOk) (hfork : calls.exofork = .ok child)
    (hstack : s.pages.initStack calls.stack argv = none) : s.spawn calls fuel argv = none := by
  have hpages : ((s.openFd fd).create child).pages.initStack calls.stack argv = none := hstack
  unfold Spawner.spawn
  rw [hopen, hfork]
  dsimp only
  rw [if_neg (not_not.mpr hheader), hpages]
  rfl

/-- With a child and its stack, what is left is to map the segments. -/
theorem spawn_stack {esp : Word} {pages : PageSys} (hopen : calls.opened = .ok fd) (hheader : calls.HeaderOk)
    (hfork : calls.exofork = .ok child) (hstack : s.pages.initStack calls.stack argv = some (.ok esp, pages)) :
    s.spawn calls fuel argv =
      (mapHeaders calls.segment fuel calls.header (ePhnum calls.header) 0 (getWord calls.header 28).toNat pages).bind fun rs =>
        match rs.1 with
        | .error r => some (.error r, { s with pages := rs.2 })
        | .ok () =>
          match calls.trapframe (getWord calls.header 24) esp, calls.status with
          | .ok (), .ok () => some (.ok child, { s with pages := rs.2, envs := child :: s.envs })
          | _, _ => none := by
  have hpages : ((s.openFd fd).create child).pages.initStack calls.stack argv = some (.ok esp, pages) := hstack
  have hfds : (fd :: s.fds).erase fd = s.fds := List.erase_cons_head ..
  have henvs : (child :: s.envs).erase child = s.envs := List.erase_cons_head ..
  unfold Spawner.spawn
  rw [hopen, hfork]
  dsimp only
  rw [if_neg (not_not.mpr hheader), hpages]
  dsimp only [Option.bind_eq_bind, Option.bind_some, Spawner.create, Spawner.openFd, Spawner.destroy, Spawner.closeFd]
  rw [hfds, henvs]

theorem nothingLeft_segments {esp : Word} {pages : PageSys} (hopen : calls.opened = .ok fd) (hheader : calls.HeaderOk)
    (hfork : calls.exofork = .ok child) (hstack : s.pages.initStack calls.stack argv = some (.ok esp, pages))
    (hnone : pages.space .caller utempPage = none) :
    NothingLeft calls fuel s argv ↔
      headersEnd calls.segment fuel calls.header (ePhnum calls.header) 0 (getWord calls.header 28).toNat ≠ .noFile := by
  have hspawn := @spawn_stack calls fuel fd child s argv esp pages hopen hheader hfork hstack
  have hends := @headers_end calls.segment fuel calls.header (ePhnum calls.header) 0 (getWord calls.header 28).toNat pages hnone
  generalize headersEnd calls.segment fuel calls.header (ePhnum calls.header) 0 (getWord calls.header 28).toNat = e at hends ⊢
  cases e with
  | mapped =>
    obtain ⟨pages', hmap, -⟩ := hends
    rw [hmap, Option.bind_some] at hspawn
    refine iff_of_true ?_ (by decide)
    intro e s' hret
    rw [hspawn] at hret
    cases htrap : calls.trapframe (getWord calls.header 24) esp with
    | error e =>
      rw [htrap] at hret
      cases hret
    | ok u =>
      cases hstatus : calls.status with
      | error e =>
        rw [htrap, hstatus] at hret
        cases hret
      | ok u =>
        rw [htrap, hstatus] at hret
        cases (Prod.mk.inj (Option.some.inj hret)).1
  | noPage =>
    obtain ⟨r, pages', hmap, hnone'⟩ := hends
    rw [hmap, Option.bind_some] at hspawn
    refine iff_of_true ?_ (by decide)
    intro e s' hret
    obtain ⟨-, rfl⟩ := Prod.mk.inj (Option.some.inj (hspawn.symm.trans hret))
    exact ⟨rfl, hnone', rfl⟩
  | noFile =>
    obtain ⟨r, pages', hmap, hsome⟩ := hends
    rw [hmap, Option.bind_some] at hspawn
    refine iff_of_false ?_ (not_not.mpr rfl)
    intro h
    exact hsome (h _ _ hspawn).2.1
  | panic =>
    have hmap : mapHeaders calls.segment fuel calls.header (ePhnum calls.header) 0 (getWord calls.header 28).toNat pages = none := hends
    rw [hmap, Option.bind_none] at hspawn
    exact iff_of_true (.of_panic hspawn) (by decide)

theorem StackCalls.Succeeds.not_fails {calls : StackCalls} (h : calls.Succeeds argv) : ¬ calls.Fails argv := by
  obtain ⟨htest, ⟨q, halloc⟩, hmap, hfill⟩ := h
  rintro (hlow | ⟨e, herr⟩ | ⟨⟨e, herr⟩, -⟩)
  · exact htest hlow
  · cases halloc.symm.trans herr
  · cases hmap.symm.trans herr

/-- When a failed `spawn` leaves nothing behind. -/
theorem spawn_iff (calls : SpawnCalls) (fuel : ℕ) (s : Spawner) (argv : List (List (BitVec 8))) :
    NothingLeft calls fuel s argv ↔ FailsTidily calls fuel s argv := by
  cases hopen : calls.opened with
  | error e =>
    have hno : ¬ ∃ fd, calls.opened = .ok fd := by
      rintro ⟨fd, hfd⟩
      cases hopen.symm.trans hfd
    constructor
    · intro h
      have hutemp := (h e s (spawn_notOpen hopen)).2.1
      exact ⟨fun _ => hutemp, fun hfd => absurd hfd hno, fun hfd => absurd hfd hno, fun hfd => absurd hfd hno⟩
    · intro h e' s' hret
      rw [spawn_notOpen hopen] at hret
      obtain ⟨-, rfl⟩ := Prod.mk.inj (Option.some.inj hret)
      exact ⟨rfl, h.utemp (Or.inl ⟨e, hopen⟩), rfl⟩
  | ok fd =>
    have hnotError : ¬ ∃ e, calls.opened = .error e := by
      rintro ⟨e, he⟩
      cases hopen.symm.trans he
    by_cases hheader : calls.HeaderOk
    case neg =>
      have hret : s.spawn calls fuel argv = _ := spawn_notExec hopen hheader
      have hfds : ((s.openFd fd).closeFd fd).fds = s.fds := List.erase_cons_head ..
      constructor
      · intro h
        exact ⟨fun _ => (h _ _ hret).2.1, fun _ hok => absurd hok hheader, fun _ hok => absurd hok hheader, fun _ hok => absurd hok hheader⟩
      · intro h e' s' hret'
        obtain ⟨-, rfl⟩ := Prod.mk.inj (Option.some.inj (hret.symm.trans hret'))
        exact ⟨hfds, h.utemp (Or.inr hheader), rfl⟩
    -- From here on the page at UTEMP is gone by the time spawn returns with the descriptor closed.
    have hutemp : (∃ e, calls.opened = .error e) ∨ ¬ calls.HeaderOk → s.pages.space .caller utempPage = none := by
      rintro (herror | hbad)
      · exact absurd herror hnotError
      · exact absurd hheader hbad
    cases hfork : calls.exofork with
    | error e =>
      refine iff_of_false (not_nothingLeft (spawn_noChild hopen hheader hfork) rfl) ?_
      intro h
      obtain ⟨child, hchild⟩ := h.exofork ⟨fd, hopen⟩ hheader
      cases hfork.symm.trans hchild
    | ok child =>
      obtain ⟨hfails, e, pages, hstack⟩ | ⟨hsucceeds, esp, pages, hstack, hnone⟩ | ⟨hfails, hsucceeds, hstack⟩ :=
        initStack_ends calls.stack s.pages argv
      · refine iff_of_false (not_nothingLeft (spawn_noStack hopen hheader hfork hstack) rfl) ?_
        intro h
        exact h.stack ⟨fd, hopen⟩ hheader ⟨child, hfork⟩ hfails
      · rw [nothingLeft_segments hopen hheader hfork hstack hnone]
        constructor
        · intro h
          exact ⟨hutemp, fun _ _ => ⟨child, hfork⟩, fun _ _ _ => hsucceeds.not_fails, fun _ _ _ _ => h⟩
        · intro h
          exact h.segments ⟨fd, hopen⟩ hheader ⟨child, hfork⟩ hsucceeds
      · refine iff_of_true (.of_panic (spawn_noResult hopen hheader hfork hstack)) ?_
        exact ⟨hutemp, fun _ _ => ⟨child, hfork⟩, fun _ _ _ => hfails, fun _ _ _ h => absurd h hsucceeds⟩

end Spawn

end Sisop
