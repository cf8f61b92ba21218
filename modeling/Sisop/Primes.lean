import Sisop.Processes
import Sisop.Sieve

/-! `primes` of `fork/primes.c`. -/
namespace Sisop
namespace Primes

/-- Where a call of `filter` returns to. -/
inductive Frame where
  -- the second call in a child of `filter`
  | again (fd : ℕ)
  -- the end of the child of `primes`
  | closeRead (fd : ℕ)

/-- The system call that a process makes next, with the variables that it needs. Those with a `0` belong to `primes`. -/
inductive Pc where
  | pipe0
  | fork0 (r w : ℕ)
  | child0 (r w : ℕ)
  | close0 (r w : ℕ)
  | loop0 (r w i : ℕ)
  | read (fd : ℕ)
  | done (fd : ℕ)
  | pipe (fd prime : ℕ)
  | print (fd prime r w : ℕ)
  | fork (fd prime r w : ℕ)
  | child (fd r w : ℕ)
  | childRead (fd r : ℕ)
  | loop (fd prime r w : ℕ)
  | write (fd prime r w next : ℕ)
  | close (r w : ℕ)
  | closeWrite (w : ℕ)
  | wait
  | error (r w : ℕ)
  | exit

abbrev Ctl := Pc × List Frame

/-- What comes after a call of `filter`, or of `primes`. -/
def ret : List Frame → Ctl
  | [] => (.exit, [])
  | .again fd :: fs => (.read fd, fs)
  | .closeRead fd :: fs => (.done fd, fs)

/-- `primes(n)` and `filter`. -/
def call (n : ℕ) : Ctl → Syscall Ctl ℕ
  | (.pipe0, fs) => .pipe fun r w => (.fork0 r w, fs)
  | (.fork0 r w, fs) => .fork (.child0 r w, fs) (.close0 r w, fs)
  | (.child0 r w, fs) => .close w (.read r, .closeRead r :: fs)
  | (.close0 r w, fs) => .close r (.loop0 r w 2, fs)
  | (.loop0 r w i, fs) => if i < n then .write w i (.loop0 r w (i + 1), fs) (.error r w, fs) else .close w (.wait, fs)
  | (.read fd, fs) => .read fd (fun prime => (.pipe fd prime, fs)) (.done fd, fs)
  | (.done fd, fs) => .close fd (ret fs)
  | (.pipe fd prime, fs) => .pipe fun r w => (.print fd prime r w, fs)
  | (.print fd prime r w, fs) => .print prime (.fork fd prime r w, fs)
  | (.fork fd prime r w, fs) => .fork (.child fd r w, fs) (.loop fd prime r w, fs)
  | (.child fd r w, fs) => .close w (.childRead fd r, fs)
  | (.childRead fd r, fs) => .close fd (.read r, .again r :: fs)
  | (.loop fd prime r w, fs) =>
    .read fd (fun next => if next % prime ≠ 0 then (.write fd prime r w next, fs) else (.loop fd prime r w, fs)) (.close r w, fs)
  | (.write fd prime r w next, fs) => .write w next (.loop fd prime r w, fs) (.error r w, fs)
  | (.close r w, fs) => .close r (.closeWrite w, fs)
  | (.closeWrite w, fs) => .close w (.wait, fs)
  | (.wait, fs) => .wait (ret fs)
  -- `pipe_error`, which closes both ends
  | (.error r w, fs) => .close r (.done w, fs)
  | (.exit, _) => .exit

abbrev PrimesSystem := System Ctl ℕ

/-- A process is about to call `primes`, with a standard output and without any pipes. -/
structure Start (t : FdTab) (s : PrimesSystem) : Prop where
  stdout : t 1 = some .file
  plain : ∀ f e, t f = some e → e = .file
  few : FewFds t
  nprocs : s.nprocs = 1
  proc : s.proc 0 = ⟨some (.pipe0, []), t, []⟩
  npipes : s.npipes = 0
  pipe : ∀ i, s.pipe i = []
  out : s.out = []

abbrev Step (n cap : ℕ) : PrimesSystem → ℕ → PrimesSystem → Prop := System.Step (call n) cap

end Primes
end Sisop
