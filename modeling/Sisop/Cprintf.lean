import Sisop.PrintfmtTotal

/-! From `cprintf` and `devcons_write` of a program to the console: the buffers of `lib/printf.c` and `lib/console.c`, and
`sys_cputs`, which has `vprintfmt` print them once more. -/
namespace Sisop
namespace Cprintf

/-- `sys_cputs`, for a pointer and the characters from it on. The buffer is on the stack of the program, so
`user_mem_assert` lets it pass. -/
def sysCputs (s : Word) (chars : List (BitVec 8)) (len : Word) : Option (List (BitVec 8)) :=
  cprintfChars s chars len

/-- `struct printbuf`, and what has reached the console. -/
structure Printbuf where
  idx : ℕ
  cnt : Word
  buf : List (BitVec 8)
  console : List (BitVec 8)

/-- `putch`, where the buffer is at `s`. It fails where it stores outside of the buffer. -/
def putch (s : Word) (b : Printbuf) (ch : BitVec 8) : Option Printbuf := do
  let buf ← storeAt b.buf b.idx ch
  let b := { b with buf := buf, idx := b.idx + 1 }
  if b.idx = 256 - 1 then
    let out ← sysCputs s b.buf (BitVec.ofNat 32 b.idx)
    some { b with idx := 0, cnt := b.cnt + 1#32, console := b.console ++ out }
  else some { b with cnt := b.cnt + 1#32 }

/-- `vcprintf` with the characters that `vprintfmt` has for `putch`. -/
def putchars (s : Word) (buf out : List (BitVec 8)) : Option Printbuf := out.foldlM (putch s) ⟨0, 0#32, buf, []⟩

/-- `vcprintf`: what it returns, and what reaches the console. -/
def vcprintf (n : ℕ) (mem : Word → List (BitVec 8)) (va : ℕ → Word) (fmt : List (BitVec 8)) (s : Word) (buf : List (BitVec 8)) :
    Option (Word × List (BitVec 8)) := do
  let out ← vprintfmt n mem va (Vprintfmt.start fmt)
  let b ← putchars s buf out
  let rest ← sysCputs s b.buf (BitVec.ofNat 32 b.idx)
  some (b.cnt, b.console ++ rest)

/-- `memmove(buf, vbuf + tot, m)`. It fails where it goes outside of one of them. -/
def copyChunk (buf vbuf : List (BitVec 8)) (tot m : ℕ) : Option (List (BitVec 8)) :=
  if tot + m ≤ vbuf.length ∧ m ≤ buf.length then some ((vbuf.drop tot).take m ++ buf.drop m) else none

/-- `m = n - tot; if (m > sizeof(buf) - 1) m = sizeof(buf) - 1;` -/
def chunk (n tot : Word) : Word := if 127#32 < n - tot then 127#32 else n - tot

theorem chunk_toNat (n tot : Word) : (chunk n tot).toNat = min 127 (n - tot).toNat := by
  unfold chunk
  split
  next h =>
    have hlt : (127#32).toNat < (n - tot).toNat := h
    change 127 = _
    change 127 < _ at hlt
    omega
  next h =>
    have hle : ¬ (127#32).toNat < (n - tot).toNat := h
    change ¬ 127 < _ at hle
    omega

theorem chunk_lt {n tot : Word} (h : tot < n) : (n - (tot + chunk n tot)).toNat < (n - tot).toNat := by
  have hchunk := chunk_toNat n tot
  have hlt : tot.toNat < n.toNat := h
  bv_omega

/-- The loop of `devcons_write`. -/
def devconsLoop (s : Word) (vbuf : List (BitVec 8)) (n : Word) (buf : List (BitVec 8)) (tot : Word) (console : List (BitVec 8)) :
    Option (Word × List (BitVec 8)) :=
  if tot < n then do
    let buf ← copyChunk buf vbuf tot.toNat (chunk n tot).toNat
    let out ← sysCputs s buf (chunk n tot)
    devconsLoop s vbuf n buf (tot + chunk n tot) (console ++ out)
  else some (tot, console)
termination_by (n - tot).toNat
decreasing_by
  rename_i h
  exact chunk_lt h

/-- `devcons_write(fd, vbuf, n)`, with a buffer at `s`: what it returns, and what reaches the console. -/
def devconsWrite (s : Word) (buf vbuf : List (BitVec 8)) (n : Word) : Option (Word × List (BitVec 8)) :=
  devconsLoop s vbuf n buf 0#32 []

section Console

variable {s : Word} {x rest out buf vbuf : List (BitVec 8)} {w : Word}

/-- `%.*s` prints up to the precision, but not beyond a NUL. -/
theorem printString_take (hrest : rest ≠ []) (x : List (BitVec 8)) : ∀ {w}, x.length < 2^31 → ∃ k ≤ x.length,
    printString false (x ++ rest) (BitVec.ofNat 32 x.length) w = some (x.takeWhile (· ≠ 0#8), w - BitVec.ofNat 32 k) := by
  induction x with
  | nil =>
    intro w _
    obtain ⟨c, rest, rfl⟩ := List.exists_cons_of_ne_nil hrest
    refine ⟨0, le_rfl, ?_⟩
    rw [BitVec.sub_zero]
    exact if_neg fun h => absurd h.2 (by decide)
  | cons c x ih =>
    intro w hlen
    rw [List.length_cons] at hlen ⊢
    have hprec : ¬ (BitVec.ofNat 32 (x.length + 1)).toInt < 0 := by
      rw [toInt_ofNat_of_lt hlen]
      omega
    have hnext : BitVec.ofNat 32 (x.length + 1) - 1#32 = BitVec.ofNat 32 x.length := by
      rw [BitVec.ofNat_add]
      exact add_sub_cancel_right _ _
    have hpos : 0 ≤ (BitVec.ofNat 32 x.length).toInt := by
      rw [toInt_ofNat_of_lt (by omega)]
      omega
    rw [List.cons_append, printString]
    simp only [if_neg hprec, hnext]
    by_cases hc : c = 0#8
    · refine ⟨0, Nat.zero_le _, ?_⟩
      rw [if_neg fun h => h.1 hc, List.takeWhile_cons_of_neg (by simpa using hc), BitVec.sub_zero]
    · obtain ⟨k, hk, hprint⟩ := ih (w := w - 1#32) (by omega)
      refine ⟨k + 1, Nat.succ_le_succ hk, ?_⟩
      rw [if_pos ⟨hc, .inr hpos⟩, hprint, List.takeWhile_cons_of_pos (by simpa using hc), Nat.add_comm k, BitVec.ofNat_add,
        ← BitVec.sub_sub]
      rfl

/-- The escape of `%.*s` when its conversion is reached. -/
def dotStar (len : Word) : Escape := ⟨chr ' ', 0#32, len, 0#32, false⟩

theorem convertString_dotStar (hrest : rest ≠ []) (hx : x.length < 2^31) :
    convertString (dotStar (BitVec.ofNat 32 x.length)) (x ++ rest) = some (x.takeWhile (· ≠ 0#8)) := by
  obtain ⟨k, hk, hprint⟩ := printString_take hrest x (w := 0#32) hx
  have hpad : (0#32 - BitVec.ofNat 32 k).toInt.toNat = 0 := by
    rw [BitVec.toInt_eq_toNat_cond, BitVec.toNat_sub, BitVec.toNat_ofNat, BitVec.toNat_ofNat]
    split <;> omega
  unfold convertString
  have hwidth : ¬ (0 < (0#32).toInt ∧ chr ' ' ≠ chr '-') := by decide
  rw [show (dotStar (BitVec.ofNat 32 x.length)).width = 0#32 from rfl, show (dotStar (BitVec.ofNat 32 x.length)).padc = chr ' ' from rfl,
    if_neg hwidth]
  change (printString false (x ++ rest) (BitVec.ofNat 32 x.length) 0#32 >>= _) = _
  rw [hprint]
  change some ([] ++ x.takeWhile (· ≠ 0#8) ++ List.replicate (0#32 - BitVec.ofNat 32 k).toInt.toNat (chr ' ')) = _
  rw [hpad, List.nil_append, List.replicate_zero, List.append_nil]

/-- What `sys_cputs` sends to the console. -/
theorem sysCputs_eq (hs : s ≠ 0#32) (hrest : rest ≠ []) (hx : x.length < 2^31) :
    sysCputs s (x ++ rest) (BitVec.ofNat 32 x.length) = some (x.takeWhile (· ≠ 0#8)) := by
  have hconv : ∀ f : List (BitVec 8) → (ℕ → Word) → (Word → List (BitVec 8)) → Option (List (BitVec 8)),
      convert f (fun _ => x ++ rest) (fun i => if 1 + i = 0 then BitVec.ofNat 32 x.length else s)
        (dotStar (BitVec.ofNat 32 x.length)) (chr 's') = some (x.takeWhile (· ≠ 0#8), 1) := by
    intro f
    unfold convert
    rw [if_neg (by decide), if_neg (by decide), if_pos rfl]
    change (convertString _ (if s = 0#32 then cstring "(null)" else x ++ rest) >>= _) = _
    rw [if_neg hs, convertString_dotStar hrest hx]
    rfl
  have hflags : sysCputs s (x ++ rest) (BitVec.ofNat 32 x.length) =
      vprintfmt 2 (fun _ => x ++ rest) (fun i => if i = 0 then BitVec.ofNat 32 x.length else s)
        ⟨⟨[chr '*', chr '.', chr '%'], [chr 's', 0#8]⟩, 1, some (dotStar (BitVec.ofNat 32 x.length)), []⟩ := rfl
  rw [hflags, vprintfmt]
  change (switchStep _ _ _ _ _ (chr 's') _ >>= _) = _
  unfold switchStep
  rw [if_neg (by decide), if_neg (by decide), if_neg (by decide), if_pos (by decide), hconv]
  rfl

/-- The part of `p` that has left the buffer is on the console, but for what stands behind a NUL in its chunk. -/
structure Fed (p : List (BitVec 8)) (b : Printbuf) : Prop where
  size : b.buf.length = 256
  idx : b.idx < 255
  noNul : 0#8 ∉ b.console
  bytes : 0#8 ∉ p → b.console ++ b.buf.take b.idx = p
  pending : b.buf.take b.idx <:+ p

theorem not_mem_takeWhile (x : List (BitVec 8)) : 0#8 ∉ x.takeWhile (· ≠ 0#8) := fun h =>
  absurd (List.mem_takeWhile_imp h) (by decide)

theorem takeWhile_eq_self (hx : 0#8 ∉ x) : x.takeWhile (· ≠ 0#8) = x := by
  apply List.takeWhile_eq_self_iff.mpr
  intro c hc
  apply decide_eq_true
  rintro rfl
  exact hx hc

theorem putch_fed {p : List (BitVec 8)} {b : Printbuf} (h : Fed p b) (hs : s ≠ 0#32) (ch : BitVec 8) :
    ∃ b', putch s b ch = some b' ∧ Fed (p ++ [ch]) b' := by
  have hidx := h.idx
  have hlt : b.idx < b.buf.length := by
    rw [h.size]
    omega
  have hsize : (b.buf.set b.idx ch).length = 256 := List.length_set.trans h.size
  have htake : (b.buf.set b.idx ch).take (b.idx + 1) = b.buf.take b.idx ++ [ch] := by
    rw [List.take_add_one, List.take_set_of_le le_rfl, List.getElem?_set_self hlt]
    rfl
  have hbytes : 0#8 ∉ p ++ [ch] → b.console ++ (b.buf.take b.idx ++ [ch]) = p ++ [ch] := by
    intro hnul
    rw [← List.append_assoc, h.bytes fun hmem => hnul (List.mem_append_left _ hmem)]
  have hpending : b.buf.take b.idx ++ [ch] <:+ p ++ [ch] := by
    obtain ⟨t, ht⟩ := h.pending
    exact ⟨t, by rw [← List.append_assoc, ht]⟩
  unfold putch
  rw [show storeAt b.buf b.idx ch = some (b.buf.set b.idx ch) from if_pos hlt, Option.bind_eq_bind, Option.bind_some]
  by_cases hlast : b.idx + 1 = 255
  · have hsplit : b.buf.set b.idx ch = (b.buf.take b.idx ++ [ch]) ++ (b.buf.set b.idx ch).drop 255 := by
      rw [← htake, hlast, List.take_append_drop]
    have hlen : (b.buf.take b.idx ++ [ch]).length = 255 := by
      rw [List.length_append, List.length_take, h.size, List.length_singleton]
      omega
    have hrest : (b.buf.set b.idx ch).drop 255 ≠ [] := by
      intro hnil
      have := congrArg List.length hnil
      rw [List.length_drop, hsize] at this
      exact absurd this (by decide)
    have hput := sysCputs_eq hs hrest (x := b.buf.take b.idx ++ [ch]) (by omega)
    rw [← hsplit, hlen] at hput
    refine ⟨⟨0, b.cnt + 1#32, b.buf.set b.idx ch, b.console ++ (b.buf.take b.idx ++ [ch]).takeWhile (· ≠ 0#8)⟩, ?_, ?_⟩
    · have hidx' : BitVec.ofNat 32 (b.idx + 1) = 255#32 := congrArg (BitVec.ofNat 32) hlast
      simp only [if_pos hlast, hidx', hput, Option.bind_some]
    · apply Fed.mk
      · exact hsize
      · exact Nat.zero_lt_succ _
      · exact fun hmem => (List.mem_append.mp hmem).elim h.noNul (not_mem_takeWhile _)
      · intro hnul
        have hnul' : 0#8 ∉ b.buf.take b.idx ++ [ch] := fun hmem => hnul (hpending.subset hmem)
        rw [takeWhile_eq_self hnul', List.take_zero, List.append_nil]
        exact hbytes hnul
      · exact List.nil_suffix
  · refine ⟨_, if_neg hlast, ?_⟩
    apply Fed.mk
    · exact hsize
    · change b.idx + 1 < 255
      omega
    · exact h.noNul
    · intro hnul
      change b.console ++ (b.buf.set b.idx ch).take (b.idx + 1) = _
      rw [htake, hbytes hnul]
    · change (b.buf.set b.idx ch).take (b.idx + 1) <:+ _
      rw [htake]
      exact hpending

theorem putchars_fed (hs : s ≠ 0#32) (out : List (BitVec 8)) : ∀ {p b}, Fed p b →
    ∃ b', out.foldlM (putch s) b = some b' ∧ Fed (p ++ out) b' := by
  induction out with
  | nil =>
    intro p b h
    rw [List.append_nil]
    exact ⟨b, rfl, h⟩
  | cons ch out ih =>
    intro p b h
    obtain ⟨b₁, hb₁, h₁⟩ := putch_fed h hs ch
    obtain ⟨b₂, hb₂, h₂⟩ := ih h₁
    rw [List.append_assoc] at h₂
    refine ⟨b₂, ?_, h₂⟩
    rw [List.foldlM_cons, hb₁]
    exact hb₂

/-- The index stays inside of the buffer. -/
theorem putchars_idx (hs : s ≠ 0#32) (hbuf : buf.length = 256) (p : List (BitVec 8)) :
    ∃ b, putchars s buf p = some b ∧ Fed p b := by
  have hstart : Fed [] ⟨0, 0#32, buf, []⟩ := by
    apply Fed.mk
    · exact hbuf
    · exact Nat.zero_lt_succ _
    · exact fun hmem => nomatch hmem
    · exact fun _ => rfl
    · exact List.suffix_rfl
  exact putchars_fed hs p hstart

/-- What is left in the buffer is printed at the end. -/
theorem Fed.flush {b : Printbuf} (h : Fed out b) (hs : s ≠ 0#32) : ∃ rest,
    sysCputs s b.buf (BitVec.ofNat 32 b.idx) = some rest ∧ (b.console ++ rest = out ↔ 0#8 ∉ out) := by
  have hidx := h.idx
  have hlen : (b.buf.take b.idx).length = b.idx := by
    rw [List.length_take, h.size]
    omega
  have hrest : b.buf.drop b.idx ≠ [] := by
    intro hnil
    have hzero := congrArg List.length hnil
    rw [List.length_drop, h.size, List.length_nil] at hzero
    omega
  have hput := sysCputs_eq hs hrest (x := b.buf.take b.idx) (by omega)
  rw [List.take_append_drop, hlen] at hput
  refine ⟨_, hput, ?_⟩
  constructor
  · intro heq
    rw [← heq]
    exact fun hmem => (List.mem_append.mp hmem).elim h.noNul (not_mem_takeWhile _)
  · intro hnul
    rw [takeWhile_eq_self fun hmem => hnul (h.pending.subset hmem), h.bytes hnul]

theorem devconsLoop_spec (hs : s ≠ 0#32) {n : Word} (hvbuf : vbuf.length = n.toNat) (k : ℕ) : ∀ tot console buf, (n - tot).toNat ≤ k →
    tot.toNat ≤ n.toNat → buf.length = 128 → 0#8 ∉ console → (0#8 ∉ vbuf → console = vbuf.take tot.toNat) →
    ∃ out, devconsLoop s vbuf n buf tot console = some (n, out) ∧ 0#8 ∉ out ∧ (0#8 ∉ vbuf → out = vbuf) := by
  induction k with
  | zero =>
    intro tot console buf hk htot hbuf hnul hcons
    have hend : tot = n := by bv_omega
    subst hend
    refine ⟨console, ?_, hnul, fun h => ?_⟩
    · rw [devconsLoop, if_neg (by bv_omega)]
    · rw [hcons h, ← hvbuf, List.take_length]
  | succ k ih =>
    intro tot console buf hk htot hbuf hnul hcons
    by_cases hlt : tot < n
    · have hsub : (n - tot).toNat = n.toNat - tot.toNat := BitVec.toNat_sub_of_le (BitVec.le_of_lt hlt)
      have hlt' : tot.toNat < n.toNat := hlt
      have hm := chunk_toNat n tot
      have hnext : (tot + chunk n tot).toNat = tot.toNat + (chunk n tot).toNat := by
        rw [BitVec.toNat_add]
        have := n.isLt
        omega
      generalize hx : (vbuf.drop tot.toNat).take (chunk n tot).toNat = x
      have hxlen : x.length = (chunk n tot).toNat := by
        rw [← hx, List.length_take, List.length_drop]
        omega
      have hxmem : x ⊆ vbuf := by
        rw [← hx]
        exact fun c hc => List.mem_of_mem_drop (List.mem_of_mem_take hc)
      have hcopy : copyChunk buf vbuf tot.toNat (chunk n tot).toNat = some (x ++ buf.drop (chunk n tot).toNat) := by
        rw [← hx]
        exact if_pos ⟨by omega, by omega⟩
      have hrest : buf.drop (chunk n tot).toNat ≠ [] := by
        intro hnil
        have hzero := congrArg List.length hnil
        rw [List.length_drop, hbuf, List.length_nil] at hzero
        omega
      have hput := sysCputs_eq hs hrest (x := x) (by omega)
      rw [hxlen, BitVec.ofNat_toNat, BitVec.setWidth_eq] at hput
      obtain ⟨out, hout, hspec⟩ := ih (tot + chunk n tot) (console ++ x.takeWhile (· ≠ 0#8))
        (x ++ buf.drop (chunk n tot).toNat) (by
          have := chunk_lt hlt
          omega) (by omega) (by
          rw [List.length_append, List.length_drop, hxlen]
          omega) (fun hmem => (List.mem_append.mp hmem).elim hnul (not_mem_takeWhile _)) (by
          intro h
          rw [hcons h, takeWhile_eq_self fun hmem => h (hxmem hmem), hnext, ← hx, ← List.take_add])
      refine ⟨out, ?_, hspec⟩
      rw [devconsLoop, if_pos hlt, hcopy, Option.bind_eq_bind, Option.bind_some, hput, Option.bind_some]
      exact hout
    · have hend : tot = n := by bv_omega
      subst hend
      refine ⟨console, ?_, hnul, fun h => ?_⟩
      · rw [devconsLoop, if_neg hlt]
      · rw [hcons h, ← hvbuf, List.take_length]

end Console

/-- The index stays inside of the buffers, and all that a program prints is on the console exactly if there is no NUL
in it. -/
theorem console_iff {s : Word} (hs : s ≠ 0#32) :
    (∀ {n mem va fmt out buf}, buf.length = 256 → vprintfmt n mem va (Vprintfmt.start fmt) = some out →
      (∀ p, p <+: out → ∃ b, putchars s buf p = some b ∧ b.idx < 256) ∧
      ∃ cnt console, vcprintf n mem va fmt s buf = some (cnt, console) ∧ (console = out ↔ 0#8 ∉ out)) ∧
    ∀ {buf vbuf : List (BitVec 8)} {n : Word}, buf.length = 128 → vbuf.length = n.toNat →
      ∃ console, devconsWrite s buf vbuf n = some (n, console) ∧ (console = vbuf ↔ 0#8 ∉ vbuf) := by
  constructor
  · intro n mem va fmt out buf hbuf hout
    constructor
    · intro p _
      obtain ⟨b, hb, hfed⟩ := putchars_idx hs hbuf p
      exact ⟨b, hb, hfed.idx.trans (Nat.lt_succ_self _)⟩
    · obtain ⟨b, hb, hfed⟩ := putchars_idx hs hbuf out
      obtain ⟨rest, hrest, hiff⟩ := hfed.flush hs
      refine ⟨b.cnt, b.console ++ rest, ?_, hiff⟩
      unfold vcprintf
      simp only [hout, hb, hrest, Option.bind_eq_bind, Option.bind_some]
  · intro buf vbuf n hbuf hvbuf
    obtain ⟨out, hout, hnul, hall⟩ := devconsLoop_spec hs hvbuf n.toNat 0#32 [] buf
      (by rw [BitVec.sub_zero]) (Nat.zero_le _) hbuf (fun h => nomatch h) fun _ => rfl
    exact ⟨out, hout, fun heq => heq ▸ hnul, hall⟩

/-- A number between letters by `cprintf`, and 200 letters in two pieces by `devcons_write`. -/
theorem console_letters :
    ((∀ p, p <+: "n=42;".toList.map chr → ∃ b, putchars 0xeebfdf00#32 (List.replicate 256 0#8) p = some b ∧ b.idx < 256) ∧
      ∃ cnt console, vcprintf 8 (fun _ => []) (fun _ => 42#32) (cstring "n=%d;") 0xeebfdf00#32 (List.replicate 256 0#8) =
        some (cnt, console) ∧ (console = "n=42;".toList.map chr ↔ 0#8 ∉ "n=42;".toList.map chr)) ∧
    ∃ console, devconsWrite 0xeebfdf00#32 (List.replicate 128 0#8) (List.replicate 200 0x61#8) 200#32 = some (200#32, console) ∧
      (console = List.replicate 200 0x61#8 ↔ 0#8 ∉ List.replicate 200 0x61#8) :=
  ⟨(console_iff (by decide)).1 List.length_replicate (by decide +kernel),
    (console_iff (by decide)).2 List.length_replicate List.length_replicate⟩

/-- A NUL by `%c`: the letter behind it is lost. -/
theorem console_nul :
    vprintfmt 6 (fun _ => []) (fun _ => 0#32) (Vprintfmt.start (cstring "a%cb")) = some [0x61#8, 0#8, 0x62#8] ∧
    vcprintf 6 (fun _ => []) (fun _ => 0#32) (cstring "a%cb") 0xeebfdf00#32 (List.replicate 256 0#8) = some (3#32, [0x61#8]) := by
  constructor
  · decide +kernel
  · decide +kernel

end Cprintf
end Sisop
