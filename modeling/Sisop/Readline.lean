import Sisop.CStrings
import Sisop.Runcmd

/-! `readline` of `lib/readline.c` with its static buffer, and what it should do with every line. The echo is left out. -/
namespace Sisop

/-- The loop of `readline`: the buffer, if the line comes to its end, or else a null pointer. It fails where it stores
outside of the buffer. -/
def readlineLoop (buf : List (BitVec 8)) (i : ℕ) : List (Option (BitVec 8)) → Option (Option (List (BitVec 8)))
  | [] => some none
  | none :: _ => some none
  | some c :: cs =>
    if (c = 0x08#8 ∨ c = 0x7f#8) ∧ 0 < i then readlineLoop buf (i - 1) cs
    else if 0x20#8 ≤ c ∧ i < buflen - 1 then do
      let buf ← storeAt buf i c
      readlineLoop buf (i + 1) cs
    else if c = 0x0a#8 ∨ c = 0x0d#8 then (storeAt buf i 0#8).map some
    else readlineLoop buf i cs

/-- The string at the start of a buffer. -/
def lineString (buf : List (BitVec 8)) : List (BitVec 8) := buf.takeWhile (· ≠ 0#8)

/-- What a character should do to the line. -/
def editStep (s : List (BitVec 8)) (c : BitVec 8) : List (BitVec 8) :=
  if c = 0x08#8 ∨ c = 0x7f#8 then s.dropLast
  else if 0x20#8 ≤ c ∧ s.length < buflen - 1 then s ++ [c]
  else s

def editLine (cs : List (BitVec 8)) : List (BitVec 8) := cs.foldl editStep []

/-- How many characters there are in the line, and whether the first one is a DEL that came when the line was empty. -/
def strayStep (s : ℕ × Bool) (c : BitVec 8) : ℕ × Bool :=
  if (c = 0x08#8 ∨ c = 0x7f#8) ∧ 0 < s.1 then (s.1 - 1, s.2 && decide (1 < s.1))
  else if 0x20#8 ≤ c ∧ s.1 < buflen - 1 then (s.1 + 1, s.2 || decide (c = 0x7f#8))
  else s

/-- A DEL that came when the line was empty has not been erased. -/
def StrayDel (cs : List (BitVec 8)) : Prop := (cs.foldl strayStep (0, false)).2 = true

section Buffer

variable {buf buf' s l : List (BitVec 8)} {cs : List (Option (BitVec 8))} {c : BitVec 8} {i : ℕ}

/-- The line is at the start of the buffer. -/
structure InBuffer (buf s : List (BitVec 8)) : Prop where
  size : buf.length = buflen
  room : s.length < buflen
  line : buf.take s.length = s

theorem InBuffer.erase (h : InBuffer buf s) : InBuffer buf s.dropLast := by
  have hlen : s.dropLast.length = s.length - 1 := List.length_dropLast
  refine ⟨h.size, (hlen.le.trans (Nat.sub_le _ _)).trans_lt h.room, ?_⟩
  calc buf.take s.dropLast.length = (buf.take s.length).take (s.length - 1) := by
        rw [List.take_take, hlen, Nat.min_eq_left (Nat.sub_le _ _)]
    _ = s.dropLast := by rw [h.line, List.dropLast_eq_take]

/-- A character is stored behind the line. -/
theorem InBuffer.store (h : InBuffer buf s) (c : BitVec 8) : ∃ buf', storeAt buf s.length c = some buf' ∧
    buf'.length = buflen ∧ buf'.take (s.length + 1) = s ++ [c] := by
  have hlt : s.length < buf.length := by
    rw [h.size]
    exact h.room
  refine ⟨buf.set s.length c, if_pos hlt, by rw [List.length_set, h.size], ?_⟩
  rw [List.take_add_one, List.take_set_of_le le_rfl, h.line, List.getElem?_set_self hlt]
  rfl

/-- No store goes outside, and at the end the line is in the buffer with a NUL behind it. -/
theorem readlineLoop_line (cs : List (Option (BitVec 8))) (h : InBuffer buf s) : ∃ r, readlineLoop buf s.length cs = some r ∧
    ∀ l, readline cs s = some l → ∃ buf', r = some buf' ∧ buf'.length = buflen ∧ buf'.take (l.length + 1) = l ++ [0#8] := by
  fun_induction readline cs s generalizing buf with
  | case1 => exact ⟨none, rfl, fun _ hl => by cases hl⟩
  | case2 => exact ⟨none, rfl, fun _ hl => by cases hl⟩
  | case3 c cs s hback ih =>
    obtain ⟨r, hr, hl⟩ := ih h.erase
    refine ⟨r, ?_, hl⟩
    unfold readlineLoop
    rw [if_pos hback, ← List.length_dropLast]
    exact hr
  | case4 c cs s hback hchar ih =>
    obtain ⟨buf', hstore, hsize, hline⟩ := h.store c
    have hlen : (s ++ [c]).length = s.length + 1 := List.length_append
    have hnext : InBuffer buf' (s ++ [c]) := by
      refine ⟨hsize, ?_, ?_⟩
      · have hroom := hchar.2
        rw [hlen]
        omega
      · rw [hlen, hline]
    obtain ⟨r, hr, hl⟩ := ih hnext
    refine ⟨r, ?_, hl⟩
    unfold readlineLoop
    rw [if_neg hback, if_pos hchar, hstore, Option.bind_eq_bind, Option.bind_some, ← hlen]
    exact hr
  | case5 c cs s hback hchar hend =>
    obtain ⟨buf', hstore, hsize, hline⟩ := h.store 0#8
    refine ⟨some buf', ?_, fun l hl => ?_⟩
    · unfold readlineLoop
      rw [if_neg hback, if_neg hchar, if_pos hend, hstore]
      rfl
    · obtain rfl := Option.some.inj hl
      exact ⟨buf', rfl, hsize, hline⟩
  | case6 c cs s hback hchar hend ih =>
    obtain ⟨r, hr, hl⟩ := ih h
    refine ⟨r, ?_, hl⟩
    unfold readlineLoop
    rw [if_neg hback, if_neg hchar, if_neg hend]
    exact hr

theorem lineString_eq (hnul : 0#8 ∉ l) (h : buf.take (l.length + 1) = l ++ [0#8]) : lineString buf = l := by
  have hbuf := List.take_append_drop (l.length + 1) buf
  rw [h] at hbuf
  unfold lineString
  rw [← hbuf, List.append_assoc, List.takeWhile_append_of_pos]
  · exact List.append_nil l
  · intro c hc
    apply decide_eq_true
    rintro rfl
    exact hnul hc

end Buffer

section Edit

variable {s t line rest : List (BitVec 8)} {c : BitVec 8} {n : ℕ × Bool}

/-- The line that has been typed, beside the line that should have been typed. With a stray DEL it is not shorter, so it is
empty again only together with the other one. -/
structure Edited (s t : List (BitVec 8)) (n : ℕ × Bool) : Prop where
  length : n.1 = s.length
  same : n.2 = false → s = t
  stray : n.2 = true → (∃ x, s = 0x7f#8 :: x) ∧ t.length ≤ s.length
  noDel : 0x7f#8 ∉ t

theorem Edited.not_stray (h : Edited s t n) (hs : s.length = 0) : n.2 = false ∧ t = [] := by
  have hnil := List.length_eq_zero_iff.mp hs
  have hn : n.2 = false := by
    apply Bool.eq_false_of_not_eq_true
    intro hn
    obtain ⟨⟨x, hx⟩, -⟩ := h.stray hn
    rw [hnil] at hx
    cases hx
  exact ⟨hn, (h.same hn).symm.trans hnil⟩

theorem mem_dropLast_of {a : BitVec 8} (h : a ∈ t.dropLast) : a ∈ t := List.dropLast_subset t h

/-- The last character is erased. -/
theorem Edited.erase (h : Edited s t n) (hs : 0 < s.length) :
    Edited s.dropLast t.dropLast (n.1 - 1, n.2 && decide (1 < n.1)) where
  length := by rw [List.length_dropLast, h.length]
  same hn := by
    rcases Bool.and_eq_false_iff.mp hn with hn | hn
    · rw [h.same hn]
    · have hone := of_decide_eq_false hn
      rw [h.length] at hone
      have hsnil : s.dropLast = [] := List.length_eq_zero_iff.mp (by rw [List.length_dropLast]; omega)
      cases hn2 : n.2 with
      | false => rw [h.same hn2]
      | true =>
        have hle := (h.stray hn2).2
        have htnil : t.dropLast = [] := List.length_eq_zero_iff.mp (by rw [List.length_dropLast]; omega)
        rw [hsnil, htnil]
  stray hn := by
    obtain ⟨hn2, hone⟩ := Bool.and_eq_true_iff.mp hn
    obtain ⟨⟨x, rfl⟩, hle⟩ := h.stray hn2
    have hlt := of_decide_eq_true hone
    rw [h.length, List.length_cons] at hlt
    have hx : x ≠ [] := List.ne_nil_of_length_pos (by omega)
    refine ⟨⟨x.dropLast, List.dropLast_cons_of_ne_nil hx⟩, ?_⟩
    rw [List.length_dropLast, List.length_dropLast]
    omega
  noDel hmem := h.noDel (mem_dropLast_of hmem)

/-- A DEL in an empty line is stored. -/
theorem Edited.del (h : Edited s t n) (hs : s.length = 0) : Edited (s ++ [0x7f#8]) t.dropLast (n.1 + 1, true) := by
  obtain ⟨-, rfl⟩ := h.not_stray hs
  obtain rfl := List.length_eq_zero_iff.mp hs
  exact ⟨by rw [h.length]; rfl, nofun, fun _ => ⟨⟨[], rfl⟩, Nat.zero_le _⟩, h.noDel⟩

/-- Another character is stored, if there is room. -/
theorem Edited.char (h : Edited s t n) (hs : s.length < buflen - 1) (hc : c ≠ 0x7f#8) :
    Edited (s ++ [c]) (t ++ [c]) (n.1 + 1, n.2) where
  length := by rw [List.length_append, h.length]; rfl
  same hn := by rw [h.same hn]
  stray hn := by
    obtain ⟨⟨x, rfl⟩, hle⟩ := h.stray hn
    refine ⟨⟨x ++ [c], rfl⟩, ?_⟩
    rw [List.length_append, List.length_append]
    omega
  noDel hmem := by
    rcases List.mem_append.mp hmem with hmem | hmem
    · exact h.noDel hmem
    · exact hc (List.mem_singleton.mp hmem).symm

/-- The line is full, though not the line that should have been typed. -/
theorem Edited.full (h : Edited s t n) (hs : ¬ s.length < buflen - 1) (ht : t.length < buflen - 1) (hc : c ≠ 0x7f#8) :
    Edited s (t ++ [c]) n where
  length := h.length
  same hn := absurd ht (h.same hn ▸ hs)
  stray hn := by
    refine ⟨(h.stray hn).1, ?_⟩
    rw [List.length_append]
    change t.length + 1 ≤ s.length
    omega
  noDel hmem := by
    rcases List.mem_append.mp hmem with hmem | hmem
    · exact h.noDel hmem
    · exact hc (List.mem_singleton.mp hmem).symm

theorem Edited.length_le (h : Edited s t n) : t.length ≤ s.length := by
  cases hn : n.2 with
  | false => rw [h.same hn]
  | true => exact (h.stray hn).2

theorem strayStep_erase (hback : c = 0x08#8 ∨ c = 0x7f#8) (hn : 0 < n.1) :
    strayStep n c = (n.1 - 1, n.2 && decide (1 < n.1)) := if_pos ⟨hback, hn⟩

theorem strayStep_store (hback : ¬ ((c = 0x08#8 ∨ c = 0x7f#8) ∧ 0 < n.1)) (hc : 0x20#8 ≤ c) (hn : n.1 < buflen - 1) :
    strayStep n c = (n.1 + 1, n.2 || decide (c = 0x7f#8)) := by
  unfold strayStep
  rw [if_neg hback, if_pos ⟨hc, hn⟩]

theorem strayStep_other (hback : ¬ ((c = 0x08#8 ∨ c = 0x7f#8) ∧ 0 < n.1)) (hc : ¬ (0x20#8 ≤ c ∧ n.1 < buflen - 1)) :
    strayStep n c = n := by
  unfold strayStep
  rw [if_neg hback, if_neg hc]

/-- A character that is stored. -/
theorem Edited.stored (h : Edited s t n) (hback : ¬ ((c = 0x08#8 ∨ c = 0x7f#8) ∧ 0 < s.length))
    (hchar : 0x20#8 ≤ c ∧ s.length < buflen - 1) : Edited (s ++ [c]) (editStep t c) (strayStep n c) := by
  have hlen := h.length
  rw [← hlen] at hback
  rw [strayStep_store hback hchar.1 (hlen.trans_lt hchar.2)]
  by_cases hdel : c = 0x7f#8
  · have hs : s.length = 0 := by
      by_contra hs
      exact hback ⟨.inr hdel, by omega⟩
    rw [hdel, decide_eq_true rfl, Bool.or_true]
    exact h.del hs
  · have hnot : ¬ (c = 0x08#8 ∨ c = 0x7f#8) := by
      rintro (rfl | hc)
      · exact absurd hchar.1 (by decide)
      · exact hdel hc
    have hedit : editStep t c = t ++ [c] := by
      unfold editStep
      rw [if_neg hnot, if_pos ⟨hchar.1, h.length_le.trans_lt hchar.2⟩]
    rw [hedit, decide_eq_false hdel, Bool.or_false]
    exact h.char hchar.2 hdel

/-- A character that is not stored. -/
theorem Edited.ignored (h : Edited s t n) (hback : ¬ ((c = 0x08#8 ∨ c = 0x7f#8) ∧ 0 < s.length))
    (hchar : ¬ (0x20#8 ≤ c ∧ s.length < buflen - 1)) : Edited s (editStep t c) (strayStep n c) := by
  have hlen := h.length
  rw [← hlen] at hback hchar
  rw [strayStep_other hback hchar]
  rw [hlen] at hback hchar
  unfold editStep
  split
  next hc =>
    have hs : s.length = 0 := by
      by_contra hs
      exact hback ⟨hc, by omega⟩
    have ht := (h.not_stray hs).2
    rw [show t.dropLast = t by rw [ht]; rfl]
    exact h
  next hc =>
    split
    next hroom => exact h.full (fun hlt => hchar ⟨hroom.1, hlt⟩) hroom.2 fun hdel => hc (.inr hdel)
    next => exact h

/-- The run of a line. -/
theorem edited_run {eol : BitVec 8} (heol : eol = 0x0a#8 ∨ eol = 0x0d#8) (rest : List (Option (BitVec 8)))
    (line : List (BitVec 8)) (hline : ∀ c ∈ line, c ≠ 0x0a#8 ∧ c ≠ 0x0d#8) : ∀ {s t n}, Edited s t n →
    ∃ l, readline (line.map some ++ some eol :: rest) s = some l ∧ Edited l (line.foldl editStep t) (line.foldl strayStep n) := by
  induction line with
  | nil =>
    intro s t n h
    refine ⟨s, ?_, h⟩
    have hctl : ¬ (eol = 0x08#8 ∨ eol = 0x7f#8) ∧ ¬ 0x20#8 ≤ eol := by
      rcases heol with rfl | rfl
      · decide
      · decide
    rw [List.map_nil, List.nil_append]
    unfold readline
    rw [if_neg fun hc => hctl.1 hc.1, if_neg fun hc => hctl.2 hc.1, if_pos heol]
  | cons c line ih =>
    intro s t n h
    have ih' := @ih fun c' hc' => hline c' (List.mem_cons_of_mem c hc')
    obtain ⟨hlf, hcr⟩ := hline c List.mem_cons_self
    rw [List.map_cons, List.cons_append, List.foldl_cons, List.foldl_cons]
    unfold readline
    by_cases hback : (c = 0x08#8 ∨ c = 0x7f#8) ∧ 0 < s.length
    · have hedit : editStep t c = t.dropLast := if_pos hback.1
      have hn : 0 < n.1 := by
        rw [h.length]
        exact hback.2
      rw [if_pos hback, hedit, strayStep_erase hback.1 hn]
      exact ih' (h.erase hback.2)
    · rw [if_neg hback]
      by_cases hchar : 0x20#8 ≤ c ∧ s.length < buflen - 1
      · rw [if_pos hchar]
        exact ih' (h.stored hback hchar)
      · rw [if_neg hchar, if_neg (not_or.mpr ⟨hlf, hcr⟩)]
        exact ih' (h.ignored hback hchar)

/-- What has been typed is right exactly if there is no stray DEL. -/
theorem Edited.eq_iff (h : Edited s t n) : s = t ↔ ¬ n.2 = true := by
  constructor
  · rintro rfl hn
    obtain ⟨⟨x, rfl⟩, -⟩ := h.stray hn
    exact h.noDel List.mem_cons_self
  · exact fun hn => h.same (Bool.eq_false_of_not_eq_true hn)

end Edit

/-- `readline` stores nothing outside of its buffer and puts a NUL behind the line. The line is what the keys should make of
it exactly if no DEL stays in it that came when it was empty. -/
theorem readline_iff (buf line : List (BitVec 8)) (eol : BitVec 8) (rest : List (Option (BitVec 8))) (hbuf : buf.length = buflen)
    (hline : ∀ c ∈ line, c ≠ 0x0a#8 ∧ c ≠ 0x0d#8) (heol : eol = 0x0a#8 ∨ eol = 0x0d#8) :
    ∃ buf', readlineLoop buf 0 (line.map some ++ some eol :: rest) = some (some buf') ∧ buf'.length = buflen ∧ 0#8 ∈ buf' ∧
      (lineString buf' = editLine line ↔ ¬ StrayDel line) := by
  have hstart : Edited [] [] (0, false) := ⟨rfl, fun _ => rfl, nofun, List.not_mem_nil⟩
  obtain ⟨l, hread, hedited⟩ := edited_run heol rest line hline hstart
  have hempty : InBuffer buf [] := ⟨hbuf, Nat.zero_lt_succ _, rfl⟩
  obtain ⟨r, hloop, hr⟩ := readlineLoop_line (line.map some ++ some eol :: rest) hempty
  obtain ⟨buf', rfl, hsize, htake⟩ := hr l hread
  have hnul := (readline_line (show ([] : List (BitVec 8)).length < buflen by decide) List.not_mem_nil hread).2
  have hmem : 0#8 ∈ buf' := by
    apply List.mem_of_mem_take (i := l.length + 1)
    rw [htake]
    exact List.mem_append_right l List.mem_cons_self
  refine ⟨buf', hloop, hsize, hmem, ?_⟩
  rw [lineString_eq hnul htake]
  exact hedited.eq_iff

theorem readline_iff_ab : ∃ buf', readlineLoop (List.replicate buflen 0#8) 0
      ([0x61#8, 0x7f#8, 0x62#8].map some ++ some 0x0a#8 :: []) = some (some buf') ∧ buf'.length = buflen ∧ 0#8 ∈ buf' ∧
    (lineString buf' = editLine [0x61#8, 0x7f#8, 0x62#8] ↔ ¬ StrayDel [0x61#8, 0x7f#8, 0x62#8]) :=
  readline_iff _ _ _ _ List.length_replicate (by decide) (.inl rfl)

/-- A DEL in the empty line is in the line that is returned. -/
theorem readline_del : ∃ buf', readlineLoop (List.replicate buflen 0#8) 0 [some 0x7f#8, some 0x0a#8] = some (some buf') ∧
    lineString buf' ≠ editLine [0x7f#8] := by
  have hempty : InBuffer (List.replicate buflen 0#8) [] := ⟨List.length_replicate, by decide, rfl⟩
  obtain ⟨r, hloop, hr⟩ := readlineLoop_line [some 0x7f#8, some 0x0a#8] hempty
  obtain ⟨buf', rfl, -, htake⟩ := hr [0x7f#8] (by decide)
  refine ⟨buf', hloop, ?_⟩
  rw [lineString_eq (by decide) htake]
  decide

end Sisop
