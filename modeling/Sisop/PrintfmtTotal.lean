import Sisop.Printfmt

/-! `vprintfmt` comes to the end of every format, and what it makes of the parts of the format. -/
namespace Sisop

def isFlag (ch : BitVec 8) : Bool := plainFlags.contains ch || isDigit ch || decide (ch = chr '*')

/-- A part of a format: a character outside of all escapes, an escape with its conversion, or an escape that is not
recognised. -/
inductive Piece
  | char (ch : BitVec 8)
  | conversion (flags : List (BitVec 8)) (ch : BitVec 8)
  | literal (text : List (BitVec 8))

/-- The characters of the format that a part is made of. -/
def Piece.text : Piece → List (BitVec 8)
  | .char ch => [ch]
  | .conversion flags ch => chr '%' :: (flags ++ [ch])
  | .literal text => text

/-- The parts of a format. -/
def pieces : List (BitVec 8) → List Piece
  | [] => []
  | ch :: f =>
    if ch = chr '%' then
      match _h : f.dropWhile isFlag with
      | [] => [.literal (ch :: f.takeWhile isFlag)]
      | c :: post =>
        if c ∈ conversions then .conversion (f.takeWhile isFlag) c :: pieces post
        else .literal (ch :: (f.takeWhile isFlag ++ [c])) :: pieces post
    else .char ch :: pieces f
termination_by f => f.length
decreasing_by
  all_goals
    first
    | exact Nat.lt_succ_self _
    | have hlen := (List.dropWhile_suffix isFlag (l := f)).length_le
      rw [_h] at hlen
      exact Nat.lt_succ_of_lt hlen

/-- The words that the `*` flags take. -/
def stars (flags : List (BitVec 8)) : ℕ := flags.count (chr '*')

/-- The `l` flags, counted in an `int`. -/
def longFlags (flags : List (BitVec 8)) : Word := BitVec.ofNat 32 (flags.count (chr 'l'))

/-- The words that a conversion takes. -/
def argWords (lflag : Word) (ch : BitVec 8) : ℕ :=
  if ch ∈ [chr 'd', chr 'u', chr 'o', chr 'x'] then if 2 ≤ lflag.toInt then 2 else 1
  else if ch = chr '%' then 0
  else 1

def Piece.words : Piece → ℕ
  | .char _ => 0
  | .conversion flags ch => stars flags + argWords (longFlags flags) ch
  | .literal text => stars text

/-- The argument of a string is a null pointer or comes to a NUL, and the argument of an error is not the least `int`. -/
def Piece.Supplied (mem : Word → List (BitVec 8)) (va : ℕ → Word) (ap : ℕ) : Piece → Prop
  | .conversion flags ch =>
    (ch = chr 's' → va (ap + stars flags) = 0#32 ∨ 0#8 ∈ mem (va (ap + stars flags))) ∧
    (ch = chr 'e' → va (ap + stars flags) ≠ 0x80000000#32)
  | _ => True

def Supplied (mem : Word → List (BitVec 8)) (va : ℕ → Word) : ℕ → List Piece → Prop
  | _, [] => True
  | ap, p :: ps => p.Supplied mem va ap ∧ Supplied mem va (ap + p.words) ps

/-- What is printed for a part. -/
def Piece.Shows (va : ℕ → Word) (ap : ℕ) (out : List (BitVec 8)) : Piece → Prop
  | .char ch => out = [ch]
  | .conversion flags ch =>
    (ch = chr '%' → out = [chr '%']) ∧ (ch = chr 'c' → out = [(va (ap + stars flags)).setWidth 8])
  | .literal text => out = text

/-- What is printed for the parts, one after the other. -/
def Shown (va : ℕ → Word) : ℕ → List Piece → List (BitVec 8) → Prop
  | _, [], out => out = []
  | ap, p :: ps, out => ∃ o rest, out = o ++ rest ∧ p.Shows va ap o ∧ Shown va (ap + p.words) ps rest

theorem pieces_text (f : List (BitVec 8)) : (pieces f).flatMap Piece.text = f := by
  fun_induction pieces f with
  | case1 => rfl
  | case2 f h =>
    have hf := List.takeWhile_append_dropWhile (p := isFlag) (l := f)
    rw [h, List.append_nil] at hf
    rw [List.flatMap_singleton, Piece.text, hf]
  | case3 f c post h hc ih =>
    have hf := List.takeWhile_append_dropWhile (p := isFlag) (l := f)
    rw [h] at hf
    rw [List.flatMap_cons, ih, Piece.text, List.cons_append, List.append_assoc, List.singleton_append, hf]
  | case4 f c post h hc ih =>
    have hf := List.takeWhile_append_dropWhile (p := isFlag) (l := f)
    rw [h] at hf
    rw [List.flatMap_cons, ih, Piece.text, List.cons_append, List.append_assoc, List.singleton_append, hf]
  | case5 ch f hch ih => rw [List.flatMap_cons, ih, Piece.text, List.singleton_append]

/-- With enough fuel the run from `s` on ends with `out`. -/
def Gives (mem : Word → List (BitVec 8)) (va : ℕ → Word) (s : Vprintfmt) (out : List (BitVec 8)) : Prop :=
  ∃ k, ∀ n ≥ k, vprintfmt n mem va s = some out

section Scan

variable {mem : Word → List (BitVec 8)} {va : ℕ → Word} {passed rest flags t o out f : List (BitVec 8)} {ap : ℕ}
  {e : Escape} {ch c : BitVec 8} {s s' : Vprintfmt}

theorem Gives.step (k : ℕ) (h : ∀ n ≥ k, vprintfmt (n + 1) mem va s = vprintfmt n mem va s') (h' : Gives mem va s' out) :
    Gives mem va s out := by
  obtain ⟨k', h'⟩ := h'
  refine ⟨max k k' + 1, fun n hn => ?_⟩
  obtain ⟨m, rfl⟩ : ∃ m, n = m + 1 := ⟨n - 1, by omega⟩
  rw [h m (by omega), h' m (by omega)]

theorem gives_nul : Gives mem va ⟨⟨passed, 0#8 :: rest⟩, ap, none, o⟩ o := by
  refine ⟨1, fun n hn => ?_⟩
  obtain ⟨m, rfl⟩ : ∃ m, n = m + 1 := ⟨n - 1, by omega⟩
  rfl

/-- Characters that are neither a `%` nor a NUL are copied. -/
theorem gives_text (t rest : List (BitVec 8)) (ht : chr '%' ∉ t) (ht₀ : 0#8 ∉ t) (h : Gives mem va ⟨⟨t.reverse ++ passed, rest⟩, ap, none, o ++ t⟩ out) :
    Gives mem va ⟨⟨passed, t ++ rest⟩, ap, none, o⟩ out := by
  induction t generalizing passed o with
  | nil =>
    rw [List.append_nil] at h
    exact h
  | cons ch t ih =>
    have hnext : Gives mem va ⟨⟨ch :: passed, t ++ rest⟩, ap, none, o ++ [ch]⟩ out := by
      apply ih (fun hmem => ht (List.mem_cons_of_mem _ hmem)) fun hmem => ht₀ (List.mem_cons_of_mem _ hmem)
      rw [List.append_cons, ← List.reverse_cons, List.append_assoc, List.singleton_append]
      exact h
    apply Gives.step 0 _ hnext
    intro n _
    have hpct : ch ≠ chr '%' := fun heq => ht (heq ▸ List.mem_cons_self)
    have hnul : ch ≠ 0#8 := fun heq => ht₀ (heq ▸ List.mem_cons_self)
    rw [vprintfmt]
    change (if ch = chr '%' then _ else if ch = 0#8 then _ else _) = _
    rw [if_neg hpct, if_neg hnul]
    rfl

theorem gives_percent (rest : List (BitVec 8)) (h : Gives mem va ⟨⟨chr '%' :: passed, rest⟩, ap, some Escape.start, o⟩ out) :
    Gives mem va ⟨⟨passed, chr '%' :: rest⟩, ap, none, o⟩ out :=
  Gives.step 0 (fun _ _ => rfl) h

/-- In an escape the next character goes to the switch. -/
theorem gives_switch (k : ℕ) (hs : ∀ n ≥ k,
      switchStep (fun f args strings => vprintfmt n strings args (Vprintfmt.start f)) mem va
        ⟨⟨passed, ch :: rest⟩, ap, some e, o⟩ e ch ⟨ch :: passed, rest⟩ = some s')
    (h : Gives mem va s' out) : Gives mem va ⟨⟨passed, ch :: rest⟩, ap, some e, o⟩ out := by
  apply Gives.step k _ h
  intro n hn
  rw [vprintfmt]
  change (switchStep _ _ _ _ _ _ _ >>= _) = _
  rw [hs n hn]
  rfl

/-- The width field takes the digits that there are. -/
theorem scanDigits_flags (rest : List (BitVec 8)) (hflags : ∀ b ∈ flags, isFlag b) (hc : ¬ isFlag c) (p : Word) (ch : BitVec 8) (passed : List (BitVec 8)) :
    ∃ p' ds flags', flags = ds ++ flags' ∧ (∀ b ∈ ds, isDigit b) ∧
      scanDigits p ch passed (flags ++ c :: rest) = some (p', ⟨ds.reverse ++ passed, flags' ++ c :: rest⟩) := by
  induction flags generalizing p ch passed with
  | nil =>
    have hdigit : ¬ isDigit c := by
      intro hd
      apply hc
      unfold isFlag
      rw [hd, Bool.or_true, Bool.true_or]
    exact ⟨_, [], [], rfl, by simp, if_neg hdigit⟩
  | cons b flags ih =>
    by_cases hb : isDigit b
    · obtain ⟨p', ds, flags', hsplit, hds, hscan⟩ := ih (fun x hx => hflags x (List.mem_cons_of_mem _ hx))
        (p * 10#32 + ch.setWidth 32 - 0x30#32) b (b :: passed)
      refine ⟨p', b :: ds, flags', by rw [hsplit]; rfl, ?_, ?_⟩
      · intro x hx
        obtain rfl | hx := List.mem_cons.mp hx
        · exact hb
        · exact hds x hx
      · rw [List.reverse_cons, List.append_assoc]
        exact (if_pos hb).trans hscan
    · exact ⟨_, [], b :: flags, rfl, by simp, if_neg hb⟩

theorem count_digits {ds : List (BitVec 8)} (hds : ∀ b ∈ ds, isDigit b) (hch : ¬ isDigit ch) : ds.count ch = 0 :=
  List.count_eq_zero.mpr fun hmem => hch (hds ch hmem)

theorem longFlags_cons (b : BitVec 8) (flags : List (BitVec 8)) :
    longFlags (b :: flags) = (if b = chr 'l' then 1#32 else 0#32) + longFlags flags := by
  unfold longFlags
  rw [List.count_cons, Nat.add_comm, BitVec.ofNat_add]
  congr 1
  by_cases hb : b = chr 'l'
  · rw [if_pos hb, if_pos (beq_iff_eq.mpr hb)]
  · rw [if_neg hb, if_neg fun h => hb (beq_iff_eq.mp h)]

theorem stars_cons (b : BitVec 8) (flags : List (BitVec 8)) : stars (b :: flags) = (if b = chr '*' then 1 else 0) + stars flags := by
  unfold stars
  rw [List.count_cons, Nat.add_comm]
  congr 1
  by_cases hb : b = chr '*'
  · rw [if_pos hb, if_pos (beq_iff_eq.mpr hb)]
  · rw [if_neg hb, if_neg fun h => hb (beq_iff_eq.mp h)]

theorem processPrecision_lflag (e : Escape) : e.processPrecision.lflag = e.lflag := by
  unfold Escape.processPrecision
  split <;> rfl

theorem flag_lflag (hch : ch ∈ plainFlags) : (e.flag ch).lflag = e.lflag + if ch = chr 'l' then 1#32 else 0#32 := by
  simp only [plainFlags, List.mem_cons, List.not_mem_nil, or_false] at hch
  obtain rfl | rfl | rfl | rfl | rfl := hch
  · exact (BitVec.add_zero _).symm
  · exact (BitVec.add_zero _).symm
  · rw [if_neg (by decide), BitVec.add_zero]
    unfold Escape.flag
    rw [if_neg (by decide), if_neg (by decide), if_pos rfl]
    split <;> rfl
  · exact (BitVec.add_zero _).symm
  · exact rfl

/-- The flags of an escape are read, and `l` and `*` are counted. -/
theorem gives_flags (k : ℕ) : ∀ {flags} passed ap e, flags.length ≤ k → (∀ b ∈ flags, isFlag b) → ¬ isFlag c →
    ∃ e', e'.lflag = e.lflag + longFlags flags ∧ ∀ out,
      Gives mem va ⟨⟨flags.reverse ++ passed, c :: rest⟩, ap + stars flags, some e', o⟩ out →
      Gives mem va ⟨⟨passed, flags ++ c :: rest⟩, ap, some e, o⟩ out := by
  induction k with
  | zero =>
    intro flags passed ap e hk _ _
    obtain rfl := List.length_eq_zero_iff.mp (Nat.le_zero.mp hk)
    exact ⟨e, (BitVec.add_zero _).symm, fun out h => h⟩
  | succ k ih =>
    intro flags passed ap e hk hflags hc
    cases flags with
    | nil => exact ⟨e, (BitVec.add_zero _).symm, fun out h => h⟩
    | cons b flags =>
      have hrest : ∀ x ∈ flags, isFlag x := fun x hx => hflags x (List.mem_cons_of_mem _ hx)
      have hlen : flags.length ≤ k := Nat.le_of_succ_le_succ hk
      have hb := hflags b List.mem_cons_self
      unfold isFlag at hb
      rw [List.reverse_cons, List.append_assoc, List.singleton_append, longFlags_cons, stars_cons]
      by_cases hplain : b ∈ plainFlags
      · obtain ⟨e', hl, hgives⟩ := ih (b :: passed) ap (e.flag b) hlen hrest hc
        have hstar : b ≠ chr '*' := by
          rintro rfl
          exact absurd hplain (by decide)
        refine ⟨e', by rw [hl, flag_lflag hplain, BitVec.add_assoc], fun out h => ?_⟩
        apply gives_switch 0 _ (hgives out _)
        · exact fun _ _ => if_pos hplain
        · rw [if_neg hstar, Nat.zero_add] at h
          exact h
      · by_cases hdigit : isDigit b
        · obtain ⟨p, ds, flags', rfl, hds, hscan⟩ := scanDigits_flags rest hrest hc 0#32 b (b :: passed)
          have hlen' : flags'.length ≤ k := by
            rw [List.length_append] at hlen
            omega
          obtain ⟨e', hl, hgives⟩ := ih (ds.reverse ++ b :: passed) ap
            { e with precision := p }.processPrecision hlen' (fun x hx => hrest x (List.mem_append_right _ hx)) hc
          have hstar : b ≠ chr '*' := by
            rintro rfl
            exact absurd hdigit (by decide)
          have hell : b ≠ chr 'l' := by
            rintro rfl
            exact absurd hdigit (by decide)
          have hstars : stars (ds ++ flags') = stars flags' := by
            unfold stars
            rw [List.count_append, count_digits hds (by decide), Nat.zero_add]
          have hlong : longFlags (ds ++ flags') = longFlags flags' := by
            unfold longFlags
            rw [List.count_append, count_digits hds (by decide), Nat.zero_add]
          refine ⟨e', ?_, fun out h => ?_⟩
          · rw [hl, processPrecision_lflag, if_neg hell, hlong, BitVec.zero_add]
          · apply gives_switch 0 _ (hgives out _)
            · intro n _
              unfold switchStep
              rw [if_neg hplain, if_pos hdigit]
              change (scanDigits 0#32 b (b :: passed) (ds ++ flags' ++ c :: rest) >>= _) = _
              rw [hscan]
              rfl
            · rw [if_neg hstar, Nat.zero_add, hstars, List.reverse_append, List.append_assoc] at h
              exact h
        · have hstar : b = chr '*' := by simpa [hplain, hdigit] using hb
          subst hstar
          obtain ⟨e', hl, hgives⟩ := ih (chr '*' :: passed) (ap + 1)
            { e with precision := va ap }.processPrecision hlen hrest hc
          refine ⟨e', ?_, fun out h => ?_⟩
          · rw [hl, processPrecision_lflag, if_neg (by decide), BitVec.zero_add]
          · apply gives_switch 0 _ (hgives out _)
            · intro n _
              unfold switchStep
              rw [if_neg hplain, if_neg hdigit, if_pos rfl]
              rfl
            · rw [if_pos rfl, ← Nat.add_assoc] at h
              exact h

theorem rewindLoop_percent {l : List (BitVec 8)} (hl : chr '%' ∉ l) : ∀ rest,
    rewindLoop (l ++ chr '%' :: passed) rest = some ⟨chr '%' :: passed, l.reverse ++ rest⟩ := by
  induction l with
  | nil => exact fun _ => rfl
  | cons b l ih =>
    intro rest
    have hb : b ≠ chr '%' := fun heq => hl (heq ▸ List.mem_cons_self)
    rw [List.cons_append, rewindLoop, if_pos hb, ih (fun h => hl (List.mem_cons_of_mem _ h)), List.reverse_cons,
      List.append_assoc, List.singleton_append]

end Scan

section Conversions

variable {mem : Word → List (BitVec 8)} {va : ℕ → Word} {p passed rest flags o out f : List (BitVec 8)} {ap : ℕ} {e : Escape}
  {ch c : BitVec 8}

theorem strnlen_some (hp : 0#8 ∈ p) (size : ℕ) : ∃ n, strnlen p size = some n := by
  induction p generalizing size with
  | nil => cases hp
  | cons c p ih =>
    cases size with
    | zero => exact ⟨0, rfl⟩
    | succ size =>
      by_cases hc : c = 0#8
      · exact ⟨0, if_pos hc⟩
      · have hp' : 0#8 ∈ p := (List.mem_cons.mp hp).resolve_left fun h => hc h.symm
        obtain ⟨n, hn⟩ := ih hp' size
        refine ⟨n + 1, ?_⟩
        rw [strnlen, if_neg hc, hn]
        rfl

theorem printString_some (altflag : Bool) (hp : 0#8 ∈ p) (precision width : Word) :
    ∃ r, printString altflag p precision width = some r := by
  induction p generalizing precision width with
  | nil => cases hp
  | cons ch p ih =>
    unfold printString
    generalize (if precision.toInt < 0 then precision else precision - 1#32) = next
    by_cases hgo : ch ≠ 0#8 ∧ (precision.toInt < 0 ∨ 0 ≤ next.toInt)
    · have hp' : 0#8 ∈ p := (List.mem_cons.mp hp).resolve_left fun h => hgo.1 h.symm
      obtain ⟨r, hr⟩ := ih hp' next (width - 1#32)
      simp only [if_pos hgo, hr]
      exact ⟨_, rfl⟩
    · exact ⟨_, if_neg hgo⟩

theorem convertString_some (e : Escape) (hp : 0#8 ∈ p) : ∃ out, convertString e p = some out := by
  obtain ⟨n, hn⟩ := strnlen_some hp e.precision.toNat
  unfold convertString
  split
  next =>
    rw [hn]
    obtain ⟨r, hr⟩ := printString_some e.altflag hp e.precision
      (if 0 < (e.width - BitVec.ofNat 32 n).toInt then 0#32 else e.width - BitVec.ofNat 32 n)
    simp only [Option.bind_eq_bind, Option.bind_some, hr]
    exact ⟨_, rfl⟩
  next =>
    obtain ⟨r, hr⟩ := printString_some e.altflag hp e.precision e.width
    simp only [Option.bind_eq_bind, Option.bind_some, hr]
    exact ⟨_, rfl⟩

/-- What a conversion shows, if it is not `%e`. -/
theorem convert_some (mem : Word → List (BitVec 8)) (va : ℕ → Word) (e : Escape) (hc : c ∈ conversions) (herr : c ≠ chr 'e') (hstr : c = chr 's' → va 0 = 0#32 ∨ 0#8 ∈ mem (va 0)) :
    ∃ out, (∀ printfmt, convert printfmt mem va e c = some (out, argWords e.lflag c)) ∧ (c = chr '%' → out = [chr '%']) ∧
      (c = chr 'c' → out = [(va 0).setWidth 8]) := by
  simp only [conversions, List.mem_cons, List.not_mem_nil, or_false] at hc
  have huint : (getuint va e.lflag).2 = if 2 ≤ e.lflag.toInt then 2 else 1 := by
    unfold getuint
    split <;> rfl
  have hint : (getint va e.lflag).2 = if 2 ≤ e.lflag.toInt then 2 else 1 := by
    unfold getint
    split <;> rfl
  obtain rfl | rfl | rfl | rfl | rfl | rfl | rfl | rfl | rfl := hc
  · exact ⟨_, fun _ => rfl, nofun, fun _ => rfl⟩
  · exact absurd rfl herr
  · have hnul : 0#8 ∈ if va 0 = 0#32 then cstring "(null)" else mem (va 0) := by
      split
      next => exact List.mem_append_right _ (List.mem_singleton.mpr rfl)
      next hnull => exact (hstr rfl).resolve_left hnull
    obtain ⟨out, hout⟩ := convertString_some e hnul
    refine ⟨out, fun _ => ?_, nofun, nofun⟩
    unfold convert
    rw [if_neg (by decide), if_neg (by decide), if_pos rfl, hout]
    rfl
  · exact ⟨_, fun _ => congrArg (fun n => some (_, n)) hint, nofun, nofun⟩
  · exact ⟨_, fun _ => congrArg (fun n => some (_, n)) huint, nofun, nofun⟩
  · exact ⟨_, fun _ => congrArg (fun n => some (_, n)) huint, nofun, nofun⟩
  · exact ⟨_, fun _ => rfl, nofun, nofun⟩
  · exact ⟨_, fun _ => congrArg (fun n => some (_, n)) huint, nofun, nofun⟩
  · exact ⟨_, fun _ => rfl, fun _ => rfl, nofun⟩

theorem not_isFlag (h : ¬ isFlag c) : c ∉ plainFlags ∧ ¬ isDigit c ∧ c ≠ chr '*' := by
  unfold isFlag at h
  refine ⟨fun hp => h ?_, fun hd => h ?_, fun hs => h ?_⟩
  · rw [List.contains_iff_mem.mpr hp, Bool.true_or, Bool.true_or]
  · rw [hd, Bool.or_true, Bool.true_or]
  · rw [decide_eq_true hs, Bool.or_true]

theorem conversions_not_flag : ∀ c ∈ conversions, ¬ isFlag c := by decide

/-- A conversion comes to its end, and the scan goes on behind it. -/
theorem gives_convert {x : List (BitVec 8)} {w : ℕ} (hc : c ∈ conversions) (k : ℕ)
    (hx : ∀ n ≥ k, convert (fun f args strings => vprintfmt n strings args (Vprintfmt.start f)) mem (fun i => va (ap + i)) e c =
      some (x, w))
    (h : Gives mem va ⟨⟨c :: passed, rest⟩, ap + w, none, o ++ x⟩ out) :
    Gives mem va ⟨⟨passed, c :: rest⟩, ap, some e, o⟩ out := by
  obtain ⟨hplain, hdigit, hstar⟩ := not_isFlag (conversions_not_flag c hc)
  apply gives_switch k _ h
  intro n hn
  unfold switchStep
  rw [if_neg hplain, if_neg hdigit, if_neg hstar, if_pos hc, hx n hn]
  rfl

/-- An escape that is not recognised is read again as text. -/
theorem gives_unrecognised (rest : List (BitVec 8)) (hflags : ∀ b ∈ flags, isFlag b) (hc : ¬ isFlag c) (hc' : c ∉ conversions)
    (h : Gives mem va ⟨⟨chr '%' :: passed, flags ++ c :: rest⟩, ap + stars flags, none, o ++ [chr '%']⟩ out) :
    Gives mem va ⟨⟨passed, chr '%' :: (flags ++ c :: rest)⟩, ap, none, o⟩ out := by
  apply gives_percent
  obtain ⟨e, -, hgives⟩ := @gives_flags mem va rest o c flags.length flags (chr '%' :: passed) ap
    Escape.start le_rfl hflags hc
  apply hgives
  obtain ⟨hplain, hdigit, hstar⟩ := not_isFlag hc
  have hpct : chr '%' ∉ flags.reverse := by
    intro hmem
    exact absurd (hflags _ (List.mem_reverse.mp hmem)) (by decide)
  apply gives_switch 0 _ h
  intro n _
  unfold switchStep
  rw [if_neg hplain, if_neg hdigit, if_neg hstar, if_neg hc']
  change (rewindLoop (flags.reverse ++ chr '%' :: passed) (c :: rest) >>= _) = _
  rw [rewindLoop_percent hpct, List.reverse_reverse]
  rfl

theorem gives_errorNumber (err : Word) :
    ∃ x, Gives (fun _ => []) (fun _ => err) (Vprintfmt.start (cstring "error %d")) x := by
  obtain ⟨x, hx, -⟩ := convert_some (fun _ => []) (fun _ => err) (c := chr 'd') Escape.start (by decide) (by decide)
    nofun
  refine ⟨"error ".toList.map chr ++ x, ?_⟩
  apply gives_text ("error ".toList.map chr) [chr '%', chr 'd', 0#8] (by decide +kernel) (by decide +kernel)
  apply gives_percent
  apply gives_convert (by decide) 0 fun n _ => hx _
  exact gives_nul

theorem gives_errorString (hp : 0#8 ∈ p) : ∃ x, Gives (fun _ => p) (fun _ => 1#32) (Vprintfmt.start (cstring "%s")) x := by
  obtain ⟨x, hx, -⟩ := convert_some (fun _ => p) (fun _ => 1#32) (c := chr 's') Escape.start (by decide) (by decide)
    fun _ => .inr hp
  refine ⟨x, ?_⟩
  apply gives_percent [chr 's', 0#8]
  apply gives_convert (by decide) 0 fun n _ => hx _
  exact gives_nul

theorem errorString_nul : ∀ p, some p ∈ errorString → 0#8 ∈ p := by
  intro p hp
  simp only [errorString, List.mem_cons, List.not_mem_nil, or_false, Option.some.injEq, reduceCtorEq, false_or] at hp
  have hnul : ∀ s, 0#8 ∈ cstring s := fun s => List.mem_append_right _ (List.mem_singleton.mpr rfl)
  obtain rfl | rfl | rfl | rfl | rfl | rfl | rfl | rfl | rfl | rfl | rfl | rfl | rfl | rfl | rfl := hp <;> exact hnul _

/-- `%e` comes to its end for every number that can be negated. -/
theorem convertError_some {err : Word} (herr : err ≠ 0x80000000#32) : ∃ x k, ∀ n ≥ k,
    convertError (fun f args strings => vprintfmt n strings args (Vprintfmt.start f)) err = some x := by
  unfold convertError
  generalize habs : (if err.toInt < 0 then -err else err) = a
  have hnonneg : ¬ a.toInt < 0 := by
    rw [BitVec.toInt_neg_iff, ← habs]
    split
    next hneg =>
      rw [BitVec.toInt_neg_iff] at hneg
      bv_omega
    next hpos =>
      rw [BitVec.toInt_neg_iff] at hpos
      exact hpos
  obtain ⟨x, k, hx⟩ := gives_errorNumber a
  dsimp only
  by_cases hmax : (maxerror : ℤ) ≤ a.toInt
  · exact ⟨x, k, fun n hn => (if_pos hmax).trans (hx n hn)⟩
  · have hlt : a.toNat < errorString.length := by
      change a.toNat < 16
      change ¬ (16 : ℤ) ≤ a.toInt at hmax
      rw [BitVec.toInt_eq_toNat_of_lt (by rw [BitVec.toInt_neg_iff] at hnonneg; omega)] at hmax
      omega
    simp only [if_neg hmax, if_neg hnonneg, List.getElem?_eq_getElem hlt]
    cases hstr : errorString[a.toNat] with
    | none => exact ⟨x, k, hx⟩
    | some p =>
      obtain ⟨x, k, hx⟩ := gives_errorString (errorString_nul p (hstr ▸ List.getElem_mem hlt))
      exact ⟨x, k, hx⟩

/-- What a conversion shows, if its argument is supplied. -/
theorem convert_supplied (hc : c ∈ conversions) (h : (Piece.conversion flags c).Supplied mem va ap) (e : Escape) :
    ∃ x k, (Piece.conversion flags c).Shows va ap x ∧ ∀ n ≥ k,
      convert (fun f args strings => vprintfmt n strings args (Vprintfmt.start f)) mem (fun i => va (ap + stars flags + i)) e c =
        some (x, argWords e.lflag c) := by
  by_cases herr : c = chr 'e'
  · obtain ⟨x, k, hx⟩ := convertError_some (h.2 herr)
    subst herr
    refine ⟨x, k, ⟨nofun, nofun⟩, fun n hn => ?_⟩
    unfold convert
    rw [if_neg (by decide), if_pos rfl]
    change (convertError _ (va (ap + stars flags)) >>= _) = _
    rw [hx n hn]
    rfl
  · obtain ⟨x, hx, hpct, hchar⟩ := convert_some mem (fun i => va (ap + stars flags + i)) e hc herr h.1
    exact ⟨x, 0, ⟨hpct, hchar⟩, fun n _ => hx _⟩

/-- The flags behind a `%`, and the character that ends them. -/
theorem flags_split {l post : List (BitVec 8)} (h : l.dropWhile isFlag = c :: post) :
    (∀ b ∈ l.takeWhile isFlag, isFlag b) ∧ ¬ isFlag c ∧ l = l.takeWhile isFlag ++ c :: post := by
  have hl := List.takeWhile_append_dropWhile (p := isFlag) (l := l)
  rw [h] at hl
  refine ⟨fun b hb => List.mem_takeWhile_imp hb, ?_, hl.symm⟩
  have hhead := List.head?_dropWhile_not isFlag l
  rw [h] at hhead
  simpa using hhead

theorem not_percent_mem (hflags : ∀ b ∈ flags, isFlag b) : chr '%' ∉ flags := fun hmem => absurd (hflags _ hmem) (by decide)

/-- From the start of a part on: what the parts show is printed, and the scan ends at the NUL. -/
theorem gives_pieces (f : List (BitVec 8)) : ∀ passed ap o, 0#8 ∉ f → Supplied mem va ap (pieces f) →
    ∃ x, Shown va ap (pieces f) x ∧ Gives mem va ⟨⟨passed, f ++ [0#8]⟩, ap, none, o⟩ (o ++ x) := by
  fun_induction pieces f with
  | case1 =>
    intro passed ap o _ _
    refine ⟨[], rfl, ?_⟩
    rw [List.append_nil]
    exact gives_nul
  | case2 f h =>
    -- The format ends inside of an escape.
    intro passed ap o hf _
    have hsplit := List.takeWhile_append_dropWhile (p := isFlag) (l := f)
    rw [h, List.append_nil] at hsplit
    have hflags : ∀ b ∈ f, isFlag b := by
      intro b hb
      rw [← hsplit] at hb
      exact List.mem_takeWhile_imp hb
    rw [hsplit]
    refine ⟨chr '%' :: f, ⟨_, [], (List.append_nil _).symm, rfl, rfl⟩, ?_⟩
    apply gives_unrecognised [] hflags (by decide) (by decide)
    apply gives_text f [0#8] (not_percent_mem hflags) fun hmem => hf (List.mem_cons_of_mem _ hmem)
    rw [List.append_assoc, List.singleton_append]
    exact gives_nul
  | case3 f c post h hc ih =>
    intro passed ap o hf hargs
    obtain ⟨hflags, hflag, hsplit⟩ := flags_split h
    generalize f.takeWhile isFlag = flags at *
    subst hsplit
    obtain ⟨e, hl, hgives⟩ := @gives_flags mem va (post ++ [0#8]) o c _ flags (chr '%' :: passed) ap
      Escape.start le_rfl hflags hflag
    obtain ⟨x, k, hshows, hx⟩ := convert_supplied hc hargs.1 e
    have hpost : 0#8 ∉ post := fun hmem => hf (List.mem_cons_of_mem _ (List.mem_append_right _ (List.mem_cons_of_mem _ hmem)))
    obtain ⟨y, hshown, hrest⟩ := ih (c :: (flags.reverse ++ chr '%' :: passed)) _ (o ++ x) hpost hargs.2
    refine ⟨x ++ y, ⟨x, y, rfl, hshows, hshown⟩, ?_⟩
    rw [List.cons_append, List.append_assoc, ← List.append_assoc o]
    apply gives_percent
    apply hgives
    apply gives_convert hc k hx
    rw [hl.trans (BitVec.zero_add _), Nat.add_assoc]
    exact hrest
  | case4 f c post h hc ih =>
    intro passed ap o hf hargs
    obtain ⟨hflags, hflag, hsplit⟩ := flags_split h
    generalize f.takeWhile isFlag = flags at *
    subst hsplit
    have hpost : 0#8 ∉ post := fun hmem => hf (List.mem_cons_of_mem _ (List.mem_append_right _ (List.mem_cons_of_mem _ hmem)))
    have hwords : stars (chr '%' :: (flags ++ [c])) = stars flags := by
      unfold stars
      rw [List.count_cons_of_ne (by decide), List.count_append, List.count_singleton, if_neg, Nat.add_zero]
      exact fun heq => (not_isFlag hflag).2.2 (beq_iff_eq.mp heq)
    obtain ⟨y, hshown, hrest⟩ := ih (c :: (flags.reverse ++ chr '%' :: passed)) _ (o ++ (chr '%' :: (flags ++ [c])))
      hpost hargs.2
    refine ⟨chr '%' :: (flags ++ [c]) ++ y, ⟨_, y, rfl, rfl, hshown⟩, ?_⟩
    rw [List.cons_append, List.append_assoc flags]
    apply gives_unrecognised _ hflags hflag hc
    have htext : flags ++ c :: (post ++ [0#8]) = (flags ++ [c]) ++ (post ++ [0#8]) := List.append_cons _ _ _
    have hpassed : (flags ++ [c]).reverse ++ chr '%' :: passed = c :: (flags.reverse ++ chr '%' :: passed) := by
      rw [List.reverse_append]
      rfl
    have hout : o ++ [chr '%'] ++ (flags ++ [c]) = o ++ chr '%' :: (flags ++ [c]) := List.append_assoc _ _ _
    change Gives mem va ⟨⟨_, flags ++ c :: (post ++ [0#8])⟩, _, _, _⟩ _
    rw [htext]
    apply gives_text
    · rw [List.mem_append, List.mem_singleton, not_or]
      refine ⟨not_percent_mem hflags, ?_⟩
      rintro rfl
      exact hc (by decide)
    · exact fun hmem => hf (List.mem_cons_of_mem _ (by
        rw [List.append_cons]
        exact List.mem_append_left _ hmem))
    · rw [hpassed, hout, ← hwords, ← List.append_assoc o]
      exact hrest
  | case5 ch f hch ih =>
    intro passed ap o hf hargs
    obtain ⟨x, hshown, hgives⟩ := ih (ch :: passed) _ (o ++ [ch]) (fun hmem => hf (List.mem_cons_of_mem _ hmem)) hargs.2
    refine ⟨ch :: x, ⟨[ch], x, rfl, rfl, hshown⟩, ?_⟩
    apply gives_text [ch] (f ++ [0#8])
    · rw [List.mem_singleton]
      exact fun heq => hch heq.symm
    · rw [List.mem_singleton]
      exact fun heq => hf (heq ▸ List.mem_cons_self)
    · rw [List.append_assoc, List.singleton_append] at hgives
      exact hgives

end Conversions

/-- Every format is printed to its end, all of its text once and in order, and every escape that is not recognised as it
stands. -/
theorem vprintfmt_total (mem : Word → List (BitVec 8)) (va : ℕ → Word) (f : List (BitVec 8)) (hf : 0#8 ∉ f)
    (hargs : Supplied mem va 0 (pieces f)) : (pieces f).flatMap Piece.text = f ∧
    ∃ out, Shown va 0 (pieces f) out ∧ ∃ k, ∀ n ≥ k, vprintfmt n mem va (Vprintfmt.start (f ++ [0#8])) = some out := by
  obtain ⟨out, hshown, hgives⟩ := gives_pieces f [] 0 [] hf hargs
  exact ⟨pieces_text f, out, hshown, hgives⟩

/-- If all words will do as arguments, every part is supplied. -/
theorem supplied_of_forall {mem : Word → List (BitVec 8)} {va : ℕ → Word} (hstr : ∀ i, 0#8 ∈ mem (va i))
    (herr : ∀ i, va i ≠ 0x80000000#32) (ps : List Piece) (ap : ℕ) : Supplied mem va ap ps := by
  induction ps generalizing ap with
  | nil => exact trivial
  | cons p ps ih =>
    refine ⟨?_, ih _⟩
    cases p with
    | char => exact trivial
    | conversion => exact ⟨fun _ => .inr (hstr _), fun _ => herr _⟩
    | literal => exact trivial

/-- A string, and an escape that the format ends in. -/
theorem vprintfmt_total_unfinished :
    let f := "%s: %-08.*".toList.map chr
    (pieces f).flatMap Piece.text = f ∧ ∃ out, Shown (fun _ => 1#32) 0 (pieces f) out ∧ ∃ k, ∀ n ≥ k,
      vprintfmt n (fun _ => cstring "env") (fun _ => 1#32) (Vprintfmt.start (f ++ [0#8])) = some out :=
  vprintfmt_total (fun _ => cstring "env") (fun _ => 1#32) _ (by decide +kernel)
    (supplied_of_forall (fun _ => by decide +kernel) (fun _ => by decide) _ _)

end Sisop
