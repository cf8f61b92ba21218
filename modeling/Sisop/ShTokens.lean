import Sisop.Tokens
import Sisop.Mmu

/-! `gettoken` of `user/sh.c`. It is one token ahead of its caller, and a word gets its NUL
when the token after it is looked for. An access outside the line fails. -/
namespace Sisop

/-- `WHITESPACE`. -/
def whitespace : List (BitVec 8) := [0x20#8, 0x09#8, 0x0d#8, 0x0a#8]

/-- `SYMBOLS`: `<|>&;()`. -/
def symbols : List (BitVec 8) := [0x3c#8, 0x7c#8, 0x3e#8, 0x26#8, 0x3b#8, 0x28#8, 0x29#8]

/-- `strchr(s, c)` is not a null pointer. The NUL at the end of `s` is not compared. -/
def strchr : List (BitVec 8) → BitVec 8 → Bool
  | [], _ => false
  | x :: xs, c => if x = c then true else strchr xs c

/-- `while (strchr(WHITESPACE, *s)) *s++ = 0;` -/
def skipWhite (mem : List (BitVec 8)) (s : ℕ) : Option (List (BitVec 8) × ℕ) :=
  match h : mem[s]? with
  | none => none
  | some c => if strchr whitespace c then skipWhite (mem.set s 0#8) (s + 1) else some (mem, s)
termination_by mem.length - s
decreasing_by
  have hlt := (List.getElem?_eq_some_iff.mp h).1
  rw [List.length_set]
  omega

/-- `while (*s && !strchr(WHITESPACE SYMBOLS, *s)) s++;` -/
def wordEnd (mem : List (BitVec 8)) (s : ℕ) : Option ℕ :=
  match h : mem[s]? with
  | none => none
  | some c => if c ≠ 0#8 ∧ ¬ strchr (whitespace ++ symbols) c then wordEnd mem (s + 1) else some s
termination_by mem.length - s
decreasing_by
  have hlt := (List.getElem?_eq_some_iff.mp h).1
  omega

/-- The static variables of `gettoken`, and the line with its NUL. A pointer is a place in the line. -/
structure Sh where
  nc : BitVec 8
  np1 : Option ℕ
  np2 : Option ℕ
  mem : List (BitVec 8)
  deriving DecidableEq

/-- `nc = _gettoken(s, &np1, &np2)`. -/
def gettokenFrom (s : Option ℕ) (sh : Sh) : Option Sh :=
  match s with
  | none => some { sh with nc := 0#8 }
  | some s => do
    let (mem, s) ← skipWhite sh.mem s
    let c ← mem[s]?
    if c = 0#8 then some ⟨0#8, none, none, mem⟩
    else if strchr symbols c then some ⟨c, some s, some (s + 1), mem.set s 0#8⟩
    else
      let p2 ← wordEnd mem s
      some ⟨0x77#8, some s, some p2, mem⟩

/-- `gettoken(0, &t)`: what it returns, and `t`. -/
def gettoken (sh : Sh) : Option ((BitVec 8 × Option ℕ) × Sh) :=
  (gettokenFrom sh.np2 sh).map fun sh' => ((sh.nc, sh.np1), sh')

/-- The first `k` calls. -/
def gettokens : ℕ → Sh → Option (List (BitVec 8 × Option ℕ) × Sh)
  | 0, sh => some ([], sh)
  | k+1, sh => do
    let (rs, sh) ← gettokens k sh
    let (r, sh) ← gettoken sh
    some (rs ++ [r], sh)

/-- The tokens of a line. -/
def shTokens (l : List (BitVec 8)) : List (Token (BitVec 8)) := tokens (strchr whitespace) (strchr symbols) l

/-- What `gettoken` returns for a token: its character, or `w`. -/
def Token.id : Token (BitVec 8) → BitVec 8
  | .sym c => c
  | .word _ => 0x77#8

/-- The characters from `t` on are those of `w` and a NUL. -/
def HasString (mem : List (BitVec 8)) (t : ℕ) (w : List (BitVec 8)) : Prop := w ++ [0#8] <+: mem.drop t

/-- A character of a word. -/
abbrev shPlain : BitVec 8 → Bool := plain (strchr whitespace) (strchr symbols)

section Scan

variable {pre r : List (BitVec 8)} {c : BitVec 8}

theorem strchr_append (xs ys : List (BitVec 8)) (c : BitVec 8) : strchr (xs ++ ys) c = (strchr xs c || strchr ys c) := by
  induction xs with
  | nil => rfl
  | cons x xs ih =>
    rw [List.cons_append, strchr, strchr]
    split
    · rfl
    · exact ih

theorem get_mid (pre r : List (BitVec 8)) (c : BitVec 8) : (pre ++ c :: r)[pre.length]? = some c := by
  rw [List.getElem?_append_right (Nat.le_refl _), Nat.sub_self, List.getElem?_cons_zero]

theorem set_mid (pre r : List (BitVec 8)) (c d : BitVec 8) : (pre ++ c :: r).set pre.length d = pre ++ d :: r := by
  rw [List.set_append_right _ _ (Nat.le_refl _), Nat.sub_self, List.set_cons_zero]

/-- The white space is overwritten. -/
theorem skipWhite_eq (pre r : List (BitVec 8)) : skipWhite (pre ++ r ++ [0#8]) pre.length =
    some (pre ++ (List.replicate (r.takeWhile (strchr whitespace)).length 0#8 ++ r.dropWhile (strchr whitespace)) ++ [0#8],
      pre.length + (r.takeWhile (strchr whitespace)).length) := by
  induction r generalizing pre with
  | nil =>
    rw [skipWhite]
    split
    · next h =>
      rw [List.append_nil, get_mid] at h
      cases h
    · next c h =>
      rw [List.append_nil, get_mid] at h
      cases h
      rw [if_neg (by decide)]
      rfl
  | cons c r ih =>
    have hget : (pre ++ c :: r ++ [0#8])[pre.length]? = some c := by
      rw [List.append_assoc]
      exact get_mid pre (r ++ [0#8]) c
    rw [skipWhite]
    split
    · next h =>
      rw [hget] at h
      cases h
    · next c' h =>
      rw [hget] at h
      cases h
      by_cases hwhite : strchr whitespace c = true
      · have hset : (pre ++ c :: r ++ [0#8]).set pre.length 0#8 = (pre ++ [0#8]) ++ r ++ [0#8] := by
          rw [List.append_assoc, List.cons_append, set_mid, List.append_assoc, List.append_assoc]
          rfl
        have hlen : pre.length + 1 = (pre ++ [0#8]).length := by rw [List.length_append]; rfl
        rw [if_pos hwhite, hset, hlen, ih, List.takeWhile_cons_of_pos hwhite, List.dropWhile_cons_of_pos hwhite, ← hlen,
          List.length_cons, List.replicate_succ]
        simp only [List.append_assoc, List.cons_append, List.nil_append, Nat.add_assoc, Nat.add_comm 1]
      · rw [if_neg hwhite, List.takeWhile_cons_of_neg hwhite, List.dropWhile_cons_of_neg hwhite]
        rfl

/-- The end of a word is where the first character is that is not part of one. -/
theorem wordEnd_eq (pre r : List (BitVec 8)) (hr : 0#8 ∉ r) :
    wordEnd (pre ++ r ++ [0#8]) pre.length = some (pre.length + (r.takeWhile shPlain).length) := by
  induction r generalizing pre with
  | nil =>
    rw [wordEnd]
    split
    · next h =>
      rw [List.append_nil, get_mid] at h
      cases h
    · next c h =>
      rw [List.append_nil, get_mid] at h
      cases h
      rw [if_neg fun h0 => h0.1 rfl]
      rfl
  | cons c r ih =>
    have hget : (pre ++ c :: r ++ [0#8])[pre.length]? = some c := by
      rw [List.append_assoc]
      exact get_mid pre (r ++ [0#8]) c
    have hc : c ≠ 0#8 := fun h => hr (h ▸ List.mem_cons_self)
    have hiff : (c ≠ 0#8 ∧ ¬ strchr (whitespace ++ symbols) c = true) ↔ shPlain c = true := by
      unfold shPlain plain
      rw [strchr_append]
      cases strchr whitespace c <;> cases strchr symbols c <;> simp [hc]
    rw [wordEnd]
    split
    · next h =>
      rw [hget] at h
      cases h
    · next c' h =>
      rw [hget] at h
      cases h
      by_cases hplain : shPlain c = true
      · have hmem : pre ++ c :: r ++ [0#8] = (pre ++ [c]) ++ r ++ [0#8] := by simp
        have hlen : pre.length + 1 = (pre ++ [c]).length := by rw [List.length_append]; rfl
        rw [if_pos (hiff.mpr hplain), hmem, hlen, ih _ fun h => hr (List.mem_cons_of_mem _ h),
          List.takeWhile_cons_of_pos hplain, ← hlen, List.length_cons, Nat.add_assoc, Nat.add_comm 1]
      · rw [if_neg fun h => hplain (hiff.mp h), List.takeWhile_cons_of_neg hplain]
        rfl

end Scan

/-- What the variables hold when these tokens are still to be returned. -/
inductive Ahead (sh : Sh) : List (Token (BitVec 8)) → Prop
  | done (hnc : sh.nc = 0#8) (hnp2 : sh.np2 = none) : Ahead sh []
  | sym {c : BitVec 8} {pre rest : List (BitVec 8)} (hnc : sh.nc = c) (hnp2 : sh.np2 = some pre.length)
      (hmem : sh.mem = pre ++ rest ++ [0#8]) (hc : strchr symbols c = true) (hrest : 0#8 ∉ rest) : Ahead sh (.sym c :: shTokens rest)
  -- the word is not terminated yet
  | word {w pre rest : List (BitVec 8)} (hnc : sh.nc = 0x77#8) (hnp1 : sh.np1 = some pre.length)
      (hnp2 : sh.np2 = some (pre ++ w).length) (hmem : sh.mem = pre ++ w ++ rest ++ [0#8]) (hw : 0#8 ∉ w) (hrest : 0#8 ∉ rest)
      (hend : ∀ c ∈ rest.head?, shPlain c = false) : Ahead sh (.word w :: shTokens rest)

/-- What a look at the rest of the line does. -/
structure Looked (pre r : List (BitVec 8)) (sh : Sh) : Prop where
  ahead : Ahead sh (shTokens r)
  kept : pre <+: sh.mem
  length : sh.mem.length = pre.length + r.length + 1
  nul : (∀ c ∈ r.head?, shPlain c = false) → sh.mem[pre.length]? = some 0#8
  next : ∀ q, sh.np2 = some q → pre.length < q

section Tokens

variable {sh sh' : Sh} {pre r w : List (BitVec 8)} {t : ℕ} {l : List (BitVec 8)}

theorem notMem_of_suffix {r r' : List (BitVec 8)} (h : 0#8 ∉ r) (hs : r' <:+ r) : 0#8 ∉ r' := fun hmem => h (hs.subset hmem)

theorem gettokenFrom_spec (hr : 0#8 ∉ r) (hmem : sh.mem = pre ++ r ++ [0#8]) :
    ∃ sh', gettokenFrom (some pre.length) sh = some sh' ∧ Looked pre r sh' := by
  have hskip := skipWhite_eq pre r
  have hsplit := congrArg List.length (List.takeWhile_append_dropWhile (p := strchr whitespace) (l := r))
  have htokens : shTokens (r.dropWhile (strchr whitespace)) = shTokens r := tokens_dropWhile r
  have hnul := notMem_of_suffix hr (List.dropWhile_suffix (strchr whitespace))
  -- the white space that is skipped begins with the first character, or there is none
  have hfront : r.takeWhile (strchr whitespace) = [] → r.dropWhile (strchr whitespace) = r := by
    intro hnil
    have happ := List.takeWhile_append_dropWhile (p := strchr whitespace) (l := r)
    rwa [hnil] at happ
  have hfirst := List.head?_dropWhile_not (strchr whitespace) r
  rw [← hmem] at hskip
  rw [List.length_append] at hsplit
  generalize (r.takeWhile (strchr whitespace)) = ws at *
  generalize (r.dropWhile (strchr whitespace)) = r' at *
  generalize hbase : pre ++ List.replicate ws.length 0#8 = base
  have hlen : base.length = pre.length + ws.length := by
    rw [← hbase, List.length_append, List.length_replicate]
  have hkept (post : List (BitVec 8)) : pre <+: base ++ post := by
    rw [← hbase, List.append_assoc]
    exact List.prefix_append _ _
  have hmem' : pre ++ (List.replicate ws.length 0#8 ++ r') ++ [0#8] = base ++ (r' ++ [0#8]) := by
    rw [← hbase]
    simp only [List.append_assoc]
  have hzero (hws : ws ≠ []) (post : List (BitVec 8)) : (base ++ post)[pre.length]? = some 0#8 := by
    obtain ⟨x, xs, rfl⟩ := List.exists_cons_of_ne_nil hws
    rw [← hbase, List.length_cons, List.replicate_succ, List.append_assoc, List.cons_append]
    exact get_mid _ _ _
  have hstart (hws : ws = []) : base = pre := by
    rw [← hbase, hws]
    exact List.append_nil pre
  rw [hmem', ← hlen] at hskip
  unfold gettokenFrom
  dsimp only
  rw [hskip]
  cases r' with
  | nil =>
    have hget : (base ++ ([] ++ [0#8]))[base.length]? = some 0#8 := get_mid _ _ _
    refine ⟨⟨0#8, none, none, base ++ ([] ++ [0#8])⟩, ?_, ?_⟩
    · dsimp only [Option.bind_eq_bind, Option.bind_some]
      rw [hget]
      rfl
    · constructor
      · rw [← htokens]
        unfold shTokens
        rw [tokens_nil]
        exact .done rfl rfl
      · exact hkept _
      · change (base ++ ([] ++ [0#8])).length = _
        rw [List.length_append, hlen, ← hsplit]
        rfl
      · intro _
        by_cases hws : ws = []
        · rw [hstart hws]
          exact get_mid _ _ _
        · exact hzero hws _
      · exact fun q hq => nomatch hq
  | cons c cs =>
    have hc : c ≠ 0#8 := fun h => hnul (h ▸ List.mem_cons_self)
    have hwhite : strchr whitespace c = false := hfirst
    have hget : (base ++ (c :: cs ++ [0#8]))[base.length]? = some c := get_mid _ _ _
    have hcs : 0#8 ∉ cs := fun h => hnul (List.mem_cons_of_mem _ h)
    dsimp only [Option.bind_eq_bind, Option.bind_some]
    rw [hget]
    dsimp only [Option.bind_some]
    rw [if_neg hc]
    by_cases hsym : strchr symbols c = true
    · rw [if_pos hsym]
      refine ⟨_, rfl, ?_⟩
      have hset : (base ++ (c :: cs ++ [0#8])).set base.length 0#8 = base ++ (0#8 :: cs ++ [0#8]) := set_mid _ _ _ _
      rw [hset]
      constructor
      · rw [← htokens]
        unfold shTokens
        rw [tokens_sym hwhite hsym]
        refine @Ahead.sym _ c (base ++ [0#8]) cs rfl ?_ ?_ hsym hcs
        · rw [List.length_append]
          rfl
        · simp only [List.append_assoc, List.cons_append, List.nil_append]
      · exact hkept _
      · change (base ++ (0#8 :: cs ++ [0#8])).length = _
        simp only [List.length_append, List.length_cons, List.length_nil] at hsplit ⊢
        omega
      · intro _
        by_cases hws : ws = []
        · rw [hstart hws]
          exact get_mid _ _ _
        · exact hzero hws _
      · intro q hq
        obtain rfl : base.length + 1 = q := Option.some.inj hq
        omega
    · have hsym' : strchr symbols c = false := Bool.eq_false_of_not_eq_true hsym
      have hplain : shPlain c = true := by
        unfold shPlain plain
        rw [hwhite, hsym']
        rfl
      have hword := wordEnd_eq base (c :: cs) hnul
      rw [List.append_assoc] at hword
      rw [if_neg hsym, hword]
      refine ⟨_, rfl, ?_⟩
      have happ := List.takeWhile_append_dropWhile (p := shPlain) (l := c :: cs)
      constructor
      · rw [← htokens]
        unfold shTokens
        rw [tokens_word hwhite hsym']
        refine @Ahead.word _ _ base _ rfl rfl ?_ ?_ (fun h => hnul (List.takeWhile_subset _ h))
          (notMem_of_suffix hnul (List.dropWhile_suffix _)) ?_
        · rw [List.length_append]
        · change base ++ (c :: cs ++ [0#8]) = _
          rw [List.append_assoc base, happ, List.append_assoc]
        · intro d hd
          have hhead := List.head?_dropWhile_not shPlain (c :: cs)
          rw [Option.mem_def.mp hd] at hhead
          exact hhead
      · exact hkept _
      · change (base ++ (c :: cs ++ [0#8])).length = _
        simp only [List.length_append, List.length_cons, List.length_nil] at hsplit ⊢
        omega
      · intro hnot
        by_cases hws : ws = []
        · rw [← hfront hws] at hnot
          have hno := hnot c rfl
          rw [hplain] at hno
          cases hno
        · exact hzero hws _
      · intro q hq
        obtain rfl := Option.some.inj hq
        rw [List.takeWhile_cons_of_pos hplain, List.length_cons]
        omega

theorem HasString.kept {mem mem' : List (BitVec 8)} (h : HasString mem t w) (hpre : pre <+: mem) (hpre' : pre <+: mem')
    (hlen : t + w.length < pre.length) : HasString mem' t w := by
  obtain ⟨post, rfl⟩ := hpre
  obtain ⟨post', rfl⟩ := hpre'
  have hdrop (post : List (BitVec 8)) : (pre ++ post).drop t = pre.drop t ++ post :=
    List.drop_append_of_le_length (by omega)
  unfold HasString at *
  rw [hdrop] at *
  have hle : (w ++ [0#8]).length ≤ (pre.drop t).length := by
    rw [List.length_append, List.length_drop]
    change w.length + 1 ≤ _
    omega
  exact (List.prefix_of_prefix_length_le h (List.prefix_append _ _) hle).trans (List.prefix_append _ _)

/-- A word that is followed by a NUL. -/
theorem hasString_of_nul {mem : List (BitVec 8)} (hpre : pre ++ w <+: mem) (hnul : mem[(pre ++ w).length]? = some 0#8) :
    HasString mem pre.length w := by
  obtain ⟨post, rfl⟩ := hpre
  cases post with
  | nil =>
    rw [List.append_nil, List.getElem?_eq_none (Nat.le_refl _)] at hnul
    cases hnul
  | cons c post =>
    rw [get_mid] at hnul
    obtain rfl := Option.some.inj hnul
    unfold HasString
    rw [List.append_assoc, List.drop_left]
    exact ⟨post, by simp only [List.append_assoc, List.cons_append, List.nil_append]⟩

/-- A word that has been returned; what is still to be looked at is behind it. -/
structure Held (sh : Sh) (t : ℕ) (w : List (BitVec 8)) : Prop where
  noNul : 0#8 ∉ w
  string : HasString sh.mem t w
  before : ∀ q, sh.np2 = some q → t + w.length < q

/-- What a call returns when these tokens are ahead, and what it leaves. -/
structure Next (sh : Sh) (toks : List (Token (BitVec 8))) (r : BitVec 8 × Option ℕ) (sh' : Sh) : Prop where
  ahead : Ahead sh' toks.tail
  id : r.1 = toks.head?.elim 0#8 Token.id
  length : sh'.mem.length = sh.mem.length
  word : ∀ w, toks.head? = some (.word w) → ∃ t, r.2 = some t ∧ Held sh' t w
  kept : ∀ t w, Held sh t w → Held sh' t w

/-- The words that have been returned before are left alone. -/
theorem Held.looked {rest : List (BitVec 8)} (h : Held sh t w) (hnp2 : sh.np2 = some pre.length)
    (hmem : sh.mem = pre ++ rest ++ [0#8]) (hlook : Looked pre rest sh') : Held sh' t w := by
  have hlt := h.before _ hnp2
  constructor
  · exact h.noNul
  · apply h.string.kept _ hlook.kept hlt
    rw [hmem, List.append_assoc]
    exact List.prefix_append _ _
  · intro q hq
    have hq' := hlook.next q hq
    omega

/-- One call. -/
theorem Ahead.next {toks : List (Token (BitVec 8))} (h : Ahead sh toks) :
    ∃ r sh', gettoken sh = some (r, sh') ∧ Next sh toks r sh' := by
  unfold gettoken
  cases h with
  | done hnc hnp2 =>
    rw [hnp2]
    exact ⟨_, _, rfl, .done rfl hnp2, hnc, rfl, nofun, fun t w h => ⟨h.noNul, h.string, h.before⟩⟩
  | @sym c pre rest hnc hnp2 hmem hc hrest =>
    obtain ⟨sh', hrun, hlook⟩ := gettokenFrom_spec hrest hmem
    rw [hnp2, hrun]
    refine ⟨_, _, rfl, hlook.ahead, hnc, ?_, nofun, fun t w h => h.looked hnp2 hmem hlook⟩
    rw [hlook.length, hmem]
    simp only [List.length_append, List.length_singleton]
  | @word w pre rest hnc hnp1 hnp2 hmem hw hrest hend =>
    obtain ⟨sh', hrun, hlook⟩ := gettokenFrom_spec hrest hmem
    rw [hnp2, hrun]
    refine ⟨_, _, rfl, hlook.ahead, hnc, ?_, fun w' hw' => ?_, fun t w h => h.looked hnp2 hmem hlook⟩
    · rw [hlook.length, hmem]
      simp only [List.length_append, List.length_singleton]
    · -- the word has got its NUL now
      obtain rfl : w = w' := Token.word.inj (Option.some.inj hw')
      refine ⟨pre.length, hnp1, hw, hasString_of_nul hlook.kept (hlook.nul hend), ?_⟩
      intro q hq
      have hq' := hlook.next q hq
      rw [List.length_append] at hq'
      exact hq'

/-- After `k` calls: the tokens that are still to come, what has been returned, and the words. -/
structure Tokenized (l : List (BitVec 8)) (k : ℕ) (rs : List (BitVec 8 × Option ℕ)) (sh : Sh) : Prop where
  ahead : Ahead sh ((shTokens l).drop k)
  ids : rs.map Prod.fst = (List.range k).map fun j => ((shTokens l)[j]?).elim 0#8 Token.id
  length : sh.mem.length = l.length + 1
  words : ∀ j w, j < k → (shTokens l)[j]? = some (.word w) → ∃ t, rs[j]? = some (0x77#8, some t) ∧ Held sh t w

/-- One more call. -/
theorem Tokenized.next {k : ℕ} {rs : List (BitVec 8 × Option ℕ)} (h : Tokenized l k rs sh) :
    ∃ r sh', gettoken sh = some (r, sh') ∧ Tokenized l (k + 1) (rs ++ [r]) sh' := by
  have hrs : rs.length = k := by
    have hlen := congrArg List.length h.ids
    rwa [List.length_map, List.length_map, List.length_range] at hlen
  have hhead : ((shTokens l).drop k).head? = (shTokens l)[k]? := List.head?_drop
  obtain ⟨r, sh', hrun, hnext⟩ := h.ahead.next
  refine ⟨r, sh', hrun, ?_⟩
  constructor
  · rw [← List.tail_drop]
    exact hnext.ahead
  · rw [List.map_append, h.ids, List.range_succ, List.map_append, List.map_singleton, List.map_singleton, hnext.id, hhead]
  · rw [hnext.length, h.length]
  · intro j w hj hw
    rcases Nat.lt_succ_iff_lt_or_eq.mp hj with hlt | rfl
    · obtain ⟨t, hrj, hheld⟩ := h.words j w hlt hw
      refine ⟨t, ?_, hnext.kept t w hheld⟩
      rw [List.getElem?_append_left (by omega)]
      exact hrj
    · have hid : r.1 = 0x77#8 := by
        rw [hnext.id, hhead, hw]
        rfl
      obtain ⟨t, ht, hheld⟩ := hnext.word w (by rw [hhead, hw])
      refine ⟨t, ?_, hheld⟩
      rw [List.getElem?_append_right (by omega), hrs, Nat.sub_self, List.getElem?_cons_zero, ← ht, ← hid]

/-- Any number of calls. -/
theorem gettokens_spec (h : Tokenized l 0 [] sh) (k : ℕ) : ∃ rs sh', gettokens k sh = some (rs, sh') ∧ Tokenized l k rs sh' := by
  induction k with
  | zero => exact ⟨[], sh, rfl, h⟩
  | succ k ih =>
    obtain ⟨rs, sh₁, hrun, htok⟩ := ih
    obtain ⟨r, sh', hnext, htok'⟩ := htok.next
    refine ⟨rs ++ [r], sh', ?_, htok'⟩
    rw [gettokens, hrun]
    dsimp only [Option.bind_eq_bind, Option.bind_some]
    rw [hnext]
    rfl

theorem gettoken_start (hl : 0#8 ∉ l) (sh : Sh) : ∃ sh', gettokenFrom (some 0) { sh with mem := l ++ [0#8] } = some sh' ∧
    Tokenized l 0 [] sh' := by
  obtain ⟨sh', hrun, hlook⟩ := @gettokenFrom_spec { sh with mem := l ++ [0#8] } [] l hl rfl
  refine ⟨sh', hrun, hlook.ahead, rfl, ?_, fun j w hj => absurd hj (Nat.not_lt_zero j)⟩
  rw [hlook.length, List.length_nil, Nat.zero_add]

/-- The calls return the tokens of the line and then 0, and every word that they have returned is
there with a NUL behind it. -/
theorem gettoken_tokens (hl : 0#8 ∉ l) (sh : Sh) : ∃ sh₀, gettokenFrom (some 0) { sh with mem := l ++ [0#8] } = some sh₀ ∧
    ∀ k, ∃ rs sh', gettokens k sh₀ = some (rs, sh') ∧ sh'.mem.length = l.length + 1 ∧
      rs.map Prod.fst = (List.range k).map (fun j => ((shTokens l)[j]?).elim 0#8 Token.id) ∧
      ∀ j w, j < k → (shTokens l)[j]? = some (.word w) →
        ∃ t, rs[j]? = some (0x77#8, some t) ∧ HasString sh'.mem t w := by
  obtain ⟨sh₀, hrun, htok⟩ := gettoken_start hl sh
  refine ⟨sh₀, hrun, fun k => ?_⟩
  obtain ⟨rs, sh', hrun', htok'⟩ := gettokens_spec htok k
  refine ⟨rs, sh', hrun', htok'.length, htok'.ids, fun j w hj hw => ?_⟩
  obtain ⟨t, hrj, hheld⟩ := htok'.words j w hj hw
  exact ⟨t, hrj, hheld.string⟩

/-- The line `a|b`. -/
theorem gettoken_pipe : ∃ sh₀ rs sh', gettokenFrom (some 0) ⟨0#8, none, none, [0x61#8, 0x7c#8, 0x62#8, 0#8]⟩ = some sh₀ ∧
    gettokens 4 sh₀ = some (rs, sh') ∧ rs.map Prod.fst = [0x77#8, 0x7c#8, 0x77#8, 0#8] ∧
    ∃ t, rs[0]? = some (0x77#8, some t) ∧ HasString sh'.mem t [0x61#8] := by
  have htokens : shTokens [0x61#8, 0x7c#8, 0x62#8] = [.word [0x61#8], .sym 0x7c#8, .word [0x62#8]] := by decide +kernel
  obtain ⟨sh₀, hstart, hruns⟩ := gettoken_tokens (show 0#8 ∉ [0x61#8, 0x7c#8, 0x62#8] by decide) ⟨0#8, none, none, []⟩
  obtain ⟨rs, sh', hrun, -, hids, hwords⟩ := hruns 4
  rw [htokens] at hids hwords
  exact ⟨sh₀, rs, sh', hstart, hrun, hids, hwords 0 [0x61#8] (by decide) rfl⟩

end Tokens

end Sisop
