import Sisop.PrimeFlow

/-! What `user/primes.c` prints. -/
namespace Sisop

section Numbers

variable {p q r value : Word} {xs ins l : List Word} {outs : Word → List Word} {pc : PrimePc}

theorem msb_of_lt (h : p.toNat < 2 ^ 31) : p.msb = false := by
  rw [BitVec.msb_eq_false_iff_two_mul_lt]
  omega

theorem srem_ne_zero (hp : p.toNat < 2 ^ 31) (hq : q.toNat < 2 ^ 31) : q.srem p ≠ 0#32 ↔ q.toNat % p.toNat ≠ 0 := by
  have hmod : (q.srem p).toNat = q.toNat % p.toNat := by
    rw [BitVec.toNat_srem, msb_of_lt hp, msb_of_lt hq]
  rw [← hmod, not_iff_not]
  exact ⟨fun h => by rw [h]; rfl, fun h => BitVec.eq_of_toNat_eq h⟩

/-- On numbers below `2 ^ 31`, signed remainders sift like those of the naturals. -/
theorem through_toNat (hp : p.toNat < 2 ^ 31) (hxs : ∀ x ∈ xs, x.toNat < 2 ^ 31) :
    (through p xs).map BitVec.toNat = sift p.toNat (xs.map BitVec.toNat) := by
  unfold through sift
  rw [List.filter_map]
  congr 1
  refine List.filter_congr fun x hx => ?_
  exact decide_eq_decide.mpr (srem_ne_zero hp (hxs x hx))

/-- What the neighbours of a process have to do with each other. -/
theorem PrimePc.Fits.passes (h : pc.Fits ins outs) (hr : pc.right = some r) :
    ∃ p xs, ins = p :: xs ∧ outs r <+: through p xs ∧ ∀ value, pc.Posts r value → outs r ++ [value] <+: through p xs := by
  induction pc with
  | panicked pc ih =>
    obtain ⟨p, xs, hins, hsent, -⟩ := ih h hr
    exact ⟨p, xs, hins, hsent, fun _ hp => hp.elim⟩
  | loop p right =>
    obtain rfl := Option.some.inj hr
    obtain ⟨xs, rfl, hsent⟩ := h
    exact ⟨p, xs, rfl, hsent ▸ List.prefix_refl _, fun _ hp => hp.elim⟩
  | receiving p right =>
    obtain rfl := Option.some.inj hr
    obtain ⟨xs, rfl, hsent⟩ := h
    exact ⟨p, xs, rfl, hsent ▸ List.prefix_refl _, fun _ hp => hp.elim⟩
  | got p right i =>
    obtain rfl := Option.some.inj hr
    obtain ⟨xs, rfl, hsent⟩ := h
    refine ⟨p, xs ++ [i], rfl, ?_, fun _ hp => hp.elim⟩
    rw [hsent]
    exact (List.prefix_append xs [i]).filter _
  | sending p right i =>
    obtain rfl := Option.some.inj hr
    obtain ⟨xs, rfl, hsent, hd⟩ := h
    refine ⟨p, xs ++ [i], rfl, ?_, fun value hp => ?_⟩
    · rw [hsent, through_keep xs hd]
      exact List.prefix_append _ _
    · rw [hsent, through_keep xs hd, hp.2]
  | top | fetching | fetched | printed => cases hr
  | absent | start | feed | feeding => exact h.elim

/-- The first number that a process receives is the one of its line. -/
theorem PrimePc.Fits.first (h : pc.Fits ins outs) (hs : pc.shown = some p) : ins.head? = some p := by
  induction pc with
  | panicked pc ih => exact ih h hs
  | printed p =>
    rw [← hs, show ins = [p] from h]
    rfl
  | loop p right | receiving p right | got p right i =>
    obtain ⟨xs, rfl, -⟩ := h
    exact hs
  | sending p right i =>
    obtain ⟨xs, rfl, -, -⟩ := h
    exact hs
  | top | fetching | fetched => cases hs
  | absent | start | feed | feeding => exact h.elim

theorem mem_through (hq : q ∈ xs) (hd : q.srem p ≠ 0#32) : q ∈ through p xs := List.mem_filter.mpr ⟨hq, decide_eq_true hd⟩

/-- A number that a process has received is the one of its line, is still there or has been sent on, if it is no multiple. -/
theorem PrimePc.Fits.kept (h : pc.Fits ins outs) (hq : q ∈ ins) (hd : ∀ p ∈ ins.head?, q ≠ p → q.srem p ≠ 0#32) :
    pc.shown = some q ∨ pc.held = some q ∨ ∃ r, pc.right = some r ∧ q ∈ outs r := by
  induction pc with
  | panicked pc ih => exact ih h
  | fetched p =>
    rw [show ins = [p] from h, List.mem_singleton] at hq
    rw [hq]
    exact Or.inr (Or.inl rfl)
  | printed p =>
    rw [show ins = [p] from h, List.mem_singleton] at hq
    rw [hq]
    exact Or.inl rfl
  | loop p right | receiving p right =>
    obtain ⟨xs, rfl, hsent⟩ := h
    by_cases hqp : q = p
    · rw [hqp]
      exact Or.inl rfl
    · have hx : q ∈ xs := (List.mem_cons.mp hq).resolve_left hqp
      exact Or.inr (Or.inr ⟨right, rfl, hsent ▸ mem_through hx (hd p rfl hqp)⟩)
  | got p right i =>
    obtain ⟨xs, rfl, hsent⟩ := h
    by_cases hqp : q = p
    · rw [hqp]
      exact Or.inl rfl
    rcases List.mem_append.mp ((List.mem_cons.mp hq).resolve_left hqp) with hx | hi
    · exact Or.inr (Or.inr ⟨right, rfl, hsent ▸ mem_through hx (hd p rfl hqp)⟩)
    · exact Or.inr (Or.inl (congrArg some (List.mem_singleton.mp hi).symm))
  | sending p right i =>
    obtain ⟨xs, rfl, hsent, -⟩ := h
    by_cases hqp : q = p
    · rw [hqp]
      exact Or.inl rfl
    rcases List.mem_append.mp ((List.mem_cons.mp hq).resolve_left hqp) with hx | hi
    · exact Or.inr (Or.inr ⟨right, rfl, hsent ▸ mem_through hx (hd p rfl hqp)⟩)
    · exact Or.inr (Or.inl (congrArg some (List.mem_singleton.mp hi).symm))
  | top | fetching =>
    rw [show ins = [] from h] at hq
    cases hq
  | absent | start | feed | feeding => exact h.elim

theorem PrimePc.Feeds.bounds (h : pc.Feeds outs) : 2 ≤ pc.next.toNat ∧ pc.next.toNat < 2 ^ 31 := by
  induction pc with
  | panicked pc ih => exact ih h
  | feed right i | feeding right i => exact ⟨h.1, h.2.1⟩
  | start => decide
  | absent | top | fetching | fetched | printed | loop | receiving | got | sending => exact h.elim

/-- What `umain` has sent when it has come to `next`. -/
theorem PrimePc.Feeds.sent (h : pc.Feeds outs) (hr : pc.right = some r) :
    outs r = (List.range' 2 (pc.next.toNat - 2)).map (BitVec.ofNat 32) ∧ ∀ value, pc.Posts r value → value = pc.next := by
  induction pc with
  | panicked pc ih => exact ⟨(ih h hr).1, fun _ hp => hp.elim⟩
  | feed right i =>
    obtain rfl := Option.some.inj hr
    exact ⟨h.2.2, fun _ hp => hp.elim⟩
  | feeding right i =>
    obtain rfl := Option.some.inj hr
    exact ⟨h.2.2, fun _ hp => hp.2⟩
  | start => cases hr
  | absent | top | fetching | fetched | printed | loop | receiving | got | sending => exact h.elim

theorem PrimePc.Feeds.next_two (h : pc.Feeds outs) (hr : pc.right = none) : pc.next = 2#32 := by
  induction pc with
  | panicked pc ih => exact ih h hr
  | feed | feeding => cases hr
  | start => rfl
  | absent | top | fetching | fetched | printed | loop | receiving | got | sending => exact h.elim

end Numbers

/-- The process `a` has the number `q`, or the kernel has it for `a`. -/
def PrimesWorld.Carries (w : PrimesWorld) (a q : Word) : Prop := (w.prog a).held = some q ∨ ∃ l, q ∈ w.ipc.incoming l a

section Lines

variable {Ours : Word → Prop} {M : Word} {w : PrimesWorld} {a b q : Word} {k : ℕ} {l : List Word}

/-- A process has received no more than its left neighbour has sent. -/
theorem PrimesInv.received (h : PrimesInv Ours M w) (hr : (w.prog a).right = some b) (hsent : valuesOf w.ipc.sends a b <+: l)
    (hposts : ∀ value, (w.prog a).Posts b value → valuesOf w.ipc.sends a b ++ [value] <+: l) : valuesOf w.ipc.recvs a b <+: l := by
  have hbal := h.kern.ipc.balanced a b
  have hall : valuesOf w.ipc.sends a b ++ w.ipc.outgoing a b <+: l := by
    -- at most one message is under way, the one that `a` is sending
    obtain hnone | ⟨value, hout, hid, hjob⟩ := outgoing_job w.ipc a b
    · rw [hnone, List.append_nil]
      exact hsent
    · rw [hout]
      refine hposts value ?_
      have hok := h.kern.job (envx a)
      rw [hjob, hid] at hok
      by_cases ha : Ours a
      · exact hok.1 ha
      · exact absurd (h.right_ours hr) (hok.2 ha)
  rw [hbal] at hall
  exact (List.prefix_append _ _).trans hall

/-- The stream of numbers gets through one round of the sieve at each process. -/
theorem PrimesInv.stream (h : PrimesInv Ours M w) : ∀ {k a b}, w.chain[k]? = some a → w.chain[k + 1]? = some b →
    (valuesOf w.ipc.recvs a b).map BitVec.toNat <+: sifted^[k] (List.range' 2 ((w.prog M).next.toNat + 1 - 2)) := by
  intro k
  induction k with
  | zero =>
    intro a b ha hb
    obtain rfl : M = a := Option.some.inj (h.chain.head.symm.trans ha)
    have hr := (h.chain.links 0 M ha).trans hb
    obtain ⟨htwo, hlt⟩ := h.flow.feeds.bounds
    obtain ⟨hsent, hposts⟩ := h.flow.feeds.sent hr
    -- none of the numbers wraps around
    have hmap : ((List.range' 2 ((w.prog M).next.toNat + 1 - 2)).map (BitVec.ofNat 32)).map BitVec.toNat =
        List.range' 2 ((w.prog M).next.toNat + 1 - 2) := by
      rw [List.map_map]
      refine (List.map_congr_left fun x hx => ?_).trans (List.map_id _)
      have hx := (List.mem_range'_1.mp hx).2
      exact Nat.mod_eq_of_lt (by omega)
    have hend : (List.range' 2 ((w.prog M).next.toNat + 1 - 2)).map (BitVec.ofNat 32) =
        (List.range' 2 ((w.prog M).next.toNat - 2)).map (BitVec.ofNat 32) ++ [(w.prog M).next] := by
      rw [show (w.prog M).next.toNat + 1 - 2 = (w.prog M).next.toNat - 2 + 1 by omega, List.range'_1_concat, List.map_append,
        Nat.add_sub_cancel' htwo]
      exact congrArg (fun x => _ ++ [x]) (ofNat_word_toNat _)
    have hrecv := h.received hr (l := (List.range' 2 ((w.prog M).next.toNat + 1 - 2)).map (BitVec.ofNat 32))
      (by rw [hend, hsent]; exact List.prefix_append _ _) fun value hp => by rw [hend, hsent, hposts value hp]
    have := hrecv.map BitVec.toNat
    rwa [hmap] at this
  | succ k ih =>
    intro a b ha hb
    have hlt : k < w.chain.length := Nat.lt_of_succ_lt (List.getElem?_eq_some_iff.mp ha).1
    have hleft : w.chain[k]? = some w.chain[k] := List.getElem?_eq_getElem hlt
    have hr := (h.chain.links (k + 1) a ha).trans hb
    -- `a` has received what its left neighbour lets through, and lets some of it through
    have hins := ih hleft ha
    obtain ⟨p, xs, hcons, hsent, hposts⟩ := (h.flow.fits _ a ((h.chain.links k _ hleft).trans ha)).passes hr
    have hrecv := (h.received hr hsent hposts).map BitVec.toNat
    rw [hcons] at hins
    -- nothing that is under way comes near the sign bit
    have hsmall : ∀ x ∈ p :: xs, x.toNat < 2 ^ 31 := by
      intro x hx
      have hmem := (iterate_sifted_sublist k _).subset (hins.subset (List.mem_map_of_mem hx))
      have hnext := h.flow.feeds.bounds.2
      have := (List.mem_range'_1.mp hmem).2
      omega
    rw [through_toNat (hsmall p List.mem_cons_self) fun x hx => hsmall x (List.mem_cons_of_mem _ hx)] at hrecv
    rw [Function.iterate_succ_apply']
    exact hrecv.trans (sifted_mono hins)

/-- The line of the process behind `k` others is the prime of that place. -/
theorem PrimesInv.line (h : PrimesInv Ours M w) {p : Word} (hk : w.out[k]? = some (b, p)) :
    w.chain[k + 1]? = some b ∧ ((List.range ((w.prog M).next.toNat + 1)).filter fun x => decide x.Prime)[k]? = some p.toNat := by
  rw [h.chain.out k] at hk
  obtain ⟨b', hb, hshown⟩ := Option.bind_eq_some_iff.mp hk
  obtain ⟨p', hp, heq⟩ := Option.map_eq_some_iff.mp hshown
  obtain ⟨rfl, rfl⟩ := Prod.ext_iff.mp heq
  refine ⟨hb, ?_⟩
  have hlt : k < w.chain.length := Nat.lt_of_succ_lt (List.getElem?_eq_some_iff.mp hb).1
  have hleft : w.chain[k]? = some w.chain[k] := List.getElem?_eq_getElem hlt
  have hfirst := (h.flow.fits _ _ ((h.chain.links k _ hleft).trans hb)).first hp
  obtain ⟨xs, hcons⟩ := List.head?_eq_some_iff.mp hfirst
  -- the line shows the head of the stream, which is the prime that the sieve keeps
  have hstream := h.stream hleft hb
  rw [hcons] at hstream
  obtain ⟨ys, hys⟩ := hstream
  rw [← sieve_range, sieve_getElem?, ← hys]
  rfl

/-- Every prime that has been sent into a process is printed from there on, or is under way. -/
theorem PrimesInv.kept (h : PrimesInv Ours M w) (hq : q.toNat.Prime) (hlt : q.toNat < 2 ^ 31) (n : ℕ) : ∀ {k a b},
    w.chain.length = k + 1 + n → w.chain[k]? = some a → w.chain[k + 1]? = some b → q ∈ valuesOf w.ipc.sends a b →
    q ∈ w.out.map Prod.snd ∨ ∃ x ∈ w.chain, w.Carries x q := by
  induction n with
  | zero =>
    intro k a b hlen _ hb _
    rw [List.getElem?_eq_none (by omega)] at hb
    cases hb
  | succ n ih =>
    intro k a b hlen ha hb hmem
    have hr := (h.chain.links k a ha).trans hb
    have hbmem : b ∈ w.chain := List.mem_iff_getElem?.mpr ⟨k + 1, hb⟩
    have hbal : q ∈ valuesOf w.ipc.recvs a b ++ w.ipc.incoming a b := by
      rw [← h.kern.ipc.balanced a b]
      exact List.mem_append_left _ hmem
    -- `b` has received the number, or the kernel still has it
    rcases List.mem_append.mp hbal with hrecv | hin
    · have hnot : ∀ p ∈ (valuesOf w.ipc.recvs a b).head?, q ≠ p → q.srem p ≠ 0#32 := by
        intro p hp hne
        have hstream := h.stream ha hb
        have hpmem := hstream.subset (List.mem_map_of_mem (List.mem_of_mem_head? hp))
        have hrange := List.mem_range'_1.mp ((iterate_sifted_sublist k _).subset hpmem)
        have hnext := h.flow.feeds.bounds.2
        -- a prime is a multiple of no other number of the stream
        refine (srem_ne_zero (by omega) hlt).mpr (prime_mod_ne_zero hq hrange.1 fun heq => hne (BitVec.eq_of_toNat_eq heq))
      obtain hshown | hheld | ⟨r, hright, hsent⟩ := (h.flow.fits a b hr).kept hrecv hnot
      · refine Or.inl (List.mem_map.mpr ⟨(b, q), List.mem_iff_getElem?.mpr ⟨k, ?_⟩, rfl⟩)
        rw [h.chain.out k, hb]
        change Option.map _ (w.prog b).shown = _
        rw [hshown]
        rfl
      · exact Or.inr ⟨b, hbmem, Or.inl hheld⟩
      · -- it has gone on to the right, where the chain is shorter
        exact ih (by omega) hb ((h.chain.links (k + 1) b hb).symm.trans hright) hsent
    · exact Or.inr ⟨b, hbmem, Or.inr ⟨a, hin⟩⟩

end Lines
end Sisop
