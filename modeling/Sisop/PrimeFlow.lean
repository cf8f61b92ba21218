import Sisop.PrimeChain

/-! What the processes of `user/primes.c` have received and sent, in every run. -/
namespace Sisop

section Flow

variable {Ours : Word → Prop} {M a b : Word} {prog : Word → PrimePc} {pc : PrimePc} {i : IpcWorld} {s s' r r' : List (Word × Word × Word)}

/-- Messages between other environments do not count. -/
theorem FlowOk.congr (h : FlowOk Ours M prog s r) (hM : Ours M) (hright : ∀ x b, (prog x).right = some b → Ours b)
    (hs : ∀ x b, Ours x ∨ Ours b → valuesOf s' x b = valuesOf s x b) (hr : ∀ x b, Ours b → valuesOf r' x b = valuesOf r x b) :
    FlowOk Ours M prog s' r' := by
  have hsends {x : Word} (hx : Ours x) : valuesOf s' x = valuesOf s x := funext fun b => hs x b (Or.inl hx)
  refine ⟨?_, fun x b hb => ?_, fun x b hb hne => ?_⟩
  · rw [hsends hM]
    exact h.feeds
  · rw [hr x b (hright x b hb), hsends (hright x b hb)]
    exact h.fits x b hb
  · rw [hs x b (Or.inr hb)]
    exact h.foreign x b hb hne

/-- The process `a` goes on. -/
theorem FlowOk.move (h : FlowOk Ours M prog s r) (hright : pc.right = (prog a).right)
    (hs : ∀ x b, x ≠ a → valuesOf s' x b = valuesOf s x b) (hr : ∀ x b, b ≠ a → valuesOf r' x b = valuesOf r x b)
    (hfeeds : a = M → pc.Feeds (valuesOf s' a))
    (hfits : ∀ l, (prog l).right = some a → pc.Fits (valuesOf r' l a) (valuesOf s' a))
    (hforeign : ∀ b, Ours b → pc.right ≠ some b → valuesOf s' a b = []) : FlowOk Ours M (Function.update prog a pc) s' r' := by
  have hrt (x : Word) : (Function.update prog a pc x).right = (prog x).right := by
    by_cases hx : x = a
    · rw [hx, Function.update_self, hright]
    · rw [Function.update_of_ne hx]
  have hsends {x : Word} (hx : x ≠ a) : valuesOf s' x = valuesOf s x := funext fun b => hs x b hx
  refine ⟨?_, fun x b hb => ?_, fun x b hb hne => ?_⟩
  · by_cases hM : M = a
    · rw [hM, Function.update_self]
      exact hfeeds hM.symm
    · rw [Function.update_of_ne hM, hsends hM]
      exact h.feeds
  · rw [hrt] at hb
    by_cases hba : b = a
    · rw [hba] at hb ⊢
      rw [Function.update_self]
      exact hfits x hb
    · rw [Function.update_of_ne hba, hr x b hba, hsends hba]
      exact h.fits x b hb
  · by_cases hxa : x = a
    · rw [hxa, Function.update_self] at hne
      rw [hxa]
      exact hforeign b hb hne
    · rw [Function.update_of_ne hxa] at hne
      rw [hs x b hxa]
      exact h.foreign x b hb hne

/-- The process `a` goes on without a message. -/
theorem FlowOk.local (h : FlowOk Ours M prog s r) (hright : pc.right = (prog a).right)
    (hfeeds : (prog a).Feeds (valuesOf s a) → pc.Feeds (valuesOf s a))
    (hfits : ∀ ins, (prog a).Fits ins (valuesOf s a) → pc.Fits ins (valuesOf s a)) :
    FlowOk Ours M (Function.update prog a pc) s r := by
  refine h.move hright (fun _ _ _ => rfl) (fun _ _ _ => rfl) (fun hM => hfeeds ?_) (fun l hl => hfits _ (h.fits l a hl))
    fun b hb hne => h.foreign a b hb (hright ▸ hne)
  rw [hM]
  exact h.feeds

/-- A message of another process is under way only to its right neighbour. -/
theorem KernOk.outgoing (h : KernOk Ours i prog) (hb : Ours b) (hne : ∀ value, ¬ (prog a).Posts b value) : i.outgoing a b = [] := by
  obtain hnone | ⟨value, -, hid, hjob⟩ := outgoing_job i a b
  · exact hnone
  have hok := h.job (envx a)
  rw [hjob, hid] at hok
  by_cases ha : Ours a
  · exact absurd (hok.1 ha) (hne value)
  · exact absurd hb (hok.2 ha)

theorem PrimePc.posts_right {value : Word} (h : pc.Posts b value) : pc.right = some b := by
  cases pc with
  | feeding right i => exact congrArg some h.1.symm
  | sending p right i => exact congrArg some h.1.symm
  | absent | start | feed | top | fetching | fetched | printed | loop | receiving | got | panicked => exact h.elim

/-- What has come has come from the left. -/
theorem KernOk.nothing (h : KernOk Ours i prog) (hf : FlowOk Ours M prog i.sends i.recvs) (hb : Ours b) (hne : (prog a).right ≠ some b) :
    valuesOf i.recvs a b = [] ∧ i.incoming a b = [] := by
  -- what has been sent is what has come and what is under way
  have hbal := h.ipc.balanced a b
  rw [hf.foreign a b hb hne, h.outgoing hb fun value hp => hne (PrimePc.posts_right hp)] at hbal
  exact List.append_eq_nil_iff.mp hbal.symm

end Flow

section Steps

variable {Ours : Word → Prop} {M : Word} {w w' : PrimesWorld} {i' : IpcWorld} {e cur : EnvIdx} {c : ℕ} {pc : IpcPc} {ppc old : PrimePc}

theorem PrimesInv.ours {a : Word} (h : PrimesInv Ours M w) (hp : w.prog a = old) (ho : old ≠ .absent) : Ours a := by
  subst hp
  exact h.chain.ours a ((h.chain.mem a).mpr ho)

/-- Only `umain` feeds. -/
theorem PrimesInv.first {a : Word} (h : PrimesInv Ours M w) (hp : w.prog a = old) (ha : old ≠ .absent)
    (hno : ∀ ins outs, ¬ old.Fits ins outs) : a = M := by
  subst hp
  by_contra hM
  obtain ⟨l, hl⟩ := h.chain.left ha hM
  exact hno _ _ (h.flow.fits l a hl)

theorem PrimesInv.notFirst {a : Word} (h : PrimesInv Ours M w) (hp : w.prog a = old) (hno : ∀ outs, ¬ old.Feeds outs) : a ≠ M := by
  subst hp
  rintro rfl
  exact hno _ h.flow.feeds

theorem PrimesInv.head_ours (h : PrimesInv Ours M w) : Ours M := by
  have hmem : M ∈ w.chain := List.mem_iff_getElem?.mpr ⟨0, h.chain.head⟩
  exact h.chain.ours M hmem

theorem PrimesInv.right_ours (h : PrimesInv Ours M w) {a b : Word} (hr : (w.prog a).right = some b) : Ours b :=
  h.chain.ours b (h.chain.right_mem hr)

theorem PrimesInv.inside (h : PrimesInv Ours M w) (hs : IpcStep w.ipc i') (hjob : ∀ e, (i'.pc e).job = (w.ipc.pc e).job) :
    PrimesInv Ours M { w with ipc := i' } := by
  -- the logs only grow when a job ends
  have hsends : i'.sends = w.ipc.sends := hs.logs.1.resolve_right fun ⟨cur, toEnv, value, hj, hj', _⟩ => by
    rw [hjob cur, hj] at hj'
    cases hj'
  have hrecvs : i'.recvs = w.ipc.recvs := hs.logs.2.resolve_right fun ⟨cur, sender, value, hj, hj', _⟩ => by
    rw [hjob cur, hj] at hj'
    cases hj'
  refine ⟨h.kern.inside hs (fun e _ => hjob e) fun e _ => ?_, h.chain, ?_⟩
  · rw [hjob e]
    exact h.kern.job e
  · change FlowOk Ours M w.prog i'.sends i'.recvs
    rw [hsends, hrecvs]
    exact h.flow

theorem PrimesInv.other (h : PrimesInv Ours M w) (hs : IpcStep w.ipc i') (hid : ¬ Ours (w.ipc.letter e).id)
    (hjob : ∀ o, o ≠ e → (i'.pc o).job = (w.ipc.pc o).job)
    (hto : ∀ toEnv value, (i'.pc e).job = .sending toEnv value → ¬ Ours toEnv) : PrimesInv Ours M { w with ipc := i' } := by
  -- whoever returns is the environment that moves
  have hwho {o : EnvIdx} {j : IpcJob} (hj : (w.ipc.pc o).job = j) (hne : j ≠ .user) (hj' : (i'.pc o).job = .user) : o = e := by
    by_contra ho
    rw [hjob o ho, hj] at hj'
    exact hne hj'
  refine ⟨h.kern.inside hs (fun o ho => hjob o fun hoe => hid (hoe ▸ ho)) fun o ho => ?_, h.chain,
    h.flow.congr h.head_ours (fun _ _ hr => h.right_ours hr) (fun x b hxb => ?_) fun x b hb => ?_⟩
  · by_cases hoe : o = e
    · subst hoe
      cases hj : (i'.pc o).job with
      | user => exact trivial
      | sending toEnv value => exact ⟨fun hbad => absurd hbad ho, fun _ => hto toEnv value hj⟩
      | receiving => exact fun hbad => absurd hbad ho
    · rw [hjob o hoe]
      exact h.kern.job o
  · obtain hsame | ⟨o, toEnv, value, hj, hj', happ⟩ := hs.logs.1
    · rw [hsame]
    · obtain rfl := hwho hj IpcJob.noConfusion hj'
      have hok := h.kern.job o
      rw [hj] at hok
      rw [happ, valuesOf_append, if_neg, List.append_nil]
      rintro ⟨rfl, rfl⟩
      exact hxb.elim hid (hok.2 hid)
  · obtain hsame | ⟨o, sender, value, hj, hj', happ⟩ := hs.logs.2
    · rw [hsame]
    · obtain rfl := hwho hj IpcJob.noConfusion hj'
      rw [happ, valuesOf_append, if_neg, List.append_nil]
      rintro ⟨-, rfl⟩
      exact hid hb

/-- A process calls `ipc_send` or `ipc_recv`, or fails in it. -/
theorem PrimesInv.move (h : PrimesInv Ours M w) (hx : Executing w.ipc.kern c cur)
    (hp : w.prog (w.ipc.letter cur).id = old) (hs : IpcStep w.ipc (w.ipc.setPc cur pc))
    (hjob : PrimesJob Ours (Function.update w.prog (w.ipc.letter cur).id ppc) (w.ipc.letter cur).id pc.job)
    (hpage : pc.NoPage (w.ipc.letter cur)) (habs : old ≠ .absent) (hppc : ppc ≠ .absent) (hright : ppc.right = old.right)
    (hshown : ppc.shown = old.shown) (hfeeds : ∀ outs, old.Feeds outs → ppc.Feeds outs)
    (hfits : ∀ ins outs, old.Fits ins outs → ppc.Fits ins outs) : PrimesInv Ours M (w.move cur pc ppc) := by
  subst hp
  exact ⟨h.kern.act hx hs rfl rfl (fun _ ha => Function.update_of_ne ha _ _) hjob hpage, h.chain.move habs hppc hright hshown,
      h.flow.local hright (hfeeds _) fun ins => hfits ins _⟩

theorem PrimesInv.callSend {right i : Word} (h : PrimesInv Ours M w) (hx : Executing w.ipc.kern c cur)
    (hp : w.prog (w.ipc.letter cur).id = old) (hpc : w.ipc.pc cur = .user) (hposts : ppc.Posts right i) (habs : old ≠ .absent)
    (hright : ppc.right = old.right) (hshown : ppc.shown = old.shown) (hfeeds : ∀ outs, old.Feeds outs → ppc.Feeds outs)
    (hfits : ∀ ins outs, old.Fits ins outs → ppc.Fits ins outs) :
    PrimesInv Ours M (w.move cur (.send right i (pageArg 0#32) 0#32) ppc) := by
  have hppc : ppc ≠ .absent := by
    rintro rfl
    exact hposts
  refine h.move hx hp (.callSend right i 0#32 0#32 hx hpc) ⟨fun _ => ?_, fun hno => ?_⟩ trivial habs hppc hright hshown hfeeds hfits
  · rw [Function.update_self]
    exact hposts
  · exact absurd (h.ours hp habs) hno

theorem PrimesInv.callRecv (h : PrimesInv Ours M w) (hx : Executing w.ipc.kern c cur)
    (hp : w.prog (w.ipc.letter cur).id = old) (hpc : w.ipc.pc cur = .user) (hwaits : ppc.Waits) (habs : old ≠ .absent)
    (hright : ppc.right = old.right) (hshown : ppc.shown = old.shown) (hfeeds : ∀ outs, old.Feeds outs → ppc.Feeds outs)
    (hfits : ∀ ins outs, old.Fits ins outs → ppc.Fits ins outs) : PrimesInv Ours M (w.move cur (.recv (pageArg 0#32)) ppc) := by
  have hppc : ppc ≠ .absent := by
    rintro rfl
    exact hwaits
  refine h.move hx hp (.callRecv 0#32 hx hpc) (fun _ => ?_) (if_pos rfl) habs hppc hright hshown hfeeds hfits
  rw [Function.update_self]
  exact hwaits

/-- A process goes on outside of the two functions. -/
theorem PrimesInv.setProg (h : PrimesInv Ours M w) (hx : Executing w.ipc.kern c cur)
    (hp : w.prog (w.ipc.letter cur).id = old) (hpc : w.ipc.pc cur = .user) (habs : old ≠ .absent) (hppc : ppc ≠ .absent)
    (hright : ppc.right = old.right) (hshown : ppc.shown = old.shown) (hfeeds : ∀ outs, old.Feeds outs → ppc.Feeds outs)
    (hfits : ∀ ins outs, old.Fits ins outs → ppc.Fits ins outs) :
    PrimesInv Ours M (w.setProg (w.ipc.letter cur).id ppc) := by
  subst hp
  exact ⟨h.kern.step hx hpc fun _ ha => Or.inl (Function.update_of_ne ha _ _), h.chain.move habs hppc hright hshown,
      h.flow.local hright (hfeeds _) fun ins => hfits ins _⟩

/-- `fork` returns, and the child has nothing of the past of others. -/
theorem PrimesInv.fork {child : Word} (h : PrimesInv Ours M w) (hx : Executing w.ipc.kern c cur)
    (hp : w.prog (w.ipc.letter cur).id = old) (hpc : w.ipc.pc cur = .user)
    (hc : Ours child) (hnew : w.prog child = .absent) (habs : old ≠ .absent)
    (hlast : old.right = none) (hright : ppc.right = some child)
    (hshown : (w.ipc.letter cur).id ≠ M → ppc.shown = old.shown)
    (hfeeds : ∀ outs, old.Feeds outs → outs child = [] → ppc.Feeds outs)
    (hfits : ∀ ins outs, old.Fits ins outs → outs child = [] → ppc.Fits ins outs) :
    PrimesInv Ours M (w.fork (w.ipc.letter cur).id child ppc) := by
  subst hp
  have hne : (w.ipc.letter cur).id ≠ child := by
    intro hself
    rw [hself] at habs
    exact habs hnew
  have hnone : (w.prog (w.ipc.letter cur).id).right ≠ some child := by
    rw [hlast]
    exact (Option.some_ne_none child).symm
  have hsent := h.flow.foreign _ child hc hnone
  have hnotright (x : Word) : (w.prog x).right ≠ some child := fun hr => (h.chain.mem child).mp (h.chain.right_mem hr) hnew
  refine ⟨h.kern.step hx hpc fun a ha => ?_, h.chain.fork habs hlast hnew hc hright hshown, ?_, fun x b hb => ?_, fun x b hb hxb => ?_⟩
  · by_cases hac : a = child
    · rw [hac]
      exact Or.inr ⟨hc, hnew⟩
    · refine Or.inl ?_
      change Function.update (Function.update w.prog child .top) _ _ a = _
      rw [Function.update_of_ne ha, Function.update_of_ne hac]
  · change (Function.update (Function.update w.prog child .top) _ _ M).Feeds _
    -- either `umain` itself forks, or it goes on feeding as before
    by_cases hM : M = (w.ipc.letter cur).id
    · rw [hM, Function.update_self]
      have hfirst := h.flow.feeds
      rw [hM] at hfirst
      exact hfeeds _ hfirst hsent
    · have hMc : M ≠ child := by
        intro hMc
        have hfirst := h.flow.feeds
        rw [hMc, hnew] at hfirst
        exact hfirst
      rw [Function.update_of_ne hM, Function.update_of_ne hMc]
      exact h.flow.feeds
  · change (Function.update (Function.update w.prog child .top) _ _ x).right = some b at hb
    change (Function.update (Function.update w.prog child .top) _ _ b).Fits _ _
    -- the new link leads to the child, to which nothing has come yet
    by_cases hxa : x = (w.ipc.letter cur).id
    · rw [hxa, Function.update_self, hright] at hb
      rw [← Option.some.inj hb, Function.update_of_ne hne.symm, Function.update_self]
      change valuesOf w.ipc.recvs x child = []
      rw [hxa]
      exact (h.kern.nothing h.flow hc hnone).1
    · rw [Function.update_of_ne hxa] at hb
      by_cases hxc : x = child
      · rw [hxc, Function.update_self] at hb
        cases hb
      rw [Function.update_of_ne hxc] at hb
      have hbc : b ≠ child := fun hbc => hnotright x (hbc ▸ hb)
      -- the link into the parent, and those between others
      by_cases hba : b = (w.ipc.letter cur).id
      · rw [hba] at hb ⊢
        rw [Function.update_self]
        exact hfits _ _ (h.flow.fits x _ hb) hsent
      · rw [Function.update_of_ne hba, Function.update_of_ne hbc]
        exact h.flow.fits x b hb
  · change (Function.update (Function.update w.prog child .top) _ _ x).right ≠ some b at hxb
    apply h.flow.foreign x b hb
    by_cases hxa : x = (w.ipc.letter cur).id
    · rw [hxa, hlast]
      exact (Option.some_ne_none b).symm
    · rw [Function.update_of_ne hxa] at hxb
      by_cases hxc : x = child
      · rw [hxc, hnew]
        exact (Option.some_ne_none b).symm
      · rwa [Function.update_of_ne hxc] at hxb

/-- `ipc_send` has returned. -/
theorem PrimesInv.posted {toEnv value srcva perm : Word} (h : PrimesInv Ours M w) (hx : Executing w.ipc.kern c cur)
    (hp : w.prog (w.ipc.letter cur).id = old)
    (hpc : w.ipc.pc cur = .sent toEnv value srcva perm) (hr : (w.ipc.letter cur).eax.slt 0#32 = false)
    (habs : old ≠ .absent) (hppc : ppc ≠ .absent)
    (hright : ppc.right = old.right) (hshown : ppc.shown = old.shown)
    (hfeeds : ∀ outs outs', old.Posts toEnv value → old.Feeds outs →
      outs' toEnv = outs toEnv ++ [value] → ppc.Feeds outs')
    (hfits : ∀ ins outs outs', old.Posts toEnv value → old.Fits ins outs →
      outs' toEnv = outs toEnv ++ [value] → ppc.Fits ins outs') : PrimesInv Ours M (w.posted cur toEnv value ppc) := by
  subst hp
  -- what the environment has sent is what the process sends
  have hposts : (w.prog (w.ipc.letter cur).id).Posts toEnv value := by
    have hok := h.kern.job cur
    rw [hpc] at hok
    exact hok.1 (h.ours rfl habs)
  have hout : valuesOf (w.ipc.sends ++ [((w.ipc.letter cur).id, toEnv, value)]) (w.ipc.letter cur).id toEnv =
      valuesOf w.ipc.sends (w.ipc.letter cur).id toEnv ++ [value] := by
    rw [valuesOf_append, if_pos ⟨rfl, rfl⟩]
  refine ⟨h.kern.act hx (.sendReturns hx hpc hr) rfl rfl (fun _ ha => Function.update_of_ne ha _ _) trivial trivial,
    h.chain.move habs hppc hright hshown, h.flow.move hright (fun x b hxa => ?_) (fun _ _ _ => rfl) (fun hM => ?_)
    (fun l hl => ?_) fun b hb hne => ?_⟩
  · change valuesOf (w.ipc.sends ++ [_]) x b = _
    rw [valuesOf_append, if_neg fun hbad => hxa hbad.1.symm, List.append_nil]
  · have hfirst := h.flow.feeds
    rw [← hM] at hfirst
    exact hfeeds _ _ hposts hfirst hout
  · exact hfits _ _ _ hposts (h.flow.fits l _ hl) hout
  · change valuesOf (w.ipc.sends ++ [_]) _ b = []
    have hto : toEnv ≠ b := by
      rintro rfl
      exact hne (hright.trans (PrimePc.posts_right hposts))
    rw [valuesOf_append, if_neg fun hbad => hto hbad.2, List.append_nil]
    exact h.flow.foreign _ b hb (hright ▸ hne)

/-- `ipc_recv` has returned, with a number from the left. -/
theorem PrimesInv.taken {sender : Word} (h : PrimesInv Ours M w) (hx : Executing w.ipc.kern c cur)
    (hp : w.prog (w.ipc.letter cur).id = old)
    (hpc : w.ipc.pc cur = .fetch sender) (habs : old ≠ .absent) (hppc : ppc ≠ .absent)
    (hright : ppc.right = old.right) (hshown : ppc.shown = old.shown)
    (hno : ∀ outs, ¬ old.Feeds outs)
    (hfits : ∀ ins outs, old.Fits ins outs → ppc.Fits (ins ++ [(w.ipc.letter cur).value]) outs) :
    PrimesInv Ours M (w.taken cur sender ppc) := by
  subst hp
  have hours := h.ours rfl habs
  have hcur : envx (w.ipc.letter cur).id = cur := h.kern.ipc.posted.slot cur (h.kern.ipc.rest.exec.notFree c cur hx)
  have hsender : (w.prog sender).right = some (w.ipc.letter cur).id := by
    -- a message of anybody but the left neighbour is not under way
    by_contra hne
    have hin := (h.kern.nothing h.flow hours hne).2
    unfold IpcWorld.incoming at hin
    rw [hcur, hpc] at hin
    simp [IpcPc.incoming] at hin
  refine ⟨h.kern.act hx (.recvReturns hx hpc) rfl rfl (fun _ ha => Function.update_of_ne ha _ _) trivial trivial,
    h.chain.move habs hppc hright hshown, h.flow.move hright (fun _ _ _ => rfl) (fun x b hb => ?_)
    (fun hM => absurd hM (h.notFirst rfl hno)) (fun l hl => ?_) fun b hb hne => h.flow.foreign _ b hb (hright ▸ hne)⟩
  · change valuesOf (w.ipc.recvs ++ [_]) x b = _
    rw [valuesOf_append, if_neg fun hbad => hb hbad.2.symm, List.append_nil]
  · obtain rfl := h.chain.left_unique hl hsender
    change ppc.Fits (valuesOf (w.ipc.recvs ++ [_]) l _) _
    rw [valuesOf_append, if_pos ⟨rfl, rfl⟩]
    exact hfits _ _ (h.flow.fits l _ hl)

end Steps

/-- A process that has a right neighbour has printed its line. -/
theorem PrimePc.Fits.shown {pc : PrimePc} {ins : List Word} {outs : Word → List Word} (h : pc.Fits ins outs) (hr : pc.right ≠ none) :
    pc.shown ≠ none := by
  induction pc with
  | panicked pc ih => exact ih h hr
  | loop p right => exact Option.some_ne_none p
  | receiving p right => exact Option.some_ne_none p
  | got p right i => exact Option.some_ne_none p
  | sending p right i => exact Option.some_ne_none p
  | top | fetching | fetched | printed => exact absurd rfl hr
  | absent | start | feed | feeding => exact h.elim

theorem ofNat_word_toNat (x : Word) : BitVec.ofNat 32 x.toNat = x := BitVec.eq_of_toNat_eq (Nat.mod_eq_of_lt x.isLt)

section Runs

variable {Ours : Word → Prop} {M : Word} {w w' : PrimesWorld}

theorem PrimesStep.inv (hs : PrimesStep Ours w w') (h : PrimesInv Ours M w) : PrimesInv Ours M w' := by
  cases hs with
  | inside hs hjob => exact h.inside hs hjob
  | other hs hid hjob hto => exact h.other hs hid hjob hto
  | starts hx hpc hs hc hnew =>
    refine h.fork hx hs hpc hc hnew PrimePc.noConfusion rfl rfl (fun hM => absurd (h.first hs PrimePc.noConfusion fun _ _ hf => hf) hM)
      (fun outs _ hnil => ⟨by decide, by decide, hnil⟩) fun _ _ hf _ => hf.elim
  | feeds hx hpc hs => exact h.callSend hx hs hpc ⟨rfl, rfl⟩ PrimePc.noConfusion rfl rfl (fun _ hf => hf) fun _ _ hf => hf
  | @fed c cur toEnv value srcva perm right i hx hpc hr hs hmax =>
    refine h.posted hx hs hpc hr PrimePc.noConfusion PrimePc.noConfusion rfl rfl (fun outs outs' hposts hf hout => ?_)
      fun _ _ _ _ hf _ => hf.elim
    obtain ⟨rfl, rfl⟩ := hposts
    obtain ⟨htwo, hlt, hsent⟩ := hf
    -- `i` is not `INT_MAX`, so that `++i` is the next number
    have hval : (value + 1#32).toNat = value.toNat + 1 := by bv_omega
    have hne : value.toNat ≠ 2 ^ 31 - 1 := fun heq => hmax (BitVec.eq_of_toNat_eq heq)
    refine ⟨by omega, by omega, ?_⟩
    rw [hout, hsent, hval, show value.toNat + 1 - 2 = value.toNat - 2 + 1 by omega, List.range'_1_concat, List.map_append,
      Nat.add_sub_cancel' htwo]
    congr 1
    exact (congrArg (fun x => [x]) (ofNat_word_toNat value)).symm
  | fetches hx hpc hs => exact h.callRecv hx hs hpc trivial PrimePc.noConfusion rfl rfl (fun _ hf => hf) fun _ _ hf => hf
  | fetched hx hpc hs =>
    refine h.taken hx hs hpc PrimePc.noConfusion PrimePc.noConfusion rfl rfl (fun _ hf => hf) fun ins _ hf => ?_
    rw [show ins = [] from hf]
    rfl
  | fetchFails hx hpc hr hs =>
    rw [h.kern.received (h.ours hs PrimePc.noConfusion) hpc] at hr
    cases hr
  | prints hx hpc hs =>
    refine ⟨h.kern.step hx hpc fun _ ha => Or.inl (Function.update_of_ne ha _ _),
      h.chain.print (fun k x hk hr => ?_) hs (h.notFirst hs fun _ hf => hf), h.flow.local ?_ ?_ ?_⟩
    · obtain ⟨l, hl⟩ := h.chain.before hk
      exact (h.flow.fits l x hl).shown hr
    · rw [hs]
      rfl
    · rw [hs]
      exact fun hf => hf
    · rw [hs]
      exact fun _ hf => hf
  | forks hx hpc hs hc hnew =>
    refine h.fork hx hs hpc hc hnew PrimePc.noConfusion rfl rfl (fun _ => rfl) (fun _ hf _ => hf) fun ins outs hf hnil => ?_
    -- the number that is printed is the only one yet
    exact ⟨[], hf, hnil⟩
  | forkPanics hx hpc hs =>
    refine h.setProg hx rfl hpc ?_ PrimePc.noConfusion rfl rfl (fun _ hf => hf) fun _ _ hf => hf
    rcases hs with hs | ⟨p, hs⟩ <;> rw [hs] <;> exact PrimePc.noConfusion
  | receives hx hpc hs => exact h.callRecv hx hs hpc trivial PrimePc.noConfusion rfl rfl (fun _ hf => hf) fun _ _ hf => hf
  | received hx hpc hs =>
    refine h.taken hx hs hpc PrimePc.noConfusion PrimePc.noConfusion rfl rfl (fun _ hf => hf) fun ins _ hf => ?_
    obtain ⟨xs, rfl, hsent⟩ := hf
    exact ⟨xs, rfl, hsent⟩
  | receiveFails hx hpc hr hs =>
    rw [h.kern.received (h.ours hs PrimePc.noConfusion) hpc] at hr
    cases hr
  | @drops c cur p right i hx hpc hs hd =>
    refine h.setProg hx hs hpc PrimePc.noConfusion PrimePc.noConfusion rfl rfl (fun _ hf => hf) fun ins outs hf => ?_
    obtain ⟨xs, rfl, hsent⟩ := hf
    refine ⟨xs ++ [i], rfl, ?_⟩
    -- a multiple of `p` does not get through
    rw [hsent, through_drop xs hd]
  | sends hx hpc hs hd =>
    refine h.callSend hx hs hpc ⟨rfl, rfl⟩ PrimePc.noConfusion rfl rfl (fun _ hf => hf) fun ins outs hf => ?_
    obtain ⟨xs, rfl, hsent⟩ := hf
    exact ⟨xs, rfl, hsent, hd⟩
  | @sent c cur toEnv value srcva perm p right i hx hpc hr hs =>
    refine h.posted hx hs hpc hr PrimePc.noConfusion PrimePc.noConfusion rfl rfl (fun _ _ _ hf _ => hf)
      fun ins outs outs' hposts hf hout => ?_
    obtain ⟨rfl, rfl⟩ := hposts
    obtain ⟨xs, rfl, hsent, hd⟩ := hf
    refine ⟨xs ++ [value], rfl, ?_⟩
    -- any other number has been sent on
    rw [hout, hsent, through_keep xs hd]
  | @sendPanics c cur toEnv value srcva perm hx hpc hid hr hne =>
    have hposts : (w.prog (w.ipc.letter cur).id).Posts toEnv value := by
      have hok := h.kern.job cur
      rw [hpc] at hok
      exact hok.1 hid
    refine h.move hx rfl (.sendPanics hx hpc hr hne) trivial trivial ?_ PrimePc.noConfusion rfl rfl (fun _ hf => hf) fun _ _ hf => hf
    intro habs
    rw [habs] at hposts
    exact hposts

theorem PrimesBooted.inv (h : PrimesBooted M w) (hM : Ours M) : PrimesInv Ours M w := by
  obtain ⟨hipc, hprog, hchain, hout⟩ := h
  have hself : w.prog M = .start := by rw [hprog, Function.update_self]
  have hother {a : Word} (ha : a ≠ M) : w.prog a = .absent := by rw [hprog, Function.update_of_ne ha]
  have hright (a : Word) : (w.prog a).right = none := by
    by_cases ha : a = M
    · rw [ha, hself]
      rfl
    · rw [hother ha]
      rfl
  refine ⟨⟨hipc.inv, fun e => ?_, fun e _ => ?_⟩, ⟨fun a => ?_, fun a ha => ?_, ?_, ?_, fun k a _ => ?_, fun k => ?_⟩,
    ⟨?_, fun a b hb => ?_, fun a b _ _ => ?_⟩⟩
  · rw [hipc.pc e]
    exact trivial
  · rw [hipc.pc e]
    exact trivial
  · rw [hchain, List.mem_singleton]
    constructor
    · rintro rfl
      rw [hself]
      exact PrimePc.noConfusion
    · intro ha
      by_contra hne
      exact ha (hother hne)
  · rw [hchain] at ha
    rwa [List.mem_singleton.mp ha]
  · rw [hchain]
    exact List.nodup_singleton M
  · rw [hchain]
    rfl
  · rw [hright, hchain]
    rfl
  · rw [hout, hchain]
    rfl
  · rw [hself]
    exact trivial
  · rw [hright] at hb
    cases hb
  · rw [hipc.sends]
    rfl

end Runs

end Sisop
