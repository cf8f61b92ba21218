import Sisop.KernelRuns

/-! The identifiers that `env_alloc` gives out: which they are, in which order a slot
gets them, and when `envid2env` takes one of them for the environment in its slot. -/
namespace Sisop

/-- The identifier of the allocation `n` of the slot `e`, counted from 0. A slot has
`2^19 - 1` of them. -/
def idAt (e : EnvIdx) (n : ℕ) : Word := BitVec.ofNat 32 (4096 * (n % 524287 + 1) + e)

section Arithmetic

variable {e : EnvIdx} {n m : ℕ}

theorem idAt_toNat (e : EnvIdx) (n : ℕ) :
    (idAt e n).toNat = 4096 * (n % 524287 + 1) + e := by
  have he : (e : ℕ) < 1024 := e.isLt
  have hn : n % 524287 < 524287 := Nat.mod_lt n (by decide)
  rw [idAt, BitVec.toNat_ofNat]
  apply Nat.mod_eq_of_lt
  omega

/-- Identifiers are positive as an `int32_t`. -/
theorem idAt_pos (e : EnvIdx) (n : ℕ) : 0 < (idAt e n).toInt := by
  have he : (e : ℕ) < 1024 := e.isLt
  have hn : n % 524287 < 524287 := Nat.mod_lt n (by decide)
  have ht := idAt_toNat e n
  rw [BitVec.toInt_eq_toNat_cond]
  split_ifs with h <;> omega

theorem idAt_ne_zero (e : EnvIdx) (n : ℕ) : idAt e n ≠ 0#32 := by
  intro h
  have hp := idAt_pos e n
  rw [h] at hp
  exact absurd hp (by decide)

theorem envx_idAt (e : EnvIdx) (n : ℕ) : envx (idAt e n) = e := by
  have he : (e : ℕ) < 1024 := e.isLt
  have hm : (0x3FF#32).toNat = 2^10 - 1 := rfl
  apply Fin.ext
  change (idAt e n &&& 0x3FF#32).toNat = e
  rw [BitVec.toNat_and, hm, Nat.and_two_pow_sub_one_eq_mod, idAt_toNat]
  omega

/-- One slot gets the same identifier again after a whole period only. -/
theorem idAt_eq (h : idAt e n = idAt e m) (hnm : n ≤ m) : n = m ∨ n + 524287 ≤ m := by
  have hn := idAt_toNat e n
  have hm := idAt_toNat e m
  rw [h, hm] at hn
  have hmod : m % 524287 = n % 524287 := by omega
  have hdn := Nat.div_add_mod n 524287
  have hdm := Nat.div_add_mod m 524287
  rcases Nat.lt_or_ge (n / 524287) (m / 524287) with hlt | hge
  · right
    omega
  · left
    omega

/-- The bits of the generation. -/
theorem toNat_generation (w : Word) : (w &&& ~~~(0x3FF#32)).toNat = w.toNat / 1024 * 1024 := by
  have hlow : ∀ i < 32, (0x3FF#32).getLsbD i = decide (i < 10) := by decide
  have hw : w &&& ~~~(0x3FF#32) = (w >>> 10) <<< 10 := by
    apply BitVec.eq_of_getLsbD_eq
    intro i hi
    rw [BitVec.getLsbD_and, BitVec.getLsbD_not, hlow i hi, BitVec.getLsbD_shiftLeft,
      BitVec.getLsbD_ushiftRight]
    by_cases h10 : i < 10
    · simp [h10]
    · simp [h10, hi, show 10 + (i - 10) = i by omega]
  have hlt := w.isLt
  rw [hw, BitVec.toNat_shiftLeft, BitVec.toNat_ushiftRight, Nat.shiftLeft_eq,
    Nat.shiftRight_eq_div_pow]
  omega

/-- `env_alloc` goes on to the next identifier, and after the last one to the first. -/
theorem nextEnvId_idAt (e : EnvIdx) (n : ℕ) : nextEnvId e (idAt e n) = idAt e (n+1) := by
  have he : (e : ℕ) < 1024 := e.isLt
  have hn : n % 524287 < 524287 := Nat.mod_lt n (by decide)
  have ht := idAt_toNat e n
  have h1 : (0x1000#32).toNat = 4096 := rfl
  have hgen : (idAt e n + 0x1000#32 &&& ~~~(0x3FF#32)).toNat = 4096 * (n % 524287 + 2) := by
    rw [toNat_generation, BitVec.toNat_add, ht, h1]
    omega
  -- the generation is that of the allocation `n+1`, also where the sign bit restarts it
  obtain ⟨gen, hgen', heq⟩ : ∃ gen : Word, gen.toNat = 4096 * ((n+1) % 524287 + 1) ∧
      nextEnvId e (idAt e n) = gen ||| BitVec.ofNat 32 e := by
    refine ⟨_, ?_, rfl⟩
    split_ifs with h
    · rw [BitVec.sle_iff_toInt_le, BitVec.toInt_eq_toNat_cond, hgen] at h
      rw [h1]
      simp only [BitVec.toInt_zero] at h
      split_ifs at h with h2
      · omega
      · have hlast : n % 524287 = 524286 := by omega
        omega
    · rw [BitVec.sle_iff_toInt_le, BitVec.toInt_eq_toNat_cond, hgen] at h
      rw [hgen]
      simp only [BitVec.toInt_zero] at h
      split_ifs at h with h2
      · omega
      · omega
  apply BitVec.eq_of_toNat_eq
  have hem : (e : ℕ) % 2^32 = e := Nat.mod_eq_of_lt (by omega)
  rw [heq, BitVec.toNat_or, hgen', idAt_toNat, BitVec.toNat_ofNat, hem]
  have hor := Nat.two_pow_add_eq_or_of_lt (i := 10) he (4 * ((n+1) % 524287 + 1))
  have h4 : 4096 * ((n+1) % 524287 + 1) = 2^10 * (4 * ((n+1) % 524287 + 1)) := by omega
  rw [h4, ← hor]

theorem nextEnvId_zero (e : EnvIdx) : nextEnvId e 0#32 = idAt e 0 := by
  have he : (e : ℕ) < 1024 := e.isLt
  have hgen : nextEnvId e 0#32 = 0x1000#32 ||| BitVec.ofNat 32 e := rfl
  have hor := Nat.two_pow_add_eq_or_of_lt (i := 10) he 4
  apply BitVec.eq_of_toNat_eq
  have hem : (e : ℕ) % 2^32 = e := Nat.mod_eq_of_lt (by omega)
  rw [hgen, BitVec.toNat_or, BitVec.toNat_ofNat, BitVec.toNat_ofNat, hem, idAt_toNat]
  exact hor.symm

end Arithmetic

/-- The kernel, with the identifiers that each slot has been given, the latest first. -/
structure EnvHist where
  kern : Kern
  ids : EnvIdx → List Word

/-- Calls of `env_alloc` and of `env_free` for a live environment. In between the rest
of the kernel may change anything but the identifiers and which slots are free. -/
inductive EnvStep : EnvHist → EnvHist → Prop
  | alloc {h : EnvHist} {k' : Kern} {parentId : Word} {e : EnvIdx}
      (hr : envAlloc parentId h.kern = .ret (.ok e) k') :
      EnvStep h ⟨k', Function.update h.ids e ((k'.envs e).envId :: h.ids e)⟩
  | allocFails {h : EnvHist} {k' : Kern} {parentId : Word} {err : Err}
      (hr : envAlloc parentId h.kern = .ret (.error err) k') : EnvStep h ⟨k', h.ids⟩
  | free {h : EnvHist} {k' : Kern} {e : EnvIdx} (hs : h.kern.status e ≠ .free)
      (hr : envFree e h.kern = .ret () k') : EnvStep h ⟨k', h.ids⟩
  | other {h : EnvHist} {k' : Kern} (hid : ∀ e, (k'.envs e).envId = (h.kern.envs e).envId)
      (hs : ∀ e, k'.status e = .free ↔ h.kern.status e = .free) : EnvStep h ⟨k', h.ids⟩

/-- After `env_init` on the zeroed `envs` array. -/
def EnvStart (h : EnvHist) : Prop :=
  ∃ k : Kern, (∀ e, k.status e = .free) ∧ h = ⟨envInit k, fun _ => []⟩

/-- A slot holds its latest identifier, and has been given them in order. -/
structure IdsOk (h : EnvHist) : Prop where
  current : ∀ e, (h.kern.envs e).envId = (h.ids e).headD 0#32
  order : ∀ e i, i < (h.ids e).length → (h.ids e)[i]? = some (idAt e ((h.ids e).length - 1 - i))
  live : ∀ e, h.kern.status e ≠ .free → h.ids e ≠ []

section History

variable {h h' : EnvHist}

theorem EnvStart.idsOk (hs : EnvStart h) : IdsOk h := by
  obtain ⟨k, hk, rfl⟩ := hs
  refine ⟨fun e => rfl, fun e i hi => absurd hi (Nat.not_lt_zero i), fun e he => ?_⟩
  exact absurd (hk e) he

/-- What `env_alloc` writes is the identifier after the one it finds. -/
theorem IdsOk.next (hk : IdsOk h) (e : EnvIdx) :
    nextEnvId e (h.kern.envs e).envId = idAt e (h.ids e).length := by
  rw [hk.current e]
  cases hl : h.ids e with
  | nil => exact nextEnvId_zero e
  | cons id l =>
    have h0 := hk.order e 0 (by rw [hl]; exact Nat.succ_pos _)
    rw [hl, List.getElem?_cons_zero, Option.some.injEq] at h0
    rw [List.headD_cons, h0, nextEnvId_idAt]
    simp only [List.length_cons, Nat.add_sub_cancel, Nat.sub_zero]

/-- One slot is given its next identifier. -/
theorem IdsOk.given {k' : Kern} {ids' : EnvIdx → List Word} {e : EnvIdx} (hk : IdsOk h)
    (hids : ∀ i, ids' i = if i = e then idAt e (h.ids e).length :: h.ids e else h.ids i)
    (hid : ∀ i, (k'.envs i).envId =
      if i = e then idAt e (h.ids e).length else (h.kern.envs i).envId)
    (hs : ∀ i, i ≠ e → k'.status i = h.kern.status i) : IdsOk ⟨k', ids'⟩ := by
  constructor
  · intro i
    change (k'.envs i).envId = (ids' i).headD 0#32
    rw [hid, hids]
    split_ifs
    · rw [List.headD_cons]
    · exact hk.current i
  · intro i j hj
    change j < (ids' i).length at hj
    change (ids' i)[j]? = some (idAt i ((ids' i).length - 1 - j))
    rw [hids] at hj ⊢
    split_ifs at hj ⊢ with hie
    · rw [hie]
      cases j with
      | zero => simp only [List.getElem?_cons_zero, List.length_cons, Nat.add_sub_cancel, Nat.sub_zero]
      | succ j =>
        rw [List.length_cons] at hj ⊢
        rw [List.getElem?_cons_succ, hk.order e j (by omega)]
        congr 2
        omega
    · exact hk.order i j hj
  · intro i hi
    change ids' i ≠ []
    rw [hids]
    split_ifs with hie
    · exact List.cons_ne_nil _ _
    · exact hk.live i (fun hf => hi ((hs i hie).trans hf))

theorem IdsOk.step (hk : IdsOk h) (hs : EnvStep h h') : IdsOk h' := by
  cases hs with
  | @alloc k' parentId e hr =>
    obtain ⟨err, he, -⟩ | ⟨e', g, t, he, -, -, rfl⟩ := envAlloc_ret hr
    · cases he
    obtain rfl := Except.ok.inj he
    have hid (i : EnvIdx) : ((h.kern.alloced e parentId g t).envs i).envId =
        if i = e then idAt e (h.ids e).length else (h.kern.envs i).envId := by
      rw [alloced_envId, hk.next e]
    apply hk.given (e := e) (fun i => ?_) hid
    · intro i hie
      rw [alloced_status, if_neg hie]
    · rw [Function.update_apply, hid e, if_pos rfl]
  | @allocFails k' parentId err hr =>
    obtain ⟨err', he, rfl | ⟨t, -, rfl⟩⟩ | ⟨e', g, t, he, -⟩ := envAlloc_ret hr
    · exact hk
    · exact ⟨hk.current, hk.order, hk.live⟩
    · cases he
  | @free k' e hs hr =>
    obtain ⟨g, s, t, -, -, -, rfl⟩ := envFree_ret hr
    refine ⟨fun i => (freed_envId _ i).trans (hk.current i), hk.order, fun i hi => ?_⟩
    rw [freed_status] at hi
    split_ifs at hi with hie
    · exact absurd rfl hi
    · exact hk.live i hi
  | @other k' hid hs =>
    refine ⟨fun i => (hid i).trans (hk.current i), hk.order, fun i hi => ?_⟩
    exact hk.live i fun hf => hi ((hs i).mpr hf)

theorem idsOk_of_reachable (hr : Reachable EnvStart EnvStep h) : IdsOk h :=
  hr.invariant (fun _ hs => hs.idsOk) fun _ _ hk hs => hk.step hs

theorem IdsOk.mem_idAt (hk : IdsOk h) {e : EnvIdx} {id : Word} (hid : id ∈ h.ids e) :
    ∃ n, id = idAt e n := by
  obtain ⟨i, hi, rfl⟩ := List.getElem_of_mem hid
  have ho := hk.order e i hi
  rw [List.getElem?_eq_getElem hi] at ho
  exact ⟨_, Option.some.inj ho⟩

theorem IdsOk.head_eq (hk : IdsOk h) {e : EnvIdx} (he : h.ids e ≠ []) :
    (h.ids e).head? = some (h.kern.envs e).envId := by
  rw [hk.current e]
  cases hl : h.ids e with
  | nil => exact absurd hl he
  | cons id l => rfl

theorem IdsOk.live_idAt (hk : IdsOk h) {e : EnvIdx} (he : h.kern.status e ≠ .free) :
    ∃ n, (h.kern.envs e).envId = idAt e n :=
  hk.mem_idAt (List.mem_of_mem_head? (hk.head_eq (hk.live e he)))

/-- One identifier comes twice in a slot's history a whole period apart only. -/
theorem IdsOk.period (hk : IdsOk h) {e : EnvIdx} {i j : ℕ} {id : Word} (hij : i < j)
    (hi : (h.ids e)[i]? = some id) (hj : (h.ids e)[j]? = some id) : 524287 ≤ j - i := by
  obtain ⟨hjl, -⟩ := List.getElem?_eq_some_iff.mp hj
  have hoi := hk.order e i (hij.trans hjl)
  have hoj := hk.order e j hjl
  rw [hi, Option.some.injEq] at hoi
  rw [hj, Option.some.injEq] at hoj
  rcases idAt_eq (hoj.symm.trans hoi) (by omega) with heq | hge
  · omega
  · omega

theorem envid2env_false {k : Kern} {c : ℕ} {id : Word} (hid : id ≠ 0#32) :
    envid2env c id false k =
      if k.status (envx id) = .free ∨ (k.envs (envx id)).envId ≠ id then .ret (.error .badEnv) k
      else .ret (.ok (envx id)) k := by
  unfold envid2env
  rw [if_neg hid, Routine.gets_bind_run, Routine.ite_run]
  rfl

/-- Identifiers are positive and name their slot; live environments have different
ones; a slot repeats itself after 524287 allocations only; and `envid2env` resolves
an identifier to the live environment that has it, if there is one. -/
theorem env_ids (hr : Reachable EnvStart EnvStep h) :
    (∀ e, ∀ id ∈ h.ids e, 0 < id.toInt ∧ envx id = e) ∧
    (∀ e, h.kern.status e ≠ .free → (h.ids e).head? = some (h.kern.envs e).envId) ∧
    (∀ e e', h.kern.status e ≠ .free → h.kern.status e' ≠ .free →
      (h.kern.envs e).envId = (h.kern.envs e').envId → e = e') ∧
    (∀ e i j id, i < j → (h.ids e)[i]? = some id → (h.ids e)[j]? = some id → 524287 ≤ j - i) ∧
    (∀ c id e, id ≠ 0#32 → (envid2env c id false h.kern = .ret (.ok e) h.kern ↔
      h.kern.status e ≠ .free ∧ (h.kern.envs e).envId = id)) ∧
    ∀ c e i id, 0 < i → i < 524287 → (h.ids e)[i]? = some id →
      envid2env c id false h.kern = .ret (.error .badEnv) h.kern := by
  have hk := idsOk_of_reachable hr
  refine ⟨fun e id hid => ?_, fun e he => hk.head_eq (hk.live e he), fun e e' he he' h1 => ?_,
    fun e i j id => hk.period, fun c id e hid => ?_, fun c e i id h0 hi hid => ?_⟩
  · obtain ⟨n, rfl⟩ := hk.mem_idAt hid
    exact ⟨idAt_pos e n, envx_idAt e n⟩
  · obtain ⟨n, hn⟩ := hk.live_idAt he
    obtain ⟨m, hm⟩ := hk.live_idAt he'
    rw [hn, hm] at h1
    rw [← envx_idAt e n, h1, envx_idAt]
  · rw [envid2env_false hid]
    constructor
    · intro hres
      split_ifs at hres with hb
      · cases (Outcome.ret.inj hres).1
      · obtain rfl := Except.ok.inj (Outcome.ret.inj hres).1
        exact ⟨(not_or.mp hb).1, not_not.mp (not_or.mp hb).2⟩
    · rintro ⟨hs, rfl⟩
      obtain ⟨n, hn⟩ := hk.live_idAt hs
      have hx : envx (h.kern.envs e).envId = e := by rw [hn, envx_idAt]
      rw [hx, if_neg (not_or.mpr ⟨hs, not_not.mpr rfl⟩)]
  · obtain ⟨n, rfl⟩ := hk.mem_idAt (List.mem_of_getElem? hid)
    rw [envid2env_false (idAt_ne_zero e n), envx_idAt]
    apply if_pos
    right
    -- the slot holds its latest identifier, which is less than a period away
    intro heq
    have hlen := (List.getElem?_eq_some_iff.mp hid).1
    have hhead : (h.ids e)[0]? = some (idAt e n) := by
      rw [← List.head?_eq_getElem?, hk.head_eq (List.ne_nil_of_length_pos (by omega)), heq]
    have hp := hk.period h0 hhead hid
    omega

/-- The first slot is allocated, freed and allocated again: it gets the next identifier, and the
first one is stale. -/
theorem env_ids_first : ∃ h : EnvHist, Reachable EnvStart EnvStep h ∧ h.ids 0 = [0x2000#32, 0x1000#32] ∧
    (∀ c, envid2env c 0x2000#32 false h.kern = .ret (.ok 0) h.kern) ∧
    ∀ c, envid2env c 0x1000#32 false h.kern = .ret (.error .badEnv) h.kern := by
  obtain ⟨s, hm, hn, -⟩ := machine64_bootMem
  obtain ⟨g, hdir, hi, hsup, hbare⟩ := hm.memInv.setupDir_run (e := 0) rfl hn
  obtain ⟨hlink, hi', hsup'⟩ := hi.freeDir_bare (Function.update_self 0 _ _) hbare hsup
  obtain ⟨g', hdir', -⟩ := hi'.setupDir_run (e := 0) (Function.update_self 0 _ _) hsup'
  generalize hk₀ : envInit (afterMemInit s) = k₀
  have h0 : EnvStart ⟨k₀, fun _ => []⟩ := ⟨afterMemInit s, fun _ => rfl, by rw [hk₀]⟩
  generalize hk₁ : k₀.alloced 0 0#32 g (s.newDir g) = k₁
  generalize hk₂ : k₁.freed 0 ((s.newDir g).decRef g) = k₂
  generalize hk₃ : k₂.alloced 0 0#32 g' (((s.newDir g).decRef g).newDir g') = k₃
  have halloc : envAlloc 0#32 k₀ = .ret (.ok 0) k₁ := by
    rw [← hk₁, ← hk₀]
    exact envAlloc_run rfl hdir
  have hfree : envFree 0 k₁ = .ret () k₂ := by
    rw [← hk₂, ← hk₁]
    exact envFree_bare ((alloced_dirs _ _ _ _).trans (if_pos rfl)) hbare hlink
  have hagain : envAlloc 0#32 k₂ = .ret (.ok 0) k₃ := by
    rw [← hk₃, ← hk₂]
    exact envAlloc_run rfl hdir'
  have hs : k₁.status 0 ≠ .free := by
    rw [← hk₁, alloced_status, if_pos rfl]
    decide
  have hs' : k₃.status 0 ≠ .free := by
    rw [← hk₃, alloced_status, if_pos rfl]
    decide
  have hid : (k₁.envs 0).envId = 0x1000#32 := by
    rw [← hk₁, alloced_envId, if_pos rfl, ← hk₀]
    exact nextEnvId_zero 0
  have hid' : (k₃.envs 0).envId = 0x2000#32 := by
    rw [← hk₃, alloced_envId, if_pos rfl, ← hk₂, freed_envId, hid]
    decide
  have hr := (((Reachable.init h0).step (EnvStep.alloc halloc)).step (EnvStep.free hs hfree)).step (EnvStep.alloc hagain)
  obtain ⟨-, -, -, -, hres, hstale⟩ := env_ids hr
  have hids : Function.update (Function.update (fun _ => []) 0 [(k₁.envs 0).envId]) 0
      ((k₃.envs 0).envId :: Function.update (fun _ => []) 0 [(k₁.envs 0).envId] 0) (0 : EnvIdx) = [0x2000#32, 0x1000#32] := by
    rw [Function.update_self, Function.update_self, hid, hid']
  exact ⟨_, hr, hids, fun c => (hres c _ 0 (by decide)).mpr ⟨hs', hid'⟩,
    fun c => hstale c 0 1 _ Nat.one_pos (by decide) (congrArg (fun l => l[1]?) hids)⟩
end History
end Sisop
