import Sisop.KernelMemory
import Sisop.KernelRuns

/-! The page allocator against the page tables: no page that is free, or a table of
an environment, is mapped for a user, unless `page_lookup` has taken an empty entry
for a mapping of page 0, or a counter has wrapped around. -/
namespace Sisop

/-- A present entry below `UTOP` of some environment maps the page `p`. -/
def MappedByUser (k : Kern) (p : ℕ) : Prop :=
  ∃ e g va w, k.dirs e = some g ∧ va < utop ∧ has (k.mem.word g (pdx va)) pteP ∧
    k.mem.pteAt g va = some w ∧ has w pteP ∧ pgnum w = p

/-- The page `p` is the page directory of some environment, or one of the page
tables in it, those of the kernel included. -/
def TableInUse (k : Kern) (p : ℕ) : Prop :=
  ∃ e g, k.dirs e = some g ∧ (p = g ∨ ∃ d < nptentries, has (k.mem.word g d) pteP ∧
    ¬ has (k.mem.word g d) ptePS ∧ pgnum (k.mem.word g d) = p)

section Safety

variable {k : Kern} {p : ℕ}

theorem MappedByUser.slot (h : MappedByUser k p) :
    ∃ e d t, slotMap k.mem k.dirs (.pte e d t) = some p := by
  obtain ⟨e, g, va, w, hg, hlt, hpde, hw, hpte, rfl⟩ := h
  have hd := pdx_lt_of_utop hlt
  have htab : slotMap k.mem k.dirs (.pde e (vaPde va hd)) = some (pgnum (k.mem.word g (pdx va))) := by
    rw [slotMap_pde hg]
    exact target_of_has hpde
  rw [Pm.pteAt, if_neg (ne_zero_of_has_pteP hpde)] at hw
  obtain rfl := Option.some.inj hw
  exact ⟨e, vaPde va hd, vaPte va, (slotMap_pte htab _).trans (target_of_has hpte)⟩

/-- The tables of an environment are its directory, its own page tables, and those
that `kern_pgdir` shares with it. -/
theorem TableInUse.slot (hm : MemOk k) (h : TableInUse k p) :
    ∃ i : Slot, i.isTable ∧ slotMap k.mem k.dirs i = some p := by
  obtain ⟨e, g, hg, rfl | ⟨d, hd, hpde, hps, hp⟩⟩ := h
  · exact ⟨.dir e, trivial, hg⟩
  by_cases hu : d < userPdes
  · refine ⟨.pde e ⟨d, hu⟩, trivial, ?_⟩
    rw [slotMap_pde hg, ← hp]
    exact target_of_has hpde
  have hup := hm.inv.upper e g hg
  by_cases huv : d = uvptPde
  · refine ⟨.dir e, trivial, ?_⟩
    have hb : g < 2^20 := lt_of_lt_of_le (hm.inv.bound (.dir e) g hg) hm.inv.npages_le
    rw [huv, hup.self, pgnum_or, pgnum_or, pgnum_page2pa g hb, pgnum_of_flags pteP (by decide),
      pgnum_of_flags pteU (by decide), Nat.or_zero, Nat.or_zero] at hp
    rw [← hp]
    exact hg
  · have hw := hup.shared d (Nat.le_of_not_lt hu) huv
    rw [hw] at hpde hps hp
    refine ⟨.kpde ⟨d, hd⟩, trivial, ?_⟩
    change kernTarget d (k.mem.word k.mem.kernPgdir d) = some p
    rw [kernTarget, if_neg (not_or.mpr ⟨hu, not_or.mpr ⟨huv, hps⟩⟩), target_of_has hpde, hp]

theorem MemOk.not_mappedByUser (hm : MemOk k) (hp : k.mem.IsFree p ∨ TableInUse k p) :
    ¬ MappedByUser k p := by
  intro hu
  obtain ⟨e, d, t, hslot⟩ := hu.slot
  rcases hp with hf | ht
  · exact hm.inv.not_isFree_of_slot hslot hf
  · obtain ⟨i, hi, his⟩ := ht.slot hm
    cases hm.inv.tally.slot_unique hi his hslot
    exact hi

theorem first_bootedFit : ∃ k g, BootedFit k ∧ FirstEnv k 0 g := by
  obtain ⟨s, k, g, hm, hrun, hk⟩ := machine64_boots
  exact ⟨k, g, bootedFit_iff.mpr ⟨_, s, 0, [(⟨[], 0#32⟩, .user)], hm, by simp [Elf.Fits], hrun⟩, hk⟩

end Safety

section Runs

variable {k : Kern} {c : ℕ} {p : EnvIdx} {g q : ℕ} {s t : Pm} {va perm : Word}

/-- The environment `p`, whose page directory is `g`, runs on the CPU `c`. -/
structure Caller (k : Kern) (c : ℕ) (p : EnvIdx) (g : ℕ) : Prop where
  cpu : k.cpus c = ⟨.started, some p, true⟩
  lock : k.kernelLock = none
  running : k.status p = .running
  dir : k.dirs p = some g

theorem Caller.congr {k' : Kern} (h : Caller k c p g) (hs : SameCore k k') : Caller k' c p g := by
  refine ⟨?_, hs.life.lock.trans h.lock, ?_, ?_⟩
  · rw [hs.life.cpus]
    exact h.cpu
  · rw [hs.life.status]
    exact h.running
  · rw [hs.life.dirs]
    exact h.dir

theorem Caller.executing (h : Caller k c p g) : Executing k c p := by
  rw [Executing, h.cpu]
  exact ⟨rfl, rfl⟩

/-- A system call that acts on memory only. -/
theorem Caller.mem_run {r : SysRet} (h : Caller k c p g) (no a1 a2 a3 a4 a5 : Word)
    (hcall : ∀ k', k'.mem = k.mem → (k'.cpus c).cpuEnv = some p → k'.dirs p = some g →
      syscall c 0 no a1 a2 a3 a4 a5 k' = .ret r { k' with mem := t }) :
    ∃ k', Step k (.trap c (sysInput no a1 a2 a3 a4 a5)) k' ∧ SameCore { k with mem := t } k' := by
  have hat := sameCore_atSyscall h.lock c p (sysInput no a1 a2 a3 a4 a5).tf
  have hcur : ((k.atSyscall c p (sysInput no a1 a2 a3 a4 a5).tf).cpus c).cpuEnv = some p := by
    rw [atSyscall_cpus, setCpu_cpus, if_pos rfl, h.cpu]
    rfl
  obtain ⟨k', hk', hs, -⟩ := call_step (f := fun k => { k with mem := t }) no a1 a2 a3 a4 a5
    h.cpu h.lock h.running (hcall _ hat.mem hcur ((congrFun hat.life.dirs p).trans h.dir))
    (fun _ _ hc => hc.setMem t) (fun _ _ _ => rfl) (fun _ => ⟨rfl, rfl⟩) h.running ⟨g, h.dir⟩
  exact ⟨k', hk', hs⟩

/-- After it the caller runs on. -/
theorem Caller.mem_step {r : SysRet} (h : Caller k c p g) (no a1 a2 a3 a4 a5 : Word)
    (hcall : ∀ k', k'.mem = k.mem → (k'.cpus c).cpuEnv = some p → k'.dirs p = some g →
      syscall c 0 no a1 a2 a3 a4 a5 k' = .ret r { k' with mem := t }) :
    ∃ k', AnyStep k k' ∧ Caller k' c p g ∧ k'.mem = t := by
  obtain ⟨k', hk', hs⟩ := h.mem_run no a1 a2 a3 a4 a5 hcall
  have hc : Caller { k with mem := t } c p g := ⟨h.cpu, h.lock, h.running, h.dir⟩
  exact ⟨k', ⟨_, hk'⟩, hc.congr hs, hs.mem⟩

theorem sysPageAlloc_run {page : ℕ} (hc : (k.cpus c).cpuEnv = some p) (hg : k.dirs p = some g)
    (hargs : CheckPerm perm ∧ CheckMem va) (ha : pageAlloc k.mem = .ret (some page) s)
    (hi : pageInsert g page va perm s = .ret (.ok ()) t) :
    sysPageAlloc c 0#32 va perm k = .ret (.ok 0#32) { k with mem := t } := by
  have he : envid2env c 0#32 true k = .ret (.ok p) k := envid2env_run (Or.inl ⟨rfl, hc⟩)
  have hins : mem (pageInsert g page va perm) { k with mem := s } = .ret (.ok ()) { k with mem := t } :=
    mem_ret hi
  simp only [sysPageAlloc, Routine.bind_ret he, if_pos hargs, Routine.bind_ret (mem_ret ha)]
  rw [Routine.bind_ret (envPgdir_run (by exact hg)), Routine.bind_ret hins]
  rfl

theorem FamilyStep.sound {k' : Kern} (hk : FamilyStep k k') : SoundStep k k' := by
  obtain ⟨ev, hs, -, hno⟩ := hk
  refine ⟨ev, hs, fun hl => ?_⟩
  cases ev with
  | trap c inp =>
    obtain ⟨-, -, ⟨h5, -⟩ | ⟨h6, -⟩ | ⟨h12, -⟩⟩ := hl
    · rcases hno c inp rfl with h | ⟨h, -⟩ <;> exact absurd (h.symm.trans h5) (by decide)
    · rcases hno c inp rfl with h | ⟨h, -⟩ <;> exact absurd (h.symm.trans h6) (by decide)
    · rcases hno c inp rfl with h | ⟨h, -⟩ <;> exact absurd (h.symm.trans h12) (by decide)
  | start c => exact hl
  | store c va b => exact hl

theorem sysPageMap_self {srcva dstva : Word} {page : ℕ} {pte : PtePtr}
    (hc : (k.cpus c).cpuEnv = some p) (hg : k.dirs p = some g)
    (hargs : CheckPerm perm ∧ CheckMem srcva ∧ CheckMem dstva) (hw : ¬ has perm pteW)
    (hl : pageLookup g srcva k.mem = .ret (some (page, pte)) k.mem)
    (hi : pageInsert g page dstva perm k.mem = .ret (.ok ()) t) :
    sysPageMap c 0#32 srcva 0#32 dstva perm k = .ret (.ok 0#32) { k with mem := t } := by
  have he : envid2env c 0#32 true k = .ret (.ok p) k := envid2env_run (Or.inl ⟨rfl, hc⟩)
  rw [sysPageMap_run he he hg hargs hl, if_neg fun h => hw h.1, Routine.bind_ret (envPgdir_run hg),
    Routine.bind_ret (mem_ret hi)]
  rfl

theorem sysPageUnmap_run (hc : (k.cpus c).cpuEnv = some p) (hg : k.dirs p = some g)
    (hva : CheckMem va) (hr : pageRemove g va k.mem = .ret () t) :
    sysPageUnmap c 0#32 va k = .ret (.ok 0#32) { k with mem := t } := by
  have he : envid2env c 0#32 true k = .ret (.ok p) k := envid2env_run (Or.inl ⟨rfl, hc⟩)
  simp only [sysPageUnmap, Routine.bind_ret he, if_pos hva, Routine.bind_ret (envPgdir_run hg),
    Routine.bind_ret (mem_ret hr), Routine.pure_run]

/-- `page_lookup` finds page 0 behind an empty entry. -/
theorem pageLookup_zero (va : Word) (hg : s.word g (pdx va) = pdeOf q) (hq : q < s.npages)
    (hn : s.npages ≤ 2^20) (he : s.word q (ptx va) = 0#32) :
    pageLookup g va s = .ret (some (0, ⟨q, ptx va⟩)) s := by
  have h0 : pgnum (s.word q (ptx va)) = 0 := by
    rw [he]
    rfl
  have hl := pageLookup_table (pgdirWalk_pde hg hq hn false) (by rw [h0]; omega)
  rwa [h0] at hl

/-- `page_remove` drops a reference of page 0 for an empty entry. If it was the last one,
page 0 becomes free. Nothing is written. -/
theorem pageRemove_zero (va : Word) (hg : s.word g (pdx va) = pdeOf q) (hq : q < s.npages)
    (hn : s.npages ≤ 2^20) (he : s.word q (ptx va) = 0#32) (hl : (s.pages 0).ppLink = none)
    (href : (s.pages 0).ppRef = 1) : ∃ t, pageRemove g va s = .ret () t ∧
      t.pageFreeList = some 0 ∧ t.word = s.word ∧ t.npages = s.npages ∧ (t.pages 0).ppRef = 0 := by
  have h0 : (s.pages 0).ppRef - 1 = 0 := by
    rw [href]
    decide
  have hrun : pageRemove g va s = .ret () ((s.decRef 0).setWord q (ptx va) 0#32) := by
    simp only [pageRemove, Routine.bind_ret (pageLookup_zero va hg hq hn he),
      Routine.bind_ret (pageDecref_run hl), Routine.modify_run]
    rfl
  refine ⟨_, hrun, ?_, ?_, decRef_npages s 0, ?_⟩
  · rw [Pm.decRef, if_pos h0]
    rfl
  · change Function.update (s.decRef 0).word _ _ = _
    rw [decRef_word, ← he, Function.update_eq_self, Function.update_eq_self]
  · change ((s.decRef 0).pages 0).ppRef = 0
    rw [Pm.decRef, if_pos h0]
    simp only [setLink_pages, setRef_pages, if_true, h0]

/-- How a caller with a page table `q` frees page 0: it maps what an empty entry maps,
which is page 0, and then unmaps another empty entry. -/
theorem freeZero_run (hpde : s.word g 0 = pdeOf q) (hn : s.npages ≤ 2^20) (hq : q < s.npages)
    (hgq : g ≠ q) (hblank : ∀ i, i ≠ 0 → s.word q i = 0#32) (hl : (s.pages 0).ppLink = none)
    (href : (s.pages 0).ppRef = 0) : ∃ s₂ s₃,
      pageLookup g 0x1000#32 s = .ret (some (0, ⟨q, 1⟩)) s ∧
      pageInsert g 0 0x2000#32 5#32 s = .ret (.ok ()) s₂ ∧ pageRemove g 0x3000#32 s₂ = .ret () s₃ ∧
      s₃.pageFreeList = some 0 ∧ (s₃.pages 0).ppRef = 0 ∧ s₃.npages = s.npages ∧
      s₃.word = (s.setWord q 2 (pteOf 0 5#32)).word := by
  obtain ⟨s₂, hs₂⟩ : ∃ s₂, s₂ = (s.incRef 0).setWord q 2 (pteOf 0 5#32) := ⟨_, rfl⟩
  have hmap : pageInsert g 0 0x2000#32 5#32 s = .ret (.ok ()) s₂ := by
    rw [hs₂]
    exact pageInsert_empty (pgdirWalk_pde hpde hq hn true) (hblank 2 (by decide))
  have hw₂ : s₂.word g 0 = pdeOf q := by
    rw [hs₂, setWord_word_ne hgq]
    exact hpde
  have he₂ : s₂.word q 3 = 0#32 := by
    rw [hs₂, setWord_word_self, if_neg (by decide)]
    exact hblank 3 (by decide)
  have h0 : s₂.pages 0 = { s.pages 0 with ppRef := 1 } := by
    rw [hs₂]
    change (s.incRef 0).pages 0 = _
    rw [Pm.incRef, setRef_pages, if_pos rfl, href]
    rfl
  have hn₂ : s₂.npages = s.npages := by
    rw [hs₂]
    rfl
  obtain ⟨s₃, hunmap, hfree, hw₃, hn₃, href₃⟩ := pageRemove_zero 0x3000#32 hw₂ (hn₂ ▸ hq) (hn₂ ▸ hn)
    he₂ (h0 ▸ hl) (h0 ▸ rfl)
  refine ⟨s₂, s₃, pageLookup_zero 0x1000#32 hpde hq hn (hblank 1 (by decide)), hmap, hunmap, hfree, href₃,
    hn₃.trans hn₂, ?_⟩
  rw [hw₃, hs₂]
  rfl

end Runs
end Sisop
