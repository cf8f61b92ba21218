import Sisop.Boot
import Sisop.Trace

/-! `boot_alloc` of `kern/pmap.c` on 32-bit addresses. It looks at the end of memory before
it hands out a region, and not at where the region ends. -/
namespace Sisop

/-- `PADDR(kva)`, in any state. -/
def paddr {σ : Type} (kva : Word) : Routine σ Word := do
  Routine.panicUnless (kernbase ≤ kva)
  pure (kva - kernbase)

/-- The start of the memory that has not been handed out, once it is known. -/
def firstFree (kernEnd nextfree : Word) : Word := if nextfree = 0#32 then roundup kernEnd else nextfree

/-- `boot_alloc(n)` when the kernel image ends at `kernEnd`. The state is `nextfree`. -/
def bootAllocAt (npages kernEnd n : Word) : Routine Word Word := do
  Routine.modify (firstFree kernEnd)
  let nextfree ← Routine.get
  let pa ← paddr nextfree
  if npages * 4096#32 < pa then Routine.halt
  else if n = 0#32 then pure nextfree
  else do
    Routine.modify fun nextfree => roundup (nextfree + n)
    pure nextfree

/-- A request, and the start of the region that it got. -/
structure BootRegion where
  n : Word
  result : Word

/-- A call of `boot_alloc` that returns. -/
def BootCall (npages kernEnd nextfree : Word) (e : BootRegion) (nextfree' : Word) : Prop :=
  bootAllocAt npages kernEnd e.n nextfree = .ret e.result nextfree'

/-- A call for which there is room up to the end of memory, and up to the last page of the
address space. -/
def BootFits (npages kernEnd nextfree n : Word) : Prop :=
  n = 0#32 ∨ (firstFree kernEnd nextfree - kernbase).toNat + n.toNat ≤ npages.toNat * pgsize ∧
    (firstFree kernEnd nextfree).toNat + n.toNat + pgsize ≤ 2^32

def FittingCall (npages kernEnd nextfree : Word) (e : BootRegion) (nextfree' : Word) : Prop :=
  BootCall npages kernEnd nextfree e nextfree' ∧ BootFits npages kernEnd nextfree e.n

/-- A region that was asked for starts with a page after the kernel image, and it is memory
that the machine has. -/
structure InMemory (npages kernEnd : Word) (e : BootRegion) : Prop where
  aligned : e.result.toNat % pgsize = 0
  behind : kernEnd ≤ e.result
  mapped : kernbase ≤ e.result
  within : e.result.toNat - kernbase.toNat + e.n.toNat ≤ npages.toNat * pgsize

/-- The second region starts after the end of the first. -/
def RegionBefore (e e' : BootRegion) : Prop :=
  e.n ≠ 0#32 → e'.n ≠ 0#32 → e.result.toNat + e.n.toNat ≤ e'.result.toNat

section Heap

variable {npages kernEnd nextfree nextfree' s : Word} {e : BootRegion} {es : List BootRegion}

/-- What `boot_alloc` does when it returns. -/
theorem bootCall_iff : BootCall npages kernEnd nextfree e nextfree' ↔
    e.result = firstFree kernEnd nextfree ∧ kernbase ≤ e.result ∧ e.result - kernbase ≤ npages * 4096#32 ∧
      nextfree' = (if e.n = 0#32 then e.result else roundup (e.result + e.n)) := by
  have hrun : bootAllocAt npages kernEnd e.n nextfree =
      if kernbase ≤ firstFree kernEnd nextfree then
        if npages * 4096#32 < firstFree kernEnd nextfree - kernbase then .halt
        else .ret (firstFree kernEnd nextfree) (if e.n = 0#32 then firstFree kernEnd nextfree
          else roundup (firstFree kernEnd nextfree + e.n))
      else .halt := by
    unfold bootAllocAt paddr
    rw [Routine.modify_bind_run, Routine.bind_ret (Routine.get_run _), Routine.bind_assoc_run]
    by_cases hbase : kernbase ≤ firstFree kernEnd nextfree
    · rw [Routine.panicUnless_bind hbase, if_pos hbase, Routine.pure_bind_run, Routine.ite_run, Routine.ite_run]
      split_ifs <;> rfl
    · rw [Routine.panicUnless_bind_not hbase, if_neg hbase]
  unfold BootCall
  rw [hrun]
  constructor
  · intro h
    split_ifs at h with hbase hpast hn
    · obtain ⟨hres, rfl⟩ := Outcome.ret.inj h
      rw [hres] at hbase hpast ⊢
      exact ⟨rfl, hbase, BitVec.not_lt.mp hpast, by rw [if_pos hn]⟩
    · obtain ⟨hres, rfl⟩ := Outcome.ret.inj h
      rw [hres] at hbase hpast ⊢
      exact ⟨rfl, hbase, BitVec.not_lt.mp hpast, by rw [if_neg hn]⟩
  · rintro ⟨hres, hbase, hle, rfl⟩
    rw [← hres, if_pos hbase, if_neg (BitVec.not_lt.mpr hle)]

/-- What holds after any calls for which there was room: nothing has been handed out, or all
regions end before `nextfree`. -/
structure HeapInv (npages kernEnd : Word) (es : List BootRegion) (nextfree : Word) : Prop where
  memory : ∀ e ∈ es, e.n ≠ 0#32 → InMemory npages kernEnd e
  order : es.Pairwise RegionBefore
  below : ∀ e ∈ es, e.n ≠ 0#32 → e.result.toNat + e.n.toNat ≤ nextfree.toNat
  none : nextfree = 0#32 → es = []
  free : nextfree ≠ 0#32 → kernEnd ≤ nextfree ∧ nextfree.toNat % pgsize = 0

theorem HeapInv.start (npages kernEnd : Word) : HeapInv npages kernEnd [] 0#32 :=
  ⟨fun _ he => absurd he List.not_mem_nil, .nil, fun _ he => absurd he List.not_mem_nil, fun _ => rfl,
    fun h => absurd rfl h⟩

/-- The memory from the start of the next region on is free, and it begins with a page. -/
theorem HeapInv.firstFree (h : HeapInv npages kernEnd es nextfree) (hbase : kernbase ≤ firstFree kernEnd nextfree) :
    kernEnd ≤ firstFree kernEnd nextfree ∧ (Sisop.firstFree kernEnd nextfree).toNat % pgsize = 0 ∧
      ∀ e ∈ es, e.n ≠ 0#32 → e.result.toNat + e.n.toNat ≤ (Sisop.firstFree kernEnd nextfree).toNat := by
  unfold Sisop.firstFree at hbase ⊢
  by_cases hz : nextfree = 0#32
  · rw [if_pos hz] at hbase ⊢
    have hroom : kernEnd.toNat + 4096 ≤ 2^32 := by
      by_contra hwrap
      rw [roundup_wrap (Nat.lt_of_not_le hwrap)] at hbase
      exact absurd hbase (by decide)
    have hround := roundup_toNat hroom
    refine ⟨?_, ?_, fun e he => ?_⟩
    · rw [BitVec.le_def]
      omega
    · change _ % 4096 = 0
      omega
    · rw [h.none hz] at he
      exact absurd he List.not_mem_nil
  · rw [if_neg hz]
    exact ⟨(h.free hz).1, (h.free hz).2, h.below⟩

theorem HeapInv.step (h : HeapInv npages kernEnd es nextfree) (hs : FittingCall npages kernEnd nextfree e nextfree') :
    HeapInv npages kernEnd (es ++ [e]) nextfree' := by
  obtain ⟨hcall, hfits⟩ := hs
  obtain ⟨hres, hbase, -, hnext⟩ := bootCall_iff.mp hcall
  have hfree := h.firstFree (by rw [← hres]; exact hbase)
  rw [← hres] at hfree
  obtain ⟨hend, halign, hbelow⟩ := hfree
  have hpos : e.result ≠ 0#32 := by
    intro hz
    rw [hz] at hbase
    exact absurd hbase (by decide)
  have hdiff : (e.result - kernbase).toNat = e.result.toNat - kernbase.toNat := by
    rw [BitVec.le_def] at hbase
    bv_omega
  -- the new `nextfree` is the end of the region, rounded up
  have hge : e.result.toNat + e.n.toNat ≤ nextfree'.toNat ∧ nextfree'.toNat % pgsize = 0 := by
    rw [hnext]
    by_cases hn : e.n = 0#32
    · rw [if_pos hn, hn]
      exact ⟨Nat.le_refl _, halign⟩
    · obtain ⟨-, hroom⟩ := hfits.resolve_left hn
      rw [← hres] at hroom
      change _ + _ + 4096 ≤ _ at hroom
      have hsum : (e.result + e.n).toNat = e.result.toNat + e.n.toNat := by
        rw [BitVec.toNat_add]
        omega
      rw [if_neg hn, roundup_toNat (by omega), hsum]
      change _ ∧ _ % 4096 = 0
      omega
  have hinmem (hn : e.n ≠ 0#32) : InMemory npages kernEnd e := by
    obtain ⟨hwithin, -⟩ := hfits.resolve_left hn
    rw [← hres, hdiff] at hwithin
    exact ⟨halign, hend, hbase, hwithin⟩
  have hlt : 0 < e.result.toNat := by
    rw [Nat.pos_iff_ne_zero]
    exact fun hz => hpos (BitVec.eq_of_toNat_eq hz)
  refine ⟨fun e' he' => ?_, ?_, fun e' he' hn => ?_, fun hz => ?_, fun _ => ⟨?_, hge.2⟩⟩
  · rcases List.mem_append.mp he' with he' | he'
    · exact h.memory e' he'
    · rw [List.mem_singleton.mp he']
      exact hinmem
  · rw [List.pairwise_append]
    refine ⟨h.order, List.pairwise_singleton _ _, fun e₁ h₁ e₂ h₂ hn _ => ?_⟩
    rw [List.mem_singleton.mp h₂]
    exact hbelow e₁ h₁ hn
  · rcases List.mem_append.mp he' with he' | he'
    · exact Nat.le_trans (hbelow e' he' hn) (Nat.le_trans (Nat.le_add_right _ _) hge.1)
    · rw [List.mem_singleton.mp he']
      exact hge.1
  · rw [hz] at hge
    have hle := hge.1
    change _ ≤ 0 at hle
    omega
  · rw [BitVec.le_def] at hend ⊢
    omega

/-- As long as `boot_alloc` is asked for no more than there is, the regions that it hands
out are memory of the machine, they start with a page after the kernel image, and no two of
them overlap. -/
theorem boot_alloc_regions (h : Run (FittingCall npages kernEnd) 0#32 es s) :
    (∀ e ∈ es, e.n ≠ 0#32 → InMemory npages kernEnd e) ∧ es.Pairwise RegionBefore := by
  have hinv : HeapInv npages kernEnd es s := by
    apply h.invariant (I := HeapInv npages kernEnd) (HeapInv.start npages kernEnd)
    exact fun _ _ _ _ ht hs => ht.step hs
  exact ⟨hinv.memory, hinv.order⟩

end Heap

/-- Memory ends one page behind the kernel image, and `boot_alloc` hands out two pages. -/
theorem boot_alloc_past_end : ∃ s, Run (BootCall 257#32 0xf0100000#32) 0#32 [⟨8192#32, 0xf0100000#32⟩] s ∧
    ¬ InMemory 257#32 0xf0100000#32 ⟨8192#32, 0xf0100000#32⟩ := by
  refine ⟨_, .single (bootCall_iff.mpr ⟨by decide, by decide, by decide, rfl⟩), fun h => ?_⟩
  exact absurd h.within (by decide)

/-- Two regions, the second of which is asked for in bytes, and a look at the end of the heap. -/
theorem boot_alloc_regions_one : ∃ s, Run (FittingCall 260#32 0xf0100000#32) 0#32
      [⟨4096#32, 0xf0100000#32⟩, ⟨5000#32, 0xf0101000#32⟩, ⟨0#32, 0xf0103000#32⟩] s ∧
    InMemory 260#32 0xf0100000#32 ⟨5000#32, 0xf0101000#32⟩ ∧ RegionBefore ⟨4096#32, 0xf0100000#32⟩ ⟨5000#32, 0xf0101000#32⟩ := by
  have hfirst : FittingCall 260#32 0xf0100000#32 0#32 ⟨4096#32, 0xf0100000#32⟩ 0xf0101000#32 :=
    ⟨bootCall_iff.mpr ⟨by decide, by decide, by decide, by decide⟩, Or.inr ⟨by decide, by decide⟩⟩
  have hsecond : FittingCall 260#32 0xf0100000#32 0xf0101000#32 ⟨5000#32, 0xf0101000#32⟩ 0xf0103000#32 :=
    ⟨bootCall_iff.mpr ⟨by decide, by decide, by decide, by decide⟩, Or.inr ⟨by decide, by decide⟩⟩
  have hthird : FittingCall 260#32 0xf0100000#32 0xf0103000#32 ⟨0#32, 0xf0103000#32⟩ 0xf0103000#32 :=
    ⟨bootCall_iff.mpr ⟨by decide, by decide, by decide, by decide⟩, Or.inl rfl⟩
  have hrun := ((Run.single hfirst).snoc hsecond).snoc hthird
  obtain ⟨hmemory, horder⟩ := boot_alloc_regions hrun
  exact ⟨_, hrun, hmemory _ (List.mem_cons_of_mem _ List.mem_cons_self) (by decide),
    (List.pairwise_cons.mp horder).1 _ List.mem_cons_self⟩

end Sisop
