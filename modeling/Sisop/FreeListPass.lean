import Sisop.Boot
import Sisop.Thread

/-! The pass of `check_page_free_list` that moves the pages of low memory to the front of the free list. It takes the list apart
through pointers to the links of that same list. -/
namespace Sisop

/-- A `struct PageInfo **`: one of the two local variables, or the link of a page. -/
inductive LinkPtr where
  | pp1
  | pp2
  | link (pp : ℕ)
  deriving DecidableEq

/-- The kernel's memory and the local variables of the pass. -/
structure FreeListPass where
  pm : Pm
  pp1 : Option ℕ
  pp2 : Option ℕ
  tp : Bool → LinkPtr

namespace FreeListPass

def load (s : FreeListPass) : LinkPtr → Option ℕ
  | .pp1 => s.pp1
  | .pp2 => s.pp2
  | .link pp => (s.pm.pages pp).ppLink

def store (s : FreeListPass) (p : LinkPtr) (v : Option ℕ) : FreeListPass :=
  match p with
  | .pp1 => { s with pp1 := v }
  | .pp2 => { s with pp2 := v }
  | .link pp => { s with pm := s.pm.setLink pp v }

end FreeListPass

/-- `pdx_limit`. -/
def pdxLimit (onlyLowMemory : Bool) : ℕ := if onlyLowMemory then 1 else 1024

/-- `pagetype`, in the pass. -/
def pagetype (pp : ℕ) : Bool := decide (pdxLimit true ≤ pdx (page2pa pp))

/-- A round of the loop. -/
def passRound (pp : ℕ) (s : FreeListPass) : FreeListPass :=
  let s := s.store (s.tp (pagetype pp)) (some pp)
  { s with tp := Function.update s.tp (pagetype pp) (.link pp) }

/-- The loop, for at most `n` pages. -/
def passLoop : ℕ → Option ℕ → FreeListPass → Option FreeListPass
  | _, none, s => some s
  | 0, some _, _ => none
  | n + 1, some pp, s =>
    let s := passRound pp s
    passLoop n (s.load (.link pp)) s

/-- What follows the loop. -/
def passEnd (s : FreeListPass) : Pm :=
  let s := s.store (s.tp true) none
  let s := s.store (s.tp false) s.pp2
  { s.pm with pageFreeList := s.pp1 }

/-- `check_page_free_list(1)` up to the end of the pass, for a list of at most `n` pages. The local variables are not
initialised. -/
def checkPageFreeListPass (n : ℕ) (pp1 pp2 : Option ℕ) : Routine Pm Unit := fun s =>
  if s.pageFreeList = none then .halt
  else match passLoop n s.pageFreeList ⟨s, pp1, pp2, fun b => if b then .pp2 else .pp1⟩ with
    | none => .halt
    | some t => .ret () (passEnd t)

/-- All but the links, and the links of pages that are not on the list, are as before. -/
structure SameButLinks (s s' : Pm) (l : List ℕ) : Prop where
  npages : s'.npages = s.npages
  kernPgdir : s'.kernPgdir = s.kernPgdir
  word : s'.word = s.word
  ppRef : ∀ p, (s'.pages p).ppRef = (s.pages p).ppRef
  pages : ∀ p, p ∉ l → s'.pages p = s.pages p

/-- Where the two new lists start. -/
def passStart (b : Bool) : LinkPtr := if b then .pp2 else .pp1

/-- The pages that have been seen are on the two new lists, and those that are to come are still on the old one. -/
structure Parted (s₀ : Pm) (l : List ℕ) (s : FreeListPass) (parts : Bool → List ℕ) (todo : List ℕ) (pp : Option ℕ) : Prop where
  thread : ∀ b, Thread s.load .link (passStart b) (parts b) (s.tp b)
  chain : Chain (fun p => s.load (.link p)) pp todo
  nodup : ∀ b, (parts b).Nodup
  apart : ∀ b, ∀ p ∈ parts b, p ∉ parts (!b)
  todoNodup : todo.Nodup
  todoApart : ∀ b, ∀ p ∈ parts b, p ∉ todo
  mem : ∀ b, ∀ p ∈ parts b, p ∈ l
  todoMem : ∀ p ∈ todo, p ∈ l
  same : SameButLinks s₀ s.pm l

section Pass

variable {s₀ : Pm} {s : FreeListPass} {parts : Bool → List ℕ} {l todo : List ℕ} {head : Option ℕ} {pp : ℕ} {b : Bool} {x : LinkPtr}

theorem load_store (s : FreeListPass) (p x : LinkPtr) (v : Option ℕ) :
    (s.store p v).load x = if x = p then v else s.load x := by
  cases p with
  | pp1 => cases x <;> rfl
  | pp2 => cases x <;> rfl
  | link p =>
    cases x with
    | pp1 => rfl
    | pp2 => rfl
    | link q =>
      change ((s.pm.setLink p v).pages q).ppLink = _
      rw [setLink_pages]
      by_cases hq : q = p
      · rw [if_pos hq, if_pos (congrArg LinkPtr.link hq)]
      · rw [if_neg hq, if_neg fun h => hq (LinkPtr.link.inj h)]
        rfl

theorem store_tp (s : FreeListPass) (p : LinkPtr) (v : Option ℕ) : (s.store p v).tp = s.tp := by
  cases p <;> rfl

theorem load_round (pp : ℕ) (s : FreeListPass) (x : LinkPtr) :
    (passRound pp s).load x = if x = s.tp (pagetype pp) then some pp else s.load x :=
  load_store s _ x _

namespace Parted

theorem cells_nodup (h : Parted s₀ l s parts todo head) (b : Bool) : (passStart b :: (parts b).map LinkPtr.link).Nodup := by
  apply List.nodup_cons.mpr
  refine ⟨fun hmem => ?_, (h.nodup b).map fun _ _ => LinkPtr.link.inj⟩
  obtain ⟨p, -, hp⟩ := List.mem_map.mp hmem
  cases b <;> cases hp

/-- The two new lists have no cell in common. -/
theorem cells_apart (h : Parted s₀ l s parts todo head) (hx : x ∈ passStart b :: (parts b).map LinkPtr.link) :
    x ∉ passStart (!b) :: (parts (!b)).map LinkPtr.link := by
  intro hx'
  rcases List.mem_cons.mp hx with rfl | hx
  · rcases List.mem_cons.mp hx' with heq | hx'
    · cases b <;> cases heq
    · obtain ⟨p, -, hp⟩ := List.mem_map.mp hx'
      cases b <;> cases hp
  · obtain ⟨p, hp, rfl⟩ := List.mem_map.mp hx
    rcases List.mem_cons.mp hx' with heq | hx'
    · cases b <;> cases heq
    · obtain ⟨q, hq, heq⟩ := List.mem_map.mp hx'
      obtain rfl := LinkPtr.link.inj heq
      exact h.apart b q hp hq

/-- The link of a page that is to come is not stored to. -/
theorem todo_link (h : Parted s₀ l s parts todo head) (hp : pp ∈ todo) (b : Bool) : LinkPtr.link pp ≠ s.tp b := by
  intro heq
  rcases List.mem_cons.mp (heq ▸ (h.thread b).tail_mem) with hstart | hmem
  · cases b <;> cases hstart
  · obtain ⟨q, hq, heq⟩ := List.mem_map.mp hmem
    obtain rfl := LinkPtr.link.inj heq
    exact h.todoApart b q hq hp

/-- A new list ends in a local variable or in the link of one of the pages. -/
theorem tp_mem (h : Parted s₀ l s parts todo head) (heq : s.tp b = .link pp) : pp ∈ l := by
  rcases List.mem_cons.mp (heq ▸ (h.thread b).tail_mem) with hstart | hmem
  · cases b <;> cases hstart
  · obtain ⟨q, hq, hlink⟩ := List.mem_map.mp hmem
    obtain rfl := LinkPtr.link.inj hlink
    exact h.mem b q hq

end Parted

theorem SameButLinks.store (h : SameButLinks s₀ s.pm l) (hx : ∀ p, x = .link p → p ∈ l) (v : Option ℕ) :
    SameButLinks s₀ (s.store x v).pm l := by
  cases x with
  | pp1 => exact h
  | pp2 => exact h
  | link p =>
    have hpages (q : ℕ) : ((s.store (.link p) v).pm.pages q) = if q = p then { s.pm.pages p with ppLink := v } else s.pm.pages q :=
      setLink_pages s.pm p q v
    refine ⟨h.npages, h.kernPgdir, h.word, fun q => ?_, fun q hq => ?_⟩
    · rw [hpages, ← h.ppRef q]
      split
      next hqp => rw [hqp]
      next => rfl
    · have hne : q ≠ p := fun hqp => hq (hqp ▸ hx p rfl)
      rw [hpages, if_neg hne, h.pages q hq]

/-- A page goes to the end of its new list. -/
theorem Parted.round (h : Parted s₀ l s parts (pp :: todo) head) :
    Parted s₀ l (passRound pp s) (Function.update parts (pagetype pp) (parts (pagetype pp) ++ [pp])) todo
      ((passRound pp s).load (.link pp)) := by
  have hload := load_round pp s
  generalize hb : pagetype pp = b at hload ⊢
  have htp : (passRound pp s).tp = Function.update s.tp b (.link pp) := by
    rw [← hb, passRound, store_tp]
  have hmem (c : Bool) : pp ∉ parts c := fun hp => h.todoApart c pp hp List.mem_cons_self
  obtain ⟨hpp, hnodup⟩ := List.nodup_cons.mp h.todoNodup
  have hparts (c : Bool) (q : ℕ) : q ∈ Function.update parts b (parts b ++ [pp]) c ↔ q ∈ parts c ∨ c = b ∧ q = pp := by
    by_cases hc : c = b
    · subst hc
      rw [Function.update_self, List.mem_append, List.mem_singleton, and_iff_right rfl]
    · rw [Function.update_of_ne hc]
      exact (or_iff_left fun h => hc h.1).symm
  have hnext (q : ℕ) (hq : q ∈ pp :: todo) : (passRound pp s).load (.link q) = s.load (.link q) := by
    rw [hload, if_neg (h.todo_link hq b)]
  constructor
  · intro c
    rw [htp]
    by_cases hc : c = b
    · subst hc
      rw [Function.update_self, Function.update_self]
      have hthread : Thread (passRound pp s).load .link (passStart c) (parts c) (s.tp c) :=
        (h.thread c).congr (h.cells_nodup c) fun x _ hx => by rw [hload, if_neg hx]
      apply hthread.snoc
      rw [hload, if_pos rfl]
    · rw [Function.update_of_ne hc, Function.update_of_ne hc]
      apply (h.thread c).congr (h.cells_nodup c)
      intro x hx _
      have hne : x ≠ s.tp b := by
        rintro rfl
        have hcb : b = !c := by cases b <;> cases c <;> simp_all
        exact h.cells_apart hx (hcb ▸ (h.thread b).tail_mem)
      rw [hload, if_neg hne]
  · rw [hnext pp List.mem_cons_self]
    exact h.chain.2.congr fun q hq => hnext q (List.mem_cons_of_mem pp hq)
  · intro c
    by_cases hc : c = b
    · subst hc
      rw [Function.update_self]
      exact List.nodup_append.mpr ⟨h.nodup c, List.nodup_singleton pp, fun q hq r hr hqr =>
        hmem c (List.mem_singleton.mp hr ▸ hqr ▸ hq)⟩
    · rw [Function.update_of_ne hc]
      exact h.nodup c
  · intro c q hq hq'
    rw [hparts] at hq hq'
    rcases hq with hq | ⟨hc, rfl⟩
    · rcases hq' with hq' | ⟨-, rfl⟩
      · exact h.apart c q hq hq'
      · exact hmem c hq
    · rcases hq' with hq' | ⟨hc', -⟩
      · exact hmem _ hq'
      · exact Bool.self_ne_not c (hc.trans hc'.symm)
  · exact hnodup
  · intro c q hq hq'
    rw [hparts] at hq
    rcases hq with hq | ⟨-, rfl⟩
    · exact h.todoApart c q hq (List.mem_cons_of_mem pp hq')
    · exact hpp hq'
  · intro c q hq
    rw [hparts] at hq
    rcases hq with hq | ⟨-, rfl⟩
    · exact h.mem c q hq
    · exact h.todoMem q List.mem_cons_self
  · exact fun q hq => h.todoMem q (List.mem_cons_of_mem pp hq)
  · exact h.same.store (fun q hq => h.tp_mem hq) _

/-- The loop ends, and every page is on the new list of its kind, in the old order. -/
theorem Parted.loop (h : Parted s₀ l s parts todo head) (n : ℕ) (hn : todo.length ≤ n) : ∃ t, passLoop n head s = some t ∧
    Parted s₀ l t (fun b => parts b ++ todo.filter (pagetype · = b)) [] none := by
  induction todo generalizing s parts head n with
  | nil =>
    obtain rfl : head = none := h.chain
    refine ⟨s, by cases n <;> rfl, ?_⟩
    simpa only [List.filter_nil, List.append_nil] using h
  | cons pp todo ih =>
    obtain rfl : head = some pp := h.chain.1
    cases n with
    | zero => exact absurd hn (Nat.not_succ_le_zero _)
    | succ n =>
      obtain ⟨t, ht, hparted⟩ := ih h.round n (Nat.le_of_succ_le_succ hn)
      refine ⟨t, ht, ?_⟩
      have heq : (fun b => parts b ++ (pp :: todo).filter (pagetype · = b)) =
          fun b => Function.update parts (pagetype pp) (parts (pagetype pp) ++ [pp]) b ++ todo.filter (pagetype · = b) := by
        funext b
        by_cases hb : b = pagetype pp
        · subst hb
          rw [Function.update_self, List.filter_cons, if_pos (decide_eq_true rfl), List.append_assoc, List.singleton_append]
        · have hne : ¬ decide (pagetype pp = b) = true := fun hpp => hb (of_decide_eq_true hpp).symm
          rw [Function.update_of_ne hb, List.filter_cons, if_neg hne]
      rw [heq]
      exact hparted

/-- The second new list goes behind the first one. -/
theorem Parted.joined (h : Parted s₀ l s parts [] none) :
    Chain (fun p => ((passEnd s).pages p).ppLink) (passEnd s).pageFreeList (parts false ++ parts true) ∧
      SameButLinks s₀ (passEnd s) l := by
  let s₁ := s.store (s.tp true) none
  let s₂ := s₁.store (s.tp false) s₁.pp2
  have hend : passEnd s = { s₂.pm with pageFreeList := s₂.pp1 } := by
    unfold passEnd
    simp only [store_tp]
    rfl
  have hload₁ (x : LinkPtr) : s₁.load x = if x = s.tp true then none else s.load x := load_store s _ x _
  have hload₂ (x : LinkPtr) : s₂.load x = if x = s.tp false then s₁.load .pp2 else s₁.load x := load_store s₁ _ x _
  rw [hend]
  constructor
  · have hhigh : Chain (fun p => s₂.load (.link p)) (s₁.load .pp2) (parts true) := by
      have hthread : Thread s₁.load .link .pp2 (parts true) (s.tp true) :=
        (h.thread true).congr (h.cells_nodup true) fun x _ hx => by rw [hload₁, if_neg hx]
      have hnull : Chain (fun p => s₁.load (.link p)) (s₁.load (s.tp true)) [] := by
        rw [hload₁, if_pos rfl]
        rfl
      have hchain := hthread.chain hnull
      rw [List.append_nil] at hchain
      apply hchain.congr
      intro p hp
      rw [hload₂, if_neg]
      intro heq
      have hcell : LinkPtr.link p ∈ passStart true :: (parts true).map LinkPtr.link :=
        List.mem_cons_of_mem _ (List.mem_map_of_mem hp)
      exact h.cells_apart hcell (heq ▸ (h.thread false).tail_mem)
    have hlow : Thread s₂.load .link .pp1 (parts false) (s.tp false) := by
      apply (h.thread false).congr (h.cells_nodup false)
      intro x hx hne
      have hne' : x ≠ s.tp true := by
        rintro rfl
        exact h.cells_apart hx (h.thread true).tail_mem
      rw [hload₂, if_neg hne, hload₁, if_neg hne']
    have hjoin : Chain (fun p => s₂.load (.link p)) (s₂.load (s.tp false)) (parts true) := by
      rw [hload₂, if_pos rfl]
      exact hhigh
    exact hlow.chain hjoin
  · obtain ⟨hn, hk, hw, hr, hp⟩ := (h.same.store (fun p hp => h.tp_mem hp) none).store (fun p hp => h.tp_mem hp) s₁.pp2
    exact ⟨hn, hk, hw, hr, hp⟩

end Pass

section Order

variable {s : Pm} {l : List ℕ} {n : ℕ}

/-- The pages of low memory, and then the others, both in the old order. -/
def lowMemoryFirst (l : List ℕ) : List ℕ :=
  l.filter (fun pp => decide (pdx (page2pa pp) < pdxLimit true)) ++ l.filter fun pp => decide (¬ pdx (page2pa pp) < pdxLimit true)

/-- The pass puts the pages of low memory in front. -/
theorem check_page_free_list_order (hl : Chain (fun p => (s.pages p).ppLink) s.pageFreeList l) (hnd : l.Nodup) (hne : l ≠ [])
    (hn : l.length ≤ n) (pp1 pp2 : Option ℕ) : ∃ s', checkPageFreeListPass n pp1 pp2 s = .ret () s' ∧
      Chain (fun p => (s'.pages p).ppLink) s'.pageFreeList (lowMemoryFirst l) ∧ (lowMemoryFirst l).Perm l ∧
      SameButLinks s s' l := by
  have hstart : Parted s l ⟨s, pp1, pp2, fun b => if b then .pp2 else .pp1⟩ (fun _ => []) l s.pageFreeList := by
    refine ⟨fun b => ?_, hl, fun _ => List.nodup_nil, nofun, hnd, nofun, nofun, fun _ hp => hp, rfl, rfl, rfl, fun _ => rfl, fun _ _ => rfl⟩
    cases b <;> rfl
  obtain ⟨t, ht, hparted⟩ := hstart.loop n hn
  obtain ⟨hchain, hsame⟩ := hparted.joined
  have hlow : ([] : List ℕ) ++ l.filter (pagetype · = false) ++ ([] ++ l.filter (pagetype · = true)) = lowMemoryFirst l := by
    unfold lowMemoryFirst pagetype
    rw [List.nil_append, List.nil_append]
    simp only [decide_eq_false_iff_not, decide_eq_true_eq, not_le, not_lt]
  rw [hlow] at hchain
  refine ⟨passEnd t, ?_, hchain, ?_, hsame⟩
  · have hhead : s.pageFreeList ≠ none := by
      cases l with
      | nil => exact absurd rfl hne
      | cons a l =>
        rw [hl.1]
        nofun
    unfold checkPageFreeListPass
    rw [if_neg hhead, ht]
  · unfold lowMemoryFirst
    have hnot : (fun pp => decide (¬ pdx (page2pa pp) < pdxLimit true)) = fun pp => !decide (pdx (page2pa pp) < pdxLimit true) :=
      funext fun pp => decide_not
    rw [hnot]
    exact List.filter_append_perm _ l

/-- A page of low memory behind one that is not. -/
theorem check_page_free_list_two :
    let s : Pm := ⟨2048, fun p => ⟨if p = 1024 then some 1 else none, 0⟩, some 1024, 0, fun _ _ => 0#32⟩
    ∃ s', checkPageFreeListPass 2 none none s = .ret () s' ∧
      Chain (fun p => (s'.pages p).ppLink) s'.pageFreeList (lowMemoryFirst [1024, 1]) ∧ (lowMemoryFirst [1024, 1]).Perm [1024, 1] ∧
      SameButLinks s s' [1024, 1] := by
  intro s
  have hl : Chain (fun p => (s.pages p).ppLink) s.pageFreeList [1024, 1] := ⟨rfl, rfl, rfl⟩
  exact check_page_free_list_order hl (by decide) (by decide) le_rfl none none

end Order
end Sisop
