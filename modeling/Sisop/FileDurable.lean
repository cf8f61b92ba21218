import Sisop.CacheFiles
import Sisop.CreateFailure

/-! What a crash leaves of the files. The server starts again with no block in memory, and sees
what the disk has. -/
namespace Sisop

/-- What the server sees after a crash: it has no block in memory, and its page faults bring in those of
the disk, if the bitmap has them in use. -/
def Fs.crashed (s : Fs) : Fs := ⟨s.disk, s.disk, fun _ => false⟩

/-- A block that is not dirty is in memory as it is on the disk. -/
def Fs.Synced (s : Fs) : Prop := ∀ a, s.dirty (blockOf a) = false → s.mem a = s.disk a

/-- A server that has just started. -/
def Fs.Started (s : Fs) : Prop := s.mem = s.disk ∧ ∀ b, s.dirty b = false

/-- The calls of the server, with any arguments. A crash may come at any time: a server may
start with any disk. -/
inductive FsCall : Fs → Fs → Prop where
  | create {path : List (BitVec 8)} {r : Except FsErr Word} {s s' : Fs} (h : fileCreate fileGetBlock path s = .ret r s') : FsCall s s'
  | openFile {path : List (BitVec 8)} {r : Except FsErr Word} {s s' : Fs} (h : fileOpen fileGetBlock path s = .ret r s') : FsCall s s'
  | getBlock {f : Word} {filebno : ℕ} {r : Except FsErr Word} {s s' : Fs} (h : fileGetBlock f filebno s = .ret r s') : FsCall s s'
  | read {f count offset : Word} {r : Except FsErr (List (BitVec 8))} {s s' : Fs}
      (h : fileRead fileGetBlock f count offset s = .ret r s') : FsCall s s'
  | write {f offset : Word} {buf : List (BitVec 8)} {r : Except FsErr Word} {s s' : Fs}
      (h : fileWrite fileGetBlock f buf offset s = .ret r s') : FsCall s s'
  | store {va : Word} {bs : List (BitVec 8)} {s : Fs} : FsCall s (s.storeBytes va bs)
  | setSize {f newsize : Word} {r : Except FsErr Unit} {s s' : Fs} (h : fileSetSize f newsize s = .ret r s') : FsCall s s'
  | flush {f : Word} {s s' : Fs} (h : fileFlush f s = .ret () s') : FsCall s s'
  | sync {s s' : Fs} (h : fsSync s = .ret () s') : FsCall s s'
  | crash {s : Fs} : FsCall s s.crashed

section Syncs

variable {α β : Type} {s : Fs} {va w f : Word} {b i : ℕ} {path : List (BitVec 8)}

theorem blockOf_span {a : Word} (h : InSpan va 4 a) : blockOf a = blockOf va ∨ blockOf a = blockOf (va + 3#32) := by
  have hva := (va - diskmap).isLt
  unfold InSpan at h
  have ha : (a - diskmap).toNat = ((va - diskmap).toNat + (a - va).toNat) % 2^32 := by
    rw [← BitVec.toNat_add]
    congr 1
    bv_omega
  have hend : (va + 3#32 - diskmap).toNat = ((va - diskmap).toNat + 3) % 2^32 := by
    rw [show va + 3#32 - diskmap = (va - diskmap) + 3#32 by bv_omega, BitVec.toNat_add]
    rfl
  unfold blockOf
  rw [ha, hend]
  change _ / 4096 = _ / 4096 ∨ _ / 4096 = _ / 4096
  omega

namespace Fs.Synced

theorem started (h : s.Started) : s.Synced := fun a _ => congrFun h.1 a

theorem crashed (s : Fs) : s.crashed.Synced := fun _ _ => rfl

/-- A store to blocks that are dirty behind it. -/
theorem stored (h : s.Synced) {m : ByteMem} {d : ℕ → Bool}
    (hd : ∀ a, d (blockOf a) = false → s.dirty (blockOf a) = false ∧ m a = s.mem a) : Fs.Synced ⟨m, s.disk, d⟩ := by
  intro a ha
  obtain ⟨hclean, hsame⟩ := hd a ha
  exact hsame.trans (h a hclean)

theorem storeUint (h : s.Synced) (va w : Word) : (s.storeUint va w).Synced := by
  refine h.stored fun a ha => ?_
  rw [Function.update_apply, Function.update_apply] at ha
  split_ifs at ha with hlast hfirst
  refine ⟨ha, storeWord_of_not_inSpan fun hin => ?_⟩
  exact (blockOf_span hin).elim hfirst hlast

theorem storeBytes (h : s.Synced) (va : Word) (bs : List (BitVec 8)) : (s.storeBytes va bs).Synced := by
  refine h.stored fun a ha => ?_
  obtain ⟨hclean, hany⟩ := Bool.or_eq_false_iff.mp ha
  refine ⟨hclean, writeBytes_of_not_inSpan fun hin => ?_⟩
  have hnot := List.any_eq_false.mp hany _ (List.mem_range.mpr hin)
  apply hnot
  rw [BitVec.ofNat_toNat, BitVec.setWidth_eq, show va + (a - va) = a by bv_omega]
  exact decide_eq_true rfl

theorem zeroBlock (h : s.Synced) (b : ℕ) : (s.zeroBlock b).Synced := by
  refine h.stored fun a ha => ?_
  rw [Function.update_apply] at ha
  split_ifs at ha with hb
  exact ⟨ha, if_neg hb⟩

theorem flush (h : s.Synced) (b : ℕ) : (s.flush b).Synced := by
  unfold Fs.flush
  split
  · intro a ha
    change Function.update s.dirty b false (blockOf a) = false at ha
    change s.mem a = if blockOf a = b then s.mem a else s.disk a
    by_cases hb : blockOf a = b
    · rw [if_pos hb]
    · rw [if_neg hb]
      rw [Function.update_of_ne hb] at ha
      exact h a ha
  · exact h

end Fs.Synced

/-- A routine that keeps in memory what is on the disk, where nothing is dirty. -/
abbrev Syncs (m : Routine Fs α) : Prop := Routine.Triple Fs.Synced m (fun _ => Fs.Synced) Fs.Synced

theorem Syncs.bind {m : Routine Fs α} {k : α → Routine Fs β} (hm : Syncs m) (hk : ∀ a, Syncs (k a)) : Syncs (m >>= k) :=
  Routine.Triple.bind hm hk

theorem Syncs.pure (a : α) : Syncs (pure a : Routine Fs α) := Routine.Triple.pure fun _ h => h

theorem Syncs.get : Syncs (Routine.get : Routine Fs Fs) := Routine.Triple.gets_same id

theorem Syncs.ite {c : Prop} [Decidable c] {m n : Routine Fs α} (hm : Syncs m) (hn : Syncs n) : Syncs (if c then m else n) :=
  Routine.Triple.ite_same hm hn

theorem Syncs.loop {body : ℕ → Routine Fs Unit} (hb : ∀ i, Syncs (body i)) (n : ℕ) : Syncs (Routine.loop n body) :=
  Routine.Triple.loop n fun i _ => hb i

theorem Syncs.storeUint (va w : Word) : Syncs (Routine.modify (Fs.storeUint va w)) :=
  Routine.Triple.modify fun _ h => h.storeUint va w

theorem Syncs.panicUnless (p : Prop) [Decidable p] : Syncs (Routine.panicUnless p) :=
  Syncs.ite (Syncs.pure ()) Routine.Triple.halt

theorem Syncs.orReturn {r : Except FsErr α} {k : α → Routine Fs (Except FsErr β)} (hk : ∀ a, Syncs (k a)) :
    Syncs (orReturn r k) := by
  cases r with
  | error e => exact .pure _
  | ok a => exact hk a

/-- Splits up a call into its parts, each of which keeps the memory in step with the disk. -/
theorem flushBlock_syncs (va : Word) : Syncs (flushBlock va) :=
  (Syncs.panicUnless _).bind fun _ => Routine.Triple.modify fun _ h => h.flush _

theorem diskaddr_syncs (w : Word) : Syncs (diskaddr w) :=
  Syncs.get.bind fun _ => (Syncs.panicUnless _).bind fun _ => .pure _

theorem freeBlock_syncs (b : ℕ) : Syncs (freeBlock b) :=
  (Syncs.panicUnless _).bind fun _ => Syncs.get.bind fun _ => .storeUint _ _

theorem allocBlock_syncs : Syncs allocBlock := by
  refine Syncs.get.bind fun s => ?_
  cases (List.range (nblocksIn s.mem)).find? (blockFree s.mem) with
  | none => exact .pure _
  | some b => exact (Syncs.storeUint _ _).bind fun _ => (flushBlock_syncs _).bind fun _ => .pure _

theorem indirectSlot_syncs (f : Word) (i : ℕ) : Syncs (indirectSlot f i) :=
  Syncs.get.bind fun _ => (diskaddr_syncs _).bind fun _ => .pure _

theorem newIndirect_syncs (f : Word) : Syncs (newIndirect f) := by
  refine allocBlock_syncs.bind fun r => .orReturn fun b => (Syncs.storeUint _ _).bind fun _ => ?_
  refine (diskaddr_syncs _).bind fun va => ?_
  refine Syncs.bind (Routine.Triple.modify fun _ h => h.zeroBlock _) fun _ => ?_
  exact (flushBlock_syncs va).bind fun _ => .pure _

theorem fileBlockWalk_syncs (f : Word) (i : ℕ) (alloc : Bool) : Syncs (fileBlockWalk f i alloc) := by
  refine Syncs.get.bind fun s => .ite (.pure _) (.ite (.pure _) (.ite (indirectSlot_syncs f i) (.ite (.pure _) ?_)))
  exact (newIndirect_syncs f).bind fun _ => .orReturn fun _ => indirectSlot_syncs f i

theorem slotBlock_syncs (slot : Word) : Syncs (slotBlock slot) :=
  Syncs.get.bind fun _ => (diskaddr_syncs _).bind fun _ => .pure _

theorem getSlot_syncs (slot : Word) : Syncs (getSlot slot) :=
  Syncs.get.bind fun _ => .ite (slotBlock_syncs slot)
    (allocBlock_syncs.bind fun _ => (Syncs.storeUint _ _).bind fun _ => slotBlock_syncs slot)

theorem fileGetBlock_syncs (f : Word) (i : ℕ) : Syncs (fileGetBlock f i) :=
  (fileBlockWalk_syncs f i true).bind fun _ => .orReturn getSlot_syncs

theorem fileFreeBlock_syncs (f : Word) (i : ℕ) : Syncs (fileFreeBlock f i) :=
  (fileBlockWalk_syncs f i false).bind fun _ => .orReturn fun _ => Syncs.get.bind fun _ =>
    .ite ((freeBlock_syncs _).bind fun _ => (Syncs.storeUint _ _).bind fun _ => .pure _) (.pure _)

theorem fileTruncateBlocks_syncs (f newsize : Word) : Syncs (fileTruncateBlocks f newsize) := by
  refine Syncs.get.bind fun s => Syncs.bind ?_ fun _ => Syncs.get.bind fun t => .ite ?_ (.pure _)
  · exact .loop (fun i => (fileFreeBlock_syncs f _).bind fun _ => .pure _) _
  · exact (freeBlock_syncs _).bind fun _ => .storeUint _ _

theorem fileSetSize_syncs (f newsize : Word) : Syncs (fileSetSize f newsize) := by
  have hset (k : Unit) : Syncs (do
      Routine.modify (Fs.storeUint (fSizeAddr f) newsize)
      flushBlock f
      return .ok () : Routine Fs (Except FsErr Unit)) :=
    (Syncs.storeUint _ _).bind fun _ => (flushBlock_syncs f).bind fun _ => .pure _
  exact Syncs.get.bind fun _ => .ite ((fileTruncateBlocks_syncs f newsize).bind hset) (hset ())

theorem flushFileBlock_syncs (f : Word) (i : ℕ) : Syncs (flushFileBlock f i) := by
  refine (fileBlockWalk_syncs f i false).bind fun r => ?_
  cases r with
  | error e => exact .pure _
  | ok slot => exact Syncs.get.bind fun _ => .ite (.pure _) ((diskaddr_syncs _).bind flushBlock_syncs)

theorem fileFlush_syncs (f : Word) : Syncs (fileFlush f) :=
  Syncs.get.bind fun _ => (Syncs.loop (flushFileBlock_syncs f) _).bind fun _ => (flushBlock_syncs f).bind fun _ =>
    .ite ((diskaddr_syncs _).bind flushBlock_syncs) (.pure _)

theorem fsSync_syncs : Syncs fsSync :=
  Syncs.get.bind fun _ => .loop (fun _ => (diskaddr_syncs _).bind flushBlock_syncs) _

theorem dirFind_syncs (p : ByteMem → Word → Bool) (d : Word) (n i : ℕ) : Syncs (dirFind fileGetBlock p d n i) := by
  induction n generalizing i with
  | zero => exact .pure _
  | succ n ih =>
    refine (fileGetBlock_syncs d i).bind fun r => .orReturn fun blk => Syncs.get.bind fun s => ?_
    cases (List.range blkfiles).find? fun j => p s.mem (entryAddr blk j) with
    | some j => exact .pure _
    | none => exact ih (i + 1)

theorem dirBlocks_syncs (d : Word) : Syncs (dirBlocks d) :=
  Syncs.get.bind fun _ => (Syncs.panicUnless _).bind fun _ => .pure _

theorem dirLookup_syncs (d : Word) (name : List (BitVec 8)) : Syncs (dirLookup fileGetBlock d name) :=
  (dirBlocks_syncs d).bind fun _ => (dirFind_syncs _ d _ 0).bind fun _ => .orReturn fun _ => .pure _

theorem dirAllocFile_syncs (d : Word) : Syncs (dirAllocFile fileGetBlock d) := by
  refine (dirBlocks_syncs d).bind fun n => (dirFind_syncs _ d _ 0).bind fun r => .orReturn fun o => ?_
  cases o with
  | some f => exact .pure _
  | none => exact Syncs.bind (Routine.Triple.modify fun _ h => h.storeUint _ _) fun _ => fileGetBlock_syncs d n

theorem walkFrom_syncs (path : List (BitVec 8)) (dir : Option Word) (f : Word) : Syncs (walkFrom fileGetBlock path dir f) := by
  induction path, dir, f using walkFrom.induct with
  | case1 dir f =>
    unfold walkFrom
    exact .pure _
  | case2 path dir f hpath rest ih =>
    unfold walkFrom
    rw [dif_neg hpath]
    refine Syncs.get.bind fun s => .ite (.pure _) (.ite (.pure _) ((dirLookup_syncs f _).bind fun r => ?_))
    cases r with
    | ok f' => exact ih f'
    | error e => exact .pure _

theorem fileCreate_syncs (path : List (BitVec 8)) : Syncs (fileCreate fileGetBlock path) := by
  refine (walkFrom_syncs _ none rootAddr).bind fun w => ?_
  cases w with
  | found _ _ => exact .pure _
  | failed _ => exact .pure _
  | missing d name =>
    refine (dirAllocFile_syncs d).bind fun r => .orReturn fun f => ?_
    exact Syncs.bind (Routine.Triple.modify fun _ h => h.storeBytes f _) fun _ => (fileFlush_syncs d).bind fun _ => .pure _

theorem fileOpen_syncs (path : List (BitVec 8)) : Syncs (fileOpen fileGetBlock path) :=
  (walkFrom_syncs _ none rootAddr).bind fun _ => .pure _

theorem readSpans_syncs (f : Word) (sps : List Span) (buf : List (BitVec 8)) : Syncs (readSpans fileGetBlock f sps buf) := by
  induction sps generalizing buf with
  | nil => exact .pure _
  | cons sp sps ih => exact (fileGetBlock_syncs f _).bind fun _ => .orReturn fun _ => Syncs.get.bind fun _ => ih _

theorem fileRead_syncs (f count offset : Word) : Syncs (fileRead fileGetBlock f count offset) :=
  Syncs.get.bind fun _ => .ite (.pure _) (readSpans_syncs f _ _)

theorem writeSpans_syncs (f : Word) (sps : List Span) (buf : List (BitVec 8)) : Syncs (writeSpans fileGetBlock f sps buf) := by
  induction sps generalizing buf with
  | nil => exact .pure _
  | cons sp sps ih =>
    refine (fileGetBlock_syncs f _).bind fun _ => .orReturn fun _ => ?_
    exact Syncs.bind (Routine.Triple.modify fun _ h => h.storeBytes _ _) fun _ => ih _

theorem fileWrite_syncs (f : Word) (buf : List (BitVec 8)) (offset : Word) : Syncs (fileWrite fileGetBlock f buf offset) := by
  have hwrite (r : Except FsErr Unit) : Syncs (orReturn r fun _ => do
      let r ← writeSpans fileGetBlock f (spansOf offset (BitVec.ofNat 32 buf.length)) buf
      orReturn r fun _ => return .ok (BitVec.ofNat 32 buf.length)) :=
    .orReturn fun _ => (writeSpans_syncs f _ _).bind fun _ => .orReturn fun _ => .pure _
  exact Syncs.get.bind fun _ => .ite ((fileSetSize_syncs f _).bind hwrite) ((Syncs.pure _).bind hwrite)

theorem FsCall.synced {s s' : Fs} (h : s.Synced) (hc : FsCall s s') : s'.Synced := by
  cases hc with
  | create hr => exact (fileCreate_syncs _).ret h hr
  | openFile hr => exact (fileOpen_syncs _).ret h hr
  | getBlock hr => exact (fileGetBlock_syncs _ _).ret h hr
  | read hr => exact (fileRead_syncs _ _ _).ret h hr
  | write hr => exact (fileWrite_syncs _ _ _).ret h hr
  | store => exact h.storeBytes _ _
  | setSize hr => exact (fileSetSize_syncs _ _).ret h hr
  | flush hr => exact (fileFlush_syncs _).ret h hr
  | sync hr => exact fsSync_syncs.ret h hr
  | crash => exact .crashed s

end Syncs

section Flush

variable {s s' : Fs} {f va : Word} {b i n : ℕ}

theorem flush_dirty (s : Fs) (b : ℕ) : (s.flush b).dirty = Function.update s.dirty b false := by
  unfold Fs.flush
  split
  · rfl
  · rename_i hclean
    exact (Function.update_eq_self_iff.mpr (Bool.eq_false_of_not_eq_true hclean).symm).symm

/-- Blocks have been written to the disk, and nothing else has been done. -/
structure Cleaned (s s' : Fs) : Prop where
  mem : s'.mem = s.mem
  clean : ∀ b, s.dirty b = false → s'.dirty b = false

theorem Cleaned.refl (s : Fs) : Cleaned s s := ⟨rfl, fun _ h => h⟩

theorem Cleaned.trans {s'' : Fs} (h : Cleaned s s') (h' : Cleaned s' s'') : Cleaned s s'' :=
  ⟨h'.mem.trans h.mem, fun b hb => h'.clean b (h.clean b hb)⟩

theorem flushBlock_cleans (h : flushBlock va s = .ret () s') : Cleaned s s' ∧ s'.dirty (blockOf va) = false := by
  unfold flushBlock at h
  by_cases hin : InDiskmap (rounddown va)
  · rw [Routine.panicUnless_bind hin] at h
    obtain ⟨-, rfl⟩ := Outcome.ret.inj h
    refine ⟨⟨flush_mem s _, fun b hb => ?_⟩, ?_⟩
    · rw [flush_dirty, Function.update_apply]
      split
      · rfl
      · exact hb
    · rw [flush_dirty, Function.update_self]
  · rw [Routine.panicUnless_bind_not hin] at h
    cases h

theorem fileBlockWalk_reads (f : Word) (i : ℕ) : Routine.Reads (fileBlockWalk f i false) := by
  have hdiskaddr (w : Word) : Routine.Reads (diskaddr w) := fun _ _ _ h => (diskaddr_ret h).1
  refine .bind (.gets _) fun s => .ite (.pure _) (.ite (.pure _) (.ite ?_ ?_))
  · exact .bind (.gets _) fun _ => .bind (hdiskaddr _) fun _ => .pure _
  · rw [if_pos Bool.false_ne_true]
    exact .pure _

/-- One round of `file_flush`. -/
theorem flushFileBlock_cleans (h : flushFileBlock f i s = .ret () s') :
    Cleaned s s' ∧ ∀ blk, blockAt s.mem f i = some blk → s'.dirty (blockOf blk) = false := by
  unfold flushFileBlock at h
  obtain ⟨r, t, hwalk, h⟩ := Routine.bind_eq_ret.mp h
  obtain rfl := fileBlockWalk_reads f i s r t hwalk
  have hnone (hno : blockAt t.mem f i = none) : ∀ blk, blockAt t.mem f i = some blk → s'.dirty (blockOf blk) = false := by
    intro blk hblk
    cases hno.symm.trans hblk
  cases hslot : slotAt t.mem f i with
  | none =>
    have hno : blockAt t.mem f i = none := by
      unfold blockAt
      rw [hslot]
      rfl
    refine ⟨?_, hnone hno⟩
    cases r with
    | error e =>
      obtain ⟨-, rfl⟩ := Outcome.ret.inj h
      exact .refl t
    | ok slot =>
      dsimp only at h
      rw [Routine.bind_ret (Routine.get_run t)] at h
      split_ifs at h with hz
      · obtain ⟨-, rfl⟩ := Outcome.ret.inj h
        exact .refl t
      · obtain ⟨va, u, hva, hflush⟩ := Routine.bind_eq_ret.mp h
        obtain ⟨rfl, -⟩ := diskaddr_ret hva
        exact (flushBlock_cleans hflush).1
  | some slot =>
    obtain ⟨rfl, -⟩ := Outcome.ret.inj ((fileBlockWalk_at hslot false).symm.trans hwalk)
    dsimp only at h
    rw [Routine.bind_ret (Routine.get_run t)] at h
    split_ifs at h with hz
    · have hno : blockAt t.mem f i = none := by
        unfold blockAt
        rw [hslot]
        exact if_neg fun hb => hb.1 hz
      obtain ⟨-, rfl⟩ := Outcome.ret.inj h
      exact ⟨.refl t, hnone hno⟩
    · obtain ⟨va, u, hva, hflush⟩ := Routine.bind_eq_ret.mp h
      obtain ⟨rfl, -, hlt, rfl⟩ := diskaddr_ret hva
      obtain ⟨hclean, hdirty⟩ := flushBlock_cleans hflush
      refine ⟨hclean, fun blk hblk => ?_⟩
      unfold blockAt at hblk
      rw [hslot] at hblk
      dsimp only [bind, Option.bind] at hblk
      rw [if_pos ⟨hz, hlt⟩] at hblk
      obtain rfl := Option.some.inj hblk
      exact hdirty

/-- The blocks of a file that are on the disk as they are in memory: the one that the file is in,
its indirect block and its first `n` blocks. -/
structure OnDiskFile (m m' : ByteMem) (f : Word) (n : ℕ) : Prop where
  home : SameBlock m m' (blockOf f)
  indirect : fIndirect m f ≠ 0#32 → (fIndirect m f).toNat < nblocksIn m ∧
    SameBlock m m' (blockOf (blockAddr (fIndirect m f).toNat))
  data : ∀ i < n, ∀ blk, blockAt m f i = some blk → SameBlock m m' (blockOf blk)

/-- The number of rounds of `file_flush`. -/
def flushRounds (size : Word) : ℕ := ((size + 4095#32).sdiv 4096#32).toInt.toNat

theorem fileFlush_onDisk (hsync : s.Synced) (h : fileFlush f s = .ret () s') :
    s'.mem = s.mem ∧ OnDiskFile s.mem s'.disk f (flushRounds (fSize s.mem f)) := by
  have hsync' := (fileFlush_syncs f).ret hsync h
  have hsame (b : ℕ) (hm : s'.mem = s.mem) (hb : s'.dirty b = false) : SameBlock s.mem s'.disk b := by
    intro a ha
    rw [← hm]
    exact (hsync' a (ha ▸ hb)).symm
  unfold fileFlush at h
  rw [Routine.bind_ret (Routine.get_run s)] at h
  obtain ⟨_, t, hloop, h⟩ := Routine.bind_eq_ret.mp h
  obtain ⟨_, u, hhome, h⟩ := Routine.bind_eq_ret.mp h
  obtain ⟨hclean, hdata⟩ := Routine.loop_ret (fun n t => Cleaned s t ∧
    ∀ i < n, ∀ blk, blockAt s.mem f i = some blk → t.dirty (blockOf blk) = false) _
    ⟨.refl s, fun _ hi => absurd hi (Nat.not_lt_zero _)⟩ (fun i t t' _ ⟨hc, hd⟩ hr => by
      obtain ⟨hc', hd'⟩ := flushFileBlock_cleans hr
      rw [hc.mem] at hd'
      refine ⟨hc.trans hc', fun j hj blk hblk => ?_⟩
      rcases Nat.lt_succ_iff_lt_or_eq.mp hj with hj | rfl
      · exact hc'.clean _ (hd j hj blk hblk)
      · exact hd' blk hblk) hloop
  obtain ⟨hclean', hhome'⟩ := flushBlock_cleans hhome
  have hu := hclean.trans hclean'
  by_cases hind : fIndirect s.mem f = 0#32
  · rw [if_neg (not_not_intro hind)] at h
    obtain ⟨-, rfl⟩ := Outcome.ret.inj h
    exact ⟨hu.mem, hsame _ hu.mem hhome', fun hne => absurd hind hne,
      fun i hi blk hblk => hsame _ hu.mem (hclean'.clean _ (hdata i hi blk hblk))⟩
  · rw [if_pos hind] at h
    obtain ⟨va, v, hva, h⟩ := Routine.bind_eq_ret.mp h
    obtain ⟨rfl, -, hlt, rfl⟩ := diskaddr_ret hva
    obtain ⟨hlast, hind'⟩ := flushBlock_cleans h
    have hall := hu.trans hlast
    rw [hu.mem] at hlt
    exact ⟨hall.mem, hsame _ hall.mem (hlast.clean _ hhome'), fun _ => ⟨hlt, hsame _ hall.mem hind'⟩,
      fun i hi blk hblk => hsame _ hall.mem (hlast.clean _ (hclean'.clean _ (hdata i hi blk hblk)))⟩

end Flush

section Same

variable {s t : Fs} {m m' : ByteMem} {f blk : Word} {c i j k n : ℕ} {sp : Span}

theorem SameBlock.loadWord {a : Word} (h : SameBlock m m' c) (ha : ∀ j < 4, blockOf (a + BitVec.ofNat 32 j) = c) :
    Sisop.loadWord m' a = Sisop.loadWord m a :=
  loadWord_congr fun j hj => h _ (ha j hj)

theorem SameBlock.readBytes {a : Word} (h : SameBlock m m' c) (ha : ∀ j < n, blockOf (a + BitVec.ofNat 32 j) = c) :
    Sisop.readBytes m' a n = Sisop.readBytes m a n := by
  apply List.map_congr_left
  intro j hj
  exact h _ (ha j (List.mem_range.mp hj))

namespace OnDiskFile

theorem field (h : OnDiskFile m m' f n) (hf : FileOk m f) (hk : k + 4 ≤ 256) :
    loadWord m' (f + BitVec.ofNat 32 k) = loadWord m (f + BitVec.ofNat 32 k) := by
  apply h.home.loadWord
  intro j hj
  rw [BitVec.add_assoc, ← BitVec.ofNat_add]
  exact (hf.filePlace.blockOf_byte hf.good (by omega)).1

theorem size (h : OnDiskFile m m' f n) (hf : FileOk m f) : fSize m' f = fSize m f := h.field hf (by decide : 128 + 4 ≤ 256)

theorem indirect_eq (h : OnDiskFile m m' f n) (hf : FileOk m f) : fIndirect m' f = fIndirect m f :=
  h.field hf (by decide : 176 + 4 ≤ 256)

/-- The file has the same blocks. -/
theorem blockAt (h : OnDiskFile m m' f n) (hf : FileOk m f) (hn : nblocksIn m' = nblocksIn m) (i : ℕ) :
    Sisop.blockAt m' f i = Sisop.blockAt m f i := by
  have hslot := slotAt_congr (i := i) hn (h.indirect_eq hf)
  have hword (slot : Word) (hs : slotAt m f i = some slot) : loadWord m' slot = loadWord m slot := by
    unfold slotAt at hs
    split_ifs at hs with hi hind
    · obtain rfl := Option.some.inj hs
      change i < 10 at hi
      exact h.field hf (by omega)
    · obtain rfl := Option.some.inj hs
      have hc : (fIndirect m f).toNat < diskBlocks := Nat.lt_of_lt_of_le hind.2.2 hf.good.size
      have hlt : i < 10 + 1024 := hind.1
      change ¬ i < 10 at hi
      have hblock := (h.indirect hind.2.1).2
      rw [blockOf_blockAddr hc] at hblock
      apply hblock.loadWord
      intro j hj
      rw [BitVec.add_assoc, ← BitVec.ofNat_add]
      change blockOf (blockAddr _ + BitVec.ofNat 32 (i - 10 + j)) = _
      exact blockAddr_byte hc (by omega)
  unfold Sisop.blockAt
  rw [hslot]
  cases hs : slotAt m f i with
  | none => rfl
  | some slot =>
    dsimp only [bind, Option.bind]
    rw [hword slot hs, hn]

/-- The block of a file that is found is one of the disk, and the same in both memories. -/
theorem block (h : OnDiskFile m m' f n) (hf : FileOk m f) (hi : i < n) (hblk : Sisop.blockAt m f i = some blk) :
    ∃ c < diskBlocks, blk = blockAddr c ∧ SameBlock m m' c := by
  obtain ⟨c, hc, rfl⟩ := blockAt_addr hf.good hblk
  have hsame := h.data i hi _ hblk
  rw [blockOf_blockAddr hc] at hsame
  exact ⟨c, hc, rfl, hsame⟩

/-- A directory has the same names for the same files. -/
theorem lookupIn (h : OnDiskFile m m' f n) (hf : FileOk m f) (hn : nblocksIn m' = nblocksIn m) (hlen : dirLength m f ≤ n)
    (name : Name) : Sisop.lookupIn m' f name = Sisop.lookupIn m f name := by
  have hfiles : filesFrom m' f 0 (dirLength m f) = filesFrom m f 0 (dirLength m f) := by
    unfold filesFrom
    simp only [h.blockAt hf hn]
  have hdir : dirLength m' f = dirLength m f := by
    unfold dirLength
    rw [h.size hf]
  unfold Sisop.lookupIn
  rw [hdir, hfiles]
  apply List.find?_congr
  intro e he
  obtain ⟨i, hi, he⟩ := List.mem_flatMap.mp he
  cases hblk : Sisop.blockAt m f i with
  | none =>
    rw [hblk] at he
    cases he
  | some blk =>
    rw [hblk] at he
    obtain ⟨j, hj, rfl⟩ := List.mem_map.mp he
    have hlt : i < n := by
      have hrange := List.mem_range'_1.mp hi
      omega
    obtain ⟨c, hc, rfl, hsame⟩ := h.block hf hlt hblk
    have hname : nameAt m' (entryAddr (blockAddr c) j) = nameAt m (entryAddr (blockAddr c) j) := by
      unfold nameAt
      rw [hsame.readBytes]
      intro k hk
      have hj : j < 16 := List.mem_range.mp hj
      unfold entryAddr
      rw [BitVec.add_assoc, ← BitVec.ofNat_add]
      change k < 128 at hk
      change blockOf (blockAddr c + BitVec.ofNat 32 (256 * j + k)) = c
      exact blockAddr_byte hc (by omega)
    rw [hname]

end OnDiskFile

theorem readSpans_same {sps : List Span} (h : ∀ sp ∈ sps, ∃ blk, blockAt s.mem f sp.filebno = some blk ∧
      blockAt t.mem f sp.filebno = some blk ∧ readBytes t.mem (blk + sp.off) sp.len = readBytes s.mem (blk + sp.off) sp.len)
    (buf : List (BitVec 8)) : ∃ bytes, readSpans fileGetBlock f sps buf s = .ret (.ok bytes) s ∧
      readSpans fileGetBlock f sps buf t = .ret (.ok bytes) t := by
  induction sps generalizing buf with
  | nil => exact ⟨buf, rfl, rfl⟩
  | cons sp sps ih =>
    obtain ⟨blk, hs, ht, hbytes⟩ := h sp List.mem_cons_self
    obtain ⟨bytes, hrest, hrest'⟩ := ih (fun sp hsp => h sp (List.mem_cons_of_mem _ hsp))
      (buf ++ readBytes s.mem (blk + sp.off) sp.len)
    refine ⟨bytes, ?_, ?_⟩
    · unfold readSpans
      rw [Routine.bind_ret (fileGetBlock_at hs)]
      dsimp only [orReturn]
      rw [Routine.bind_ret (Routine.get_run s)]
      exact hrest
    · unfold readSpans
      rw [Routine.bind_ret (fileGetBlock_at ht)]
      dsimp only [orReturn]
      rw [Routine.bind_ret (Routine.get_run t), hbytes]
      exact hrest'

/-- A file that is on the disk is read there as it is in memory. -/
theorem OnDiskFile.fileRead {offset count : Word} (h : OnDiskFile s.mem t.mem f n) (hf : FileOk s.mem f)
    (hn : nblocksIn t.mem = nblocksIn s.mem) (hlen : (fSize s.mem f).toNat ≤ 4096 * n)
    (hroom : offset.toNat + count.toNat < 2^31)
    (hheld : ∀ k < count.toNat, offset.toNat + k < (fSize s.mem f).toNat →
      (Sisop.blockAt s.mem f ((offset.toNat + k) / 4096)).isSome) :
    ∃ bytes, Sisop.fileRead fileGetBlock f count offset s = .ret (.ok bytes) s ∧
      Sisop.fileRead fileGetBlock f count offset t = .ret (.ok bytes) t := by
  unfold Sisop.fileRead
  rw [Routine.bind_ret (Routine.get_run s), Routine.bind_ret (Routine.get_run t), h.size hf]
  by_cases hend : (fSize s.mem f).toInt ≤ offset.toInt
  · rw [if_pos hend]
    exact ⟨[], rfl, rfl⟩
  · rw [if_neg hend]
    apply readSpans_same
    intro sp hsp
    obtain ⟨blk, o, hblk, hsize, hoff, hfit⟩ := heldSpan_of_mem hroom hend hheld hsp
    obtain ⟨c, hc, rfl, hsame⟩ := h.block hf (by omega) hblk
    refine ⟨_, hblk, (h.blockAt hf hn _).trans hblk, ?_⟩
    apply hsame.readBytes
    intro j hj
    rw [hoff, BitVec.add_assoc, ← BitVec.ofNat_add]
    exact blockAddr_byte hc (by omega)

theorem FsCall.synced_run (h : Reachable Fs.Started FsCall s) : s.Synced :=
  h.invariant (fun _ => .started) fun _ _ hs hc => hc.synced hs

theorem FileOk.oneBlock (hf : FileOk m f) : OneBlock f := fun _ hk => (hf.filePlace.blockOf_byte hf.good hk).1

/-- What `file_flush` has written is there after a crash: a server that is started from the disk finds
the names in a directory, and the bytes of a file wherever it has blocks. -/
theorem file_flush_survives {io : BlockIo} {depth : ℕ} {c : Cache} (h : Reachable Fs.Started FsCall s) (hf : FileOk s.mem f)
    (hsize : (fSize s.mem f).toNat + 4095 < 2^31) (hflush : fileFlush f s = .ret () t)
    (hn : nblocksIn t.disk = nblocksIn s.mem) (hused : UsedFile t.disk f)
    (hc : CacheStart c) (hdisk : c.disk = t.disk) (hio : ∀ b, io.alloc b = true ∧ io.transfer b = true) (hd : 3 ≤ depth) :
    (DirOk s.mem f → ∀ name : Name, 0#8 ∉ name → name.length < maxnamelen →
        ∃ r c', dirLookup fileGetBlock f name s = .ret r s ∧ cacheDirLookup io depth f name c = .ret r c') ∧
      ∀ offset count : Word, offset.toNat + count.toNat < 2^31 →
        (∀ k < count.toNat, offset.toNat + k < (fSize s.mem f).toNat → (blockAt s.mem f ((offset.toNat + k) / 4096)).isSome) →
        ∃ bytes c', fileRead fileGetBlock f count offset s = .ret (.ok bytes) s ∧
          cacheFileRead io depth f count offset c = .ret (.ok bytes) c' := by
  obtain ⟨-, hsame⟩ := fileFlush_onDisk (FsCall.synced_run h) hflush
  have hrounds : flushRounds (fSize s.mem f) = ((fSize s.mem f).toNat + 4095) / 4096 := by
    have hadd : (fSize s.mem f + 4095#32).toNat = (fSize s.mem f).toNat + 4095 := by bv_omega
    have hdiv : ((fSize s.mem f + 4095#32).sdiv 4096#32).toNat = (fSize s.mem f + 4095#32).toNat / 4096 :=
      sdiv_block (by omega)
    unfold flushRounds
    rw [BitVec.toInt_eq_toNat_of_lt (by omega), Int.toNat_natCast, hdiv, hadd]
  have hlength : dirLength s.mem f = (fSize s.mem f).toNat / 4096 := sdiv_block (by omega)
  have hsize' : fSize t.disk f = fSize s.mem f := hsame.size hf
  obtain ⟨hok, hview⟩ := hc.ok
  have hview' : c.view = t.disk := hview.trans hdisk
  have hgood : GoodSuper t.disk := hview' ▸ hok.good
  rw [hrounds] at hsame
  refine ⟨fun hdir name h0 hname => ?_, fun offset count hroom hheld => ?_⟩
  · have hdirlen : dirLength t.disk f = dirLength s.mem f := by
      unfold dirLength
      rw [hsize']
    have hdir' : DirOk t.disk f := by
      refine ⟨hsize' ▸ hdir.size, fun i hi => ?_⟩
      rw [hsame.blockAt hf hn i]
      exact hdir.blocks i (hdirlen ▸ hi)
    obtain ⟨c', hrun, -⟩ := dirLookup_shown hio hd hgood hf.oneBlock hused hdir' (by rw [hsize']; omega) h0 hname c hok hview'
    rw [hsame.lookupIn hf hn (by omega)] at hrun
    exact ⟨_, c', hdir.lookup h0 hname, hrun⟩
  · obtain ⟨bytes, hread, hread'⟩ := hsame.fileRead (t := t.crashed) hf hn (by omega) hroom hheld
    have hheld' (k : ℕ) (hk : k < count.toNat) (hlt : offset.toNat + k < (fSize t.disk f).toNat) :
        (blockAt t.disk f ((offset.toNat + k) / 4096)).isSome := by
      rw [hsame.blockAt hf hn]
      exact hheld k hk (hsize' ▸ hlt)
    obtain ⟨c', hrun, -⟩ := fileRead_shown (s := t.crashed) hio hd hgood hf.oneBlock hused hroom hheld' hread' c hok hview'
    exact ⟨bytes, c', hread, hrun⟩

end Same

/-- A server that has just started, with an empty file and free blocks. -/
def emptyFileFs : Fs :=
  let m := storeWord oneFileFs.mem (bitmapAddr 0) 0xF0#32
  ⟨m, m, fun _ => false⟩

/-- How the server is when the file has got a byte in a new block, and how the disk is when it has
been flushed. -/
def ByteFlushed (s t : Fs) : Prop :=
  s.dirty 4 = true ∧ nblocksIn s.mem = 8 ∧ (∀ b < 4, freeBit s.mem b = false) ∧ dataStart s.mem ≤ 3 ∧
    fIndirect s.mem (slotAddr 3 0) = 0#32 ∧ fSize s.mem (slotAddr 3 0) = 1#32 ∧
    blockAt s.mem (slotAddr 3 0) 0 = some (blockAddr 4) ∧
    (fileRead fileGetBlock (slotAddr 3 0) 1#32 0#32 s).value? = some (.ok [7#8]) ∧ nblocksIn t.disk = 8 ∧
    (∀ b < 5, freeBit t.disk b = false) ∧ fIndirect t.disk (slotAddr 3 0) = 0#32 ∧ fSize t.disk (slotAddr 3 0) = 1#32 ∧
    blockAt t.disk (slotAddr 3 0) 0 = some (blockAddr 4)

instance (s t : Fs) : Decidable (ByteFlushed s t) := inferInstanceAs (Decidable (_ ∧ _))

/-- The block cache of a server that is started from a disk. -/
def restarted (disk : ByteMem) : Cache := ⟨disk, disk, fun b => b = 1 ∨ b = 2, fun _ => false, true, true⟩

theorem cacheStart_restarted {disk : ByteMem} (hg : GoodSuper disk) : CacheStart (restarted disk) :=
  ⟨rfl, rfl, rfl, fun _ => rfl, fun _ _ => rfl, hg⟩

/-- A byte is written to the file, and the file is flushed; a server that is started from the disk reads
the byte, with page faults on the blocks 3 and 4. -/
theorem file_flush_survives_write : ∃ s t c', Reachable Fs.Started FsCall s ∧ s.dirty 4 = true ∧
    fileFlush (slotAddr 3 0) s = .ret () t ∧ (restarted t.disk).mapped 4 = false ∧
    cacheFileRead workingIo 3 (slotAddr 3 0) 1#32 0#32 (restarted t.disk) = .ret (.ok [7#8]) c' := by
  have hrun : ((show Routine Fs Bool from do
      let _ ← fileWrite fileGetBlock (slotAddr 3 0) [7#8] 0#32
      let s : Fs ← Routine.get
      fileFlush (slotAddr 3 0)
      let t : Fs ← Routine.get
      return decide (ByteFlushed s t)) emptyFileFs).value? = some true := by decide +kernel
  obtain ⟨u, hrun⟩ := Outcome.value?_eq_some.mp hrun
  obtain ⟨r, s, hwrite, hrun⟩ := Routine.bind_eq_ret.mp hrun
  rw [Routine.bind_ret (Routine.get_run s)] at hrun
  obtain ⟨_, t, hflush, hrun⟩ := Routine.bind_eq_ret.mp hrun
  rw [Routine.bind_ret (Routine.get_run t)] at hrun
  obtain ⟨hdirty, hblocks, hbits, hstart, hind, hsize, hblock, hvalue, hblocks', hbits', hind', hsize', hblock'⟩ :=
    of_decide_eq_true (Outcome.ret.inj hrun).1
  have hgood : GoodSuper s.mem := .of_small hblocks (by decide) (by decide) (hbits 1 (by decide)) (hbits 2 (by decide))
  have hgood' : GoodSuper t.disk := .of_small hblocks' (by decide) (by decide) (hbits' 1 (by decide)) (hbits' 2 (by decide))
  have hdata : DataBlock s.mem 3 := ⟨hstart, by rw [hblocks]; decide, hbits 3 (by decide)⟩
  have hf : FileOk s.mem (slotAddr 3 0) :=
    ⟨hgood, hbits 0 (by decide), Or.inr ⟨3, 0, hdata, by decide, rfl⟩, fun hne => absurd hind hne⟩
  have hhome : blockOf (slotAddr 3 0) = 3 := by decide
  have hlast : blockOf (blockAddr 4) = 4 := by decide
  have hused : UsedFile t.disk (slotAddr 3 0) := by
    refine ⟨?_, fun hne => absurd hind' hne, fun i hi blk hblk => ?_⟩
    · rw [hhome]
      exact ⟨by decide, by rw [hblocks']; decide, hbits' 3 (by decide)⟩
    · obtain rfl : i = 0 := by
        rw [hsize'] at hi
        change 4096 * i < 1 at hi
        omega
      obtain rfl := Option.some.inj (hblock'.symm.trans hblk)
      rw [hlast]
      exact ⟨by decide, by rw [hblocks']; decide, hbits' 4 (by decide)⟩
  have hreach : Reachable Fs.Started FsCall s := .step (.init ⟨rfl, fun _ => rfl⟩) (.write hwrite)
  obtain ⟨-, hread⟩ := file_flush_survives hreach hf (by rw [hsize]; decide) hflush (by rw [hblocks', hblocks]) hused
    (cacheStart_restarted hgood') rfl (fun _ => ⟨rfl, rfl⟩ : ∀ b, workingIo.alloc b = true ∧ workingIo.transfer b = true)
    (Nat.le_refl 3)
  obtain ⟨bytes, c', hs, hc'⟩ := hread 0#32 1#32 (by decide) fun k hk _ => by
    obtain rfl : k = 0 := Nat.lt_one_iff.mp hk
    exact Option.isSome_of_eq_some hblock
  rw [hs] at hvalue
  obtain rfl := Except.ok.inj (Option.some.inj hvalue)
  exact ⟨s, t, c', hreach, hdirty, hflush, rfl, hc'⟩

end Sisop
