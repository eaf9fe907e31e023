import Athomux.IoQueue.Spec
import Mathlib.Data.List.Perm.Subperm
import Mathlib.Tactic.Cases

/-!
# Where the blocks of `io_queue` are

The scheduler and the arbiter with the index between them. The invariant counts slots from `offset`
on: the locked ones from `L`, the schedulable ones from `H`, and the end `T`.
-/

namespace Athomux

open Lib

namespace IoQueue

/-! ## The scheduler and the arbiter -/

/-- `granted` are the slots that writers have got and not filled, `reading` the ones that the arbiter
works on. -/
structure System where
  q : IoQueue
  granted : List Nat
  created : Nat
  reading : List Nat

inductive Event
  | lock
  | unlockExt
  | gadrWriter
  | create (addr : Nat)
  | unlock
  | insert (pos : Nat) (prio : Prio)
  | gadrReader
  | delete (addr : Nat)
  | error
  deriving DecidableEq, Repr

/-- A writer gets a slot, fills it and lets a reader pass. `io_sched_elevator` does so under the
external lock, and inserts the slot before it unlocks. The arbiter deletes what it has read. -/
def step : System → Event → Option System
  | y, .lock => y.q.lock.map fun q => { y with q := q }
  | y, .unlockExt => some { y with q := y.q.unlockExt }
  | y, .gadrWriter => y.q.gadrWriter.map fun x =>
      { y with q := x.2, granted := x.1 :: y.granted }
  | y, .create addr =>
    if addr ∈ y.granted then
      let x := y.q.create addr
      some { y with
        q := x.2
        granted := y.granted.erase addr
        created := if x.1 then y.created + 1 else y.created }
    else none
  | y, .unlock =>
    if y.q.nextUnlock1 < y.created then some { y with q := y.q.unlock } else none
  | y, .insert pos prio =>
    if y.q.extlock ∧ y.granted = [] then
      some { y with q := (y.q.insertrequest (sub64 y.q.tail ioqueueRequestSize) pos prio).2 }
    else none
  | y, .gadrReader =>
    if y.q.extlock then none
    else y.q.gadrReader.map fun x => { y with q := x.2, reading := x.1.toList ++ y.reading }
  | y, .delete addr =>
    if y.q.extlock ∨ addr ∉ y.reading then none
    else some { y with q := (y.q.delete addr).2, reading := y.reading.erase addr }
  | y, .error => some { y with q := y.q.setError }

def start : System := ⟨.init, [], 0, []⟩

/-! ## What should hold -/

/-- The slots between `locked_head` and `tail`. -/
def slots (q : IoQueue) : List (Option Nat) :=
  seg q.queue (q.reqId q.lockedHead) (q.reqId q.tail - q.reqId q.lockedHead)

/-- The blocks from `freelist_head` on. -/
def freelist (q : IoQueue) : List Nat :=
  collect (fun i => (q.request i).freelistNext) ioqueueMaxRequests q.freelistHead

/-- Every block is in the free list or in one slot, and the offsets are in order. -/
structure Stored (q : IoQueue) : Prop where
  blocks : (q.freelist ++ q.slots.reduceOption).Perm (List.range ioqueueMaxRequests)
  lockedHead_le : q.reqId q.lockedHead ≤ q.reqId q.head
  head_le : q.reqId q.head ≤ q.reqId q.tail

/-- The steps that keep it: a request is inserted into the schedulable zone, and not as urgent, and
a slot that a writer has got and not filled is behind a block that stays when one is deleted. -/
def Keeps (y : System) : Event → Prop
  | .insert pos prio => prio ≠ .urgent ∧ pos < addrSpace ∧
      sub64 pos y.q.offset % ioqueueRequestSize = 0 ∧ y.q.reqId y.q.head ≤ y.q.reqId pos ∧
        y.q.reqId pos < y.q.reqId y.q.tail
  | .delete addr => ∀ g ∈ y.granted, ∃ k < y.q.reqId g,
      y.q.reqId y.q.lockedHead ≤ k ∧ k ≠ y.q.reqId addr ∧ (y.q.queue k).isSome = true
  | _ => True

/-! ## Slots by number -/

variable {q : IoQueue} {y : System} {L H T k : Nat} {free : List Nat}

def slotAddr (q : IoQueue) (k : Nat) : Nat := add64 q.offset (k * ioqueueRequestSize)

theorem sub64_slotAddr (ho : q.offset < addrSpace) (hk : k ≤ 65536) :
    sub64 (q.slotAddr k) q.offset = k * 64 := by
  unfold slotAddr sub64 add64 ioqueueRequestSize addrSpace at *
  omega

theorem reqId_slotAddr (ho : q.offset < addrSpace) (hk : k ≤ 65536) :
    q.reqId (q.slotAddr k) = k := by
  unfold reqId
  rw [sub64_slotAddr ho hk]
  unfold ioqueueRequestSize
  omega

theorem slotAddr_inj (ho : q.offset < addrSpace) {k' : Nat} (hk : k ≤ 65536) (hk' : k' ≤ 65536)
    (h : q.slotAddr k = q.slotAddr k') : k = k' := by
  rw [← reqId_slotAddr ho hk, h, reqId_slotAddr ho hk']

/-- The zones as numbers of slots. -/
structure Zones (q : IoQueue) (L H T : Nat) : Prop where
  offset_lt : q.offset < addrSpace
  lockedHead : q.lockedHead = q.slotAddr L
  head : q.head = q.slotAddr H
  tail : q.tail = q.slotAddr T
  lockedHead_le : L ≤ H
  head_le : H ≤ T
  tail_le : T ≤ 640

/-- The locks let through as many as there is room for, and as there are requests. -/
structure Counts (y : System) (L H T : Nat) : Prop where
  room : y.q.writers + 512 = y.q.nextUnlock0 + (T - L)
  writers_le : y.q.writers ≤ y.q.nextUnlock0
  readers : y.q.readers + (T - H) = y.q.writers
  readers_le : y.q.readers ≤ y.q.nextUnlock1
  unlock_le : y.q.nextUnlock1 ≤ y.created
  created : y.created + y.granted.length = y.q.writers

/-- `free` is the free list, and the blocks in it and in the slots are all blocks, each once. -/
structure Blocks (q : IoQueue) (L T : Nat) (free : List Nat) : Prop where
  chain : NextPath (fun i => (q.request i).freelistNext) q.freelistHead free
  perm : (free ++ (seg q.queue L (T - L)).reduceOption).Perm (List.range 512)

/-- Slots are empty before they are filled and after they have been deleted only. -/
structure Owners (y : System) (L H T : Nat) : Prop where
  granted : ∀ g ∈ y.granted, ∃ k, L ≤ k ∧ k < T ∧ g = y.q.slotAddr k ∧ y.q.queue k = none
  granted_nodup : y.granted.Nodup
  filled : ∀ k, H ≤ k → k < T → y.q.queue k = none → y.q.slotAddr k ∈ y.granted
  reading : ∀ r ∈ y.reading, ∃ k, L ≤ k ∧ k < H ∧ r = y.q.slotAddr k ∧
    (y.q.queue k).isSome = true
  reading_nodup : y.reading.Nodup

structure Inv (y : System) (L H T : Nat) (free : List Nat) : Prop where
  zones : y.q.Zones L H T
  counts : Counts y L H T
  blocks : y.q.Blocks L T free
  owners : Owners y L H T

section Zones

variable (h : q.Zones L H T)
include h

theorem Zones.reqId_lockedHead : q.reqId q.lockedHead = L := by
  obtain ⟨ho, hL, -, -, hLH, hHT, hT⟩ := h
  rw [hL, reqId_slotAddr ho (by omega)]

theorem Zones.reqId_head : q.reqId q.head = H := by
  obtain ⟨ho, -, hH, -, -, hHT, hT⟩ := h
  rw [hH, reqId_slotAddr ho (by omega)]

theorem Zones.reqId_tail : q.reqId q.tail = T := by
  obtain ⟨ho, -, -, htail, -, -, hT⟩ := h
  rw [htail, reqId_slotAddr ho (by omega)]

end Zones

theorem Inv.stored (h : Inv y L H T free) : y.q.Stored := by
  obtain ⟨hz, -, hb, -⟩ := h
  have hlen : free.length ≤ 512 := by
    have hp := hb.perm.length_eq
    rw [List.length_append, List.length_range] at hp
    omega
  refine ⟨?_, ?_, ?_⟩
  · unfold freelist slots ioqueueMaxRequests
    rw [hb.chain.collect_eq hlen, hz.reqId_lockedHead, hz.reqId_tail]
    exact hb.perm
  · rw [hz.reqId_lockedHead, hz.reqId_head]
    exact hz.lockedHead_le
  · rw [hz.reqId_head, hz.reqId_tail]
    exact hz.head_le

theorem nextPath_range (f : Nat → Option Nat) (n m : Nat)
    (hnext : ∀ i, n ≤ i → i < n + m → f i = if i + 1 < n + m then some (i + 1) else none) :
    NextPath f (if m = 0 then none else some n) (List.range' n m) := by
  induction m generalizing n with
  | zero => rfl
  | succ m ih =>
    rw [List.range'_succ]
    refine ⟨rfl, ?_⟩
    rw [hnext n (by omega) (by omega)]
    have hrest := ih (n + 1) fun i hi hlt => by
      rw [hnext i (by omega) (by omega), show n + 1 + m = n + (m + 1) by omega]
    cases m with
    | zero =>
      rw [if_neg (by omega)]
      exact hrest
    | succ m =>
      rw [if_pos (by omega)]
      exact hrest

theorem Inv.start : Inv start 0 0 0 (List.range 512) where
  zones := ⟨by decide, rfl, rfl, rfl, by omega, by omega, by omega⟩
  counts := ⟨rfl, by decide, rfl, by decide, by decide, rfl⟩
  blocks := by
    refine ⟨?_, by simp⟩
    rw [List.range_eq_range']
    refine nextPath_range (fun i => (IoQueue.init.request i).freelistNext) 0 512 fun i _ hi => ?_
    rw [Nat.zero_add] at hi ⊢
    rfl
  owners := by
    refine ⟨fun _ hg => ?_, List.nodup_nil, fun _ _ hk => by omega, fun _ hr => ?_,
      List.nodup_nil⟩
    · cases hg
    · cases hr

/-! ## `make_valid` -/

/-- The slots of the zones move to the front, with their addresses. -/
structure Rebased (q q' : IoQueue) (c n : Nat) : Prop where
  queueIdx : q'.queueIdx = q.queueIdx
  offset : q'.offset = q.slotAddr c
  queue : ∀ i < n, q'.queue i = q.queue (i + c)

theorem slotAddr_rebased {q' : IoQueue} {c : Nat} (h : q'.offset = q.slotAddr c) (k : Nat) :
    q'.slotAddr k = q.slotAddr (k + c) := by
  unfold slotAddr at *
  rw [h]
  unfold add64 ioqueueRequestSize addrSpace
  omega

theorem Zones.rebased {q' : IoQueue} (h : q.Zones L H T) (hr : Rebased q q' L (T - L)) :
    q'.Zones 0 (H - L) (T - L) := by
  obtain ⟨ho, hL, hH, hT, hLH, hHT, hT640⟩ := h
  have haddr := slotAddr_rebased hr.offset
  refine ⟨?_, ?_, ?_, ?_, by omega, by omega, by omega⟩
  · rw [hr.offset]
    exact add64_lt ..
  · rw [haddr, Nat.zero_add, ← hL]
    exact congrFun hr.queueIdx _
  · rw [haddr, Nat.sub_add_cancel hLH, ← hH]
    exact congrFun hr.queueIdx _
  · rw [haddr, Nat.sub_add_cancel (hLH.trans hHT), ← hT]
    exact congrFun hr.queueIdx _

theorem Counts.rebased {y' : System} (h : Counts y L H T) (hLH : L ≤ H) (hHT : H ≤ T)
    (hq : y' = { y with q := { y.q with offset := y'.q.offset, queue := y'.q.queue } }) :
    Counts y' 0 (H - L) (T - L) := by
  obtain ⟨h1, h2, h3, h4, h5, h6⟩ := h
  rw [hq]
  exact ⟨by simpa using h1, h2, by rw [← h3]; simp only; omega, h4, h5, h6⟩

theorem Blocks.rebased {q' : IoQueue} (h : q.Blocks L T free) (hr : Rebased q q' L (T - L))
    (hreq : q'.request = q.request) (hfree : q'.freelistHead = q.freelistHead) :
    q'.Blocks 0 (T - L) free := by
  have hseg : seg q'.queue 0 (T - L) = seg q.queue L (T - L) :=
    seg_eq fun i hi => by rw [Nat.zero_add, hr.queue i hi, Nat.add_comm]
  refine ⟨?_, ?_⟩
  · rw [hreq, hfree]
    exact h.chain
  · rw [Nat.sub_zero, hseg]
    exact h.perm

theorem Owners.rebased {y' : System} (h : Owners y L H T) (hLH : L ≤ H) (hHT : H ≤ T)
    (hr : Rebased y.q y'.q L (T - L)) (hg : y'.granted = y.granted)
    (hrd : y'.reading = y.reading) : Owners y' 0 (H - L) (T - L) := by
  obtain ⟨hgranted, hgn, hfilled, hreading, hrn⟩ := h
  have haddr := slotAddr_rebased hr.offset
  refine ⟨?_, hg ▸ hgn, ?_, ?_, hrd ▸ hrn⟩
  · rw [hg]
    intro g hin
    obtain ⟨k, hLk, hkT, rfl, hnone⟩ := hgranted g hin
    refine ⟨k - L, by omega, by omega, ?_, ?_⟩
    · rw [haddr, Nat.sub_add_cancel hLk]
    · rw [hr.queue _ (by omega), Nat.sub_add_cancel hLk]
      exact hnone
  · intro k hk hkT hnone
    rw [hr.queue k hkT] at hnone
    rw [hg, haddr]
    exact hfilled (k + L) (by omega) (by omega) hnone
  · rw [hrd]
    intro r hin
    obtain ⟨k, hLk, hkH, rfl, hsome⟩ := hreading r hin
    refine ⟨k - L, by omega, by omega, ?_, ?_⟩
    · rw [haddr, Nat.sub_add_cancel hLk]
    · rw [hr.queue _ (by omega), Nat.sub_add_cancel hLk]
      exact hsome

theorem Inv.rebased {q' : IoQueue} (h : Inv y L H T free)
    (hq : q' = { y.q with offset := q'.offset, queue := q'.queue })
    (hr : Rebased y.q q' L (T - L)) : Inv { y with q := q' } 0 (H - L) (T - L) free where
  zones := h.zones.rebased hr
  counts := h.counts.rebased h.zones.lockedHead_le h.zones.head_le (by rw [hq])
  blocks := h.blocks.rebased hr (by rw [hq]) (by rw [hq])
  owners := h.owners.rebased h.zones.lockedHead_le h.zones.head_le hr rfl rfl

/-- The index after `memmove`. -/
def compacted (q : IoQueue) (c n : Nat) : IoQueue :=
  { q with queue := memmove q.queue 0 c n, offset := q.slotAddr c }

theorem rebased_compacted {c n m : Nat} (h : n ≤ m) : Rebased q (q.compacted c m) c n where
  queueIdx := rfl
  offset := rfl
  queue := by
    intro i hi
    exact if_pos ⟨Nat.zero_le i, by omega⟩

theorem makeValid_eq (ho : q.offset < addrSpace) (hL : q.lockedHead = q.slotAddr L)
    (hT : q.tail = q.slotAddr T) (hLT : L ≤ T) (hT641 : T ≤ 641) (hk : k ≤ 641) :
    q.makeValid (q.slotAddr k) =
      if 640 ≤ k then some (q.compacted L (T - L)) else some q := by
  unfold makeValid
  rw [hL, hT, reqId_slotAddr ho (by omega), reqId_slotAddr ho (by omega),
    sub64_slotAddr ho (by omega)]
  have hL' : L % 65536 = L := Nat.mod_eq_of_lt (by omega)
  have hT' : T % 65536 = T := Nat.mod_eq_of_lt (by omega)
  have hcond : ioqueueQueueLength ≤ k * 64 ↔ 640 ≤ k := by
    unfold ioqueueQueueLength
    omega
  simp only [hL', hT', hcond, if_neg (show ¬ T < L by omega)]
  rfl

theorem reqId_rebased {q' : IoQueue} {a : Nat} (ho : q.offset < addrSpace)
    (h : q'.offset = q.slotAddr L) (hL : L ≤ q.reqId a) : q'.reqId a = q.reqId a - L := by
  unfold reqId slotAddr sub64 add64 ioqueueRequestSize addrSpace at *
  rw [h]
  omega

/-- A slot of the zones denotes the same request as before. -/
def SameRequests (q q' : IoQueue) : Prop :=
  ∀ a < addrSpace, q.reqId q.lockedHead ≤ q.reqId a → q.reqId a < q.reqId q.tail →
    q'.denotes a = q.denotes a

theorem Zones.same_rebased {q' : IoQueue} (h : q.Zones L H T) (hr : Rebased q q' L (T - L)) :
    SameRequests q q' := by
  intro a ha hL hT
  rw [h.reqId_lockedHead] at hL
  rw [h.reqId_tail] at hT
  unfold denotes
  rw [reqId_rebased h.offset_lt hr.offset hL, hr.queue _ (by omega), Nat.sub_add_cancel hL]

/-! ## `$gadr` -/

theorem slotAddr_succ (q : IoQueue) (k : Nat) :
    add64 (q.slotAddr k) ioqueueRequestSize = q.slotAddr (k + 1) := by
  unfold slotAddr add64 ioqueueRequestSize addrSpace
  omega

theorem takeTail_tail : q.takeTail.tail = add64 q.tail ioqueueRequestSize := by
  simp [takeTail, setIdx, tail]

theorem takeTail_lockedHead : q.takeTail.lockedHead = q.lockedHead := by
  simp [takeTail, setIdx, lockedHead, ioqueueTail, ioqueueLockedHead]

theorem takeTail_head : q.takeTail.head = q.head := by
  simp [takeTail, setIdx, head, ioqueueTail, ioqueueHead]

theorem setSlot_eq {a : Nat} (hid : q.reqId a = k) (o : Option Nat) :
    q.setSlot a o = { q with queue := Function.update q.queue k o } := by
  unfold setSlot
  rw [hid]

/-- One slot more, which is empty. -/
def extend (q : IoQueue) (T : Nat) : IoQueue :=
  { q.takeTail with queue := Function.update q.queue T none }

theorem Inv.extend (h : Inv y L H T free) (hT : T < 640) (hw : y.q.writers < y.q.nextUnlock0) :
    Inv { y with q := y.q.extend T, granted := y.q.slotAddr T :: y.granted } L H (T + 1) free := by
  obtain ⟨⟨ho, hL, hH, htail, hLH, hHT, hT640⟩, ⟨h1, h2, h3, h4, h5, h6⟩, ⟨hchain, hperm⟩,
    ⟨hgranted, hgn, hfilled, hreading, hrn⟩⟩ := h
  have hold : ∀ k, k < T → (y.q.extend T).queue k = y.q.queue k := fun k hk =>
    Function.update_of_ne (by omega) ..
  refine ⟨⟨ho, takeTail_lockedHead.trans hL, takeTail_head.trans hH, ?_, hLH, by omega, by omega⟩,
    ?_, ⟨hchain, ?_⟩, ?_⟩
  · refine takeTail_tail.trans ?_
    rw [htail, slotAddr_succ]
    rfl
  · refine ⟨?_, hw, ?_, h4, h5, ?_⟩
    · change y.q.writers + 1 + 512 = y.q.nextUnlock0 + _
      omega
    · change y.q.readers + _ = y.q.writers + 1
      omega
    · change y.created + (_ :: y.granted).length = y.q.writers + 1
      rw [List.length_cons]
      omega
  · have hseg : seg (y.q.extend T).queue L (T + 1 - L) = seg y.q.queue L (T - L) ++ [none] := by
      rw [show T + 1 - L = (T - L) + 1 by omega, seg_add, seg_one, Nat.add_sub_cancel' (by omega)]
      congr 1
      · exact seg_congr fun k _ hk => hold k (by omega)
      · exact congrArg (fun o => [o]) (Function.update_self ..)
    rw [hseg, List.reduceOption_append]
    simpa using hperm
  · refine ⟨?_, ?_, ?_, ?_, hrn⟩
    · intro g hg
      rcases List.mem_cons.mp hg with rfl | hg
      · exact ⟨T, by omega, by omega, rfl, Function.update_self ..⟩
      · obtain ⟨k, hk, hkT, rfl, hnone⟩ := hgranted g hg
        exact ⟨k, hk, by omega, rfl, (hold k hkT).trans hnone⟩
    · refine List.nodup_cons.mpr ⟨fun hin => ?_, hgn⟩
      obtain ⟨k, -, hkT, heq, -⟩ := hgranted _ hin
      have hk := slotAddr_inj ho (by omega) (by omega) heq
      omega
    · intro k hk hkT hnone
      by_cases hkT' : k = T
      · rw [hkT']
        exact List.mem_cons_self ..
      · rw [hold k (by omega)] at hnone
        exact List.mem_cons_of_mem _ (hfilled k hk (by omega) hnone)
    · intro r hr
      obtain ⟨k, hk, hkH, rfl, hsome⟩ := hreading r hr
      exact ⟨k, hk, hkH, rfl, by rw [hold k (by omega)]; exact hsome⟩

/-- A writer gets the slot at the end, perhaps after the zones have been moved to the front. -/
theorem gadrWriter_some (h : q.Zones L H T) (hcap : T - L < 512) {x : Nat × IoQueue}
    (hx : q.gadrWriter = some x) : q.writers < q.nextUnlock0 ∧
      (T < 640 ∧ x = (q.slotAddr T, q.extend T) ∨
        T = 640 ∧ x = (q.slotAddr T, (q.compacted L (T + 1 - L)).extend (T - L))) := by
  unfold gadrWriter at hx
  split at hx
  · cases hx
  rename_i hpass
  refine ⟨by omega, ?_⟩
  obtain ⟨ho, hL, hH, hT, hLH, hHT, hT640⟩ := h
  have hvalid : q.takeTail.makeValid (q.slotAddr T) =
      if 640 ≤ T then some (q.takeTail.compacted L (T + 1 - L)) else some q.takeTail := by
    refine makeValid_eq ho (takeTail_lockedHead.trans hL) ?_ (by omega) (by omega) (by omega)
    rw [takeTail_tail, hT, slotAddr_succ]
    rfl
  rw [hT, hvalid] at hx
  by_cases h640 : 640 ≤ T
  · obtain rfl : T = 640 := by omega
    rw [if_pos (le_refl _), Option.map_some, Option.some.injEq] at hx
    refine .inr ⟨rfl, ?_⟩
    have hoff : (q.takeTail.compacted L (640 + 1 - L)).offset = q.slotAddr L := rfl
    have hslot := slotAddr_rebased hoff (640 - L)
    rw [Nat.sub_add_cancel (by omega)] at hslot
    have hid : (q.takeTail.compacted L (640 + 1 - L)).reqId (q.slotAddr 640) = 640 - L := by
      rw [← hslot]
      exact reqId_slotAddr (add64_lt ..) (by omega)
    rw [← hx, setSlot_eq hid]
    rfl
  · rw [if_neg h640, Option.map_some, Option.some.injEq] at hx
    refine .inl ⟨by omega, ?_⟩
    have hid : q.takeTail.reqId (q.slotAddr T) = T := reqId_slotAddr ho (by omega)
    rw [← hx, setSlot_eq hid]
    rfl

theorem Zones.same_extend (h : q.Zones L H T) : SameRequests q (q.extend T) := by
  intro a _ _ hT
  rw [h.reqId_tail] at hT
  exact Function.update_of_ne (Nat.ne_of_lt hT) ..

/-- The zones have room for one slot more when a writer passes. -/
theorem Counts.cap (h : Counts y L H T) (hw : y.q.writers < y.q.nextUnlock0) : T - L < 512 := by
  have hroom := h.room
  omega

theorem Inv.gadrWriter (h : Inv y L H T free) {x : Nat × IoQueue}
    (hx : y.q.gadrWriter = some x) :
    ∃ L' H' T', Inv { y with q := x.2, granted := x.1 :: y.granted } L' H' T' free ∧
      SameRequests y.q x.2 := by
  have hw : y.q.writers < y.q.nextUnlock0 := by
    unfold IoQueue.gadrWriter at hx
    split at hx
    · cases hx
    · omega
  obtain ⟨-, hcases⟩ := gadrWriter_some h.zones (h.counts.cap hw) hx
  rcases hcases with ⟨hT, rfl⟩ | ⟨rfl, rfl⟩
  · exact ⟨L, H, T + 1, h.extend hT hw, h.zones.same_extend⟩
  · have hcap := h.counts.cap hw
    have hLH := h.zones.lockedHead_le
    have hH := h.zones.head_le
    have hr : Rebased y.q (y.q.compacted L (640 + 1 - L)) L (640 - L) :=
      rebased_compacted (by omega)
    have hnew := (h.rebased rfl hr).extend (by omega) hw
    have haddr : (y.q.compacted L (640 + 1 - L)).slotAddr (640 - L) = y.q.slotAddr 640 := by
      rw [slotAddr_rebased hr.offset, Nat.sub_add_cancel (by omega)]
    dsimp only at hnew
    rw [haddr] at hnew
    refine ⟨0, H - L, 640 - L + 1, hnew, fun a ha hL hT => ?_⟩
    rw [← h.zones.same_rebased hr a ha hL hT]
    rw [h.zones.reqId_lockedHead] at hL
    rw [h.zones.reqId_tail] at hT
    have hid := reqId_rebased h.zones.offset_lt hr.offset hL
    refine Function.update_of_ne ?_ ..
    change (y.q.compacted L (640 + 1 - L)).reqId a ≠ 640 - L
    omega

/-- The flags do not matter. -/
theorem Inv.flags (h : Inv y L H T free) (extlock errorState : Bool) :
    Inv { y with q := { y.q with extlock := extlock, errorState := errorState } } L H T free := by
  obtain ⟨hz, hc, hb, ho⟩ := h
  exact ⟨⟨hz.offset_lt, hz.lockedHead, hz.head, hz.tail, hz.lockedHead_le, hz.head_le, hz.tail_le⟩,
    ⟨hc.room, hc.writers_le, hc.readers, hc.readers_le, hc.unlock_le, hc.created⟩,
    ⟨hb.chain, hb.perm⟩,
    ⟨ho.granted, ho.granted_nodup, ho.filled, ho.reading, ho.reading_nodup⟩⟩

/-- The external lock moves the zones to the front when the end is near. -/
theorem lock_cases (h : q.Zones L H T) {q' : IoQueue} (hq : q.lock = some q') :
    q.writers + 1 < q.nextUnlock0 ∧
      (T + 1 < 640 ∧ q' = { q with extlock := true } ∨
        640 ≤ T + 1 ∧ q' = { q.compacted L (T - L) with extlock := true }) := by
  unfold IoQueue.lock at hq
  split at hq
  · cases hq
  rename_i hpass
  have hLH := h.lockedHead_le
  have hHT := h.head_le
  have hT640 := h.tail_le
  have hvalid : q.makeValid (add64 q.tail ioqueueRequestSize) =
      if 640 ≤ T + 1 then some (q.compacted L (T - L)) else some q := by
    rw [h.tail, slotAddr_succ]
    exact makeValid_eq h.offset_lt h.lockedHead h.tail (by omega) (by omega) (by omega)
  rw [hvalid] at hq
  obtain ⟨q₀, hq₀, rfl⟩ := Option.map_eq_some_iff.mp hq
  refine ⟨by omega, ?_⟩
  split at hq₀
  · rename_i h640
    cases hq₀
    exact .inr ⟨h640, rfl⟩
  · cases hq₀
    exact .inl ⟨by omega, rfl⟩

theorem Inv.lock (h : Inv y L H T free) {q' : IoQueue} (hq : y.q.lock = some q') :
    ∃ L' H' T', Inv { y with q := q' } L' H' T' free ∧ SameRequests y.q q' := by
  obtain ⟨-, hcases⟩ := lock_cases h.zones hq
  rcases hcases with ⟨-, rfl⟩ | ⟨-, rfl⟩
  · exact ⟨L, H, T, h.flags true _, fun _ _ _ _ => rfl⟩
  · have hr : Rebased y.q (y.q.compacted L (T - L)) L (T - L) := rebased_compacted (le_refl _)
    have hsame : SameRequests y.q (y.q.compacted L (T - L)) := h.zones.same_rebased hr
    exact ⟨0, H - L, T - L, (h.rebased rfl hr).flags true _, hsame⟩

/-! ## `$create` -/

/-- All blocks are different. -/
theorem Blocks.nodup (h : q.Blocks L T free) : free.Nodup :=
  ((h.perm.nodup_iff.mpr List.nodup_range).sublist (List.sublist_append_left ..))

/-- The blocks of the zones around one slot. -/
theorem reduceOption_split (f : Nat → Option Nat) (hL : L ≤ k) (hT : k < T) :
    (seg f L (T - L)).reduceOption = (seg f L (k - L)).reduceOption ++
      ((f k).toList ++ (seg f (k + 1) (T - (k + 1))).reduceOption) := by
  rw [seg_split hL (show k < L + (T - L) by omega), List.reduceOption_append,
    show L + (T - L) - (k + 1) = T - (k + 1) by omega]
  cases hk : f k with
  | none => rw [List.reduceOption_cons_of_none]; rfl
  | some b => rw [List.reduceOption_cons_of_some]; rfl

/-- The slots around one that changes. -/
theorem reduceOption_update (f : Nat → Option Nat) (o : Option Nat) (hL : L ≤ k) (hT : k < T) :
    (seg (Function.update f k o) L (T - L)).reduceOption.Perm
      (o.toList ++ (seg (Function.update f k none) L (T - L)).reduceOption) := by
  have hside : ∀ a n o', k < a ∨ a + n ≤ k →
      seg (Function.update f k o') a n = seg f a n := fun a n o' h =>
    seg_congr fun j _ _ => Function.update_of_ne (by omega) ..
  rw [reduceOption_split _ hL hT, reduceOption_split _ hL hT, Function.update_self,
    Function.update_self, hside _ _ _ (by omega), hside _ _ _ (by omega), hside _ _ _ (by omega),
    hside _ _ _ (by omega)]
  exact List.perm_append_comm_assoc ..

theorem Inv.free_ne_nil (h : Inv y L H T free) (hL : L ≤ k) (hT : k < T)
    (hnone : y.q.queue k = none) : free ≠ [] := by
  rintro rfl
  have hlen := h.blocks.perm.length_eq
  have hcap : T - L ≤ 512 := by
    have hroom := h.counts.room
    have hw := h.counts.writers_le
    omega
  have hA := List.reduceOption_length_le (seg y.q.queue L (k - L))
  have hB := List.reduceOption_length_le (seg y.q.queue (k + 1) (T - (k + 1)))
  rw [List.nil_append, reduceOption_split _ hL hT, hnone, List.length_append, List.length_append,
    List.length_range, Option.toList_none, List.length_nil] at hlen
  rw [seg_length] at hA hB
  omega

theorem Zones.sub64_lt (h : q.Zones L H T) (hk : k < T) :
    ¬ ioqueueQueueLength ≤ sub64 (q.slotAddr k) q.offset := by
  have hT := h.tail_le
  rw [sub64_slotAddr h.offset_lt (by omega)]
  unfold ioqueueQueueLength
  omega

/-- `$create` fills the slot with the first free block. -/
theorem create_eq (h : q.Zones L H T) {f : Nat} (hf : q.freelistHead = some f) (hk : k < T) :
    q.create (q.slotAddr k) = (true, { q with
      freelistHead := (q.request f).freelistNext
      nextLock2 := q.nextLock2 + 1
      request := Function.update q.request f (.zero q.nextLock2)
      queue := Function.update q.queue k (some f) }) := by
  have hT := h.tail_le
  unfold create
  rw [if_neg (h.sub64_lt hk), hf]
  dsimp only
  rw [setSlot_eq (k := k)]
  · rfl
  · exact reqId_slotAddr h.offset_lt (by omega)

theorem Inv.create (h : Inv y L H T free) {addr : Nat} (hin : addr ∈ y.granted) :
    ∃ free' q', y.q.create addr = (true, q') ∧
      Inv { y with q := q', granted := y.granted.erase addr, created := y.created + 1 } L H T
        free' := by
  obtain ⟨k, hL, hT, rfl, hnone⟩ := h.owners.granted addr hin
  have hT640 := h.zones.tail_le
  cases free with
  | nil => exact absurd rfl (h.free_ne_nil hL hT hnone)
  | cons f free =>
    obtain ⟨hf, hchain⟩ := h.blocks.chain
    refine ⟨free, _, create_eq h.zones hf hT, ?_⟩
    obtain ⟨hz, hc, hb, ho⟩ := h
    have hnodup := List.nodup_cons.mp hb.nodup
    have hinj : ∀ j, j < T → y.q.slotAddr j = y.q.slotAddr k → j = k := fun j hj heq =>
      slotAddr_inj hz.offset_lt (by omega) (by omega) heq
    refine ⟨⟨hz.offset_lt, hz.lockedHead, hz.head, hz.tail, hz.lockedHead_le, hz.head_le,
      hz.tail_le⟩, ⟨hc.room, hc.writers_le, hc.readers, hc.readers_le,
      hc.unlock_le.trans (Nat.le_succ _), ?_⟩, ⟨?_, ?_⟩, ⟨?_, ho.granted_nodup.erase _, ?_, ?_, ho.reading_nodup⟩⟩
    · have hlen := List.length_erase_of_mem hin
      have hpos := List.length_pos_of_mem hin
      have hcr := hc.created
      dsimp only
      omega
    · refine hchain.congr fun b hb' => ?_
      have hne : b ≠ f := fun heq => hnodup.1 (heq ▸ hb')
      dsimp only
      rw [Function.update_of_ne hne]
    · have hupd : Function.update y.q.queue k none = y.q.queue := by
        rw [← hnone, Function.update_eq_self]
      have hp := reduceOption_update y.q.queue (some f) hL hT
      rw [hupd] at hp
      refine ((hp.append_left free).trans ?_).trans hb.perm
      exact List.perm_middle
    · intro g hg
      obtain ⟨j, hLj, hjT, rfl, hj⟩ := ho.granted g (List.mem_of_mem_erase hg)
      have hne : j ≠ k := by
        rintro rfl
        exact (ho.granted_nodup.mem_erase_iff.mp hg).1 rfl
      exact ⟨j, hLj, hjT, rfl, (Function.update_of_ne hne ..).trans hj⟩
    · intro j hj hjT hnone'
      have hne : j ≠ k := by
        rintro rfl
        dsimp only at hnone'
        rw [Function.update_self] at hnone'
        cases hnone'
      dsimp only at hnone'
      rw [Function.update_of_ne hne] at hnone'
      refine (List.mem_erase_of_ne fun heq => hne (hinj j hjT heq)).mpr ?_
      exact ho.filled j hj hjT hnone'
    · intro r hr
      obtain ⟨j, hLj, hjH, rfl, hsome⟩ := ho.reading r hr
      have hne : j ≠ k := by
        rintro rfl
        rw [hnone] at hsome
        cases hsome
      refine ⟨j, hLj, hjH, rfl, ?_⟩
      dsimp only
      rw [Function.update_of_ne hne]
      exact hsome

/-! ## `$unlock` and the reader -/

theorem Inv.unlock (h : Inv y L H T free) (hlt : y.q.nextUnlock1 < y.created) :
    Inv { y with q := y.q.unlock } L H T free := by
  obtain ⟨hz, hc, hb, ho⟩ := h
  exact ⟨⟨hz.offset_lt, hz.lockedHead, hz.head, hz.tail, hz.lockedHead_le, hz.head_le, hz.tail_le⟩,
    ⟨hc.room, hc.writers_le, hc.readers, hc.readers_le.trans (Nat.le_succ _), hlt, hc.created⟩,
    ⟨hb.chain, hb.perm⟩,
    ⟨ho.granted, ho.granted_nodup, ho.filled, ho.reading, ho.reading_nodup⟩⟩

/-- The offsets that are not those of the zones do not matter. -/
theorem Zones.congr {q' : IoQueue} (h : q.Zones L H T) (hoff : q'.offset = q.offset)
    (hL : q'.lockedHead = q.lockedHead) (hH : q'.head = q.head) (hT : q'.tail = q.tail) :
    q'.Zones L H T := by
  have haddr : ∀ k, q'.slotAddr k = q.slotAddr k := fun k => by unfold slotAddr; rw [hoff]
  refine ⟨hoff ▸ h.offset_lt, ?_, ?_, ?_, h.lockedHead_le, h.head_le, h.tail_le⟩
  · rw [hL, haddr, h.lockedHead]
  · rw [hH, haddr, h.head]
  · rw [hT, haddr, h.tail]

theorem Zones.takeHead (h : q.Zones L H T) (hlt : H < T) : q.takeHead.Zones L (H + 1) T := by
  obtain ⟨ho, hL, hH, hT, hLH, hHT, hT640⟩ := h
  refine ⟨ho, ?_, ?_, ?_, by omega, by omega, hT640⟩
  · refine Eq.trans ?_ hL
    simp [IoQueue.takeHead, setIdx, IoQueue.lockedHead, ioqueueHead, ioqueueLockedHead]
  · have hnew : q.takeHead.head = add64 q.head ioqueueRequestSize := by
      simp [IoQueue.takeHead, setIdx, IoQueue.head]
    rw [hnew, hH, slotAddr_succ]
    rfl
  · refine Eq.trans ?_ hT
    simp [IoQueue.takeHead, setIdx, IoQueue.tail, ioqueueHead, ioqueueTail]

theorem setIdx_current {x : Nat} (h : q.Zones L H T) :
    (q.setIdx ioqueueCurrentAddr x).Zones L H T := by
  refine h.congr rfl ?_ ?_ ?_
  · simp [setIdx, lockedHead, ioqueueCurrentAddr, ioqueueLockedHead]
  · simp [setIdx, head, ioqueueCurrentAddr, ioqueueHead]
  · simp [setIdx, tail, ioqueueCurrentAddr, ioqueueTail]

theorem Inv.gadrReader (h : Inv y L H T free) {x : Option Nat × IoQueue}
    (hx : y.q.gadrReader = some x) :
    Inv { y with q := x.2, reading := x.1.toList ++ y.reading } L (H + 1) T free := by
  unfold IoQueue.gadrReader at hx
  split at hx
  · cases hx
  rename_i hpass
  obtain ⟨hz, hc, hb, ho⟩ := h
  have hlt : H < T := by
    have h1 := hc.readers
    have h2 := hc.unlock_le
    have h3 := hc.created
    omega
  have hT640 := hz.tail_le
  have hnewz := hz.takeHead hlt
  have hcounts : ∀ q', q'.writers = y.q.writers → q'.readers = y.q.readers + 1 →
      q'.nextUnlock0 = y.q.nextUnlock0 → q'.nextUnlock1 = y.q.nextUnlock1 →
        ∀ rd, Counts { y with q := q', reading := rd } L (H + 1) T := by
    intro q' h1 h2 h3 h4 rd
    refine ⟨?_, ?_, ?_, ?_, ?_, ?_⟩ <;> dsimp only
    · rw [h1, h3]
      exact hc.room
    · rw [h1, h3]
      exact hc.writers_le
    · have hr := hc.readers
      omega
    · omega
    · rw [h4]
      exact hc.unlock_le
    · rw [h1]
      exact hc.created
  have hden : y.q.takeHead.denotes y.q.head = y.q.queue H := by
    have hid : y.q.takeHead.reqId y.q.head = H := hz.reqId_head
    unfold denotes
    rw [hid]
    rfl
  have hfilled : ∀ k, H + 1 ≤ k → k < T → y.q.queue k = none → y.q.slotAddr k ∈ y.granted :=
    fun k hk => ho.filled k (by omega)
  have hreading : ∀ r ∈ y.reading, ∃ k, L ≤ k ∧ k < H + 1 ∧ r = y.q.slotAddr k ∧
      (y.q.queue k).isSome = true := by
    intro r hr
    obtain ⟨k, hLk, hkH, hk⟩ := ho.reading r hr
    exact ⟨k, hLk, by omega, hk⟩
  rw [hden] at hx
  cases hH : y.q.queue H with
  | none =>
    rw [hH] at hx
    cases hx
    exact ⟨hnewz, hcounts y.q.takeHead rfl rfl rfl rfl _, ⟨hb.chain, hb.perm⟩,
      ⟨ho.granted, ho.granted_nodup, hfilled, hreading, ho.reading_nodup⟩⟩
  | some b =>
    rw [hH] at hx
    cases hx
    refine ⟨setIdx_current hnewz,
      hcounts (y.q.takeHead.setIdx ioqueueCurrentAddr _) rfl rfl rfl rfl _, ⟨hb.chain, hb.perm⟩,
      ⟨ho.granted, ho.granted_nodup, hfilled, ?_, ?_⟩⟩
    · intro r hr
      rcases List.mem_cons.mp hr with rfl | hr
      · refine ⟨H, hz.lockedHead_le, by omega, hz.head, ?_⟩
        change (y.q.queue H).isSome = true
        rw [hH]
        rfl
      · exact hreading r hr
    · refine List.nodup_cons.mpr ⟨fun hin => ?_, ho.reading_nodup⟩
      obtain ⟨k, -, hkH, heq, -⟩ := ho.reading _ hin
      rw [hz.head] at heq
      have hk := slotAddr_inj hz.offset_lt (by omega) (by omega) heq
      omega

/-! ## `$delete` -/

/-- The slots that `$delete` passes are empty, and the next one is not. -/
theorem emptySlots_spec (n c : Nat) : q.emptySlots n c ≤ n ∧
    (∀ k, c ≤ k → k < c + q.emptySlots n c → q.queue k = none) ∧
      (q.emptySlots n c < n → q.queue (c + q.emptySlots n c) ≠ none) := by
  induction n generalizing c with
  | zero => exact ⟨le_refl _, fun k hk hlt => by simp only [emptySlots] at hlt; omega,
      fun h => absurd h (Nat.lt_irrefl _)⟩
  | succ n ih =>
    unfold emptySlots
    obtain ⟨h1, h2, h3⟩ := ih (c + 1)
    split
    · rename_i hnone
      refine ⟨by omega, fun k hk hlt => ?_, fun hlt => ?_⟩
      · by_cases hkc : k = c
        · rw [hkc]
          exact Option.isNone_iff_eq_none.mp hnone
        · exact h2 k (by omega) (by omega)
      · have hnext := h3 (by omega)
        rwa [show c + 1 + q.emptySlots n (c + 1) = c + (q.emptySlots n (c + 1) + 1) by omega]
          at hnext
    · rename_i hsome
      refine ⟨by omega, fun k hk hlt => by omega, fun _ hnone => ?_⟩
      exact hsome (Option.isNone_iff_eq_none.mpr hnone)

/-- Empty slots hold no blocks. -/
theorem reduceOption_seg_none {f : Nat → Option Nat} {c n : Nat}
    (h : ∀ k, c ≤ k → k < c + n → f k = none) : (seg f c n).reduceOption = [] := by
  induction n generalizing c with
  | zero => rfl
  | succ n ih =>
    rw [seg_succ, h c (le_refl _) (by omega), List.reduceOption_cons_of_none]
    exact ih fun k hk hlt => h k (by omega) (by omega)

/-- The empty slots in front leave the zones. -/
theorem Blocks.drop {n : Nat} (h : q.Blocks L T free) (hn : L + n ≤ T)
    (hnone : ∀ k, L ≤ k → k < L + n → q.queue k = none) : q.Blocks (L + n) T free := by
  refine ⟨h.chain, ?_⟩
  have hperm := h.perm
  rwa [show T - L = n + (T - (L + n)) by omega, seg_add, List.reduceOption_append,
    reduceOption_seg_none hnone, List.nil_append] at hperm

/-- `$delete` before the empty slots in front are given away. -/
def freed (q : IoQueue) (k b : Nat) : IoQueue :=
  { q with
    freelistHead := some b
    request := Function.update q.request b { q.request b with freelistNext := q.freelistHead }
    queue := Function.update q.queue k none }

theorem delete_eq (h : q.Zones L H T) {b : Nat} (hk : k < T) (hb : q.queue k = some b) :
    q.delete (q.slotAddr k) = (true, (q.freed k b).advance) := by
  have hT := h.tail_le
  have hid : q.reqId (q.slotAddr k) = k := reqId_slotAddr h.offset_lt (by omega)
  have hden : q.denotes (q.slotAddr k) = some b := by
    unfold denotes
    rw [hid, hb]
  unfold delete
  rw [if_neg (h.sub64_lt hk), hden]
  dsimp only
  rw [setSlot_eq (k := k)]
  · rfl
  · exact hid

theorem Blocks.freed (h : q.Blocks L T free) (hL : L ≤ k) (hT : k < T) {b : Nat}
    (hb : q.queue k = some b) : (q.freed k b).Blocks L T (b :: free) := by
  have hupd : Function.update q.queue k (some b) = q.queue := by
    rw [← hb, Function.update_eq_self]
  have hp := reduceOption_update q.queue (some b) hL hT
  rw [hupd] at hp
  have hall := ((hp.append_left free).symm.trans h.perm)
  have hcons : (b :: free ++ (seg (Function.update q.queue k none) L (T - L)).reduceOption).Perm
      (List.range 512) := List.perm_middle.symm.trans hall
  refine ⟨⟨rfl, ?_⟩, hcons⟩
  have hnodup := List.nodup_cons.mp ((hcons.nodup_iff.mpr List.nodup_range).sublist
    (List.sublist_append_left ..))
  refine @NextPath.congr _ (fun i => (q.request i).freelistNext) _ _ _ ?_ ?_
  · have hhead : ((q.freed k b).request b).freelistNext = q.freelistHead := by
      simp [IoQueue.freed]
    dsimp only
    rw [hhead]
    exact h.chain
  · intro i hi
    have hne : i ≠ b := fun heq => hnodup.1 (heq ▸ hi)
    simp [IoQueue.freed, hne]

theorem advance_eq (h : q.Zones L H T) : q.advance =
    { q.setIdx ioqueueLockedHead (q.slotAddr (L + q.emptySlots (T - L) L)) with
      nextUnlock0 := q.nextUnlock0 + q.emptySlots (T - L) L } := by
  have hT := h.tail_le
  have hHT := h.head_le
  have hLH := h.lockedHead_le
  unfold advance
  rw [h.reqId_tail, h.reqId_lockedHead, Nat.mod_eq_of_lt (show T < 65536 by omega),
    Nat.mod_eq_of_lt (show L < 65536 by omega)]
  rfl

theorem Inv.delete (h : Inv y L H T free) {addr : Nat} (hin : addr ∈ y.reading)
    (hkeep : Keeps y (.delete addr)) : ∃ L' free',
      Inv { y with q := (y.q.delete addr).2, reading := y.reading.erase addr } L' H T free' := by
  obtain ⟨k, hL, hkH, rfl, hsome⟩ := h.owners.reading addr hin
  obtain ⟨b, hb⟩ := Option.isSome_iff_exists.mp hsome
  have hz := h.zones
  have hHT := hz.head_le
  have hT640 := hz.tail_le
  have hfz : (y.q.freed k b).Zones L H T := hz.congr rfl rfl rfl rfl
  rw [delete_eq hz (by omega) hb, advance_eq hfz]
  obtain ⟨hn, hnone, hstop⟩ := emptySlots_spec (q := y.q.freed k b) (T - L) L
  generalize (y.q.freed k b).emptySlots (T - L) L = n at hn hnone hstop
  have hold : ∀ j, j ≠ k → (y.q.freed k b).queue j = y.q.queue j := fun j hj =>
    Function.update_of_ne hj ..
  -- A slot in front that is not filled would have a block before it.
  have hgrant : ∀ j, j < T → y.q.slotAddr j ∈ y.granted → L + n ≤ j := by
    intro j hj hg
    by_contra hlt
    obtain ⟨i, hi, hLi, hik, hsome⟩ := hkeep _ hg
    rw [reqId_slotAddr hz.offset_lt (by omega)] at hi
    rw [hz.reqId_lockedHead] at hLi
    rw [reqId_slotAddr hz.offset_lt (by omega)] at hik
    have hempty := hnone i hLi (by omega)
    rw [hold i hik] at hempty
    rw [hempty] at hsome
    cases hsome
  have hnH : L + n ≤ H := by
    by_contra hlt
    have hempty := hnone H (hz.lockedHead_le) (by omega)
    rw [hold H (by omega)] at hempty
    have hbound := hgrant H (by omega) (h.owners.filled H (le_refl _) (by omega) hempty)
    omega
  refine ⟨L + n, b :: free, ?_⟩
  obtain ⟨-, hc, hbl, ho⟩ := h
  have hblocks := (hbl.freed hL (show k < T by omega) hb).drop (by omega) hnone
  refine ⟨⟨hz.offset_lt, ?_, ?_, ?_, hnH, hHT, hT640⟩, ⟨?_, ?_, hc.readers, hc.readers_le,
    hc.unlock_le, hc.created⟩, ⟨hblocks.chain, hblocks.perm⟩,
    ⟨?_, ho.granted_nodup, ?_, ?_, ho.reading_nodup.erase _⟩⟩
  · simp [setIdx, IoQueue.lockedHead]
    rfl
  · refine Eq.trans ?_ hz.head
    simp [setIdx, IoQueue.head, ioqueueHead, ioqueueLockedHead, freed]
  · refine Eq.trans ?_ hz.tail
    simp [setIdx, IoQueue.tail, ioqueueTail, ioqueueLockedHead, freed]
  · have hroom := hc.room
    change y.q.writers + 512 = y.q.nextUnlock0 + n + (T - (L + n))
    omega
  · exact hc.writers_le.trans (Nat.le_add_right ..)
  · intro g hg
    obtain ⟨j, hLj, hjT, rfl, hj⟩ := ho.granted g hg
    have hjk : j ≠ k := by
      rintro rfl
      rw [hb] at hj
      cases hj
    exact ⟨j, hgrant j hjT hg, hjT, rfl, (hold j hjk).trans hj⟩
  · intro j hj hjT hempty
    have hjk : j ≠ k := by omega
    exact ho.filled j hj hjT ((hold j hjk).symm.trans hempty)
  · intro r hr
    obtain ⟨j, hLj, hjH, rfl, hj⟩ := ho.reading r (List.mem_of_mem_erase hr)
    have hjk : j ≠ k := by
      rintro rfl
      exact (ho.reading_nodup.mem_erase_iff.mp hr).1 rfl
    refine ⟨j, ?_, hjH, rfl, ?_⟩
    · by_contra hlt
      have hempty := hnone j hLj (by omega)
      rw [hold j hjk] at hempty
      rw [hempty] at hj
      cases hj
    · exact (congrArg Option.isSome (hold j hjk)).trans hj

/-! ## `insertrequest` -/

/-- `$move` of `n` slots from slot `k` to slot `d`. -/
theorem move_eq {n d off : Nat} (ho : q.offset < addrSpace) (hk : k ≤ 65536) (hn : n ≤ 65536)
    (hoff : add64 (k * 64) off = d * 64) :
    q.move (q.slotAddr k) (n * 64) off =
      if k + n ≤ 640 ∧ d + n ≤ 640 then (true, { q with queue := memmove q.queue d k n })
      else (false, q) := by
  have hd : d * 64 < addrSpace := hoff ▸ add64_lt ..
  unfold move
  rw [sub64_slotAddr ho hk]
  dsimp only
  rw [hoff]
  have hdiv : ∀ m, m * 64 / ioqueueRequestSize = m := fun m => Nat.mul_div_cancel m (by decide)
  rw [hdiv, hdiv, hdiv]
  have hcond : (2 ^ 63 ≤ k * 64 ∨ ioqueueQueueLength < add64 (k * 64) (n * 64) ∨
      2 ^ 63 ≤ d * 64 ∨ ioqueueQueueLength < add64 (d * 64) (n * 64)) ↔
        ¬ (k + n ≤ 640 ∧ d + n ≤ 640) := by
    unfold ioqueueQueueLength add64 addrSpace at *
    omega
  by_cases h : k + n ≤ 640 ∧ d + n ≤ 640
  · rw [if_pos h, if_neg fun hc => hcond.mp hc h]
  · rw [if_neg h, if_pos (hcond.mpr h)]

/-- The slots from `P` on after the last one before `T` has gone to `P`. -/
def rotated (f : Nat → Option Nat) (P T : Nat) : Nat → Option Nat :=
  memmove (memmove f (P + 1) P (T - P)) P T 1

theorem rotate_eq {P : Nat} (ho : q.offset < addrSpace) (hP : P < T) (hT : T ≤ 640) :
    q.rotate (q.slotAddr (T - 1)) (q.slotAddr P) =
      if T + 1 ≤ 640 then (true, { q with queue := rotated q.queue P T }) else (false, q) := by
  have hlen : add64 (sub64 (q.slotAddr (T - 1)) (q.slotAddr P)) ioqueueRequestSize =
      (T - P) * 64 := by
    unfold slotAddr add64 sub64 ioqueueRequestSize addrSpace at *
    omega
  unfold rotate
  rw [hlen, slotAddr_succ, Nat.sub_add_cancel (by omega)]
  have hfirst : add64 (P * 64) ioqueueRequestSize = (P + 1) * 64 := by
    unfold add64 ioqueueRequestSize addrSpace
    omega
  dsimp only
  rw [move_eq ho (by omega) (by omega) hfirst]
  by_cases h640 : T + 1 ≤ 640
  · rw [if_pos (show P + (T - P) ≤ 640 ∧ P + 1 + (T - P) ≤ 640 by omega), if_pos h640]
    have hsecond : add64 (T * 64) (sub64 0 ((T - P) * 64)) = P * 64 := by
      unfold add64 sub64 addrSpace
      omega
    rw [if_pos rfl]
    have hmove := move_eq (q := { q with queue := memmove q.queue (P + 1) P (T - P) }) (n := 1) ho
      (show T ≤ 65536 by omega) (by omega) hsecond
    rw [if_pos ⟨h640, by omega⟩] at hmove
    exact hmove
  · rw [if_neg (show ¬ (P + (T - P) ≤ 640 ∧ P + 1 + (T - P) ≤ 640) by omega), if_neg h640]
    rfl

theorem rotated_lt (f : Nat → Option Nat) {P j : Nat} (hj : j < P) : rotated f P T j = f j := by
  unfold rotated memmove
  rw [if_neg (by omega), if_neg (by omega)]

theorem rotated_self (f : Nat → Option Nat) {P : Nat} (hP : P < T) :
    rotated f P T P = f (T - 1) := by
  unfold rotated memmove
  rw [if_pos (by omega), if_pos (by omega)]
  congr 1
  omega

theorem rotated_gt (f : Nat → Option Nat) {P j : Nat} (hj : P < j) (hjT : j < T) :
    rotated f P T j = f (j - 1) := by
  unfold rotated memmove
  rw [if_neg (by omega), if_pos (by omega)]
  congr 1
  omega

theorem seg_rotated (f : Nat → Option Nat) {P : Nat} (hLP : L ≤ P) (hP : P < T) :
    seg (rotated f P T) L (T - L) = seg f L (P - L) ++ (f (T - 1) :: seg f P (T - 1 - P)) := by
  rw [seg_split hLP (show P < L + (T - L) by omega), rotated_self f hP]
  congr 1
  · exact seg_congr fun j _ hj => rotated_lt f (by omega)
  · congr 1
    rw [show L + (T - L) - (P + 1) = T - 1 - P by omega]
    refine seg_eq fun j hj => ?_
    rw [rotated_gt f (by omega) (by omega)]
    congr 1
    omega

/-- The same requests, in another order. -/
theorem rotated_perm (f : Nat → Option Nat) {P : Nat} (hLP : L ≤ P) (hP : P < T) :
    (seg (rotated f P T) L (T - L)).Perm (seg f L (T - L)) := by
  have hold : seg f L (T - L) = seg f L (P - L) ++ (seg f P (T - 1 - P) ++ [f (T - 1)]) := by
    rw [show T - L = (P - L) + ((T - 1 - P) + 1) by omega, seg_add, seg_add, seg_one,
      show L + (P - L) = P by omega, show P + (T - 1 - P) = T - 1 by omega]
  rw [seg_rotated f hLP hP, hold]
  refine List.Perm.append_left _ ?_
  exact (List.perm_append_singleton _ _).symm

theorem slotAddr_reqId {a : Nat} (ho : q.offset < addrSpace) (ha : a < addrSpace)
    (hal : sub64 a q.offset % ioqueueRequestSize = 0) : q.slotAddr (q.reqId a) = a := by
  unfold slotAddr reqId sub64 add64 ioqueueRequestSize addrSpace at *
  omega

/-- An index and offsets that keep the zones and the requests of the locked one. -/
theorem Inv.reordered (h : Inv y L H T free) (hg : y.granted = []) {q' : IoQueue}
    {idx : Nat → Nat} {f : Nat → Option Nat} (hq : q' = { y.q with queueIdx := idx, queue := f })
    (hidx : ∀ i, i = 0 ∨ i = 1 ∨ i = 4 → idx i = y.q.queueIdx i)
    (hlt : ∀ j < H, f j = y.q.queue j) (hperm : (seg f L (T - L)).Perm (seg y.q.queue L (T - L)))
    (hsome : ∀ j, H ≤ j → j < T → f j ≠ none) : Inv { y with q := q' } L H T free := by
  subst hq
  obtain ⟨hz, hc, hb, ho⟩ := h
  refine ⟨hz.congr rfl (hidx _ (.inl rfl)) (hidx _ (.inr (.inl rfl))) (hidx _ (.inr (.inr rfl))),
    ⟨hc.room, hc.writers_le, hc.readers, hc.readers_le, hc.unlock_le, hc.created⟩,
    ⟨hb.chain, ?_⟩, ⟨?_, ho.granted_nodup, ?_, ?_, ho.reading_nodup⟩⟩
  · exact ((hperm.filterMap id).append_left free).trans hb.perm
  · intro g hin
    rw [hg] at hin
    cases hin
  · intro k hk hkT hnone
    exact absurd hnone (hsome k hk hkT)
  · intro r hr
    obtain ⟨k, hL, hkH, rfl, hk⟩ := ho.reading r hr
    exact ⟨k, hL, hkH, rfl, (congrArg Option.isSome (hlt k hkH)).trans hk⟩

/-- The offsets that `insertrequest` sets are those of the scheduler, but for an urgent request. -/
theorem raise_eq {prio : Prio} (hp : prio ≠ .urgent) (pos : Nat) : ∃ idx : Nat → Nat,
    (∀ i, i = 0 ∨ i = 1 ∨ i = 4 → idx i = q.queueIdx i) ∧
      (raise (prio.toNat - 1) q).setIdx (ioqueueSchedInsertBackground - prio.toNat) pos =
        { q with queueIdx := idx } := by
  cases prio with
  | urgent => exact absurd rfl hp
  | none | background =>
    refine ⟨_, fun i hi => ?_, rfl⟩
    refine Function.update_of_ne ?_ ..
    simp only [ioqueueSchedInsertBackground, Prio.toNat]
    omega
  | normal =>
    refine ⟨_, fun i hi => ?_, rfl⟩
    refine (Function.update_of_ne ?_ ..).trans (Function.update_of_ne ?_ ..)
    · simp only [ioqueueSchedInsertBackground, Prio.toNat]
      omega
    · simp only [ioqueueSchedBackground]
      omega

theorem Inv.insert (h : Inv y L H T free) (hg : y.granted = []) {pos : Nat} {prio : Prio}
    (hkeep : Keeps y (.insert pos prio)) :
    Inv { y with q := (y.q.insertrequest (sub64 y.q.tail ioqueueRequestSize) pos prio).2 } L H T
      free := by
  obtain ⟨hprio, hpos, hal, hHP, hPT⟩ := hkeep
  have hz := h.zones
  have ho := hz.offset_lt
  have hLH := hz.lockedHead_le
  have hT := hz.tail_le
  rw [hz.reqId_head] at hHP
  rw [hz.reqId_tail] at hPT
  rw [← slotAddr_reqId ho hpos hal]
  generalize y.q.reqId pos = P at hHP hPT
  have hnew : sub64 y.q.tail ioqueueRequestSize = y.q.slotAddr (T - 1) := by
    rw [hz.tail]
    unfold slotAddr sub64 add64 ioqueueRequestSize addrSpace at *
    omega
  have hfilled : ∀ j, H ≤ j → j < T → y.q.queue j ≠ none := by
    intro j hj hjT hnone
    have hin := h.owners.filled j hj hjT hnone
    rw [hg] at hin
    cases hin
  rw [hnew]
  unfold insertrequest
  by_cases hlt : y.q.slotAddr P < y.q.slotAddr (T - 1)
  · rw [if_pos hlt, rotate_eq ho hPT hT]
    by_cases h640 : T + 1 ≤ 640
    · rw [if_pos h640]
      generalize hq : { y.q with queue := rotated y.q.queue P T } = q'
      obtain ⟨idx, hidx, heq⟩ := raise_eq (q := q') hprio (y.q.slotAddr P)
      subst hq
      dsimp only
      rw [if_pos rfl, heq]
      refine h.reordered hg rfl hidx (fun j hj => rotated_lt _ (by omega))
        (rotated_perm _ (by omega) hPT) fun j hj hjT => ?_
      change rotated y.q.queue P T j ≠ none
      rcases Nat.lt_trichotomy j P with hjP | rfl | hjP
      · rw [rotated_lt _ hjP]
        exact hfilled j hj hjT
      · rw [rotated_self _ hPT]
        exact hfilled _ (by omega) (by omega)
      · rw [rotated_gt _ hjP hjT]
        exact hfilled _ (by omega) (by omega)
    · rw [if_neg h640]
      exact h
  · rw [if_neg hlt]
    obtain ⟨idx, hidx, heq⟩ := raise_eq (q := y.q) hprio (y.q.slotAddr P)
    dsimp only
    rw [if_pos rfl, heq]
    exact h.reordered hg rfl hidx (fun _ _ => rfl) (List.Perm.refl _) hfilled

/-! ## Every run -/

theorem Inv.step (h : Inv y L H T free) {e : Event} (hkeep : Keeps y e) {t : System}
    (ht : step y e = some t) : ∃ L' H' T' free', Inv t L' H' T' free' := by
  cases e with
  | lock =>
    obtain ⟨q', hq, rfl⟩ := Option.map_eq_some_iff.mp ht
    obtain ⟨L', H', T', hinv, -⟩ := h.lock hq
    exact ⟨L', H', T', free, hinv⟩
  | unlockExt =>
    cases ht
    exact ⟨L, H, T, free, h.flags false _⟩
  | gadrWriter =>
    obtain ⟨x, hx, rfl⟩ := Option.map_eq_some_iff.mp ht
    obtain ⟨L', H', T', hinv, -⟩ := h.gadrWriter hx
    exact ⟨L', H', T', free, hinv⟩
  | create addr =>
    simp only [IoQueue.step] at ht
    split at ht
    · rename_i hin
      obtain ⟨free', q', hq, hinv⟩ := h.create hin
      rw [hq] at ht
      cases ht
      exact ⟨L, H, T, free', hinv⟩
    · cases ht
  | unlock =>
    simp only [IoQueue.step] at ht
    split at ht
    · rename_i hlt
      cases ht
      exact ⟨L, H, T, free, h.unlock hlt⟩
    · cases ht
  | insert pos prio =>
    simp only [IoQueue.step] at ht
    split at ht
    · rename_i hcond
      obtain rfl := Option.some.inj ht
      exact ⟨L, H, T, free, h.insert hcond.2 hkeep⟩
    · cases ht
  | gadrReader =>
    simp only [IoQueue.step] at ht
    split at ht
    · cases ht
    · obtain ⟨x, hx, rfl⟩ := Option.map_eq_some_iff.mp ht
      exact ⟨L, H + 1, T, free, h.gadrReader hx⟩
  | delete addr =>
    simp only [IoQueue.step] at ht
    split at ht
    · cases ht
    · rename_i hcond
      obtain rfl := Option.some.inj ht
      have hin : addr ∈ y.reading := by
        by_contra hout
        exact hcond (.inr hout)
      obtain ⟨L', free', hinv⟩ := h.delete hin hkeep
      exact ⟨L', H, T, free', hinv⟩
  | error =>
    cases ht
    exact ⟨L, H, T, free, h.flags _ true⟩

/-- **Every request block is in the free list or in one slot between `locked_head` and `tail`, the
offsets stay in order, and the slots denote the same requests when the index grows or is
compacted.** -/
theorem blocks_are_stored (h : Reach step (· = start) Keeps y) : Stored y.q ∧
    ∀ t, step y .gadrWriter = some t ∨ step y .lock = some t → SameRequests y.q t.q := by
  have hinv : ∃ L H T free, Inv y L H T free := by
    refine h.invariant (I := fun y => ∃ L H T free, Inv y L H T free) ?_ ?_
    · rintro y rfl
      exact ⟨0, 0, 0, _, Inv.start⟩
    · rintro s e t ⟨L, H, T, free, hs⟩ hok ht
      exact hs.step hok ht
  obtain ⟨L, H, T, free, hinv⟩ := hinv
  refine ⟨hinv.stored, ?_⟩
  rintro t (ht | ht)
  · obtain ⟨x, hx, rfl⟩ := Option.map_eq_some_iff.mp ht
    obtain ⟨-, -, -, -, hsame⟩ := hinv.gadrWriter hx
    exact hsame
  · obtain ⟨q', hq, rfl⟩ := Option.map_eq_some_iff.mp ht
    obtain ⟨-, -, -, -, hsame⟩ := hinv.lock hq
    exact hsame

/-- Two requests are filled, the second one is put in front of the first one, and both are read. The
one in front is deleted beside a slot that is got and not filled, which then takes its block. -/
def twoRequests : List Event := [.gadrWriter, .create 0, .unlock, .gadrWriter, .create 64, .unlock,
  .lock, .insert 0 .normal, .unlockExt, .gadrReader, .gadrReader, .gadrWriter, .delete 0, .create 128]

instance (y : System) (e : Event) : Decidable (Keeps y e) :=
  match e with
  | .insert pos prio => inferInstanceAs (Decidable (prio ≠ .urgent ∧ pos < addrSpace ∧
      sub64 pos y.q.offset % ioqueueRequestSize = 0 ∧ y.q.reqId y.q.head ≤ y.q.reqId pos ∧
        y.q.reqId pos < y.q.reqId y.q.tail))
  | .delete addr => inferInstanceAs (Decidable (∀ g ∈ y.granted, ∃ k < y.q.reqId g,
      y.q.reqId y.q.lockedHead ≤ k ∧ k ≠ y.q.reqId addr ∧ (y.q.queue k).isSome = true))
  | .lock | .unlockExt | .gadrWriter | .create _ | .unlock | .gadrReader | .error =>
      inferInstanceAs (Decidable True)

theorem blocks_are_stored_two : ∃ y, (y.q.lockedHead, y.q.head, y.q.tail) = (64, 128, 192) ∧
    y.q.slots = [some 0, some 1] ∧ Stored y.q ∧
    ∀ t, step y .gadrWriter = some t ∨ step y .lock = some t → SameRequests y.q t.q := by
  have hrun : ((run step Keeps start twoRequests).map fun y =>
      ((y.q.lockedHead, y.q.head, y.q.tail), y.q.slots)) =
      some ((64, 128, 192), [some 0, some 1]) := by
    decide
  obtain ⟨y, hy, hzones⟩ := Option.map_eq_some_iff.mp hrun
  obtain ⟨hzones, hslots⟩ := Prod.mk.inj hzones
  exact ⟨y, hzones, hslots, blocks_are_stored (reach_run hy)⟩

/-- The loop of `$delete` passes a slot that a writer has got and not filled yet. -/
theorem blocks_not_stored : ¬ ∀ y, Reach step (· = start) anyEvent y → Stored y.q ∧
    ∀ t, step y .gadrWriter = some t ∨ step y .lock = some t → SameRequests y.q t.q := by
  intro h
  have hrun : ((run step anyEvent start
      [.gadrWriter, .create 0, .unlock, .gadrReader, .gadrWriter, .delete 0]).map fun y =>
        (y.q.reqId y.q.lockedHead, y.q.reqId y.q.head)) = some (2, 1) := by
    decide
  obtain ⟨y, hy, hzones⟩ := Option.map_eq_some_iff.mp hrun
  have hle := (h y (reach_run hy)).1.lockedHead_le
  rw [Prod.mk.injEq] at hzones
  omega

end IoQueue

end Athomux
