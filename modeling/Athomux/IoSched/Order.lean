import Athomux.IoQueue.Storage
import Athomux.IoSched.Elevator

/-!
# The order of the elevator scheduler

`$trans` runs under the external lock, and is one step. The numbers of `prio_t` are one higher than
`$trans` counts with: the zone that it takes for the one of a priority is the one before it.
-/

namespace Athomux

open Lib IoQueue

namespace IoSched

/-! ## The scheduler and the arbiter -/

structure System where
  q : IoQueue
  reading : List Nat

inductive Event
  | trans (x : SchedArgs) (n : Nat) (next : Nat → Nat)
  | gadrReader
  | delete (addr : Nat)
  | error

def step : System → Event → Option System
  | y, .trans x n next => (y.q.trans x n next).map fun r => { y with q := r.2 }
  | y, .gadrReader =>
    if y.q.extlock then none
    else y.q.gadrReader.map fun x => ⟨x.2, x.1.toList ++ y.reading⟩
  | y, .delete addr =>
    if y.q.extlock ∨ addr ∉ y.reading then none
    else some ⟨(y.q.delete addr).2, y.reading.erase addr⟩
  | y, .error => some { y with q := y.q.setError }

def start : System := ⟨.init, []⟩

/-! ## What should hold -/

/-- The requests of the slots between two addresses. -/
def requests (q : IoQueue) (first last : Nat) : List IoRequest :=
  (seg q.queue (q.reqId first) (q.reqId last - q.reqId first)).reduceOption.map q.request

/-- By priority, and then by address. -/
def Before (r r' : IoRequest) : Prop :=
  r'.prio.toNat < r.prio.toNat ∨ r.prio = r'.prio ∧ r.logAddr ≤ r'.logAddr

def normal (q : IoQueue) : Nat := q.queueIdx ioqueueSchedNormal
def background (q : IoQueue) : Nat := q.queueIdx ioqueueSchedBackground

/-- The schedulable part is sorted, and every zone has the requests of its priority. -/
structure Scheduled (q : IoQueue) : Prop where
  sorted : (requests q q.head q.tail).Pairwise Before
  head_le : q.reqId q.head ≤ q.reqId (normal q)
  normal_le : q.reqId (normal q) ≤ q.reqId (background q)
  background_le : q.reqId (background q) ≤ q.reqId q.tail
  urgent : ∀ r ∈ requests q q.head (normal q), r.prio = .urgent
  normal : ∀ r ∈ requests q (normal q) (background q), r.prio = .normal
  background : ∀ r ∈ requests q (background q) q.tail, r.prio = .background

/-- The calls of `$trans` after which it is so: a request that is found in the locked zone, or one
of `prio_background` that goes before all others, or `direct_stop` when no reader has moved the head
since. -/
def Keeps (y : System) : Event → Prop
  | .trans x n _ =>
    if x.direction = .stop then
      y.q.head ≤ IoSched.normal y.q ∧ IoSched.normal y.q ≤ IoSched.background y.q
    else
      (y.q.lock.bind fun q => q.validIdx.search x n Prio.urgent.toNat).map (·.1) = some true ∨
        x.prio = .background ∧ y.q.tail + ioqueueRequestSize < 2 ^ 63 ∧
          ∀ r ∈ requests y.q y.q.head y.q.tail, x.logAddr ≤ r.logAddr
  | _ => True

/-! ## Priorities and addresses in the schedulable part -/

variable {q q' : IoQueue} {y : System} {L H T : Nat} {free : List Nat}

/-- What the order is about. -/
def key (r : IoRequest) : Prio × Nat := (r.prio, r.logAddr)

def keys (q : IoQueue) (H T : Nat) : List (Prio × Nat) :=
  (seg q.queue H (T - H)).reduceOption.map fun i => key (q.request i)

/-- All requests are of `prio_background`, and sorted. -/
def Background (l : List (Prio × Nat)) : Prop :=
  (∀ p ∈ l, p.1 = .background) ∧ l.Pairwise fun p p' => p.2 ≤ p'.2

theorem requests_eq (h : q.Zones L H T) :
    (requests q q.head q.tail).map key = keys q H T := by
  unfold requests keys
  rw [h.reqId_head, h.reqId_tail, List.map_map]
  rfl

/-- The slots have the requests of before, with their priorities and addresses. -/
theorem keys_congr {H' T' : Nat} (hseg : seg q'.queue H' (T' - H') = seg q.queue H (T - H))
    (hkey : ∀ i, key (q'.request i) = key (q.request i)) : keys q' H' T' = keys q H T := by
  unfold keys
  rw [hseg]
  exact List.map_congr_left fun i _ => hkey i

/-- The first request leaves the schedulable part. -/
theorem Background.tail (h : Background (keys q H T)) : Background (keys q (H + 1) T) := by
  have hsub : (keys q (H + 1) T).Sublist (keys q H T) := by
    unfold keys
    refine List.Sublist.map _ (List.Sublist.filterMap _ ?_)
    by_cases hlt : H < T
    · rw [show T - H = (T - (H + 1)) + 1 by omega, seg_succ]
      exact List.sublist_cons_self ..
    · rw [show T - (H + 1) = 0 by omega]
      exact List.nil_sublist _
  exact ⟨fun p hp => h.1 p (hsub.subset hp), h.2.sublist hsub⟩

/-- The invariant. The zones of the urgent and the normal requests are empty. -/
structure Ordered (y : System) (L H T : Nat) : Prop where
  inv : ∃ c free, Inv ⟨y.q, [], c, y.reading⟩ L H T free
  top : y.q.offset + T * 64 < 2 ^ 63
  normal_le : normal y.q ≤ y.q.head
  background_le : background y.q ≤ y.q.head
  sorted : Background (keys y.q H T)

theorem Ordered.start : Ordered start 0 0 0 where
  inv := ⟨0, _, Inv.start⟩
  top := by decide
  normal_le := Nat.le_refl 0
  background_le := Nat.le_refl 0
  sorted := by
    change Background []
    exact ⟨fun _ hp => absurd hp List.not_mem_nil, List.Pairwise.nil⟩

/-- With the offsets at the head the part is as it should be. -/
theorem Ordered.scheduled (h : Ordered y L H T) (hn : normal y.q = y.q.head)
    (hb : background y.q = y.q.head) : Scheduled y.q := by
  obtain ⟨⟨c, free, hinv⟩, -, -, -, hall, hsorted⟩ := h
  have hz : y.q.Zones L H T := hinv.zones
  rw [← requests_eq hz] at hall hsorted
  have hempty : requests y.q y.q.head y.q.head = [] := by
    unfold requests
    rw [Nat.sub_self]
    rfl
  refine ⟨?_, by rw [hn], by rw [hn, hb], ?_, ?_, ?_, ?_⟩
  · rw [List.pairwise_map] at hsorted
    refine hsorted.imp_of_mem fun hr hr' hle => .inr ⟨?_, hle⟩
    exact (hall _ (List.mem_map_of_mem hr)).trans (hall _ (List.mem_map_of_mem hr')).symm
  · rw [hb, hz.reqId_head, hz.reqId_tail]
    exact hz.head_le
  · rw [hn, hempty]
    intro r hr
    cases hr
  · rw [hn, hb, hempty]
    intro r hr
    cases hr
  · rw [hb]
    exact fun r hr => hall _ (List.mem_map_of_mem hr)

/-! ## The arbiter -/

theorem Ordered.gadrReader (h : Ordered y L H T) {x : Option Nat × IoQueue}
    (hx : y.q.gadrReader = some x) : Ordered ⟨x.2, x.1.toList ++ y.reading⟩ L (H + 1) T := by
  obtain ⟨⟨c, free, hinv⟩, htop, hn, hb, hkeys⟩ := h
  have hnew := hinv.gadrReader hx
  have hz : y.q.Zones L H T := hinv.zones
  have hsame : x.2.queue = y.q.queue ∧ x.2.request = y.q.request ∧ x.2.offset = y.q.offset ∧
      normal x.2 = normal y.q ∧ background x.2 = background y.q := by
    unfold IoQueue.gadrReader at hx
    split at hx
    · cases hx
    · split at hx
      · cases hx
        exact ⟨rfl, rfl, rfl, rfl, rfl⟩
      · cases hx
        exact ⟨rfl, rfl, rfl, rfl, rfl⟩
  obtain ⟨hqueue, hreq, hoff, hn', hb'⟩ := hsame
  have hhead : y.q.head ≤ x.2.head := by
    have hz' : x.2.Zones L (H + 1) T := hnew.zones
    have hHT := hz'.head_le
    rw [hz.head, hz'.head]
    unfold slotAddr add64 ioqueueRequestSize addrSpace
    rw [hoff]
    omega
  refine ⟨⟨c, free, hnew⟩, ?_, ?_, ?_, ?_⟩
  · rw [hoff]
    exact htop
  · rw [hn']
    exact hn.trans hhead
  · rw [hb']
    exact hb.trans hhead
  · have hkeys' : keys x.2 (H + 1) T = keys y.q (H + 1) T :=
      keys_congr (by rw [hqueue]) fun i => by rw [hreq]
    rw [hkeys']
    exact hkeys.tail

theorem Ordered.delete (h : Ordered y L H T) {addr : Nat} (hin : addr ∈ y.reading) :
    ∃ L', Ordered ⟨(y.q.delete addr).2, y.reading.erase addr⟩ L' H T := by
  obtain ⟨⟨c, free, hinv⟩, htop, hn, hb, hkeys⟩ := h
  obtain ⟨L', free', hnew⟩ := hinv.delete hin fun g hg => absurd hg List.not_mem_nil
  obtain ⟨k, -, hkH, rfl, hsome⟩ := hinv.owners.reading addr hin
  obtain ⟨b, hb'⟩ := Option.isSome_iff_exists.mp hsome
  have hz : y.q.Zones L H T := hinv.zones
  have hHT := hz.head_le
  have hdel : y.q.delete (y.q.slotAddr k) = (true, (y.q.freed k b).advance) :=
    delete_eq hz (by omega) hb'
  rw [hdel] at hnew ⊢
  refine ⟨L', ⟨c, free', hnew⟩, htop, hn, hb, ?_⟩
  have hkeys' : keys (y.q.freed k b).advance H T = keys y.q H T := by
    refine keys_congr (seg_congr fun j hj _ => Function.update_of_ne (by omega) ..) fun i => ?_
    change key (Function.update y.q.request b _ i) = _
    by_cases hi : i = b
    · rw [hi, Function.update_self]
      rfl
    · rw [Function.update_of_ne hi]
  rw [hkeys']
  exact hkeys

/-! ## `$trans` of `direct_stop` -/

/-- Blocks that keep their place in the free list can be written. -/
theorem inv_request {z : IoQueue.System} (h : Inv z L H T free) {request : Nat → IoRequest}
    (hnext : ∀ i ∈ free, (request i).freelistNext = (z.q.request i).freelistNext) :
    Inv { z with q := { z.q with request := request } } L H T free := by
  obtain ⟨hz, hc, hb, ho⟩ := h
  exact ⟨⟨hz.offset_lt, hz.lockedHead, hz.head, hz.tail, hz.lockedHead_le, hz.head_le, hz.tail_le⟩,
    ⟨hc.room, hc.writers_le, hc.readers, hc.readers_le, hc.unlock_le, hc.created⟩,
    ⟨hb.chain.congr hnext, hb.perm⟩,
    ⟨ho.granted, ho.granted_nodup, ho.filled, ho.reading, ho.reading_nodup⟩⟩

/-- Only the directions of requests change. -/
theorem cancel_eq (q : IoQueue) (x : SchedArgs) : ∃ request : Nat → IoRequest,
    q.cancel x = { q with request := request } ∧
      ∀ i, key (request i) = key (q.request i) ∧
        (request i).freelistNext = (q.request i).freelistNext := by
  unfold cancel
  dsimp only
  generalize List.range' _ _ = l
  induction l generalizing q with
  | nil => exact ⟨q.request, rfl, fun _ => ⟨rfl, rfl⟩⟩
  | cons k l ih =>
    rw [List.foldl_cons]
    split
    · exact ih q
    · rename_i b _
      split
      · obtain ⟨request, heq, hkeep⟩ :=
          ih (q.setRequest b { q.request b with direction := .stop })
        refine ⟨request, heq, fun i => ?_⟩
        obtain ⟨hkey, hnext⟩ := hkeep i
        rw [hkey, hnext]
        unfold setRequest
        dsimp only
        by_cases hi : i = b
        · rw [hi, Function.update_self]
          exact ⟨rfl, rfl⟩
        · rw [Function.update_of_ne hi]
          exact ⟨rfl, rfl⟩
      · exact ih q

theorem Ordered.cancel (h : Ordered y L H T) (x : SchedArgs) :
    Ordered { y with q := y.q.cancel x } L H T := by
  obtain ⟨⟨c, free, hinv⟩, htop, hn, hb, hsorted⟩ := h
  obtain ⟨request, heq, hkeep⟩ := cancel_eq y.q x
  rw [heq]
  refine ⟨⟨c, free, inv_request hinv fun i _ => (hkeep i).2⟩, htop, hn, hb, ?_⟩
  have hkeys : keys { y.q with request := request } H T = keys y.q H T :=
    keys_congr rfl fun i => (hkeep i).1
  rw [hkeys]
  exact hsorted

/-! ## `$lock` and the search -/

/-- What the external lock promises. -/
structure Locked (q q' : IoQueue) (H T H' T' : Nat) : Prop where
  room : T' + 1 < 640
  keys : keys q' H' T' = keys q H T
  pass : q'.writers < q'.nextUnlock0
  top : q'.offset + T' * 64 = q.offset + T * 64

theorem Ordered.lock (h : Ordered y L H T) (hq : y.q.lock = some q') :
    ∃ L' H' T', Ordered { y with q := q' } L' H' T' ∧ Locked y.q q' H T H' T' := by
  obtain ⟨⟨c, free, hinv⟩, htop, hn, hb, hsorted⟩ := h
  have hz : y.q.Zones L H T := hinv.zones
  have hLH := hz.lockedHead_le
  have hHT := hz.head_le
  obtain ⟨hroom, hcases⟩ := lock_cases hz hq
  have hpass : y.q.writers < y.q.nextUnlock0 := by omega
  rcases hcases with ⟨hroom, rfl⟩ | ⟨-, rfl⟩
  · exact ⟨L, H, T, ⟨⟨c, free, hinv.flags true _⟩, htop, hn, hb, hsorted⟩,
      ⟨hroom, rfl, hpass, rfl⟩⟩
  · have hr : Rebased y.q (y.q.compacted L (T - L)) L (T - L) := rebased_compacted (Nat.le_refl _)
    have hcap : T - L < 512 := hinv.counts.cap hpass
    have hoff : (y.q.compacted L (T - L)).offset = y.q.offset + L * 64 :=
      add64_eq (by unfold ioqueueRequestSize addrSpace; omega)
    have htop' : (y.q.compacted L (T - L)).offset + (T - L) * 64 = y.q.offset + T * 64 := by
      rw [hoff]
      omega
    have hseg : seg (y.q.compacted L (T - L)).queue (H - L) (T - L - (H - L)) =
        seg y.q.queue H (T - H) := by
      rw [show T - L - (H - L) = T - H by omega]
      refine seg_eq fun i hi => ?_
      rw [hr.queue _ (by omega)]
      congr 1
      omega
    have hkeys : keys { y.q.compacted L (T - L) with extlock := true } (H - L) (T - L) =
        keys y.q H T := keys_congr hseg fun _ => rfl
    refine ⟨0, H - L, T - L, ⟨⟨c, free, (hinv.rebased rfl hr).flags true _⟩, ?_, hn, hb, ?_⟩,
      ⟨by omega, hkeys, hpass, htop'⟩⟩
    · exact htop'.trans_lt htop
    · rw [hkeys]
      exact hsorted

/-- The offsets of the scheduler are at the head then. -/
theorem validIdx_eq (hn : normal q ≤ q.head) (hb : background q ≤ q.head) :
    ∃ idx : Nat → Nat, q.validIdx = { q with queueIdx := idx } ∧
      (∀ i, i ≠ 2 → i ≠ 3 → idx i = q.queueIdx i) ∧ idx 2 = q.head ∧ idx 3 = q.head := by
  have hset : ∀ q : IoQueue, ∀ i x, (q.setIdx i x).queueIdx i = x := fun q i x =>
    Function.update_self ..
  have hne : ∀ q : IoQueue, ∀ i j x, j ≠ i → (q.setIdx i x).queueIdx j = q.queueIdx j :=
    fun q i j x h => Function.update_of_ne h ..
  -- The first test leaves the offset of the normal requests at the head.
  have hfirst : ∃ idx : Nat → Nat, (if q.queueIdx ioqueueSchedNormal <
      q.queueIdx ioqueueSchedUrgent then q.setIdx ioqueueSchedNormal (q.queueIdx ioqueueSchedUrgent)
      else q) = { q with queueIdx := idx } ∧ (∀ i, i ≠ 2 → idx i = q.queueIdx i) ∧
        idx 2 = q.head := by
    split
    · exact ⟨_, rfl, fun i hi => hne q 2 i _ hi, hset q 2 _⟩
    · rename_i hle
      refine ⟨q.queueIdx, rfl, fun _ _ => rfl, ?_⟩
      exact Nat.le_antisymm hn (Nat.le_of_not_lt hle)
  obtain ⟨idx, heq, hkeep, h2⟩ := hfirst
  have h3 : idx 3 ≤ q.head := (hkeep 3 (by decide)).trans_le hb
  unfold validIdx
  rw [heq]
  dsimp only
  split
  · refine ⟨_, rfl, fun i hi hi' => (hne _ 3 i _ hi').trans (hkeep i hi), ?_, ?_⟩
    · exact (hne { q with queueIdx := idx } 3 2 (idx ioqueueSchedNormal) (by decide)).trans h2
    · exact (hset { q with queueIdx := idx } 3 _).trans h2
  · rename_i hle
    refine ⟨idx, rfl, fun i hi _ => hkeep i hi, h2, ?_⟩
    exact Nat.le_antisymm h3 (h2.symm.trans_le (Nat.le_of_not_lt hle))

theorem Ordered.validIdx (h : Ordered y L H T) : Ordered { y with q := y.q.validIdx } L H T ∧
    y.q.validIdx.head = y.q.head ∧ normal y.q.validIdx = y.q.head ∧
      background y.q.validIdx = y.q.head := by
  obtain ⟨⟨c, free, hinv⟩, htop, hn, hb, hsorted⟩ := h
  obtain ⟨idx, heq, hkeep, h2, h3⟩ := validIdx_eq hn hb
  rw [heq]
  have hhead : idx 1 = y.q.head := hkeep 1 (by decide) (by decide)
  refine ⟨⟨⟨c, free, ?_⟩, htop, ?_, ?_, hsorted⟩, hhead, h2, h3⟩
  · refine hinv.reordered rfl rfl (fun i hi => hkeep i ?_ ?_) (fun _ _ => rfl) (List.Perm.refl _) ?_
    · omega
    · omega
    · exact fun j hj hjT hnone => absurd (hinv.owners.filled j hj hjT hnone) List.not_mem_nil
  · exact h2.trans_le (Nat.le_of_eq hhead.symm)
  · exact h3.trans_le (Nat.le_of_eq hhead.symm)

/-- The search of an empty zone ends at once. -/
theorem search_empty (prio : Nat) {x : SchedArgs} {n : Nat} {r : Bool × Nat}
    (hfirst : q.queueIdx (ioqueueSchedBackground - prio) = q.head)
    (hlast : q.queueIdx (ioqueueSchedBackground - prio + 1) = q.head) (hlt : q.head < 2 ^ 63)
    (h : q.search x n prio = some r) : r = (false, q.head) := by
  unfold search SchedArgs.binarySearch at h
  rw [hfirst, hlast] at h
  cases n with
  | zero => cases h
  | succ n =>
    have hend : offsLt (sub64 q.head ioqueueRequestSize) q.head := by
      unfold offsLt sub64 add64 ioqueueRequestSize addrSpace
      omega
    unfold SchedArgs.searchLoop at h
    rw [if_pos hend] at h
    exact (Option.some.inj h).symm

/-- A request is found in the locked zone, or its place is at the head. -/
theorem searchAll_cases {x : SchedArgs} {n : Nat} {next : Nat → Nat}
    {r : (Nat × Nat) ⊕ (Nat → Nat)} (hn : normal q = q.head) (hb : background q = q.head)
    (hlt : q.head < 2 ^ 63) (h : q.searchAll x n Prio.urgent.toNat next = some r) :
    (∃ a, q.search x n Prio.urgent.toNat = some (true, a) ∧ r = .inl (Prio.urgent.toNat, a)) ∨
      (∃ a, q.search x n Prio.urgent.toNat = some (false, a)) ∧
        ∃ next', r = .inr next' ∧ next' Prio.background.toNat = q.head := by
  unfold Prio.toNat at h ⊢
  dsimp only at h ⊢
  obtain ⟨⟨found, a⟩, h3, hr⟩ := Option.bind_eq_some_iff.mp h
  cases found with
  | true => exact .inl ⟨a, h3, (Option.some.inj hr).symm⟩
  | false =>
    obtain ⟨r2, h2, hr⟩ := Option.bind_eq_some_iff.mp hr
    obtain rfl := search_empty 2 rfl hn hlt h2
    obtain ⟨r1, h1, hr⟩ := Option.bind_eq_some_iff.mp hr
    obtain rfl := search_empty 1 hn hb hlt h1
    exact .inr ⟨⟨a, h3⟩, _, (Option.some.inj hr).symm, Function.update_self ..⟩

/-! ## A new request -/

/-- The request at the end goes to the head. -/
theorem insertrequest_head {x : Prio} (hz : q.Zones L H T) (hx : x = .background) (hHT : H < T)
    (hT : T < 640) (htop : q.offset + T * 64 < 2 ^ 63) : ∃ (idx : Nat → Nat) (f : Nat → Option Nat),
      q.insertrequest (q.slotAddr (T - 1)) (q.slotAddr H) x =
        (true, { q with queueIdx := idx, queue := f }) ∧
      (∀ i, i ≠ 6 → idx i = q.queueIdx i) ∧
      seg f H (T - H) = q.queue (T - 1) :: seg q.queue H (T - 1 - H) := by
  subst hx
  have ho := hz.offset_lt
  have hidx : ∀ i, i ≠ 6 → (q.setIdx 6 (q.slotAddr H)).queueIdx i = q.queueIdx i := fun i hi =>
    Function.update_of_ne hi ..
  unfold insertrequest
  by_cases hlt : q.slotAddr H < q.slotAddr (T - 1)
  · rw [if_pos hlt, rotate_eq ho hHT (by omega), if_pos (show T + 1 ≤ 640 by omega)]
    refine ⟨_, rotated q.queue H T, rfl, hidx, ?_⟩
    rw [seg_rotated q.queue (Nat.le_refl H) hHT, Nat.sub_self]
    rfl
  · rw [if_neg hlt]
    refine ⟨_, q.queue, rfl, hidx, ?_⟩
    have hHT' : H = T - 1 := by
      unfold slotAddr add64 ioqueueRequestSize addrSpace at hlt
      omega
    rw [hHT', Nat.sub_self, show T - (T - 1) = 1 by omega, seg_one]
    rfl

/-- The keys after the request in a new block has gone to the head. -/
theorem keys_cons (q' : IoQueue) {b : Nat} {f : Nat → Option Nat}
    (hfree : b ∉ (seg q.queue H (T - H)).reduceOption)
    (hseg : seg f H (T + 1 - H) = some b :: seg q.queue H (T - H)) (hqueue : q'.queue = f)
    (hkey : ∀ i, i ≠ b → key (q'.request i) = key (q.request i)) :
    keys q' H (T + 1) = key (q'.request b) :: keys q H T := by
  unfold keys
  rw [hqueue, hseg, List.reduceOption_cons_of_some, List.map_cons]
  congr 1
  refine List.map_congr_left fun i hi => hkey i ?_
  rintro rfl
  exact hfree hi

/-- The queue with a request in a new block at the end. -/
structure Filled (q q' : IoQueue) (x : SchedArgs) (T b : Nat) : Prop where
  queue : q'.queue = Function.update q.queue T (some b)
  offset : q'.offset = q.offset
  queueIdx : ∀ i, i ≠ 4 → q'.queueIdx i = q.queueIdx i
  new : key (q'.request b) = (x.prio, x.logAddr)
  old : ∀ i, i ≠ b → key (q'.request i) = key (q.request i)

theorem enqueue_filled {c : Nat} {reading : List Nat} (h : Inv ⟨q, [], c, reading⟩ L H T free)
    (hT : T < 640) (hpass : q.writers < q.nextUnlock0) {x : SchedArgs} {next : Nat → Nat}
    {r : Bool × IoQueue} (hr : q.enqueue x next = some r) : ∃ b q' free',
      Inv ⟨q', [], c + 1, reading⟩ L H (T + 1) free' ∧ b ∈ free ∧ Filled q q' x T b ∧
        r = (true, if (q'.insertrequest (q.slotAddr T) (next x.prio.toNat) x.prio).1 = true then
          (q'.insertrequest (q.slotAddr T) (next x.prio.toNat) x.prio).2.unlockExt
        else (q'.insertrequest (q.slotAddr T) (next x.prio.toNat) x.prio).2) := by
  obtain ⟨g, hg, rfl⟩ := Option.map_eq_some_iff.mp hr
  have hz : q.Zones L H T := h.zones
  obtain ⟨-, hcases⟩ := gadrWriter_some hz (h.counts.cap hpass) hg
  obtain ⟨-, rfl⟩ | ⟨rfl, -⟩ := hcases
  swap
  · exact absurd hT (Nat.lt_irrefl _)
  have hext : Inv ⟨q.extend T, [q.slotAddr T], c, reading⟩ L H (T + 1) free := h.extend hT hpass
  have hin : q.slotAddr T ∈ [q.slotAddr T] := List.mem_singleton_self _
  have hLT : L ≤ T := hz.lockedHead_le.trans hz.head_le
  have hnone : (q.extend T).queue T = none := Function.update_self ..
  cases free with
  | nil => exact absurd rfl (hext.free_ne_nil hLT (Nat.lt_succ_self T) hnone)
  | cons b free =>
    obtain ⟨free', q', hq', hnew⟩ := hext.create hin
    have hcreate := create_eq hext.zones hext.blocks.chain.1 (Nat.lt_succ_self T)
    have hq : q' = { q.extend T with
        freelistHead := (q.request b).freelistNext
        nextLock2 := q.nextLock2 + 1
        request := Function.update q.request b (.zero q.nextLock2)
        queue := Function.update (q.extend T).queue T (some b) } :=
      congrArg Prod.snd (hq'.symm.trans hcreate)
    replace hq' : (q.extend T).create (q.slotAddr T) = (true, q') := hq'
    replace hnew : Inv ⟨q', [q.slotAddr T].erase (q.slotAddr T), c + 1, reading⟩ L H (T + 1) free' :=
      hnew
    have hqueue : q'.queue = Function.update q.queue T (some b) := by
      rw [hq]
      exact Function.update_idem ..
    have hoff : q'.offset = q.offset := by rw [hq]; rfl
    have hden : q'.denotes (q.slotAddr T) = some b := by
      unfold denotes reqId
      rw [hoff, hqueue]
      have hid : q.reqId (q.slotAddr T) = T := reqId_slotAddr hz.offset_lt (by omega)
      unfold reqId at hid
      rw [hid, Function.update_self]
    rw [List.erase_cons_head] at hnew
    have hfill : ∀ i, i ≠ b → (q'.fill b x).request i = q'.request i := fun i hi =>
      Function.update_of_ne hi ..
    have hblock : (q'.fill b x).request b = { q'.request b with
        logAddr := x.logAddr
        logLen := x.logLen
        physAddr := x.physAddr
        direction := x.direction
        prio := x.prio } := Function.update_self ..
    have hfilled : Inv ⟨q'.fill b x, [], c + 1, reading⟩ L H (T + 1) free' := by
      refine inv_request hnew fun i _ => ?_
      by_cases hi : i = b
      · rw [hi]
        refine (congrArg IoRequest.freelistNext hblock).trans ?_
        rfl
      · exact congrArg IoRequest.freelistNext (hfill i hi)
    have hlt : (q'.fill b x).nextUnlock1 < c + 1 := by
      have hle := h.counts.unlock_le
      have heq : (q'.fill b x).nextUnlock1 = q.nextUnlock1 := by rw [hq]; rfl
      rw [heq]
      exact Nat.lt_succ_of_le hle
    refine ⟨b, (q'.fill b x).unlock, free', hfilled.unlock hlt, List.mem_cons_self ..,
      ⟨hqueue, hoff, fun i hi => ?_, ?_, fun i hi => ?_⟩, ?_⟩
    · change q'.queueIdx i = _
      rw [hq]
      exact Function.update_of_ne hi ..
    · change key ((q'.fill b x).request b) = _
      rw [hblock]
      rfl
    · change key ((q'.fill b x).request i) = _
      rw [hfill i hi, hq]
      exact congrArg key (Function.update_of_ne hi ..)
    · dsimp only
      rw [hq']
      dsimp only
      rw [hden]

theorem Ordered.unlockExt (h : Ordered y L H T) :
    Ordered { y with q := y.q.unlockExt } L H T := by
  obtain ⟨⟨c, free, hinv⟩, htop, hn, hb, hsorted⟩ := h
  exact ⟨⟨c, free, hinv.flags false _⟩, htop, hn, hb, hsorted⟩

/-- A request that goes before all others, when the offsets of the scheduler are at the head. -/
theorem Ordered.enqueue (h : Ordered y L H T) (hn : normal y.q = y.q.head)
    (hb : background y.q = y.q.head) (hroom : T + 1 < 640) (hpass : y.q.writers < y.q.nextUnlock0)
    (htop : y.q.offset + (T + 1) * 64 < 2 ^ 63) {x : SchedArgs} (hx : x.prio = .background)
    (hle : ∀ p ∈ keys y.q H T, x.logAddr ≤ p.2) {next : Nat → Nat}
    (hnext : next Prio.background.toNat = y.q.head) {r : Bool × IoQueue}
    (hr : y.q.enqueue x next = some r) :
    Ordered { y with q := r.2 } L H (T + 1) ∧ r.2.head = y.q.head ∧ normal r.2 = y.q.head ∧
      background r.2 = y.q.head := by
  obtain ⟨⟨c, free, hinv⟩, -, -, -, hall, hsorted⟩ := h
  obtain ⟨b, q', free', hnew, hfree, hf, rfl⟩ := enqueue_filled hinv (by omega) hpass hr
  have hz : y.q.Zones L H T := hinv.zones
  have hz' : q'.Zones L H (T + 1) := hnew.zones
  have hHT := hz.head_le
  have hLH := hz.lockedHead_le
  have htop' : q'.offset + (T + 1) * 64 < 2 ^ 63 := by
    rw [hf.offset]
    exact htop
  have haddr : ∀ k, q'.slotAddr k = y.q.slotAddr k := fun k => by
    unfold slotAddr
    rw [hf.offset]
  obtain ⟨idx, f, hins, hidx, hseg⟩ := insertrequest_head hz' hx (by omega) (by omega) htop'
  have hpos : next x.prio.toNat = q'.slotAddr H := by
    rw [hx, hnext, hz.head, haddr]
  have hins' : q'.insertrequest (y.q.slotAddr T) (next x.prio.toNat) x.prio =
      (true, { q' with queueIdx := idx, queue := f }) := by
    rw [hpos, ← haddr]
    exact hins
  -- The blocks are where they were, in another order.
  have hlast : sub64 q'.tail ioqueueRequestSize = y.q.slotAddr T := by
    rw [hz'.tail, haddr]
    unfold slotAddr sub64 add64 ioqueueRequestSize addrSpace
    omega
  have hkeep : IoQueue.Keeps ⟨q', [], c + 1, y.reading⟩ (.insert (next x.prio.toNat) x.prio) := by
    have ho := hz'.offset_lt
    rw [hpos]
    refine ⟨by rw [hx]; decide, add64_lt .., ?_, ?_, ?_⟩
    · change sub64 (q'.slotAddr H) q'.offset % ioqueueRequestSize = 0
      rw [sub64_slotAddr ho (by omega)]
      unfold ioqueueRequestSize
      omega
    · change q'.reqId q'.head ≤ q'.reqId (q'.slotAddr H)
      rw [hz'.head]
    · change q'.reqId (q'.slotAddr H) < q'.reqId q'.tail
      rw [hz'.reqId_tail, reqId_slotAddr ho (by omega)]
      omega
  have hinserted := hnew.insert rfl hkeep
  dsimp only at hinserted
  rw [hlast, hins'] at hinserted
  rw [hins']
  have hhead : idx 1 = y.q.head := (hidx 1 (by decide)).trans (hf.queueIdx 1 (by decide))
  have hnormal : idx 2 = y.q.head :=
    ((hidx 2 (by decide)).trans (hf.queueIdx 2 (by decide))).trans hn
  have hbackground : idx 3 = y.q.head :=
    ((hidx 3 (by decide)).trans (hf.queueIdx 3 (by decide))).trans hb
  have hkeys : keys { q' with queueIdx := idx, queue := f } H (T + 1) =
      (.background, x.logAddr) :: keys y.q H T := by
    have hout : b ∉ (seg y.q.queue H (T - H)).reduceOption := by
      intro hin
      have hnodup := (hinv.blocks.perm.nodup_iff.mpr List.nodup_range)
      refine (List.nodup_append.mp hnodup).2.2 b hfree b ?_ rfl
      change b ∈ (seg y.q.queue L (T - L)).reduceOption
      rw [show T - L = (H - L) + (T - H) by omega, seg_add, show L + (H - L) = H by omega,
        List.reduceOption_append]
      exact List.mem_append_right _ hin
    refine (keys_cons { q' with queueIdx := idx, queue := f } hout ?_ rfl hf.old).trans ?_
    · have hsame : seg (Function.update y.q.queue T (some b)) H (T - H) = seg y.q.queue H (T - H) :=
        seg_congr fun j _ hj => Function.update_of_ne (by omega) ..
      rw [hseg, Nat.add_sub_cancel, hf.queue, Function.update_self, hsame]
    · rw [← hx]
      exact congrArg (· :: keys y.q H T) hf.new
  refine ⟨⟨⟨c + 1, free', hinserted.flags false _⟩, htop', ?_, ?_, ?_⟩, hhead, hnormal,
    hbackground⟩
  · exact (hnormal.trans hhead.symm).le
  · exact (hbackground.trans hhead.symm).le
  · change Background (keys { q' with queueIdx := idx, queue := f } H (T + 1))
    rw [hkeys]
    refine ⟨fun p hp => ?_, List.pairwise_cons.mpr ⟨hle, hsorted⟩⟩
    rcases List.mem_cons.mp hp with rfl | hp
    · rfl
    · exact hall p hp

/-! ## Every run -/

theorem Ordered.head_lt (h : Ordered y L H T) : y.q.head < 2 ^ 63 := by
  obtain ⟨⟨c, free, hinv⟩, htop, -⟩ := h
  have hz : y.q.Zones L H T := hinv.zones
  have hHT := hz.head_le
  rw [hz.head]
  unfold slotAddr add64 ioqueueRequestSize addrSpace
  omega

theorem Ordered.trans (h : Ordered y L H T) {x : SchedArgs} {n : Nat} {next : Nat → Nat}
    (hkeep : Keeps y (.trans x n next)) {r : Bool × IoQueue} (hr : y.q.trans x n next = some r) :
    ∃ L' H' T', Ordered { y with q := r.2 } L' H' T' ∧ normal r.2 = r.2.head ∧
      background r.2 = r.2.head := by
  simp only [Keeps] at hkeep
  unfold IoQueue.trans at hr
  by_cases hstop : x.direction = .stop
  · rw [if_pos hstop] at hr hkeep
    obtain rfl := Option.some.inj hr
    obtain ⟨request, heq, -⟩ := cancel_eq y.q x
    refine ⟨L, H, T, h.cancel x, ?_, ?_⟩
    · rw [heq]
      exact Nat.le_antisymm h.normal_le hkeep.1
    · rw [heq]
      exact Nat.le_antisymm h.background_le (hkeep.1.trans hkeep.2)
  rw [if_neg hstop] at hr hkeep
  obtain ⟨q₁, hlock, hr⟩ := Option.bind_eq_some_iff.mp hr
  obtain ⟨L', H', T', h₁, hlocked⟩ := h.lock hlock
  obtain ⟨h₂, hhead, hn, hb⟩ := h₁.validIdx
  dsimp only at h₂ hhead hn hb
  obtain ⟨s, hs, hr⟩ := Option.bind_eq_some_iff.mp hr
  have hlt : q₁.validIdx.head < 2 ^ 63 := h₂.head_lt
  rw [hlock, Option.bind_some] at hkeep
  rcases searchAll_cases (hn.trans hhead.symm) (hb.trans hhead.symm) hlt hs with
    ⟨a, -, rfl⟩ | ⟨⟨a, hmiss⟩, next', rfl, hnext⟩
  · -- The priority of a request in the locked zone does not change.
    have hprio : ¬ Prio.urgent.toNat < x.prio.toNat := by
      cases x.prio <;> decide
    dsimp only at hr
    rw [if_neg hprio] at hr
    obtain rfl := Option.some.inj hr
    exact ⟨L', H', T', h₂.unlockExt, hn.trans hhead.symm, hb.trans hhead.symm⟩
  · rw [hmiss, Option.map_some] at hkeep
    obtain hfalse | ⟨hprio, hmax, hle⟩ := hkeep
    · exact absurd (Option.some.inj hfalse) Bool.false_ne_true
    obtain ⟨⟨c, free, hinv⟩, htop, -, -, -⟩ := h
    have hz : y.q.Zones L H T := hinv.zones
    have htail : y.q.tail = y.q.offset + T * 64 := by
      rw [hz.tail]
      unfold slotAddr add64 ioqueueRequestSize addrSpace
      omega
    obtain ⟨idx, heq, -⟩ := validIdx_eq h₁.normal_le h₁.background_le
    dsimp only at heq
    rw [heq] at h₂ hhead hn hb hnext hr
    have hle' : ∀ p ∈ keys { q₁ with queueIdx := idx } H' T', x.logAddr ≤ p.2 := by
      change ∀ p ∈ keys q₁ H' T', _
      rw [hlocked.keys, ← requests_eq hz]
      intro p hp
      obtain ⟨req, hreq, rfl⟩ := List.mem_map.mp hp
      exact hle req hreq
    have htop' : q₁.offset + (T' + 1) * 64 < 2 ^ 63 := by
      have heq := hlocked.top
      unfold ioqueueRequestSize at hmax
      omega
    obtain ⟨hnew, hhead', hn', hb'⟩ := h₂.enqueue (hn.trans hhead.symm) (hb.trans hhead.symm)
      hlocked.room hlocked.pass htop' hprio hle' hnext hr
    exact ⟨L', H', T' + 1, hnew, hn'.trans hhead'.symm, hb'.trans hhead'.symm⟩

theorem Ordered.step (h : Ordered y L H T) {e : Event} (hkeep : Keeps y e) {t : System}
    (ht : step y e = some t) : ∃ L' H' T', Ordered t L' H' T' := by
  cases e with
  | trans x n next =>
    obtain ⟨r, hr, rfl⟩ := Option.map_eq_some_iff.mp ht
    obtain ⟨L', H', T', hnew, -⟩ := h.trans hkeep hr
    exact ⟨L', H', T', hnew⟩
  | gadrReader =>
    simp only [IoSched.step] at ht
    split at ht
    · cases ht
    · obtain ⟨x, hx, rfl⟩ := Option.map_eq_some_iff.mp ht
      exact ⟨L, H + 1, T, h.gadrReader hx⟩
  | delete addr =>
    simp only [IoSched.step] at ht
    split at ht
    · cases ht
    · rename_i hcond
      obtain rfl := Option.some.inj ht
      have hin : addr ∈ y.reading := by
        by_contra hout
        exact hcond (.inr hout)
      obtain ⟨L', hnew⟩ := h.delete hin
      exact ⟨L', H, T, hnew⟩
  | error =>
    cases ht
    obtain ⟨⟨c, free, hinv⟩, htop, hn, hb, hsorted⟩ := h
    exact ⟨L, H, T, ⟨c, free, hinv.flags _ true⟩, htop, hn, hb, hsorted⟩

/-- **After every `$trans` the schedulable part is sorted by priority and address, and the offsets
are the borders of the priorities.** -/
theorem order_is_kept (h : Reach step (· = start) Keeps y) {x : SchedArgs} {n : Nat}
    {next : Nat → Nat} (hkeep : Keeps y (.trans x n next)) {t : System}
    (ht : step y (.trans x n next) = some t) : Scheduled t.q := by
  have hinv : ∃ L H T, Ordered y L H T := by
    refine h.invariant (I := fun y => ∃ L H T, Ordered y L H T) ?_ ?_
    · rintro y rfl
      exact ⟨0, 0, 0, Ordered.start⟩
    · rintro s e t ⟨L, H, T, hs⟩ hok ht
      exact hs.step hok ht
  obtain ⟨L, H, T, hinv⟩ := hinv
  obtain ⟨r, hr, rfl⟩ := Option.map_eq_some_iff.mp ht
  obtain ⟨L', H', T', hnew, hn, hb⟩ := hinv.trans hkeep hr
  exact hnew.scheduled hn hb

instance (y : System) (e : Event) : Decidable (Keeps y e) :=
  match e with
  | .trans x n _ => inferInstanceAs (Decidable (if x.direction = .stop then
      y.q.head ≤ IoSched.normal y.q ∧ IoSched.normal y.q ≤ IoSched.background y.q
    else
      (y.q.lock.bind fun q => q.validIdx.search x n Prio.urgent.toNat).map (·.1) = some true ∨
        x.prio = .background ∧ y.q.tail + ioqueueRequestSize < 2 ^ 63 ∧
          ∀ r ∈ requests y.q y.q.head y.q.tail, x.logAddr ≤ r.logAddr))
  | .gadrReader | .delete _ | .error => inferInstanceAs (Decidable True)

/-- A request of 8 bytes to read. -/
def readArgs (logAddr : Nat) (prio : Prio) : SchedArgs := ⟨logAddr, 8, 4096, .read, prio⟩

theorem order_is_kept_two : ∃ t : System, (requests t.q t.q.head t.q.tail).map (·.logAddr) = [50, 100] ∧
    Scheduled t.q := by
  have hrun : ((run step Keeps start [.trans (readArgs 100 .background) 4 fun _ => 0]).bind
      fun y => if Keeps y (.trans (readArgs 50 .background) 4 fun _ => 0) then
        (step y (.trans (readArgs 50 .background) 4 fun _ => 0)).map fun t =>
          (requests t.q t.q.head t.q.tail).map (·.logAddr) else none) = some [50, 100] := by
    decide
  obtain ⟨y, hy, hrun⟩ := Option.bind_eq_some_iff.mp hrun
  split at hrun
  · rename_i hkeep
    obtain ⟨t, ht, hlist⟩ := Option.map_eq_some_iff.mp hrun
    exact ⟨t, hlist, order_is_kept (reach_run hy) hkeep ht⟩
  · cases hrun

/-- The first request of `prio_normal` is in the zone of the urgent ones. -/
theorem order_not_kept : ¬ ∀ y, Reach step (· = start) anyEvent y → ∀ x n next (t : System),
    step y (.trans x n next) = some t → Scheduled t.q := by
  intro h
  have hrun : (step start (.trans (readArgs 100 .normal) 4 fun _ => 0)).map (fun t =>
      (requests t.q t.q.head (normal t.q)).map (·.prio)) = some [.normal] := by
    decide
  obtain ⟨t, ht, hzone⟩ := Option.map_eq_some_iff.mp hrun
  have hurgent := (h start (.start rfl) _ _ _ t ht).urgent
  have hin : Prio.normal ∈ (requests t.q t.q.head (normal t.q)).map (·.prio) := by
    rw [hzone]
    exact List.mem_singleton_self _
  obtain ⟨r, hr, hprio⟩ := List.mem_map.mp hin
  have hne := (hurgent r hr).symm.trans hprio
  cases hne

end IoSched

end Athomux
