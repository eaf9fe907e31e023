import Athomux.Args
import Athomux.Lib.Arrays
import Athomux.Lib.Links
import Athomux.Lib.Run
import Athomux.Lib.Segments

/-!
# `io_queue`

Requests in blocks, and an index with the number of a block in every slot. Addresses of slots go on
without end, and `offset` is the one of the first slot. `lock[0]` and `lock[1]` are counters: how
many have passed, and how many may pass.
-/

namespace Athomux

open Lib

/-- `IOQUEUE_MAX_REQUESTS`. -/
def ioqueueMaxRequests : Nat := 512

/-- `IOQUEUE_TOTAL_REQUESTS`. -/
def ioqueueTotalRequests : Nat := 640

/-- `IOQUEUE_REQUEST_SIZE`. -/
def ioqueueRequestSize : Nat := 64

/-- `IOQUEUE_QUEUE_LENGTH`. -/
def ioqueueQueueLength : Nat := 40960

/-- `struct ioqueue_request`. `none` is `IOQUEUE_NULLPTR`. -/
structure IoRequest where
  logAddr : Nat
  logLen : Nat
  physAddr : Nat
  direction : Direction
  prio : Prio
  lockId : Nat
  freelistNext : Option Nat
  deriving DecidableEq, Repr

/-- After `memset`, with its `lock_id`. -/
def IoRequest.zero (lockId : Nat) : IoRequest := ⟨0, 0, 0, .read, .none, lockId, some 0⟩

/-- `prio` as a number. -/
def Prio.toNat : Prio → Nat
  | .none => 0
  | .background => 1
  | .normal => 2
  | .urgent => 3

/-! ## `ioqueue_index` -/

def ioqueueLockedHead : Nat := 0
def ioqueueHead : Nat := 1
def ioqueueSchedNormal : Nat := 2
def ioqueueSchedBackground : Nat := 3
def ioqueueTail : Nat := 4
def ioqueueSchedInsertBackground : Nat := 7
def ioqueueCurrentAddr : Nat := 8

/-- `ioqueue_sched_urgent`. -/
def ioqueueSchedUrgent : Nat := ioqueueHead

structure IoQueue where
  queueIdx : Nat → Nat
  errorState : Bool
  offset : Nat
  extlock : Bool
  freelistHead : Option Nat
  queue : Nat → Option Nat
  request : Nat → IoRequest
  /-- Who has passed `lock[0]` and `lock[1]`. -/
  writers : Nat
  readers : Nat
  /-- `lockinfo[0].next_unlock` and `lockinfo[1].next_unlock`. -/
  nextUnlock0 : Nat
  nextUnlock1 : Nat
  /-- `lockinfo[2].next_lock`. -/
  nextLock2 : Nat

namespace IoQueue

/-- `$output_init`. The index is full of zeros. -/
def init : IoQueue where
  queueIdx := fun _ => 0
  errorState := false
  offset := 0
  extlock := false
  freelistHead := some 0
  queue := fun _ => some 0
  request := fun i => { IoRequest.zero 0 with
    freelistNext := if i + 1 < ioqueueMaxRequests then some (i + 1) else none }
  writers := 0
  readers := 0
  nextUnlock0 := ioqueueMaxRequests
  nextUnlock1 := 0
  nextLock2 := 0

variable (q : IoQueue)

def lockedHead : Nat := q.queueIdx ioqueueLockedHead
def head : Nat := q.queueIdx ioqueueHead
def tail : Nat := q.queueIdx ioqueueTail

def setIdx (i x : Nat) : IoQueue := { q with queueIdx := Function.update q.queueIdx i x }

/-- `MAKE_REQID(addr - offset)`. -/
def reqId (addr : Nat) : Nat := sub64 addr q.offset / ioqueueRequestSize

/-- Which request a slot denotes. -/
def denotes (addr : Nat) : Option Nat := q.queue (q.reqId addr)

/-- `make_valid`. There is no result when `memmove` gets a negative length. -/
def makeValid (addr : Nat) : Option IoQueue :=
  if ioqueueQueueLength ≤ sub64 addr q.offset then
    let c := q.reqId q.lockedHead % 65536
    let last := q.reqId q.tail % 65536
    if last < c then none
    else some { q with
      queue := memmove q.queue 0 c (last - c)
      offset := add64 q.offset (c * ioqueueRequestSize) }
  else some q

/-! ## `$gadr`, `$unlock`, `$create`, `$delete` and `$move` -/

/-- A writer takes the address at `tail`. -/
def takeTail : IoQueue :=
  let q := q.setIdx ioqueueTail (add64 q.tail ioqueueRequestSize)
  { q with writers := q.writers + 1 }

/-- A reader takes the address at `queue_head`. -/
def takeHead : IoQueue :=
  let q := q.setIdx ioqueueHead (add64 q.head ioqueueRequestSize)
  { q with readers := q.readers + 1 }

/-- What a slot denotes is set. -/
def setSlot (addr : Nat) (req : Option Nat) : IoQueue :=
  { q with queue := Function.update q.queue (q.reqId addr) req }

/-- `$gadr` of a writer, to the address. It waits when there is no result. -/
def gadrWriter : Option (Nat × IoQueue) :=
  if q.errorState ∨ q.nextUnlock0 ≤ q.writers then none
  else (q.takeTail.makeValid q.tail).map fun q' => (q.tail, q'.setSlot q.tail none)

/-- `$gadr` of a reader. Without an address it tries again. -/
def gadrReader : Option (Option Nat × IoQueue) :=
  if q.errorState ∨ q.nextUnlock1 ≤ q.readers then none
  else
    match q.takeHead.denotes q.head with
    | none => some (none, q.takeHead)
    | some req => some (some q.head, q.takeHead.setIdx ioqueueCurrentAddr
        (add64 (q.request req).logAddr (q.request req).logLen))

/-- `$unlock` lets one more reader pass. -/
def unlock : IoQueue := { q with nextUnlock1 := q.nextUnlock1 + 1 }

def setRequest (i : Nat) (r : IoRequest) : IoQueue :=
  { q with request := Function.update q.request i r }

def create (addr : Nat) : Bool × IoQueue :=
  if ioqueueQueueLength ≤ sub64 addr q.offset then (false, q)
  else
    match q.freelistHead with
    | none => (false, q)
    | some req =>
      let q' := { q with
        freelistHead := (q.request req).freelistNext
        nextLock2 := q.nextLock2 + 1 }
      (true, (q'.setRequest req (.zero q.nextLock2)).setSlot addr (some req))

/-- How many of the next `n` slots from `c` on are empty before the first other one. -/
def emptySlots : Nat → Nat → Nat
  | 0, _ => 0
  | n + 1, c => if (q.queue c).isNone then emptySlots n (c + 1) + 1 else 0

/-- The loop of `$delete`: the empty slots in front are given to writers. -/
def advance : IoQueue :=
  let last := q.reqId q.tail % 65536
  let c := q.reqId q.lockedHead % 65536
  let k := q.emptySlots (last - c) c
  let q := q.setIdx ioqueueLockedHead (add64 q.offset ((c + k) * ioqueueRequestSize))
  { q with nextUnlock0 := q.nextUnlock0 + k }

def delete (addr : Nat) : Bool × IoQueue :=
  if ioqueueQueueLength ≤ sub64 addr q.offset then (false, q)
  else
    match q.denotes addr with
    | none => (true, q)
    | some req =>
      let r := { q.request req with freelistNext := q.freelistHead }
      let q' := { q with freelistHead := some req }
      (true, ((q'.setRequest req r).setSlot addr none).advance)

/-- `$move` of `len` bytes of slots, by `off`. A number below 0 is the one modulo `2 ^ 64`. -/
def move (addr len off : Nat) : Bool × IoQueue :=
  let src := sub64 addr q.offset
  let dest := add64 src off
  if 2 ^ 63 ≤ src ∨ ioqueueQueueLength < add64 src len ∨ 2 ^ 63 ≤ dest ∨
      ioqueueQueueLength < add64 dest len then (false, q)
  else
    let n := len / ioqueueRequestSize
    (true, { q with
      queue := memmove q.queue (dest / ioqueueRequestSize) (src / ioqueueRequestSize) n })

/-! ## Section 1 -/

/-- `$lock`: after it one writer does not wait, and the index has room for one slot more. -/
def lock : Option IoQueue :=
  if q.errorState ∨ q.extlock ∨ q.nextUnlock0 ≤ q.writers + 1 then none
  else (q.makeValid (add64 q.tail ioqueueRequestSize)).map fun q => { q with extlock := true }

/-- `$unlock`. -/
def unlockExt : IoQueue := { q with extlock := false }

/-- `$delete`. -/
def setError : IoQueue := { q with errorState := true }

/-! ## `insertrequest` of `io_sched_elevator` -/

/-- The loop of `insertrequest`, from `prio - 1` down to `prio_background`. -/
def raise : Nat → IoQueue → IoQueue
  | 0, q => q
  | i + 1, q =>
    if i + 1 < Prio.background.toNat then q
    else
      let k := ioqueueSchedBackground - (i + 1)
      raise i (q.setIdx k (add64 (q.queueIdx k) ioqueueRequestSize))

/-- The two calls of `$move`: the slots from `pos` to before `newreq` go up by one, and the one at
`newreq` goes to `pos`. -/
def rotate (newreq pos : Nat) : Bool × IoQueue :=
  let movelen := add64 (sub64 newreq pos) ioqueueRequestSize
  let x := q.move pos movelen ioqueueRequestSize
  if x.1 then
    x.2.move (add64 newreq ioqueueRequestSize) ioqueueRequestSize (sub64 0 movelen)
  else x

/-- `insertrequest`. When a call of `$move` fails the offsets stay as they are. -/
def insertrequest (newreq pos : Nat) (prio : Prio) : Bool × IoQueue :=
  let x := if pos < newreq then q.rotate newreq pos else (true, q)
  if x.1 then
    (true, (raise (prio.toNat - 1) x.2).setIdx (ioqueueSchedInsertBackground - prio.toNat) pos)
  else x

end IoQueue

end Athomux
