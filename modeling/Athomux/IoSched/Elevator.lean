import Athomux.IoQueue.Spec

/-!
# `$trans` of `io_sched_elevator`

Every loop has a number of turns. A loop that needs more has no result, like the `exit` of
`@.fatal`.
-/

namespace Athomux

open Lib IoQueue

/-- The arguments of `$trans`. -/
structure SchedArgs where
  logAddr : Nat
  logLen : Nat
  physAddr : Nat
  direction : Direction
  prio : Prio
  deriving DecidableEq, Repr

/-- `(offs_t)a < (offs_t)b`. -/
def offsLt (a b : Nat) : Prop := add64 a (2 ^ 63) < add64 b (2 ^ 63)

instance (a b : Nat) : Decidable (offsLt a b) :=
  inferInstanceAs (Decidable (add64 a (2 ^ 63) < add64 b (2 ^ 63)))

namespace SchedArgs

variable (x : SchedArgs)

/-- The request is for the same data. -/
def Same (r : IoRequest) : Prop :=
  r.logLen = x.logLen ∧ r.physAddr = x.physAddr ∧ r.direction = x.direction

instance (r : IoRequest) : Decidable (x.Same r) :=
  inferInstanceAs (Decidable (_ ∧ _ ∧ _))

/-! ## `binary_search` -/

inductive Scan
  | found (addr : Nat)
  | stopped
  | failed
  deriving DecidableEq, Repr

/-- The search backwards, without the first slot. It fails at an empty slot. -/
def scanBackward (get : Nat → Option IoRequest) (first : Nat) : Nat → Nat → Option Scan
  | 0, _ => none
  | n + 1, check2 =>
    let check2 := sub64 check2 ioqueueRequestSize
    if offsLt check2 first then some .stopped
    else
      match get check2 with
      | none => some .failed
      | some req =>
        if req.logAddr ≠ x.logAddr then some .stopped
        else if x.Same req then some (.found check2)
        else scanBackward get first n check2

/-- The search forwards, to `success` and `next`. -/
def scanForward (get : Nat → Option IoRequest) (last : Nat) : Nat → Nat → Option (Bool × Nat)
  | 0, _ => none
  | n + 1, next =>
    let next := add64 next ioqueueRequestSize
    if last < next then some (false, next)
    else
      match get next with
      | none => some (false, next)
      | some req =>
        if req.logAddr ≠ x.logAddr then some (false, next)
        else if x.Same req then some (true, next)
        else scanForward get last n next

/-- The slot in the middle. -/
def middle (first last : Nat) : Nat :=
  add64 first (sub64 last first / (2 * ioqueueRequestSize) * ioqueueRequestSize)

/-- The loop of `binary_search`, to `success` and `next`. -/
def searchLoop (get : Nat → Option IoRequest) :
    Nat → Nat → Nat → Nat → Nat → Option (Bool × Nat)
  | 0, _, _, _, _ => none
  | n + 1, first, last, check, next =>
    if offsLt last first then some (false, next)
    else
      match get check with
      | none => none
      | some req =>
        if req.logAddr < x.logAddr then
          let first := add64 check ioqueueRequestSize
          searchLoop get n first last (middle first last) next
        else if x.logAddr < req.logAddr then
          let last := sub64 check ioqueueRequestSize
          searchLoop get n first last (middle first last) check
        else if x.Same req then some (true, check)
        else
          match x.scanBackward get first n check with
          | none => none
          | some (.found addr) => some (true, addr)
          | some .failed => some (false, check)
          | some .stopped => x.scanForward get last n check

/-- `binary_search` from `first` to `last`, with a hint. `next` is what is there before. -/
def binarySearch (get : Nat → Option IoRequest) (n first last check next : Nat) :
    Option (Bool × Nat) :=
  x.searchLoop get n first last
    (if check < first ∨ last < check then middle first last else check) next

end SchedArgs

namespace IoQueue

variable (q : IoQueue)

/-- `$gettranswait` of a slot. -/
def get (addr : Nat) : Option IoRequest :=
  if ioqueueQueueLength ≤ sub64 addr q.offset then none
  else (q.denotes addr).map q.request

/-! ## `$trans` -/

/-- `search`. -/
def search (x : SchedArgs) (n prio : Nat) : Option (Bool × Nat) :=
  x.binarySearch q.get n (q.queueIdx (ioqueueSchedBackground - prio))
    (sub64 (q.queueIdx (ioqueueSchedBackground - prio + 1)) ioqueueRequestSize)
    (q.queueIdx (ioqueueSchedInsertBackground - prio))
    (q.queueIdx (ioqueueSchedBackground - prio + 1))

/-- The loop over the priorities, down to `prio_background`. It ends with the priority and the
address of an identical request, or with `next`, which has a cell more here than its array. -/
def searchAll (x : SchedArgs) (n : Nat) : Nat → (Nat → Nat) → Option ((Nat × Nat) ⊕ (Nat → Nat))
  | 0, next => some (.inr next)
  | prio + 1, next =>
    (q.search x n (prio + 1)).bind fun r =>
      if r.1 then some (.inl (prio + 1, r.2))
      else searchAll x n prio (Function.update next (prio + 1) r.2)

/-- The offsets of the scheduler are not before the head. -/
def validIdx : IoQueue :=
  let q := if q.queueIdx ioqueueSchedNormal < q.queueIdx ioqueueSchedUrgent then
    q.setIdx ioqueueSchedNormal (q.queueIdx ioqueueSchedUrgent) else q
  if q.queueIdx ioqueueSchedBackground < q.queueIdx ioqueueSchedNormal then
    q.setIdx ioqueueSchedBackground (q.queueIdx ioqueueSchedNormal) else q

/-- An identical request gets the higher priority. -/
def raisePrio (addr : Nat) (prio : Prio) : IoQueue :=
  match q.denotes addr with
  | none => q
  | some i => q.setRequest i { q.request i with prio := prio }

/-- The arguments are copied to the request block. -/
def fill (i : Nat) (x : SchedArgs) : IoQueue :=
  q.setRequest i { q.request i with
    logAddr := x.logAddr
    logLen := x.logLen
    physAddr := x.physAddr
    direction := x.direction
    prio := x.prio }

/-- The requests of the slots that lie inside are cancelled. -/
def cancel (x : SchedArgs) : IoQueue :=
  let first := q.reqId q.head % 65536
  (List.range' first (q.reqId q.tail - first)).foldl (fun q k =>
    match q.queue k with
    | none => q
    | some i =>
      if x.logAddr ≤ (q.request i).logAddr ∧ add64 (q.request i).logAddr (q.request i).logLen ≤
          add64 x.logAddr x.logLen then
        q.setRequest i { q.request i with direction := .stop }
      else q) q

/-- A new request is put at the end of the queue, and then at its place. The lock stays when a call
fails. -/
def enqueue (x : SchedArgs) (next : Nat → Nat) : Option (Bool × IoQueue) :=
  q.gadrWriter.map fun g =>
    let c := g.2.create g.1
    match c.1, c.2.denotes g.1 with
    | true, some i =>
      let r := ((c.2.fill i x).unlock).insertrequest g.1 (next x.prio.toNat) x.prio
      (true, if r.1 then r.2.unlockExt else r.2)
    | _, _ => (false, c.2)

/-- `$trans`, with the number of turns of a loop and with what is in `next` at the beginning. -/
def trans (x : SchedArgs) (n : Nat) (next : Nat → Nat) : Option (Bool × IoQueue) :=
  if x.direction = .stop then some (true, q.cancel x)
  else
    q.lock.bind fun q =>
      let q := q.validIdx
      (q.searchAll x n Prio.urgent.toNat next).bind fun r =>
        match r with
        | .inl found =>
          let q := if found.1 < x.prio.toNat then q.raisePrio found.2 x.prio else q
          some (true, q.unlockExt)
        | .inr next => q.enqueue x next

end IoQueue

end Athomux
