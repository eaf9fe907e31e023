import Athomux.Args
import Athomux.Lib.ByteMem
import Athomux.Lib.ByteStore
import Athomux.Lib.Run

/-!
# A readable stream over a device

`#adapt_strmr` reads from the device into `:<tmp` and keeps what is there between `avail_start` and
`avail_start + avail_len`. What the calls of the other bricks return is part of an event.
-/

open Lib

namespace Athomux.AdaptStrmr

/-- The data of the brick with the bytes in `:<tmp`. The bytes that the device has given and those
that were deleted are kept in order. -/
structure Stream where
  availStart : Nat
  availLen : Nat
  tmp : ByteMem
  received : List UInt8
  deleted : List UInt8

/-- The bytes that are there. -/
def Stream.available (s : Stream) : List UInt8 := s.tmp.load s.availStart s.availLen

def start : Stream := ⟨0, 0, fun _ => 0, [], []⟩

/-! ## `$gadr` -/

/-- A turn of the loop: what `$gettranswait`, `$transwait` and `$putwait` return, and the bytes that
the device gives. -/
structure Turn where
  plen : Option Nat
  ok : Bool
  bytes : List UInt8
  put : Bool

/-- The arguments of `$gadr`, and what the calls in front of the loop return. What lies in new and in
left parts of `:<tmp` is taken from `fill`. -/
structure Gadr where
  logAddr : Nat
  logLen : Nat
  tryLen : Nat
  reader : Bool
  action : Action
  move : Option Int
  create : Bool
  turns : List Turn
  fill : ByteMem

/-- What `$gadr` returns. -/
structure Range where
  success : Bool
  logAddr : Nat
  logLen : Nat

/-- `avail_start` behind a move. -/
def moved (availStart : Nat) (offs : Int) : Nat := ((availStart + offs) % addrSpace).toNat

/-- `$move` of `:<tmp`. -/
def Stream.move (s : Stream) (offs : Int) (fill : ByteMem) : Stream :=
  { s with
    availStart := moved s.availStart offs
    tmp := moveBytes s.tmp fill s.availStart s.availLen offs }

/-- There is not enough space at the end. -/
def Stream.Wraps (s : Stream) (logLen : Nat) : Prop := add64 s.availStart logLen < s.availStart

instance (s : Stream) (logLen : Nat) : Decidable (s.Wraps logLen) :=
  inferInstanceAs (Decidable (_ < _))

/-- Space at the end, with a move where it is needed. -/
def Stream.makeSpace (s : Stream) (x : Gadr) : Bool × Stream :=
  if s.Wraps x.logLen then
    match x.move with
    | none => (false, s)
    | some offs => (!decide ((s.move offs x.fill).Wraps x.logLen), s.move offs x.fill)
  else (true, s)

/-- `$create` of `:<tmp`. -/
def Stream.create (s : Stream) (logLen : Nat) (fill : ByteMem) : Stream :=
  { s with
    tmp := createBytes s.tmp fill (add64 s.availStart s.availLen) (sub64 logLen s.availLen) }

/-- The device gives bytes. -/
def Stream.receive (s : Stream) (bytes : List UInt8) : Stream :=
  { s with
    tmp := s.tmp.store (add64 s.availStart s.availLen) bytes
    received := s.received ++ bytes }

/-- What the device has given belongs to what is there. -/
def Stream.grow (s : Stream) (plen : Nat) : Stream := { s with availLen := add64 s.availLen plen }

/-- The loop, with all its turns. -/
def Stream.fetch (s : Stream) (logLen : Nat) : List Turn → Option (Bool × Stream)
  | [] => if s.availLen < logLen then none else some (true, s)
  | turn :: turns =>
    if s.availLen < logLen then
      match turn.plen with
      | none => some (false, s)
      | some plen =>
        let t := s.receive turn.bytes
        if !turn.ok then some (false, t)
        else if !turn.put then some (false, t)
        else fetch (t.grow plen) logLen turns
    else none

/-- What is there has to be enough, or more is read from the device. -/
def Stream.gadr (s : Stream) (x : Gadr) : Option (Range × Stream) :=
  let refused : Range := ⟨false, x.logAddr, x.logLen⟩
  if !x.reader then some (refused, s)
  else if x.logLen ≤ s.availLen then
    some (⟨true, s.availStart, if x.tryLen = 0 then s.availLen else min x.tryLen s.availLen⟩, s)
  else if x.action = .wait then
    let space := s.makeSpace x
    if !space.1 then some (refused, space.2)
    else if !x.create then some (refused, space.2)
    else
      ((space.2.create x.logLen x.fill).fetch x.logLen x.turns).map fun r =>
        (⟨r.1, x.logAddr, x.logLen⟩, r.2)
  else some (refused, s)

/-! ## `$delete` -/

/-- The arguments of `$delete`, and what `:<tmp` returns. -/
structure Delete where
  logAddr : Nat
  logLen : Nat
  ok : Bool
  fill : ByteMem

/-- `$delete` of `:<tmp`. The bytes that are there are deleted up to the end of the range. -/
def Stream.drop (s : Stream) (x : Delete) : Stream :=
  { s with
    tmp := createBytes s.tmp x.fill x.logAddr x.logLen
    deleted := s.deleted ++ s.available.take (x.logAddr + x.logLen - s.availStart) }

def Stream.delete (s : Stream) (x : Delete) : Bool × Stream :=
  if s.availStart < x.logAddr then (false, s)
  else if !x.ok then (false, s)
  else
    let stop := add64 x.logAddr x.logLen
    let t := s.drop x
    if add64 s.availStart s.availLen ≤ stop then (true, { t with availStart := 0, availLen := 0 })
    else if s.availStart < stop then
      (true, { t with
        availStart := stop
        availLen := sub64 s.availLen (sub64 stop s.availStart) })
    else (true, t)

/-! ## Runs -/

inductive Event
  | gadr (x : Gadr)
  | delete (x : Delete)

def step (s : Stream) : Event → Option Stream
  | .gadr x => (s.gadr x).map (·.2)
  | .delete x => some (s.delete x).2

/-- What was deleted and what is there are the bytes of the device, in their order. -/
def Stream.InOrder (s : Stream) : Prop := s.deleted ++ s.available = s.received

/-- The range begins with what is there and does not end behind it, and its bytes are the next ones of
the device. -/
structure Range.Exposes (r : Range) (s : Stream) : Prop where
  start : r.logAddr = s.availStart
  inside : r.logLen ≤ s.availLen
  bytes : s.tmp.load r.logAddr r.logLen = (s.received.drop s.deleted.length).take r.logLen

/-! ## What the brick relies on -/

/-- All calls of the turn succeed. -/
def Turn.Succeeds (turn : Turn) : Prop := turn.plen.isSome ∧ turn.ok = true ∧ turn.put = true

/-- The device gives as many bytes as it is asked for when the turn succeeds, and else none. -/
def Turn.Fair (turn : Turn) : Prop :=
  ∀ plen, turn.plen = some plen →
    turn.bytes.length = if turn.ok ∧ turn.put then plen else 0

/-- `avail_start` behind the move, if there is one. -/
def Gadr.begin (x : Gadr) (s : Stream) : Nat :=
  if s.Wraps x.logLen then (x.move.map (moved s.availStart)).getD s.availStart else s.availStart

/-- The bytes that the device gives for a call. -/
def Gadr.total (x : Gadr) : Nat := (x.turns.map fun turn => turn.bytes.length).sum

/-- The loop is reached. -/
def Gadr.Fetches (x : Gadr) (s : Stream) : Prop :=
  (s.Wraps x.logLen → x.move.isSome ∧ x.begin s ≤ add64 (x.begin s) x.logLen) ∧ x.create = true

/-- A call that waits for the device: what is there is moved inside the address space, and what comes
from the device is there too. The turns are fair. When all succeed, `@log_addr` was right before. -/
structure Gadr.Fair (x : Gadr) (s : Stream) : Prop where
  moves : s.Wraps x.logLen → ∀ offs, x.move = some offs →
    0 ≤ s.availStart + offs ∧ s.availStart + offs + s.availLen < (addrSpace : Int)
  turns : x.Fetches s → ∀ turn ∈ x.turns, turn.Fair
  room : x.Fetches s → x.begin s + s.availLen + x.total < addrSpace
  address : x.Fetches s → (∀ turn ∈ x.turns, turn.Succeeds) → x.logAddr = x.begin s

/-- A range that is deleted does not come round to zero, if there is something to delete. -/
def Delete.Fair (x : Delete) (s : Stream) : Prop :=
  0 < s.availLen → x.logAddr ≤ s.availStart → x.ok = true → x.logAddr + x.logLen < addrSpace

/-- The call cannot be satisfied with what is there, and may wait. -/
def Gadr.Waits (x : Gadr) (s : Stream) : Prop :=
  x.reader = true ∧ s.availLen < x.logLen ∧ x.action = .wait

def Fair (s : Stream) : Event → Prop
  | .gadr x => x.Waits s → x.Fair s
  | .delete x => x.Fair s

end Athomux.AdaptStrmr
