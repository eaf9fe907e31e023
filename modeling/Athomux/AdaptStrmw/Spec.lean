import Athomux.AdaptComplete.Loop
import Athomux.Lib.ByteMem
import Athomux.Lib.Ledger
import Athomux.Lib.Run

/-!
# A writable stream over a physical one

`#adapt_strmw` gets the regions of its callers from `:<mem`, and sends what is in them to `:<pstrmw`
through an instance of `#adapt_complete2`. What the calls of the other bricks return is part of an
event.
-/

open Lib

namespace Athomux.AdaptStrmw

open AdaptComplete (Request Reply Result Call)

/-- A successful `$padr`. -/
structure Sent where
  contents : List UInt8
  appended : List UInt8

/-- Regions have addresses from `$gadr` and storage from `$create`. A buffer is known by the region
that it was got for. `held` are the regions of the callers. -/
structure Sys where
  mem : ByteMem
  addrs : List (Booking Region)
  store : List (Booking Region)
  bufs : List (Booking Region)
  stream : List UInt8
  held : List Region
  sent : List Sent

def start : Sys := ⟨fun _ => 0, [], [], [], [], [], []⟩

/-! ## `$gadr` -/

/-- What `$gadr`, `$create` and `$delete` of `:<mem` return. -/
structure Gadr where
  reader : Bool
  gadr : Bool
  region : Region
  create : Bool
  delete : Bool

def Sys.gadr (s : Sys) (x : Gadr) : Sys :=
  if x.reader ≠ false then s
  else if x.gadr ≠ true then s
  else
    let s := { s with addrs := s.addrs ++ [Booking.take x.region] }
    if x.create ≠ true then
      -- `@success` is still that of `:<mem$gadr`
      let s := { s with held := x.region :: s.held }
      if x.delete then { s with store := s.store ++ [Booking.give x.region] } else s
    else { s with store := s.store ++ [Booking.take x.region], held := x.region :: s.held }

/-! ## `$padr` -/

/-- What the calls in a turn of the loop return. `phys` is the memory at that time, `physLen` what is
in `@phys_len` of the arguments for `:<pw`, and `last` the call of `:<pstrmw` with which its loop
ends. -/
structure Turn where
  get : Bool
  bufStart : Nat
  bufLen : Nat
  phys : ByteMem
  physLen : Nat
  replies : Nat → Reply
  last : Nat
  put : Bool

def Turn.request (turn : Turn) : Request := ⟨0, turn.bufLen, turn.bufStart, turn.physLen⟩

/-- `:<pw$transwait`, if its loop ends there. -/
def Turn.transwait (turn : Turn) : Option Result :=
  (turn.request.before turn.replies turn.last).bind fun s =>
    match turn.request.turn s (turn.replies turn.last) with
    | none => some (turn.request.leave s (turn.replies turn.last))
    | some _ => none

/-- The bytes that the calls of `:<pstrmw` append. -/
def Turn.bytes (turn : Turn) (calls : List Call) : List UInt8 :=
  calls.flatMap fun c => turn.phys.load c.physAddr c.moved

/-- A buffer that `:<mem` gives is in the memory, not longer than asked for, and has what is in the
region there. -/
def Turn.Delivers (turn : Turn) (mem : ByteMem) (logAddr logLen : Nat) : Prop :=
  turn.get = true → turn.bufLen ≤ logLen ∧ turn.bufStart + turn.bufLen ≤ addrSpace ∧
    turn.phys.load turn.bufStart turn.bufLen = mem.load logAddr turn.bufLen

instance (turn : Turn) (mem : ByteMem) (logAddr logLen : Nat) :
    Decidable (turn.Delivers mem logAddr logLen) := inferInstanceAs (Decidable (_ → _))

/-- The loop of `$padr` with all its turns: whether it gets to its end, and the state. -/
def Sys.send (s : Sys) (r : Region) (sumPacketLen : Nat) : List Turn → Option (Bool × Sys)
  | [] => if sumPacketLen < r.len then none else some (true, s)
  | turn :: turns =>
    if sumPacketLen < r.len then
      let logAddr := add64 r.start sumPacketLen
      if turn.Delivers s.mem logAddr (sub64 r.len sumPacketLen) then
        turn.transwait.bind fun result =>
          let buf : Region := ⟨logAddr, turn.bufLen⟩
          -- whether `$gettranswait` has succeeded is not looked at
          let s := if turn.get then { s with bufs := s.bufs ++ [Booking.take buf] } else s
          let s := { s with stream := s.stream ++ turn.bytes result.calls }
          if result.success ≠ true then some (false, s)
          else
            let s := { s with bufs := s.bufs ++ [Booking.give buf] }
            if turn.put ≠ true then some (false, s)
            else s.send r (add64 sumPacketLen turn.bufLen) turns
      else none
    else none

/-- `$padr` of a region that the caller has. `deletepadr` is what that of `:<mem` returns. -/
def Sys.padr (s : Sys) (r : Region) (reader : Bool) (turns : List Turn) (deletepadr : Bool) :
    Option Sys :=
  if reader ≠ false then some s
  else (s.send r 0 turns).map fun x =>
    if x.1 ≠ true then x.2
    else if deletepadr ≠ true then x.2
    else { x.2 with
      addrs := x.2.addrs ++ [Booking.give r]
      store := x.2.store ++ [Booking.give r]
      held := x.2.held.erase r
      sent := ⟨s.mem.load r.start r.len, x.2.stream.drop s.stream.length⟩ :: x.2.sent }

/-! ## Runs -/

inductive Event
  | gadr (x : Gadr)
  | padr (r : Region) (reader : Bool) (turns : List Turn) (deletepadr : Bool)
  /-- The callers write to their regions. -/
  | write (mem : ByteMem)

/-- A region is inside of the address space, and a caller gives back what it has. -/
def step (s : Sys) : Event → Option Sys
  | .gadr x => if x.region.stop ≤ addrSpace ∧ x.region.len < addrSpace then some (s.gadr x) else none
  | .padr r reader turns deletepadr =>
    if r ∈ s.held then s.padr r reader turns deletepadr else none
  | .write mem => some { s with mem := mem }

/-- The regions of `:<mem` are those of the callers, no buffer is left, and what was sent is what was
in the regions. -/
structure Balanced (s : Sys) : Prop where
  addrs : Ledger.Settles s.addrs s.held
  store : Ledger.Settles s.store s.held
  bufs : Ledger.Settles s.bufs []
  sent : ∀ x ∈ s.sent, x.appended = x.contents

/-- The buffer is there, and all of it is sent. A failure of `:<pstrmw` that `#adapt_complete2` does not
notice does no harm when it leaves no length. -/
def Turn.Fine (turn : Turn) : Prop :=
  turn.get = true ∧ ∃ n, (∀ k < n, turn.request.Fine turn.replies k) ∧
    AdaptComplete.movedBy turn.replies n = turn.bufLen

/-- `$create` succeeds, and all turns of the loop are fine. -/
def Allowed (_ : Sys) : Event → Prop
  | .gadr x => x.reader = true ∨ x.gadr = false ∨ x.create = true
  | .padr _ reader turns _ => reader = true ∨ ∀ turn ∈ turns, turn.Fine
  | .write _ => True

end Athomux.AdaptStrmw
