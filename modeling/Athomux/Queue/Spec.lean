import Mathlib.Logic.Function.Basic
import Athomux.Lib.Run
import Athomux.Lib.Ring
import Athomux.Args

/-!
# The packet queue

`#queue` passes whole packets from `:>strmw` to `:>strmr` through the 20 slots of
`status->buffer`. `avail_start` and `avail_len` are `int`, and `%` rounds to zero.
-/

namespace Athomux.Queue

def queueBufsize : Nat := 20

/-- `struct queue_entry_t`. The code does not see `serial`: it tells apart two
packets that `:<mem` puts at the same address one after the other. -/
structure Packet where
  logAddr : Nat
  logLen : Nat
  serial : Nat
  deriving DecidableEq

/-- `struct status_t`. -/
structure Status where
  availStart : Int
  availLen : Int
  buffer : Int → Packet

/-- The fields of `struct args` that `$gadr` of `:>strmr` reads. -/
structure GadrArgs where
  logLen : Nat
  tryLen : Nat
  action : Action
  reader : Bool
  deriving DecidableEq

inductive GadrAnswer
  | granted (p : Packet)
  | refused
  | wait
  deriving DecidableEq

/-! ## The operations -/

def writerStart (st : Status) : Int := (st.availStart + st.availLen).tmod queueBufsize

/-- The block matches the request. -/
def readerBlock (st : Status) (a : GadrArgs) : GadrAnswer :=
  let block := st.buffer st.availStart
  if a.logLen ≤ block.logLen ∧ (block.logLen ≤ a.tryLen ∨ a.tryLen = 0) then .granted block
  else .refused

/-- `$gadr` of `:>strmr` up to its first wait. -/
def readerGadr (st : Status) (a : GadrArgs) : GadrAnswer :=
  if a.reader ≠ true then .refused
  else if st.availLen = 0 then
    if a.action ≠ .wait then .refused else .wait
  else readerBlock st a

/-- `$gadr` of `:>strmr` after a wait. -/
def readerWoken (st : Status) (a : GadrArgs) : GadrAnswer :=
  if st.availLen = 0 then .wait else readerBlock st a

def sameBlock (p block : Packet) : Bool := p.logAddr == block.logAddr && p.logLen == block.logLen

def deleteCheck (st : Status) (p : Packet) : Bool := sameBlock p (st.buffer st.availStart)

def delete (st : Status) : Status :=
  { st with availStart := (st.availStart + 1).tmod queueBufsize, availLen := st.availLen - 1 }

inductive WriterAnswer
  /-- `:<mem$gadrcreate` is to fill the slot at the write position. -/
  | fill
  | refused
  | wait
  deriving DecidableEq

/-- `$gadr` of `:>strmw` up to its first wait. -/
def writerGadr (st : Status) (action : Action) (reader : Bool) : WriterAnswer :=
  if reader ≠ false then .refused
  else if st.availLen = queueBufsize then
    if action ≠ .wait then .refused else .wait
  else .fill

/-- `$gadr` of `:>strmw` after a wait. -/
def writerWoken (st : Status) : WriterAnswer := if st.availLen = queueBufsize then .wait else .fill

def fill (st : Status) (p : Packet) : Status :=
  { st with buffer := Function.update st.buffer (writerStart st) p }

def createCheck (st : Status) (p : Packet) : Bool := sameBlock p (st.buffer (writerStart st))

def create (st : Status) : Status := { st with availLen := st.availLen + 1 }

/-! ## The system

Any number of clients at each side. An operation takes `LOCK_ADDR_MOD` once
(`lockOk` is the answer of `:<ilock`), and `$delete` and `$create` check their
arguments before that. A client that waits may come back at any time.
-/

inductive Pc
  | idle
  | readerWaiting (a : GadrArgs)
  | writerWaiting
  /-- `$delete` is past its checks. -/
  | deleteChecked (p : Packet)
  /-- `$create` is past its checks. -/
  | createChecked (p : Packet)
  deriving DecidableEq

structure Sys where
  status : Status
  pc : Nat → Pc
  /-- The number of packets that `:<mem` made. -/
  made : Nat
  created : List Packet
  consumed : List Packet

inductive Event
  | readerGadr (a : GadrArgs) (lockOk : Bool)
  | readerWoken (lockOk : Bool)
  | readerDelete (p : Packet)
  | readerDeleteLocked (lockOk memOk : Bool)
  | writerGadr (action : Action) (reader lockOk : Bool) (mem : Option (Nat × Nat))
  | writerWoken (lockOk : Bool) (mem : Option (Nat × Nat))
  | writerCreate (p : Packet)
  | writerCreateLocked (lockOk : Bool)

def Sys.goto (s : Sys) (c : Nat) (pc : Pc) : Sys := { s with pc := Function.update s.pc c pc }

def Sys.readerAnswer (s : Sys) (c : Nat) (a : GadrArgs) : GadrAnswer → Sys
  | .granted _ => s.goto c .idle
  | .refused => s.goto c .idle
  | .wait => s.goto c (.readerWaiting a)

def Sys.writerAnswer (s : Sys) (c : Nat) (mem : Option (Nat × Nat)) : WriterAnswer → Sys
  | .fill =>
    match mem with
    | some (logAddr, logLen) =>
      { s.goto c .idle with
        status := fill s.status ⟨logAddr, logLen, s.made⟩, made := s.made + 1 }
    | none => s.goto c .idle
  | .refused => s.goto c .idle
  | .wait => s.goto c .writerWaiting

/-- `$delete` in the lock: only a packet that `:<mem` freed leaves its slot. -/
def Sys.consume (s : Sys) (c : Nat) (p : Packet) : Sys :=
  { s.goto c .idle with status := delete s.status, consumed := s.consumed ++ [p] }

def Sys.create (s : Sys) (c : Nat) (p : Packet) : Sys :=
  { s.goto c .idle with status := Queue.create s.status, created := s.created ++ [p] }

/-- What client `c` does. -/
def step (s : Sys) : Nat × Event → Option Sys
  | (c, .readerGadr a lockOk) =>
    match s.pc c with
    | .idle => some (s.readerAnswer c a (if lockOk then Queue.readerGadr s.status a else .refused))
    | _ => none
  | (c, .readerWoken lockOk) =>
    match s.pc c with
    | .readerWaiting a =>
      some (s.readerAnswer c a (if lockOk then Queue.readerWoken s.status a else .refused))
    | _ => none
  | (c, .readerDelete p) =>
    match s.pc c with
    | .idle => some (if deleteCheck s.status p then s.goto c (.deleteChecked p) else s)
    | _ => none
  | (c, .readerDeleteLocked lockOk memOk) =>
    match s.pc c with
    | .deleteChecked p => some (if lockOk ∧ memOk then s.consume c p else s.goto c .idle)
    | _ => none
  | (c, .writerGadr action reader lockOk mem) =>
    match s.pc c with
    | .idle =>
      some (s.writerAnswer c mem
        (if lockOk then Queue.writerGadr s.status action reader else .refused))
    | _ => none
  | (c, .writerWoken lockOk mem) =>
    match s.pc c with
    | .writerWaiting =>
      some (s.writerAnswer c mem (if lockOk then Queue.writerWoken s.status else .refused))
    | _ => none
  | (c, .writerCreate p) =>
    match s.pc c with
    | .idle => some (if createCheck s.status p then s.goto c (.createChecked p) else s)
    | _ => none
  | (c, .writerCreateLocked lockOk) =>
    match s.pc c with
    | .createChecked p => some (if lockOk then s.create c p else s.goto c .idle)
    | _ => none

/-- `$output_init` on a fresh state. What the slots hold is left open. -/
def Init (s : Sys) : Prop :=
  s.status.availStart = 0 ∧ s.status.availLen = 0 ∧ (∀ c, s.pc c = .idle) ∧
  s.created = [] ∧ s.consumed = []

/-- The packets from the head on. -/
def queued (st : Status) : List Packet :=
  Lib.ring (fun i => st.buffer i) queueBufsize st.availStart.toNat st.availLen.toNat

/-- There is a packet to take away, and it is the caller's. -/
def Deletable (s : Sys) : Pc → Prop
  | .deleteChecked p => 0 < s.status.availLen ∧ s.status.buffer s.status.availStart = p
  | _ => True

/-- There is room, and the slot has the caller's packet, which was never in the queue. -/
def Creatable (s : Sys) : Pc → Prop
  | .createChecked p =>
    s.status.availLen < queueBufsize ∧ s.status.buffer (writerStart s.status) = p ∧ p ∉ s.created
  | _ => True

/-- What `$delete` and `$create` do not check again in the lock. -/
def LockedCheck (s : Sys) : Nat × Event → Prop
  | (c, .readerDeleteLocked true true) => Deletable s (s.pc c)
  | (c, .writerCreateLocked true) => Creatable s (s.pc c)
  | _ => True

instance (s : Sys) (pc : Pc) : Decidable (Deletable s pc) := by
  cases pc <;> unfold Deletable <;> infer_instance

instance (s : Sys) (pc : Pc) : Decidable (Creatable s pc) := by
  cases pc <;> unfold Creatable <;> infer_instance

instance (s : Sys) (e : Nat × Event) : Decidable (LockedCheck s e) := by
  unfold LockedCheck
  split <;> infer_instance

end Athomux.Queue
