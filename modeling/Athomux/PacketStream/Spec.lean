import Athomux.Lib.Run
import Athomux.Lib.ByteMem
import Athomux.Lib.Arrays
import Athomux.Args

/-!
# Packets in a byte stream

`#adapt_strmw_packet` writes a header with the length before the bytes of each packet, and
`#adapt_strmr_packet` reads them back. Both reach the device through `#adapt_complete2`, which goes
on until all bytes of a request have been accepted or delivered.
-/

open Lib

namespace Athomux.PacketStream

abbrev Packet := List UInt8

/-! ## The header -/

/-- `PSTRMP_IDENTIFICATION`, the characters "PSP ". -/
def identification : Nat := 0x20505350

/-- The bytes of a `struct strm_packet_header_t`. What is in the padding is not defined. -/
def header (padding : List UInt8) (length : Nat) : List UInt8 :=
  toBytes 4 identification ++ padding ++ toBytes 8 length

/-- `sizeof(struct strm_packet_header_t)`. -/
def headerSize : Nat := 16

def headerId (bytes : List UInt8) : Nat := ofBytes (bytes.take 4)

def headerLength (bytes : List UInt8) : Nat := ofBytes (bytes.drop 8)

/-! ## The writer -/

/-- Where `$padr` is. A request of `#adapt_complete2` is what it has still to send. -/
inductive Writer
  | idle
  /-- The header is sent. -/
  | header (rest : List UInt8) (packet : Packet)
  /-- `:<mem$gettranswait` for what is behind `sum_packet_len`. -/
  | fetch (sum : Nat) (packet : Packet)
  /-- A buffer of `buf_len` bytes is sent. -/
  | data (rest : List UInt8) (sum bufLen : Nat) (packet : Packet)
  deriving DecidableEq

/-- The head of the loop over the packet. -/
def Writer.loop (sum : Nat) (packet : Packet) : Writer :=
  if sum < packet.length then .fetch sum packet else .idle

/-- The request to the device is complete. -/
def Writer.next : Writer → Writer
  | .header _ packet => .loop 0 packet
  | .data _ sum bufLen packet => .loop (sum + bufLen) packet
  | w => w

/-- The device has accepted the first `k` bytes of the request. -/
def Writer.accept (k : Nat) : Writer → Option (List UInt8 × Writer)
  | .header rest packet =>
    if 0 < k ∧ k ≤ rest.length then
      let w := Writer.header (rest.drop k) packet
      some (rest.take k, if k < rest.length then w else w.next)
    else none
  | .data rest sum bufLen packet =>
    if 0 < k ∧ k ≤ rest.length then
      let w := Writer.data (rest.drop k) sum bufLen packet
      some (rest.take k, if k < rest.length then w else w.next)
    else none
  | _ => none

/-- `:<mem` has a buffer of `bufLen` bytes. -/
def Writer.buffer (bufLen : Nat) : Writer → Option Writer
  | .fetch sum packet =>
    if 0 < bufLen ∧ sum + bufLen ≤ packet.length then
      some (.data ((packet.drop sum).take bufLen) sum bufLen packet)
    else none
  | _ => none

/-! ## The reader -/

/-- The fields of `struct args` that `$gadr` reads. -/
structure GadrArgs where
  logLen : Nat
  tryLen : Nat
  wait : Bool
  deriving DecidableEq

/-- Where `$gadr` is. `got` is what the device has delivered for a request. -/
inductive Reader
  | idle
  /-- The header is read. -/
  | header (got : List UInt8) (a : GadrArgs)
  /-- `:<mem$gettranswait` for what is behind `avail_len`. -/
  | fetch (length : Nat) (a : GadrArgs)
  /-- A buffer of `buf_len` bytes is read. -/
  | data (got : List UInt8) (length bufLen : Nat) (a : GadrArgs)
  /-- The identification is wrong. -/
  | error
  deriving DecidableEq

/-- A packet with the padding of its header. -/
structure Frame where
  padding : List UInt8
  packet : Packet
  deriving DecidableEq

/-- `answers` are the contents of the ranges that `$gadr` has answered with, each packet when it
is answered for the first time, and `fresh` says that the packet in `avail` was not yet. An empty
range is not a packet. `written` are the packets of the calls of `$padr`, and `fetched` counts the
ones that were read. -/
structure Sys where
  writer : Writer
  stream : List UInt8
  reader : Reader
  availStart : Nat
  availLen : Nat
  mem : Nat → UInt8
  fresh : Bool
  answers : List Packet
  written : List Frame
  fetched : Nat

/-- The bytes of `:<mem` from `start` on. -/
def region (mem : Nat → UInt8) (start len : Nat) : List UInt8 :=
  (List.range len).map fun i => mem (start + i)

def Sys.avail (s : Sys) : Packet := region s.mem s.availStart s.availLen

def Sys.satisfies (s : Sys) (a : GadrArgs) : Prop :=
  a.logLen ≤ s.availLen ∧ (s.availLen ≤ a.tryLen ∨ a.tryLen = 0)

instance (s : Sys) (a : GadrArgs) : Decidable (s.satisfies a) := by
  unfold Sys.satisfies
  infer_instance

/-- `$gadr` returns, with success or not. -/
def Sys.answer (s : Sys) (a : GadrArgs) : Sys :=
  if s.satisfies a then
    { s with
      reader := .idle
      fresh := false
      answers := if s.fresh then s.answers ++ [s.avail] else s.answers }
  else { s with reader := .idle }

/-- `$gadr` up to its first request to the device. -/
def Sys.gadr (s : Sys) (a : GadrArgs) : Sys :=
  if ¬ s.satisfies a ∧ s.availLen = 0 ∧ a.wait then { s with reader := .header [] a }
  else s.answer a

/-- The head of the loop over the packet. -/
def Sys.loop (s : Sys) (length : Nat) (a : GadrArgs) : Sys :=
  if s.availLen < length then { s with reader := .fetch length a }
  else { s with fresh := 0 < s.availLen, fetched := s.fetched + 1 }.answer a

/-- The header is complete, and `:<mem$gadrcreate` returns `start`. -/
def Sys.gotHeader (s : Sys) (got : List UInt8) (a : GadrArgs) (start : Nat) : Sys :=
  if headerId got ≠ identification then { s with reader := .error }
  else { s with availStart := start, availLen := 0 }.loop (headerLength got) a

/-- A buffer is complete, and `:<mem$putwait` takes it back. -/
def Sys.gotBuffer (s : Sys) (got : List UInt8) (length bufLen : Nat) (a : GadrArgs) : Sys :=
  { s with
    mem := memcpy s.mem (s.availStart + s.availLen) (fun i => got.getD i 0) bufLen
    availLen := s.availLen + bufLen }.loop length a

/-- The device delivers `k` bytes. `start` is the answer of `:<mem$gadrcreate`, if it is called
now. -/
def Sys.deliver (s : Sys) (k start : Nat) : Option Sys :=
  let got' := fun got : List UInt8 => got ++ s.stream.take k
  let rest := { s with stream := s.stream.drop k }
  match s.reader with
  | .header got a =>
    if 0 < k ∧ k ≤ s.stream.length ∧ got.length + k ≤ headerSize then
      some (if got.length + k < headerSize then { rest with reader := .header (got' got) a }
        else rest.gotHeader (got' got) a start)
    else none
  | .data got length bufLen a =>
    if 0 < k ∧ k ≤ s.stream.length ∧ got.length + k ≤ bufLen then
      some (if got.length + k < bufLen then { rest with reader := .data (got' got) length bufLen a }
        else rest.gotBuffer (got' got) length bufLen a)
    else none
  | _ => none

/-- `$delete`. -/
def Sys.delete (s : Sys) (logAddr logLen : Nat) : Sys :=
  if logAddr ≠ s.availStart then s
  else
    let logLen := min logLen s.availLen
    { s with availStart := s.availStart + logLen, availLen := s.availLen - logLen }

/-! ## The system

There is one writer and one reader. Whenever they are in a request to the device, it accepts or
delivers some bytes of it.
-/

inductive Event
  /-- `$padr` of the writer. -/
  | padr (f : Frame)
  | accept (k : Nat)
  | buffer (bufLen : Nat)
  /-- `$gadr` of the reader. -/
  | gadr (a : GadrArgs)
  | deliver (k start : Nat)
  | readBuffer (bufLen : Nat)
  | delete (logAddr logLen : Nat)
  deriving DecidableEq

def step (s : Sys) : Event → Option Sys
  | .padr f =>
    if s.writer = .idle ∧ f.padding.length = 4 ∧ f.packet ≠ [] ∧ f.packet.length < addrSpace then
      some { s with
        writer := .header (header f.padding f.packet.length) f.packet
        written := s.written ++ [f] }
    else none
  | .accept k =>
    (s.writer.accept k).map fun (bytes, writer) =>
      { s with stream := s.stream ++ bytes, writer := writer }
  | .buffer bufLen => (s.writer.buffer bufLen).map fun writer => { s with writer := writer }
  | .gadr a => if s.reader = .idle then some (s.gadr a) else none
  | .deliver k start => s.deliver k start
  | .readBuffer bufLen =>
    match s.reader with
    | .fetch length a =>
      if 0 < bufLen ∧ s.availLen + bufLen ≤ length then
        some { s with reader := .data [] length bufLen a }
      else none
    | _ => none
  | .delete logAddr logLen => if s.reader = .idle then some (s.delete logAddr logLen) else none

/-- After the `init` section, with an empty stream. -/
def Init (s : Sys) : Prop :=
  s.writer = .idle ∧ s.stream = [] ∧ s.reader = .idle ∧ s.availStart = 0 ∧ s.availLen = 0 ∧
    s.fresh = false ∧ s.answers = [] ∧ s.written = [] ∧ s.fetched = 0

end Athomux.PacketStream
