import Athomux.Lib.Run
import Athomux.Lib.Ring
import Athomux.Args

/-!
# The byte pipe

`#pipe` passes bytes from `:>strmw` to `:>strmr` through a circular buffer in
`:<mem`. Each side works under the lock `LOCK_ADDR_MOD` of `:<ilock`, apart from
the address checks of `$delete` and `$create`, which come before the lock.
-/

namespace Athomux.Pipe

/-- `struct status_t`. -/
structure Status where
  bufStart : Nat
  bufLen : Nat
  availStart : Nat
  availLen : Nat
  deriving DecidableEq

/-- The fields of `struct args` that `$gadr` reads. -/
structure GadrArgs where
  logLen : Nat
  tryLen : Nat
  action : Action
  reader : Bool
  deriving DecidableEq

inductive GadrAnswer
  | granted (logAddr logLen : Nat)
  | refused
  | wait
  deriving DecidableEq

/-! ## The operations -/

/-- Where one side works: its position, the bytes up to the end of the buffer,
and the contiguous block that it can have now (`block_avail`). -/
structure Side where
  reader : Bool
  pos : Nat
  toEnd : Nat
  blockAvail : Nat

def readerSide (st : Status) : Side where
  reader := true
  pos := st.availStart
  toEnd := sub64 st.bufLen st.availStart
  blockAvail := min (sub64 st.bufLen st.availStart) st.availLen

def writerStart (st : Status) : Nat := add64 st.availStart st.availLen % st.bufLen

def writerSide (st : Status) : Side where
  reader := false
  pos := writerStart st
  toEnd := sub64 st.bufLen (writerStart st)
  blockAvail := min (sub64 st.bufLen (writerStart st)) (sub64 st.bufLen st.availLen)

def grantedLen (a : GadrArgs) (blockAvail : Nat) : Nat :=
  if a.tryLen = 0 then blockAvail else min blockAvail (max a.logLen a.tryLen)

def grant (bufStart : Nat) (side : Side) (a : GadrArgs) : GadrAnswer :=
  .granted (add64 bufStart side.pos) (grantedLen a side.blockAvail)

/-- `$gadr` up to its first wait. -/
def gadr (bufStart : Nat) (side : Side) (a : GadrArgs) : GadrAnswer :=
  if a.reader ≠ side.reader then .refused
  else if side.blockAvail < a.logLen then
    if a.action ≠ .wait then .refused
    -- A block of this size never fits in before the end of the buffer.
    else if side.toEnd < a.logLen then .refused
    else .wait
  else grant bufStart side a

/-- `$gadr` after a wait: the loop condition, then the grant. -/
def gadrWoken (bufStart : Nat) (side : Side) (a : GadrArgs) : GadrAnswer :=
  if side.blockAvail < a.logLen then .wait else grant bufStart side a

def deleteCheck (st : Status) (logAddr : Nat) : Bool :=
  logAddr == add64 st.bufStart st.availStart

def delete (st : Status) (logLen : Nat) : Status :=
  { st with
    availStart := add64 st.availStart logLen % st.bufLen
    availLen := sub64 st.availLen logLen }

def createCheck (st : Status) (logAddr : Nat) : Bool :=
  logAddr == add64 st.bufStart (writerStart st)

def create (st : Status) (logLen : Nat) : Status :=
  { st with availLen := add64 st.availLen logLen }

/-! ## The system

One reader and one writer. A client that waits in `$gadr` may come back at any
time; the loop condition decides what happens then. `lockOk` is the answer of
`:<ilock` when an operation asks for `LOCK_ADDR_MOD`.
-/

inductive Pc
  | idle
  | waiting (a : GadrArgs)
  /-- `$delete` or `$create` is past its address check, and not yet in the lock. -/
  | checked (logLen : Nat)
  deriving DecidableEq

/-- What is left of the region that the last successful `$gadr` returned. -/
structure Grant where
  addr : Nat
  len : Nat

def Grant.use (g : Grant) (n : Nat) : Grant := ⟨g.addr + n, g.len - n⟩

structure Sys where
  status : Status
  mem : Nat → UInt8
  readerPc : Pc
  writerPc : Pc
  readerGrant : Grant
  writerGrant : Grant
  committed : List UInt8
  released : List UInt8

inductive Event
  | readerGadr (a : GadrArgs) (lockOk : Bool)
  | readerWoken (lockOk : Bool)
  | readerDelete (logAddr logLen : Nat)
  | readerDeleteLocked (lockOk : Bool)
  | writerGadr (a : GadrArgs) (lockOk : Bool)
  | writerWoken (lockOk : Bool)
  | writerCreate (logAddr logLen : Nat)
  | writerCreateLocked (lockOk : Bool)
  | writerStore (addr : Nat) (byte : UInt8)

/-- The bytes at `n` consecutive addresses. -/
def bytesAt (mem : Nat → UInt8) (addr n : Nat) : List UInt8 :=
  (List.range n).map fun i => mem (addr + i)

def Sys.readerAnswer (s : Sys) (a : GadrArgs) : GadrAnswer → Sys
  | .granted addr len => { s with readerPc := .idle, readerGrant := ⟨addr, len⟩ }
  | .refused => { s with readerPc := .idle }
  | .wait => { s with readerPc := .waiting a }

def Sys.writerAnswer (s : Sys) (a : GadrArgs) : GadrAnswer → Sys
  | .granted addr len => { s with writerPc := .idle, writerGrant := ⟨addr, len⟩ }
  | .refused => { s with writerPc := .idle }
  | .wait => { s with writerPc := .waiting a }

def Sys.release (s : Sys) (n : Nat) : Sys :=
  { s with
    status := delete s.status n
    readerPc := .idle
    readerGrant := s.readerGrant.use n
    released := s.released ++ bytesAt s.mem (s.status.bufStart + s.status.availStart) n }

def Sys.commit (s : Sys) (n : Nat) : Sys :=
  { s with
    status := create s.status n
    writerPc := .idle
    writerGrant := s.writerGrant.use n
    committed := s.committed ++ bytesAt s.mem (s.status.bufStart + writerStart s.status) n }

def step (s : Sys) : Event → Option Sys
  | .readerGadr a lockOk =>
    match s.readerPc with
    | .idle =>
      some (s.readerAnswer a
        (if lockOk then gadr s.status.bufStart (readerSide s.status) a else .refused))
    | _ => none
  | .readerWoken lockOk =>
    match s.readerPc with
    | .waiting a =>
      some (s.readerAnswer a
        (if lockOk then gadrWoken s.status.bufStart (readerSide s.status) a else .refused))
    | _ => none
  | .readerDelete logAddr logLen =>
    match s.readerPc with
    | .idle => some (if deleteCheck s.status logAddr then { s with readerPc := .checked logLen } else s)
    | _ => none
  | .readerDeleteLocked lockOk =>
    match s.readerPc with
    | .checked n => some (if lockOk then s.release n else { s with readerPc := .idle })
    | _ => none
  | .writerGadr a lockOk =>
    match s.writerPc with
    | .idle =>
      some (s.writerAnswer a
        (if lockOk then gadr s.status.bufStart (writerSide s.status) a else .refused))
    | _ => none
  | .writerWoken lockOk =>
    match s.writerPc with
    | .waiting a =>
      some (s.writerAnswer a
        (if lockOk then gadrWoken s.status.bufStart (writerSide s.status) a else .refused))
    | _ => none
  | .writerCreate logAddr logLen =>
    match s.writerPc with
    | .idle => some (if createCheck s.status logAddr then { s with writerPc := .checked logLen } else s)
    | _ => none
  | .writerCreateLocked lockOk =>
    match s.writerPc with
    | .checked n => some (if lockOk then s.commit n else { s with writerPc := .idle })
    | _ => none
  | .writerStore addr byte => some { s with mem := Function.update s.mem addr byte }

/-- `$output_init` with the buffer that `:<mem` gave. No memory nest gives half of
the address space, so a position and a length never wrap when they are added. -/
def Init (s : Sys) : Prop :=
  0 < s.status.bufLen ∧ s.status.bufStart + s.status.bufLen ≤ addrSpace ∧
  s.status.bufLen ≤ 2 ^ 63 ∧ s.status.availStart = 0 ∧ s.status.availLen = 0 ∧
  s.readerPc = .idle ∧ s.writerPc = .idle ∧ s.readerGrant.len = 0 ∧ s.writerGrant.len = 0 ∧
  s.committed = [] ∧ s.released = []

/-- What the two clients promise: they release and commit at most what they were
granted, and the writer stores only where it was granted space. -/
def Protocol (s : Sys) : Event → Prop
  | .readerDelete _ logLen => logLen ≤ s.readerGrant.len
  | .writerCreate _ logLen => logLen ≤ s.writerGrant.len
  | .writerStore addr _ => s.writerGrant.addr ≤ addr ∧ addr < s.writerGrant.addr + s.writerGrant.len
  | _ => True

instance (s : Sys) (e : Event) : Decidable (Protocol s e) := by
  cases e <;> unfold Protocol <;> infer_instance

/-! ## What the regions are -/

/-- The address holds a committed byte that is not yet released. -/
def Filled (st : Status) (addr : Nat) : Prop :=
  ∃ i < st.availLen, addr = st.bufStart + (st.availStart + i) % st.bufLen

def Grant.Has (g : Grant) (addr : Nat) : Prop := g.addr ≤ addr ∧ addr < g.addr + g.len

end Athomux.Pipe
