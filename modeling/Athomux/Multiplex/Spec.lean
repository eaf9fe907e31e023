import Mathlib.Logic.Function.Basic
import Athomux.LockUlinux.Spec

/-!
# `strm_multiplex`

Two channels over one packet stream, with one user each. A call of `:<ilock` or `:<istrm` is one
step of an operation, with what the operation does until the next one.
-/

open Lib

namespace Athomux.Multiplex

/-- `sizeof(struct strm_mplex_header_t)`. -/
def headerSize : Nat := 8

/-- `SMPLEX_IDENTIFICATION`. -/
def smplexIdentification : Nat := 'S'.toNat + 'M'.toNat * 2 ^ 8 + 'P'.toNat * 2 ^ 16 + 'X'.toNat * 2 ^ 24

/-- `struct strm_mplex_header_t`. -/
structure Header where
  identification : Nat
  channel : Nat
  deriving DecidableEq, Repr

/-! ## The packet stream at `:<istrm` -/

/-- A part of the stream that `$gadr` has given out to a mandate. -/
structure Region where
  addr : Nat
  len : Nat
  mandate : Nat
  header : Header
  deriving DecidableEq, Repr

/-- `payload` is what comes after the header. -/
structure Packet (α : Type) extends Region where
  payload : α

/-- `avail` are the packets that no reader has got, `given` the ones that readers have got, and
`reserved` is what writers have got. -/
structure Istrm (α : Type) where
  avail : List (Packet α)
  given : List (Packet α)
  reserved : List Region

namespace Istrm

variable {α : Type} (s : Istrm α)

/-- `$gadr` of a reader. It waits when there is no result. -/
def gadrReader (mandate : Nat) : Option (Packet α × Istrm α) :=
  match s.avail with
  | [] => none
  | p :: rest =>
    let p := { p with mandate := mandate }
    some (p, { s with avail := rest, given := p :: s.given })

/-- An address where nothing is. -/
def Fresh (addr : Nat) : Prop :=
  addr < addrSpace ∧ (∀ p ∈ s.avail, p.addr ≠ addr) ∧ (∀ p ∈ s.given, p.addr ≠ addr) ∧
    ∀ r ∈ s.reserved, r.addr ≠ addr

instance (addr : Nat) : Decidable (s.Fresh addr) :=
  inferInstanceAs (Decidable (_ ∧ _ ∧ _ ∧ _))

/-- `$gadr` of a writer. -/
def gadrWriter (mandate addr len : Nat) : Istrm α :=
  { s with reserved := ⟨addr, len, mandate, ⟨0, 0⟩⟩ :: s.reserved }

/-- `$transwait` for reading. -/
def readHeader (addr : Nat) : Option Header :=
  (s.given.find? fun p => p.addr = addr).map (·.header)

/-- `$transwait` for writing. -/
def writeHeader (addr : Nat) (header : Header) : Istrm α :=
  { s with reserved := s.reserved.map fun r =>
      if r.addr = addr then { r with header := header } else r }

/-- `$padr` of a reader, to the packet. -/
def padrReader (mandate addr : Nat) : Option (Packet α × Istrm α) :=
  (s.given.find? fun p => p.addr = addr ∧ p.mandate = mandate).map fun p =>
    (p, { s with given := s.given.eraseP fun p => p.addr = addr ∧ p.mandate = mandate })

/-- `$padr` of a writer. -/
def padrWriter (mandate addr : Nat) (payload : α) : Option (Istrm α) :=
  (s.reserved.find? fun r => r.addr = addr ∧ r.mandate = mandate).map fun r =>
    { s with
      reserved := s.reserved.eraseP fun r => r.addr = addr ∧ r.mandate = mandate
      avail := s.avail ++ [⟨r, payload⟩] }

end Istrm

/-! ## The locks at `:<ilock` -/

def lockAddrMod : Nat := 0
def lockMandWait1 : Nat := 1
def lockMandWait2 : Nat := 2

/-- `:>ostrm1` and `:>ostrm2`. -/
inductive Channel
  | first
  | second
  deriving DecidableEq, Repr

namespace Channel

/-- `header.channel`. -/
def number : Channel → Nat
  | first => 1
  | second => 2

/-- `LOCK_MAND1` and `LOCK_MAND2`. -/
def lockMand : Channel → Nat
  | first => 1
  | second => 2

/-- `LOCK_ADDR_WAIT1` and `LOCK_ADDR_WAIT2`. -/
def lockAddrWait : Channel → Nat
  | first => 1
  | second => 2

def other : Channel → Channel
  | first => second
  | second => first

end Channel

/-- `$lock` of one address for writing. It waits when there is no result. -/
def lock (anchor : List LockUlinux.Lock) (mandate addr : Nat) : Option (List LockUlinux.Lock) :=
  match LockUlinux.lock anchor ⟨mandate, addr, 1, .write, .read, .wait⟩ with
  | .granted anchor _ _ => some anchor
  | .refused => none
  | .wait => none

def unlock (anchor : List LockUlinux.Lock) (mandate addr : Nat) : List LockUlinux.Lock :=
  LockUlinux.unlock anchor mandate addr 1

/-! ## The operations -/

/-- The data of the brick. -/
structure Mplex where
  packetStart : Nat
  packetLen : Nat
  packetAvail : Bool
  packetMand : Nat
  deriving DecidableEq, Repr

/-- The arguments of `$gadr`. -/
structure GadrArgs where
  reader : Bool
  logLen : Nat
  tryLen : Nat
  action : Action
  mandate : Nat
  deriving DecidableEq, Repr

/-- How far the user of a channel is. -/
inductive Pc
  | idle
  | failed
  /-- `$gadr`. -/
  | enter (a : GadrArgs)
  | fetch (a : GadrArgs)
  | header (a : GadrArgs) (addr len : Nat)
  | refuse (a : GadrArgs)
  | arm (a : GadrArgs)
  | release (a : GadrArgs)
  | block (a : GadrArgs)
  | cleanup (a : GadrArgs)
  | relock (a : GadrArgs)
  | reserve (a : GadrArgs)
  | label (a : GadrArgs) (addr len : Nat)
  /-- Between `$gadr` and `$padr`, with what `$gadr` has returned. -/
  | busy (a : GadrArgs) (logAddr logLen : Nat)
  /-- `$padr`. -/
  | consumed
  | wake
  deriving DecidableEq, Repr

/-- The user of each channel, and what writers have put and readers have consumed. -/
structure System (α : Type) where
  m : Mplex
  anchor : List LockUlinux.Lock
  istrm : Istrm α
  pc : Channel → Pc
  sent : Channel → List α
  delivered : Channel → List α

/-- What `:<istrm` answers: whether it succeeds, and where it gives a region. -/
structure Answer where
  ok : Bool
  addr : Nat
  len : Nat
  deriving DecidableEq, Repr

variable {α : Type}

def System.goto (y : System α) (c : Channel) (pc : Pc) : System α :=
  { y with pc := Function.update y.pc c pc }

/-- The test in front of `cannot satisfy request`. It compares `packet_avail`, not the length. -/
def unsatisfied (m : Mplex) (requestLen tryLen : Nat) : Bool :=
  (requestLen ≤ m.packetAvail.toNat && m.packetAvail.toNat ≤ tryLen) ||
    (requestLen ≤ m.packetAvail.toNat && tryLen == 0)

/-- The beginning of the loop for a reader. -/
def fetch (y : System α) (c : Channel) (a : GadrArgs) (ans : Answer) : Option (System α) :=
  if y.m.packetAvail then
    if unsatisfied y.m (add64 a.logLen headerSize) a.tryLen then some (y.goto c .failed)
    else some (y.goto c (.header a y.m.packetStart y.m.packetLen))
  else if !ans.ok then some (y.goto c .failed)
  else (y.istrm.gadrReader a.mandate).map fun r =>
    let y := { y with m := ⟨r.1.addr, r.1.len, true, a.mandate⟩, istrm := r.2 }
    y.goto c (.header a r.1.addr r.1.len)

/-- The header has been read. -/
def dispatch (y : System α) (c : Channel) (a : GadrArgs) (addr len : Nat) :
    Option Header → System α
  | none => y.goto c .failed
  | some h =>
    if h.identification ≠ smplexIdentification then y.goto c .failed
    else if h.channel ≠ 1 ∧ h.channel ≠ 2 then y.goto c .failed
    else if h.channel ≠ c.number then
      if a.action ≠ .wait then y.goto c (.refuse a) else y.goto c (.arm a)
    else y.goto c (.busy a (add64 addr headerSize) (sub64 len headerSize))

/-- The next step of the user of `c`. -/
def go (y : System α) (c : Channel) (ans : Answer) : Option (System α) :=
  match y.pc c with
  | .idle => none
  | .failed => none
  | .enter a =>
    (lock y.anchor c.lockMand lockAddrMod).map fun l =>
      { y with anchor := l }.goto c (if a.reader then .fetch a else .reserve a)
  | .fetch a => fetch y c a ans
  | .header a addr len =>
    some (dispatch y c a addr len (if ans.ok then y.istrm.readHeader addr else none))
  | .refuse _ => some ({ y with anchor := unlock y.anchor c.lockMand lockAddrMod }.goto c .failed)
  | .arm a =>
    (lock y.anchor lockMandWait1 c.lockAddrWait).map fun l =>
      { y with anchor := l }.goto c (.release a)
  | .release a =>
    some ({ y with anchor := unlock y.anchor c.lockMand lockAddrMod }.goto c (.block a))
  | .block a =>
    (lock y.anchor lockMandWait2 c.lockAddrWait).map fun l =>
      { y with anchor := l }.goto c (.cleanup a)
  | .cleanup a =>
    some ({ y with anchor := unlock y.anchor lockMandWait2 c.lockAddrWait }.goto c (.relock a))
  | .relock a =>
    (lock y.anchor c.lockMand lockAddrMod).map fun l => { y with anchor := l }.goto c (.fetch a)
  | .reserve a =>
    if !ans.ok then some (y.goto c .failed)
    else if y.istrm.Fresh ans.addr then
      some ({ y with istrm := y.istrm.gadrWriter a.mandate ans.addr ans.len }.goto c
        (.label a ans.addr ans.len))
    else none
  | .label a addr len =>
    if !ans.ok then some (y.goto c .failed)
    else some ({ y with istrm := y.istrm.writeHeader addr ⟨smplexIdentification, c.number⟩ }.goto c
      (.busy a (add64 addr headerSize) (sub64 len headerSize)))
  | .busy _ _ _ => none
  | .consumed => some ({ y with anchor := unlock y.anchor c.lockMand lockAddrMod }.goto c .wake)
  | .wake =>
    some ({ y with anchor := unlock y.anchor lockMandWait1 c.other.lockAddrWait }.goto c .idle)

/-- `$padr` until it has returned from `:<istrm`. A writer has written `payload` before. -/
def padr (y : System α) (c : Channel) (a : GadrArgs) (logAddr : Nat) (payload : α) (ok : Bool) :
    System α :=
  let addr := sub64 logAddr headerSize
  let mandate := if y.m.packetAvail then y.m.packetMand else a.mandate
  let done := { y with m := { y.m with packetAvail := false } }
  if !ok then y.goto c .failed
  else if a.reader then
    match y.istrm.padrReader mandate addr with
    | none => y.goto c .failed
    | some r =>
      { done with
        istrm := r.2
        delivered := Function.update y.delivered c (y.delivered c ++ [r.1.payload]) }.goto c .consumed
  else
    match y.istrm.padrWriter mandate addr payload with
    | none => y.goto c .failed
    | some s =>
      { done with
        istrm := s
        sent := Function.update y.sent c (y.sent c ++ [payload]) }.goto c .consumed

/-! ## The system -/

inductive Event (α : Type)
  | gadr (c : Channel) (a : GadrArgs)
  | go (c : Channel) (ans : Answer)
  | padr (c : Channel) (payload : α) (ok : Bool)
  /-- Another `strm_multiplex` on the stream has put a packet. -/
  | arrive (c : Channel) (addr len : Nat) (payload : α)

def step (y : System α) : Event α → Option (System α)
  | .gadr c a =>
    if y.pc c = .idle ∨ y.pc c = .failed then some (y.goto c (.enter a)) else none
  | .go c ans => go y c ans
  | .padr c payload ok =>
    match y.pc c with
    | .busy a logAddr _ => some (padr y c a logAddr payload ok)
    | _ => none
  | .arrive c addr len payload =>
    if y.istrm.Fresh addr then
      let p := ⟨⟨addr, len, 0, ⟨smplexIdentification, c.number⟩⟩, payload⟩
      some { y with
        istrm := { y.istrm with avail := y.istrm.avail ++ [p] }
        sent := Function.update y.sent c (y.sent c ++ [payload]) }
    else none

def start : System α where
  m := ⟨0, 0, false, 0⟩
  anchor := []
  istrm := ⟨[], [], []⟩
  pc := fun _ => .idle
  sent := fun _ => []
  delivered := fun _ => []

end Athomux.Multiplex
