import Athomux.Lib.ByteMem
import Athomux.Lib.Ring
import Athomux.Lib.Run
import Mathlib.Logic.Function.Basic

/-!
# The keyboard

`#char_device_kbd` puts scancodes into a ring when the keyboard interrupts, and `#kbd_us` reads them
and translates them. Interrupts are not masked while a read is under way, and the scheduler may go on
with another task there. So each turn of the loops is a step.
-/

open Lib

namespace Athomux.Keyboard

/-- `QUEUE_SIZE`. -/
def queueSize : Nat := 16

/-- `DEFAULT_TRANSFER`. -/
def defaultTransfer : Nat := 4096

/-- `kbdus`. All other keys are 0. -/
def kbdusTable : List Nat :=
  [0, 27, 49, 50, 51, 52, 53, 54, 55, 56, 57, 48, 45, 61, 8, 9,
    113, 119, 101, 114, 116, 121, 117, 105, 111, 112, 91, 93, 10, 0, 97, 115,
    100, 102, 103, 104, 106, 107, 108, 59, 39, 96, 0, 92, 122, 120, 99, 118,
    98, 110, 109, 44, 46, 47, 0, 42, 0, 32, 0, 0, 0, 0, 0, 0,
    0, 0, 0, 0, 0, 0, 0, 0, 0, 0, 45, 0, 0, 0, 43]

def kbdus (code : UInt8) : UInt8 := UInt8.ofNat (kbdusTable.getD code.toNat 0)

/-- A key was released. -/
def isRelease (code : UInt8) : Bool := code &&& 0x80 != 0

/-- A `$gettranswait` of `#kbd_us`. -/
inductive Read
  | idle
  /-- In the loop of `#char_device_kbd`. `logLen` is what the caller wants, `count` what `#kbd_us`
  gives at most. -/
  | copy (logLen count tmp kbdCount kbdLen : Nat)
  /-- In the loop of `#kbd_us`. -/
  | translate (logLen count tmp kbdLen physLen : Nat)

structure Reply where
  logLen : Nat
  chars : List UInt8
  success : Bool

/-- The data of both bricks, and the reads by their tasks. `accepted` and `returned` are the scancodes
and the characters since the last `$output_init`. For each scancode that was dropped, `dropped` has
what was in the ring. -/
structure Sys where
  queue : Nat → UInt8
  start : Nat
  stop : Nat
  kbdBuffer : ByteMem
  usBuffer : ByteMem
  read : Nat → Read
  accepted : List UInt8
  dropped : List Nat
  returned : List UInt8
  replies : List Reply

/-- How many scancodes are in the ring. -/
def Sys.held (s : Sys) : Nat := (s.stop + queueSize - s.start) % queueSize

/-- The scancodes in the ring. -/
def Sys.unread (s : Sys) : List UInt8 := ring s.queue queueSize s.start s.held

/-- After `$brick_init`. -/
def Init (s : Sys) : Prop :=
  s.start = 0 ∧ s.stop = 0 ∧ (∀ i, s.read i = .idle) ∧ s.accepted = [] ∧ s.dropped = [] ∧
    s.returned = [] ∧ s.replies = []

/-! ## Steps -/

/-- `$retract` of `:<irq`. There is no scancode when the port has none. -/
def retract (s : Sys) : Option UInt8 → Sys
  | none => s
  | some scancode =>
    let tmp := if s.stop + 1 ≥ queueSize then 0 else s.stop + 1
    if tmp = s.start then { s with dropped := s.held :: s.dropped }
    else { s with
      queue := Function.update s.queue s.stop scancode
      stop := tmp
      accepted := s.accepted ++ [scancode] }

/-- `$output_init` of `:>data`. -/
def outputInit (s : Sys) : Sys := { s with stop := 0, accepted := [], returned := [] }

def Sys.goto (s : Sys) (i : Nat) (r : Read) : Sys := { s with read := Function.update s.read i r }

/-- A read begins, up to the loop of `#char_device_kbd`. -/
def gettranswait (s : Sys) (i logLen : Nat) (forwrite : Bool) : Sys :=
  if forwrite then { s with replies := ⟨logLen, [], false⟩ :: s.replies }
  else s.goto i (.copy logLen (min logLen defaultTransfer) s.start defaultTransfer 0)

/-- The next turn of the loop that the read is in. -/
def turn (s : Sys) (i : Nat) : Read → Option Sys
  | .idle => none
  | .copy logLen count tmp kbdCount kbdLen =>
    if tmp ≠ s.stop ∧ 0 < kbdCount then
      some { s.goto i (.copy logLen count (if tmp + 1 = queueSize then 0 else tmp + 1) (kbdCount - 1)
          (kbdLen + 1)) with
        kbdBuffer := Function.update s.kbdBuffer kbdLen (s.queue tmp) }
    else some { s.goto i (.translate logLen count 0 kbdLen 0) with start := tmp }
  | .translate logLen count tmp kbdLen physLen =>
    if 0 < kbdLen ∧ 0 < count then
      let scancode := s.kbdBuffer tmp
      if isRelease scancode then
        some (s.goto i (.translate logLen count (tmp + 1) (kbdLen - 1) physLen))
      else
        some { s.goto i (.translate logLen (count - 1) (tmp + 1) (kbdLen - 1) (physLen + 1)) with
          usBuffer := Function.update s.usBuffer physLen (kbdus scancode) }
    else
      let chars := s.usBuffer.load 0 physLen
      some { s.goto i .idle with
        returned := s.returned ++ chars
        replies := ⟨logLen, chars, 0 < physLen⟩ :: s.replies }

inductive Event
  | irq (data : Option UInt8)
  | init
  | begin (i logLen : Nat) (forwrite : Bool)
  | turn (i : Nat)

/-- A task has one read at a time. -/
def step (s : Sys) : Event → Option Sys
  | .irq data => some (retract s data)
  | .init => some (outputInit s)
  | .begin i logLen forwrite =>
    match s.read i with
    | .idle => some (gettranswait s i logLen forwrite)
    | _ => none
  | .turn i => turn s i (s.read i)

/-! ## What the tasks expect -/

/-- What the characters of the scancodes are. -/
def typed (codes : List UInt8) : List UInt8 :=
  (codes.filter fun code => !isRelease code).map kbdus

/-- The characters come in order and each once, nothing is lost except in a full ring, and no read
gives more than was asked for. -/
structure Delivered (s : Sys) : Prop where
  order : s.returned <+: typed s.accepted
  all : (∀ i, s.read i = .idle) → typed s.accepted = s.returned ++ typed s.unread
  full : ∀ n ∈ s.dropped, n = 15
  limit : ∀ r ∈ s.replies, r.chars.length ≤ r.logLen

/-! ## When it works -/

/-- The read has not taken any scancodes. -/
def Read.Empty : Read → Prop
  | .idle => True
  | .copy _ _ _ _ kbdLen => kbdLen = 0
  | .translate _ _ _ kbdLen physLen => kbdLen = 0 ∧ physLen = 0

/-- What the read takes from the ring is not more than it can give. -/
def Read.Enough (s : Sys) : Read → Prop
  | .copy _ count tmp kbdCount kbdLen =>
    tmp = s.stop ∨ kbdCount = 0 → (typed (s.kbdBuffer.load 0 kbdLen)).length ≤ count
  | _ => True

/-- An initialization finds `start` at the first slot, and no read that has scancodes. Reads do not
overlap. -/
def Allowed (s : Sys) : Event → Prop
  | .irq _ => True
  | .init => s.start = 0 ∧ ∀ i, (s.read i).Empty
  | .begin _ _ forwrite => forwrite = true ∨ ∀ j, s.read j = .idle
  | .turn i => (s.read i).Enough s

end Athomux.Keyboard
