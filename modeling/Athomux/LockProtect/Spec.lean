import Athomux.Lib.Run
import Athomux.LockType
import Athomux.Args

/-!
# Operations under automatic locks

`#lock_protect` locks the range of an operation in `:<in`, forwards the operation, and unlocks the
range. All calls go to `:<in` under the mandate of the caller.
-/

open Lib

namespace Athomux.LockProtect

/-- The operations of the output `:>out`, and the ones that are called instead. -/
inductive Op
  | trans | transwait | wait | get | put | putwait | create | delete | move
  /-- One that is redirected. -/
  | other (code : Nat)
  deriving DecidableEq

/-- The fields of `struct args` that the brick reads. -/
structure Args where
  mandate : Nat
  logAddr : Nat
  logLen : Nat
  offset : Int
  offsetMax : Int
  forwrite : Bool
  deriving DecidableEq

structure Range where
  start : Nat
  len : Nat
  deriving DecidableEq

def Range.Has (r : Range) (x : Nat) : Prop := r.start ≤ x ∧ x < r.start + r.len

instance (r : Range) (x : Nat) : Decidable (r.Has x) := by
  unfold Range.Has
  infer_instance

/-- `@log_addr` and `@log_len`. -/
def Args.range (a : Args) : Range := ⟨a.logAddr, a.logLen⟩

/-! ## The locks in `:<in`

The locks under one mandate are not recursive. A lock of a range that is held already changes its
type, and an unlock ensures that nothing of the range is held any more.
-/

/-- The type that is held under a mandate at an address. -/
abbrev Held := Nat → Nat → Option LockType

def Held.lock (h : Held) (mandate : Nat) (r : Range) (type : LockType) : Held :=
  fun m x => if m = mandate ∧ r.Has x then some type else h m x

def Held.unlock (h : Held) (mandate : Nat) (r : Range) : Held :=
  fun m x => if m = mandate ∧ r.Has x then none else h m x

/-! ## The operations -/

inductive OnFail
  | fatal | check | ignore
  deriving DecidableEq

/-- A `$lock` of the range, the operation that is forwarded, and the `$unlock`. -/
structure Protect where
  type : LockType
  forward : Op
  onFail : OnFail
  deriving DecidableEq

/-- `$trans`. -/
def trans : Protect := ⟨⟨.write, .read⟩, .transwait, .fatal⟩

/-- `$create`. -/
def create : Protect := ⟨⟨.write, .write⟩, .create, .check⟩

/-- `$delete`. -/
def delete : Protect := ⟨⟨.write, .write⟩, .get, .ignore⟩

/-- The range of `$move` that is locked first. -/
inductive Side
  | src | dst
  deriving DecidableEq

def Side.other : Side → Side
  | src => dst
  | dst => src

/-- Where an operation is. -/
inductive Place
  | lock (p : Protect)
  | forward (p : Protect)
  | unlock (p : Protect)
  | getLock | getForward | getUnlockRest | getUnlockAll
  | putForward | putUnlock
  | moveLock | moveForward | moveUnlock
  /-- The first lock of a round, with `action_wait`. -/
  | moveWait (first : Side)
  /-- The second one, with `action_try`. -/
  | moveTry (first : Side)
  | moveBoth (first : Side)
  | moveUnlockSecond (first : Side)
  | moveUnlockFirst (first : Side)
  /-- The second lock was not granted. -/
  | moveBack (first : Side)
  | redirect
  | returned
  /-- After `@.fatal`. -/
  | dead
  deriving DecidableEq

/-- `orig` is the argument record at the call of `op`, and `success` the result in it. -/
structure State where
  op : Op
  orig : Args
  args : Args
  success : Bool
  place : Place
  held : Held

/-! ## `$move` -/

def Args.srcStart (a : Args) : Nat := a.logAddr

def Args.srcEnd (a : Args) : Nat := add64 a.srcStart a.logLen

/-- `@log_addr + @offset`. -/
def Args.dstStart (a : Args) : Nat := ((a.logAddr + a.offset) % addrSpace).toNat

def Args.dstEnd (a : Args) : Nat := add64 a.dstStart a.logLen

/-- "Source and destination ranges overlap." -/
def Args.Overlap (a : Args) : Prop := a.srcStart ≤ a.dstEnd ∧ a.dstStart ≤ a.srcEnd

instance (a : Args) : Decidable a.Overlap := by
  unfold Args.Overlap
  infer_instance

def Args.whole (a : Args) : Range :=
  ⟨min a.srcStart a.dstStart, sub64 (max a.srcEnd a.dstEnd) (min a.srcStart a.dstStart)⟩

def Args.side (a : Args) : Side → Range
  | .src => ⟨a.srcStart, sub64 a.srcEnd a.srcStart⟩
  | .dst => ⟨a.dstStart, sub64 a.dstEnd a.dstStart⟩

/-! ## Calls and answers -/

inductive Call
  | lock (r : Range) (type : LockType) (action : Action)
  | unlock (r : Range)
  | forward (op : Op)
  | none
  deriving DecidableEq

/-- What is behind the first `log_len` bytes of the range that was asked for. -/
def State.rest (s : State) : Range :=
  ⟨add64 s.args.logAddr s.args.logLen, sub64 s.orig.logLen s.args.logLen⟩

/-- What an operation asks `:<in` for next. -/
def State.call (s : State) : Call :=
  match s.place with
  | .lock p => .lock s.args.range p.type .wait
  | .forward p => .forward p.forward
  | .unlock _ => .unlock s.args.range
  | .getLock => .lock s.args.range ⟨if s.args.forwrite then .write else .read, .read⟩ .wait
  | .getForward => .forward .get
  | .getUnlockRest => .unlock s.rest
  | .getUnlockAll => .unlock s.orig.range
  | .putForward => .forward .putwait
  | .putUnlock => .unlock s.args.range
  | .moveLock => .lock s.orig.whole ⟨.write, .write⟩ .wait
  | .moveForward | .moveBoth _ => .forward .move
  | .moveUnlock => .unlock s.orig.whole
  | .moveWait first => .lock (s.orig.side first) ⟨.write, .write⟩ .wait
  | .moveTry first => .lock (s.orig.side first.other) ⟨.write, .write⟩ .try
  | .moveUnlockSecond first => .unlock (s.orig.side first.other)
  | .moveUnlockFirst first | .moveBack first => .unlock (s.orig.side first)
  | .redirect => .forward s.op
  | .returned | .dead => .none

/-- Where an operation goes on after a `$lock`. -/
def Place.locked (ok : Bool) : Place → Place
  | .lock p => if ok then .forward p else .returned
  | .getLock => if ok then .getForward else .returned
  | .moveLock => if ok then .moveForward else .returned
  | .moveWait first => if ok then .moveTry first else .returned
  | .moveTry first => if ok then .moveBoth first else .moveBack first
  | place => place

/-- Where an operation goes on after an `$unlock`. -/
def Place.unlocked (ok : Bool) : Place → Place
  | .unlock p => if ok = false ∧ p.onFail = .fatal then .dead else .returned
  | .getUnlockRest | .getUnlockAll => if ok then .returned else .dead
  | .moveUnlockSecond first => .moveUnlockFirst first
  | .moveBack first => .moveWait first.other
  | .putUnlock | .moveUnlock | .moveUnlockFirst _ => .returned
  | place => place

/-- Where an operation goes on after the forwarded operation. -/
def State.forwarded (s : State) : Place :=
  match s.place with
  | .forward p => .unlock p
  | .getForward =>
    if s.success then
      if s.args.logLen < s.orig.logLen then .getUnlockRest else .returned
    else .getUnlockAll
  | .putForward => .putUnlock
  | .moveForward => .moveUnlock
  | .moveBoth first => .moveUnlockSecond first
  | .redirect => .returned
  | place => place

/-- The results of an operation. A `$get` may return less than it was asked for. -/
structure Outcome where
  success : Bool
  logLen : Nat
  offset : Int
  deriving DecidableEq

def Outcome.apply (out : Outcome) (op : Op) (a : Args) : Args :=
  { a with
    logLen := if op = .get then out.logLen else a.logLen
    offset := if op = .move then out.offset else a.offset }

/-- The answers of `:<in`. -/
inductive Event
  | locked (ok : Bool)
  | unlocked (ok : Bool)
  | forwarded (out : Outcome)
  deriving DecidableEq

def step (s : State) (e : Event) : Option State :=
  match s.call, e with
  | .lock r type _, .locked ok =>
    some { s with
      place := s.place.locked ok
      held := if ok then s.held.lock s.args.mandate r type else s.held }
  | .unlock r, .unlocked ok =>
    some { s with
      place := s.place.unlocked ok
      held := if ok then s.held.unlock s.args.mandate r else s.held }
  | .forward op, .forwarded out =>
    let t := { s with args := out.apply op s.args, success := out.success }
    some { t with place := t.forwarded }
  | _, _ => none

/-- Where the operation that is called begins. `$wait` returns at once. -/
def entry (op : Op) (a : Args) : Place :=
  match op with
  | .trans => .lock trans
  | .wait => .returned
  | .get => .getLock
  | .put => .putForward
  | .create => .lock create
  | .delete => .lock delete
  | .move => if a.Overlap then .moveLock else .moveWait .src
  | _ => .redirect

/-- A call of an output begins with `success` FALSE. -/
def begin (op : Op) (a : Args) (held : Held) : State := ⟨op, a, a, op = .wait, entry op a, held⟩

/-- "Unlocks never fail", and a `$get` returns no more than it was asked for. -/
def Contract (s : State) : Event → Prop
  | .locked _ => True
  | .unlocked ok => ok = true
  | .forwarded out => s.call = .forward .get → out.logLen ≤ s.args.logLen

instance (s : State) (e : Event) : Decidable (Contract s e) := by
  unfold Contract
  split <;> infer_instance

/-! ## What the brick is for -/

/-- The operation in the form that has come to an end when it returns. -/
def Op.sync : Op → Op
  | trans => transwait
  | put => putwait
  | op => op

/-- The addresses of an operation. `$move` moves the range by `offset`. -/
def Touches (op : Op) (a : Args) (x : Nat) : Prop :=
  match op with
  | .trans | .get | .put | .create | .delete => a.range.Has x
  | .move => a.range.Has x ∨ (a.logAddr + a.offset ≤ x ∧ (x : Int) < a.logAddr + a.offset + a.logLen)
  | _ => False

/-- The type of the locks of an operation. -/
def lockType (op : Op) (a : Args) : LockType :=
  match op with
  | .trans => ⟨.write, .read⟩
  | .get => ⟨if a.forwrite then .write else .read, .read⟩
  | _ => ⟨.write, .write⟩

/-- What is to be held when the operation has returned. -/
def State.after (s : State) (held : Held) : Held :=
  match s.op with
  | .get =>
    if s.success then held.lock s.orig.mandate s.args.range (lockType .get s.orig) else held
  | .put => held.unlock s.orig.mandate s.orig.range
  | _ => held

/-- The ranges end within the address space. -/
def Fits (op : Op) (a : Args) : Prop :=
  a.logAddr + a.logLen < addrSpace ∧
    (op = .move → 0 ≤ a.logAddr + a.offset ∧ a.logAddr + a.offset + a.logLen < addrSpace)

end Athomux.LockProtect
