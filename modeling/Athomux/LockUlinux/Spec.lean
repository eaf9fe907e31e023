import Athomux.Lib.Run
import Athomux.Args
import Athomux.LockType

/-!
# Locks in a linear list

`#lock_ulinux` keeps one entry for each lock. A new lock is merged with an entry of its mandate
and type that it touches.
-/

open Lib

namespace Athomux.LockUlinux

/-! ## Types -/

/-- `MAKE_TYPE`. -/
def makeType (dataPart addrPart : LockT) : Fin 9 :=
  ⟨addrPart.code * 3 + dataPart.code, by cases dataPart <;> cases addrPart <;> decide⟩

def confl : List (List Nat) := [
  [0, 0, 0,   0, 0, 0,   0, 0, 0],
  [0, 0, 1,   0, 0, 1,   1, 1, 1],
  [0, 1, 1,   0, 1, 1,   1, 1, 1],

  [0, 0, 0,   0, 0, 0,   1, 1, 1],
  [0, 0, 1,   0, 0, 1,   1, 1, 1],
  [0, 1, 1,   0, 1, 1,   1, 1, 1],

  [0, 1, 1,   1, 1, 1,   1, 1, 1],
  [0, 1, 1,   1, 1, 1,   1, 1, 1],
  [0, 1, 1,   1, 1, 1,   1, 1, 1]]

/-- `confl[t][u]`. -/
def conflicts (t u : Fin 9) : Bool := (confl.getD t []).getD u 0 != 0

/-! ## The list -/

/-- `struct lock`. -/
structure Lock where
  start : Nat
  stop : Nat
  mandate : Nat
  type : Fin 9
  deriving DecidableEq, Repr

/-- `x` is in the range of the lock. -/
def Lock.Has (e : Lock) (x : Nat) : Prop := e.start ≤ x ∧ x < e.stop

/-- `x` is one of the addresses that the lock was taken for. They begin at `start`, and `end` has
wrapped to 0 when the last one is the highest of all. -/
def Lock.Covers (e : Lock) (x : Nat) : Prop := sub64 x e.start < sub64 e.stop e.start

instance (e : Lock) (x : Nat) : Decidable (e.Covers x) := inferInstanceAs (Decidable (_ < _))

/-- The first run through the list: a conflicting lock, or the last entry that `new` can be
merged with. -/
def scan (new : Lock) : Nat → Option Nat → List Lock → Except Lock (Option Nat)
  | _, modify, [] => .ok modify
  | i, modify, elem :: rest =>
    if elem.mandate = new.mandate then
      if elem.type = new.type ∧ new.start ≤ elem.stop ∧ elem.start ≤ new.stop then
        scan new (i + 1) (some i) rest
      else scan new (i + 1) modify rest
    else if new.start < elem.stop ∧ elem.start < new.stop ∧ conflicts elem.type new.type then
      .error elem
    else scan new (i + 1) modify rest

def stretch (new elem : Lock) : Lock :=
  { elem with
    start := if new.start < elem.start then new.start else elem.start
    stop := if elem.stop < new.stop then new.stop else elem.stop }

/-- `lock_add`. -/
def lockAdd (anchor : List Lock) (new : Lock) (doModify : Bool) : Except Lock (List Lock) := do
  let modify ← scan new 0 none anchor
  if doModify then
    match modify with
    | some i => return anchor.modify i (stretch new)
    | none => return new :: anchor
  else return anchor

/-- `lock_sub`. -/
def lockSub (new : Lock) : List Lock → List Lock
  | [] => []
  | elem :: rest =>
    if elem.mandate = new.mandate ∧ new.start < elem.stop ∧ elem.start < new.stop then
      if elem.start < new.start then
        let lower := { elem with stop := new.start }
        -- `lower` comes next in the loop, but it has nothing to be removed any more.
        if new.stop < elem.stop then { elem with start := new.stop } :: lower :: lockSub new rest
        else lower :: lockSub new rest
      else if elem.stop ≤ new.stop then
        -- `elem` is unlinked, and the loop goes on behind the one that has taken its place.
        match rest with
        | [] => []
        | elem' :: rest => elem' :: lockSub new rest
      else { elem with start := new.stop } :: lockSub new rest
    else elem :: lockSub new rest

/-! ## The operations -/

/-- The fields of `struct args` that `$lock` reads. -/
structure LockArgs where
  mandate : Nat
  logAddr : Nat
  logLen : Nat
  dataLock : LockT
  addrLock : LockT
  action : Action
  deriving DecidableEq

inductive LockAnswer
  | granted (anchor : List Lock) (tryAddr tryLen : Nat)
  | refused
  /-- In `sleepon`. -/
  | wait

def newLock (a : LockArgs) : Lock where
  start := a.logAddr
  stop := add64 a.logAddr a.logLen
  mandate := a.mandate
  type := makeType a.dataLock a.addrLock

/-- One turn of the loop of `$lock`. -/
def tryLock (anchor : List Lock) (a : LockArgs) : LockAnswer :=
  match lockAdd anchor (newLock a) (a.action != .ask) with
  | .error _ => if a.action ≠ .wait then .refused else .wait
  | .ok anchor => .granted anchor a.logAddr a.logLen

/-- `$lock` up to its first wait. -/
def lock (anchor : List Lock) (a : LockArgs) : LockAnswer :=
  if a.logLen = 0 then .refused else tryLock anchor a

/-- `$unlock`. -/
def unlock (anchor : List Lock) (mandate logAddr logLen : Nat) : List Lock :=
  lockSub ⟨logAddr, add64 logAddr logLen, mandate, 0⟩ anchor

/-! ## The system

Each step is what one operation does while it has the mutex. A `$lock` that sleeps on the
queue of an entry may come back at any time.
-/

structure Sys where
  anchor : List Lock
  waiting : List LockArgs
  deriving DecidableEq

inductive Event
  | lock (a : LockArgs)
  | woken (i : Nat)
  | unlock (mandate logAddr logLen : Nat)

/-- What becomes of the request `a`. -/
def answer (s : Sys) (a : LockArgs) : LockAnswer → Sys
  | .granted anchor _ _ => { s with anchor := anchor }
  | .refused => s
  | .wait => { s with waiting := a :: s.waiting }

def step (s : Sys) : Event → Option Sys
  | .lock a => some (answer s a (lock s.anchor a))
  | .woken i =>
    s.waiting[i]?.map fun a =>
      answer { s with waiting := s.waiting.eraseIdx i } a (tryLock s.anchor a)
  | .unlock mandate logAddr logLen => some { s with anchor := unlock s.anchor mandate logAddr logLen }

/-- The `anchor` of a new instance. -/
def Init (s : Sys) : Prop := s.anchor = [] ∧ s.waiting = []

end Athomux.LockUlinux

/-!
## Records and sleepers

`#lock_ulinux` with the records that `newlock` and `freelock` hand around, and with the operations
that sleep on the queue of a record. Records are numbered in the order in which `malloc` has given
them.
-/

open Lib

namespace Athomux.LockUlinux.Records

/-- `struct lock`. -/
structure Record where
  ptr : Nat
  lock : Lock
  deriving DecidableEq, Repr

/-- `emptylist`, and how many records `malloc` has given. -/
structure Pool where
  emptylist : List Nat
  given : Nat
  deriving DecidableEq, Repr

def Pool.newlock (p : Pool) : Nat × Pool :=
  match p.emptylist with
  | new :: next => (new, { p with emptylist := next })
  | [] => (p.given, { p with given := p.given + 1 })

def Pool.freelock (p : Pool) (lock : Nat) : Pool := { p with emptylist := lock :: p.emptylist }

/-! ## `lock_add` and `lock_sub` -/

/-- What is left of the list and the records, and the records whose queues were woken up. -/
structure Result where
  anchor : List Record
  pool : Pool
  woken : List Nat
  deriving DecidableEq, Repr

def scan (new : Lock) : Option Nat → List Record → Except Nat (Option Nat)
  | modify, [] => .ok modify
  | modify, elem :: rest =>
    if elem.lock.mandate = new.mandate then
      if elem.lock.type = new.type ∧ new.start ≤ elem.lock.stop ∧ elem.lock.start ≤ new.stop then
        scan new (some elem.ptr) rest
      else scan new modify rest
    else if new.start < elem.lock.stop ∧ elem.lock.start < new.stop ∧
        conflicts elem.lock.type new.type then
      .error elem.ptr
    else scan new modify rest

/-- `modify` takes over the range of `new`. -/
def stretchAt (new : Lock) (modify : Nat) (elem : Record) : Record :=
  if elem.ptr = modify then { elem with lock := stretch new elem.lock } else elem

def lockAdd (anchor : List Record) (pool : Pool) (new : Record) (doModify : Bool) :
    Except Nat Result := do
  let modify ← scan new.lock none anchor
  if doModify then
    match modify with
    | some m => return ⟨anchor.map (stretchAt new.lock m), pool.freelock new.ptr, [m]⟩
    | none => return ⟨new :: anchor, pool, []⟩
  else return ⟨anchor, pool.freelock new.ptr, []⟩

/-- One more record is in front, and the queues of `woken` are woken up. -/
def Result.put (r : Result) (elem : Record) (woken : List Nat) : Result :=
  { r with anchor := elem :: r.anchor, woken := woken ++ r.woken }

/-- `elem` up to the start of `new`. -/
def Record.lower (new : Lock) (elem : Record) : Record :=
  { elem with lock := { elem.lock with stop := new.start } }

def lockSub (new : Lock) : List Record → Pool → Result
  | [], pool => ⟨[], pool, []⟩
  | elem :: rest, pool =>
    if elem.lock.mandate = new.mandate ∧ new.start < elem.lock.stop ∧ elem.lock.start < new.stop then
      if elem.lock.start < new.start then
        if new.stop < elem.lock.stop then
          -- The new record is in front, and the loop goes on with `elem`, where nothing is to be done.
          ((lockSub new rest pool.newlock.2).put (elem.lower new) [elem.ptr]).put
            ⟨pool.newlock.1, { elem.lock with start := new.stop }⟩ []
        else (lockSub new rest pool).put (elem.lower new) [elem.ptr]
      else if elem.lock.stop ≤ new.stop then
        match rest with
        | [] => ⟨[], pool.freelock elem.ptr, [elem.ptr]⟩
        | elem' :: rest => (lockSub new rest (pool.freelock elem.ptr)).put elem' [elem.ptr]
      else (lockSub new rest pool).put { elem with lock := { elem.lock with start := new.stop } }
        [elem.ptr]
    else (lockSub new rest pool).put elem []

/-! ## The system -/

inductive Status
  /-- Before `pthread_mutex_lock`. -/
  | entered
  /-- In `sleepon`, with nothing that has woken it up yet. -/
  | asleep (conflict : Nat)
  | woken
  deriving DecidableEq, Repr

/-- A `$lock` that is not finished, with its private record. -/
structure Op where
  new : Nat
  args : LockArgs
  status : Status
  deriving DecidableEq

structure State where
  anchor : List Record
  pool : Pool
  ops : List Op
  deriving DecidableEq

/-- `pthread_cond_broadcast` on the queues of `woken`. -/
def Op.wakeup (woken : List Nat) (op : Op) : Op :=
  match op.status with
  | .asleep conflict => if conflict ∈ woken then { op with status := .woken } else op
  | _ => op

def Result.state (r : Result) (ops : List Op) : State :=
  ⟨r.anchor, r.pool, ops.map (Op.wakeup r.woken)⟩

/-- One turn of the loop of `$lock`, for an operation that was taken out of `s`. -/
def turn (s : State) (op : Op) : State :=
  match lockAdd s.anchor s.pool ⟨op.new, newLock op.args⟩ (op.args.action != .ask) with
  | .ok r => r.state s.ops
  | .error conflict =>
    if op.args.action ≠ .wait then { s with pool := s.pool.freelock op.new }
    else { s with ops := { op with status := .asleep conflict } :: s.ops }

inductive Event
  /-- `$lock` up to the mutex. -/
  | enter (a : LockArgs)
  /-- The `$lock` at place `i` gets the mutex. One that sleeps may come back at any time. -/
  | turn (i : Nat)
  | unlock (mandate logAddr logLen : Nat)

def step (s : State) : Event → Option State
  | .enter a =>
    if a.logLen = 0 then some s
    else some { s with pool := s.pool.newlock.2, ops := ⟨s.pool.newlock.1, a, .entered⟩ :: s.ops }
  | .turn i => s.ops[i]?.map fun op => turn { s with ops := s.ops.eraseIdx i } op
  | .unlock mandate logAddr logLen =>
    some ((lockSub ⟨logAddr, add64 logAddr logLen, mandate, ⟨0, Nat.succ_pos 8⟩⟩ s.anchor s.pool).state s.ops)

/-- No lock has ever been taken. -/
def Init (s : State) : Prop := s = ⟨[], ⟨[], 0⟩, []⟩

/-- The list without the records. -/
def State.locks (s : State) : List Lock := s.anchor.map Record.lock

end Athomux.LockUlinux.Records
