import Athomux.Lib.Run
import Athomux.LockMelt.Spec

/-!
# Locks of mandates, with an optional part

`#lock_mand` grants the obligatory part of a request and as much of the optional part
around it as is free. A lock that is held for an optional part may be retracted: who
waits for it lets its owner know.
-/

open Lib

namespace Athomux.LockMand

open LockMelt

def maxLockRecords : Nat := 1024

abbrev LockRecs := LockList Tag maxLockRecords

/-! ## Melting -/

/-- A first lock that starts below `desc` is split there if it is weaker. -/
def splitFirst (s : LockRecs) (desc : Desc) (lock : Nat) : Option LockRecs :=
  if !isStrongerOrEqual (s.desc lock) desc then
    s.splitLockRec lock
      { s.desc lock with start := desc.start, tag := strongest (s.desc lock).tag desc.tag }
      { s.desc lock with stop := desc.start }
  else some s

/-- And `desc` goes on behind it. -/
def meltFirst (s : LockRecs) (desc : Desc) (lock : Nat) :
    Option (LockRecs × Desc × Option Nat) :=
  if (s.desc lock).start < desc.start then do
    let s ← splitFirst s desc lock
    let desc := { desc with start := (s.desc lock).stop }
    return (s, desc, s.findNextLockFrom (some lock) desc isOwn)
  else some (s, desc, some lock)

/-- `melt_lock_into_list`. -/
def meltLockIntoList (s : LockRecs) (desc : Desc) : Option LockRecs :=
  match s.findFirstLock desc isOwn with
  | none => meltTail s desc
  | some lock => do
    let (s, desc, lock) ← meltFirst s desc lock
    let (s, desc) ← meltLoop (maxLockRecords + 1) s desc none lock
    meltTail s desc

/-! ## `$lock` -/

/-- A part of the request that is melted into the list. -/
def part (a : LockArgs) (start stop : Nat) (obligatory : Bool) : Desc :=
  ⟨start, stop, ⟨a.mandate, ⟨a.dataLock, a.addrLock⟩, obligatory⟩⟩

def meltPart (s : LockRecs) (desc : Desc) : Option LockRecs :=
  if desc.start < desc.stop then meltLockIntoList s desc else some s

/-- The optional part below, the obligatory part, and the optional part above. The optional parts
are those of the request, not what the cut has left of them. -/
def meltParts (s : LockRecs) (a : LockArgs) : Option LockRecs := do
  let s ← meltPart s (part a a.opt.start a.obl.start false)
  let s ← meltPart s (part a a.obl.start a.obl.stop true)
  meltPart s (part a a.obl.stop a.opt.stop false)

inductive LockAnswer
  | granted (s : LockRecs) (tryAddr tryLen : Nat)
  | refused
  /-- In `wait_for_lock`, after a `$retract` has been sent if the lock is optional. -/
  | wait (retract : Option (Nat × Nat × Nat))

/-- The way is free. `none` is the end of the process: no free records. -/
def grant (s : LockRecs) (a : LockArgs) : Option LockAnswer := do
  let desc := s.cutOptional a.obl a.opt isConflict
  let s ← if desc.start < desc.stop ∧ a.action ≠ .ask then meltParts s a else some s
  return .granted s desc.start (desc.stop - desc.start)

/-- The mandate, address and length of the `$retract` that goes out for `conflictor`. -/
def retractOf (conflictor : Desc) (a : LockArgs) : Option (Nat × Nat × Nat) :=
  let start := max conflictor.start a.obl.start
  let stop := min conflictor.stop a.obl.stop
  if conflictor.tag.obligatory then none else some (conflictor.tag.mandate, start, stop - start)

/-- `$lock` up to its first wait. -/
def lock (s : LockRecs) (a : LockArgs) : Option LockAnswer :=
  if !lockCheck a then some .refused
  else if noEffect a then some (.granted s a.tryAddr a.tryLen)
  else
    match s.findFirstLock a.obl isConflict with
    | none => grant s a
    | some conflictor =>
      if 0 < a.obl.stop - a.obl.start then
        some (if a.action ≠ .wait then .refused else .wait (retractOf (s.desc conflictor) a))
      -- An empty obligatory part inside of a conflicting lock: nothing is locked.
      else some (.granted s a.logAddr 0)

/-- `$lock` after a wait. -/
def lockWoken (s : LockRecs) (a : LockArgs) : Option LockAnswer :=
  match s.findFirstLock a.obl isConflict with
  | none => grant s a
  | some conflictor => some (.wait (retractOf (s.desc conflictor) a))

/-! ## `$unlock` -/

/-- The range that `$unlock` takes away. -/
def unlockDesc (mandate tryAddr tryLen : Nat) : Desc :=
  ⟨tryAddr, add64 tryAddr tryLen, ⟨mandate, ⟨.write, .write⟩, true⟩⟩

/-- `$unlock`. -/
def unlock (s : LockRecs) (mandate logAddr logLen tryAddr tryLen : Nat) : Option LockRecs :=
  let desc := unlockDesc mandate tryAddr tryLen
  if logAddr < desc.start ∨ desc.stop < add64 logAddr logLen then some s
  else removeOwnLocks s desc

/-! ## The system

Each step is what one operation does while it has the mutex. A `$lock` that waits on
the native lock of a record may come back at any time.
-/

/-- The list, the requests that wait, and the `$retract`s that were sent, newest first. -/
structure Sys where
  list : LockRecs
  waiting : List LockArgs
  retracts : List (Nat × Nat × Nat)

inductive Event
  | lock (a : LockArgs)
  | woken (i : Nat)
  | unlock (mandate logAddr logLen tryAddr tryLen : Nat)
  deriving DecidableEq

/-- What becomes of the request `a`. -/
def answer (s : Sys) (a : LockArgs) : LockAnswer → Sys
  | .granted list _ _ => { s with list := list }
  | .refused => s
  | .wait retract =>
    { s with waiting := a :: s.waiting, retracts := retract.toList ++ s.retracts }

def step (s : Sys) : Event → Option Sys
  | .lock a => (lock s.list a).map (answer s a)
  | .woken i =>
    s.waiting[i]?.bind fun a =>
      (lockWoken s.list a).map (answer { s with waiting := s.waiting.eraseIdx i } a)
  | .unlock mandate logAddr logLen tryAddr tryLen =>
    (unlock s.list mandate logAddr logLen tryAddr tryLen).map fun list => { s with list := list }

/-- `$output_init`. -/
def Init (s : Sys) : Prop :=
  (∃ desc, s.list = LockList.init maxLockRecords desc) ∧ s.waiting = [] ∧ s.retracts = []

end Athomux.LockMand
