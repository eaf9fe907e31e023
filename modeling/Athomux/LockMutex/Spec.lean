import Athomux.Lib.Run
import Athomux.Args
import Athomux.LockType
import Athomux.LockList.Spec

/-!
# Locks without mandates

`#lock_mutex` knows ranges and types, but not who holds a lock. Locks that do not
conflict stack, and `$unlock` takes one lock away at each address.
-/

open Lib

namespace Athomux.LockMutex

def maxLockRecords : Nat := 1024

abbrev Desc := LockDesc LockType

abbrev State := LockList LockType maxLockRecords

/-- The fields of `struct args` that `$lock` reads. -/
structure LockArgs where
  logAddr : Nat
  logLen : Nat
  tryAddr : Nat
  tryLen : Nat
  dataLock : LockT
  addrLock : LockT
  action : Action
  deriving DecidableEq

/-- `obl_start` up to `obl_end`. -/
def LockArgs.obl (a : LockArgs) : Desc :=
  ⟨a.logAddr, add64 a.logAddr a.logLen, ⟨a.dataLock, a.addrLock⟩⟩

/-- `opt_start` up to `opt_end`. -/
def LockArgs.opt (a : LockArgs) : Desc :=
  ⟨a.tryAddr, add64 a.tryAddr a.tryLen, ⟨a.dataLock, a.addrLock⟩⟩

def isConflict (lock desc : Desc) : Bool := desc.tag.conflicts lock.tag

def isOwn (_ _ : Desc) : Bool := true

inductive LockAnswer
  | granted (s : State) (tryAddr tryLen : Nat)
  | refused
  | wait

/-! ## The operations -/

/-- The two checks of `$lock`. -/
def lockCheck (a : LockArgs) : Bool :=
  !(a.opt.stop < a.opt.start || a.obl.stop < a.obl.start) &&
  !(a.obl.start < a.opt.start || a.opt.stop < a.obl.stop)

def noEffect (a : LockArgs) : Bool :=
  a.opt.stop - a.opt.start == 0 || (a.dataLock == .none && a.addrLock == .none)

/-- The way is free. `none` is the end of the process: no free records. -/
def grant (s : State) (a : LockArgs) : Option LockAnswer := do
  let desc := s.cutOptional a.obl a.opt isConflict
  if desc.start < desc.stop ∧ a.action ≠ .ask then
    let s ← s.addNew desc
    return .granted s desc.start (desc.stop - desc.start)
  else
    return .granted s desc.start (desc.stop - desc.start)

/-- `$lock` up to its first wait. -/
def lock (s : State) (a : LockArgs) : Option LockAnswer :=
  if !lockCheck a then some .refused
  else if noEffect a then some (.granted s a.tryAddr a.tryLen)
  else
    match s.findFirstLock a.obl isConflict with
    | none => grant s a
    | some _ =>
      if 0 < a.obl.stop - a.obl.start then
        some (if a.action ≠ .wait then .refused else .wait)
      -- An empty obligatory part inside of a conflicting lock: nothing is locked.
      else some (.granted s a.logAddr 0)

/-- `$lock` after a wait. -/
def lockWoken (s : State) (a : LockArgs) : Option LockAnswer :=
  match s.findFirstLock a.obl isConflict with
  | none => grant s a
  | some _ => some .wait

/-- The range that `$unlock` takes away. -/
def unlockDesc (tryAddr tryLen : Nat) : Desc :=
  ⟨tryAddr, add64 tryAddr tryLen, ⟨.write, .write⟩⟩

/-- The loop of `$unlock`. -/
def unlockLoop : Nat → State → Desc → Option Nat → Option State
  | fuel + 1, s, desc, some lock => do
    let nextLock := s.links.next lock
    let s ← s.keepLower lock desc.start
    let s ← s.keepUpper lock desc.stop
    -- Only one lock is taken away at each address.
    let stop := (s.desc lock).stop
    let desc := { desc with start := if desc.stop < stop then desc.stop else stop }
    let s := (s.removeLockRec lock).freeLockRec lock
    if desc.start = desc.stop then some s
    else unlockLoop fuel s desc (s.findNextLockFrom nextLock desc isOwn)
  | _, s, _, _ => some s

/-- `$unlock`. -/
def unlock (s : State) (logAddr logLen tryAddr tryLen : Nat) : Option State :=
  let desc := unlockDesc tryAddr tryLen
  if logAddr < desc.start ∨ desc.stop < add64 logAddr logLen then some s
  else unlockLoop (maxLockRecords + 1) s desc (s.findFirstLock desc isOwn)

/-! ## The system

Each step is what one operation does while it has the mutex. A `$lock` that waits on
the native lock of a record may come back at any time.
-/

structure Sys where
  state : State
  waiting : List LockArgs

inductive Event
  | lock (a : LockArgs)
  | woken (i : Nat)
  | unlock (logAddr logLen tryAddr tryLen : Nat)

def step (s : Sys) : Event → Option Sys
  | .lock a =>
    (lock s.state a).map fun
      | .granted state _ _ => { s with state := state }
      | .refused => s
      | .wait => { s with waiting := a :: s.waiting }
  | .woken i =>
    s.waiting[i]?.bind fun a =>
      (lockWoken s.state a).map fun
        | .granted state _ _ => { state := state, waiting := s.waiting.eraseIdx i }
        | .refused => s
        | .wait => s
  | .unlock logAddr logLen tryAddr tryLen =>
    (unlock s.state logAddr logLen tryAddr tryLen).map fun state => { s with state := state }

/-- `$output_init`. -/
def Init (s : Sys) : Prop :=
  (∃ desc, s.state = LockList.init maxLockRecords desc) ∧ s.waiting = []

/-- The ranges do not reach past the end of the address space. `$lock` checks that itself. -/
def NoWrap (_ : Sys) : Event → Prop
  | .unlock _ _ tryAddr tryLen => tryAddr + tryLen ≤ addrSpace
  | _ => True

instance (s : Sys) (e : Event) : Decidable (NoWrap s e) := by
  cases e <;> unfold NoWrap <;> infer_instance

end Athomux.LockMutex
