import Athomux.Lib.Run
import Athomux.LockMelt.Spec
import Athomux.Args

/-!
# An outpost of the lock manager

`#lock_cache` keeps the locks of its clients itself. A record with the mandate of the
brick is a native record: its addresses are still owned by the lock manager behind
`:<in`, and a client that wants them makes the brick ask there. `$retract` makes the
brick lock a range in its own name and give it back.
-/

open Lib

namespace Athomux.LockCache

open LockMelt

def maxLockRecords : Nat := 512

def maxLockManagerRecords : Nat := 32

abbrev LockRecs := LockList Tag maxLockRecords

/-! ## Melting -/

/-- A first lock that starts below `desc` and is weaker is split there. -/
def splitFirst (s : LockRecs) (desc : Desc) (lock : Nat) : Option LockRecs :=
  if (s.desc lock).start < desc.start ∧ !isStrongerOrEqual (s.desc lock) desc then
    s.splitLockRec lock { s.desc lock with start := desc.start }
      { s.desc lock with stop := desc.start }
  else some s

/-- `melt_lock_into_list`. -/
def meltLockIntoList (s : LockRecs) (desc : Desc) : Option LockRecs :=
  match s.findFirstLock desc isOwn with
  | none => meltTail s desc
  | some lock => do
    let s ← splitFirst s desc lock
    let (s, desc) ← meltLoop (maxLockRecords + 1) s desc none (some lock)
    meltTail s desc

/-! ## The state of the brick -/

inductive OpType
  | lock
  | unlock
  deriving DecidableEq, Repr

/-- `struct lock_manager_rec`. -/
structure ManagerRec where
  type : OpType
  start : Nat
  stop : Nat
  nativeLock : Nat
  deriving DecidableEq, Repr

/-- Where an operation is between two steps. `loop` marks the `$lock` that `:>loop` calls. -/
inductive Task
  /-- In `wait_for_lock`. -/
  | waiting (a : LockArgs) (loop : Bool) (native : Nat)
  /-- In `wait_for_op_conflicts`, before a `$lock` goes out. -/
  | opLock (a : LockArgs) (loop : Bool) (start stop native : Nat)
  /-- In `:<in$lock`. -/
  | lockSent (a : LockArgs) (loop : Bool) (start stop : Nat)
  /-- Back from it with `spec_addr` and `spec_len`, before `lock_mutex`. -/
  | lockAnswered (a : LockArgs) (loop : Bool) (start stop specAddr specLen : Nat)
  /-- `:>loop` after its `$lock`, before `lock_mutex`. -/
  | retracted (start stop : Nat)
  /-- In `wait_for_op_conflicts`, before an `$unlock` goes out. -/
  | opUnlock (start stop native : Nat)
  /-- In `:<in$unlock`. -/
  | unlockSent (start stop : Nat)
  /-- Back from it, before `lock_mutex`. -/
  | unlockAnswered (start stop : Nat)
  deriving DecidableEq

/-- The brick, the operations in it, and what the lock manager has granted (`true`) and
taken back, newest first. -/
structure Sys where
  /-- `@#._mand`. -/
  mand : Nat
  list : LockRecs
  managerRecs : List ManagerRec
  tasks : List Task
  manager : List (Bool × Nat × Nat)

/-- The cache holds the address at the lock manager. -/
def holds : List (Bool × Nat × Nat) → Nat → Bool
  | [], _ => false
  | (granted, start, stop) :: l, x => if start ≤ x ∧ x < stop then granted else holds l x

/-! ## Records of operations at the lock manager -/

/-- The test in `wait_for_op_conflicts`. -/
def opConflict (type : OpType) (start stop : Nat) (p : ManagerRec) : Bool :=
  type != p.type && start < p.stop && p.start < stop

/-- `add_manager_lock_record`. A check that fails here leaves the mutex locked for ever. -/
def addManagerRec (s : Sys) (type : OpType) (start stop : Nat) : Option Sys :=
  if maxLockManagerRecords ≤ s.managerRecs.length then none
  else
    match s.list.lockImp.gadr with
    | none => none
    | some (native, imp) => some { s with
        list := { s.list with lockImp := imp }
        managerRecs := s.managerRecs ++ [⟨type, start, stop, native⟩] }

/-- The record that `remove_manager_lock_record` looks for. -/
def isRec (type : OpType) (start stop : Nat) (p : ManagerRec) : Bool :=
  p.type == type && p.start == start && p.stop == stop

/-- `remove_manager_lock_record`. It is fatal to find no record. -/
def removeManagerRec (s : Sys) (type : OpType) (start stop : Nat) : Option Sys := do
  let p ← s.managerRecs.find? (isRec type start stop)
  let imp ← s.list.lockImp.padr p.nativeLock
  return { s with
    list := { s.list with lockImp := imp }
    managerRecs := s.managerRecs.eraseP (isRec type start stop) }

/-! ## `$lock` -/

def Sys.add (s : Sys) (t : Task) : Sys := { s with tasks := t :: s.tasks }

/-- `$lock` returns with success: a client goes on its way, `:>loop` goes on here. -/
def finish (s : Sys) (loop : Bool) (tryAddr tryLen : Nat) : Sys :=
  if loop then s.add (.retracted tryAddr (add64 tryAddr tryLen)) else s

/-- The way is free. -/
def grant (s : Sys) (a : LockArgs) (loop : Bool) : Option Sys :=
  let desc := s.list.cutOptional a.obl a.opt isConflict
  if desc.start < desc.stop ∧ a.action ≠ .ask then do
    let list ← meltLockIntoList s.list desc
    return finish { s with list := list } loop desc.start (desc.stop - desc.start)
  else some (finish s loop desc.start (desc.stop - desc.start))

/-- The `$lock` goes out to the lock manager. -/
def sendLock (s : Sys) (a : LockArgs) (loop : Bool) (start stop : Nat) : Option Sys :=
  (addManagerRec s .lock start stop).map fun s => s.add (.lockSent a loop start stop)

/-- The part of `conflictor` that has to be requested. -/
def requestStart (conflictor desc : Desc) : Nat := max conflictor.start desc.start

def requestStop (conflictor desc : Desc) : Nat := min conflictor.stop desc.stop

/-- `conflictor` is native: it is requested from the lock manager. -/
def askManager (s : Sys) (a : LockArgs) (loop : Bool) (conflictor : Desc) : Option Sys :=
  let start := requestStart conflictor a.obl
  let stop := requestStop conflictor a.obl
  match s.managerRecs.find? (opConflict .lock start stop) with
  | some p => some (s.add (.opLock a loop start stop p.nativeLock))
  | none => sendLock s a loop start stop

/-- `$lock` with the mutex, from the search for a conflict on. -/
def search (s : Sys) (a : LockArgs) (loop : Bool) : Option Sys :=
  match s.list.findFirstLock a.obl isConflict with
  | none => grant s a loop
  | some conflictor =>
    if 0 < a.obl.stop - a.obl.start then
      if a.action ≠ .wait then some s
      else if (s.list.desc conflictor).tag.mandate ≠ s.mand then
        some (s.add (.waiting a loop (s.list.nativeLock conflictor)))
      else askManager s a loop (s.list.desc conflictor)
    -- An empty obligatory part inside of a conflicting lock: nothing is locked.
    else some (finish s loop a.logAddr 0)

/-- `$lock` up to its first wait. -/
def lock (s : Sys) (a : LockArgs) (loop : Bool) : Option Sys :=
  if !lockCheck a then some s
  else if noEffect a then some (finish s loop a.tryAddr a.tryLen)
  else search s a loop

/-! ## `$retract` and `$unlock` -/

/-- The call of `:>out$lock` in `:>loop`. -/
def retractArgs (mand logAddr logLen : Nat) : LockArgs :=
  ⟨mand, logAddr, logLen, logAddr, logLen, .write, .write, .wait⟩

/-- The `$unlock` goes out to the lock manager. -/
def sendUnlock (s : Sys) (start stop : Nat) : Option Sys :=
  (addManagerRec s .unlock start stop).map fun s => s.add (.unlockSent start stop)

/-- `:>loop` after its `$lock` has succeeded. -/
def release (s : Sys) (start stop : Nat) : Option Sys :=
  match s.managerRecs.find? (opConflict .unlock start stop) with
  | some p => some (s.add (.opUnlock start stop p.nativeLock))
  | none => sendUnlock s start stop

def removeDesc (mandate start stop : Nat) (obligatory : Bool) : Desc :=
  ⟨start, stop, ⟨mandate, ⟨.write, .write⟩, obligatory⟩⟩

/-- `$unlock`. -/
def unlock (s : Sys) (mandate logAddr logLen tryAddr tryLen : Nat) : Option Sys :=
  let desc := removeDesc mandate tryAddr (add64 tryAddr tryLen) true
  if logAddr < desc.start ∨ desc.stop < add64 logAddr logLen then some s
  else (removeOwnLocks s.list desc).map fun list => { s with list := list }

/-- The lock manager has granted `specLen` bytes from `specAddr` on. -/
def takeGrant (s : Sys) (start stop specAddr specLen : Nat) : Option Sys := do
  let s ← removeManagerRec s .lock start stop
  let list ← removeOwnLocks s.list (removeDesc s.mand specAddr (add64 specAddr specLen) false)
  return { s with list := list }

/-! ## The system

Each step is what one operation does while it has the mutex, or an answer of the lock
manager. An operation that waits on a native lock may come back at any time, as from
`pthread_cond_wait`.
-/

inductive Event
  | lock (a : LockArgs)
  | retract (mandate logAddr logLen : Nat)
  | unlock (mandate logAddr logLen tryAddr tryLen : Nat)
  /-- `:<in$lock` of task `i` returns. -/
  | answer (i : Nat) (ok : Bool) (specAddr specLen : Nat)
  /-- `:<in$unlock` of task `i` returns. It always succeeds, or it is fatal. -/
  | released (i : Nat)
  /-- Task `i` gets the mutex. -/
  | resume (i : Nat)
  deriving DecidableEq

/-- A task goes on with the mutex. -/
def resume (s : Sys) : Task → Option Sys
  | .waiting a loop _ => search s a loop
  | .opLock a loop start stop _ => sendLock s a loop start stop
  | .lockAnswered a loop start stop specAddr specLen =>
    (takeGrant s start stop specAddr specLen).bind fun s => search s a loop
  | .retracted start stop => release s start stop
  | .opUnlock start stop _ => sendUnlock s start stop
  | .unlockAnswered start stop => removeManagerRec s .unlock start stop
  | .lockSent .. | .unlockSent .. => none

def Sys.drop (s : Sys) (i : Nat) : Sys := { s with tasks := s.tasks.eraseIdx i }

def step (s : Sys) : Event → Option Sys
  | .lock a => lock s a false
  | .retract mandate logAddr logLen =>
    if mandate ≠ s.mand then lock s (retractArgs s.mand logAddr logLen) true else some s
  | .unlock mandate logAddr logLen tryAddr tryLen => unlock s mandate logAddr logLen tryAddr tryLen
  | .answer i ok specAddr specLen =>
    match s.tasks[i]? with
    | some (.lockSent a loop start stop) =>
      if ok then
        some { (s.drop i).add (.lockAnswered a loop start stop specAddr specLen) with
          manager := (true, specAddr, add64 specAddr specLen) :: s.manager }
      -- The record of the operation is left behind.
      else some (s.drop i)
    | _ => none
  | .released i =>
    match s.tasks[i]? with
    | some (.unlockSent start stop) =>
      some { (s.drop i).add (.unlockAnswered start stop) with
        manager := (false, start, stop) :: s.manager }
    | _ => none
  | .resume i => s.tasks[i]?.bind fun t => resume (s.drop i) t

/-- The last address is never locked. -/
def allStop : Nat := addrSpace - 1

/-- `$output_init`: all is owned by the lock manager, unless `lock_all_on_init` is given. -/
def outputInit (mand : Nat) (lockAllOnInit : Bool) (desc : Nat → Desc) : Option Sys := do
  let list ← (LockList.init maxLockRecords desc).addNew (removeDesc mand 0 allStop false)
  if lockAllOnInit then
    let list ← removeOwnLocks list (removeDesc mand 0 allStop false)
    return ⟨mand, list, [], [], [(true, 0, allStop)]⟩
  else return ⟨mand, list, [], [], []⟩

def Init (s : Sys) : Prop := ∃ mand lockAllOnInit desc, outputInit mand lockAllOnInit desc = some s

end Athomux.LockCache
