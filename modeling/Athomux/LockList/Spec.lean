import Athomux.Lib.Links
import Athomux.LockNative.Words

/-!
# The list of lock records

`lock_cache`, `lock_mand` and `lock_mutex` keep their locks in the same way: the
records of a fixed storage are either in a doubly linked list sorted by start, or in
a singly linked free list. A record in the list has a native lock to wait on.

`struct lock_rec` is split by fields here, and a reference is an index of the
storage. What a descriptor has besides its range is the type `τ`.
-/

namespace Athomux

open Lib

/-- `struct lock_desc`: the addresses from `start` up to `stop`, which is not locked. -/
structure LockDesc (τ : Type) where
  start : Nat
  stop : Nat
  tag : τ
  deriving DecidableEq, Repr

namespace LockDesc

variable {τ : Type}

def Has (d : LockDesc τ) (x : Nat) : Prop := d.start ≤ x ∧ x < d.stop

def Overlaps (d e : LockDesc τ) : Prop := d.start < e.stop ∧ e.start < d.stop

instance (d : LockDesc τ) (x : Nat) : Decidable (d.Has x) := inferInstanceAs (Decidable (_ ∧ _))

instance (d e : LockDesc τ) : Decidable (d.Overlaps e) := inferInstanceAs (Decidable (_ ∧ _))

end LockDesc

/-- `struct brick_state` with `n` records, and `##lock_imp`. -/
structure LockList (τ : Type) (n : Nat) where
  /-- `lock_starting_first`, `lock_starting_last`, `next_start` and `prev_start`. -/
  links : Links Nat
  freeLockRecs : Option Nat
  desc : Nat → LockDesc τ
  nativeLock : Nat → Nat
  lockImp : LockNative

namespace LockList

variable {τ : Type} {n : Nat}

/-! ## Records -/

/-- The storage as `$output_init` leaves it: all records are free, in order. -/
def init (n : Nat) (desc : Nat → LockDesc τ) : LockList τ n where
  links := ⟨none, none, fun i => if i + 1 < n then some (i + 1) else none, fun _ => none⟩
  freeLockRecs := if 0 < n then some 0 else none
  desc := desc
  nativeLock := fun _ => 0
  lockImp := LockNative.init

/-- `new_lock_rec`. It is fatal to run out of records. -/
def newLockRec (s : LockList τ n) : Option (Nat × LockList τ n) :=
  match s.freeLockRecs with
  | none => none
  | some lock => some (lock, { s with freeLockRecs := s.links.next lock })

def freeLockRec (s : LockList τ n) (lock : Nat) : LockList τ n :=
  { s with
    links := (s.links.setNext lock s.freeLockRecs).setPrev lock none
    freeLockRecs := some lock }

def setLockDesc (s : LockList τ n) (lock : Nat) (d : LockDesc τ) : LockList τ n :=
  { s with desc := Function.update s.desc lock d }

/-- `copy_lock_rec`. -/
def copyLockRec (s : LockList τ n) (lock : Nat) : Option (Nat × LockList τ n) :=
  s.newLockRec.map fun (copy, s) => (copy, s.setLockDesc copy (s.desc lock))

/-- `add_lock_rec`. A record that gets no native lock stays outside of the list. -/
def addLockRec (s : LockList τ n) (lock : Nat) : LockList τ n :=
  let scan := Links.walk s.links.next
    (fun r => decide ((s.desc lock).start ≤ (s.desc r).start)) n s.links.first
  match s.lockImp.gadr with
  | none => s
  | some (native, imp) =>
    { s with
      lockImp := imp
      nativeLock := Function.update s.nativeLock lock native
      links := s.links.insertBefore lock scan }

/-- `remove_lock_rec`. -/
def removeLockRec (s : LockList τ n) (lock : Nat) : LockList τ n :=
  { s with
    links := s.links.unlink lock
    lockImp := (s.lockImp.padr (s.nativeLock lock)).getD s.lockImp }

/-- `new_lock_rec`, a descriptor, `add_lock_rec`. -/
def addNew (s : LockList τ n) (d : LockDesc τ) : Option (LockList τ n) := do
  let (lock, s) ← s.newLockRec
  return (s.setLockDesc lock d).addLockRec lock

/-- A record of the list is split: `lock` goes on with `kept`, a new record gets `rest`. -/
def splitLockRec (s : LockList τ n) (lock : Nat) (kept rest : LockDesc τ) :
    Option (LockList τ n) := do
  let (newLock, s) ← s.newLockRec
  let s := s.removeLockRec lock
  let s := s.setLockDesc newLock rest
  let s := s.setLockDesc lock kept
  return (s.addLockRec lock).addLockRec newLock

/-- What `$unlock` keeps below `x` of a lock that it takes away. -/
def keepLower (s : LockList τ n) (lock x : Nat) : Option (LockList τ n) :=
  if (s.desc lock).start < x then do
    let (lowerPart, s) ← s.copyLockRec lock
    let s := s.setLockDesc lowerPart { s.desc lowerPart with stop := x }
    return s.addLockRec lowerPart
  else some s

/-- What `$unlock` keeps from `x` on. -/
def keepUpper (s : LockList τ n) (lock x : Nat) : Option (LockList τ n) :=
  if x < (s.desc lock).stop then do
    let (upperPart, s) ← s.copyLockRec lock
    let s := s.setLockDesc upperPart { s.desc upperPart with start := x }
    return s.addLockRec upperPart
  else some s

/-! ## Searches -/

/-- The loop of `find_next_lock_from`: `none` is `NULL_REF`. -/
def findLoop (s : LockList τ n) (d : LockDesc τ) (requirement : LockDesc τ → LockDesc τ → Bool) :
    Nat → Option Nat → Option Nat
  | fuel + 1, some result =>
    if d.start < (s.desc result).stop then
      if d.stop ≤ (s.desc result).start then none
      else if requirement (s.desc result) d then some result
      else findLoop s d requirement fuel (s.links.next result)
    else findLoop s d requirement fuel (s.links.next result)
  | _, _ => none

def findNextLockFrom (s : LockList τ n) (lock : Option Nat) (d : LockDesc τ)
    (requirement : LockDesc τ → LockDesc τ → Bool) : Option Nat :=
  s.findLoop d requirement n lock

def findFirstLock (s : LockList τ n) (d : LockDesc τ)
    (requirement : LockDesc τ → LockDesc τ → Bool) : Option Nat :=
  s.findNextLockFrom s.links.first d requirement

/-- Below the obligatory part the optional part is cut upwards, else downwards. -/
def cutAt (oblStart : Nat) (c d : LockDesc τ) : LockDesc τ :=
  if c.stop ≤ oblStart then { d with start := c.stop } else { d with stop := c.start }

/-- The loop of `$lock` that cuts the optional part at each conflict, from `conflictor` on. -/
def cutLoop (s : LockList τ n) (oblStart : Nat) (isConflict : LockDesc τ → LockDesc τ → Bool) :
    Nat → Option Nat → LockDesc τ → LockDesc τ
  | fuel + 1, some conflictor, d =>
    let d := cutAt oblStart (s.desc conflictor) d
    s.cutLoop oblStart isConflict fuel (s.findNextLockFrom (some conflictor) d isConflict) d
  | _, _, d => d

/-- The part of `opt` that `$lock` grants when nothing conflicts with `obl`. -/
def cutOptional (s : LockList τ n) (obl opt : LockDesc τ)
    (isConflict : LockDesc τ → LockDesc τ → Bool) : LockDesc τ :=
  if opt.start < obl.start ∨ obl.stop < opt.stop then
    s.cutLoop obl.start isConflict (n + 1) (s.findFirstLock opt isConflict) opt
  else obl

/-! ## What the list holds -/

/-- The active records, from `lock_starting_first` on. -/
def active (s : LockList τ n) : List Nat := collect s.links.next n s.links.first

/-- The free records, from `free_lock_recs` on. -/
def free (s : LockList τ n) : List Nat := collect s.links.next n s.freeLockRecs

/-- The records of the list with what they lock. -/
def entries (s : LockList τ n) : List (Nat × LockDesc τ) := s.active.map fun r => (r, s.desc r)

/-- The locks in the list. -/
def records (s : LockList τ n) : List (LockDesc τ) := s.active.map s.desc

end LockList

end Athomux
