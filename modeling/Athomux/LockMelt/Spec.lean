import Athomux.LockType
import Athomux.LockList.Spec
import Athomux.Args

/-!
# Locks of mandates

`#lock_cache` and `#lock_mand` melt a lock into the locks that the same mandate has
already. The loop that does this, and the removal of own locks, are the same in both.
-/

open Lib

namespace Athomux.LockMelt

/-- `mandate` and `flags`: the bits 0..3 are the type, bit 4 is `obligatory`. -/
structure Tag where
  mandate : Nat
  type : LockType
  obligatory : Bool
  deriving DecidableEq, Repr

abbrev Desc := LockDesc Tag

variable {n : Nat}

/-! ## Requests -/

/-- The fields of `struct args` that `$lock` reads. -/
structure LockArgs where
  mandate : Nat
  logAddr : Nat
  logLen : Nat
  tryAddr : Nat
  tryLen : Nat
  dataLock : LockT
  addrLock : LockT
  action : Action
  deriving DecidableEq

/-- `obl_start` up to `obl_end`. -/
def LockArgs.obl (a : LockArgs) : Desc :=
  ⟨a.logAddr, add64 a.logAddr a.logLen, ⟨a.mandate, ⟨a.dataLock, a.addrLock⟩, true⟩⟩

/-- `opt_start` up to `opt_end`. -/
def LockArgs.opt (a : LockArgs) : Desc :=
  ⟨a.tryAddr, add64 a.tryAddr a.tryLen, ⟨a.mandate, ⟨a.dataLock, a.addrLock⟩, true⟩⟩

/-- The two checks of `$lock`. -/
def lockCheck (a : LockArgs) : Bool :=
  !(a.opt.stop < a.opt.start || a.obl.stop < a.obl.start) &&
  !(a.obl.start < a.opt.start || a.opt.stop < a.obl.stop)

def noEffect (a : LockArgs) : Bool :=
  a.opt.stop - a.opt.start == 0 || (a.dataLock == .none && a.addrLock == .none)

/-! ## Comparisons -/

def isConflict (lock desc : Desc) : Bool :=
  lock.tag.mandate != desc.tag.mandate && desc.tag.type.conflicts lock.tag.type

def isOwn (lock desc : Desc) : Bool := lock.tag.mandate == desc.tag.mandate

/-- `is_weaker_or_equal` compares the address type with the data type of `desc`. -/
def isWeakerOrEqual (lock desc : Desc) : Bool :=
  lock.tag.type.data ≤ desc.tag.type.data && lock.tag.type.addr ≤ desc.tag.type.data &&
    (!lock.tag.obligatory || desc.tag.obligatory)

def isEquallyStrong (lock desc : Desc) : Bool := lock.tag.type == desc.tag.type

def isStrongerOrEqual (lock desc : Desc) : Bool :=
  desc.tag.type.data ≤ lock.tag.type.data && desc.tag.type.addr ≤ lock.tag.type.addr &&
    (!desc.tag.obligatory || lock.tag.obligatory)

def strongest (lock desc : Tag) : Tag where
  mandate := lock.mandate
  type := ⟨lock.type.data.max desc.type.data, lock.type.addr.max desc.type.addr⟩
  obligatory := lock.obligatory || desc.obligatory

/-- `set_strongest_lock_type`. -/
def setStrongest (s : LockList Tag n) (lock : Nat) (desc : Desc) : LockList Tag n :=
  s.setLockDesc lock { s.desc lock with tag := strongest (s.desc lock).tag desc.tag }

/-! ## Melting -/

/-- The gap between the start of `desc` and `lock`. -/
def fillGap (s : LockList Tag n) (desc : Desc) (prevLock : Option Nat) (lock : Nat) :
    Option (LockList Tag n) :=
  if desc.start < (s.desc lock).start then
    if isWeakerOrEqual (s.desc lock) desc then
      some (s.setLockDesc lock { s.desc lock with start := desc.start })
    else
      match prevLock with
      | some prev =>
        if isEquallyStrong (s.desc prev) desc then
          some (s.setLockDesc prev { s.desc prev with stop := (s.desc lock).start })
        else s.addNew { desc with stop := (s.desc lock).start }
      | none => s.addNew { desc with stop := (s.desc lock).start }
  else some s

/-- A lock that goes on behind the end of `desc` and is weaker is split there. -/
def splitEnd (s : LockList Tag n) (desc : Desc) (lock : Nat) : Option (LockList Tag n) :=
  if desc.stop < (s.desc lock).stop ∧ !isStrongerOrEqual (s.desc lock) desc then
    s.splitLockRec lock { s.desc lock with stop := desc.stop }
      { s.desc lock with start := desc.stop }
  else some s

/-- The loop of `melt_lock_into_list`, and `desc` as it is left. -/
def meltLoop : Nat → LockList Tag n → Desc → Option Nat → Option Nat →
    Option (LockList Tag n × Desc)
  | fuel + 1, s, desc, prevLock, some lock => do
    let s ← fillGap s desc prevLock lock
    let s ← splitEnd s desc lock
    let s := setStrongest s lock desc
    let desc := { desc with start := (s.desc lock).stop }
    if desc.stop ≤ desc.start then some (s, desc)
    else meltLoop fuel s desc (some lock) (s.findNextLockFrom (some lock) desc isOwn)
  | _, s, desc, _, _ => some (s, desc)

/-- The space behind the last own lock. -/
def meltTail (s : LockList Tag n) (desc : Desc) : Option (LockList Tag n) :=
  if desc.start < desc.stop then s.addNew desc else some s

/-! ## Removing own locks -/

def removeLoop (desc : Desc) : Nat → LockList Tag n → Option Nat → Option (LockList Tag n)
  | fuel + 1, s, some lock => do
    let nextLock := s.links.next lock
    let s ← s.keepLower lock desc.start
    let s ← s.keepUpper lock desc.stop
    let s := (s.removeLockRec lock).freeLockRec lock
    removeLoop desc fuel s (s.findNextLockFrom nextLock desc isOwn)
  | _, s, _ => some s

/-- `remove_own_locks`. -/
def removeOwnLocks (s : LockList Tag n) (desc : Desc) : Option (LockList Tag n) :=
  removeLoop desc (n + 1) s (s.findFirstLock desc isOwn)

end Athomux.LockMelt
