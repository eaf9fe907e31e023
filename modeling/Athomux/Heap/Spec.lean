import Athomux.Lib.Run
import Athomux.Lib.Arrays
import Athomux.Args

/-!
# A heap on a nest

`#heap` gives out address ranges. What is given out is recorded in a table that is kept in a page
of `:<tmp` or `:<in`.
-/

open Lib

namespace Athomux.Heap

def stateSize : Nat := 4096

/-- The table has room for as many records as fit behind `n_recs`. -/
def nRecsMax : Nat := (stateSize - 4) / 16

/-- `struct rec`. -/
structure Rec where
  addr : Nat
  len : Nat
  deriving DecidableEq, Repr

namespace Rec

def stop (r : Rec) : Nat := add64 r.addr r.len

def Has (r : Rec) (x : Nat) : Prop := r.addr ≤ x ∧ x < r.addr + r.len

instance (r : Rec) (x : Nat) : Decidable (r.Has x) := by
  unfold Has
  infer_instance

end Rec

/-- The page. -/
structure Table where
  nRecs : Nat
  recs : Nat → Rec

namespace Table

def set (t : Table) (i : Nat) (r : Rec) : Table := { t with recs := Function.update t.recs i r }

@[simp] theorem set_nRecs (t : Table) (i : Nat) (r : Rec) : (t.set i r).nRecs = t.nRecs := rfl

@[simp] theorem set_recs_self (t : Table) (i : Nat) (r : Rec) : (t.set i r).recs i = r :=
  Function.update_self _ _ _

theorem set_recs_of_ne {i j : Nat} (h : j ≠ i) (t : Table) (r : Rec) :
    (t.set i r).recs j = t.recs j :=
  Function.update_of_ne h _ _

end Table

/-! ## `$gadr` -/

/-- The new record, right behind the last one. -/
def newRec (t : Table) (rangeAddr logLen : Nat) : Rec :=
  if 0 < t.nRecs then ⟨(t.recs (t.nRecs - 1)).stop, logLen⟩
  else ⟨add64 rangeAddr stateSize, logLen⟩

def addRec (t : Table) (r : Rec) : Table := { t.set t.nRecs r with nRecs := t.nRecs + 1 }

/-! ## `$padr` -/

/-- The binary search for the first record to be affected. -/
def search (recs : Nat → Rec) (logAddr : Nat) : Nat → Nat → Nat → Nat
  | 0, left, _ => left
  | fuel + 1, left, right =>
    if left < right then
      let mid := (left + right) / 2
      if (recs mid).addr ≤ logAddr ∧ logAddr < (recs mid).stop then mid
      else if (recs mid).addr < logAddr then search recs logAddr fuel (mid + 1) right
      else search recs logAddr fuel left mid
    else left

/-- Where the records end that are completely inside of the range. `none` is a read behind the
page: nothing stops the loop at the last record. -/
def scan (recs : Nat → Rec) (stop : Nat) : Nat → Nat → Option Nat
  | 0, _ => none
  | fuel + 1, right =>
    if nRecsMax ≤ right then none
    else if (recs right).stop ≤ stop then scan recs stop fuel (right + 1)
    else some right

/-- The lower `k` of 8 bytes come from `new`. -/
def lowBytes (k old new : Nat) : Nat := old / 256 ^ k * 256 ^ k + new % 256 ^ k

/-- The first `k` of the 16 bytes come from `new`. -/
def Rec.mix (k : Nat) (old new : Rec) : Rec :=
  if k ≤ 8 then ⟨lowBytes k old.addr new.addr, old.len⟩
  else ⟨new.addr, lowBytes (k - 8) old.len new.len⟩

/-- `memmove(&recs[left], &recs[right], count)`: `count` bytes, not records. -/
def moveBytes (recs : Nat → Rec) (left right count : Nat) : Nat → Rec := fun j =>
  if j = left + count / 16 ∧ 0 < count % 16 then
    (recs j).mix (count % 16) (recs (j - left + right))
  else memmove recs left right (count / 16) j

/-- A record that reaches over both ends of the range is split. -/
def split (t : Table) (left logAddr stop : Nat) : Table :=
  let r := t.recs left
  let t : Table := ⟨t.nRecs + 1, memmove t.recs (left + 1) left (t.nRecs - left)⟩
  let t := t.set (left + 1) ⟨stop, sub64 r.len (sub64 stop r.addr)⟩
  t.set left ⟨r.addr, logAddr - r.addr⟩

/-- The record over the lower end is shortened, and the next one is the first to be deleted. -/
def shortenLower (t : Table) (left logAddr : Nat) : Table × Nat :=
  let r := t.recs left
  if r.addr < logAddr then
    (t.set left ⟨r.addr, logAddr - r.addr⟩, left + 1)
  else (t, left)

/-- The records from `left` up to `right` are deleted. -/
def deleteRecs (t : Table) (left right : Nat) : Option Table :=
  if left < right then
    if t.nRecs < right then none
    else some { nRecs := t.nRecs - (right - left)
                recs := moveBytes t.recs left right (t.nRecs - right) }
  else some t

/-- The record over the upper end is shortened. -/
def shortenUpper (t : Table) (left stop : Nat) : Table :=
  let r := t.recs left
  if r.addr < stop then
    t.set left ⟨stop, sub64 r.len (sub64 stop r.addr)⟩
  else t

/-- What `$padr` does to the table. It may be refused for want of a free record. -/
def release (t : Table) (logAddr logLen : Nat) : Option (Except Unit Table) :=
  let stop := add64 logAddr logLen
  let left := search t.recs logAddr t.nRecs 0 t.nRecs
  let r := t.recs left
  if t.nRecs ≤ left then some (.ok t)
  else if r.addr < logAddr ∧ stop < r.stop then
    if nRecsMax ≤ t.nRecs then some (.error ()) else some (.ok (split t left logAddr stop))
  else if r.addr < stop then do
    let (t, left) := shortenLower t left logAddr
    let right ← scan t.recs stop (nRecsMax + 1) left
    let t ← deleteRecs t left right
    return .ok (shortenUpper t left stop)
  else some (.ok t)

/-! ## The system -/

/-- A range that was returned by `$gadr`, and what has been given back since. -/
structure Alloc where
  addr : Nat
  len : Nat
  back : List Rec
  deriving DecidableEq

/-- `x` belongs to the range and was not yet given back. -/
def Alloc.Has (a : Alloc) (x : Nat) : Prop :=
  (a.addr ≤ x ∧ x < a.addr + a.len) ∧ ∀ r ∈ a.back, ¬ r.Has x

/-- `tmp` says that `:<tmp` is connected. `places` are the addresses at which the page was read
or written back, newest first. -/
structure Sys where
  tmp : Bool
  rangeAddr : Nat
  rangeLen : Nat
  table : Table
  allocs : List Alloc
  places : List Nat

/-- The answer of `$get` for the page. -/
structure Got where
  ok : Bool
  stateAddr : Nat
  stateLen : Nat
  deriving DecidableEq

def Got.usable (g : Got) : Bool := g.ok && stateSize ≤ g.stateLen

inductive Event
  | gadr (logLen : Nat) (got : Got) (putOk : Bool)
  | padr (logAddr logLen : Nat) (got : Got) (putOk : Bool)
  deriving DecidableEq

/-- The address of the `$get`. -/
def Sys.getAddr (s : Sys) : Nat := if s.tmp then s.rangeAddr else 0

/-- The address of the `$put` of `$gadr`. -/
def Sys.putAddr (s : Sys) (got : Got) : Nat := if s.tmp then s.rangeAddr else got.stateAddr

/-- `$gadr`. -/
def gadr (s : Sys) (logLen : Nat) (got : Got) (putOk : Bool) : Sys :=
  let s := { s with places := s.getAddr :: s.places }
  if !got.usable then s
  else if nRecsMax ≤ s.table.nRecs then s
  else
    let r := newRec s.table s.rangeAddr logLen
    { s with
      table := addRec s.table r
      places := s.putAddr got :: s.places
      allocs := if putOk then ⟨r.addr, r.len, []⟩ :: s.allocs else s.allocs }

/-- `$padr`. `none` is an access outside of the page. -/
def padr (s : Sys) (logAddr logLen : Nat) (got : Got) (putOk : Bool) : Option Sys :=
  if logLen = 0 then some s
  else
    let s := { s with places := s.getAddr :: s.places }
    if !got.usable then some s
    else
      (release s.table logAddr logLen).map fun
        | .error () => s
        | .ok table =>
          let back := fun a : Alloc => { a with back := ⟨logAddr, logLen⟩ :: a.back }
          { s with
            table := table
            places := s.getAddr :: s.places
            allocs := if putOk then s.allocs.map back else s.allocs }

def step (s : Sys) : Event → Option Sys
  | .gadr logLen got putOk => some (gadr s logLen got putOk)
  | .padr logAddr logLen got putOk => padr s logAddr logLen got putOk

/-- The page that was created and cleared is at 0 of `:<tmp` or at `range_addr` of `:<in`. -/
def Init (s : Sys) : Prop :=
  (s.rangeAddr = 0 → s.table.nRecs = 0) ∧ s.allocs = [] ∧ s.places = []

end Athomux.Heap
