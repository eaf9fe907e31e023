import Athomux.Args
import Athomux.Lib.Links
import Athomux.Lib.PartialStore
import Athomux.Lib.Run

/-!
# `device_mem_nest_ulinux`

Blocks of memory from `malloc`, each for a range of addresses, in a doubly linked list sorted by
address. `struct mem_block` is split by fields here, and a pointer is a number.
-/

namespace Athomux

open Lib

/-- The header of `struct mem_block`: two pointers, an address and a length. -/
def sizeofMemBlock : Nat := 32

structure DeviceMem where
  blockList : Option Nat
  next : Nat → Option Nat
  last : Nat → Option Nat
  logAddr : Nat → Nat
  logLen : Nat → Nat
  data : Nat → Nat → UInt8
  /-- What `malloc` has given and `free` has not got back. -/
  allocated : List Nat

namespace DeviceMem

/-- `$output_init`. -/
def init : DeviceMem where
  blockList := none
  next := fun _ => none
  last := fun _ => none
  logAddr := fun _ => 0
  logLen := fun _ => 0
  data := fun _ _ => 0
  allocated := []

variable (s : DeviceMem)

/-- `log_addr + log_len`. -/
def blockEnd (block : Nat) : Nat := add64 (s.logAddr block) (s.logLen block)

/-! ## `$create` and `$delete` -/

/-- The loop of `$create`, to `prev` and `iter`. `none` is the failed check. -/
def createLoop (addr len : Nat) : Nat → Option Nat → Option Nat → Option (Option Nat × Option Nat)
  | fuel + 1, prev, some iter =>
    if s.logAddr iter < add64 addr len then
      if addr < s.blockEnd iter then none
      else createLoop addr len fuel (some iter) (s.next iter)
    else some (prev, some iter)
  | _, prev, iter => some (prev, iter)

/-- `block->next = next`, or `block_list = next` when there is no block. -/
def setNext (block next : Option Nat) : DeviceMem :=
  match block with
  | some block => { s with next := Function.update s.next block next }
  | none => { s with blockList := next }

/-- `block->last = last`, if there is a block. -/
def setLast (block last : Option Nat) : DeviceMem :=
  match block with
  | some block => { s with last := Function.update s.last block last }
  | none => s

/-- The new block goes between `prev` and `iter`. -/
def link (new : Nat) (prev iter : Option Nat) : DeviceMem :=
  let s := (s.setNext (some new) iter).setLast (some new) prev
  (s.setLast iter (some new)).setNext prev (some new)

/-- `new` is what `malloc` returns and `junk` is in the memory that it returns. There is no result
when the header does not fit into what was asked for, and when `malloc` returns what is in use. -/
def create (addr len : Nat) (clear : Bool) (new : Option Nat) (junk : Nat → UInt8) :
    Option (Bool × DeviceMem) :=
  match s.createLoop addr len s.allocated.length none s.blockList with
  | none => some (false, s)
  | some (prev, iter) =>
    match new with
    | none => some (false, s)
    | some new =>
      if new ∈ s.allocated ∨ add64 sizeofMemBlock len < sizeofMemBlock then none
      else
        let s := { s with
          allocated := new :: s.allocated
          data := Function.update s.data new (if clear then fun _ => 0 else junk)
          logAddr := Function.update s.logAddr new addr
          logLen := Function.update s.logLen new len }
        some (true, s.link new prev iter)

/-- What the loop of `$delete` ends with. -/
inductive Found
  | block (iter : Nat)
  | mismatch
  | hole
  deriving DecidableEq, Repr

def deleteLoop (addr len : Nat) : Nat → Option Nat → Found
  | fuel + 1, some iter =>
    if s.logAddr iter < add64 addr len then
      if addr < s.blockEnd iter then
        if s.logAddr iter = addr ∧ s.logLen iter = len then .block iter else .mismatch
      else deleteLoop addr len fuel (s.next iter)
    else .hole
  | _, _ => .hole

def unlink (iter : Nat) : DeviceMem :=
  let s := s.setNext (s.last iter) (s.next iter)
  s.setLast (s.next iter) (s.last iter)

/-- `free`. -/
def free (iter : Nat) : DeviceMem := { s with allocated := s.allocated.erase iter }

def delete (addr len : Nat) : Bool × DeviceMem :=
  match s.deleteLoop addr len s.allocated.length s.blockList with
  | .block iter => (true, (s.unlink iter).free iter)
  | .mismatch => (false, s)
  | .hole => (true, s)

/-! ## `$get` and `$trans` -/

/-- The first block that ends behind `addr`. -/
def findBlock (addr : Nat) : Option Nat :=
  Links.walk s.next (fun iter => decide (addr < s.blockEnd iter)) s.allocated.length s.blockList

/-- A block, the offset in its `data` that `phys_addr` is at, and `phys_len`. -/
def get (addr len : Nat) : Option (Nat × Nat × Nat) :=
  match s.findBlock addr with
  | none => none
  | some iter =>
    if s.logAddr iter ≤ addr then
      let cutLen :=
        if s.blockEnd iter < add64 addr len then sub64 (s.blockEnd iter) addr else len
      some (iter, sub64 addr (s.logAddr iter), cutLen)
    else none

/-- A transfer that goes on: what is in the blocks, what is in the buffer, and the rest. -/
structure Transfer where
  data : Nat → Nat → UInt8
  buf : Nat → UInt8
  logAddr : Nat
  logLen : Nat
  /-- `phys_addr`, from the start of the buffer. -/
  pos : Nat

def memmove (dst : Nat → UInt8) (dstPos : Nat) (src : Nat → UInt8) (srcPos n : Nat) : Nat → UInt8 :=
  fun i => if dstPos ≤ i ∧ i < dstPos + n then src (srcPos + (i - dstPos)) else dst i

/-- `memmove`, and what is advanced behind it. There is no result when it leaves the block, or the
`bufLen` bytes of the buffer. -/
def move (dir : Direction) (bufLen : Nat) (t : Transfer) (block delta cutLen : Nat) :
    Option Transfer :=
  if delta + cutLen ≤ s.logLen block ∧ t.pos + cutLen ≤ bufLen then
    some {
      data :=
        if dir = .read then t.data
        else Function.update t.data block (memmove (t.data block) delta t.buf t.pos cutLen)
      buf := if dir = .read then memmove t.buf t.pos (t.data block) delta cutLen else t.buf
      logLen := sub64 t.logLen cutLen
      logAddr := add64 t.logAddr cutLen
      pos := t.pos + cutLen }
  else none

/-- The `if` before the loop of `$trans`, for a start inside of the first block. -/
def transInside (dir : Direction) (bufLen : Nat) (t : Transfer) (iter : Nat) : Option Transfer :=
  let delta := sub64 t.logAddr (s.logAddr iter)
  let cutLen :=
    if s.blockEnd iter < add64 t.logAddr t.logLen then
      sub64 (s.blockEnd iter) (add64 t.logAddr t.logLen)
    else t.logLen
  s.move dir bufLen t iter delta cutLen

def transLoop (dir : Direction) (bufLen : Nat) : Nat → Transfer → Option Nat → Option Transfer
  | fuel + 1, t, some iter =>
    if s.logAddr iter = t.logAddr then
      let cutLen := if s.logLen iter < t.logLen then s.logLen iter else t.logLen
      (s.move dir bufLen t iter 0 cutLen).bind fun t => transLoop dir bufLen fuel t (s.next iter)
    else some t
  | _, t, _ => some t

/-- The buffer has `len` bytes. The result is `success` and the buffer, besides the state. -/
def trans (addr len : Nat) (dir : Direction) (buf : Nat → UInt8) :
    Option (Bool × (Nat → UInt8) × DeviceMem) :=
  let t : Transfer := ⟨s.data, buf, addr, len, 0⟩
  match s.findBlock addr with
  | none => some (false, buf, s)
  | some iter =>
    let moved :=
      if s.logAddr iter < addr then
        (s.transInside dir len t iter).bind fun t =>
          s.transLoop dir len s.allocated.length t (s.next iter)
      else s.transLoop dir len s.allocated.length t (some iter)
    moved.map fun t => (true, t.buf, { s with data := t.data })

/-! ## Runs -/

inductive Event
  | create (addr len : Nat) (clear : Bool) (new : Option Nat) (junk : Nat → UInt8)
  | delete (addr len : Nat)
  | get (addr len : Nat)
  | trans (addr len : Nat) (dir : Direction) (buf : Nat → UInt8)

def step (s : DeviceMem) : Event → Option DeviceMem
  | .create addr len clear new junk => (s.create addr len clear new junk).map (·.2)
  | .delete addr len => some (s.delete addr len).2
  | .get _ _ => some s
  | .trans addr len dir buf => (s.trans addr len dir buf).map (·.2.2)

/-- The range is not empty and does not wrap. It may end at the top of the address space. -/
def RangeOk (addr len : Nat) : Prop := 0 < len ∧ len < addrSpace ∧ addr + len ≤ addrSpace

/-- The ranges are as they should be, and `malloc` returns what is free. -/
def Event.Proper (s : DeviceMem) : Event → Prop
  | .create addr len _ new _ => RangeOk addr len ∧ ∀ p ∈ new, p ∉ s.allocated
  | .delete addr len | .get addr len | .trans addr len _ _ => RangeOk addr len

/-- No block is created that ends at the top of the address space. -/
def Event.Below : Event → Prop
  | .create addr len _ new _ => new.isSome → addr + len < addrSpace
  | .delete .. | .get .. | .trans .. => True

/-! ## The store of bytes that it stands for -/

def blocks : List Nat := collect s.next s.allocated.length s.blockList

/-- The addresses of a block. -/
def Covers (block x : Nat) : Prop := s.logAddr block ≤ x ∧ x < s.logAddr block + s.logLen block

instance (block x : Nat) : Decidable (s.Covers block x) := inferInstanceAs (Decidable (_ ∧ _))

def bytes : PartialStore UInt8 := fun x =>
  (s.blocks.find? fun block => s.Covers block x).map fun block =>
    s.data block (x - s.logAddr block)

/-- The list from `block_list` on: consistently linked, sorted, and without overlaps. -/
structure Listed (s : DeviceMem) (ps : List Nat) : Prop where
  /-- There is no pointer to the last block, so any will do for it. -/
  linked : Links.Dll ⟨s.blockList, ps.getLast?, s.next, s.last⟩ ps
  sorted : ps.Pairwise fun p q => s.logAddr p + s.logLen p ≤ s.logAddr q

/-- And each block is one that `malloc` has given, is not empty, and ends below the top. -/
structure Sound (s : DeviceMem) (ps : List Nat) : Prop where
  linked : Links.Dll ⟨s.blockList, ps.getLast?, s.next, s.last⟩ ps
  allocated : ∀ p ∈ ps, p ∈ s.allocated
  lens : ∀ p ∈ ps, 0 < s.logLen p ∧ s.logAddr p + s.logLen p < addrSpace
  sorted : ps.Pairwise fun p q => s.logAddr p + s.logLen p ≤ s.logAddr q

theorem Sound.listed {s : DeviceMem} {ps : List Nat} (h : s.Sound ps) : s.Listed ps :=
  ⟨h.linked, h.sorted⟩

end DeviceMem

end Athomux
