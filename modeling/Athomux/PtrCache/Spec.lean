import Athomux.Args
import Athomux.Lib.Ledger
import Athomux.Lib.Run

/-!
# The pointer cache

The `PC_` macros and the routines behind them. A slot remembers where one piece of the input is in
memory. What the cache asks of the connector is in `calls`, and its answers are in the events.
-/

namespace Athomux

open Lib

/-- `struct pc_elem`. -/
structure PcElem where
  pcAddr : Nat
  pcLen : Nat
  pcPtr : Nat
  deriving DecidableEq, Repr

namespace PcElem

/-- What `memset` leaves. -/
def zero : PcElem := ⟨0, 0, 0⟩

/-! ## The bits of `pc_addr` -/

/-- `pc_addr & PC__DIRTY`. -/
def isDirty (e : PcElem) : Bool := decide (e.pcAddr % 2 = 1)

/-- `pc_addr & PC__PRESENT`. -/
def isPresent (e : PcElem) : Bool := decide (e.pcAddr / 2 % 2 = 1)

/-- `x | PC__PRESENT`. -/
def orPresent (x : Nat) : Nat := if x / 2 % 2 = 1 then x else x + 2

/-- `x | (dirty & PC__DIRTY)`. -/
def orDirty (x : Nat) (dirty : Bool) : Nat := if dirty ∧ x % 2 = 0 then x + 1 else x

/-- `x & ~PC__DIRTY`. -/
def clearDirty (x : Nat) : Nat := x - x % 2

/-- `x & ~(PC__DIRTY | PC__PRESENT)`. -/
def clearBits (x : Nat) : Nat := x - x % 4

end PcElem

/-- Memory at `ptr` with the bytes from `logAddr` on. -/
structure Buffer where
  ptr : Nat
  logAddr : Nat
  len : Nat
  deriving DecidableEq, Repr

/-- The buffer that a slot holds. -/
def PcElem.buffer (e : PcElem) : Option Buffer :=
  if e.isPresent then some ⟨e.pcPtr, clearBits e.pcAddr, e.pcLen⟩ else none

/-- What goes to the connector. `handed` is a buffer that the caller has got there and hands over,
and `marked` is not a call: it says which buffer has been modified. -/
inductive PcCall
  | got (b : Buffer)
  | handed (b : Buffer)
  | put (b : Buffer) (prio : Prio)
  | putDelete (b : Buffer)
  | marked (b : Buffer)
  deriving DecidableEq, Repr

/-- What a call takes from the connector or gives back. -/
def PcCall.entry : PcCall → Option (Booking Buffer)
  | .got b => some (.take b)
  | .handed b => some (.take b)
  | .put b _ => some (.give b)
  | .putDelete b => some (.give b)
  | .marked _ => none

/-- `struct pc`. -/
structure PtrCache where
  elems : Nat → PcElem
  pcVersion : Nat
  pcWrite : Bool
  calls : List PcCall

/-- What `$gettranswait` returns. -/
structure GetReply where
  success : Bool
  physAddr : Nat
  physLen : Nat
  deriving DecidableEq, Repr

/-- What `_PC_GET` checks. -/
def GetReply.granted (r : GetReply) (len : Nat) : Bool := r.success && decide (len ≤ r.physLen)

/-- What `$gadrcreateget` returns. -/
structure CreateReply where
  success : Bool
  logAddr : Nat
  logLen : Nat
  physAddr : Nat
  physLen : Nat
  deriving DecidableEq, Repr

/-- `PC_.._ALIGN`, `PC_.._WHOLE` and `PC_.._MAX`. -/
structure PcConfig where
  align : Nat
  whole : Nat
  max : Nat
  align_pos : 0 < align
  whole_pos : 0 < whole
  max_pos : 0 < max

namespace PcConfig

/-- `use PC name`. -/
def plain : PcConfig := ⟨8, 1, 16, by decide, by decide, by decide⟩

/-- `use PC name [max] aligned(DEFAULT_TRANSFER) round`. -/
def rounded (max : Nat) (h : 0 < max) : PcConfig := ⟨4096, 4096, max, by decide, by decide, h⟩

variable (c : PcConfig)

/-- `PC__HASH`. -/
def hash (addr : Nat) : Nat := addr / c.align % c.max

/-- `PC__BASE_ADDR2`. -/
def baseAddr2 (addr : Nat) : Nat := addr / c.whole * c.whole

/-- `PC__BASE_ADDR`. -/
def baseAddr (addr : Nat) : Nat := PcElem.orPresent (c.baseAddr2 addr)

/-- `PC__BASE_OFFSET`. -/
def baseOffset (addr : Nat) : Nat := addr % c.whole

/-- `PC__BASE_LEN`. -/
def baseLen (offset len : Nat) : Nat :=
  add64 (sub64 (add64 offset len) 1 / c.whole * c.whole) c.whole

/-- `ptr & ~(PC_.._WHOLE-1)`. -/
def maskPtr (ptr : Nat) : Nat := ptr - (ptr &&& (c.whole - 1))

end PcConfig

namespace PtrCache

/-- The static initialisation. -/
def init : PtrCache where
  elems := fun _ => .zero
  pcVersion := 1
  pcWrite := false
  calls := []

variable (c : PcConfig) (s : PtrCache)

def setElem (i : Nat) (e : PcElem) : PtrCache := { s with elems := Function.update s.elems i e }

def setWrite (w : Bool) : PtrCache := { s with pcWrite := w }

def call (x : PcCall) : PtrCache := { s with calls := s.calls ++ [x] }

def slot (i : Nat) : Option Buffer := (s.elems i).buffer

/-- The caller modifies what the slot holds. -/
def noteMarked (i : Nat) (dirty : Bool) : PtrCache :=
  match s.slot i with
  | some b => if dirty then s.call (.marked b) else s
  | none => s

/-! ## `_PC_PUT`, `_PC_GET` and the macros around them -/

/-- `_PC_PUT`. -/
def putElem (i : Nat) : PtrCache :=
  let e := s.elems i
  (s.call (.put ⟨e.pcPtr, PcElem.clearBits e.pcAddr, e.pcLen⟩
    (if e.isDirty then .background else .none))).setElem i .zero

/-- `if(elem->pc_addr & PC__PRESENT) _PC_PUT(pc, elem)`. -/
def evict (i : Nat) : PtrCache := if (s.elems i).isPresent then s.putElem i else s

/-- A buffer is as long as it was asked for, or shorter when `phys_len` says so. -/
def getBuffer (r : GetReply) (addr len : Nat) : Buffer :=
  ⟨r.physAddr, PcElem.clearBits addr, min len r.physLen⟩

/-- `_PC_GET`. -/
def getElem (i addr len : Nat) (r : GetReply) : PtrCache :=
  let s := s.evict i
  let s := if r.success then s.call (.got (getBuffer r addr len)) else s
  if r.granted len then s.setElem i ⟨PcElem.orPresent addr, len, r.physAddr⟩ else s

/-- `elem->pc_addr |= (dirty & PC__DIRTY)`, and the same for `pc_write`. -/
def setDirty (i : Nat) (dirty : Bool) : PtrCache :=
  let e := s.elems i
  (s.setElem i { e with pcAddr := PcElem.orDirty e.pcAddr dirty }).setWrite (s.pcWrite || dirty)

/-- The tag of the slot of `addr` is not the one of `addr`. -/
def misses (addr : Nat) : Bool :=
  decide (PcElem.clearDirty (s.elems (c.hash addr)).pcAddr ≠ c.baseAddr addr)

/-- The `if` of `__PC_GET`. -/
def fetch (addr len : Nat) (r : GetReply) : PtrCache :=
  if s.misses c addr then
    s.getElem (c.hash addr) (c.baseAddr addr) (c.baseLen (c.baseOffset addr) len) r
  else s

/-- `__PC_GET`. -/
def lookUp (addr len : Nat) (dirty : Bool) (r : GetReply) : PtrCache :=
  ((s.fetch c addr len r).setDirty (c.hash addr) dirty).noteMarked (c.hash addr) dirty

/-- `PC_GET` and `PC_GET_DIRTY`. -/
def pcGet (addr len : Nat) (dirty : Bool) (r : GetReply) : Nat × PtrCache :=
  let s := s.lookUp c addr len dirty r
  (add64 (s.elems (c.hash addr)).pcPtr (c.baseOffset addr), s)

/-- `PC_SET`. The caller hands over the buffer `own`. -/
def pcSet (addr len ptr : Nat) (dirty : Bool) (own : Buffer) : PtrCache :=
  let i := c.hash addr
  let s := (s.evict i).call (.handed own)
  let s := s.setElem i
    ⟨PcElem.orDirty (c.baseAddr addr) dirty, c.baseLen (c.baseOffset addr) len, c.maskPtr ptr⟩
  (s.setWrite (s.pcWrite || dirty)).noteMarked i dirty

/-- `PC_UNSET`. -/
def pcUnset (addr : Nat) : PtrCache := s.evict (c.hash addr)

/-- `PC_DIRTY`. The caller has modified what it has got for `addr`. -/
def pcDirty (addr : Nat) : PtrCache :=
  let s := if s.misses c addr then s else s.setDirty (c.hash addr) true
  s.noteMarked (c.hash addr)
    ((s.slot (c.hash addr)).any fun b => decide (b.logAddr = c.baseAddr2 addr))

/-- `_PC_ALL_PUT`, for the slots from `i` on. -/
def allPut : Nat → Nat → PtrCache → PtrCache
  | _, 0, s => s
  | i, n + 1, s => allPut (i + 1) n (s.evict i)

/-- `PC_FLUSH`. -/
def pcFlush : PtrCache :=
  if s.pcVersion ≠ 0 then
    { allPut 0 c.max s with pcVersion := add64 s.pcVersion 1, pcWrite := false }
  else s

/-- `PC_ALLOC`, to the pointer, the address and the cache. There is no result when `_PC_ALLOC`
returns `NULL`: the macro reads `pc_addr` through it. -/
def pcAlloc (len : Nat) (r : CreateReply) : Option (Nat × Nat × PtrCache) :=
  let baseLen := c.baseLen 0 len
  if ¬ r.success ∨ r.logLen < baseLen then none
  else
    let i := c.hash r.logAddr
    let s := s.call (.got ⟨r.physAddr, r.logAddr, min r.logLen r.physLen⟩)
    let s := (s.evict i).setElem i
      ⟨PcElem.orDirty (PcElem.orPresent (c.baseAddr r.logAddr)) true, r.logLen, r.physAddr⟩
    let s := (s.setWrite true).noteMarked i true
    some ((s.elems i).pcPtr, PcElem.clearBits (s.elems i).pcAddr, s)

/-- `PC_FREE`. The last call has no `phys_addr`. -/
def pcFree (addr len : Nat) : PtrCache :=
  let e := s.elems (c.hash addr)
  let s := if e.isPresent ∧ PcElem.clearBits e.pcAddr = addr then s.putElem (c.hash addr) else s
  s.call (.putDelete ⟨0, addr, len⟩)

/-! ## Runs -/

inductive Event
  | get (addr len : Nat) (dirty : Bool) (r : GetReply)
  | set (addr len ptr : Nat) (dirty : Bool) (own : Buffer)
  | unset (addr : Nat)
  | dirty (addr : Nat)
  | alloc (len : Nat) (r : CreateReply)
  | free (addr len : Nat)
  | flush
  deriving DecidableEq, Repr

def step : PtrCache → Event → Option PtrCache
  | s, .get addr len dirty r => some (s.pcGet c addr len dirty r).2
  | s, .set addr len ptr dirty own => some (s.pcSet c addr len ptr dirty own)
  | s, .unset addr => some (s.pcUnset c addr)
  | s, .dirty addr => some (s.pcDirty c addr)
  | s, .alloc len r => (s.pcAlloc c len r).map (·.2.2)
  | s, .free addr len => some (s.pcFree c addr len)
  | s, .flush => some (s.pcFlush c)

/-! ## Who holds what -/

/-- The slots that hold a buffer, one after the other. -/
def slots : List Buffer := tableList c.max s.slot

/-- The calls as a ledger. -/
def entries : List (Booking Buffer) := s.calls.filterMap PcCall.entry

/-- What has been got on the connector and not put. -/
def held : List Buffer := Ledger.outstanding [] s.entries

/-- What has been marked and not put with `prio_background` afterwards. -/
def unwritten : List Buffer :=
  s.calls.foldl (fun l x =>
    match x with
    | .marked b => b :: l
    | .put b .background => l.filter (· ≠ b)
    | _ => l) []

end PtrCache

end Athomux
