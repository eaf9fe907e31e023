import Athomux.Lib.Malloc
import Athomux.NetConnect.Params

/-!
# A brick and its connectors

`#control_simple`, as far as one brick is concerned. A connector header is in the brick, or has been
allocated for a member of a dynamic array. An allocation that the code does not check succeeds.
-/

open Lib

namespace Athomux.ControlSimple

open NetConnect (Text)

/-! ## What is loaded -/

/-- `struct gen_type`. -/
structure GenType where
  typename : Text
  table : Nat
  offset : Int
  deriving DecidableEq, Repr

/-- `struct load_conn`. A dynamic array has no `count`, and `type` is that of an output. -/
structure LoadConn where
  name : Text
  genType : List GenType
  type : Bool
  exported : Bool
  startIndex : Nat
  count : Nat
  sectCount : Nat
  deriving DecidableEq, Repr

/-- `struct loader`. The exported connectors have headers of their own. -/
structure Loader where
  conn : List LoadConn
  apart : ∀ (k k' : Nat) (lc lc' : LoadConn), k < k' → conn[k]? = some lc → conn[k']? = some lc' →
    lc.exported = true → lc'.exported = true → lc.startIndex + lc.count ≤ lc'.startIndex

/-! ## Headers -/

/-- Where a header is. -/
inductive ConnPtr
  | static (i : Nat)
  | dynamic (p : Nat)
  deriving DecidableEq, Repr

/-- Where an instance is: inside the one of the brick, or in a block of its own. -/
inductive Inst
  | null
  | inside
  | own (p : Nat)
  deriving DecidableEq, Repr

/-- `struct connector_header`. The connector of `load_conn` is known by its number. -/
structure Conn where
  /-- `link.first` is set. -/
  linked : Bool
  /-- `belonging` is set. -/
  belonging : Bool
  inst : Inst
  cParam : Option Nat
  loadConn : Option Nat
  cIndex : Int
  deriving DecidableEq, Repr

/-- After `memset`. -/
def Conn.zero : Conn := ⟨false, false, .null, none, none, 0⟩

/-- `struct brick_header`. -/
structure Brick where
  space : Nat
  bParam : Nat
  loader : Loader
  connectors : List ConnPtr
  conn : ConnPtr → Conn

/-- The heap, the counter of `new_conn`, and the brick. -/
structure Sys where
  heap : Heap
  counter : Int
  brick : Brick

namespace Brick

variable (b : Brick)

/-- `find_load_conn`. -/
def findLoadConn (name : Text) : Option Nat :=
  b.loader.conn.findIdx? fun lc => lc.exported && lc.name == name

/-- `get_conn`. -/
def getConn (lc : LoadConn) (index : Int) : Option ConnPtr :=
  if lc.count = 0 then b.connectors.find? fun c => (b.conn c).cIndex = index
  else if index < 0 ∨ (lc.count : Int) ≤ index then none
  else some (.static (lc.startIndex + index.toNat))

/-- `find_conn`. -/
def findConn (name : Text) (index : Int) : Option ConnPtr :=
  ((b.findLoadConn name).bind fun k => b.loader.conn[k]?).bind fun lc => b.getConn lc index

/-- A header is changed. -/
def set (c : ConnPtr) (h : Conn) : Brick := { b with conn := Function.update b.conn c h }

@[simp] theorem set_self (c : ConnPtr) (h : Conn) : (b.set c h).conn c = h :=
  Function.update_self _ _ _

@[simp] theorem set_other {c d : ConnPtr} (hd : d ≠ c) (h : Conn) :
    (b.set c h).conn d = b.conn d := Function.update_of_ne hd _ _

@[simp] theorem set_connectors (c : ConnPtr) (h : Conn) :
    (b.set c h).connectors = b.connectors := rfl

@[simp] theorem set_loader (c : ConnPtr) (h : Conn) : (b.set c h).loader = b.loader := rfl

/-- `insert_conn`. -/
def insertConn (c : ConnPtr) : Brick := { b with connectors := b.connectors ++ [c] }

end Brick

namespace Sys

variable (s : Sys)

/-- The member of a static array that `new_conn` finds. -/
def freeMember (lc : LoadConn) : Nat → Option Nat
  | 0 => none
  | n + 1 =>
    let i := lc.count - (n + 1)
    if (s.brick.conn (.static (lc.startIndex + i))).cParam.isNone then some i else freeMember lc n

/-- `new_conn`. -/
def newConn (lc : LoadConn) : Option (ConnPtr × Sys) :=
  if lc.count = 0 then
    let c := .dynamic s.heap.next
    some (c, { s with
      heap := s.heap.malloc
      counter := s.counter + 1
      brick := s.brick.set c { Conn.zero with cIndex := s.counter } })
  else
    (s.freeMember lc lc.count).map fun (i : Nat) =>
      let c := .static (lc.startIndex + i)
      (c, { s with brick := s.brick.set c { s.brick.conn c with cIndex := i } })

/-- `create_conn`. -/
def createConn (c : ConnPtr) (k : Nat) (lc : LoadConn) (index : Int) : Sys :=
  let h := { s.brick.conn c with belonging := true, loadConn := some k, cIndex := index }
  if lc.count = 0 then
    { s with
      heap := s.heap.malloc
      brick := s.brick.set c { h with inst := .own s.heap.next } }
  else { s with brick := s.brick.set c { h with inst := .inside } }

/-! ## `create_brick` -/

/-- The members of a static array, up to `n`. -/
def createMembers (k : Nat) (lc : LoadConn) : Nat → Sys
  | 0 => s
  | n + 1 =>
    let s := createMembers k lc n
    let c := .static (lc.startIndex + n)
    let s := s.createConn c k lc n
    { s with brick := s.brick.insertConn c }

/-- The static inputs among the first `n` connectors. -/
def createInputs : Nat → Sys
  | 0 => s
  | k + 1 =>
    let s := createInputs k
    match s.brick.loader.conn[k]? with
    | none => s
    | some lc => if !lc.type && lc.exported then s.createMembers k lc lc.count else s

/-- `new_brick`. -/
def newBrick (heap : Heap) (counter : Int) (loader : Loader) : Sys :=
  let space := heap.next
  let heap := heap.malloc
  let bParam := heap.next
  let s : Sys := ⟨heap.malloc, counter, ⟨space, bParam, loader, [], fun _ => .zero⟩⟩
  s.createInputs loader.conn.length

/-! ## `$instconn` -/

structure Request where
  name : Text
  index : Int
  /-- There is memory for the parameter. -/
  space : Bool
  deriving DecidableEq, Repr

/-- What is there before the initialisation is called, or the state in which the request is refused. -/
inductive Prepared
  | refused (s : Sys)
  | ready (s : Sys) (k : Nat) (lc : LoadConn) (c : ConnPtr) (old : Bool)

/-- The connector of the request. -/
def pickConn (lc : LoadConn) (index : Int) : Option (ConnPtr × Sys) :=
  if index < 0 then s.newConn lc
  else
    match s.brick.getConn lc index with
    | none => none
    | some c =>
      if (s.brick.conn c).cParam ≠ some s.brick.bParam ∧ (s.brick.conn c).cParam ≠ none then none
      else some (c, s)

/-- The parameter is stored, and the connector is created. -/
def setUp (k : Nat) (lc : LoadConn) (c : ConnPtr) (space : Bool) : Prepared :=
  if (s.brick.conn c).cParam.isNone ∧ !space then .refused s
  else
    let s :=
      if (s.brick.conn c).cParam.isNone then
        { s with
          heap := s.heap.malloc
          brick := s.brick.set c { s.brick.conn c with cParam := some s.heap.next } }
      else s
    let old := (s.brick.conn c).belonging
    .ready (if old then s else s.createConn c k lc (s.brick.conn c).cIndex) k lc c old

/-- `$instconn` up to the initialisation. -/
def prepare (r : Request) : Prepared :=
  match s.brick.findLoadConn r.name with
  | none => .refused s
  | some k =>
    match s.brick.loader.conn[k]? with
    | none => .refused s
    | some lc =>
      match s.pickConn lc r.index with
      | none => .refused s
      | some (c, s) => s.setUp k lc c r.space

/-- `free`. -/
def freeInst (heap : Heap) : Inst → Option Heap
  | .null => some heap
  | .inside => none
  | .own p => heap.free p

def freeParam (heap : Heap) : Option Nat → Option Heap
  | none => some heap
  | some p => heap.free p

/-- What is done where the initialisation has failed. There is no result when a block is freed that is
not live. -/
def undo (lc : LoadConn) (c : ConnPtr) : Option Sys :=
  (if lc.count = 0 then freeInst s.heap (s.brick.conn c).inst else some s.heap).bind fun heap =>
    (freeParam heap (s.brick.conn c).cParam).map fun heap => { s with heap := heap }

/-- What is done where it has succeeded. -/
def finish (c : ConnPtr) (old : Bool) : Sys :=
  if old then s else { s with brick := s.brick.insertConn c }

/-- `$instconn`, for the answer of the initialisation. Where it succeeds it gives the index. -/
def instconn (r : Request) (success : Bool) : Option (Sys × Option Int) :=
  match s.prepare r with
  | .refused s => some (s, none)
  | .ready s _ lc c old =>
    if success then some (s.finish c old, some (s.brick.conn c).cIndex)
    else (s.undo lc c).map fun s => (s, none)

/-! ## `$deinstconn` and `$deinstbrick` -/

/-- `$deinstconn`, and its success. -/
def deinstconn (name : Text) (index : Int) : Option (Sys × Bool) :=
  match s.brick.findConn name index with
  | none => some (s, false)
  | some c =>
    let h := s.brick.conn c
    if h.loadConn.isNone ∨ h.cParam.isNone ∨ h.cParam = some s.brick.bParam ∨ h.linked then
      some (s, false)
    else
      (freeParam s.heap h.cParam).map fun heap =>
        ({ s with heap := heap, brick := s.brick.set c { h with cParam := none } }, true)

/-- The connector is an output. -/
def isOutput (h : Conn) : Bool :=
  ((h.loadConn.bind fun k => s.brick.loader.conn[k]?).map LoadConn.type).getD false

/-- The parameters of the connectors that are chosen. -/
def freeParams (chosen : Conn → Bool) : List ConnPtr → Heap → Option Heap
  | [], heap => some heap
  | c :: cs, heap =>
    let h := s.brick.conn c
    if chosen h ∧ h.cParam ≠ some s.brick.bParam then
      (freeParam heap h.cParam).bind fun heap => freeParams chosen cs heap
    else freeParams chosen cs heap

/-- `delete_brick`: what is left of the heap, and its success. -/
def deleteBrick : Option (Heap × Bool) :=
  if s.brick.connectors.any fun c => s.isOutput (s.brick.conn c) && (s.brick.conn c).linked then
    some (s.heap, false)
  else
    (s.freeParams (s.isOutput ·) s.brick.connectors s.heap).bind fun heap =>
      (s.freeParams (!s.isOutput ·) s.brick.connectors heap).bind fun heap =>
        (heap.free s.brick.bParam).bind fun heap =>
          (heap.free s.brick.space).map fun heap => (heap, true)

end Sys

end Athomux.ControlSimple
