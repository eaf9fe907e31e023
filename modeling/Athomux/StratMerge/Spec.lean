import Athomux.StratText.Memory
import Athomux.StratText.Reader
import Athomux.StratText.Walk

/-!
# The merged view

`#strategy_merge`, with its lists in the order from the hook on. `wild` is set where a string is
written or read past its end. The texts that the two strategies answer are taken one after the other.
-/

namespace Athomux.StratMerge

open Lib StratText
open NetConnect (Text paramGetopt)

def sidSize : Nat := 32

/-- `DEFAULT_TRANSFER`. -/
def transferSize : Nat := 4096

def vaddrStart : Nat := 2 * transferSize

/-- `struct g_brick_t`. -/
structure GBrick where
  vaddr : Nat
  source : Nat
  addr : Nat
  name : Text
  bparam : Text
  deriving DecidableEq, Repr

/-- `struct g_conn_t`. -/
structure GConn where
  cparam : Text
  srcName : Text
  srcAddr : Nat
  srcVaddr : Nat
  dstName : Text
  dstAddr : Nat
  dstVaddr : Nat
  deriving DecidableEq, Repr

/-- `struct g_ssid_t`. The field is left as it is where there is no `sid`. -/
structure GSsid where
  source : Nat
  sid : Option Text
  deriving DecidableEq, Repr

/-! The sizes of the three structures. -/

def brickSize : Nat := 320

def connSize : Nat := 320

def ssidSize : Nat := 56

structure State where
  lbHook : Nat
  lcHook : Nat
  lsHook : Nat
  nextVaddr : Nat
  lb : List (Elem GBrick)
  lc : List (Elem GConn)
  ls : List (Elem GSsid)
  log : Log
  wild : Bool
  deriving DecidableEq, Repr

/-- The address that `PC_ALLOC` gives for a length. -/
abbrev Alloc := Log → Nat → Nat

/-- `$output_init` as a constructor. -/
def State.init (alloc : Alloc) : State :=
  let hb := alloc [] brickSize
  let log := [.take ⟨hb, brickSize⟩]
  let hc := alloc log connSize
  let log := log ++ [.take ⟨hc, connSize⟩]
  let hs := alloc log ssidSize
  ⟨hb, hc, hs, vaddrStart, [], [], [], log ++ [.take ⟨hs, ssidSize⟩], false⟩

def newVaddr (s : State) : Nat × State :=
  (s.nextVaddr, { s with nextVaddr := add64 s.nextVaddr transferSize })

def clearBc (s : State) : State :=
  { s with
    lb := []
    lc := []
    ls := []
    nextVaddr := vaddrStart
    log := s.log ++ freeAll brickSize s.lb ++ freeAll connSize s.lc ++ freeAll ssidSize s.ls }

def findVbrick (s : State) (vaddr : Nat) : Option (Elem GBrick) :=
  s.lb.find? fun b => b.val.vaddr = vaddr

def findBrick (s : State) (source addr : Nat) : Option (Elem GBrick) :=
  s.lb.find? fun b => b.val.addr = addr ∧ b.val.source = source

def getopt (param name : Text) : Option (Option Text) := paramGetopt (param.length + 1) param name

/-- The field of a new sid, and whether the string has been read and written inside its bounds. -/
def sidOf (bparam : Text) : Option Text × Bool :=
  match getopt bparam "sid".toList with
  | none => (none, false)
  | some none => (none, true)
  | some (some val) => if val = [] then (none, true) else (some val, val.length < sidSize)

variable (alloc : Alloc)

def insertBrick (b : GBrick) (s : State) : State :=
  let pb := alloc s.log brickSize
  let log := s.log ++ [.take ⟨pb, brickSize⟩]
  let ps := alloc log ssidSize
  { s with
    lb := s.lb ++ [⟨pb, b⟩]
    ls := s.ls ++ [⟨ps, ⟨b.source, (sidOf b.bparam).1⟩⟩]
    log := log ++ [.take ⟨ps, ssidSize⟩]
    wild := s.wild || !(sidOf b.bparam).2 }

def insertConn (c : GConn) (s : State) : State :=
  let p := alloc s.log connSize
  { s with lc := s.lc ++ [⟨p, c⟩], log := s.log ++ [.take ⟨p, connSize⟩] }

/-! ## The graph -/

/-- What `binfo` works on: the lists, and the answers that are still to come. -/
abbrev Reading := State × List (Option Text)

/-- The steps of `binfo` for one of the two strategies. -/
def lists (source : Nat) : Lists Reading Nat where
  ask := fun _ r =>
    match r.2 with
    | [] => (none, r)
    | t :: ts => (t, (r.1, ts))
  enter := fun a r => if a = 0 then (0, r) else ((newVaddr r.1).1, ((newVaddr r.1).2, r.2))
  known := fun a r => (findBrick r.1 source a).map fun b => b.val.vaddr
  addBrick := fun a v b r => (insertBrick alloc ⟨v, source, a, b.name, b.bparam⟩ r.1, r.2)
  addConn := fun a v c w r =>
    (insertConn alloc ⟨c.cparam, c.srcName, a, v, c.dst.name, c.dst.addr, w⟩ r.1, r.2)

/-- `build_graph`. There is no result while `binfo` has not come to an end. -/
def buildGraph (fuel : Nat) (answers : List (Option Text)) (s : State) : Option State :=
  (binfo (lists alloc 0) fuel 0 (clearBc s, answers)).bind fun r =>
    match r.2 with
    | none => some r.1.1
    | some _ => (binfo (lists alloc 1) fuel 0 r.1).map fun r => r.1.1

/-! ## Operations -/

/-- The operations, with what the strategies below answer. -/
inductive Op
  | trans (directRead : Bool) (addr len fuel : Nat) (answers : List (Option Text))
  | gadr (param : Text) (garbage : Nat → Text) (answer : Option Nat)
  | padr (addr : Nat) (success : Bool)
  | instbrick (addr : Nat) (name param : Text)
  | deinstbrick (addr : Nat)

def outConns (s : State) (vaddr : Nat) : List OutConn :=
  (s.lc.filter fun c => c.val.srcVaddr = vaddr).map fun c =>
    ⟨c.val.srcName, c.val.cparam, c.val.dstVaddr, c.val.dstName⟩

def trans (directRead : Bool) (addr len fuel : Nat) (answers : List (Option Text)) (s : State) :
    Option (State × Option Text) :=
  if directRead then
    (if addr = 0 then buildGraph alloc fuel answers s else some s).map fun s =>
      (s, (findVbrick s addr).bind fun b =>
        fitText len (printBrick b.val.name b.val.bparam (outConns s b.val.vaddr)))
  else some (s, none)

/-- The source that a destination sid stands for. A field that has never been written holds
`garbage`. -/
def sourceOf (s : State) (garbage : Nat → Text) (dsid : Text) : Nat :=
  ((s.ls.find? fun e => dsid.isPrefixOf (e.val.sid.getD (garbage e.ptr))).map
    fun e => e.val.source).getD 0

/-- The strategy of this source gives the address. -/
def gadrSource (s : State) (param : Text) (garbage : Nat → Text) : Nat :=
  match getopt param "dsid".toList with
  | some (some val) => if val = [] then 0 else sourceOf s garbage val
  | _ => 0

def gadr (param : Text) (garbage : Nat → Text) (answer : Option Nat) (s : State) : State :=
  let source := gadrSource s param garbage
  let s := { s with wild := s.wild || (getopt param "dsid".toList).isNone }
  match answer with
  | none => s
  | some a => insertBrick alloc ⟨s.nextVaddr, source, a, [], []⟩ (newVaddr s).2

def padr (addr : Nat) (success : Bool) (s : State) : State :=
  match findVbrick s addr with
  | none => s
  | some b => if success then { s with lb := s.lb.erase b } else s

def instbrick (addr : Nat) (name param : Text) (s : State) : State :=
  match findVbrick s addr with
  | none => s
  | some b =>
    let val := { b.val with
      name := name.take (min name.length (nameSize - 1))
      bparam := param.take (min param.length (paramSize - 1)) }
    { s with lb := s.lb.map fun e => if e = b then ⟨b.ptr, val⟩ else e }

def step (s : State) : Op → Option State
  | .trans directRead addr len fuel answers =>
    (trans alloc directRead addr len fuel answers s).map Prod.fst
  | .gadr param garbage answer => some (gadr alloc param garbage answer s)
  | .padr addr success => some (padr addr success s)
  | .instbrick addr name param => some (instbrick addr name param s)
  | .deinstbrick _ => some s

end Athomux.StratMerge
