import Athomux.Args
import Athomux.Lib.PartialStore
import Athomux.Lib.Run

/-!
# A second section in front of a nest

`#adapt_meta` has the data of `:>out(:1:)`, the meta section, behind a control block at the beginning
of `:<in`, and those of `:>out(:0:)`, the normal section, from `normal_start` on. What `:<in` returns is
part of an event. An operation that it refuses changes nothing.
-/

open Lib

namespace Athomux.AdaptMeta

/-- `DEFAULT_TRANSFER`, the length of the control block. -/
def defaultTransfer : Nat := 4096

/-- `GAP`. -/
def gap : Nat := defaultTransfer * 512

/-- The outputs. -/
inductive Out
  | normalOut
  | metaOut
  deriving DecidableEq, Repr

/-- `struct adapt_meta_control`, and what is where in `:<in`, with the output that has created it. -/
structure Sys where
  normalStart : Nat
  normalEnd : Nat
  store : PartialStore (Out × UInt8)

def start : Sys := ⟨gap, gap, fun _ => none⟩

/-! ## `:<in` -/

/-- What an operation does to the range of its arguments. -/
inductive Op
  /-- `$wait`, `$get`, `$lock` and others. -/
  | keep
  /-- `$trans` and others. -/
  | write (buf : Nat → UInt8)
  /-- `$create`, `$createget`. -/
  | create (fill : Nat → UInt8)
  | delete
  /-- `$gadr`, with the range that it returns. -/
  | gadr (addr len : Nat)
  /-- `$gadrcreateget`. -/
  | gadrCreate (addr len : Nat) (fill : Nat → UInt8)

/-- `@log_addr` behind the operation. -/
def Op.addr : Op → Nat → Nat
  | .gadr addr _, _ => addr
  | .gadrCreate addr _ _, _ => addr
  | .keep, addr => addr
  | .write _, addr => addr
  | .create _, addr => addr
  | .delete, addr => addr

/-- `@log_len` behind the operation. -/
def Op.len : Op → Nat → Nat
  | .gadr _ len, _ => len
  | .gadrCreate _ len _, _ => len
  | .keep, len => len
  | .write _, len => len
  | .create _, len => len
  | .delete, len => len

/-- The data of an output in a range. -/
def fillRange (m : PartialStore (Out × UInt8)) (out : Out) (addr len : Nat) (fill : Nat → UInt8) :
    PartialStore (Out × UInt8) := fun a =>
  if addr ≤ a ∧ a < addr + len then some (out, fill a) else m a

def Op.apply (out : Out) (m : PartialStore (Out × UInt8)) (addr len : Nat) :
    Op → PartialStore (Out × UInt8)
  | .keep => m
  | .gadr _ _ => m
  | .write buf => fun a =>
    if addr ≤ a ∧ a < addr + len then (m a).map fun x => (x.1, buf a) else m a
  | .create fill => fillRange m out addr len fill
  | .gadrCreate _ _ fill => fillRange m out addr len fill
  | .delete => m.clear addr len

/-- `$move` by an offset. -/
def moveRange (m : PartialStore (Out × UInt8)) (addr len : Nat) (offs : Int) :
    PartialStore (Out × UInt8) := fun a =>
  if addr + offs ≤ a ∧ (a : Int) < addr + len + offs then m (a - offs).toNat
  else if addr ≤ a ∧ a < addr + len then none
  else m a

/-! ## The operations -/

/-- The arguments of an operation, and whether `:<in` grants it. -/
structure Request where
  op : Op
  logAddr : Nat
  logLen : Nat
  ok : Bool

/-- What the caller has afterwards. -/
structure Reply where
  success : Bool
  logAddr : Nat
  logLen : Nat

/-- An address moved by an offset. -/
def addOffs (addr : Nat) (offs : Int) : Nat := ((addr + offs) % addrSpace).toNat

/-- `normal_end` behind an operation up to `border`. -/
def Sys.reach (s : Sys) (border : Nat) : Sys :=
  if s.normalEnd ≤ border then { s with normalEnd := border } else s

/-- The operations of the normal section. -/
def Sys.normal (s : Sys) (x : Request) : Reply × Sys :=
  if x.ok then
    let addr := x.op.addr (add64 x.logAddr s.normalStart)
    let len := x.op.len x.logLen
    let t := { s with store := x.op.apply .normalOut s.store addr len }
    (⟨true, x.logAddr, len⟩, t.reach (add64 addr len))
  else (⟨false, x.logAddr, x.logLen⟩, s)

/-- `$move` of the normal section, by the offset that `:<in` returns. -/
def Sys.normalMove (s : Sys) (logAddr logLen : Nat) (offs : Option Int) : Sys :=
  match offs with
  | none => s
  | some offs =>
    let addr := add64 logAddr s.normalStart
    let border := add64 addr logLen
    let t := { s with store := moveRange s.store addr logLen offs }
    t.reach (if 0 < offs then addOffs border offs else border)

/-- The operations of the meta section, without `$create` and `$move`. -/
def Sys.metaOp (s : Sys) (x : Request) : Reply × Sys :=
  if s.normalStart < add64 (add64 x.logAddr x.logLen) defaultTransfer then
    (⟨false, x.logAddr, x.logLen⟩, s)
  else if x.ok then
    let addr := x.op.addr (add64 x.logAddr defaultTransfer)
    let len := x.op.len x.logLen
    (⟨true, x.logAddr, len⟩, { s with store := x.op.apply .metaOut s.store addr len })
  else (⟨false, x.logAddr, x.logLen⟩, s)

/-- The length that `_shift` moves. -/
def Sys.size (s : Sys) : Nat := sub64 s.normalEnd s.normalStart

/-- The offset of `_shift`. -/
def Sys.delta (s : Sys) (border : Nat) : Nat := add64 (sub64 border s.normalStart) gap

/-- Both borders are moved. -/
def Sys.advance (s : Sys) (offs : Int) : Sys :=
  { s with normalStart := addOffs s.normalStart offs, normalEnd := addOffs s.normalEnd offs }

/-- `_shift`, with the offset that `:<in` returns. -/
def Sys.shift (s : Sys) (border : Nat) (offs : Option Int) : Option Sys :=
  if s.normalStart < border then
    if s.size = 0 then some (s.advance (s.delta border))
    else
      offs.map fun offs =>
        { s with store := moveRange s.store s.normalStart s.size offs }.advance offs
  else some s

/-- `$create` of the meta section. -/
def Sys.metaCreate (s : Sys) (logAddr logLen : Nat) (offs : Option Int) (ok : Bool)
    (fill : Nat → UInt8) : Sys :=
  match s.shift (add64 (add64 logAddr logLen) defaultTransfer) offs with
  | none => s
  | some t =>
    if ok then
      { t with store := fillRange t.store .metaOut (add64 logAddr defaultTransfer) logLen fill }
    else t

/-- Where `$move` of the meta section may come to. -/
def moveBorder (logAddr logLen : Nat) (offsetMax : Int) : Nat :=
  let border := add64 (add64 logAddr logLen) defaultTransfer
  if 0 < offsetMax then addOffs border offsetMax else border

/-- `$move` of the meta section, by the offset that `:<in` returns. -/
def Sys.metaMove (s : Sys) (logAddr logLen : Nat) (offsetMax : Int) (offs moved : Option Int) : Sys :=
  match s.shift (moveBorder logAddr logLen offsetMax) offs with
  | none => s
  | some t =>
    match moved with
    | none => t
    | some moved =>
      { t with store := moveRange t.store (add64 logAddr defaultTransfer) logLen moved }

/-! ## Runs -/

inductive Event
  | normal (x : Request)
  | normalMove (logAddr logLen : Nat) (offs : Option Int)
  | metaOp (x : Request)
  | metaCreate (logAddr logLen : Nat) (offs : Option Int) (ok : Bool) (fill : Nat → UInt8)
  | metaMove (logAddr logLen : Nat) (offsetMax : Int) (offs moved : Option Int)

def step (s : Sys) : Event → Option Sys
  | .normal x => some (s.normal x).2
  | .normalMove logAddr logLen offs => some (s.normalMove logAddr logLen offs)
  | .metaOp x => some (s.metaOp x).2
  | .metaCreate logAddr logLen offs ok fill => some (s.metaCreate logAddr logLen offs ok fill)
  | .metaMove logAddr logLen offsetMax offs moved =>
    some (s.metaMove logAddr logLen offsetMax offs moved)

/-! ## What the sections are for -/

/-- Each output has its data in its section. -/
structure Separate (s : Sys) : Prop where
  meta_in : ∀ a b, s.store a = some (.metaOut, b) → defaultTransfer ≤ a ∧ a < s.normalStart
  normal_in : ∀ a b, s.store a = some (.normalOut, b) → s.normalStart ≤ a ∧ a < s.normalEnd

/-- What is at an address of the normal section. -/
def Sys.view (s : Sys) (addr : Nat) : Option UInt8 := (s.store (s.normalStart + addr)).map (·.2)

def Event.OfMeta : Event → Prop
  | .normal _ => False
  | .normalMove _ _ _ => False
  | .metaOp _ => True
  | .metaCreate _ _ _ _ _ => True
  | .metaMove _ _ _ _ _ => True

/-- The range that a `$gadr` of `:<in` has returned. -/
def Op.allotted : Op → Option (Nat × Nat)
  | .gadr addr len => some (addr, len)
  | .gadrCreate addr len _ => some (addr, len)
  | .keep => none
  | .write _ => none
  | .create _ => none
  | .delete => none

/-- An address that is returned, in the section that begins at `base` and ends at `stop`, is that of
the range that `:<in` has returned. -/
def Reply.Denotes (r : Reply) (base stop : Nat) (x : Request) : Prop :=
  ∀ addr len, x.op.allotted = some (addr, len) →
    r.success = true → r.logAddr + base = addr ∧ r.logLen = len ∧ addr + len ≤ stop

/-! ## What the brick relies on -/

/-- The range of an operation does not come round, and a `$gadr` returns what is in its argument. -/
def Request.Fits (x : Request) (base stop : Nat) : Prop :=
  x.op.addr (x.logAddr + base) = x.logAddr + base ∧
    x.logAddr + base + x.op.len x.logLen ≤ stop

/-- A shift that is made moves by the offset that it is called with, and not past the end. -/
def Shifts (s : Sys) (border : Nat) (offs : Option Int) : Prop :=
  s.normalStart < border → s.normalStart = s.normalEnd ∨ offs.isSome →
    border + gap + (s.normalEnd - s.normalStart) < addrSpace ∧
      (s.normalStart < s.normalEnd → offs = some (border - s.normalStart + gap))

/-- The ranges that are changed do not come round or leave the section, addresses are allotted where
the caller has asked by chance, and a move keeps to its bounds. -/
def Fair (s : Sys) : Event → Prop
  | .normal x => x.ok = true → x.Fits s.normalStart (addrSpace - 1)
  | .normalMove logAddr logLen offs =>
    ∀ d, offs = some d → logAddr + s.normalStart + logLen < addrSpace ∧ 0 ≤ logAddr + d ∧
      logAddr + s.normalStart + logLen + d < (addrSpace : Int)
  | .metaOp x =>
    add64 (add64 x.logAddr x.logLen) defaultTransfer ≤ s.normalStart → x.ok = true →
      x.Fits defaultTransfer s.normalStart
  | .metaCreate logAddr logLen offs ok _ =>
    Shifts s (add64 (add64 logAddr logLen) defaultTransfer) offs ∧
      (ok = true → logAddr + logLen + defaultTransfer < addrSpace)
  | .metaMove logAddr logLen offsetMax offs moved =>
    Shifts s (moveBorder logAddr logLen offsetMax) offs ∧
      ∀ d, moved = some d → logAddr + logLen + defaultTransfer + max 0 offsetMax < (addrSpace : Int) ∧
        0 ≤ logAddr + d ∧ d ≤ max 0 offsetMax

end Athomux.AdaptMeta
