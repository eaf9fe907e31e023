import Mathlib.Algebra.Ring.Int.Defs
import Athomux.Lib.Run
import Athomux.Lib.Filed

/-!
# Virtual outputs for path names

`#fs_simple` gives a virtual output to each path that is instantiated, and redirects the inputs that
are connected to it. It keeps the paths in two hash tables, by name and by index, and the
connections in a third one and in a chain of each path.
-/

open Lib

namespace Athomux.FsSimple

/-- `PATH_HASH_MAX`, `INDEX_HASH_MAX` and `VCONN_HASH_MAX`. -/
def hashMax : Int := 512

abbrev Name := List UInt8

def out : Name := [111, 117, 116]

/-- `struct conn_info`. -/
structure ConnInfo where
  addr : Nat
  index : Int
  name : Name
  deriving DecidableEq

/-- `aliasInfo` is the `alias`, the output that is really connected. -/
structure Path where
  index : Int
  name : Name
  aliasInfo : ConnInfo
  deriving DecidableEq

structure Vconn where
  belonging : Nat
  conn : ConnInfo
  deriving DecidableEq

/-! ## The hash functions -/

/-- `name[i]`, with its sign. -/
def char (name : Name) (i : Nat) : Int :=
  let c : Int := (name.getD i 0).toNat
  if c < 128 then c else c - 256

/-- An `int`. -/
def int32 (x : Int) : Int := (x + 2 ^ 31) % 2 ^ 32 - 2 ^ 31

def pathHash (name : Name) (len : Nat) : Int :=
  if len ≤ 2 then (char name 0).tmod hashMax
  else (int32 ((char name 0 * len + char name (len - 1)) * 4 + char name (len / 2))).tmod hashMax

def indexHash (index : Int) : Int := index.tmod hashMax

def vconnHash (info : ConnInfo) : Int :=
  (int32 (pathHash info.name 1 + info.index + (info.addr / 4096 : Nat))).tmod hashMax

/-- A bucket. With a negative hash value the access goes in front of the table, and has no result. -/
def bucket (hash : Int) : Option Nat := if 0 ≤ hash then some hash.toNat else none

/-! ## The tables -/

/-- Paths and connections are named by their addresses in memory. -/
structure Fs where
  fsLogaddr : Nat
  maxIndex : Int
  pathTable : Nat → List Nat
  indexTable : Nat → List Nat
  vconnTable : Nat → List Nat
  path : Nat → Option Path
  vconn : Nat → Option Vconn
  /-- The `chain` of each path. -/
  chain : Nat → List Nat

def Fs.hasIndex (s : Fs) (index : Int) (p : Nat) : Bool := (s.path p).any fun e => e.index = index

def Fs.hasName (s : Fs) (name : Name) (p : Nat) : Bool := (s.path p).any fun e => e.name = name

def Fs.hasConn (s : Fs) (info : ConnInfo) (v : Nat) : Bool := (s.vconn v).any fun c => c.conn = info

def Fs.pathFind (s : Fs) (name : Name) : Option (Option Nat) :=
  (bucket (pathHash name name.length)).map fun b => (s.pathTable b).find? (s.hasName name)

def Fs.indexFind (s : Fs) (index : Int) : Option (Option Nat) :=
  (bucket (indexHash index)).map fun b => (s.indexTable b).find? (s.hasIndex index)

def Fs.vconnFind (s : Fs) (info : ConnInfo) : Option (Option Nat) :=
  (bucket (vconnHash info)).map fun b => (s.vconnTable b).find? (s.hasConn info)

def Fs.pathAdd (s : Fs) (name : Name) (new : Nat) : Option Fs :=
  (bucket (pathHash name name.length)).map fun b =>
    { s with pathTable := Function.update s.pathTable b (new :: s.pathTable b) }

def Fs.pathDel (s : Fs) (name : Name) : Option Fs :=
  (bucket (pathHash name name.length)).map fun b =>
    { s with pathTable := Function.update s.pathTable b ((s.pathTable b).eraseP (s.hasName name)) }

def Fs.indexAdd (s : Fs) (index : Int) (new : Nat) : Option Fs :=
  (bucket (indexHash index)).map fun b =>
    { s with indexTable := Function.update s.indexTable b (new :: s.indexTable b) }

def Fs.indexDel (s : Fs) (index : Int) : Option Fs :=
  (bucket (indexHash index)).map fun b =>
    { s with
      indexTable := Function.update s.indexTable b ((s.indexTable b).eraseP (s.hasIndex index)) }

def Fs.vconnAdd (s : Fs) (info : ConnInfo) (new : Nat) : Option Fs :=
  (bucket (vconnHash info)).map fun b =>
    { s with vconnTable := Function.update s.vconnTable b (new :: s.vconnTable b) }

def Fs.vconnDel (s : Fs) (info : ConnInfo) (old : Nat) : Option Fs :=
  (bucket (vconnHash info)).map fun b =>
    { s with vconnTable := Function.update s.vconnTable b ((s.vconnTable b).erase old) }

/-! ## The operations

`mem` is what `malloc` returns. Behind `none` the tables are accessed out of their bounds, or
`max_index` overflows.
-/

/-- `$instconn`. `walk` is the output at the end of the path, unless a call of `:<strat` fails. -/
def Fs.instconn (s : Fs) (conn1 : ConnInfo) (param : Name) (walk : Option ConnInfo)
    (mem : Option Nat) : Option Fs :=
  if conn1.addr ≠ s.fsLogaddr then some s
  else if conn1.name ≠ out ∨ param.head? ≠ some 47 then some s
  else
    match walk, mem with
    | some aliasInfo, some p =>
      if s.path p = none ∧ s.maxIndex < 2 ^ 31 - 1 then
        let t := { s with
          maxIndex := s.maxIndex + 1
          path := Function.update s.path p (some ⟨s.maxIndex, param, aliasInfo⟩) }
        (t.pathAdd param p).bind fun t => t.indexAdd s.maxIndex p
      else none
    | _, _ => some s

/-- `$deinstconn`. What `_deinst_path` returns is not looked at. -/
def Fs.deinstconn (s : Fs) (conn1 : ConnInfo) : Option Fs :=
  if conn1.addr ≠ s.fsLogaddr then some s
  else
    match s.indexFind conn1.index with
    | none => none
    | some none => some s
    | some (some p) =>
      match s.path p with
      | none => none
      | some path =>
        if s.chain p ≠ [] then some s
        else (s.pathDel path.name).bind fun t => t.indexDel path.index

/-- `$connect`. `ok` is the answer of `:<strat`. -/
def Fs.connect (s : Fs) (conn1 conn2 : ConnInfo) (ok : Bool) (mem : Option Nat) : Option Fs :=
  if conn2.addr ≠ s.fsLogaddr then some s
  else if conn2.name ≠ out then some s
  else
    match s.indexFind conn2.index with
    | none => none
    | some none => some s
    | some (some p) =>
      match ok, mem with
      | true, some v =>
        if s.vconn v = none then
          let t := { s with
            vconn := Function.update s.vconn v (some ⟨p, conn1⟩)
            chain := Function.update s.chain p (v :: s.chain p) }
          t.vconnAdd conn1 v
        else none
      | _, _ => some s

/-- `$disconnect`, which forwards the operation at the end. -/
def Fs.disconnect (s : Fs) (conn1 : ConnInfo) : Option Fs :=
  match s.vconnFind conn1 with
  | none => none
  | some none => some s
  | some (some v) =>
    match s.vconn v with
    | none => none
    | some c =>
      let chain := Function.update s.chain c.belonging ((s.chain c.belonging).erase v)
      (Fs.vconnDel { s with chain := chain } c.conn v).map fun t =>
        { t with vconn := Function.update t.vconn v none }

/-! ## The system -/

/-- The operations, with what the calls of `:<strat` answer. -/
inductive Event
  | instconn (conn1 : ConnInfo) (param : Name) (walk : Option ConnInfo) (mem : Option Nat)
  | deinstconn (conn1 : ConnInfo) (ok : Bool)
  | connect (conn1 conn2 : ConnInfo) (ok : Bool) (mem : Option Nat)
  | disconnect (conn1 : ConnInfo) (ok : Bool)
  deriving DecidableEq

def step (s : Fs) : Event → Option Fs
  | .instconn conn1 param walk mem => s.instconn conn1 param walk mem
  | .deinstconn conn1 _ => s.deinstconn conn1
  | .connect conn1 conn2 ok mem => s.connect conn1 conn2 ok mem
  | .disconnect conn1 _ => s.disconnect conn1

/-- After `$output_init`. -/
def Init (s : Fs) : Prop :=
  s.maxIndex = 0 ∧ (∀ b, s.pathTable b = []) ∧ (∀ b, s.indexTable b = []) ∧
    (∀ b, s.vconnTable b = []) ∧ (∀ p, s.path p = none) ∧ (∀ v, s.vconn v = none) ∧
    ∀ p, s.chain p = []

/-! ## What the tables are for -/

/-- Every virtual connection is in the chain of its own path, and in the bucket of its own key, and
nowhere else, and its path can be found by its index. -/
structure Consistent (s : Fs) : Prop where
  chains : Filed (fun v => (s.vconn v).map Vconn.belonging) s.chain
  keys : Filed (fun v => (s.vconn v).bind fun c => bucket (vconnHash c.conn)) s.vconnTable
  hashed : ∀ v c, s.vconn v = some c → bucket (vconnHash c.conn) ≠ none
  belongs : ∀ v c, s.vconn v = some c → ∃ path b, s.path c.belonging = some path ∧
    bucket (indexHash path.index) = some b ∧ c.belonging ∈ s.indexTable b

/-- A call of `:<strat` fails. -/
def Event.Fails : Event → Prop
  | .instconn _ _ walk _ => walk = none
  | .deinstconn _ ok | .connect _ _ ok _ | .disconnect _ ok => ok = false

structure SameTables (s t : Fs) : Prop where
  path : t.pathTable = s.pathTable
  index : t.indexTable = s.indexTable
  vconn : t.vconnTable = s.vconnTable
  chain : t.chain = s.chain

/-- The path is taken out of the table of the names, or out of the table of the indices. -/
def Dropped (s t : Fs) (p : Nat) : Prop :=
  (∃ b, p ∈ s.pathTable b ∧ p ∉ t.pathTable b) ∨ ∃ b, p ∈ s.indexTable b ∧ p ∉ t.indexTable b

/-- What is wanted of each operation. -/
structure Kept (s : Fs) (e : Event) (t : Fs) : Prop where
  failed : e.Fails → SameTables s t
  dropped : ∀ p, Dropped s t p → s.chain p = []

end Athomux.FsSimple
