import Mathlib.Order.Basic
import Athomux.Lib.Run
import Athomux.Lib.Arrays
import Athomux.Args

/-!
# A map in memory

`#map_dummy` keeps its blocks in a table and reaches them through a permutation. `$move`
rearranges the permutation and not the blocks.
-/

open Lib

namespace Athomux.MapDummy

def defaultTransfer : Nat := 4096

def maxElems : Nat := 1024

/-- `int` is signed and 32 bits wide. -/
def toInt (x : Int) : Int := x.bmod (2 ^ 32)

/-- `block_t`. -/
abbrev Block := List UInt8

def zeroBlock : Block := List.replicate defaultTransfer 0

/-- What `fill_random` writes. -/
def fillBlock : Block := List.replicate defaultTransfer 0xff

/-- `struct all` and `struct local`. -/
structure Map where
  used : Nat → Bool
  permut : Nat → Nat
  table : Nat → Block
  maxIndex : Int
  paddr : Nat → Nat
  forwrite : Nat → Bool
  count : Nat → Int

/-- After the `init` section. -/
def Map.init (memInit : Bool) : Map where
  used _ := false
  permut := id
  table _ := if memInit then fillBlock else zeroBlock
  maxIndex := 0
  paddr _ := 0
  forwrite _ := false
  count _ := 0

inductive Fault
  /-- A check of the brick ends the process. -/
  | fatal
  /-- An access outside of an array. -/
  | overrun
  deriving DecidableEq

/-- `n` elements from `i` on are inside of the arrays. A negative `n` is a huge one for
`memmove`, `memset` and `memcpy`. -/
def Inside (i n : Int) : Prop := 0 ≤ n ∧ (n = 0 ∨ 0 ≤ i ∧ i + n ≤ maxElems)

instance (i n : Int) : Decidable (Inside i n) := by
  unfold Inside
  infer_instance

/-- `index` of an address. -/
def blockIndex (logAddr : Nat) : Int := toInt (logAddr / defaultTransfer : Nat)

/-! ## `$create` and `$delete` -/

/-- `used` of `n` blocks from `index` on. -/
def Map.setUsed (s : Map) (index n : Nat) (used : Bool) : Map :=
  { s with used := memset s.used index used n }

/-- The blocks behind the elements from `index` on are overwritten one by one. -/
def writeLoop (s : Map) (g : Nat → Block) (index : Nat) : Nat → Map
  | 0 => s
  | n + 1 =>
    let s := writeLoop s g index n
    { s with table := Function.update s.table (s.permut (index + n)) (g n) }

/-- `$create`. -/
def create (s : Map) (logAddr logLen : Nat) (clear : Bool) : Except Fault Map :=
  let index := blockIndex logAddr
  let n := logLen / defaultTransfer
  if index < 0 ∨ maxElems ≤ index then .error .fatal
  else if ¬ Inside index n then .error .overrun
  else if 0 < logLen % defaultTransfer then .error .fatal
  else
    let s := if clear then writeLoop s (fun _ => zeroBlock) index.toNat n else s
    let s := s.setUsed index.toNat n true
    .ok { s with maxIndex := max s.maxIndex (index + n) }

/-- `$delete`. With `memInit` what was in the blocks is overwritten. -/
def delete (memInit : Bool) (s : Map) (logAddr logLen : Nat) : Except Fault Map :=
  let index := blockIndex logAddr
  let n := logLen / defaultTransfer
  if index < 0 ∨ maxElems ≤ index then .error .fatal
  else if ¬ Inside index n then .error .overrun
  else if 0 < logLen % defaultTransfer then .error .fatal
  else
    let s := if memInit then writeLoop s (fun _ => fillBlock) index.toNat n else s
    .ok (s.setUsed index.toNat n false)

/-! ## `$trans` -/

inductive Direction
  | read
  | write
  | stop
  deriving DecidableEq

/-- `do_trans`. `buf` is the memory at `@phys_addr`, block by block. -/
def doTrans (s : Map) (index : Int) (logLen : Nat) (direction : Direction)
    (buf : Option (Nat → Block)) : Except Fault (Map × (Nat → Block)) :=
  let n := logLen / defaultTransfer
  match buf with
  | none => .error .fatal
  | some buf =>
    if direction = .stop then if 0 < logLen then .error .fatal else .ok (s, buf)
    else if ¬ Inside index n then .error .overrun
    else if 0 < logLen % defaultTransfer then .error .fatal
    else if direction = .read then
      .ok (s, fun i => if i < n then s.table (s.permut (index.toNat + i)) else buf i)
    else .ok (writeLoop s buf index.toNat n, buf)

/-- `$trans`. Without a result the block is not used. -/
def trans (s : Map) (logAddr logLen : Nat) (direction : Direction) (buf : Option (Nat → Block)) :
    Except Fault (Option (Map × (Nat → Block))) :=
  let index := blockIndex logAddr
  if index < 0 ∨ maxElems ≤ index then .error .fatal
  else if !s.used index.toNat then .ok none
  else (doTrans s index logLen direction buf).map some

/-! ## `$move` -/

/-- The fields of `struct args` that `$move` reads. -/
structure MoveArgs where
  logAddr : Nat
  logLen : Nat
  offset : Int
  offsetMax : Int
  deriving DecidableEq

/-- `MOVE1`. -/
def move1 {α : Type} (ptr : Nat → α) (source len offs victimSize : Nat) : Nat → α :=
  let tmp := fun j => ptr (source + len + j)
  let ptr := memmove ptr (source + offs) source len
  memcpy ptr source tmp victimSize

/-- `MOVE2`. -/
def move2 {α : Type} (ptr : Nat → α) (source len offs victimSize : Nat) : Nat → α :=
  let tmp := fun j => ptr (source - offs + j)
  let ptr := memmove ptr (source - offs) source len
  memcpy ptr (source + len - victimSize) tmp victimSize

/-- The path for `@offset > 0`. -/
def moveUp (s : Map) (a : MoveArgs) : Except Fault Map :=
  let len := toInt (a.logLen / defaultTransfer : Nat)
  let offs := toInt (a.offset.tdiv defaultTransfer)
  let source := blockIndex a.logAddr
  let maxAddr := toInt (source + len + offs)
  let victimSize := min offs len
  if source < 0 ∨ maxElems ≤ maxAddr then .error .fatal
  else if Inside source len ∧ Inside (source + offs) len ∧ Inside source victimSize ∧
      Inside (source + len) victimSize then
    let (source, len, offs, victimSize) := (source.toNat, len.toNat, offs.toNat, victimSize.toNat)
    .ok { s with
      maxIndex := max s.maxIndex maxAddr
      used := memset (memmove s.used (source + offs) source len) source false victimSize
      permut := move1 s.permut source len offs victimSize
      paddr := move1 s.paddr source len offs victimSize
      forwrite := move1 s.forwrite source len offs victimSize
      count := move1 s.count source len offs victimSize }
  else .error .overrun

/-- The path for `@offset < 0`. -/
def moveDown (s : Map) (a : MoveArgs) : Except Fault Map :=
  let len := toInt (a.logLen / defaultTransfer : Nat)
  let offs := toInt ((-a.offset).tdiv defaultTransfer)
  let source := blockIndex a.logAddr
  let victimSize := min offs len
  if source < 0 ∨ maxElems ≤ toInt (source + len) then .error .fatal
  else if Inside source len ∧ Inside (source - offs) len ∧ Inside (source - offs) victimSize ∧
      Inside (source + len - victimSize) victimSize then
    let (source, len, offs, victimSize) := (source.toNat, len.toNat, offs.toNat, victimSize.toNat)
    .ok { s with
      used := memset (memmove s.used (source - offs) source len) (source + len - victimSize) false
        victimSize
      permut := move2 s.permut source len offs victimSize
      paddr := move2 s.paddr source len offs victimSize
      forwrite := move2 s.forwrite source len offs victimSize
      count := move2 s.count source len offs victimSize }
  else .error .overrun

/-! ## `$move` with `MEM_INIT` -/

/-- `_copy2`. -/
def copy2 (s : Map) (sIndex tIndex : Nat) : Map :=
  let permut := exchange s.permut sIndex tIndex
  { s with
    used := Function.update (Function.update s.used tIndex (s.used sIndex)) sIndex false
    permut := permut
    paddr := exchange s.paddr sIndex tIndex
    forwrite := exchange s.forwrite sIndex tIndex
    count := exchange s.count sIndex tIndex
    table := Function.update s.table (permut sIndex) fillBlock }

/-- The loop of `_copy2` from `source` down to `border`. -/
def upLoop (border : Int) : Nat → Map → Int → Int → Except Fault Map
  | 0, s, _, _ => .ok s
  | n + 1, s, source, target =>
    if border ≤ source then
      if source < 0 ∨ target < 0 then .error .overrun
      else upLoop border n (copy2 s source.toNat target.toNat) (source - 1) (target - 1)
    else .ok s

/-- The path for `@offset > 0`. -/
def moveUpEach (s : Map) (a : MoveArgs) : Except Fault Map :=
  let endAddr := add64 a.logAddr a.logLen
  let border := blockIndex a.logAddr
  let source := toInt ((endAddr / defaultTransfer : Nat) - 1)
  let target := toInt (a.offset.tdiv defaultTransfer + source)
  if source < 0 ∨ maxElems ≤ source ∨ target < 0 ∨ maxElems ≤ target then .error .fatal
  else
    let s := { s with maxIndex := max s.maxIndex (target + 1) }
    upLoop border (source - border + 1).toNat s source target

/-- `_copy`. -/
def copy (s : Map) (source target : Nat) : Except Fault Map :=
  let sIndex := blockIndex source
  let tIndex := blockIndex target
  if sIndex < 0 ∨ maxElems ≤ sIndex ∨ tIndex < 0 ∨ maxElems ≤ tIndex then .error .fatal
  else .ok (copy2 s sIndex.toNat tIndex.toNat)

/-- The loop of `_copy` over `n` blocks. -/
def downLoop (offset : Int) : Nat → Map → Nat → Except Fault Map
  | 0, s, _ => .ok s
  | n + 1, s, source => do
    let target := ((source + offset) % addrSpace).toNat
    let s ← copy s source target
    downLoop offset n s (source + defaultTransfer)

/-- The path for `@offset < 0`. -/
def moveDownEach (s : Map) (a : MoveArgs) : Except Fault Map :=
  let endAddr := add64 a.logAddr a.logLen
  downLoop a.offset ((endAddr - a.logAddr) / defaultTransfer) s a.logAddr

/-- `$move`. `MEM_INIT` chooses between one element after the other and all at once. -/
def move (memInit : Bool) (s : Map) (a : MoveArgs) : Except Fault Map :=
  if a.offsetMax < a.offset then .error .fatal
  else if 0 < a.logLen % defaultTransfer then .error .fatal
  else if 0 < a.offset then if memInit then moveUpEach s a else moveUp s a
  else if a.offset < 0 then if memInit then moveDownEach s a else moveDown s a
  else .ok s

/-! ## The system -/

inductive Event
  | create (logAddr logLen : Nat) (clear : Bool)
  | delete (logAddr logLen : Nat)
  | trans (logAddr logLen : Nat) (direction : Direction) (buf : Option (Nat → Block))
  | move (a : MoveArgs)

/-- A step that ends in a fault has no successor. -/
def step (memInit : Bool) (s : Map) : Event → Option Map
  | .create logAddr logLen clear => (create s logAddr logLen clear).toOption
  | .delete logAddr logLen => (delete memInit s logAddr logLen).toOption
  | .trans logAddr logLen direction buf =>
    (trans s logAddr logLen direction buf).toOption.map fun r => (r.map Prod.fst).getD s
  | .move a => (move memInit s a).toOption

def Init (memInit : Bool) (s : Map) : Prop := s = Map.init memInit

end Athomux.MapDummy
