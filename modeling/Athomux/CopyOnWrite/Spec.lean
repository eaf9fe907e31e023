import Athomux.PtrCache.Spec

/-!
# `copy_on_write`

Two outputs that have private copies of the blocks of one input. The copies and the entries of the
hash tables are in memory from `device_mem_ulinux`, behind the pointer cache `mem`. A block is known
by its address in memory, and `block_hash_entry` is split by fields.
-/

namespace Athomux

open Lib

/-- The contents of a block. -/
abbrev Block := Fin 4096 → UInt8

/-- `out1` and `out2`. -/
inductive CowOut
  | out1
  | out2
  deriving DecidableEq, Repr

/-- `sizeof(block_hash_entry)`. -/
def sizeofBlockHashEntry : Nat := 24

structure CopyOnWrite where
  /-- `hash1` and `hash2`. -/
  hash : CowOut → Nat → Nat
  pc : PtrCache
  logAddr : Nat → Nat
  blockAddr : Nat → Nat
  next : Nat → Nat
  data : Nat → Block
  /-- What `malloc` has given. -/
  allocated : List Nat

/-- The input: what its blocks contain, and where in its memory it has which one. -/
structure CowInput where
  contents : Nat → Block
  blockAt : Nat → Option Nat

namespace CopyOnWrite

variable (inp : CowInput) (s : CopyOnWrite)

/-- `block_hash_func`. -/
def blockHashFunc (addr : Nat) : Nat := addr / 65536 % 4096

/-! ## The pointer cache -/

/-- `$gettranswait` of `device_mem_ulinux`. -/
def deviceGet (addr len : Nat) : GetReply := if addr = 0 then ⟨false, 0, 0⟩ else ⟨true, addr, len⟩

/-- `$gadr` and `$createget` of `device_mem_ulinux`, where `malloc` returns `p`. -/
def deviceCreate (p len : Nat) : CreateReply :=
  if p = 0 then ⟨false, 0, len, 0, 0⟩ else ⟨true, p, len, p, len⟩

/-- What the device returns to `PC_GET(mem, ..)`. -/
def memReply (addr len : Nat) : GetReply :=
  deviceGet (PcElem.clearBits (PcConfig.plain.baseAddr addr))
    (PcConfig.plain.baseLen (PcConfig.plain.baseOffset addr) len)

/-- `PC_GET(mem, ..)` and `PC_GET_DIRTY(mem, ..)`. -/
def memGet (addr len : Nat) (dirty : Bool) : Nat × CopyOnWrite :=
  let x := s.pc.pcGet .plain addr len dirty (memReply addr len)
  (x.1, { s with pc := x.2 })

/-- What `malloc` may return: aligned memory that nothing else is in. -/
def Fresh (p : Nat) : Prop :=
  p % 8 = 0 ∧ p < addrSpace ∧ p ∉ s.allocated ∧ inp.blockAt p = none

instance (p : Nat) : Decidable (s.Fresh inp p) :=
  inferInstanceAs (Decidable (p % 8 = 0 ∧ p < addrSpace ∧ p ∉ s.allocated ∧ inp.blockAt p = none))

/-- `PC_ALLOC(mem, ..)`, to the pointer and the address, when `malloc` returns `p`. -/
def memAlloc (len p : Nat) : Option (Nat × Nat × CopyOnWrite) :=
  if ¬ s.Fresh inp p then none
  else
    (s.pc.pcAlloc .plain len (deviceCreate p (PcConfig.plain.baseLen 0 len))).map fun x =>
      (x.1, x.2.1, { s with pc := x.2.2, allocated := p :: s.allocated })

/-! ## The hash tables -/

/-- The loop of `get_block_addr1` and `get_block_addr2`. -/
def findLoop (a : Nat) : Nat → Nat → CopyOnWrite → Nat × CopyOnWrite
  | fuel + 1, e, s =>
    if e ≠ 0 ∧ s.logAddr e ≠ a then
      let x := s.memGet (s.next e) sizeofBlockHashEntry false
      findLoop a fuel x.1 x.2
    else (e, s)
  | 0, e, s => (e, s)

/-- `get_block_addr1` and `get_block_addr2`. Without a result `@success` is not set. -/
def getBlockAddr (out : CowOut) (a : Nat) : Option Nat × CopyOnWrite :=
  let h := s.hash out (blockHashFunc a)
  if h = 0 then (none, s)
  else
    let x := s.memGet h sizeofBlockHashEntry false
    let y := findLoop a (x.2.allocated.length + 1) x.1 x.2
    if y.1 ≠ 0 ∧ y.2.logAddr y.1 = a then (some (y.2.blockAddr y.1), y.2) else (none, y.2)

/-- `add_block_addr1` and `add_block_addr2`. -/
def addBlockAddr (out : CowOut) (logAddr blockAddr p : Nat) : Option CopyOnWrite :=
  (s.memAlloc inp sizeofBlockHashEntry p).map fun x =>
    let s := x.2.2
    let h := blockHashFunc logAddr
    { s with
      logAddr := Function.update s.logAddr x.1 logAddr
      blockAddr := Function.update s.blockAddr x.1 blockAddr
      next := Function.update s.next x.1 (s.hash out h)
      hash := Function.update s.hash out (Function.update (s.hash out) h x.2.1) }

/-! ## The outputs -/

/-- What a get is given: the arguments, the buffer that the input returns, what the two calls of
`malloc` return, and what is in the first one. -/
structure GetArgs where
  out : CowOut
  logAddr : Nat
  logLen : Nat
  forwrite : Bool
  reply : Option Nat
  newBlock : Nat
  newEntry : Nat
  junk : Block

/-- `$gettranswait`, to `phys_addr` when it succeeds. There is no result when `malloc` fails. -/
def gettranswait (x : GetArgs) : Option (Option Nat × CopyOnWrite) :=
  let y := s.getBlockAddr x.out x.logAddr
  let s := y.2
  match y.1 with
  | some addr =>
    let z := s.memGet addr x.logLen x.forwrite
    some (some z.1, z.2)
  | none =>
    if x.forwrite then
      (s.memAlloc inp 4096 x.newBlock).bind fun z =>
        let s := { z.2.2 with data := Function.update z.2.2.data x.newBlock x.junk }
        (s.addBlockAddr inp x.out x.logAddr z.2.1 x.newEntry).map fun s => (some z.1, s)
    else some (x.reply, s)

/-- A byte is stored through a pointer. -/
def store (p : Nat) (off : Fin 4096) (byte : UInt8) : CopyOnWrite :=
  { s with data := Function.update s.data p (Function.update (s.data p) off byte) }

/-! ## Runs -/

/-- The private copies that the outputs should have: no copy while a block is shared. -/
abbrev Copies := CowOut → Nat → Option Block

/-- The table with `b` for one block of one output. -/
def setAt {β : Type} (f : CowOut → Nat → Option β) (out : CowOut) (a : Nat) (b : β) :
    CowOut → Nat → Option β :=
  Function.update f out (Function.update (f out) a (some b))

/-- What a get for the block should show. -/
def Copies.shows (k : Copies) (out : CowOut) (a : Nat) : Block := (k out a).getD (inp.contents a)

/-- The brick with its outputs in use: `buffers` are the pointers that gets for writing have
returned, each with its output and block. -/
structure Use where
  sys : CopyOnWrite
  copies : Copies
  buffers : List (CowOut × Nat × Nat)

inductive CowEvent
  | get (x : GetArgs)
  | store (out : CowOut) (a p : Nat) (off : Fin 4096) (byte : UInt8)
  | put

/-- The copies after a get. A get for writing makes the block private. -/
def Copies.get (k : Copies) (x : GetArgs) : Copies :=
  if x.forwrite then setAt k x.out x.logAddr (k.shows inp x.out x.logAddr) else k

/-- The input returns its buffers for the block that is asked for, and stores go through buffers that
gets for writing have returned. -/
def step : Use → CowEvent → Option Use
  | u, .get x =>
    if x.reply.all fun q => inp.blockAt q = some x.logAddr then
      (u.sys.gettranswait inp x).map fun y =>
        { sys := y.2
          copies := u.copies.get inp x
          buffers := (if x.forwrite then y.1.toList.map (x.out, x.logAddr, ·) else []) ++
            u.buffers }
    else none
  | u, .store out a p off byte =>
    if (out, a, p) ∈ u.buffers then
      some { u with
        sys := u.sys.store p off byte
        copies := setAt u.copies out a (Function.update (u.copies.shows inp out a) off byte) }
    else none
  | u, .put => some u

/-- The brick after `init`, next to the memory of the input. -/
structure Start (u : Use) : Prop where
  hash : u.sys.hash = fun _ _ => 0
  pc : u.sys.pc = .init
  allocated : u.sys.allocated = []
  data : ∀ q a, inp.blockAt q = some a → u.sys.data q = inp.contents a
  copies : u.copies = fun _ _ => none
  buffers : u.buffers = []

end CopyOnWrite

end Athomux
