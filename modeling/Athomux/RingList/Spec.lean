import Athomux.Lib.ByteMem
import Athomux.Lib.LinkedRing
import Athomux.PtrCache.Proofs
import Mathlib.Data.Multiset.Bind

/-!
# Ring lists behind the pointer cache

The `LI_` macros. Their elements are in the nest, and they get at them through a pointer cache. What
is done to a buffer after it has been put is lost.
-/

namespace Athomux.RingList

open Lib

/-- `sizeof(struct link)`: `l_next`, and `l_prev` behind it. -/
def sizeofLink : Nat := 16

def prevField : Nat := 8

/-- A store to the links of `elem` through `ptr`, with the cache as it was then. -/
structure Access where
  cache : PtrCache
  elem : Nat
  ptr : Nat

/-- The cache, the bytes of the nest, and the memory with the buffers. -/
structure Store where
  cache : PtrCache
  nest : ByteMem
  phys : ByteMem
  stores : List Access

/-- What a call of the nest does. Only what is put with `prio_background` is kept. -/
def effect (m : ByteMem × ByteMem) : PcCall → ByteMem × ByteMem
  | .got b => (m.1, m.2.store b.ptr (m.1.load b.logAddr b.len))
  | .put b .background => (m.1.store b.logAddr (m.2.load b.ptr b.len), m.2)
  | _ => m

namespace Store

variable (c : PcConfig) (m : Store)

/-- The cache has become `t`. -/
def after (t : PtrCache) : Store :=
  let mem := (t.calls.drop m.cache.calls.length).foldl effect (m.nest, m.phys)
  { m with cache := t, nest := mem.1, phys := mem.2 }

/-- `PC_GET` and `PC_GET_DIRTY` of a whole piece. -/
def get (addr : Nat) (dirty : Bool) (r : GetReply) : Nat × Store :=
  let p := m.cache.pcGet c addr c.whole dirty r
  (p.1, m.after p.2)

/-- `LI_GET`. The offset into the piece is not added to the pointer. -/
def liGet (elem : Nat) (dirty : Bool) (r : GetReply) : Nat × Store :=
  let t := m.cache.lookUp c elem c.whole dirty r
  ((t.elems (c.hash elem)).pcPtr, m.after t)

def flush : Store := m.after (m.cache.pcFlush c)

def peek (ptr : Nat) : Nat := ofBytes (m.phys.load ptr 8)

def poke (ptr x : Nat) : Store := { m with phys := m.phys.store ptr (toBytes 8 x) }

def note (elem ptr : Nat) : Store := { m with stores := ⟨m.cache, elem, ptr⟩ :: m.stores }

/-! ## The macros -/

/-- `_LI_CONNECT`. -/
def connect (left ptrLeft right ptrRight : Nat) : Store :=
  (((m.note left ptrLeft).poke ptrLeft right).note right ptrRight).poke (ptrRight + prevField) left

/-- `LI_CONNECT`. -/
def liConnect (left right : Nat) (r1 r2 : GetReply) : Store :=
  let l := m.get c left true r1
  let r := l.2.get c right true r2
  r.2.connect left l.1 right r.1

/-- `LI_INIT`. -/
def liInit (start : Nat) (r : GetReply) : Store :=
  let s := m.get c start true r
  s.2.connect start s.1 start s.1

/-- `LI_APPEND`. -/
def liAppend (start elem : Nat) (r1 r2 r3 : GetReply) : Store :=
  let s := m.get c start true r1
  let e := s.2.get c elem true r2
  let next := e.2.peek s.1
  let n := e.2.get c next true r3
  (n.2.connect start s.1 elem e.1).connect elem e.1 next n.1

/-- `LI_PREPEND`. -/
def liPrepend (start elem : Nat) (r1 r2 r3 : GetReply) : Store :=
  let s := m.get c start true r1
  let e := s.2.get c elem true r2
  let prev := e.2.peek (s.1 + prevField)
  let p := e.2.get c prev true r3
  (p.2.connect prev p.1 elem e.1).connect elem e.1 start s.1

/-- `LI_REMOVE`. -/
def liRemove (elem : Nat) (r0 r1 r2 : GetReply) : Store :=
  let e := m.get c elem false r0
  e.2.liConnect c (e.2.peek (e.1 + prevField)) (e.2.peek e.1) r1 r2

/-- `LI_NEXT`. -/
def liNext (elem : Nat) (r : GetReply) : Nat × Store :=
  let e := m.liGet c elem false r
  (e.2.peek e.1, e.2)

end Store

/-- A macro, with the replies to its gets. -/
inductive Op
  | init (start : Nat) (r : GetReply)
  | append (start elem : Nat) (r1 r2 r3 : GetReply)
  | prepend (start elem : Nat) (r1 r2 r3 : GetReply)
  | remove (elem : Nat) (r0 r1 r2 : GetReply)
  | next (elem : Nat) (r : GetReply)
  | flush

def Store.exec (c : PcConfig) (m : Store) : Op → Store
  | .init start r => m.liInit c start r
  | .append start elem r1 r2 r3 => m.liAppend c start elem r1 r2 r3
  | .prepend start elem r1 r2 r3 => m.liPrepend c start elem r1 r2 r3
  | .remove elem r0 r1 r2 => m.liRemove c elem r0 r1 r2
  | .next elem r => (m.liNext c elem r).2
  | .flush => m.flush c

/-! ## The lists -/

abbrev Rings := Multiset (Cycle Nat)

def Rings.elems (rs : Rings) : Multiset Nat := rs.bind Cycle.toMultiset

/-- There is room for the links of one more element. -/
def Rings.Free (rs : Rings) (e : Nat) : Prop :=
  e + sizeofLink ≤ addrSpace ∧ ∀ x ∈ rs.elems, x + sizeofLink ≤ e ∨ e + sizeofLink ≤ x

/-- What the macros are for. An element that is removed from a ring of its own leaves nothing. -/
inductive RingStep : Rings → Op → Rings → Prop
  | init {rs : Rings} {start : Nat} {r : GetReply} : rs.Free start →
      RingStep rs (.init start r) (([start] : List Nat) ::ₘ rs)
  | append {rs : Rings} {start elem : Nat} {l : List Nat} {r1 r2 r3 : GetReply} :
      Rings.Free ((start :: l : List Nat) ::ₘ rs) elem →
      RingStep ((start :: l : List Nat) ::ₘ rs) (.append start elem r1 r2 r3)
        ((start :: elem :: l : List Nat) ::ₘ rs)
  | prepend {rs : Rings} {start elem : Nat} {l : List Nat} {r1 r2 r3 : GetReply} :
      Rings.Free ((start :: l : List Nat) ::ₘ rs) elem →
      RingStep ((start :: l : List Nat) ::ₘ rs) (.prepend start elem r1 r2 r3)
        ((elem :: start :: l : List Nat) ::ₘ rs)
  | remove {rs : Rings} {elem : Nat} {l : List Nat} {r0 r1 r2 : GetReply} :
      RingStep ((elem :: l : List Nat) ::ₘ rs) (.remove elem r0 r1 r2) ((l : Cycle Nat) ::ₘ rs)
  | next {rs : Rings} {elem : Nat} {l : List Nat} {r : GetReply} :
      RingStep ((elem :: l : List Nat) ::ₘ rs) (.next elem r) ((elem :: l : List Nat) ::ₘ rs)
  | flush {rs : Rings} : RingStep rs .flush rs

/-! ## What is read through the cache -/

def Covers (b : Buffer) (x : Nat) : Prop := b.logAddr ≤ x ∧ x < b.logAddr + b.len

instance (b : Buffer) (x : Nat) : Decidable (Covers b x) := inferInstanceAs (Decidable (_ ∧ _))

/-- A byte of the nest, or of the buffer that is held for it. -/
def Store.view (c : PcConfig) (m : Store) : ByteMem := fun x =>
  match (m.cache.slots c).find? (fun b => Covers b x) with
  | some b => m.phys (b.ptr + (x - b.logAddr))
  | none => m.nest x

def nextAt (mem : ByteMem) (elem : Nat) : Nat := ofBytes (mem.load elem 8)

def prevAt (mem : ByteMem) (elem : Nat) : Nat := ofBytes (mem.load (elem + prevField) 8)

/-- A store is through a buffer that is held, has the whole link and is marked. -/
def Access.Sound (c : PcConfig) (w : Access) : Prop :=
  ∃ i < c.max, ∃ b, w.cache.slot i = some b ∧ (w.cache.elems i).isDirty = true ∧
    b.logAddr ≤ w.elem ∧ w.elem + sizeofLink ≤ b.logAddr + b.len ∧
    w.ptr = b.ptr + (w.elem - b.logAddr)

/-! ## The condition -/

/-- Two regions have no byte in common. -/
def Apart (x n y k : Nat) : Prop := x + n ≤ y ∨ y + k ≤ x

/-- A get of `addr` gives the whole link. If it misses, the nest hands out memory that is not in use,
and no other slot has a byte of what is got. -/
def Fetches (c : PcConfig) (m : Store) (addr : Nat) (r : GetReply) : Prop :=
  let n := c.baseLen (c.baseOffset addr) c.whole
  c.baseAddr2 addr % 4 = 0 ∧
    if m.cache.misses c addr then
      r.granted n = true ∧ c.baseOffset addr + sizeofLink ≤ n ∧ r.physAddr + n ≤ addrSpace ∧
        ∀ i b, i ≠ c.hash addr → m.cache.slot i = some b →
          Apart b.logAddr b.len (c.baseAddr2 addr) n ∧ Apart b.ptr b.len r.physAddr n
    else c.baseOffset addr + sizeofLink ≤ (m.cache.elems (c.hash addr)).pcLen

/-- A get of `addr` does not put what is held for `held`. -/
def Keeps (c : PcConfig) (m : Store) (addr held : Nat) : Prop :=
  m.cache.misses c addr = true → c.hash held ≠ c.hash addr

/-- The condition on a macro: every get is as above, and puts nothing that is still in use. -/
def Clean (c : PcConfig) (m : Store) : Op → Prop
  | .init start r => Fetches c m start r
  | .append start elem r1 r2 r3 =>
    let s := m.get c start true r1
    let e := s.2.get c elem true r2
    Fetches c m start r1 ∧ Fetches c s.2 elem r2 ∧ Fetches c e.2 (e.2.peek s.1) r3 ∧
      Keeps c s.2 elem start ∧ Keeps c e.2 (e.2.peek s.1) start ∧ Keeps c e.2 (e.2.peek s.1) elem
  | .prepend start elem r1 r2 r3 =>
    let s := m.get c start true r1
    let e := s.2.get c elem true r2
    let prev := e.2.peek (s.1 + prevField)
    Fetches c m start r1 ∧ Fetches c s.2 elem r2 ∧ Fetches c e.2 prev r3 ∧
      Keeps c s.2 elem start ∧ Keeps c e.2 prev start ∧ Keeps c e.2 prev elem
  | .remove elem r0 r1 r2 =>
    let e := m.get c elem false r0
    let left := e.2.peek (e.1 + prevField)
    let right := e.2.peek e.1
    let l := e.2.get c left true r1
    Fetches c m elem r0 ∧ Fetches c e.2 left r1 ∧ Fetches c l.2 right r2 ∧ Keeps c l.2 right left
  | .next elem r => Fetches c m elem r
  | .flush => m.cache.pcVersion ≠ 0

/-! ## Runs -/

/-- A macro, and the lists afterwards. -/
abbrev Event := Op × Rings

def step (c : PcConfig) (s : Store × Rings) (e : Event) : Option (Store × Rings) :=
  some (s.1.exec c e.1, e.2)

def Fits (c : PcConfig) (s : Store × Rings) (e : Event) : Prop :=
  RingStep s.2 e.1 e.2 ∧ Clean c s.1 e.1

def initial (s : Store × Rings) : Prop :=
  s.1.cache = PtrCache.init ∧ s.1.stores = [] ∧ s.2 = 0

end Athomux.RingList
