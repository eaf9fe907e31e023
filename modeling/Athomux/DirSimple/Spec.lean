import Athomux.Lib.Run
import Athomux.Args
import Athomux.PtrCache.Proofs
import Mathlib.Logic.Function.Basic

/-!
# A directory of files in one nest

`#dir_simple` keeps a table of names and offsets, and puts the files one behind the other into the
nest behind `:<in`. A file that needs more room shifts the files behind it. The two sections of the
nest have a layout of their own each. The table is read and written through a pointer cache.
-/

open Lib

namespace Athomux.DirSimple

def defaultTransfer : Nat := 4096

def entrySize : Nat := 128

/-- The section in which the directory table is. -/
def dirSection : Nat := 1

def roundup (nr base : Nat) : Nat := ((nr - 1) / base + 1) * base

/-- `DIR_MAX`, from 500. -/
def dirMax : Nat := roundup 500 (defaultTransfer / entrySize)

def nameSize : Nat := 48

/-- `POSTGAP(sect)`. -/
def postgap (sect : Nat) : Nat := ((dirSection - sect) * 3 + 1) * defaultTransfer

/-! ## The table -/

/-- `struct offsets`. -/
structure Offsets where
  offStart : Nat
  offLen : Nat
  offBorder : Nat
  deriving DecidableEq

/-- `struct section_offsets`. -/
structure SectionOffsets where
  start : Nat
  stop : Nat
  deriving DecidableEq

/-- `struct entry`, with its `off[sect]`. -/
structure Entry where
  off : Nat → Offsets
  name : List UInt8

/-- `struct dir_control_block`, and the entries behind it. -/
structure Table where
  entryCount : Nat
  entryMax : Nat
  descOff : Nat → SectionOffsets
  entry : Nat → Entry

def Table.off (t : Table) (sect i : Nat) : Offsets := (t.entry i).off sect

def Table.setOff (t : Table) (sect i : Nat) (o : Offsets) : Table :=
  { t with
    entry := fun j => if j = i then
      { t.entry j with off := Function.update (t.entry j).off sect o } else t.entry j }

def Table.setStop (t : Table) (sect stop : Nat) : Table :=
  { t with descOff := Function.update t.descOff sect { t.descOff sect with stop := stop } }

/-- What `new_dir` creates. The new block is clear. -/
def newDir (count : Nat) : Table where
  entryCount := 2
  entryMax := roundup count (defaultTransfer / entrySize)
  descOff := Function.update (fun _ => ⟨0, 0⟩) dirSection
    ⟨roundup count (defaultTransfer / entrySize) * entrySize,
      roundup count (defaultTransfer / entrySize) * entrySize⟩
  entry := fun _ => ⟨fun _ => ⟨0, 0, 0⟩, []⟩

/-! ## `$output_init` of `:>out` -/

/-- The loop over the entries. The first empty one is kept in `empty`. -/
def Table.search (t : Table) (param : List UInt8) : Nat → Nat → Nat → Nat × Nat
  | 0, _, empty => (0, empty)
  | n + 1, i, empty =>
    if (t.entry i).name = [] then t.search param n (i + 1) (if empty = 0 then i else empty)
    else if (t.entry i).name = param then (i, empty)
    else t.search param n (i + 1) empty

/-- The entry is taken for a new file of length 0. -/
def Table.newEntry (t : Table) (empty : Nat) (param : List UInt8) : Table :=
  { t with
    entryCount := if t.entryCount ≤ empty + 1 ∧ t.entryCount < t.entryMax then t.entryCount + 1
      else t.entryCount
    entry := Function.update t.entry empty
      ⟨fun sect => if sect ≤ dirSection then ⟨(t.descOff sect).stop, 0, 0⟩
        else (t.entry empty).off sect, param.take (nameSize - 1)⟩ }

/-- The table afterwards, and `entry_index`, if the operation succeeds. -/
def Table.instOut (t : Table) (param : List UInt8) (clear : Bool) : Table × Option Nat :=
  let (found, empty) := t.search param (t.entryCount - 1) 1 0
  if found ≠ 0 then (t, some found)
  else if clear = false ∨ empty = 0 then (t, none)
  else (t.newEntry empty param, some empty)

/-! ## `$create` and `$move` -/

/-- A difference of 64 bits as `offs_t`. -/
def signed (a : Int) : Int :=
  if a % addrSpace < 2 ^ 63 then a % addrSpace else a % addrSpace - addrSpace

/-- An `addr_t` and an `offs_t` are added. -/
def addOff (a : Nat) (d : Int) : Nat := ((a + d) % addrSpace).toNat

/-- The operations that `:<in` has done. -/
inductive Call
  | create (addr len : Nat) (clear : Bool)
  | move (addr len : Nat) (offset : Int)
  deriving DecidableEq

structure Result where
  table : Table
  calls : List Call
  success : Bool

/-- `correct_infos`. -/
def Table.correctInfos (t : Table) (sect index start : Nat) (delta : Int) : Table :=
  { t with
    descOff := Function.update t.descOff sect
      { t.descOff sect with stop := addOff (t.descOff sect).stop delta }
    entry := fun i =>
      let o := t.off sect i
      let new : Offsets :=
        if i = index then ⟨o.offStart, addOff o.offLen delta, addOff o.offBorder delta⟩
        else if 1 ≤ i ∧ i < t.entryCount ∧ start ≤ o.offStart then
          { o with offStart := addOff o.offStart delta }
        else o
      { t.entry i with off := Function.update (t.entry i).off sect new } }

/-- By how much `change_size` shifts, if it does. -/
def Table.delta (t : Table) (sect index newBorder postgap : Nat) : Int :=
  let delta := signed (newBorder - (t.off sect index).offBorder)
  if 0 < delta then signed (delta + postgap) else 0

/-- Where the region of a file ends, in the `:<in` nest. -/
def Table.regionStop (t : Table) (sect index : Nat) : Nat :=
  add64 (t.off sect index).offStart (t.off sect index).offBorder

/-- The end of `change_size`. -/
def Table.changeLen (t : Table) (sect index newLen : Nat) (calls : List Call) : Result :=
  let o := t.off sect index
  if o.offBorder < newLen then ⟨t, calls, false⟩
  else ⟨if o.offLen < newLen then t.setOff sect index { o with offLen := newLen } else t, calls,
    true⟩

/-- `change_size`. `ok` is the answer of `:<in`. -/
def Table.changeSize (t : Table) (sect index newLen newBorder postgap : Nat) (ok : Bool) :
    Result :=
  let o := t.off sect index
  let start := t.regionStop sect index
  let stop := (t.descOff sect).stop
  let delta := t.delta sect index newBorder postgap
  if newBorder < newLen then ⟨t, [], false⟩
  else if 0 < signed (newBorder - o.offBorder) then
    if ok = false then ⟨t, [], false⟩
    else if start < stop then
      (t.correctInfos sect index start delta).changeLen sect index newLen
        [.move start (sub64 stop start) delta]
    else
      let start := addOff start delta
      ((t.setStop sect start).setOff sect index
        { o with offBorder := sub64 start o.offStart }).changeLen sect index newLen
          [.create start 0 false]
  else t.changeLen sect index newLen []

/-- Where `$create` changes the size. -/
def Table.extend (t : Table) (sect index border : Nat) (ok : Bool) : Result :=
  if (t.off sect index).offLen < border then
    t.changeSize sect index border border (postgap sect) ok
  else ⟨t, [], true⟩

/-- `$create`. `grows` is the answer to the call of `change_size`, and `ok` the one to the forwarded
operation. -/
def Table.create (t : Table) (sect index logAddr logLen : Nat) (clear grows ok : Bool) : Result :=
  let border := add64 logAddr logLen
  let r := t.extend sect index border grows
  let o := r.table.off sect index
  if r.success = false then r
  else if logLen = 0 then r
  -- `@.fatal`
  else if add64 o.offStart o.offLen < border then { r with success := false }
  else if ok then
    { r with
      calls := r.calls ++ [.create (add64 logAddr o.offStart) logLen clear] }
  else { r with success := false }

/-- The last border that `$move` may reach. -/
def moveBorder (logAddr logLen : Nat) (offsetMax : Int) : Nat :=
  if 0 < offsetMax then addOff (add64 logAddr logLen) offsetMax else add64 logAddr logLen

/-- `$move`. `ok` and `delta` are the answer of `:<in`. -/
def Table.move (t : Table) (sect index logAddr logLen : Nat) (offset offsetMax : Int) (ok : Bool)
    (delta : Int) : Result :=
  let o := t.off sect index
  let base := add64 logAddr o.offStart
  if offsetMax < offset ∨ signed logAddr < -offset then ⟨t, [], false⟩
  else if ok = false then ⟨t, [], false⟩
  else if moveBorder logAddr logLen offsetMax ≤ o.offBorder then
    let newLen := addOff (add64 logAddr logLen) delta
    ⟨if o.offLen < newLen then t.setOff sect index { o with offLen := newLen } else t,
      [.move base logLen delta], true⟩
  else
    ⟨t.correctInfos sect index base delta,
      [.move base (sub64 (t.descOff sect).stop base) delta], true⟩

/-! ## The system -/

/-- `outs` is the `entry_index` of each output, 0 before it is instantiated. -/
structure Sys where
  table : Table
  outs : Nat → Nat

/-- The operations of the outputs, with the answers of `:<in`. -/
inductive Event
  /-- `$output_init` with `constr`. -/
  | init (out : Nat) (param : List UInt8) (clear : Bool)
  /-- `$output_init` with `destr`. -/
  | exit (out : Nat)
  | create (out sect logAddr logLen : Nat) (clear grows ok : Bool)
  | move (out sect logAddr logLen : Nat) (offset offsetMax : Int) (ok : Bool) (delta : Int)
  deriving DecidableEq

/-- What the operations do with pointers that are good. Only an output that is instantiated is
operated on. -/
def step (s : Sys) : Event → Option Sys
  | .init out param clear =>
    match s.table.instOut param clear with
    | (t, some index) => some ⟨t, Function.update s.outs out index⟩
    | (t, none) => some { s with table := t }
  | .exit out => some { s with outs := Function.update s.outs out 0 }
  | .create out sect logAddr logLen clear grows ok =>
    if s.outs out ≠ 0 ∧ sect ≤ dirSection then
      some { s with table := (s.table.create sect (s.outs out) logAddr logLen clear grows ok).table }
    else none
  | .move out sect logAddr logLen offset offsetMax ok delta =>
    if s.outs out ≠ 0 ∧ sect ≤ dirSection then
      some { s with
        table := (s.table.move sect (s.outs out) logAddr logLen offset offsetMax ok delta).table }
    else none

/-! ## The pointers

A slot of the pointer cache holds one block of the table. A pointer into a block is good until another
block takes its slot.
-/

/-- `use PC dirtable [4] aligned(DEFAULT_TRANSFER) round`. -/
def dirtable : PcConfig := .rounded 4 (by decide)

/-- The pointer to entry `i` is still good after a get of each of the entries `js`. The control block
is at entry 0. -/
def Kept (i : Nat) (js : List Nat) : Prop :=
  ∀ j ∈ js, dirtable.hash (j * entrySize) = dirtable.hash (i * entrySize) →
    dirtable.baseAddr2 (j * entrySize) = dirtable.baseAddr2 (i * entrySize)

instance (i : Nat) (js : List Nat) : Decidable (Kept i js) := by
  unfold Kept
  infer_instance

/-- The entries that the loop of `$output_init` has got when it reads `control` for the last time. The
one for a new file is among them. -/
def Table.looked (t : Table) (param : List UInt8) : List Nat :=
  let found := (t.search param (t.entryCount - 1) 1 0).1
  List.range' 1 ((if found ≠ 0 then found else t.entryCount) - 1)

/-- `control` stays good in `$output_init`. -/
def Table.InstHeld (t : Table) (param : List UInt8) : Prop := Kept 0 (t.looked param)

/-- The entries that `correct_infos` gets. -/
def Table.others (t : Table) (index : Nat) : List Nat :=
  (List.range' 1 (t.entryCount - 1)).filter (· ≠ index)

/-- `entry` and `control` stay good in `$create`. `change_size` gets `control` after `entry`, and reads
both of them again behind `correct_infos`. -/
def Table.CreateHeld (t : Table) (sect index logAddr logLen : Nat) (grows : Bool) : Prop :=
  let o := t.off sect index
  let border := add64 logAddr logLen
  o.offLen < border → 0 < signed (border - o.offBorder) →
    Kept index [0] ∧ (grows = true → t.regionStop sect index < (t.descOff sect).stop →
      Kept 0 (t.others index) ∧ Kept index (t.others index))

/-- The same for `$move`, which needs `entry` up to the loop of `correct_infos`. -/
def Table.MoveHeld (t : Table) (sect index logAddr logLen : Nat) (offset offsetMax : Int)
    (ok : Bool) : Prop :=
  ¬(offsetMax < offset ∨ signed logAddr < -offset) →
    (t.off sect index).offBorder < moveBorder logAddr logLen offsetMax →
      Kept index [0] ∧ (ok = true → Kept 0 (t.others index))

/-- No pointer is used that is not good any more. -/
def Sys.Held (s : Sys) : Event → Prop
  | .init _ param _ => s.table.InstHeld param
  | .exit _ => True
  | .create out sect logAddr logLen _ grows _ =>
    s.table.CreateHeld sect (s.outs out) logAddr logLen grows
  | .move out sect logAddr logLen offset offsetMax ok _ =>
    s.table.MoveHeld sect (s.outs out) logAddr logLen offset offsetMax ok

instance (s : Sys) (e : Event) : Decidable (s.Held e) := by
  unfold Sys.Held Table.InstHeld Table.CreateHeld Table.MoveHeld
  split <;> infer_instance

/-- An event, and the state that it leaves when a pointer is used that is not good any more. The memory
behind such a pointer may belong to anything. -/
abbrev Attempt := Event × Sys

def pcStep (s : Sys) (x : Attempt) : Option Sys :=
  (step s x.1).map fun u => if s.Held x.1 then u else x.2

/-- The pointers stay good. -/
def Held (s : Sys) (x : Attempt) : Prop := s.Held x.1

instance (s : Sys) (x : Attempt) : Decidable (Held s x) := inferInstanceAs (Decidable (s.Held x.1))

/-- A new directory. -/
def Init (s : Sys) : Prop := s.table = newDir dirMax ∧ ∀ out, s.outs out = 0

/-! ## What keeps a pointer good -/

theorem Kept.mono {i : Nat} {js ks : List Nat} (h : Kept i ks) (hsub : ∀ j ∈ js, j ∈ ks) : Kept i js :=
  fun j hj => h j (hsub j hj)

/-- A block has 32 entries, and four blocks have slots of their own. -/
theorem kept_of_lt {i : Nat} {js : List Nat} (hi : i < 128) (hjs : ∀ j ∈ js, j < 128) :
    Kept i js := by
  intro j hj hslot
  have hj := hjs j hj
  unfold dirtable PcConfig.rounded PcConfig.hash PcConfig.baseAddr2 entrySize at *
  simp only at *
  omega

/-- A get of an entry leaves a slot as it is, unless it is for another block of that slot. -/
theorem slot_get_iff {c : PtrCache} {b : Buffer} {i j : Nat} {dirty : Bool} {r : GetReply}
    (hb : c.slot (dirtable.hash (i * entrySize)) = some b)
    (hlog : b.logAddr = dirtable.baseAddr2 (i * entrySize)) :
    (c.pcGet dirtable (j * entrySize) entrySize dirty r).2.slot (dirtable.hash (i * entrySize)) =
      some b ↔ Kept i [j] := by
  have hget : (c.pcGet dirtable (j * entrySize) entrySize dirty r).2.slot =
      (c.fetch dirtable (j * entrySize) entrySize r).slot := PtrCache.slot_lookUp
  have hround : dirtable.baseAddr2 (j * entrySize) % 4 = 0 := by
    unfold dirtable PcConfig.rounded PcConfig.baseAddr2
    simp only
    omega
  rw [hget, Kept, List.forall_mem_singleton]
  by_cases hslot : dirtable.hash (j * entrySize) = dirtable.hash (i * entrySize)
  · rw [← hslot] at hb ⊢
    refine ⟨fun hsame _ => (PtrCache.fetch_logAddr hround hsame).symm.trans hlog, fun hbase => ?_⟩
    have hhit : ¬c.misses dirtable (j * entrySize) = true := fun hmiss =>
      (PtrCache.misses_iff hround hb).mp hmiss (hlog.trans (hbase rfl).symm)
    rw [PtrCache.fetch, if_neg hhit, hb]
  · rw [PtrCache.slot_fetch_of_ne (Ne.symm hslot), hb]
    exact iff_of_true rfl fun h => absurd h hslot

/-- **A pointer that is kept** is into the block that its slot holds, whatever the gets of the other
entries are answered. -/
theorem Kept.slot {c : PtrCache} {b : Buffer} {i : Nat} {gets : List (Nat × Bool × GetReply)}
    (h : Kept i (gets.map Prod.fst)) (hb : c.slot (dirtable.hash (i * entrySize)) = some b)
    (hlog : b.logAddr = dirtable.baseAddr2 (i * entrySize)) :
    (gets.foldl (fun c g => (c.pcGet dirtable (g.1 * entrySize) entrySize g.2.1 g.2.2).2) c).slot
      (dirtable.hash (i * entrySize)) = some b := by
  induction gets generalizing c with
  | nil => exact hb
  | cons g gets ih =>
    have hfirst : Kept i [g.1] := fun j hj => h j (List.mem_cons.mpr (Or.inl (List.mem_singleton.mp hj)))
    exact ih (h.mono fun j hj => List.mem_cons_of_mem _ hj) ((slot_get_iff hb hlog).mpr hfirst)

theorem pcStep_of_held {s : Sys} {x : Attempt} (h : s.Held x.1) : pcStep s x = step s x.1 := by
  unfold pcStep
  simp only [if_pos h, Option.map_id']

/-- A run whose pointers are good is one of the operations alone. -/
theorem reach_of_held {init : Sys → Prop} {ok : Sys → Event → Prop} {s : Sys}
    (h : Reach pcStep init (fun s x => s.Held x.1 ∧ ok s x.1) s) : Reach step init ok s := by
  induction h with
  | start h0 => exact .start h0
  | next _ hok hs ih => exact .next ih hok.2 ((pcStep_of_held hok.1).symm.trans hs)

end Athomux.DirSimple
