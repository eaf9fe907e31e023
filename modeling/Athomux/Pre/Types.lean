import Mathlib.Data.List.AList

/-!
# Generic types

`parse_typedef` and the tables of `pre.pl`. A brick that uses a type of another one finds the offset
of a field at run time, in a table with a slot for each value of a hash of the name. The offsets are
C expressions, so `sizeof` is a parameter here, and so is the first byte of `md5`.
-/

namespace Athomux.Pre

/-! ## Fields -/

/-- The variants that a field is in, from outside: the group of alternatives and the label. -/
abbrev Path := List (Nat × String)

/-- `[offset, length, type]`. The hash of the source is flat and has no path. -/
structure Field where
  offset : Int
  len : Nat
  type : String
  path : Path
  deriving DecidableEq, Repr

abbrev Fields := AList fun _ : String => Field

/-- `.label.sublabel` with all the fields in it. -/
abbrev Labels := AList fun _ : List String => List String

/-- A constant expression over `OFFSET` and `LENGTH` of earlier fields. -/
abbrev Place := (String → Option Field) → Option Int

/-- One part of a definition. A selection has `=` (true) and `!` (false) with their labels. -/
inductive Item
  | field (type name : String) (place : Option Place)
  | variant (label : String) (items : List Item)
  | select (cmds : List (Bool × List String))

/-! ## `parse_typedef` -/

/-- The variables of `parse_typedef`, and the number of groups so far. Variants are in one group as
long as nothing else is between them. -/
structure Parse where
  last : Int
  new : Int
  sel : Int
  group : Nat
  fields : Fields
  labels : Labels

def Parse.start (last : Int) : Parse := ⟨last, last, 0, 0, ∅, ∅⟩

def placeOf (st : Parse) : Option Place → Option Int
  | none => some st.new
  | some p => p st.fields.lookup

def addField (sizeof : String → Nat) (deny : Bool) (st : Parse) (type name : String)
    (place : Option Place) : Option Parse :=
  if deny ∧ place.isSome then none
  else (placeOf st place).bind fun offset =>
    if name ∈ st.fields then none
    else some
      { st with
        last := offset + sizeof type
        new := offset + sizeof type
        group := st.group + 1
        fields := st.fields.insert name ⟨offset, sizeof type, type, []⟩ }

/-- The fields of a variant, as fields of what it is in. -/
def mergeFields (st : Parse) (label : String) (sub : Parse) : Fields :=
  sub.fields.entries.foldl
    (fun fs e => fs.insert e.1 { e.2 with path := (st.group, label) :: e.2.path }) st.fields

def mergeLabels (st : Parse) (label : String) (sub : Parse) : Labels :=
  (sub.labels.entries.foldl (fun ls e => ls.insert (label :: e.1) e.2) st.labels).insert [label]
    sub.fields.keys

def addVariant (st : Parse) (label : String) (sub : Parse) : Option Parse :=
  if [label] ∈ st.labels ∨ (∃ l ∈ sub.labels.keys, label :: l ∈ st.labels) ∨
      ∃ n ∈ sub.fields.keys, n ∈ st.fields then none
  else some
    { st with
      sel := max st.sel (sub.new - st.last)
      new := st.last + max st.sel (sub.new - st.last)
      fields := mergeFields st label sub
      labels := mergeLabels st label sub }

/-- The labels that a selection takes away. -/
def dropped (cmds : List (Bool × List String)) (labels : Labels) : List (List String × List String) :=
  (labels.entries.map fun e => (e.1, e.2)).filter fun e =>
    (false, e.1) ∈ cmds ∨ (∃ c ∈ cmds, c.1 = true) ∧ (true, e.1) ∉ cmds

def Parse.select (st : Parse) (cmds : List (Bool × List String)) : Parse :=
  { st with
    last := st.new
    group := st.group + 1
    fields := (dropped cmds st.labels).foldl (fun fs e => e.2.foldl (fun fs n => fs.erase n) fs)
      st.fields
    labels := (dropped cmds st.labels).foldl (fun ls e => ls.erase e.1) st.labels }

mutual

def parseItem (sizeof : String → Nat) (deny : Bool) (st : Parse) : Item → Option Parse
  | .field type name place => addField sizeof deny st type name place
  | .variant label items =>
    (parseItems sizeof deny (.start st.last) items).bind fun sub => addVariant st label sub
  | .select cmds => some (st.select cmds)

def parseItems (sizeof : String → Nat) (deny : Bool) (st : Parse) : List Item → Option Parse
  | [] => some st
  | i :: is => (parseItem sizeof deny st i).bind fun st => parseItems sizeof deny st is

end

def lastField : Item := .field "struct empty" "LASTFIELD" none

/-- `parse_typedef`. `use` has `deny`. What a type inherits is in front of its own items. -/
def parseTypedef (sizeof : String → Nat) (deny : Bool) (items : List Item) : Option Fields :=
  (parseItems sizeof deny (.start 0) (items ++ [lastField])).map (·.fields)

/-- `"$def,=$label"`. Selections that follow each other are one. -/
def withLabel (items : List Item) (label : List String) : List Item :=
  match items.getLast? with
  | some (.select cmds) => items.dropLast ++ [.select (cmds ++ [(true, label)])]
  | _ => items ++ [.select [(true, label)]]

/-! ## Tables -/

/-- The first field that is missing, or has another type. -/
def isnotSubtype (t₁ t₂ : Fields) : Option String :=
  (t₁.entries.find? fun e => (t₂.lookup e.1).all fun f => e.2.type ≠ f.type).map (·.1)

/-- `type_hash` with `$typetable_max`. -/
def typeHash (md5 : String → Nat) (name : String) : Nat := md5 name % 64

/-- What `gen_type_table` leaves at an index, when the hash has the order `order`. The last
initialiser counts. -/
def tableAt (md5 : String → Nat) (order : List (Sigma fun _ : String => Field)) (i : Nat) :
    Option Field :=
  ((order.filter fun e => typeHash md5 e.1 = i).getLast?).map (·.2)

/-- The hash that `eval_typename_code` looks a field up in. With a label it is parsed once more. -/
def typeFor (sizeof : String → Nat) (deny : Bool) (items : List Item) :
    Option (List String) → Option Fields
  | none => parseTypedef sizeof deny items
  | some label => parseTypedef sizeof true (withLabel items label)

/-- Offset and size of a field in the code of the brick that defines the type. -/
def ownAccess (sizeof : String → Nat) (items : List Item) (label : Option (List String))
    (name : String) : Option (Int × Nat) :=
  ((typeFor sizeof false items label).bind fun fs => fs.lookup name).map fun f =>
    (f.offset, sizeof f.type)

/-- Offset and size of a field in the code of a brick that uses the type. -/
def userAccess (sizeof md5 : String → Nat) (order : List (Sigma fun _ : String => Field))
    (uses : List Item) (label : Option (List String)) (name : String) : Option (Int × Nat) :=
  ((typeFor sizeof true uses label).bind fun fs => fs.lookup name).bind fun f =>
    (tableAt md5 order (typeHash md5 name)).map fun e => (e.offset, sizeof f.type)

end Athomux.Pre
