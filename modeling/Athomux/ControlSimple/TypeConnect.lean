import Athomux.ControlSimple.Spec
import Mathlib.Data.Char
import Mathlib.Tactic.Common

/-!
# Matching of type names

Both lists are sorted, so one pass is enough. The tables are stored while it is going on.
-/

namespace Athomux.ControlSimple

open NetConnect (Text)

/-- The sign of `strcmp`. -/
def strcmp (s t : Text) : Ordering := compare s t

/-- The inner loop, with the last comparison. -/
def seekType (name : Text) : List GenType → List GenType × Ordering
  | [] => ([], .lt)
  | o :: out =>
    match strcmp o.typename name with
    | .lt => seekType name out
    | c => (o :: out, c)

/-- The tables that the brick of an input has stored, by their offsets. -/
abbrev Slots := Int → Option Nat

/-- The outer loop. -/
def connectTypes : List GenType → List GenType → Slots → Bool × Slots
  | [], _, slots => (true, slots)
  | i :: ins, out, slots =>
    match seekType i.typename out with
    | (o :: out, .eq) => connectTypes ins (o :: out) (Function.update slots i.offset (some o.table))
    | _ => (false, slots)

/-- `type_connect`. -/
def typeConnect (outConn inConn : LoadConn) (slots : Slots) : Bool × Slots :=
  if !outConn.type || inConn.type then (false, slots)
  else connectTypes inConn.genType outConn.genType slots

/-- The order of `strcmp`. -/
def Sorted (l : List GenType) : Prop :=
  l.Pairwise fun a b => (strcmp a.typename b.typename).isLE = true

/-- The output type of a name. -/
def typeNamed (out : List GenType) (name : Text) : Option GenType :=
  out.find? fun o => o.typename = name

variable {ins out : List GenType} {name : Text} {slots : Slots}

theorem strcmp_self (s : Text) : strcmp s s = .eq := Std.ReflOrd.compare_self

theorem eq_of_strcmp {s t : Text} (h : strcmp s t = .eq) : s = t := Std.LawfulEqOrd.eq_of_compare h

theorem strcmp_lt_trans {s t u : Text} (h : strcmp s t = .lt) (h' : (strcmp t u).isLE = true) :
    strcmp s u = .lt := by
  unfold strcmp at *
  exact Std.TransCmp.lt_of_lt_of_isLE h h'

theorem typeNamed_eq_none : typeNamed out name = none ↔ ∀ o ∈ out, o.typename ≠ name := by
  unfold typeNamed
  rw [List.find?_eq_none]
  exact forall₂_congr fun o _ => by rw [decide_eq_true_iff]

/-- The inner loop stops at the first type of the name, if there is one. -/
theorem seekType_spec (name : Text) (hout : Sorted out) :
    (∀ next, (strcmp name next).isLE = true →
      typeNamed (seekType name out).1 next = typeNamed out next) ∧
    Sorted (seekType name out).1 ∧
    ((seekType name out).2 = .eq →
      ∃ o rest, (seekType name out).1 = o :: rest ∧ typeNamed out name = some o) ∧
    ((seekType name out).2 ≠ .eq → typeNamed out name = none) := by
  induction out with
  | nil => exact ⟨fun _ _ => rfl, hout, fun h => (by cases h), fun _ => rfl⟩
  | cons o out ih =>
    obtain ⟨hhead, htail⟩ := List.pairwise_cons.mp hout
    rw [seekType]
    cases hcmp : strcmp o.typename name with
    | lt =>
      obtain ⟨hnext, hsorted, hfound, hmissing⟩ := ih htail
      have hskip : ∀ next, (strcmp name next).isLE = true →
          typeNamed (o :: out) next = typeNamed out next := by
        intro next hle
        have hlt := strcmp_lt_trans hcmp hle
        have hne : o.typename ≠ next := by
          rintro rfl
          rw [strcmp_self] at hlt
          cases hlt
        unfold typeNamed
        rw [List.find?_cons, decide_eq_false hne]
      have hself : (strcmp name name).isLE = true := by
        rw [strcmp_self]
        rfl
      refine ⟨fun next hle => (hnext next hle).trans (hskip next hle).symm, hsorted, fun h => ?_,
        fun h => ?_⟩
      · obtain ⟨o', rest, hrest, hnamed⟩ := hfound h
        exact ⟨o', rest, hrest, (hskip name hself).trans hnamed⟩
      · exact (hskip name hself).trans (hmissing h)
    | eq =>
      have hname := eq_of_strcmp hcmp
      refine ⟨fun _ _ => rfl, hout, fun _ => ⟨o, out, rfl, ?_⟩, fun h => absurd rfl h⟩
      unfold typeNamed
      rw [List.find?_cons, decide_eq_true hname]
    | gt =>
      refine ⟨fun _ _ => rfl, hout, fun h => (by cases h), fun _ => ?_⟩
      rw [typeNamed_eq_none]
      rintro o' ho' rfl
      obtain rfl | hmem := List.mem_cons.mp ho'
      · rw [strcmp_self] at hcmp
        cases hcmp
      · have hle := hhead o' hmem
        rw [hcmp] at hle
        cases hle

/-- The types in front of `missing` are stored, and nothing else is. -/
structure StoredUpTo (ins out : List GenType) (slots : Slots) (done missing : List GenType)
    (r : Bool × Slots) : Prop where
  split : ins = done ++ missing
  stored : ∀ d ∈ done, ∃ o, typeNamed out d.typename = some o ∧ r.2 d.offset = some o.table
  others : ∀ x, (∀ d ∈ done, d.offset ≠ x) → r.2 x = slots x
  success : r.1 = true ↔ missing = []
  first : ∀ i ∈ missing.head?, typeNamed out i.typename = none

/-- The next type is missing. -/
theorem storedUpTo_nil {i : GenType} (h : typeNamed out i.typename = none) :
    StoredUpTo (i :: ins) out slots [] (i :: ins) (false, slots) where
  split := rfl
  stored := fun _ h => (by cases h)
  others := fun _ _ => rfl
  success := ⟨fun h => (by cases h), fun h => (by cases h)⟩
  first := fun _ hi => Option.some.inj hi ▸ h

theorem connectTypes_spec (slots : Slots) (hins : Sorted ins) (hout : Sorted out)
    (hoff : (ins.map GenType.offset).Nodup) :
    ∃ done missing, StoredUpTo ins out slots done missing (connectTypes ins out slots) := by
  induction ins generalizing out slots with
  | nil =>
    refine ⟨[], [], rfl, fun _ h => (by cases h), fun _ _ => rfl, ?_, fun _ h => (by cases h)⟩
    exact ⟨fun _ => rfl, fun _ => rfl⟩
  | cons i ins ih =>
    obtain ⟨hhead, htail⟩ := List.pairwise_cons.mp hins
    rw [List.map_cons, List.nodup_cons] at hoff
    obtain ⟨hnext, hsorted, hfound, hmissing⟩ := seekType_spec i.typename hout
    rw [connectTypes]
    rcases hseek : seekType i.typename out with ⟨rest, c⟩
    rw [hseek] at hnext hsorted hfound hmissing
    by_cases hc : c = .eq
    · subst hc
      obtain ⟨o, rest, hrest, hnamed⟩ := hfound rfl
      simp only at hrest hnext hsorted
      subst hrest
      obtain ⟨done, missing, h⟩ := ih (Function.update slots i.offset (some o.table))
        htail hsorted hoff.2
      have hlater : ∀ d ∈ ins, typeNamed (o :: rest) d.typename = typeNamed out d.typename :=
        fun d hd => hnext _ (hhead d hd)
      have hnew : ∀ d ∈ done, d.offset ≠ i.offset := fun d hd heq =>
        hoff.1 (heq ▸ List.mem_map_of_mem (h.split ▸ List.mem_append_left _ hd))
      refine ⟨i :: done, missing, by rw [h.split]; rfl, fun d hd => ?_, fun x hx => ?_, h.success,
        fun d hd => ?_⟩
      · obtain rfl | hd := List.mem_cons.mp hd
        · refine ⟨o, hnamed, ?_⟩
          rw [h.others _ hnew, Function.update_self]
        · obtain ⟨o', ho', hstored⟩ := h.stored d hd
          rw [hlater d (h.split ▸ List.mem_append_left _ hd)] at ho'
          exact ⟨o', ho', hstored⟩
      · rw [h.others x fun d hd => hx d (List.mem_cons_of_mem _ hd),
          Function.update_of_ne (hx i List.mem_cons_self).symm]
      · rw [← hlater d (h.split ▸ List.mem_append_right _ (List.mem_of_mem_head? hd))]
        exact h.first d hd
    · have hnone := hmissing hc
      refine ⟨[], i :: ins, ?_⟩
      cases c with
      | eq => exact absurd rfl hc
      | lt => cases rest <;> exact storedUpTo_nil hnone
      | gt => cases rest <;> exact storedUpTo_nil hnone

/-- **An input is given the tables of its output**: this succeeds exactly when all of its types have a
table there, and up to the first one that has none each slot holds the table of its type. No other slot
is changed. -/
theorem types_connected {outConn inConn : LoadConn} (hout : outConn.type = true)
    (hin : inConn.type = false) (hsorted : Sorted inConn.genType) (hsorted' : Sorted outConn.genType)
    (hoff : (inConn.genType.map GenType.offset).Nodup) :
    ((typeConnect outConn inConn slots).1 = true ↔
      ∀ i ∈ inConn.genType, ∃ o ∈ outConn.genType, o.typename = i.typename) ∧
    ∃ done missing, StoredUpTo inConn.genType outConn.genType slots done missing
      (typeConnect outConn inConn slots) := by
  have hconnect : typeConnect outConn inConn slots =
      connectTypes inConn.genType outConn.genType slots := by
    unfold typeConnect
    rw [hout, hin]
    rfl
  rw [hconnect]
  obtain ⟨done, missing, h⟩ := connectTypes_spec slots hsorted hsorted' hoff
  refine ⟨?_, done, missing, h⟩
  rw [h.success]
  constructor
  · rintro rfl i hi
    rw [h.split, List.append_nil] at hi
    obtain ⟨o, ho, -⟩ := h.stored i hi
    exact ⟨o, List.mem_of_find?_eq_some ho, by simpa using List.find?_some ho⟩
  · intro hall
    by_contra hne
    obtain ⟨i, rest, rfl⟩ := List.exists_cons_of_ne_nil hne
    obtain ⟨o, ho, hname⟩ := hall i (h.split ▸ List.mem_append_right _ List.mem_cons_self)
    exact typeNamed_eq_none.mp (h.first i rfl) o ho hname

/-- An output with two types. -/
def twoTypes : LoadConn := ⟨"out".toList, [⟨"a".toList, 7, -1⟩, ⟨"b".toList, 8, -1⟩], true, true, 0, 1, 1⟩

/-- An input with the types of these names. -/
def ofTypes (name name' : String) : LoadConn :=
  ⟨"in".toList, [⟨name.toList, 0, 16⟩, ⟨name'.toList, 0, 24⟩], false, true, 0, 1, 1⟩

theorem types_connected_two :
    (typeConnect twoTypes (ofTypes "a" "b") fun _ => none).1 = true := by
  refine (types_connected rfl rfl ?_ ?_ ?_).1.mpr ?_
  · exact .cons (fun _ h => by rw [List.mem_singleton.mp h]; decide) (.cons (fun _ h => nomatch h) .nil)
  · exact .cons (fun _ h => by rw [List.mem_singleton.mp h]; decide) (.cons (fun _ h => nomatch h) .nil)
  · decide
  · decide

/-- The type `c` is missing, but the table of `a` has been stored. -/
theorem failed_but_stored :
    (typeConnect twoTypes (ofTypes "a" "c") fun _ => none).1 = false ∧
      (typeConnect twoTypes (ofTypes "a" "c") fun _ => none).2 16 = some 7 :=
  ⟨rfl, rfl⟩

end Athomux.ControlSimple
