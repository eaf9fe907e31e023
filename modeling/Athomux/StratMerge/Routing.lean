import Athomux.Params.Inside
import Athomux.StratMerge.Balance
import Mathlib.Data.List.Find

/-!
# Where an address is allotted

`$gadr` looks for the source of a destination sid. A record of a brick without a sid holds whatever was
in its memory.
-/

namespace Athomux.StratMerge

open Lib StratText
open Params (unclosed nameOf valueAt valueText behind begins behind_length nextOpt_text Closed
  closed_nil closed_step)
open NetConnect (Text paramGetopt)

/-! ## Options of a string -/

/-- The names of the options and their values, up to one that is open. -/
def options : Nat → Text → List (Text × Text)
  | 0, _ => []
  | _ + 1, [] => []
  | fuel + 1, c :: t =>
    if unclosed (c :: t) then []
    else (nameOf (c :: t), ((valueAt (c :: t)).map valueText).getD []) ::
      options fuel (behind (c :: t))

/-- The value of the first option of exactly this name. -/
def carried (name param : Text) : Text :=
  (((options param.length param).find? fun o => o.1 = name).map Prod.snd).getD []

/-- The value of the first option whose name this name begins with. -/
def taken (name param : Text) : Text :=
  (((options param.length param).find? fun o => o.1 ≠ [] ∧ o.1.isPrefixOf name).map Prod.snd).getD []

/-- The source that the request is to be forwarded to, if there is one. -/
def wanted (s : State) (d : Text) : Option Nat :=
  if d = [] then some 0
  else
    match s.lb.filter fun b => carried "sid".toList b.val.bparam = d with
    | [] => some 0
    | b :: bs => if bs.all fun b' => b'.val.source = b.val.source then some b.val.source else none

/-- The request is forwarded as it is to be, whatever is in the records without a sid, and no string
has been left or overrun for that. -/
def Routes (s : State) (param : Text) : Prop :=
  s.wild = false ∧ (getopt param "dsid".toList).isSome ∧
    ∀ i, wanted s (carried "dsid".toList param) = some i → ∀ garbage, gadrSource s param garbage = i

/-- The sources of the records at which the loop can stop, with the first source for its end. -/
def stops (d : Text) : List (Elem GSsid) → List Nat
  | [] => [0]
  | e :: l =>
    match e.val.sid with
    | none => e.val.source :: stops d l
    | some sid => if d.isPrefixOf sid then [e.val.source] else stops d l

/-- No string has been overrun, and no value is open up to the option that is taken for `dsid`. With
its value, up to the first record whose sid begins with it, this one and all without a sid are of the
source that is wanted. -/
def Clear (s : State) (param : Text) : Prop :=
  s.wild = false ∧ Closed "dsid".toList param ∧
    ∀ i, wanted s (carried "dsid".toList param) = some i →
      if taken "dsid".toList param = [] then i = 0
      else ∀ j ∈ stops (taken "dsid".toList param) s.ls, j = i

/-! ## The scanner -/

theorem options_nil (fuel : Nat) : options fuel [] = [] := by
  cases fuel <;> rfl

theorem paramGetopt_text (name : Text) {t : Text} {fuel n : Nat} (hfuel : t.length < fuel)
    (hn : t.length ≤ n) :
    (Closed name t → paramGetopt fuel t name =
      some (((options n t).find? fun o => o.1 ≠ [] ∧ o.1.isPrefixOf name).map Prod.snd)) ∧
    (¬Closed name t → paramGetopt fuel t name = none) := by
  induction fuel generalizing t n with
  | zero => exact absurd hfuel (Nat.not_lt_zero _)
  | succ fuel ih =>
    cases t with
    | nil =>
      rw [options_nil]
      exact ⟨fun _ => rfl, fun h => absurd closed_nil h⟩
    | cons c t =>
      obtain ⟨n, rfl⟩ : ∃ m, n = m + 1 := ⟨n - 1, by rw [List.length_cons] at hn; omega⟩
      have hlt := behind_length (List.cons_ne_nil c t)
      rw [List.length_cons] at hfuel hn hlt
      obtain ⟨hok, hnone⟩ := ih (t := behind (c :: t)) (n := n) (by omega) (by omega)
      rw [closed_step, paramGetopt, nextOpt_text, options]
      cases hopen : unclosed (c :: t) with
      | true => exact ⟨fun h => (by cases h.1), fun _ => rfl⟩
      | false =>
        simp only [Bool.false_eq_true, if_false, Option.bind_some, List.find?_cons]
        have hbegins : begins name (c :: t) =
            decide (nameOf (c :: t) ≠ [] ∧ (nameOf (c :: t)).isPrefixOf name = true) := rfl
        rw [← hbegins]
        have hiff : (nameOf (c :: t) ≠ [] ∧ nameOf (c :: t) <+: name) ↔ begins name (c :: t) = true := by
          rw [hbegins, decide_eq_true_iff, List.isPrefixOf_iff_prefix]
        simp only [hiff]
        cases begins name (c :: t) with
        | true => exact ⟨fun _ => rfl, fun h => absurd ⟨trivial, fun h' => (by cases h')⟩ h⟩
        | false => exact ⟨fun h => hok (h.2 rfl), fun h => hnone fun h' => h ⟨trivial, fun _ => h'⟩⟩

theorem getopt_of_closed {name param : Text} (h : Closed name param) :
    ∃ r, getopt param name = some r ∧ r.getD [] = taken name param := by
  obtain ⟨hok, -⟩ := paramGetopt_text name (Nat.lt_succ_self param.length) (Nat.le_refl param.length)
  exact ⟨_, hok h, rfl⟩

theorem getopt_isSome_iff {name param : Text} :
    (getopt param name).isSome = true ↔ Closed name param := by
  obtain ⟨-, hnone⟩ :=
    paramGetopt_text name (Nat.lt_succ_self param.length) (Nat.le_refl param.length)
  constructor
  · intro h
    by_contra hopen
    rw [getopt, hnone hopen] at h
    cases h
  · intro h
    obtain ⟨r, hr, -⟩ := getopt_of_closed h
    rw [hr]
    rfl

theorem gadrSource_eq {s : State} {param : Text} (h : Closed "dsid".toList param)
    (garbage : Nat → Text) :
    gadrSource s param garbage =
      if taken "dsid".toList param = [] then 0
      else sourceOf s garbage (taken "dsid".toList param) := by
  obtain ⟨r, hr, htaken⟩ := getopt_of_closed h
  rw [gadrSource, hr, ← htaken]
  cases r with
  | none => rfl
  | some val => rfl

/-! ## The records -/

/-- The source of the first record that begins with `d`. -/
def firstSource (garbage : Nat → Text) (d : Text) (l : List (Elem GSsid)) : Nat :=
  ((l.find? fun e => d.isPrefixOf (e.val.sid.getD (garbage e.ptr))).map fun e => e.val.source).getD 0

variable {garbage : Nat → Text} {d : Text} {l : List (Elem GSsid)}

theorem firstSource_mem : firstSource garbage d l ∈ stops d l := by
  unfold firstSource
  induction l with
  | nil => exact List.mem_singleton_self 0
  | cons e l ih =>
    rw [stops, List.find?_cons]
    cases hsid : e.val.sid with
    | none =>
      cases d.isPrefixOf ((none : Option Text).getD (garbage e.ptr)) with
      | true => exact List.mem_cons_self
      | false => exact List.mem_cons_of_mem _ ih
    | some sid =>
      rw [Option.getD_some]
      simp only
      cases d.isPrefixOf sid with
      | true => exact List.mem_singleton_self _
      | false => exact ih

theorem firstSource_congr {garbage' : Nat → Text} (h : ∀ e ∈ l, garbage e.ptr = garbage' e.ptr) :
    firstSource garbage d l = firstSource garbage' d l := by
  unfold firstSource
  rw [List.find?_congr fun e he => by rw [h e he]]

/-- The loop does stop at each of these records for some contents of the memory. -/
theorem exists_garbage (hd : d ≠ []) (hptr : (l.map Elem.ptr).Nodup) {j : Nat} (hj : j ∈ stops d l) :
    ∃ garbage, firstSource garbage d l = j := by
  induction l with
  | nil =>
    rw [stops, List.mem_singleton] at hj
    exact ⟨fun _ => [], hj.symm⟩
  | cons e l ih =>
    rw [List.map_cons, List.nodup_cons] at hptr
    rw [stops] at hj
    cases hsid : e.val.sid with
    | none =>
      rw [hsid] at hj
      obtain rfl | hj := List.mem_cons.mp hj
      · refine ⟨fun _ => d, ?_⟩
        rw [firstSource, List.find?_cons, hsid, Option.getD_none,
          List.isPrefixOf_iff_prefix.mpr (List.prefix_refl d)]
        rfl
      · obtain ⟨garbage, hg⟩ := ih hptr.2 hj
        refine ⟨Function.update garbage e.ptr [], ?_⟩
        have hskip : d.isPrefixOf ([] : Text) = false := by
          obtain ⟨c, r, rfl⟩ := List.exists_cons_of_ne_nil hd
          rfl
        rw [firstSource, List.find?_cons, hsid, Option.getD_none, Function.update_self, hskip, ← hg]
        refine firstSource_congr fun e' he' => Function.update_of_ne ?_ _ _
        rintro heq
        exact hptr.1 (heq ▸ List.mem_map_of_mem he')
    | some sid =>
      rw [hsid] at hj
      simp only at hj
      cases hpre : d.isPrefixOf sid with
      | true =>
        rw [hpre, if_pos rfl, List.mem_singleton] at hj
        refine ⟨fun _ => [], ?_⟩
        rw [firstSource, List.find?_cons, hsid, Option.getD_some, hpre, hj]
        rfl
      | false =>
        rw [hpre] at hj
        obtain ⟨garbage, hg⟩ := ih hptr.2 hj
        refine ⟨garbage, ?_⟩
        rw [firstSource, List.find?_cons, hsid, Option.getD_some, hpre]
        exact hg

/-! ## The claim about each request -/

/-- **An address is allotted at the source of its destination sid** exactly where no other record stops
the search: a record without a sid, one whose sid only begins with the one that is looked for, or one
of an option whose name only begins with `sid` or `dsid`. -/
theorem routes_iff (s : State) (param : Text) (hptr : (s.ls.map Elem.ptr).Nodup) :
    Routes s param ↔ Clear s param := by
  unfold Routes Clear
  rw [getopt_isSome_iff]
  refine and_congr_right fun _ => and_congr_right fun hclosed => forall₂_congr fun i hi => ?_
  split_ifs with hnil
  · constructor
    · intro h
      rw [← h fun _ => [], gadrSource_eq hclosed, if_pos hnil]
    · rintro rfl garbage
      rw [gadrSource_eq hclosed, if_pos hnil]
  · constructor
    · intro h j hj
      obtain ⟨garbage, hg⟩ := exists_garbage hnil hptr hj
      rw [← h garbage, gadrSource_eq hclosed, if_neg hnil, ← hg]
      rfl
    · intro h garbage
      rw [gadrSource_eq hclosed, if_neg hnil]
      exact h _ firstSource_mem

/-- The text of a brick that is alone in its strategy. -/
def alone (bparam : String) : Option Text :=
  some ("brick=M \x7b\nb_param M=" ++ bparam ++ "\n").toList

/-- The view of two such bricks. -/
def ofTwo (first second : String) : State :=
  insertBrick fresh ⟨0, 1, 0, "M".toList, second.toList⟩
    (insertBrick fresh ⟨0, 0, 0, "M".toList, first.toList⟩ (clearBc (State.init fresh)))
where
  fresh (log : Log) (_ : Nat) : Nat := 4096 * (log.length + 1)

theorem routes_iff_two :
    Routes (ofTwo "sid=a" "sid=b") "dsid=b".toList := by
  refine (routes_iff (ofTwo "sid=a" "sid=b") "dsid=b".toList ?_).mpr ⟨?_, ?_, ?_⟩
  · decide +kernel
  · decide +kernel
  · rw [← getopt_isSome_iff]
    decide +kernel
  · have hwanted : wanted (ofTwo "sid=a" "sid=b") (carried "dsid".toList "dsid=b".toList) =
        some 1 := by
      decide +kernel
    rw [hwanted]
    rintro _ ⟨⟩
    decide +kernel

/-- The first source has a sid that only begins with the one that is looked for. -/
theorem not_routed :
    (∃ s, step ofTwo.fresh (State.init ofTwo.fresh)
      (.trans true 0 4096 1 [alone "sid=ab", alone "sid=a"]) = some s ∧ ¬Routes s "dsid=a".toList) := by
  have hread : step ofTwo.fresh (State.init ofTwo.fresh)
      (.trans true 0 4096 1 [alone "sid=ab", alone "sid=a"]) = some (ofTwo "sid=ab" "sid=a") := by
    decide +kernel
  refine ⟨_, hread, fun h => ?_⟩
  have hwanted : wanted (ofTwo "sid=ab" "sid=a") (carried "dsid".toList "dsid=a".toList) =
      some 1 := by
    decide +kernel
  have hsource : gadrSource (ofTwo "sid=ab" "sid=a") "dsid=a".toList (fun _ => []) = 0 := by
    decide +kernel
  have hone := h.2.2 1 hwanted fun _ => []
  rw [hsource] at hone
  cases hone

end Athomux.StratMerge
