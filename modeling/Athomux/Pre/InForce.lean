import Mathlib.Data.List.AList

/-!
# The operations of a connector

What `pre.pl` makes of the `operation` statements of an output. `ops_aliases` says which body an
operation has in a section. The hash has no order of its own, so the tables are made in any order of
its entries.
-/

namespace Athomux.Pre

/-! ## Sections -/

/-- `(:i:)`, `(:a..b:)` and `(:ALL:)`. -/
inductive Sect
  | num (i : Nat)
  | range (a b : Nat)
  | all
  deriving DecidableEq, Repr

/-- The sections that `gen_ops_aliases` goes through. -/
def Sect.targets (count : Nat) : Sect → List Nat
  | num i => [i]
  | range a b => List.range' a (b - a)
  | all => List.range count

/-- The sections that `gen_init` takes a body for. -/
def Sect.Covers (s : Nat) : Sect → Prop
  | num i => i = s
  | range a b => a ≤ s ∧ s ≤ b
  | all => True

instance (s : Nat) : DecidablePred (Sect.Covers s)
  | .num i => inferInstanceAs (Decidable (i = s))
  | .range a b => inferInstanceAs (Decidable (a ≤ s ∧ s ≤ b))
  | .all => inferInstanceAs (Decidable True)

/-- The specifier of a body, from which the name of its function is made. -/
structure Spec where
  sect : Sect
  op : String
  deriving DecidableEq, Repr

/-- A function of the generated code. -/
inductive Fn
  | body (src : Spec)
  | missing (op : String)
  deriving DecidableEq, Repr

/-! ## `ops_aliases` -/

/-- A section and an operation. -/
abbrev Key := Nat × String

abbrev Aliases := AList fun _ : Key => Spec

/-- `next if $noforce and exists $::ops_aliases{$newtarget}`. -/
def setAlias (noforce : Bool) (src : Spec) (as : Aliases) (k : Key) : Aliases :=
  if noforce ∧ (as.lookup k).isSome then as else as.insert k src

/-- `gen_ops_aliases`. There is no result when it dies. -/
def genOpsAliases (count : Nat) (opset : List String) (sect : Sect) (op : String) (src : Spec)
    (noforce : Bool) (as : Aliases) : Option Aliases :=
  if op ∈ opset then
    some ((sect.targets count).foldl (fun as i => setAlias noforce src as (i, op)) as)
  else none

/-! ## `operation` -/

/-- An `operation` statement: its section, its names, and whether `OP_NAME` is in the body. Or one of
`$op`. -/
inductive Decl
  | ops (sect : Sect) (names : List String) (opName : Bool)
  | op (sect : Sect)
  deriving DecidableEq, Repr

/-- Where the body of `name` is. Without `OP_NAME` all the names have one. -/
def srcOf (sect : Sect) (names : List String) (opName : Bool) (name : String) : Spec :=
  ⟨sect, if opName then name else String.intercalate "X" names⟩

/-- The names that `$op` leaves alone: those in its section so far. There are none for a range or for
`ALL`, since the aliases are for single sections. -/
def tryList (as : Aliases) : Sect → List String
  | .num i => as.keys.filterMap fun k => if k.1 = i then some k.2 else none
  | _ => []

/-- `$opname =~ m/$tryname/`. -/
def matchesName (op tryname : String) : Prop := tryname.toList <:+: op.toList

instance (op tryname : String) : Decidable (matchesName op tryname) :=
  inferInstanceAs (Decidable (_ <:+: _))

/-- `$allowed`. -/
def allowed (as : Aliases) (sect : Sect) (op : String) : Prop :=
  ∀ t ∈ tryList as sect, ¬ matchesName op t

instance (as : Aliases) (sect : Sect) (op : String) : Decidable (allowed as sect op) :=
  inferInstanceAs (Decidable (∀ t ∈ tryList as sect, _))

/-- One step of `parse_2`. -/
def declare (count : Nat) (opset : List String) (as : Aliases) : Decl → Option Aliases
  | .ops sect names opName =>
    names.foldlM (fun as n => genOpsAliases count opset sect n (srcOf sect names opName n) false as) as
  | .op sect =>
    (opset.filter fun o => allowed as sect o).foldlM
      (fun as o => genOpsAliases count opset sect o ⟨sect, "op"⟩ true as) as

/-- `parse_2`. -/
def parse2 (count : Nat) (opset : List String) : Aliases → List Decl → Option Aliases
  | as, [] => some as
  | as, d :: ds => (declare count opset as d).bind fun as => parse2 count opset as ds

/-! ## The tables and the calls -/

def isInit (op : String) : Bool := op = "output_init" ∨ op = "input_init" ∨ op = "brick_init"

/-- `gen_call` and `gen_ops`: the function that a call of `op` at section `s` is compiled to. An init
operation is always called at section 0, by its own name. -/
def callTarget (as : Aliases) (s : Nat) (op : String) : Fn :=
  if isInit op then .body ⟨.num 0, op⟩
  else match as.lookup (s, op) with
    | some src => .body src
    | none => .missing op

/-- `gen_init`: the entry of the run-time table, when the hash has the order `order`. Of several
initialisers of an entry the last one counts. -/
def tableEntry (order : List (Sigma fun _ : Key => Spec)) (s : Nat) (op : String) : Fn :=
  match (order.filter fun e => e.1.2 = op ∧ e.2.sect.Covers s).getLast? with
  | some e => .body e.2
  | none => .missing op

end Athomux.Pre

/-!
## The bodies in force

The statements of an output as an assignment of bodies, without a hash: a named operation replaces
what was there, and `$op` fills gaps.
-/

namespace Athomux.Pre

variable {count : Nat} {opset : List String} {as as' : Aliases}

abbrev Bodies := Nat → String → Option Spec

/-- What `$op` takes: operations of its sections that have no body and match no name that has one. -/
def taken (count : Nat) (opset : List String) (f : Bodies) (sect : Sect) (i : Nat) (o : String) :
    Prop :=
  i ∈ sect.targets count ∧ o ∈ opset ∧ f i o = none ∧
    (sect = .num i → ∀ t ∈ opset, (f i t).isSome → ¬ matchesName o t)

instance (f : Bodies) (sect : Sect) (i : Nat) (o : String) :
    Decidable (taken count opset f sect i o) :=
  inferInstanceAs (Decidable (_ ∧ _ ∧ _ ∧ (_ → ∀ t ∈ opset, (f i t).isSome → _)))

def Bodies.after (count : Nat) (opset : List String) (f : Bodies) : Decl → Bodies
  | .ops sect names opName => fun i o =>
    if i ∈ sect.targets count ∧ o ∈ names then some (srcOf sect names opName o) else f i o
  | .op sect => fun i o => if taken count opset f sect i o then some ⟨sect, "op"⟩ else f i o

def inForce (count : Nat) (opset : List String) (decls : List Decl) : Bodies :=
  decls.foldl (Bodies.after count opset) fun _ _ => none

/-! ## One entry after the other -/

theorem lookup_setAlias (noforce : Bool) (src : Spec) (k k' : Key) :
    (setAlias noforce src as k).lookup k' =
      if k' = k ∧ (noforce → as.lookup k' = none) then some src else as.lookup k' := by
  unfold setAlias
  by_cases hk : k' = k
  · subst hk
    cases hl : as.lookup k' <;> cases noforce <;> simp [hl]
  · split
    · simp [hk]
    · rw [AList.lookup_insert_ne hk, if_neg fun h => hk h.1]

theorem lookup_fold (noforce : Bool) (src : Spec) (op : String) (is : List Nat) (i : Nat)
    (o : String) :
    (is.foldl (fun as j => setAlias noforce src as (j, op)) as).lookup (i, o) =
      if i ∈ is ∧ o = op ∧ (noforce → as.lookup (i, o) = none) then some src
      else as.lookup (i, o) := by
  induction is generalizing as with
  | nil => simp
  | cons j is ih =>
    rw [List.foldl_cons, ih]
    by_cases hk : i = j ∧ o = op
    · obtain ⟨rfl, rfl⟩ := hk
      rw [lookup_setAlias]
      cases noforce <;> cases hl : as.lookup (i, o) <;> simp
    · have hk' : ¬ (i, o) = (j, op) := by simpa using hk
      rw [lookup_setAlias, if_neg fun h : (i, o) = (j, op) ∧ _ => hk' h.1]
      congr 1
      simp only [List.mem_cons, eq_iff_iff]
      tauto

theorem lookup_genOpsAliases {sect : Sect} {op : String} {src : Spec} {noforce : Bool}
    (h : genOpsAliases count opset sect op src noforce as = some as') (i : Nat) (o : String) :
    as'.lookup (i, o) =
      if i ∈ sect.targets count ∧ o = op ∧ (noforce → as.lookup (i, o) = none) then some src
      else as.lookup (i, o) := by
  unfold genOpsAliases at h
  split at h
  · rw [← Option.some.inj h, lookup_fold]
  · cases h

theorem mem_of_genOpsAliases {sect : Sect} {op : String} {src : Spec} {noforce : Bool}
    (h : genOpsAliases count opset sect op src noforce as = some as') : op ∈ opset := by
  unfold genOpsAliases at h
  split at h
  · assumption
  · cases h

/-- The names of one statement. The body may depend on the name. -/
theorem lookup_names {sect : Sect} {src : String → Spec} {noforce : Bool} {names : List String}
    (h : names.foldlM (fun as n => genOpsAliases count opset sect n (src n) noforce as) as =
      some as') (i : Nat) (o : String) :
    as'.lookup (i, o) =
      if i ∈ sect.targets count ∧ o ∈ names ∧ (noforce → as.lookup (i, o) = none)
      then some (src o) else as.lookup (i, o) := by
  induction names generalizing as with
  | nil => simp_all
  | cons n names ih =>
    rw [List.foldlM_cons] at h
    obtain ⟨mid, hmid, h⟩ := Option.bind_eq_some_iff.mp h
    rw [ih h, lookup_genOpsAliases hmid]
    by_cases hn : o = n
    · subst hn
      by_cases hi : i ∈ sect.targets count <;> cases noforce <;>
        cases hl : as.lookup (i, o) <;> simp [hi]
    · simp [hn]

theorem names_mem {sect : Sect} {src : String → Spec} {noforce : Bool} {names : List String}
    (h : names.foldlM (fun as n => genOpsAliases count opset sect n (src n) noforce as) as =
      some as') : ∀ n ∈ names, n ∈ opset := by
  induction names generalizing as with
  | nil => simp
  | cons n names ih =>
    rw [List.foldlM_cons] at h
    obtain ⟨mid, hmid, h⟩ := Option.bind_eq_some_iff.mp h
    exact List.forall_mem_cons.mpr ⟨mem_of_genOpsAliases hmid, ih h⟩

/-! ## One statement after the other -/

def KnownNames (opset : List String) (as : Aliases) : Prop :=
  ∀ i o, (as.lookup (i, o)).isSome → o ∈ opset

theorem allowed_iff (hk : KnownNames opset as) {sect : Sect} {i : Nat}
    (hi : i ∈ sect.targets count) (o : String) :
    allowed as sect o ↔
      (sect = .num i → ∀ t ∈ opset, (as.lookup (i, t)).isSome → ¬ matchesName o t) := by
  unfold allowed tryList
  cases sect with
  | num j =>
    obtain rfl := List.mem_singleton.mp hi
    simp only [List.mem_filterMap, true_implies]
    constructor
    · intro h t _ ht
      exact h t ⟨(i, t), AList.mem_keys.mp (AList.lookup_isSome.mp ht), by simp⟩
    · rintro h t ⟨⟨j, n⟩, hkey, hj⟩
      obtain ⟨rfl, rfl⟩ : j = i ∧ n = t := by simpa using hj
      have hsome := AList.lookup_isSome.mpr (AList.mem_keys.mpr hkey)
      exact h n (hk _ _ hsome) hsome
  | range a b => simp
  | all => simp

theorem lookup_declare (hk : KnownNames opset as) {d : Decl}
    (h : declare count opset as d = some as') (i : Nat) (o : String) :
    as'.lookup (i, o) = Bodies.after count opset (fun i o => as.lookup (i, o)) d i o := by
  cases d with
  | ops sect names opName =>
    rw [lookup_names h]
    simp [Bodies.after]
  | op sect =>
    rw [lookup_names h]
    simp only [Bodies.after, taken, List.mem_filter, decide_eq_true_eq, true_implies]
    congr 1
    by_cases hi : i ∈ sect.targets count
    · rw [allowed_iff hk hi]
      simp only [eq_iff_iff]
      tauto
    · simp [hi]

theorem KnownNames.declare (hk : KnownNames opset as) {d : Decl}
    (h : declare count opset as d = some as') : KnownNames opset as' := by
  intro i o ho
  cases d with
  | ops sect names opName =>
    rw [lookup_names h] at ho
    split at ho
    · rename_i hc
      exact names_mem h o hc.2.1
    · exact hk i o ho
  | op sect =>
    rw [lookup_names h] at ho
    split at ho
    · rename_i hc
      exact (List.mem_filter.mp hc.2.1).1
    · exact hk i o ho

theorem lookup_parse2_from {decls : List Decl} (hk : KnownNames opset as)
    (h : parse2 count opset as decls = some as') (i : Nat) (o : String) :
    as'.lookup (i, o) =
      decls.foldl (Bodies.after count opset) (fun i o => as.lookup (i, o)) i o := by
  induction decls generalizing as with
  | nil => rw [← Option.some.inj h, List.foldl_nil]
  | cons d decls ih =>
    obtain ⟨mid, hmid, h⟩ := Option.bind_eq_some_iff.mp h
    have hmid' : (fun i o => mid.lookup (i, o)) =
        Bodies.after count opset (fun i o => as.lookup (i, o)) d := by
      funext i o
      exact lookup_declare hk hmid i o
    rw [List.foldl_cons, ih (hk.declare hmid) h, hmid']

/-- The aliases are the bodies in force. -/
theorem lookup_parse2 {decls : List Decl} (h : parse2 count opset ∅ decls = some as) (i : Nat)
    (o : String) : as.lookup (i, o) = inForce count opset decls i o := by
  rw [lookup_parse2_from (fun i o ho => by simp at ho) h]
  rfl

theorem mem_entries_iff {decls : List Decl} (h : parse2 count opset ∅ decls = some as) (i : Nat)
    (o : String) (src : Spec) :
    ⟨(i, o), src⟩ ∈ as.entries ↔ inForce count opset decls i o = some src := by
  rw [← lookup_parse2 h, AList.mem_lookup_iff.symm, Option.mem_def]

end Athomux.Pre
