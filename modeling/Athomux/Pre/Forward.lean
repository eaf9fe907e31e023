import Athomux.Pre.Dispatch

/-!
# `$op`

Named operations and one `$op` in the same section. The names that `$op` leaves alone are found by
matching, among those that stand before it.
-/

namespace Athomux.Pre

/-- `$::op_args{"output"}`. -/
def outputOps : List String :=
  ["output_init", "trans", "wait", "get", "put", "lock", "unlock", "gadr", "padr", "create",
    "delete", "move", "transwait", "gettranswait", "transwaitput", "putwait", "createget",
    "gadrcreate", "gadrcreateget", "gadrgettranswait", "putpadr", "putdelete", "deletepadr",
    "putdeletepadr", "gadrtranswaitdeletepadr", "gadrcreatetranswaitpadr", "instbrick",
    "deinstbrick", "instconn", "deinstconn", "connect", "disconnect", "getconn", "findconn"]

/-- What a combined operation is made of. -/
def elementary : String → List String
  | "transwait" => ["trans", "wait"]
  | "gettranswait" => ["get", "trans", "wait"]
  | "transwaitput" => ["trans", "wait", "put"]
  | "putwait" => ["put", "wait"]
  | "createget" => ["create", "get"]
  | "gadrcreate" => ["gadr", "create"]
  | "gadrcreateget" => ["gadr", "create", "get"]
  | "gadrgettranswait" => ["gadr", "get", "trans", "wait"]
  | "putpadr" => ["put", "padr"]
  | "putdelete" => ["put", "delete"]
  | "deletepadr" => ["delete", "padr"]
  | "putdeletepadr" => ["put", "delete", "padr"]
  | "gadrtranswaitdeletepadr" => ["gadr", "trans", "wait", "delete", "padr"]
  | "gadrcreatetranswaitpadr" => ["gadr", "create", "trans", "wait", "padr"]
  | _ => []

variable {count : Nat} {opset : List String} {sect : Sect} {named : List (List String × Bool)}
  {decls pre post : List Decl} {as : Aliases} {s i : Nat} {o : String} {f : Bodies}

/-! ## What `$op` should do -/

/-- The named operations of a section. Each has its names and whether `OP_NAME` is in the body. -/
def statements (sect : Sect) (named : List (List String × Bool)) : List Decl :=
  named.map fun n => .ops sect n.1 n.2

def allNames (named : List (List String × Bool)) : List String := named.flatMap Prod.fst

def ownBody (sect : Sect) (named : List (List String × Bool)) (o : String) : Option Spec :=
  (named.find? fun n => o ∈ n.1).map fun n => srcOf sect n.1 n.2 o

def IsCombined (named : List (List String × Bool)) (o : String) : Prop :=
  ∃ e ∈ elementary o, e ∈ allNames named

instance (named : List (List String × Bool)) : DecidablePred (IsCombined named) :=
  fun o => inferInstanceAs (Decidable (∃ e ∈ elementary o, _))

/-- Its own body, the default combination, or the body of `$op`. -/
def expected (sect : Sect) (named : List (List String × Bool)) (o : String) : Fn :=
  match ownBody sect named o with
  | some src => .body src
  | none => if IsCombined named o then .missing o else .body ⟨sect, "op"⟩

/-- So it is in the table for every order of the statements, and of the hash. -/
def Forwards (count : Nat) (sect : Sect) (named : List (List String × Bool)) (s : Nat) (o : String) :
    Prop :=
  ∀ decls, decls.Perm (.op sect :: statements sect named) →
    ∀ as, parse2 count outputOps ∅ decls = some as →
      ∀ order, order.Perm as.entries → tableEntry order s o = expected sect named o

/-! ## What it does -/

def Decl.Names (o : String) : Decl → Prop
  | .ops _ names _ => o ∈ names
  | .op _ => False

instance (n : String) : DecidablePred (Decl.Names n)
  | .ops _ names _ => inferInstanceAs (Decidable (n ∈ names))
  | .op _ => inferInstanceAs (Decidable False)

def Sect.isSingle : Sect → Bool
  | .num _ => true
  | _ => false

/-- A name before `$op` keeps it from `o`. Only a single section has any. -/
def Hidden (sect : Sect) (pre : List Decl) (o : String) : Prop :=
  sect.isSingle ∧ ∃ t ∈ outputOps, (∃ d ∈ pre, d.Names t) ∧ matchesName o t

instance (sect : Sect) (pre : List Decl) : DecidablePred (Hidden sect pre) :=
  fun _ => inferInstanceAs (Decidable (_ ∧ ∃ t ∈ outputOps, (∃ d ∈ pre, d.Names t) ∧ _))

theorem ownBody_eq_none_iff : ownBody sect named o = none ↔ o ∉ allNames named := by
  rw [ownBody, Option.map_eq_none_iff, List.find?_eq_none, allNames, List.mem_flatMap, not_exists]
  simp only [decide_eq_true_eq, not_and]

theorem mem_of_ownBody {src : Spec} (h : ownBody sect named o = some src) :
    o ∈ allNames named := by
  by_contra hno
  rw [ownBody_eq_none_iff.mpr hno] at h
  cases h

theorem ownBody_of_mem (hnodup : (allNames named).Nodup) {n : List String × Bool} (hn : n ∈ named)
    (ho : o ∈ n.1) : ownBody sect named o = some (srcOf sect n.1 n.2 o) := by
  cases hfind : named.find? fun n => o ∈ n.1 with
  | none => exact absurd ho (by simpa using List.find?_eq_none.mp hfind n hn)
  | some m =>
    have hm : o ∈ m.1 := by simpa using List.find?_some hfind
    have hmn : m = n := by
      by_contra hne
      have : Std.Symm (Function.onFun List.Disjoint (Prod.fst : List String × Bool → _)) :=
        ⟨fun _ _ h _ h₂ h₁ => h h₁ h₂⟩
      have hdisj := (List.nodup_flatMap.mp hnodup).2.forall (List.mem_of_find?_eq_some hfind) hn hne
      exact hdisj hm ho
    rw [ownBody, hfind, hmn]
    rfl

/-- Named statements replace what is there. -/
theorem foldl_named (hnodup : (allNames named).Nodup)
    (hmem : ∀ d ∈ decls, d ∈ statements sect named) :
    decls.foldl (Bodies.after count outputOps) f i o =
      if i ∈ sect.targets count ∧ ∃ d ∈ decls, d.Names o then ownBody sect named o else f i o := by
  induction decls generalizing f with
  | nil => simp
  | cons d decls ih =>
    obtain ⟨hd, htail⟩ := List.forall_mem_cons.mp hmem
    obtain ⟨n, hn, rfl⟩ := List.mem_map.mp hd
    have hnames : (∃ d ∈ Decl.ops sect n.1 n.2 :: decls, d.Names o) ↔
        o ∈ n.1 ∨ ∃ d ∈ decls, d.Names o := List.exists_mem_cons_iff (Decl.Names o) _ _
    rw [List.foldl_cons, ih htail, Bodies.after]
    simp only [hnames]
    by_cases ho : o ∈ n.1
    · by_cases hi : i ∈ sect.targets count <;> simp [hi, ho, ownBody_of_mem hnodup hn ho]
    · simp [ho]

theorem names_iff (hperm : (pre ++ post).Perm (statements sect named)) :
    ((∃ d ∈ pre, d.Names o) ∨ ∃ d ∈ post, d.Names o) ↔ o ∈ allNames named := by
  have hall : (∃ d ∈ pre ++ post, d.Names o) ↔ o ∈ allNames named := by
    simp only [hperm.mem_iff, statements, List.mem_map, allNames, List.mem_flatMap]
    constructor
    · rintro ⟨_, ⟨n, hn, rfl⟩, ho⟩
      exact ⟨n, hn, ho⟩
    · rintro ⟨n, hn, ho⟩
      exact ⟨_, ⟨n, hn, rfl⟩, ho⟩
  rw [← hall]
  simp only [List.mem_append, or_and_right, exists_or]

/-- The body in force in every section. -/
def bound (sect : Sect) (named : List (List String × Bool)) (pre : List Decl) (o : String) :
    Option Spec :=
  match ownBody sect named o with
  | some src => some src
  | none => if Hidden sect pre o then none else some ⟨sect, "op"⟩

theorem bound_sect {src : Spec} (h : bound sect named pre o = some src) : src.sect = sect := by
  unfold bound at h
  split at h
  · rename_i own hown
    obtain ⟨n, -, rfl⟩ := Option.map_eq_some_iff.mp hown
    rw [← Option.some.inj h]
    rfl
  · split at h
    · cases h
    · rw [← Option.some.inj h]

theorem eq_num_iff (hi : i ∈ sect.targets count) : sect = .num i ↔ sect.isSingle := by
  cases sect with
  | num j => simp [Sect.isSingle, List.mem_singleton.mp hi]
  | range a b => simp [Sect.isSingle]
  | all => simp [Sect.isSingle]

theorem inForce_bound (hnodup : (allNames named).Nodup) (ho : o ∈ outputOps)
    (hperm : (pre ++ post).Perm (statements sect named)) :
    inForce count outputOps (pre ++ .op sect :: post) i o =
      if i ∈ sect.targets count then bound sect named pre o else none := by
  have hpre : ∀ d ∈ pre, d ∈ statements sect named :=
    fun d hd => hperm.mem_iff.mp (List.mem_append_left _ hd)
  have hpost : ∀ d ∈ post, d ∈ statements sect named :=
    fun d hd => hperm.mem_iff.mp (List.mem_append_right _ hd)
  have hbefore : ∀ i t, pre.foldl (Bodies.after count outputOps) (fun _ _ => none) i t =
      if i ∈ sect.targets count ∧ ∃ d ∈ pre, d.Names t then ownBody sect named t else none :=
    fun i t => foldl_named hnodup hpre
  rw [inForce, List.foldl_append, List.foldl_cons, foldl_named hnodup hpost]
  simp only [Bodies.after, taken, hbefore]
  by_cases hi : i ∈ sect.targets count
  · simp only [hi, true_and, if_true, bound]
    cases hown : ownBody sect named o with
    | some src =>
      have hin := mem_of_ownBody hown
      rcases (names_iff hperm).mpr hin with h | h
      · simp [h]
      · simp [h]
    | none =>
      have hno := ownBody_eq_none_iff.mp hown
      rw [← names_iff hperm, not_or] at hno
      have hsome : ∀ t, (if ∃ d ∈ pre, d.Names t then ownBody sect named t else none).isSome ↔
          ∃ d ∈ pre, d.Names t := by
        intro t
        split
        · rename_i ht
          simp only [ht, iff_true, Option.isSome_iff_ne_none, ne_eq, ownBody_eq_none_iff, not_not]
          exact (names_iff hperm).mp (.inl ht)
        · rename_i ht
          simp [ht]
      have hfree : (sect = .num i → ∀ t ∈ outputOps,
          (if ∃ d ∈ pre, d.Names t then ownBody sect named t else none).isSome →
            ¬ matchesName o t) ↔ ¬ Hidden sect pre o := by
        simp only [hsome, eq_num_iff hi, Hidden, not_and, not_exists]
      simp only [hno.1, hno.2, ho, hfree, if_false, true_and]
      split <;> simp_all
  · simp [hi]

theorem tableEntry_bound (pre post : List Decl) (hnodup : (allNames named).Nodup) (ho : o ∈ outputOps)
    (hs : sect.Covers s) (hperm : (pre ++ post).Perm (statements sect named))
    (h : parse2 count outputOps ∅ (pre ++ .op sect :: post) = some as)
    {order : List (Sigma fun _ : Key => Spec)} (horder : order.Perm as.entries) :
    tableEntry order s o =
      if sect.targets count = [] then .missing o
      else match bound sect named pre o with
        | some src => .body src
        | none => .missing o := by
  refine tableEntry_eq_iff.mpr ⟨?_, fun hno => ?_⟩ order horder
  · rintro ⟨⟨i, n⟩, src⟩ he rfl -
    rw [mem_entries_iff h, inForce_bound hnodup ho hperm] at he
    split at he
    · rename_i hi
      rw [if_neg (List.ne_nil_of_mem hi), he]
    · cases he
  · split
    · rfl
    · rename_i htargets
      obtain ⟨i, hi⟩ := List.exists_mem_of_ne_nil _ htargets
      cases hb : bound sect named pre o with
      | none => rfl
      | some src =>
        have hforce : inForce count outputOps (pre ++ .op sect :: post) i o = some src := by
          rw [inForce_bound hnodup ho hperm, if_pos hi, hb]
        have hcov : src.sect.Covers s := (bound_sect hb).symm ▸ hs
        exact absurd ⟨rfl, hcov⟩ (hno ⟨(i, o), src⟩ ((mem_entries_iff h i o src).mpr hforce))

/-! ## The order of the statements -/

theorem names_isSome {src : String → Spec} {noforce : Bool} {names : List String}
    (hnames : ∀ n ∈ names, n ∈ opset) (as : Aliases) :
    ∃ as', names.foldlM (fun as n => genOpsAliases count opset sect n (src n) noforce as) as =
      some as' := by
  induction names generalizing as with
  | nil => exact ⟨as, rfl⟩
  | cons n names ih =>
    obtain ⟨hn, hnames⟩ := List.forall_mem_cons.mp hnames
    rw [List.foldlM_cons, genOpsAliases, if_pos hn]
    exact ih hnames _

theorem parse2_isSome (hdecls : ∀ d ∈ decls, ∀ n, d.Names n → n ∈ opset) (as : Aliases) :
    ∃ as', parse2 count opset as decls = some as' := by
  induction decls generalizing as with
  | nil => exact ⟨as, rfl⟩
  | cons d decls ih =>
    obtain ⟨hd, hdecls⟩ := List.forall_mem_cons.mp hdecls
    obtain ⟨mid, hmid⟩ : ∃ mid, declare count opset as d = some mid := by
      cases d with
      | ops sect names opName => exact names_isSome hd as
      | op sect => exact names_isSome (fun n hn => List.mem_of_mem_filter hn) as
    obtain ⟨as', has'⟩ := ih hdecls mid
    exact ⟨as', by rw [parse2, hmid, Option.bind_some, has']⟩

/-- The operation is declared, or it is neither combined of declared ones nor matched by one. A range
has no matching, and an empty one has no bodies at all. -/
def Plain (count : Nat) (sect : Sect) (named : List (List String × Bool)) (o : String) : Prop :=
  if sect.targets count = [] then o ∉ allNames named ∧ IsCombined named o
  else o ∈ allNames named ∨
    ¬ IsCombined named o ∧ ¬ Hidden sect (statements sect named) o

theorem Hidden.mono (hpre : ∀ d ∈ pre, d ∈ statements sect named) (h : Hidden sect pre o) :
    Hidden sect (statements sect named) o := by
  obtain ⟨hsingle, t, ht, ⟨d, hd, hdt⟩, hmatch⟩ := h
  exact ⟨hsingle, t, ht, ⟨d, hpre d hd, hdt⟩, hmatch⟩

/-- **`$op` gets exactly the operations that no other name in its section is part of.** -/
theorem op_forwards (hnodup : (allNames named).Nodup) (hnames : ∀ n ∈ allNames named, n ∈ outputOps)
    (ho : o ∈ outputOps) (hs : sect.Covers s) :
    Forwards count sect named s o ↔ Plain count sect named o := by
  have hsome : ∀ decls, decls.Perm (.op sect :: statements sect named) →
      ∃ as, parse2 count outputOps ∅ decls = some as := by
    intro decls hperm
    refine parse2_isSome (fun d hd n hn => hnames n ?_) ∅
    rcases List.mem_cons.mp (hperm.mem_iff.mp hd) with rfl | hd
    · cases hn
    · obtain ⟨m, hm, rfl⟩ := List.mem_map.mp hd
      exact List.mem_flatMap.mpr ⟨m, hm, hn⟩
  unfold Plain
  constructor
  · intro h
    -- the two extreme orders: `$op` before all others and behind them
    obtain ⟨as₁, has₁⟩ := hsome _ (List.Perm.refl _)
    have hlast : (statements sect named ++ [Decl.op sect]).Perm
        (Decl.op sect :: statements sect named) :=
      List.perm_append_singleton _ _
    obtain ⟨as₂, has₂⟩ := hsome _ hlast
    have h₁ := h _ (List.Perm.refl _) as₁ has₁ _ (List.Perm.refl _)
    have h₂ := h _ hlast as₂ has₂ _ (List.Perm.refl _)
    rw [tableEntry_bound [] _ hnodup ho hs (List.Perm.refl _) has₁ (List.Perm.refl _)] at h₁
    rw [tableEntry_bound _ [] hnodup ho hs (by rw [List.append_nil]) has₂
      (List.Perm.refl _)] at h₂
    unfold bound expected at h₁ h₂
    have hnot : ¬ Hidden sect [] o := fun ⟨_, _, _, ⟨_, hd, _⟩, _⟩ => by cases hd
    cases hown : ownBody sect named o with
    | some src =>
      have hin := mem_of_ownBody hown
      simp_all
    | none =>
      have hout := ownBody_eq_none_iff.mp hown
      have hfree : sect.targets count ≠ [] → ¬ IsCombined named o →
          ¬ Hidden sect (statements sect named) o := by
        intro ht hc hh
        simp [ht, hc, hh, hown] at h₂
      by_cases ht : sect.targets count = [] <;> by_cases hc : IsCombined named o <;> simp_all
  · intro h decls hperm as has order horder
    obtain ⟨pre, post, rfl⟩ := List.append_of_mem (hperm.mem_iff.mpr List.mem_cons_self)
    have hrest : (pre ++ post).Perm (statements sect named) :=
      (List.perm_middle.symm.trans hperm).cons_inv
    rw [tableEntry_bound pre post hnodup ho hs hrest has horder]
    have hpre : Hidden sect pre o → Hidden sect (statements sect named) o :=
      Hidden.mono fun d hd => hrest.mem_iff.mp (List.mem_append_left _ hd)
    unfold bound expected
    cases hown : ownBody sect named o with
    | some src =>
      have hin := mem_of_ownBody hown
      by_cases ht : sect.targets count = [] <;> simp_all
    | none =>
      have hout := ownBody_eq_none_iff.mp hown
      by_cases ht : sect.targets count = []
      · simp_all
      · obtain ⟨hc, hh⟩ : ¬ IsCombined named o ∧ ¬ Hidden sect (statements sect named) o := by
          simpa [ht, hout] using h
        have hfree : ¬ Hidden sect pre o := fun hp => hh (hpre hp)
        simp [ht, hc, hfree]

theorem op_forwards_get : Forwards 1 (.num 0) [(["get"], false)] 0 "put" :=
  (op_forwards (by decide) (by decide) (by decide) (by decide)).mpr
    (by unfold Plain; decide +kernel)

/-- `$lock` stands before `$op`, and is a part of the name of `$unlock`. -/
theorem op_forgets_unlock : ∃ as,
    parse2 1 outputOps ∅ [.ops (.num 0) ["lock"] false, .op (.num 0)] = some as ∧
    tableEntry as.entries 0 "unlock" = .missing "unlock" ∧
    expected (.num 0) [(["lock"], false)] "unlock" = .body ⟨.num 0, "op"⟩ ∧
    ¬ Forwards 1 (.num 0) [(["lock"], false)] 0 "unlock" := by
  obtain ⟨as, has⟩ : ∃ as,
      parse2 1 outputOps ∅ [.ops (.num 0) ["lock"] false, .op (.num 0)] = some as :=
    Option.isSome_iff_exists.mp (by decide +kernel)
  have htable : tableEntry as.entries 0 "unlock" = .missing "unlock" := by
    have hperm : ([Decl.ops (.num 0) ["lock"] false] ++ []).Perm
        (statements (.num 0) [(["lock"], false)]) := List.Perm.refl _
    rw [tableEntry_bound [.ops (.num 0) ["lock"] false] [] (by decide) (by decide) (by decide) hperm
      has (List.Perm.refl _)]
    decide +kernel
  have hexpected : expected (.num 0) [(["lock"], false)] "unlock" = .body ⟨.num 0, "op"⟩ := by
    decide +kernel
  refine ⟨as, has, htable, hexpected, fun h => ?_⟩
  have hsame := h _ (List.Perm.swap _ _ _) as has _ (List.Perm.refl _)
  rw [htable, hexpected] at hsame
  cases hsame

end Athomux.Pre
