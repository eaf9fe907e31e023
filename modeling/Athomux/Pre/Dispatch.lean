import Athomux.Pre.InForce

/-!
# The table and the calls

An entry of the operation table is made from every body whose section has it, a static call from the
alias of its section. They are the same where one body alone is in force.
-/

namespace Athomux.Pre

variable {count : Nat} {opset : List String} {decls : List Decl} {as : Aliases} {s : Nat} {o : String}

/-! ## What is declared -/

/-- A range that ends with section `s`. -/
def Sect.EndsAt (s : Nat) : Sect → Prop
  | .range _ b => b = s
  | _ => False

/-- A statement is for all sections of its range, both ends included. -/
def declaredBy (opset : List String) (s : Nat) (o : String) (f : Bodies) (r : Option Spec) :
    Decl → Option Spec
  | .ops sect names opName =>
    if sect.Covers s ∧ o ∈ names then some (srcOf sect names opName o) else r
  | .op sect =>
    if sect.Covers s ∧ o ∈ opset ∧ r = none ∧
        (sect = .num s → ∀ t ∈ opset, (f s t).isSome → ¬ matchesName o t)
    then some ⟨sect, "op"⟩ else r

def declaredFrom (count : Nat) (opset : List String) (s : Nat) (o : String) :
    Bodies → Option Spec → List Decl → Option Spec
  | _, r, [] => r
  | f, r, d :: ds =>
    declaredFrom count opset s o (f.after count opset d) (declaredBy opset s o f r d) ds

/-- The body that is declared for an operation of a section. -/
def declaredFor (count : Nat) (opset : List String) (decls : List Decl) (s : Nat) (o : String) :
    Option Spec :=
  declaredFrom count opset s o (fun _ _ => none) none decls

theorem covers_of_mem_targets {sect : Sect} (h : s ∈ sect.targets count) : sect.Covers s := by
  cases sect with
  | num i => exact (List.mem_singleton.mp h).symm
  | range a b =>
    have := List.mem_range'_1.mp h
    exact ⟨by omega, by omega⟩
  | all => trivial

theorem mem_targets_iff (hs : s < count) {sect : Sect} :
    s ∈ sect.targets count ↔ sect.Covers s ∧ ¬ sect.EndsAt s := by
  cases sect with
  | num i => simp [Sect.targets, Sect.Covers, Sect.EndsAt, eq_comm]
  | range a b =>
    simp only [Sect.targets, Sect.Covers, Sect.EndsAt, List.mem_range'_1]
    omega
  | all => simpa [Sect.targets, Sect.Covers, Sect.EndsAt] using hs

theorem inForce_mem_targets_from {f : Bodies}
    (hf : ∀ i o src, f i o = some src → i ∈ src.sect.targets count) (i : Nat) (o : String)
    (src : Spec) (h : decls.foldl (Bodies.after count opset) f i o = some src) :
    i ∈ src.sect.targets count := by
  induction decls generalizing f with
  | nil => exact hf i o src h
  | cons d decls ih =>
    refine ih (fun i o src h => ?_) h
    cases d with
    | ops sect names opName =>
      simp only [Bodies.after] at h
      split at h
      · rename_i hc
        rw [← Option.some.inj h]
        exact hc.1
      · exact hf i o src h
    | op sect =>
      simp only [Bodies.after] at h
      split at h
      · rename_i hc
        rw [← Option.some.inj h]
        exact hc.1
      · exact hf i o src h

theorem inForce_mem_targets {i : Nat} {src : Spec} (h : inForce count opset decls i o = some src) :
    i ∈ src.sect.targets count :=
  inForce_mem_targets_from (fun _ _ _ h => by cases h) i o src h

/-- How what is declared and what is in force go together. -/
structure InStep (s : Nat) (b r : Option Spec) : Prop where
  declared : b.isSome → r.isSome
  kept : ∀ src, r = some src → ¬ src.sect.EndsAt s → b = some src

theorem InStep.after (hs : s < count) {f : Bodies} {r : Option Spec} (h : InStep s (f s o) r)
    (d : Decl) : InStep s (f.after count opset d s o) (declaredBy opset s o f r d) := by
  cases d with
  | ops sect names opName =>
    simp only [Bodies.after, declaredBy]
    by_cases hc : sect.Covers s ∧ o ∈ names
    · rw [if_pos hc]
      refine ⟨fun _ => rfl, fun src hsrc hend => ?_⟩
      rw [← Option.some.inj hsrc] at hend ⊢
      rw [if_pos ⟨(mem_targets_iff hs).mpr ⟨hc.1, hend⟩, hc.2⟩]
    · rw [if_neg hc, if_neg fun ht : _ ∧ _ => hc ⟨covers_of_mem_targets ht.1, ht.2⟩]
      exact h
  | op sect =>
    simp only [Bodies.after, declaredBy]
    by_cases hc : sect.Covers s ∧ o ∈ opset ∧ r = none ∧
        (sect = .num s → ∀ t ∈ opset, (f s t).isSome → ¬ matchesName o t)
    · rw [if_pos hc]
      obtain ⟨hcov, ho, hr, hfree⟩ := hc
      have hnone : f s o = none := by
        by_contra hne
        have := h.declared (Option.isSome_iff_ne_none.mpr hne)
        simp [hr] at this
      refine ⟨fun _ => rfl, fun src hsrc hend => ?_⟩
      rw [← Option.some.inj hsrc] at hend ⊢
      rw [if_pos ⟨(mem_targets_iff hs).mpr ⟨hcov, hend⟩, ho, hnone, hfree⟩]
    · rw [if_neg hc]
      by_cases ht : taken count opset f sect s o
      · -- `$op` fills a gap that only a range up to here covers
        rw [if_pos ht]
        obtain ⟨hmem, ho, hnone, hfree⟩ := ht
        have hr : r ≠ none := fun hr => hc ⟨covers_of_mem_targets hmem, ho, hr, hfree⟩
        refine ⟨fun _ => Option.isSome_iff_ne_none.mpr hr, fun src hsrc hend => ?_⟩
        rw [h.kept src hsrc hend] at hnone
        cases hnone
      · rw [if_neg ht]
        exact h

theorem declaredFrom_inForce (hs : s < count) {f : Bodies} {r : Option Spec} (h : InStep s (f s o) r) :
    InStep s (decls.foldl (Bodies.after count opset) f s o)
      (declaredFrom count opset s o f r decls) := by
  induction decls generalizing f r with
  | nil => exact h
  | cons d decls ih => exact ih (h.after hs d)

theorem declaredFor_iff (hs : s < count) {src : Spec}
    (h : declaredFor count opset decls s o = some src) :
    inForce count opset decls s o = some src ↔ ¬ src.sect.EndsAt s := by
  constructor
  · intro hf
    exact ((mem_targets_iff hs).mp (inForce_mem_targets hf)).2
  · have hstart : InStep s none none := ⟨fun h => h, fun _ h => by cases h⟩
    exact (declaredFrom_inForce (f := fun _ _ => none) hs hstart).kept src h

/-! ## The table -/

/-- Any initialiser of an entry can be the last one. -/
theorem tableEntry_eq_iff {l : List (Sigma fun _ : Key => Spec)} {fn : Fn} :
    (∀ order, order.Perm l → tableEntry order s o = fn) ↔
      (∀ e ∈ l, e.1.2 = o → e.2.sect.Covers s → fn = .body e.2) ∧
        ((∀ e ∈ l, ¬ (e.1.2 = o ∧ e.2.sect.Covers s)) → fn = .missing o) := by
  constructor
  · intro h
    refine ⟨fun e he ho hc => ?_, fun hnone => ?_⟩
    · obtain ⟨l₁, l₂, rfl⟩ := List.append_of_mem he
      have hperm : (l₁ ++ l₂ ++ [e]).Perm (l₁ ++ e :: l₂) :=
        (List.perm_append_singleton e (l₁ ++ l₂)).trans List.perm_middle.symm
      rw [← h _ hperm, tableEntry, List.filter_append,
        List.filter_cons_of_pos (by simp [ho, hc]), List.filter_nil, List.getLast?_concat]
    · rw [← h l (List.Perm.refl l), tableEntry, List.filter_eq_nil_iff.mpr]
      · rfl
      · simpa using hnone
  · rintro ⟨hall, hnone⟩ order hperm
    unfold tableEntry
    cases hlast : (order.filter fun e => e.1.2 = o ∧ e.2.sect.Covers s).getLast? with
    | none =>
      rw [List.getLast?_eq_none_iff, List.filter_eq_nil_iff] at hlast
      refine (hnone fun e he hc => hlast e (hperm.mem_iff.mpr he) ?_).symm
      exact decide_eq_true hc
    | some e =>
      have hmem := List.mem_filter.mp (List.mem_of_getLast? hlast)
      have hc := of_decide_eq_true hmem.2
      exact (hall e (hperm.mem_iff.mp hmem.1) hc.1 hc.2).symm

theorem callTarget_eq (h : parse2 count opset ∅ decls = some as) :
    callTarget as s o = if isInit o then .body ⟨.num 0, o⟩ else
      match inForce count opset decls s o with
      | some src => .body src
      | none => .missing o := by
  rw [← lookup_parse2 h]
  rfl

/-! ## Agreement -/

/-- The table has what a call is compiled to, in any order of the hash, and that is what is
declared. -/
structure Dispatched (count : Nat) (opset : List String) (decls : List Decl) (as : Aliases) (s : Nat)
    (o : String) : Prop where
  table : ∀ order, order.Perm as.entries → tableEntry order s o = callTarget as s o
  declared : ∀ src, declaredFor count opset decls s o = some src → callTarget as s o = .body src

/-- The body that a call at section `s` should have. -/
def due (count : Nat) (opset : List String) (decls : List Decl) (s : Nat) (o : String) :
    Option Spec :=
  if isInit o then some ⟨.num 0, o⟩ else inForce count opset decls s o

/-- No other body that is in force somewhere is for section `s`, too. A range that ends there is one.
An init operation has to have a body of its own at section 0. -/
structure Undisputed (count : Nat) (opset : List String) (decls : List Decl) (s : Nat) (o : String) :
    Prop where
  one : ∀ i src, inForce count opset decls i o = some src → src.sect.Covers s →
    due count opset decls s o = some src
  init : isInit o → ∃ i src, inForce count opset decls i o = some src ∧ src.sect.Covers s
  last : ∀ src, declaredFor count opset decls s o = some src →
    if isInit o then src = ⟨.num 0, o⟩ else ¬ src.sect.EndsAt s

theorem callTarget_body_iff (h : parse2 count opset ∅ decls = some as) {src : Spec} :
    callTarget as s o = .body src ↔ due count opset decls s o = some src := by
  rw [callTarget_eq h, due]
  split
  · simp
  · cases inForce count opset decls s o <;> simp

theorem callTarget_missing_iff (h : parse2 count opset ∅ decls = some as) :
    callTarget as s o = .missing o ↔ due count opset decls s o = none := by
  rw [callTarget_eq h, due]
  split
  · simp
  · cases inForce count opset decls s o <;> simp

/-- **The table and the calls agree exactly where one body is in force.** -/
theorem dispatch_agrees (h : parse2 count opset ∅ decls = some as) (hs : s < count) :
    Dispatched count opset decls as s o ↔ Undisputed count opset decls s o := by
  constructor
  · rintro ⟨htable, hdecl⟩
    obtain ⟨hall, hnone⟩ := tableEntry_eq_iff.mp htable
    refine ⟨fun i src hi hc => ?_, fun hinit => ?_, fun src hsrc => ?_⟩
    · exact (callTarget_body_iff h).mp
        (hall ⟨(i, o), src⟩ ((mem_entries_iff h i o src).mpr hi) rfl hc)
    · by_contra hno
      have hmiss := (callTarget_missing_iff h).mp <| hnone <| by
        rintro ⟨⟨i, n⟩, src⟩ he ⟨rfl, hc⟩
        exact hno ⟨i, src, (mem_entries_iff h i n src).mp he, hc⟩
      rw [due, if_pos hinit] at hmiss
      cases hmiss
    · have hdue := (callTarget_body_iff h).mp (hdecl src hsrc)
      rw [due] at hdue
      split
      · rename_i hinit
        rw [if_pos hinit] at hdue
        exact (Option.some.inj hdue).symm
      · rename_i hinit
        rw [if_neg hinit] at hdue
        exact (declaredFor_iff hs hsrc).mp hdue
  · rintro ⟨hone, hinit, hlast⟩
    refine ⟨tableEntry_eq_iff.mpr ⟨?_, fun hno => ?_⟩, fun src hsrc => ?_⟩
    · rintro ⟨⟨i, n⟩, src⟩ he rfl hc
      exact (callTarget_body_iff h).mpr (hone i src ((mem_entries_iff h i n src).mp he) hc)
    · have hnone : ∀ i src, inForce count opset decls i o = some src → ¬ src.sect.Covers s :=
        fun i src hi hc => hno ⟨(i, o), src⟩ ((mem_entries_iff h i o src).mpr hi) ⟨rfl, hc⟩
      have hi : ¬ isInit o := fun hi => by
        obtain ⟨i, src, hsrc, hc⟩ := hinit hi
        exact hnone i src hsrc hc
      rw [callTarget_missing_iff h, due, if_neg hi, Option.eq_none_iff_forall_ne_some]
      intro src hsrc
      exact hnone s src hsrc (covers_of_mem_targets (inForce_mem_targets hsrc))
    · have hcase := hlast src hsrc
      rw [callTarget_body_iff h, due]
      split
      · rename_i hi
        rw [if_pos hi] at hcase
        rw [hcase]
      · rename_i hi
        rw [if_neg hi] at hcase
        exact (declaredFor_iff hs hsrc).mpr hcase

theorem dispatch_agrees_split : ∃ as,
    parse2 3 ["get", "put"] ∅
      [.ops (.range 0 2) ["get", "put"] true, .ops (.num 2) ["get"] false] = some as ∧
    Dispatched 3 ["get", "put"]
      [.ops (.range 0 2) ["get", "put"] true, .ops (.num 2) ["get"] false] as 1 "get" := by
  obtain ⟨as, has⟩ : ∃ as, parse2 3 ["get", "put"] ∅
      [.ops (.range 0 2) ["get", "put"] true, .ops (.num 2) ["get"] false] = some as :=
    Option.isSome_iff_exists.mp (by decide +kernel)
  refine ⟨as, has, (dispatch_agrees has (by decide)).mpr ⟨fun i src hsrc hc => ?_, ?_, ?_⟩⟩
  · simp only [inForce, List.foldl, Bodies.after, Sect.targets, srcOf] at hsrc
    split at hsrc
    · obtain rfl := Option.some.inj hsrc
      cases hc
    · split at hsrc
      · rw [← hsrc]
        decide
      · cases hsrc
  · exact fun hinit => absurd hinit (by decide)
  · intro src hsrc
    have hdecl : declaredFor 3 ["get", "put"]
        [.ops (.range 0 2) ["get", "put"] true, .ops (.num 2) ["get"] false] 1 "get" =
          some ⟨.range 0 2, "get"⟩ := by decide
    obtain rfl := Option.some.inj (hdecl.symm.trans hsrc)
    rw [if_neg (by decide)]
    exact fun h => by cases h

/-- A body for sections 0 to 1. The table has it in section 1, and a call there finds none. -/
theorem range_end_differs : ∃ as,
    parse2 2 ["get"] ∅ [.ops (.range 0 1) ["get"] false] = some as ∧
    tableEntry as.entries 1 "get" = .body ⟨.range 0 1, "get"⟩ ∧
    callTarget as 1 "get" = .missing "get" ∧
    ¬ Dispatched 2 ["get"] [.ops (.range 0 1) ["get"] false] as 1 "get" := by
  have htable : tableEntry (setAlias false ⟨.range 0 1, "get"⟩ ∅ (0, "get")).entries 1 "get" =
    .body ⟨.range 0 1, "get"⟩ := by decide
  have hcall : callTarget (setAlias false ⟨.range 0 1, "get"⟩ ∅ (0, "get")) 1 "get" =
    .missing "get" := by decide
  refine ⟨_, rfl, htable, hcall, fun h => ?_⟩
  have hsame := htable.symm.trans ((h.table _ (List.Perm.refl _)).trans hcall)
  cases hsame

end Athomux.Pre
