import Athomux.Pre.Macros

/-!
# When macro parameters are not captured

A call gives what it should just when no parameter finds its name in what an earlier one put in, no
variable hides an outer one of an argument, and the variables are declared where they are used.
-/

open Lib (Pass)

namespace Athomux.Macro

/-! ## Parameters as passes -/

abbrev passes (params : List Param) : List (Pass Tok (Option Lex)) := params.map Param.pass

variable {p k : Param} {ps : List Param} {d : Typed} {x y : Tok} {l s t F R : Text} {b b' : Body}
  {ds : List Decl} {key : Lex} {body : List Lex}

theorem passes_cons : passes (p :: ps) = p.pass :: passes ps := rfl

theorem mem_mark {source : Option Lex} {m : List Lex} :
    x ∈ mark source m ↔ x.lex ∈ m ∧ x.source = source := by
  constructor
  · intro h
    obtain ⟨z, hz, rfl⟩ := List.mem_map.mp h
    exact ⟨hz, rfl⟩
  · rintro ⟨hl, rfl⟩
    exact List.mem_map.mpr ⟨x.lex, hl, rfl⟩

theorem lex_mark (source : Option Lex) (m : List Lex) : (mark source m).map Tok.lex = m := by
  simp [mark, Function.comp_def]

theorem key_ne_opening (p : Param) : p.key ≠ .opening := by cases p <;> exact Lex.noConfusion

theorem put_source (h : p.put = some l) (hy : y ∈ l) : y.source = some p.key := by
  cases p with
  | plain name arg =>
    cases h
    exact (mem_mark.mp hy).2
  | rest arg =>
    cases h
    exact (mem_mark.mp hy).2
  | typed d =>
    by_cases hr : d.Renamed
    · simp only [Param.put, if_pos hr, Option.some.injEq] at h
      subst h
      rw [List.mem_singleton] at hy
      rw [hy, Typed.use, if_pos hr]
      rfl
    · simp [Param.put, hr] at h

theorem pass_marks (p : Param) : p.pass.Marks Tok.source := by
  intro x l h y hy
  simp only [Param.pass] at h
  split at h
  · exact put_source h hy
  · cases h

theorem passes_marks : ∀ q ∈ passes ps, q.Marks Tok.source := by
  intro q hq
  obtain ⟨p, -, rfl⟩ := List.mem_map.mp hq
  exact pass_marks p

theorem map_mark : (passes ps).map Pass.mark = ps.map fun p => some p.key := by
  rw [List.map_map]
  rfl

theorem marks_nodup (h : (ps.map Param.key).Nodup) : ((passes ps).map Pass.mark).Nodup := by
  have hs : Function.Injective (some : Lex → Option Lex) := fun _ _ => Option.some.inj
  rw [map_mark, ← Function.comp_def some, ← List.map_map]
  exact h.map hs

theorem none_notMem_marks : none ∉ (passes ps).map Pass.mark := by
  rw [map_mark]
  simp

theorem pass_put (h : x.lex = p.key) : p.pass.put x = p.put := if_pos h

theorem pass_put_none (h : x.lex ≠ p.key) : p.pass.put x = none := if_neg h

theorem pass_keeps : p.pass.put x = none ↔ (p.put.isSome → x.lex ≠ p.key) := by
  by_cases h : x.lex = p.key
  · rw [pass_put h]
    cases p.put <;> simp [h]
  · simp [pass_put_none h, h]

theorem passes_keep : Pass.keeps (passes ps) x = true ↔ ∀ k ∈ ps, k.put.isSome → x.lex ≠ k.key := by
  rw [Pass.keeps_iff, List.forall_mem_map]
  exact forall₂_congr fun k _ => pass_keeps

theorem replaceWord_eq (h : p.put = some l) : replaceWord p.key l t = t.flatMap p.pass.on := by
  refine List.flatMap_congr fun x _ => ?_
  by_cases hx : x.lex = p.key
  · rw [if_pos hx, Pass.on_some ((pass_put hx).trans h)]
  · rw [if_neg hx, Pass.on_none (pass_put_none hx)]

theorem flatMap_on_none (h : p.put = none) : t.flatMap p.pass.on = t := by
  conv_rhs => rw [← List.flatMap_singleton' t]
  refine List.flatMap_congr fun x _ => Pass.on_none (pass_keeps.mpr fun hs => ?_)
  rw [h] at hs
  exact absurd hs (by simp)

/-! ## One parameter -/

def Decl.on (q : Pass Tok (Option Lex)) (d : Decl) : Decl :=
  ⟨d.type.flatMap q.on, d.name.flatMap q.on, d.value.flatMap q.on⟩

def Decl.run (qs : List (Pass Tok (Option Lex))) (d : Decl) : Decl :=
  ⟨Pass.run qs d.type, Pass.run qs d.name, Pass.run qs d.value⟩

def Param.replaceIn (p : Param) (b : Body) : Body :=
  match p.put with
  | some l => replaceBody p.key l b
  | none => b

theorem substParam_typed (b : Body) (d : Typed) :
    substParam b (.typed d) = insertPseudoparam d.decl ((Param.typed d).replaceIn b) := by
  by_cases h : d.Renamed <;> simp [substParam, Param.replaceIn, Param.put, Param.key, h]

theorem substParam_untyped (h : p.variable = none) : substParam b p = some (p.replaceIn b) := by
  cases p with
  | plain name arg => rfl
  | rest arg => rfl
  | typed d => cases h

/-- A body whose declarations are all behind one piece. -/
def shape (F : Text) (x : Tok) (ds : List Decl) (R : Text) : Body :=
  F.map Node.bare ++ ⟨x, ds⟩ :: R.map Node.bare

theorem replaceBody_bare (key : Lex) (s t : Text) :
    replaceBody key s (t.map Node.bare) = (replaceWord key s t).map Node.bare := by
  induction t with
  | nil => rfl
  | cons x t ih =>
    rw [List.map_cons, replaceBody, List.flatMap_cons, replaceWord, List.flatMap_cons,
      List.map_append]
    congr 1
    show (if x.lex = key then _ else _) = _
    split
    · rfl
    · rfl

theorem replaceBody_shape (hx : x.lex ≠ key) : replaceBody key s (shape F x ds R) =
    shape (replaceWord key s F) x (ds.map (Decl.replace key s)) (replaceWord key s R) := by
  have hF := replaceBody_bare key s F
  have hR := replaceBody_bare key s R
  rw [replaceBody] at hF hR
  rw [shape, shape, replaceBody, List.flatMap_append, List.flatMap_cons, hF, hR, if_neg hx]
  rfl

theorem replaceIn_bare : p.replaceIn (t.map Node.bare) = (t.flatMap p.pass.on).map Node.bare := by
  unfold Param.replaceIn
  cases h : p.put with
  | none => rw [flatMap_on_none h]
  | some l => rw [← replaceWord_eq h, ← replaceBody_bare]

theorem replaceIn_shape (hx : x.lex = .opening) : p.replaceIn (shape F x ds R) =
    shape (F.flatMap p.pass.on) x (ds.map (Decl.on p.pass)) (R.flatMap p.pass.on) := by
  unfold Param.replaceIn
  cases h : p.put with
  | none =>
    have hds : Decl.on p.pass = id := by
      funext d
      simp [Decl.on, flatMap_on_none h]
    rw [flatMap_on_none h, flatMap_on_none h, hds, List.map_id]
  | some l =>
    have hds : Decl.replace p.key l = Decl.on p.pass := by
      funext d
      simp [Decl.on, Decl.replace, replaceWord_eq h]
    show replaceBody _ _ _ = _
    rw [replaceBody_shape (hx.trans_ne (key_ne_opening p).symm), hds, replaceWord_eq h,
      replaceWord_eq h]

theorem insert_shape {e : Decl} (hF : ∀ y ∈ F, y.lex ≠ .opening) (hx : x.lex = .opening) :
    insertPseudoparam e (shape F x ds R) = some (shape F x (e :: ds) R) := by
  induction F with
  | nil => exact if_pos hx
  | cons y F ih =>
    have ih := ih fun z hz => hF z (List.mem_cons_of_mem y hz)
    show (if y.lex = .opening then _ else (insertPseudoparam e (shape F x ds R)).map _) = _
    rw [if_neg (hF y List.mem_cons_self), ih]
    rfl

/-! ## All parameters -/

/-- The declarations of a call, with what becomes of each one. -/
def declared : List Param → List Decl
  | [] => []
  | p :: ps => declared ps ++ (p.variable.map fun d => d.decl.run (passes ps)).toList

theorem no_opening_on (hF : ∀ y ∈ F, y.lex ≠ .opening)
    (hy : y ∈ F.flatMap (Param.typed d).pass.on) : y.lex ≠ .opening := by
  obtain ⟨x, hx, hyx⟩ := List.mem_flatMap.mp hy
  cases hput : (Param.typed d).pass.put x with
  | none =>
    rw [Pass.on_none hput, List.mem_singleton] at hyx
    exact hyx ▸ hF x hx
  | some l =>
    rw [Pass.on_some hput] at hyx
    by_cases hr : d.Renamed
    · simp only [Param.pass, Param.put, if_pos hr] at hput
      split at hput
      · cases hput
        rw [List.mem_singleton.mp hyx]
        exact Lex.noConfusion
      · cases hput
    · simp [Param.pass, Param.put, hr] at hput

/-- The text in front of the declarations has no brace as long as there are variables to come. -/
theorem foldlM_shape (hx : x.lex = .opening)
    (hF : ∀ pre d post, ps = pre ++ .typed d :: post →
      ∀ y ∈ Pass.run (passes pre) F, y.lex ≠ .opening) :
    ps.foldlM substParam (shape F x ds R) = some (shape (Pass.run (passes ps) F) x
      (declared ps ++ ds.map (Decl.run (passes ps))) (Pass.run (passes ps) R)) := by
  induction ps generalizing F ds R with
  | nil =>
    have hds : Decl.run (passes []) = id := rfl
    rw [hds, List.map_id]
    rfl
  | cons p ps ih =>
    have hstep : substParam (shape F x ds R) p = some (shape (F.flatMap p.pass.on) x
        ((p.variable.map Typed.decl).toList ++ ds.map (Decl.on p.pass)) (R.flatMap p.pass.on)) := by
      cases p with
      | plain name arg => rw [substParam_untyped rfl, replaceIn_shape hx]; rfl
      | rest arg => rw [substParam_untyped rfl, replaceIn_shape hx]; rfl
      | typed d =>
        have h : ∀ y ∈ F, y.lex ≠ .opening := hF [] d ps rfl
        rw [substParam_typed, replaceIn_shape hx, insert_shape (fun y => no_opening_on h) hx]
        rfl
    rw [List.foldlM_cons, hstep, Option.bind_eq_bind, Option.bind_some, ih]
    · rw [List.map_append, declared, List.append_assoc, List.map_map]
      cases p.variable <;> rfl
    · intro pre d post h
      exact hF (p :: pre) d post (by rw [h]; rfl)

theorem foldlM_bare (h : ps.filterMap Param.variable = []) :
    ps.foldlM substParam (t.map Node.bare) = some ((Pass.run (passes ps) t).map Node.bare) := by
  induction ps generalizing t with
  | nil => rfl
  | cons p ps ih =>
    have hp : p.variable = none := by
      cases hv : p.variable with
      | none => rfl
      | some d => simp [hv] at h
    rw [List.filterMap_cons_none hp] at h
    rw [List.foldlM_cons, substParam_untyped hp, Option.bind_eq_bind, Option.bind_some,
      replaceIn_bare, ih h]
    rfl

/-! ## Where declarations go -/

theorem insert_spec {e : Decl} (h : insertPseudoparam e b = some b') :
    ∃ l n r, b = l ++ n :: r ∧ n.tok.lex = .opening ∧ (∀ m ∈ l, m.tok.lex ≠ .opening) ∧
      b' = l ++ ⟨n.tok, e :: n.decls⟩ :: r := by
  induction b generalizing b' with
  | nil => cases h
  | cons n b ih =>
    by_cases hn : n.tok.lex = .opening
    · rw [insertPseudoparam, if_pos hn, Option.some.injEq] at h
      exact ⟨[], n, b, rfl, hn, by simp, h.symm⟩
    · rw [insertPseudoparam, if_neg hn, Option.map_eq_some_iff] at h
      obtain ⟨a, ha, rfl⟩ := h
      obtain ⟨l, m, r, rfl, hm, hl, rfl⟩ := ih ha
      exact ⟨n :: l, m, r, rfl, hm, by simpa using ⟨hn, hl⟩, rfl⟩

theorem tok_replaceIn : (p.replaceIn b).map Node.tok = (b.map Node.tok).flatMap p.pass.on := by
  unfold Param.replaceIn
  cases h : p.put with
  | none => rw [flatMap_on_none h]
  | some l =>
    rw [← replaceWord_eq h]
    show (replaceBody p.key l b).map _ = _
    rw [replaceBody, replaceWord, List.map_flatMap, List.flatMap_map]
    refine List.flatMap_congr fun n _ => ?_
    split <;> simp [Function.comp_def, Node.bare]

theorem tok_substParam (h : substParam b p = some b') :
    b'.map Node.tok = (b.map Node.tok).flatMap p.pass.on := by
  cases p with
  | typed d =>
    rw [substParam_typed] at h
    obtain ⟨l, n, r, hb, -, -, rfl⟩ := insert_spec h
    rw [← tok_replaceIn, hb, List.map_append, List.map_append]
    rfl
  | plain name arg =>
    rw [substParam_untyped rfl, Option.some.injEq] at h
    rw [← h, tok_replaceIn]
  | rest arg =>
    rw [substParam_untyped rfl, Option.some.injEq] at h
    rw [← h, tok_replaceIn]

theorem tok_foldlM (h : ps.foldlM substParam b = some b') :
    b'.map Node.tok = Pass.run (passes ps) (b.map Node.tok) := by
  induction ps generalizing b with
  | nil =>
    cases h
    rfl
  | cons p ps ih =>
    rw [List.foldlM_cons, Option.bind_eq_bind, Option.bind_eq_some_iff] at h
    obtain ⟨a, ha, h⟩ := h
    rw [ih h, tok_substParam ha]
    rfl

/-- Nothing replaces a brace, so declarations stay behind theirs. -/
theorem decls_replaceIn {n : Node} (hn : n ∈ b) (hlex : n.tok.lex = .opening) (hd : n.decls ≠ []) :
    ∃ m ∈ p.replaceIn b, m.tok = n.tok ∧ m.decls ≠ [] := by
  unfold Param.replaceIn
  cases p.put with
  | none => exact ⟨n, hn, rfl, hd⟩
  | some l =>
    refine ⟨⟨n.tok, n.decls.map (Decl.replace p.key l)⟩, List.mem_flatMap.mpr ⟨n, hn, ?_⟩, rfl, ?_⟩
    · rw [if_neg (hlex.trans_ne (key_ne_opening p).symm)]
      exact List.mem_singleton.mpr rfl
    · simpa using hd

theorem decls_substParam {n : Node} (h : substParam b p = some b') (hn : n ∈ b)
    (hlex : n.tok.lex = .opening) (hd : n.decls ≠ []) :
    ∃ m ∈ b', m.tok = n.tok ∧ m.decls ≠ [] := by
  obtain ⟨m, hm, hmt, hmd⟩ := decls_replaceIn (p := p) hn hlex hd
  cases hp : p.variable with
  | none =>
    rw [substParam_untyped hp, Option.some.injEq] at h
    exact ⟨m, h ▸ hm, hmt, hmd⟩
  | some d =>
    cases p with
    | plain name arg => cases hp
    | rest arg => cases hp
    | typed e =>
      rw [substParam_typed] at h
      obtain ⟨l, i, r, hb, -, -, rfl⟩ := insert_spec h
      rw [hb, List.mem_append, List.mem_cons] at hm
      rcases hm with hm | rfl | hm
      · exact ⟨m, by simp [hm], hmt, hmd⟩
      · exact ⟨⟨m.tok, e.decl :: m.decls⟩, by simp, hmt, by simp⟩
      · exact ⟨m, by simp [hm], hmt, hmd⟩

theorem decls_foldlM {n : Node} (h : ps.foldlM substParam b = some b') (hn : n ∈ b)
    (hlex : n.tok.lex = .opening) (hd : n.decls ≠ []) :
    ∃ m ∈ b', m.tok = n.tok ∧ m.decls ≠ [] := by
  induction ps generalizing b n with
  | nil =>
    cases h
    exact ⟨n, hn, rfl, hd⟩
  | cons p ps ih =>
    rw [List.foldlM_cons, Option.bind_eq_bind, Option.bind_eq_some_iff] at h
    obtain ⟨a, ha, h⟩ := h
    obtain ⟨m, hm, hmt, hmd⟩ := decls_substParam ha hn hlex hd
    obtain ⟨i, hi, hit, hid⟩ := ih h hm (hmt ▸ hlex) hmd
    exact ⟨i, hi, hit.trans hmt, hid⟩

/-! ## The text -/

theorem distinct_puts (hd : (ps.map Param.key).Nodup) :
    (passes ps).Pairwise fun p q => ∀ x ∈ t, (p.put x).isSome → q.put x = none := by
  rw [List.pairwise_map]
  refine (List.pairwise_map.mp hd).imp fun {p k} hne x _ hput => ?_
  by_cases hx : x.lex = p.key
  · exact pass_put_none (hx ▸ hne)
  · rw [pass_put_none hx] at hput
    exact absurd hput (by simp)

/-- The later parameter finds nothing in what the earlier one puts into the text. -/
def KeepsText (body : List Lex) (p k : Param) : Prop :=
  p.key ∈ body → ∀ l, p.put = some l → ∀ y ∈ l, k.put.isSome → y.lex ≠ k.key

theorem run_eq_simultaneous (hd : (ps.map Param.key).Nodup) :
    Pass.run (passes ps) (mark none body) = simultaneous ps (mark none body) ↔
      ps.Pairwise (KeepsText body) := by
  have hfresh : ∀ x ∈ mark none body, x.source ∉ (passes ps).map Pass.mark :=
    fun x hx => (mem_mark.mp hx).2 ▸ none_notMem_marks
  rw [simultaneous, Pass.run_eq_once_iff passes_marks (marks_nodup hd) (distinct_puts hd) hfresh,
    List.pairwise_map]
  refine List.Pairwise.iff fun p k => ⟨fun h hp l hl y hy => ?_, fun h x hx l hl y hy => ?_⟩
  · exact pass_keeps.mp (h ⟨p.key, none⟩ (mem_mark.mpr ⟨hp, rfl⟩) l ((pass_put rfl).trans hl) y hy)
  · by_cases hxp : x.lex = p.key
    · rw [pass_put hxp] at hl
      exact pass_keeps.mpr (h (hxp ▸ (mem_mark.mp hx).1) l hl y hy)
    · rw [pass_put_none hxp] at hl
      cases hl

/-! ## The declarations -/

theorem source_decl (hd : d.key ∉ ps.map Param.key) :
    (∀ x ∈ d.decl.type, x.source ∉ (passes ps).map Pass.mark) ∧
      (∀ x ∈ d.decl.name, x.source ∉ (passes ps).map Pass.mark) ∧
      ∀ x ∈ d.decl.value, x.source ∉ (passes ps).map Pass.mark := by
  have hkey : some d.key ∉ (passes ps).map Pass.mark := by
    rw [map_mark]
    simpa using hd
  refine ⟨fun x hx => (mem_mark.mp hx).2 ▸ none_notMem_marks, fun x hx => ?_,
    fun x hx => (mem_mark.mp hx).2 ▸ hkey⟩
  rw [List.mem_singleton.mp hx, Typed.use]
  split
  · exact hkey
  · exact none_notMem_marks

/-- The other parameters leave the declaration alone. -/
theorem run_decl (hn : (ps.map Param.key).Nodup) (hd : d.key ∉ ps.map Param.key) :
    d.decl.run (passes ps) = d.decl ↔ ∀ k ∈ ps, k.put.isSome →
      k.key ∉ d.type ∧ k.key ≠ .word d.var ∧ k.key ∉ d.arg.text := by
  obtain ⟨htype, hname, hvalue⟩ := source_decl hd
  have hall : d.decl.run (passes ps) = d.decl ↔ (∀ x ∈ d.decl.type, Pass.keeps (passes ps) x) ∧
      (∀ x ∈ d.decl.name, Pass.keeps (passes ps) x) ∧
      ∀ x ∈ d.decl.value, Pass.keeps (passes ps) x := by
    rw [Decl.run, Decl.mk.injEq, Pass.run_eq_self_iff passes_marks (marks_nodup hn) htype,
      Pass.run_eq_self_iff passes_marks (marks_nodup hn) hname,
      Pass.run_eq_self_iff passes_marks (marks_nodup hn) hvalue]
  simp only [hall, passes_keep]
  constructor
  · rintro ⟨ht, hv, he⟩ k hk hput
    refine ⟨fun hin => ht ⟨k.key, none⟩ (mem_mark.mpr ⟨hin, rfl⟩) k hk hput rfl, fun heq => ?_,
      fun hin => he ⟨k.key, some d.key⟩ (mem_mark.mpr ⟨hin, rfl⟩) k hk hput rfl⟩
    exact hv d.use (List.mem_singleton.mpr rfl) k hk hput heq.symm
  · intro h
    refine ⟨fun x hx k hk hput heq => (h k hk hput).1 (heq ▸ (mem_mark.mp hx).1),
      fun x hx k hk hput heq => (h k hk hput).2.1 ?_,
      fun x hx k hk hput heq => (h k hk hput).2.2 (heq ▸ (mem_mark.mp hx).1)⟩
    rw [← heq, List.mem_singleton.mp hx, Typed.use]

/-- The later parameter finds nothing in the declaration of the earlier one. -/
def KeepsDecl (p k : Param) : Prop :=
  ∀ d, p.variable = some d → k.put.isSome →
    k.key ∉ d.type ∧ k.key ≠ .word d.var ∧ k.key ∉ d.arg.text

theorem declared_iff (hn : (ps.map Param.key).Nodup) :
    declared ps = ((ps.filterMap Param.variable).map Typed.decl).reverse ↔
      ps.Pairwise KeepsDecl := by
  induction ps with
  | nil => simp [declared]
  | cons p ps ih =>
    obtain ⟨hp, hn⟩ := List.nodup_cons.mp hn
    rw [List.pairwise_cons, ← ih hn, declared]
    unfold KeepsDecl
    cases hv : p.variable with
    | none => simp [List.filterMap_cons_none hv]
    | some d =>
      have hkey : d.key ∉ ps.map Param.key := by
        cases p with
        | typed e =>
          cases hv
          exact hp
        | plain name arg => cases hv
        | rest arg => cases hv
      rw [List.filterMap_cons_some hv, List.map_cons, List.reverse_cons, Option.map_some,
        Option.toList_some, List.append_singleton_inj, run_decl hn hkey, and_comm]
      simp only [Option.some.injEq, forall_eq']

/-! ## The values -/

section

variable {V : Type} {eval : List Lex → (String → V) → V} {garbage : V} {env : String → V}
  {vs : List Typed} {w : String}

/-- The variables behind all declarations. The last parameter is declared first. -/
def scope (eval : List Lex → (String → V) → V) (garbage : V) (env : String → V) (vs : List Typed) :
    String → V := (vs.map Typed.decl).reverse.foldl (declare eval garbage) env

theorem declare_decl : declare eval garbage env d.decl =
    Function.update env d.var (eval d.arg.text (Function.update env d.var garbage)) := by
  have hvalue : d.decl.value.map Tok.lex = d.arg.text := lex_mark _ _
  rw [← hvalue]
  rfl

theorem scope_cons : scope eval garbage env (d :: vs) =
    Function.update (scope eval garbage env vs) d.var
      (eval d.arg.text (Function.update (scope eval garbage env vs) d.var garbage)) := by
  rw [scope, List.map_cons, List.reverse_cons, List.foldl_append, ← scope]
  exact declare_decl

theorem scope_of_notMem (h : w ∉ vs.map Typed.var) : scope eval garbage env vs w = env w := by
  induction vs with
  | nil => rfl
  | cons d vs ih =>
    rw [List.map_cons, List.mem_cons, not_or] at h
    rw [scope_cons, Function.update_of_ne h.1, ih h.2]

/-- No variable hides what an argument means. -/
def Clear (vs : List Typed) : Prop :=
  vs.Pairwise (fun d e => .word e.var ∉ d.arg.text) ∧ ∀ d ∈ vs, .word d.var ∉ d.arg.text

theorem clear_cons : Clear (d :: vs) ↔
    (∀ e ∈ vs, .word e.var ∉ d.arg.text) ∧ .word d.var ∉ d.arg.text ∧ Clear vs := by
  rw [Clear, Clear, List.pairwise_cons, List.forall_mem_cons]
  exact ⟨fun ⟨⟨h, hp⟩, hd, hvs⟩ => ⟨h, hd, hp, hvs⟩, fun ⟨h, hd, hp, hvs⟩ => ⟨⟨h, hp⟩, hd, hvs⟩⟩

theorem value_of_clear (he : Local eval) (hn : (vs.map Typed.var).Nodup) (hc : Clear vs) :
    ∀ d ∈ vs, scope eval garbage env vs d.var = eval d.arg.text env := by
  induction vs with
  | nil => simp
  | cons d vs ih =>
    obtain ⟨hlater, hown, hc⟩ := clear_cons.mp hc
    obtain ⟨hd, hn⟩ := List.nodup_cons.mp hn
    intro e hmem
    rw [scope_cons]
    rcases List.mem_cons.mp hmem with rfl | hmem
    · rw [Function.update_self]
      refine he _ _ _ fun w hw => ?_
      have hne : w ≠ e.var := fun h => hown (h ▸ hw)
      rw [Function.update_of_ne hne, scope_of_notMem]
      intro hin
      obtain ⟨a, ha, rfl⟩ := List.mem_map.mp hin
      exact hlater a ha hw
    · have hne : e.var ≠ d.var := fun h => hd (h ▸ List.mem_map_of_mem hmem)
      rw [Function.update_of_ne hne]
      exact ih hn hc e hmem

/-- An expression that tells whether all its variables are outer ones. They have no value here. -/
def probe (e : List Lex) (env : String → Option Bool) : Option Bool :=
  some (e.all fun | .word w => (env w).isNone | _ => true)

theorem probe_true {e : List Lex} {env : String → Option Bool} :
    probe e env = some true ↔ ∀ w, .word w ∈ e → env w = none := by
  rw [probe, Option.some.injEq, List.all_eq_true]
  constructor
  · exact fun h w hw => Option.isNone_iff_eq_none.mp (h _ hw)
  · intro h x hx
    cases x with
    | word w => exact Option.isNone_iff_eq_none.mpr (h w hx)
    | dots => rfl
    | opening => rfl
    | closing => rfl
    | other c => rfl

theorem probe_local : Local probe := by
  intro e env env' h
  have htrue : probe e env = some true ↔ probe e env' = some true := by
    rw [probe_true, probe_true]
    exact forall₂_congr fun w hw => by rw [h w hw]
  rw [probe, probe, Option.some.injEq, Option.some.injEq] at htrue
  rw [probe, probe, Option.some.injEq, Bool.eq_iff_iff]
  exact htrue

theorem scope_probe {garbage : Option Bool} {env : String → Option Bool}
    (h : w ∈ vs.map Typed.var) : scope probe garbage env vs w ≠ none := by
  induction vs with
  | nil => cases h
  | cons d vs ih =>
    rw [scope_cons]
    by_cases hw : w = d.var
    · rw [hw, Function.update_self]
      exact Option.some_ne_none _
    · rw [Function.update_of_ne hw]
      exact ih ((List.mem_cons.mp h).resolve_left hw)

theorem clear_of_probe (hn : (vs.map Typed.var).Nodup)
    (h : ∀ d ∈ vs, scope probe (some false) (fun _ => none) vs d.var = some true) : Clear vs := by
  induction vs with
  | nil => simp [Clear]
  | cons d vs ih =>
    obtain ⟨hd, hn⟩ := List.nodup_cons.mp hn
    have hself := h d List.mem_cons_self
    rw [scope_cons, Function.update_self, probe_true] at hself
    refine clear_cons.mpr ⟨fun e he hw => ?_, fun hw => ?_, ih hn fun e he => ?_⟩
    · have hin : e.var ∈ vs.map Typed.var := List.mem_map_of_mem he
      have hne : e.var ≠ d.var := fun heq => hd (heq ▸ hin)
      have hout := hself _ hw
      rw [Function.update_of_ne hne] at hout
      exact scope_probe hin hout
    · have hout := hself _ hw
      rw [Function.update_self] at hout
      cases hout
    · have hne : e.var ≠ d.var := fun heq => hd (heq ▸ List.mem_map_of_mem he)
      have he := h e (List.mem_cons_of_mem d he)
      rwa [scope_cons, Function.update_of_ne hne] at he

end

/-- All values are right for every meaning of expressions just when nothing is hidden. -/
theorem value_iff {vs : List Typed} (hn : (vs.map Typed.var).Nodup) :
    (∀ (V : Type) (eval : List Lex → (String → V) → V) (garbage : V) (env : String → V),
      Local eval → ∀ d ∈ vs, scope eval garbage env vs d.var = eval d.arg.text env) ↔ Clear vs := by
  constructor
  · intro h
    refine clear_of_probe hn fun d hd => ?_
    rw [h _ probe (some false) (fun _ => none) probe_local d hd, probe_true]
    exact fun _ _ => rfl
  · exact fun h V eval garbage env he => value_of_clear he hn h

/-! ## Blocks -/

theorem nest_key (n : Nat) (p : Param) : nest n p.key = some n := by
  cases p <;> cases n <;> rfl

theorem depth_add {m : List Lex} {i j : Nat} (n : Nat) (h : depth i m = some j) :
    depth (i + n) m = some (j + n) := by
  induction m generalizing i with
  | nil =>
    cases h
    rfl
  | cons z m ih =>
    rw [depth, List.foldlM_cons, Option.bind_eq_bind, Option.bind_eq_some_iff] at h ⊢
    obtain ⟨a, ha, h⟩ := h
    refine ⟨a + n, ?_, ih h⟩
    cases z with
    | opening =>
      cases ha
      exact congrArg some (Nat.add_right_comm i n 1)
    | closing =>
      cases i with
      | zero => cases ha
      | succ i =>
        cases ha
        rw [Nat.add_right_comm]
        rfl
    | word w => cases i <;> cases ha <;> cases n <;> rfl
    | dots => cases i <;> cases ha <;> cases n <;> rfl
    | other c => cases i <;> cases ha <;> cases n <;> rfl

theorem depth_arg (n : Nat) (a : Arg) : depth n a.text = some n := by
  have h := depth_add n a.balanced
  rwa [Nat.zero_add] at h

/-- What a parameter puts in ends all blocks that it begins. -/
theorem depth_put (n : Nat) (h : p.put = some l) : depth n (l.map Tok.lex) = some n := by
  cases p with
  | plain name arg =>
    cases h
    rw [lex_mark, depth_arg]
  | rest arg =>
    cases h
    rw [lex_mark, depth_arg]
  | typed d =>
    by_cases hr : d.Renamed
    · simp only [Param.put, if_pos hr, Option.some.injEq] at h
      subst h
      cases n <;> rfl
    · simp [Param.put, hr] at h

/-- In a text of the body, each piece is put in by one parameter or stays. -/
theorem once_cases (ps : List Param) (x : Tok) : (Pass.once (passes ps) x = [x] ∧
      ∀ p ∈ ps, x.lex = p.key → p.put = none) ∨
    ∃ p ∈ ps, x.lex = p.key ∧ p.put = some (Pass.once (passes ps) x) := by
  induction ps with
  | nil => exact .inl ⟨rfl, by simp⟩
  | cons p ps ih =>
    cases hput : p.pass.put x with
    | some l =>
      have hx : x.lex = p.key := by
        by_contra hne
        rw [pass_put_none hne] at hput
        cases hput
      rw [pass_put hx] at hput
      rw [passes_cons, Pass.once_some ((pass_put hx).trans hput)]
      exact .inr ⟨p, List.mem_cons_self, hx, hput⟩
    | none =>
      rw [passes_cons, Pass.once_none hput]
      refine ih.imp (fun ⟨hself, hall⟩ => ⟨hself, ?_⟩)
        fun ⟨k, hk, h⟩ => ⟨k, List.mem_cons_of_mem p hk, h⟩
      exact List.forall_mem_cons.mpr ⟨fun hx => (pass_put hx).symm.trans hput, hall⟩

theorem variable_typed (h : p.variable = some d) : p = .typed d := by
  cases p <;> cases h
  rfl

theorem put_untyped (h : p.variable = none) : p.put = some (mark (some p.key) p.arg.text) := by
  cases p with
  | plain name arg => rfl
  | rest arg => rfl
  | typed d => cases h

theorem mem_variables : d ∈ ps.filterMap Param.variable ↔ .typed d ∈ ps := by
  rw [List.mem_filterMap]
  exact ⟨fun ⟨p, hp, h⟩ => variable_typed h ▸ hp, fun h => ⟨_, h, rfl⟩⟩

theorem use_not_renamed (h : ¬ d.Renamed) : d.use = ⟨d.key, none⟩ := by
  rw [Typed.use, Typed.var, if_neg h, if_neg h]
  rfl

theorem once_put (hn : (ps.map Param.key).Nodup) (hp : p ∈ ps) :
    Pass.once (passes ps) ⟨p.key, none⟩ = p.put.getD [⟨p.key, none⟩] := by
  rcases once_cases ps ⟨p.key, none⟩ with ⟨hself, hall⟩ | ⟨k, hk, hkey, hput⟩
  · rw [hself, hall p hp rfl, Option.getD_none]
  · have heq : k = p := List.inj_on_of_nodup_map hn hk hp hkey.symm
    rw [← heq, hput, Option.getD_some, heq]

theorem once_self (hn : (ps.map Param.key).Nodup) (hd : .typed d ∈ ps) :
    Pass.once (passes ps) ⟨d.key, none⟩ = [d.use] := by
  have h : Pass.once (passes ps) ⟨d.key, none⟩ = (Param.typed d).put.getD [⟨d.key, none⟩] :=
    once_put hn hd
  by_cases hr : d.Renamed
  · rwa [Param.put, if_pos hr, Option.getD_some] at h
  · rw [use_not_renamed hr]
    rwa [Param.put, if_neg hr, Option.getD_none] at h

theorem use_once {z : Lex} (hn : (ps.map Param.key).Nodup) (hd : .typed d ∈ ps) :
    d.use ∈ Pass.once (passes ps) ⟨z, none⟩ ↔ z = d.key := by
  constructor
  · intro h
    rcases once_cases ps ⟨z, none⟩ with ⟨hself, -⟩ | ⟨p, hp, hkey, hput⟩
    · rw [hself, List.mem_singleton] at h
      by_cases hr : d.Renamed
      · simp [Typed.use, hr] at h
      · rw [use_not_renamed hr] at h
        exact (congrArg Tok.lex h).symm
    · have hs := put_source hput h
      by_cases hr : d.Renamed
      · rw [Typed.use, if_pos hr] at hs
        exact hkey.trans (Option.some.inj hs).symm
      · rw [use_not_renamed hr] at hs
        cases hs
  · rintro rfl
    rw [once_self hn hd]
    exact List.mem_singleton.mpr rfl

theorem mem_simultaneous {m : List Lex} : y ∈ simultaneous ps (mark none m) ↔
    ∃ z ∈ m, y ∈ Pass.once (passes ps) ⟨z, none⟩ := by
  rw [simultaneous, List.mem_flatMap]
  constructor
  · rintro ⟨x, hx, hy⟩
    obtain ⟨z, hz, rfl⟩ := List.mem_map.mp hx
    exact ⟨z, hz, hy⟩
  · rintro ⟨z, hz, hy⟩
    exact ⟨_, List.mem_map_of_mem hz, hy⟩

theorem use_simultaneous {m : List Lex} (hn : (ps.map Param.key).Nodup) (hd : .typed d ∈ ps) :
    d.use ∈ simultaneous ps (mark none m) ↔ d.key ∈ m := by
  rw [mem_simultaneous]
  constructor
  · rintro ⟨z, hz, h⟩
    exact (use_once hn hd).mp h ▸ hz
  · exact fun h => ⟨_, h, (use_once hn hd).mpr rfl⟩

theorem staysIn_append {u : Tok} {st : Option Nat} (h : u ∉ l) : StaysIn u st (l ++ t) ↔
    StaysIn u (st.bind (depth · (l.map Tok.lex))) t := by
  induction l generalizing st with
  | nil => cases st <;> rfl
  | cons x l ih =>
    rw [List.mem_cons, not_or] at h
    rw [List.cons_append, StaysIn, ih h.2]
    have hst : (st.bind (nest · x.lex)).bind (depth · (l.map Tok.lex)) =
        st.bind (depth · ((x :: l).map Tok.lex)) := by
      cases st <;> rfl
    rw [hst]
    exact and_iff_right fun hx => absurd hx.symm h.1

/-- The uses of a variable are in the same blocks as the parameter in the body of the macro. -/
theorem staysIn_simultaneous {m : List Lex} {st : Option Nat} (hn : (ps.map Param.key).Nodup)
    (hd : .typed d ∈ ps) : StaysIn d.use st (simultaneous ps (mark none m)) ↔
      StaysIn ⟨d.key, none⟩ st (mark none m) := by
  induction m generalizing st with
  | nil => rfl
  | cons z m ih =>
    show StaysIn d.use st (Pass.once (passes ps) ⟨z, none⟩ ++ simultaneous ps (mark none m)) ↔
      (_ → _) ∧ StaysIn _ _ (mark none m)
    by_cases hz : z = d.key
    · subst hz
      have hkey : st.bind (nest · d.key) = st := by
        cases st with
        | none => rfl
        | some n => exact nest_key n (.typed d)
      have huse : st.bind (nest · d.use.lex) = st := by
        cases st with
        | none => rfl
        | some n => cases n <;> rfl
      rw [once_self hn hd, hkey, List.singleton_append, StaysIn, huse, ih]
      simp
    · have hnot : d.use ∉ Pass.once (passes ps) ⟨z, none⟩ := fun h => hz ((use_once hn hd).mp h)
      have hst : st.bind (depth · ((Pass.once (passes ps) ⟨z, none⟩).map Tok.lex)) =
          st.bind (nest · z) := by
        cases st with
        | none => rfl
        | some n =>
          rcases once_cases ps ⟨z, none⟩ with ⟨hself, -⟩ | ⟨p, -, hkey, hput⟩
          · rw [hself]
            show (nest n z).bind some = nest n z
            cases nest n z <;> rfl
          · show depth n _ = nest n z
            rw [depth_put n hput, show z = p.key from hkey, nest_key]
      rw [staysIn_append hnot, hst, ih]
      exact (and_iff_right fun h => absurd (congrArg Tok.lex h) hz).symm

/-- Where the braces of a text come from. -/
theorem opening_simultaneous {m : List Lex} (hn : (ps.map Param.key).Nodup) :
    (∃ y ∈ simultaneous ps (mark none m), y.lex = .opening) ↔
      .opening ∈ m ∨ ∃ p ∈ ps, p.variable = none ∧ p.key ∈ m ∧ .opening ∈ p.arg.text := by
  simp only [mem_simultaneous]
  constructor
  · rintro ⟨y, ⟨z, hz, hy⟩, hlex⟩
    rcases once_cases ps ⟨z, none⟩ with ⟨hself, -⟩ | ⟨p, hp, hkey, hput⟩
    · rw [hself, List.mem_singleton] at hy
      rw [hy] at hlex
      exact .inl (hlex ▸ hz)
    · right
      cases hv : p.variable with
      | none =>
        rw [put_untyped hv, Option.some.injEq] at hput
        rw [← hput] at hy
        exact ⟨p, hp, hv, hkey ▸ hz, hlex ▸ (mem_mark.mp hy).1⟩
      | some d =>
        have hpd := variable_typed hv
        subst hpd
        rw [show z = d.key from hkey, once_self hn hp, List.mem_singleton] at hy
        rw [hy] at hlex
        cases hlex
  · rintro (h | ⟨p, hp, hv, hkey, h⟩)
    · refine ⟨⟨.opening, none⟩, ⟨.opening, h, ?_⟩, rfl⟩
      rcases once_cases ps ⟨.opening, none⟩ with ⟨hself, -⟩ | ⟨p, -, hkey, -⟩
      · rw [hself]
        exact List.mem_singleton.mpr rfl
      · exact absurd hkey.symm (key_ne_opening p)
    · refine ⟨⟨.opening, some p.key⟩, ⟨p.key, hkey, ?_⟩, rfl⟩
      rw [once_put hn hp, put_untyped hv]
      exact mem_mark.mpr ⟨h, rfl⟩

/-! ## The conditions -/

theorem keeps_iff : Keeps body p k ↔ KeepsText body p k ∧ KeepsDecl p k ∧
    (∀ d, p.variable = some d → ∀ e, k.variable = some e → d.var ≠ e.var) ∧
      ∀ d, p.variable = some d → ∀ e, k.variable = some e → .word e.var ∉ d.arg.text := by
  cases hv : p.variable with
  | none =>
    have hkeeps : Keeps body p k ↔ (p.key ∈ body → k.put.isSome → k.key ∉ p.arg.text) := by
      cases p with
      | plain name arg => rfl
      | rest arg => rfl
      | typed d => cases hv
    rw [hkeeps, KeepsText, KeepsDecl, hv, put_untyped hv]
    constructor
    · intro h
      refine ⟨fun hp l hl y hy hk heq => ?_, by simp, by simp, by simp⟩
      cases hl
      exact h hp hk (heq ▸ (mem_mark.mp hy).1)
    · intro h hp hk hin
      exact h.1 hp _ rfl ⟨k.key, some p.key⟩ (mem_mark.mpr ⟨hin, rfl⟩) hk rfl
  | some d =>
    have hp := variable_typed hv
    subst hp
    have htext : KeepsDecl (.typed d) k → KeepsText body (.typed d) k := by
      intro h _ l hl y hy hk heq
      refine (h d rfl hk).2.1 ?_
      rw [Param.put] at hl
      split at hl
      · cases hl
        rw [← heq, List.mem_singleton.mp hy]
        rfl
      · cases hl
    constructor
    · rintro ⟨hput, hvar⟩
      have hdecl : KeepsDecl (.typed d) k := by
        rintro e ⟨⟩
        exact hput
      refine ⟨htext hdecl, hdecl, ?_, ?_⟩
      · rintro e ⟨⟩ v hk
        exact (hvar v hk).1.symm
      · rintro e ⟨⟩ v hk
        exact (hvar v hk).2
    · rintro ⟨-, hdecl, hne, hin⟩
      exact ⟨hdecl d rfl, fun e he => ⟨(hne d rfl e he).symm, hin d rfl e he⟩⟩

/-- `Safe`, taken apart into what the text, the declarations, the names and the values need. -/
theorem safe_iff (c : Call) : Safe c ↔ c.params.Pairwise (KeepsText c.body) ∧
    c.params.Pairwise KeepsDecl ∧ (c.typed.map Typed.var).Nodup ∧ Clear c.typed := by
  have hpair : c.params.Pairwise (Keeps c.body) ↔ c.params.Pairwise (KeepsText c.body) ∧
      c.params.Pairwise KeepsDecl ∧ (c.typed.map Typed.var).Nodup ∧
        c.typed.Pairwise (fun d e => .word e.var ∉ d.arg.text) := by
    rw [List.Nodup, List.pairwise_map, Call.typed, List.pairwise_filterMap, List.pairwise_filterMap,
      ← List.pairwise_and_iff, ← List.pairwise_and_iff, ← List.pairwise_and_iff]
    exact List.Pairwise.iff fun p k => keeps_iff
  constructor
  · rintro ⟨hkeeps, hown⟩
    obtain ⟨htext, hdecl, hnames, hin⟩ := hpair.mp hkeeps
    exact ⟨htext, hdecl, hnames, hin, hown⟩
  · rintro ⟨htext, hdecl, hnames, hin, hown⟩
    exact ⟨hpair.mpr ⟨htext, hdecl, hnames, hin⟩, hown⟩

/-! ## The first block -/

theorem pairwise_of_split {S : Param → Param → Prop}
    (h : ∀ pre k post, ps = pre ++ k :: post → ∀ p ∈ pre, S p k) : ps.Pairwise S := by
  induction ps with
  | nil => exact .nil
  | cons p ps ih =>
    refine List.pairwise_cons.mpr ⟨fun k hk => ?_, ih fun pre k post hps q hq =>
      h (p :: pre) k post (congrArg _ hps) q (List.mem_cons_of_mem p hq)⟩
    obtain ⟨pre, post, hps⟩ := List.append_of_mem hk
    exact h (p :: pre) k post (congrArg _ hps) p List.mem_cons_self

theorem run_opening (x : Tok) (hx : x.lex = .opening) :
    Pass.run (passes ps) (F ++ x :: R) = Pass.run (passes ps) F ++ x :: Pass.run (passes ps) R := by
  have hone : Pass.run (passes ps) [x] = [x] :=
    Pass.run_keeps (by simpa using passes_keep.mpr fun k _ _ => hx.trans_ne (key_ne_opening k).symm)
  rw [← List.singleton_append, Pass.run_append, Pass.run_append, hone]
  rfl

theorem mark_append {source : Option Lex} (front back : List Lex) :
    mark source (front ++ .opening :: back) =
      mark source front ++ ⟨.opening, source⟩ :: mark source back := List.map_append

/-- The first opening brace of `T ++ o :: T'` is in `T` when there is one. -/
theorem first_mem {L T L' T' : Text} {n o : Tok} (h : L ++ n :: L' = T ++ o :: T')
    (hL : ∀ y ∈ L, y.lex ≠ .opening) (hy : y ∈ T) (hlex : y.lex = .opening) : n ∈ T := by
  rcases List.append_eq_append_iff.mp h with ⟨a, rfl, ha⟩ | ⟨a, rfl, -⟩
  · cases a with
    | nil =>
      rw [List.append_nil] at hy
      exact absurd hlex (hL y hy)
    | cons m a =>
      obtain ⟨rfl, -⟩ := List.cons.inj ha
      simp
  · exact absurd hlex (hL y (List.mem_append_left a hy))

/-- When all declarations are in blocks of the body, no argument begins a block in front of its first
one while there are variables to come. -/
theorem first_block {c : Call} {front back : List Lex} (h : evalMacro c = some b)
    (hb : ∀ n ∈ b, n.decls ≠ [] → n.tok.source = none) (hbody : c.body = front ++ .opening :: back)
    (hfront : .opening ∉ front) (pre : List Param) (d : Typed) (post : List Param)
    (hps : c.params = pre ++ .typed d :: post) :
    ∀ y ∈ Pass.run (passes pre) (mark none front), y.lex ≠ .opening := by
  intro y hy hlex
  rw [evalMacro, hps, List.foldlM_append, Option.bind_eq_bind, Option.bind_eq_some_iff] at h
  obtain ⟨a, ha, h⟩ := h
  rw [List.foldlM_cons, Option.bind_eq_bind, Option.bind_eq_some_iff] at h
  obtain ⟨a', ha', h⟩ := h
  rw [substParam_typed] at ha'
  obtain ⟨l, n, r, hin, hn, hl, rfl⟩ := insert_spec ha'
  have hrun (t : Text) : Pass.run (passes (pre ++ [.typed d])) t =
      (Pass.run (passes pre) t).flatMap (Param.typed d).pass.on := by
    rw [passes, List.map_append, Pass.run_concat]
    rfl
  have htok : ((Param.typed d).replaceIn a).map Node.tok =
      Pass.run (passes (pre ++ [.typed d])) (mark none c.body) := by
    have hbare : Node.tok ∘ Node.bare = id := rfl
    rw [tok_replaceIn, tok_foldlM ha, List.map_map, hbare, List.map_id, hrun]
  rw [hin, hbody, mark_append, run_opening _ rfl, List.map_append, List.map_cons] at htok
  have hy' : y ∈ Pass.run (passes (pre ++ [.typed d])) (mark none front) := by
    have hkey : y.lex ≠ (Param.typed d).key := hlex.trans_ne (key_ne_opening _).symm
    rw [hrun]
    refine List.mem_flatMap.mpr ⟨y, hy, ?_⟩
    rw [Pass.on_none (pass_put_none hkey)]
    exact List.mem_singleton.mpr rfl
  have hmem := first_mem htok (by simpa using hl) hy' hlex
  -- The brace is from an argument, and it keeps the declaration.
  obtain ⟨m, hm, hmt, hmd⟩ :=
    decls_foldlM (n := ⟨n.tok, d.decl :: n.decls⟩) h (by simp) hn (by simp)
  have hsource : n.tok.source = none := hmt ▸ hb m hm hmd
  rcases Pass.mem_run passes_marks hmem with hin | hin
  · exact hfront (hn ▸ (mem_mark.mp hin).1)
  · exact none_notMem_marks (hsource ▸ hin)

/-- Without a renaming of what is in front, the first block is the body's own. -/
theorem first_block_iff {front : List Lex} (hn : (ps.map Param.key).Nodup)
    (ht : ps.Pairwise (KeepsText front)) (hfront : .opening ∉ front) :
    (∀ pre d post, ps = pre ++ .typed d :: post →
      ∀ y ∈ Pass.run (passes pre) (mark none front), y.lex ≠ .opening) ↔
    ps.Pairwise fun p k =>
      k.variable.isSome → p.variable = none → p.key ∈ front → .opening ∉ p.arg.text := by
  have hpre (pre : List Param) (post : List Param) (h : ps = pre ++ post) :
      (∃ y ∈ Pass.run (passes pre) (mark none front), y.lex = .opening) ↔
        ∃ p ∈ pre, p.variable = none ∧ p.key ∈ front ∧ .opening ∈ p.arg.text := by
    rw [h] at hn ht
    rw [List.map_append] at hn
    have hn := (List.nodup_append.mp hn).1
    rw [(run_eq_simultaneous hn).mpr (List.pairwise_append.mp ht).1, opening_simultaneous hn]
    exact or_iff_right hfront
  constructor
  · intro h
    refine pairwise_of_split fun pre k post hps p hp hk hv hkey hin => ?_
    obtain ⟨d, hd⟩ := Option.isSome_iff_exists.mp hk
    rw [variable_typed hd] at hps
    obtain ⟨y, hy, hlex⟩ := (hpre pre _ hps).mpr ⟨p, hp, hv, hkey, hin⟩
    exact h pre d post hps y hy hlex
  · intro h pre d post hps y hy hlex
    obtain ⟨p, hp, hv, hkey, hin⟩ := (hpre pre _ hps).mp ⟨y, hy, hlex⟩
    rw [hps] at h
    exact (List.pairwise_append.mp h).2.2 p hp (.typed d) List.mem_cons_self rfl hv hkey hin

/-! ## Calls -/

section

variable {c : Call} {front back : List Lex}

/-- The body that a call gives when the first block is the body's own. -/
def result (c : Call) (front back : List Lex) : Body :=
  shape (Pass.run (passes c.params) (mark none front)) ⟨.opening, none⟩ (declared c.params)
    (Pass.run (passes c.params) (mark none back))

theorem tok_shape : (shape F x ds R).map Node.tok = F ++ x :: R := by
  simp [shape, Node.bare, Function.comp_def]

theorem decls_shape : (shape F x ds R).flatMap Node.decls = ds := by
  have hbare (t : Text) : (t.map Node.bare).flatMap Node.decls = [] :=
    List.flatMap_eq_nil_iff.mpr fun n hn => by
      obtain ⟨y, -, rfl⟩ := List.mem_map.mp hn
      rfl
  rw [shape, List.flatMap_append, List.flatMap_cons, hbare, hbare, List.nil_append, List.append_nil]

/-- The piece with the declarations is the only one of its kind. -/
theorem shape_inj {es : List Decl} {u v : Body} (hes : es ≠ [])
    (h : shape F x ds R = u ++ ⟨y, es⟩ :: v) :
    u = F.map Node.bare ∧ ds = es ∧ v = R.map Node.bare := by
  have hmem (t : Text) : (⟨y, es⟩ : Node) ∉ t.map Node.bare := fun hin => by
    obtain ⟨z, -, hz⟩ := List.mem_map.mp hin
    exact hes (congrArg Node.decls hz).symm
  obtain ⟨hu, hnode, hv⟩ := (List.append_cons_inj_of_notMem (hmem F) (hmem R)).mp h
  exact ⟨hu.symm, congrArg Node.decls hnode, hv.symm⟩

theorem keepsText_front (hbody : body = front ++ .opening :: back)
    (h : ps.Pairwise (KeepsText body)) :
    ps.Pairwise (KeepsText front) ∧ ps.Pairwise (KeepsText back) :=
  ⟨h.imp fun hk hp => hk (by simp [hbody, hp]), h.imp fun hk hp => hk (by simp [hbody, hp])⟩

theorem text_result (hbody : c.body = front ++ .opening :: back) :
    (result c front back).map Node.tok = simultaneous c.params (mark none c.body) ↔
      c.params.Pairwise (KeepsText c.body) := by
  rw [result, tok_shape, ← run_opening _ rfl, ← mark_append, ← hbody]
  exact run_eq_simultaneous c.distinct

theorem block_result (ht : c.typed ≠ []) (hbody : c.body = front ++ .opening :: back)
    (hkeeps : c.params.Pairwise (KeepsText c.body)) :
    (∃ u v, result c front back = u ++ ⟨⟨.opening, none⟩, (c.typed.map Typed.decl).reverse⟩ :: v ∧
        (∀ n ∈ u ++ v, n.decls = []) ∧
        ∀ d ∈ c.typed, d.use ∉ u.map Node.tok ∧ StaysIn d.use (some 0) (v.map Node.tok)) ↔
      c.params.Pairwise KeepsDecl ∧
        ∀ d ∈ c.typed, d.key ∉ front ∧ StaysIn ⟨d.key, none⟩ (some 0) (mark none back) := by
  obtain ⟨hfront, hback⟩ := keepsText_front hbody hkeeps
  have hrev : (c.typed.map Typed.decl).reverse ≠ [] := by simpa using ht
  have htok (t : Text) : (t.map Node.bare).map Node.tok = t := by
    simp [Node.bare, Function.comp_def]
  have huses : (∀ d ∈ c.typed, d.use ∉ Pass.run (passes c.params) (mark none front) ∧
        StaysIn d.use (some 0) (Pass.run (passes c.params) (mark none back))) ↔
      ∀ d ∈ c.typed, d.key ∉ front ∧ StaysIn ⟨d.key, none⟩ (some 0) (mark none back) := by
    refine forall₂_congr fun d hd => ?_
    have hd := mem_variables.mp hd
    rw [(run_eq_simultaneous c.distinct).mpr hfront, (run_eq_simultaneous c.distinct).mpr hback,
      use_simultaneous c.distinct hd, staysIn_simultaneous c.distinct hd]
  rw [← declared_iff c.distinct, ← huses]
  constructor
  · rintro ⟨u, v, hshape, -, hd⟩
    obtain ⟨rfl, hds, rfl⟩ := shape_inj hrev hshape
    rw [htok, htok] at hd
    exact ⟨hds, hd⟩
  · rintro ⟨hds, hd⟩
    refine ⟨_, _, by rw [result, hds]; rfl, fun n hn => ?_, by rwa [htok, htok]⟩
    rw [← List.map_append] at hn
    obtain ⟨y, -, rfl⟩ := List.mem_map.mp hn
    rfl

theorem right_result (ht : c.typed ≠ []) (hbody : c.body = front ++ .opening :: back) :
    Right c (result c front back) ↔
      Safe c ∧ ∀ d ∈ c.typed, d.key ∉ front ∧ StaysIn ⟨d.key, none⟩ (some 0) (mark none back) := by
  have hdecls : (result c front back).flatMap Node.decls = declared c.params := decls_shape
  rw [safe_iff]
  constructor
  · rintro ⟨htext, hblock, hnames, hvalue⟩
    have hkeeps := (text_result hbody).mp htext
    obtain ⟨hdecl, huses⟩ := (block_result ht hbody hkeeps).mp (hblock.resolve_left ht)
    rw [hdecls, (declared_iff c.distinct).mpr hdecl] at hvalue
    exact ⟨⟨hkeeps, hdecl, hnames, (value_iff hnames).mp hvalue⟩, huses⟩
  · rintro ⟨⟨hkeeps, hdecl, hnames, hclear⟩, huses⟩
    refine ⟨(text_result hbody).mpr hkeeps,
      .inr ((block_result ht hbody hkeeps).mpr ⟨hdecl, huses⟩), hnames, ?_⟩
    rw [hdecls, (declared_iff c.distinct).mpr hdecl]
    exact (value_iff hnames).mpr hclear

/-- Without variables it is only the text. -/
theorem right_bare (ht : c.typed = []) :
    Right c ((Pass.run (passes c.params) (mark none c.body)).map Node.bare) ↔ Safe c := by
  have htok (t : Text) : (t.map Node.bare).map Node.tok = t := by
    simp [Node.bare, Function.comp_def]
  have hdecl : c.params.Pairwise KeepsDecl := by
    refine List.pairwise_of_forall_mem_list fun p hp k _ d hd => ?_
    have hin : d ∈ c.typed := List.mem_filterMap.mpr ⟨p, hp, hd⟩
    rw [ht] at hin
    cases hin
  rw [safe_iff]
  constructor
  · intro h
    have htext := h.text
    rw [htok] at htext
    exact ⟨(run_eq_simultaneous c.distinct).mp htext, hdecl, h.names, by simp [ht, Clear]⟩
  · rintro ⟨hkeeps, -, hnames, -⟩
    refine ⟨?_, .inl ht, hnames, fun V eval garbage env _ d hd => ?_⟩
    · rw [htok]
      exact (run_eq_simultaneous c.distinct).mpr hkeeps
    · rw [ht] at hd
      cases hd

/-- The brace in front of the declarations is in the body of the macro. -/
theorem opening_body (h : evalMacro c = some b) {u v : Body}
    (hb : b = u ++ ⟨⟨.opening, none⟩, ds⟩ :: v) : .opening ∈ c.body := by
  have hbare : Node.tok ∘ Node.bare = id := rfl
  have htok := tok_foldlM h
  rw [List.map_map, hbare, List.map_id] at htok
  have hin : (⟨.opening, none⟩ : Tok) ∈ Pass.run (passes c.params) (mark none c.body) := by
    rw [← htok, hb]
    simp
  rcases Pass.mem_run passes_marks hin with hin | hin
  · exact (mem_mark.mp hin).1
  · exact absurd hin none_notMem_marks

/-- A call gives what it should just when nothing is captured and the variables are used in the first
block. -/
theorem call_right_iff (c : Call) :
    (∃ b, evalMacro c = some b ∧ Right c b) ↔ Safe c ∧ FirstBlock c := by
  by_cases ht : c.typed = []
  · have heval : evalMacro c = some _ := foldlM_bare ht
    constructor
    · rintro ⟨b, hb, hright⟩
      rw [heval, Option.some.injEq] at hb
      subst hb
      exact ⟨(right_bare ht).mp hright, .inl ht⟩
    · rintro ⟨hsafe, -⟩
      exact ⟨_, heval, (right_bare ht).mpr hsafe⟩
  · have heval {front back : List Lex} (hbody : c.body = front ++ .opening :: back)
        (hF : ∀ pre d post, c.params = pre ++ .typed d :: post →
          ∀ y ∈ Pass.run (passes pre) (mark none front), y.lex ≠ .opening) :
        evalMacro c = some (result c front back) := by
      have h : c.params.foldlM substParam
          (shape (mark none front) ⟨.opening, none⟩ [] (mark none back)) = _ := foldlM_shape rfl hF
      rw [List.map_nil, List.append_nil, shape, ← Node.bare, ← List.map_cons, ← List.map_append,
        ← mark_append, ← hbody] at h
      exact h
    constructor
    · rintro ⟨b, hb, hright⟩
      obtain ⟨u, v, hshape, hbare, -⟩ := hright.block.resolve_left ht
      obtain ⟨front, back, hbody, hfront⟩ := List.eq_append_cons_of_mem (opening_body hb hshape)
      have hown : ∀ n ∈ b, n.decls ≠ [] → n.tok.source = none := by
        intro n hn hd
        rw [hshape, List.mem_append, List.mem_cons] at hn
        rcases hn with hn | rfl | hn
        · exact absurd (hbare n (List.mem_append_left v hn)) hd
        · rfl
        · exact absurd (hbare n (List.mem_append_right u hn)) hd
      have hF := first_block hb hown hbody hfront
      rw [heval hbody hF, Option.some.injEq] at hb
      obtain ⟨hsafe, huses⟩ := (right_result ht hbody).mp (hb ▸ hright)
      have hkeeps := (keepsText_front hbody ((safe_iff c).mp hsafe).1).1
      exact ⟨hsafe, .inr ⟨front, back, hbody, hfront,
        (first_block_iff c.distinct hkeeps hfront).mp hF, huses⟩⟩
    · rintro ⟨hsafe, hfirst⟩
      obtain ⟨front, back, hbody, hfront, hargs, huses⟩ := hfirst.resolve_left ht
      have hkeeps := (keepsText_front hbody ((safe_iff c).mp hsafe).1).1
      have hF := (first_block_iff c.distinct hkeeps hfront).mpr hargs
      exact ⟨_, heval hbody hF, (right_result ht hbody).mpr ⟨hsafe, huses⟩⟩

end

/-- `@.define sum(a, b) (a + b)`, called as `sum(b, 1)`. -/
def sumCall : Call where
  body := [.other '(', .word "a", .other '+', .word "b", .other ')']
  params := [.plain "a" ⟨[.word "b"], rfl⟩, .plain "b" ⟨[.word "1"], rfl⟩]
  distinct := by decide

/-- `@.define show(int x, int y) { print(x, y); }`, called as `show(y, 1)`. -/
def showCall : Call where
  body := [.word "do", .opening, .word "print", .other '(', .word "x", .other ',', .word "y",
    .other ')', .other ';', .closing, .word "while", .other '(', .word "0", .other ')']
  params := [.typed ⟨[.word "int"], "x", ⟨[.word "y"], rfl⟩⟩,
    .typed ⟨[.word "int"], "y", ⟨[.word "1"], rfl⟩⟩]
  distinct := by decide

/-- The first call gives `(1 + 1)` and not `(b + 1)`. In the second one `x` has the value of the new
`y`. -/
theorem argument_captured :
    (evalMacro sumCall).map (·.map (·.tok.lex)) =
        some [.other '(', .word "1", .other '+', .word "1", .other ')'] ∧
      (simultaneous sumCall.params (mark none sumCall.body)).map Tok.lex =
        [.other '(', .word "b", .other '+', .word "1", .other ')'] ∧
      (¬ ∃ b, evalMacro sumCall = some b ∧ Right sumCall b) ∧
      (evalMacro showCall).map (fun b => (b.flatMap Node.decls).map fun d =>
        (d.name.map Tok.lex, d.value.map Tok.lex)) =
          some [([.word "y"], [.word "1"]), ([.word "x"], [.word "y"])] ∧
      ¬ ∃ b, evalMacro showCall = some b ∧ Right showCall b := by
  refine ⟨by decide, by decide, ?_, by decide, ?_⟩
  · rintro ⟨b, hb, hright⟩
    cases hb
    exact absurd hright.text (by decide)
  · rintro ⟨b, hb, hright⟩
    cases hb
    have hx := hright.value _ probe (some false) (fun _ => none) probe_local
      ⟨[.word "int"], "x", ⟨[.word "y"], rfl⟩⟩ (by simp [showCall, Call.typed, Param.variable])
    exact absurd hx (by decide)

end Athomux.Macro
