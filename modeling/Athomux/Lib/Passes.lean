import Mathlib.Data.List.Basic
import Mathlib.Data.List.Nodup

/-!
# Passes over a list

A pass puts lists in the place of some elements, and everything it puts in has the mark of the pass.
Passes that run one after the other meet what the earlier ones put in. Passes that run at once do
not. The marks show where the two differ.
-/

namespace Lib

structure Pass (α κ : Type*) where
  mark : κ
  put : α → Option (List α)

namespace Pass

variable {α κ : Type*} {p q : Pass α κ} {ps : List (Pass α κ)} {mark : α → κ} {x y : α}
  {l t u : List α}

def on (p : Pass α κ) (x : α) : List α := (p.put x).getD [x]

/-- The passes, one after the other. -/
def run (ps : List (Pass α κ)) (t : List α) : List α := ps.foldl (fun t p => t.flatMap p.on) t

/-- All passes at once: the first one that wants an element has it. -/
def once : List (Pass α κ) → α → List α
  | [], x => [x]
  | p :: ps, x => (p.put x).getD (once ps x)

/-- No pass puts anything in the place of the element. -/
def keeps (ps : List (Pass α κ)) (x : α) : Bool := ps.all fun p => (p.put x).isNone

def Marks (mark : α → κ) (p : Pass α κ) : Prop := ∀ x l, p.put x = some l → ∀ y ∈ l, mark y = p.mark

theorem on_none (h : p.put x = none) : p.on x = [x] := by rw [on, h, Option.getD_none]

theorem on_some (h : p.put x = some l) : p.on x = l := by rw [on, h, Option.getD_some]

theorem once_none (h : p.put x = none) : once (p :: ps) x = once ps x := by
  rw [once, h, Option.getD_none]

theorem once_some (h : p.put x = some l) : once (p :: ps) x = l := by rw [once, h, Option.getD_some]

theorem keeps_iff : keeps ps x = true ↔ ∀ p ∈ ps, p.put x = none := by
  simp only [keeps, List.all_eq_true, Option.isNone_iff_eq_none]

theorem keeps_cons : keeps (p :: ps) x = ((p.put x).isNone && keeps ps x) := rfl

/-! ## Runs -/

theorem run_cons : run (p :: ps) t = run ps (t.flatMap p.on) := rfl

theorem run_nil : run ps [] = [] := by
  induction ps with
  | nil => rfl
  | cons p ps ih => rw [run_cons, List.flatMap_nil, ih]

theorem run_append : run ps (t ++ u) = run ps t ++ run ps u := by
  induction ps generalizing t u with
  | nil => rfl
  | cons p ps ih => rw [run_cons, List.flatMap_append, ih, run_cons, run_cons]

theorem run_concat (ps qs : List (Pass α κ)) : run (ps ++ qs) t = run qs (run ps t) :=
  List.foldl_append

theorem run_flatMap (f : α → List α) : run ps (t.flatMap f) = t.flatMap fun x => run ps (f x) := by
  induction t with
  | nil => exact run_nil
  | cons x t ih => rw [List.flatMap_cons, run_append, ih, List.flatMap_cons]

theorem run_eq_flatMap : run ps t = t.flatMap fun x => run ps [x] := by
  rw [← run_flatMap, List.flatMap_singleton']

theorem run_keeps (h : ∀ x ∈ t, keeps ps x = true) : run ps t = t := by
  induction ps with
  | nil => rfl
  | cons p ps ih =>
    have hp : t.flatMap p.on = t := by
      conv_rhs => rw [← List.flatMap_singleton' t]
      exact List.flatMap_congr fun x hx => on_none (keeps_iff.mp (h x hx) p List.mem_cons_self)
    rw [run_cons, hp]
    exact ih fun x hx => keeps_iff.mpr fun q hq =>
      keeps_iff.mp (h x hx) q (List.mem_cons_of_mem p hq)

/-- Everything after a run was there before, or has the mark of a pass. -/
theorem mem_run (hm : ∀ p ∈ ps, p.Marks mark) (hy : y ∈ run ps t) :
    y ∈ t ∨ mark y ∈ ps.map Pass.mark := by
  induction ps generalizing t with
  | nil => exact .inl hy
  | cons p ps ih =>
    rcases ih (fun q hq => hm q (List.mem_cons_of_mem p hq)) hy with h | h
    · obtain ⟨x, hx, hyx⟩ := List.mem_flatMap.mp h
      cases hput : p.put x with
      | none =>
        rw [on_none hput, List.mem_singleton] at hyx
        exact .inl (hyx ▸ hx)
      | some l =>
        rw [on_some hput] at hyx
        exact .inr (List.mem_cons.mpr (.inl (hm p List.mem_cons_self x l hput y hyx)))
    · exact .inr (List.mem_cons_of_mem _ h)

theorem mem_once (hm : ∀ p ∈ ps, p.Marks mark) (hy : y ∈ once ps x) :
    y = x ∨ mark y ∈ ps.map Pass.mark := by
  induction ps with
  | nil => exact .inl (List.mem_singleton.mp hy)
  | cons p ps ih =>
    cases hput : p.put x with
    | none =>
      rw [once_none hput] at hy
      exact (ih (fun q hq => hm q (List.mem_cons_of_mem p hq)) hy).imp_right (List.mem_cons_of_mem _)
    | some l =>
      rw [once_some hput] at hy
      exact .inr (List.mem_cons.mpr (.inl (hm p List.mem_cons_self x l hput y hy)))

/-! ## What a run leaves alone -/

/-- What the pass puts into the text, alone. -/
def puts (p : Pass α κ) (t : List α) : List α := t.flatMap fun x => (p.put x).getD []

/-- What the pass leaves of the text, alone. -/
def leaves (p : Pass α κ) (t : List α) : List α := t.filter fun x => (p.put x).isNone

theorem mem_puts (hx : x ∈ t) (hput : p.put x = some l) (hy : y ∈ l) : y ∈ p.puts t :=
  List.mem_flatMap.mpr ⟨x, hx, by rwa [hput]⟩

theorem mem_leaves : x ∈ p.leaves t ↔ x ∈ t ∧ p.put x = none := by
  rw [leaves, List.mem_filter, Option.isNone_iff_eq_none]

theorem leaves_cons_none (h : p.put x = none) : p.leaves (x :: t) = x :: p.leaves t := by
  simp [leaves, h]

theorem leaves_cons_some (h : p.put x = some l) : p.leaves (x :: t) = p.leaves t := by
  simp [leaves, h]

theorem unmarked_on (hm : p.Marks mark) (hp : p.mark ∉ ps.map Pass.mark)
    (ht : ∀ x ∈ t, mark x ∉ ps.map Pass.mark) (hy : y ∈ t.flatMap p.on) :
    mark y ∉ ps.map Pass.mark := by
  obtain ⟨x, hx, hyx⟩ := List.mem_flatMap.mp hy
  cases hput : p.put x with
  | none =>
    rw [on_none hput, List.mem_singleton] at hyx
    exact hyx ▸ ht x hx
  | some l =>
    rw [on_some hput] at hyx
    rwa [hm x l hput y hyx]

theorem unmarked_once (hm : ∀ q ∈ ps, q.Marks mark) (hp : p.mark ∉ ps.map Pass.mark)
    (hx : mark x ≠ p.mark) (hput : p.put x = none) (hy : y ∈ once (p :: ps) x) :
    mark y ≠ p.mark := by
  rw [once_none hput] at hy
  rcases mem_once hm hy with rfl | hin
  · exact hx
  · exact fun h => hp (h ▸ hin)

variable [DecidableEq κ] {g : α → List α}

/-- The mark tells what a pass put in from what it left. -/
theorem filter_mark (hm : p.Marks mark)
    (hnone : ∀ x ∈ t, p.put x = none → ∀ y ∈ g x, mark y ≠ p.mark)
    (hsome : ∀ x ∈ t, ∀ l, p.put x = some l → g x = l) :
    (t.flatMap g).filter (fun y => decide (mark y = p.mark)) = p.puts t := by
  rw [List.filter_flatMap]
  refine List.flatMap_congr fun x hx => ?_
  cases hput : p.put x with
  | none => exact List.filter_eq_nil_iff.mpr fun y hy => by simpa using hnone x hx hput y hy
  | some l =>
    rw [hsome x hx l hput, Option.getD_some]
    exact List.filter_eq_self.mpr fun y hy => decide_eq_true (hm x l hput y hy)

theorem filter_unmarked (hm : p.Marks mark)
    (hnone : ∀ x ∈ t, p.put x = none → ∀ y ∈ g x, mark y ≠ p.mark)
    (hsome : ∀ x ∈ t, ∀ l, p.put x = some l → g x = l) :
    (t.flatMap g).filter (fun y => decide (mark y ≠ p.mark)) = (p.leaves t).flatMap g := by
  induction t with
  | nil => rfl
  | cons x t ih =>
    have ih := ih (fun z hz => hnone z (List.mem_cons_of_mem x hz))
      fun z hz => hsome z (List.mem_cons_of_mem x hz)
    rw [List.flatMap_cons, List.filter_append, ih]
    cases hput : p.put x with
    | none =>
      have hall := hnone x List.mem_cons_self hput
      rw [leaves_cons_none hput, List.flatMap_cons,
        List.filter_eq_self.mpr fun y hy => decide_eq_true (hall y hy)]
    | some l =>
      rw [leaves_cons_some hput, hsome x List.mem_cons_self l hput,
        List.filter_eq_nil_iff.mpr fun y hy => by simp [hm x l hput y hy], List.nil_append]

/-- The text has no mark of these passes before, so what has none afterwards is what they kept. -/
theorem filter_run (hm : ∀ p ∈ ps, p.Marks mark) (hn : (ps.map Pass.mark).Nodup)
    (ht : ∀ x ∈ t, mark x ∉ ps.map Pass.mark) :
    (run ps t).filter (fun y => decide (mark y ∉ ps.map Pass.mark)) = t.filter (keeps ps) := by
  induction ps generalizing t with
  | nil =>
    show t.filter _ = t.filter _
    exact List.filter_congr fun x _ => by simp [keeps]
  | cons p ps ih =>
    obtain ⟨hp, hn⟩ := List.nodup_cons.mp hn
    have hmp : p.Marks mark := hm p List.mem_cons_self
    have htp : ∀ x ∈ t, mark x ≠ p.mark := fun x hx h => ht x hx (h ▸ List.mem_cons_self)
    have hts : ∀ x ∈ t, mark x ∉ ps.map Pass.mark :=
      fun x hx h => ht x hx (List.mem_cons_of_mem _ h)
    have hon : (t.flatMap p.on).filter (fun y => decide (mark y ≠ p.mark)) = p.leaves t := by
      rw [filter_unmarked hmp (g := p.on) ?_ fun x _ l hput => on_some hput]
      · conv_rhs => rw [← List.flatMap_singleton' (p.leaves t)]
        exact List.flatMap_congr fun x hx => on_none (mem_leaves.mp hx).2
      · intro x hx hput y hy
        rw [on_none hput, List.mem_singleton] at hy
        exact hy ▸ htp x hx
    have hboth : (fun y => decide (mark y ∉ (p :: ps).map Pass.mark)) =
        fun y => decide (mark y ≠ p.mark) && decide (mark y ∉ ps.map Pass.mark) := by
      funext y
      simp
    calc (run (p :: ps) t).filter (fun y => decide (mark y ∉ (p :: ps).map Pass.mark))
        = ((run ps (t.flatMap p.on)).filter fun y => decide (mark y ∉ ps.map Pass.mark)).filter
            fun y => decide (mark y ≠ p.mark) := by rw [hboth, ← List.filter_filter]; rfl
      _ = ((t.flatMap p.on).filter (keeps ps)).filter fun y => decide (mark y ≠ p.mark) := by
        rw [ih (fun q hq => hm q (List.mem_cons_of_mem p hq)) hn fun y => unmarked_on hmp hp hts]
      _ = ((t.flatMap p.on).filter fun y => decide (mark y ≠ p.mark)).filter (keeps ps) :=
        List.filter_comm ..
      _ = (p.leaves t).filter (keeps ps) := by rw [hon]
      _ = t.filter (keeps (p :: ps)) := by
        rw [leaves, List.filter_filter]
        exact List.filter_congr fun x _ => by rw [keeps_cons, Bool.and_comm]

/-- A text without any mark of the passes stays as it is just when they keep all of it. -/
theorem run_eq_self_iff (hm : ∀ p ∈ ps, p.Marks mark) (hn : (ps.map Pass.mark).Nodup)
    (ht : ∀ x ∈ t, mark x ∉ ps.map Pass.mark) : run ps t = t ↔ ∀ x ∈ t, keeps ps x = true := by
  constructor
  · intro h
    have hf := filter_run hm hn ht
    rw [h, List.filter_eq_self.mpr fun x hx => decide_eq_true (ht x hx)] at hf
    exact List.filter_eq_self.mp hf.symm
  · exact run_keeps

/-! ## One after the other and at once -/

/-- When the passes do the same as at once, the later ones keep all that the first one puts in. -/
theorem keeps_puts (hm : ∀ q ∈ p :: ps, q.Marks mark) (hn : ((p :: ps).map Pass.mark).Nodup)
    (ht : ∀ x ∈ t, mark x ∉ (p :: ps).map Pass.mark)
    (h : run (p :: ps) t = t.flatMap (once (p :: ps))) : ∀ y ∈ p.puts t, keeps ps y = true := by
  have hmp : p.Marks mark := hm p List.mem_cons_self
  have hms : ∀ q ∈ ps, q.Marks mark := fun q hq => hm q (List.mem_cons_of_mem p hq)
  have htp : ∀ x ∈ t, mark x ≠ p.mark := fun x hx h => ht x hx (h ▸ List.mem_cons_self)
  have hts : ∀ x ∈ t, mark x ∉ ps.map Pass.mark :=
    fun x hx h => ht x hx (List.mem_cons_of_mem _ h)
  obtain ⟨hp, hn⟩ := List.nodup_cons.mp hn
  have hon : (t.flatMap p.on).filter (fun y => decide (mark y = p.mark)) = p.puts t := by
    refine filter_mark hmp ?_ fun x _ l hput => on_some hput
    intro x hx hput y hy
    rw [on_none hput, List.mem_singleton] at hy
    exact hy ▸ htp x hx
  have honce : (t.flatMap (once (p :: ps))).filter (fun y => decide (mark y = p.mark)) =
      p.puts t :=
    filter_mark hmp (fun x hx hput y hy => unmarked_once hms hp (htp x hx) hput hy)
      fun x _ l hput => once_some hput
  have hown : (run ps (t.flatMap p.on)).filter (fun y => decide (mark y = p.mark)) =
      (p.puts t).filter (keeps ps) := by
    calc (run ps (t.flatMap p.on)).filter (fun y => decide (mark y = p.mark))
        = ((run ps (t.flatMap p.on)).filter fun y => decide (mark y ∉ ps.map Pass.mark)).filter
            fun y => decide (mark y = p.mark) := by
          rw [List.filter_filter]
          refine List.filter_congr fun y _ => ?_
          by_cases hy : mark y = p.mark <;> simp [hy, hp]
      _ = ((t.flatMap p.on).filter fun y => decide (mark y = p.mark)).filter (keeps ps) := by
        rw [filter_run hms hn fun y => unmarked_on hmp hp hts, List.filter_comm]
      _ = (p.puts t).filter (keeps ps) := by rw [hon]
  rw [← run_cons, h, honce] at hown
  exact List.filter_eq_self.mp hown.symm

/-- What the first pass leaves is then for the others alone. -/
theorem run_leaves (hm : ∀ q ∈ p :: ps, q.Marks mark) (hn : ((p :: ps).map Pass.mark).Nodup)
    (ht : ∀ x ∈ t, mark x ∉ (p :: ps).map Pass.mark)
    (h : run (p :: ps) t = t.flatMap (once (p :: ps))) :
    run ps (p.leaves t) = (p.leaves t).flatMap (once ps) := by
  have hkept := keeps_puts hm hn ht h
  have hmp : p.Marks mark := hm p List.mem_cons_self
  have hms : ∀ q ∈ ps, q.Marks mark := fun q hq => hm q (List.mem_cons_of_mem p hq)
  have htp : ∀ x ∈ t, mark x ≠ p.mark := fun x hx h => ht x hx (h ▸ List.mem_cons_self)
  have hp : p.mark ∉ ps.map Pass.mark := (List.nodup_cons.mp hn).1
  have hrun : (t.flatMap fun x => run ps (p.on x)).filter (fun y => decide (mark y ≠ p.mark)) =
      (p.leaves t).flatMap fun x => run ps (p.on x) := by
    refine filter_unmarked hmp ?_ fun x hx l hput => ?_
    · intro x hx hput y hy hmark
      rw [on_none hput] at hy
      rcases mem_run hms hy with hin | hin
      · exact htp x hx (List.mem_singleton.mp hin ▸ hmark)
      · exact hp (hmark ▸ hin)
    · rw [on_some hput]
      exact run_keeps fun y hy => hkept y (mem_puts hx hput hy)
  have honce : (t.flatMap (once (p :: ps))).filter (fun y => decide (mark y ≠ p.mark)) =
      (p.leaves t).flatMap (once (p :: ps)) :=
    filter_unmarked hmp (fun x hx hput y hy => unmarked_once hms hp (htp x hx) hput hy)
      fun x _ l hput => once_some hput
  rw [← run_flatMap, ← run_cons, h, honce] at hrun
  calc run ps (p.leaves t) = (p.leaves t).flatMap fun x => run ps [x] := run_eq_flatMap
    _ = (p.leaves t).flatMap fun x => run ps (p.on x) :=
      List.flatMap_congr fun x hx => by rw [on_none (mem_leaves.mp hx).2]
    _ = (p.leaves t).flatMap (once (p :: ps)) := hrun.symm
    _ = (p.leaves t).flatMap (once ps) :=
      List.flatMap_congr fun x hx => once_none (mem_leaves.mp hx).2

/-- When no two passes want the same element of the text, running them one after the other and at
once is the same just when no later pass wants something that an earlier one put in. -/
theorem run_eq_once_iff (hm : ∀ p ∈ ps, p.Marks mark) (hn : (ps.map Pass.mark).Nodup)
    (hone : ps.Pairwise fun p q => ∀ x ∈ t, (p.put x).isSome → q.put x = none)
    (ht : ∀ x ∈ t, mark x ∉ ps.map Pass.mark) :
    run ps t = t.flatMap (once ps) ↔
      ps.Pairwise fun p q => ∀ x ∈ t, ∀ l, p.put x = some l → ∀ y ∈ l, q.put y = none := by
  induction ps generalizing t with
  | nil => simp [run, once]
  | cons p ps ih =>
    have hms : ∀ q ∈ ps, q.Marks mark := fun q hq => hm q (List.mem_cons_of_mem p hq)
    have hns : (ps.map Pass.mark).Nodup := (List.nodup_cons.mp hn).2
    have hts : ∀ x ∈ t, mark x ∉ ps.map Pass.mark :=
      fun x hx h => ht x hx (List.mem_cons_of_mem _ h)
    obtain ⟨hfirst, hone⟩ := List.pairwise_cons.mp hone
    rw [List.pairwise_cons]
    constructor
    · intro h
      refine ⟨fun q hq x hx l hput y hy =>
        keeps_iff.mp (keeps_puts hm hn ht h y (mem_puts hx hput hy)) q hq, ?_⟩
      have hrest := (ih hms hns (hone.imp fun hq x hx => hq x (mem_leaves.mp hx).1)
        fun x hx => hts x (mem_leaves.mp hx).1).mp (run_leaves hm hn ht h)
      refine hrest.imp_of_mem fun {q r} hq _ hqr x hx l hput => ?_
      -- An element that the first pass wants is not wanted by the others.
      cases hx1 : p.put x with
      | none => exact hqr x (mem_leaves.mpr ⟨hx, hx1⟩) l hput
      | some m =>
        rw [hfirst q hq x hx (by rw [hx1]; rfl)] at hput
        exact absurd hput (by simp)
    · rintro ⟨hkept, hrest⟩
      rw [run_cons, run_flatMap]
      refine List.flatMap_congr fun x hx => ?_
      cases hput : p.put x with
      | none =>
        have hin : ∀ y ∈ [x], y ∈ t := fun y hy => List.mem_singleton.mp hy ▸ hx
        have hx1 := (ih hms hns (hone.imp fun hq y hy => hq y (hin y hy))
          fun y hy => hts y (hin y hy)).mpr (hrest.imp fun hq y hy => hq y (hin y hy))
        rw [on_none hput, once_none hput, hx1, List.flatMap_singleton]
      | some l =>
        rw [on_some hput, once_some hput]
        exact run_keeps fun y hy => keeps_iff.mpr fun q hq => hkept q hq x hx l hput y hy

end Pass

end Lib
