import Mathlib.Tactic.Common

/-!
# Blocks with an undo

`if (step) { ..; undo; }`, one inside the other, where the innermost block returns. A step that fails
may change something all the same.
-/

namespace Lib

structure Block (σ : Type) where
  fails : Bool
  failed : σ → σ
  step : σ → σ
  undo : σ → σ

namespace Block

variable {σ : Type} {R : σ → σ → Prop} {b : Block σ} {bs : List (Block σ)} {s : σ}

/-- The state in the end, and whether the innermost block returned. -/
def run : List (Block σ) → σ → σ × Bool
  | [], s => (s, true)
  | b :: bs, s =>
    if b.fails then (b.failed s, false)
    else
      let r := run bs (b.step s)
      if r.2 then r else (b.undo r.1, false)

theorem run_cons : run (b :: bs) s =
    if b.fails then (b.failed s, false)
    else if (run bs (b.step s)).2 then run bs (b.step s)
    else (b.undo (run bs (b.step s)).1, false) :=
  rfl

theorem run_fails (h : b.fails = true) : run (b :: bs) s = (b.failed s, false) := by
  rw [run_cons, if_pos h]

/-- The inner blocks returned. -/
theorem run_returns (h : b.fails = false) (hr : (run bs (b.step s)).2 = true) :
    run (b :: bs) s = run bs (b.step s) := by
  rw [run_cons, if_neg (by simp [h]), if_pos hr]

/-- The inner blocks fell through. -/
theorem run_undo (h : b.fails = false) (hr : (run bs (b.step s)).2 = false) :
    run (b :: bs) s = (b.undo (run bs (b.step s)).1, false) := by
  rw [run_cons, if_neg (by simp [h]), if_neg (by simp [hr])]

/-- The innermost block returns when no step fails. -/
theorem snd_run : (run bs s).2 = true ↔ ∀ b ∈ bs, b.fails = false := by
  induction bs generalizing s with
  | nil => exact iff_of_true rfl (by simp)
  | cons b bs ih =>
    rw [List.forall_mem_cons]
    cases hb : b.fails with
    | true => simp [run_fails hb]
    | false =>
      rw [← ih (s := b.step s)]
      cases hr : (run bs (b.step s)).2 with
      | true => simp [run_returns hb hr, hr]
      | false => simp [run_undo hb hr]

/-- When the innermost block returns, all steps were taken. -/
theorem run_all (hr : (run bs s).2 = true) : (run bs s).1 = bs.foldl (fun s b => b.step s) s := by
  induction bs generalizing s with
  | nil => rfl
  | cons b bs ih =>
    cases hb : b.fails with
    | true =>
      rw [run_fails hb] at hr
      exact absurd hr Bool.false_ne_true
    | false =>
      cases hinner : (run bs (b.step s)).2 with
      | true =>
        rw [run_returns hb hinner]
        exact ih hinner
      | false =>
        rw [run_undo hb hinner] at hr
        exact absurd hr Bool.false_ne_true

/-- Blocks whose steps succeed, around others. -/
theorem run_append {cs : List (Block σ)} (h : ∀ b ∈ bs, b.fails = false) :
    run (bs ++ cs) s =
      if (run cs (bs.foldl (fun s b => b.step s) s)).2 then
        run cs (bs.foldl (fun s b => b.step s) s)
      else (bs.foldr undo (run cs (bs.foldl (fun s b => b.step s) s)).1, false) := by
  induction bs generalizing s with
  | nil =>
    cases hr : (run cs s).2 with
    | true => rw [if_pos (by exact hr)]; rfl
    | false =>
      rw [if_neg (by simp [hr])]
      exact Prod.ext rfl hr
  | cons b bs ih =>
    obtain ⟨hb, hrest⟩ := List.forall_mem_cons.mp h
    have hinner := ih (s := b.step s) hrest
    rw [List.foldl_cons, List.foldr_cons, List.cons_append]
    cases hr : (run cs (bs.foldl (fun s b => b.step s) (b.step s))).2 with
    | true =>
      rw [hr, if_pos rfl] at hinner
      rw [run_returns hb (hinner ▸ hr), hinner, if_pos rfl]
    | false =>
      rw [hr, if_neg Bool.false_ne_true] at hinner
      rw [run_undo hb (by rw [hinner]), hinner, if_neg Bool.false_ne_true]

/-- Every undo takes its own step back, up to `R`, from the state where the step is taken. -/
def Undoes (R : σ → σ → Prop) : List (Block σ) → σ → Prop
  | [], _ => True
  | b :: bs, s =>
    R (b.failed s) s ∧ (∀ s', R s' (b.step s) → R (b.undo s') s) ∧ Undoes R bs (b.step s)

/-- Wherever it fails, all is taken back. -/
theorem run_restores (h : Undoes R bs s) (hr : (run bs s).2 = false) : R (run bs s).1 s := by
  induction bs generalizing s with
  | nil => exact absurd hr (by simp [run])
  | cons b bs ih =>
    obtain ⟨hfailed, hundo, hrest⟩ := h
    cases hb : b.fails with
    | true =>
      rw [run_fails hb]
      exact hfailed
    | false =>
      cases hinner : (run bs (b.step s)).2 with
      | true =>
        rw [run_returns hb hinner] at hr
        exact absurd hr (by simp [hinner])
      | false =>
        rw [run_undo hb hinner]
        exact hundo _ (ih hrest hinner)

end Block

end Lib
