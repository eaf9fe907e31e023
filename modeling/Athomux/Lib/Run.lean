import Mathlib.Logic.Basic

/-!
# Runs of a partial step function

A system is a state, and `step s e` is what event `e` does to it, or `none`
when `e` cannot happen in `s`.
-/

namespace Lib

variable {σ ε : Type}

/-- One event after the other, as long as every event meets `ok`. -/
def run (step : σ → ε → Option σ) (ok : σ → ε → Prop) [∀ s e, Decidable (ok s e)] :
    σ → List ε → Option σ
  | s, [] => some s
  | s, e :: es => if ok s e then (step s e).bind fun t => run step ok t es else none

/-- The states that runs from `init` reach, as long as every event meets `ok`. -/
inductive Reach (step : σ → ε → Option σ) (init : σ → Prop) (ok : σ → ε → Prop) : σ → Prop
  | start {s : σ} : init s → Reach step init ok s
  | next {s t : σ} {e : ε} : Reach step init ok s → ok s e → step s e = some t →
      Reach step init ok t

/-- No condition on the events. -/
def anyEvent (_ : σ) (_ : ε) : Prop := True

instance (s : σ) (e : ε) : Decidable (anyEvent s e) := inferInstanceAs (Decidable True)

variable {step : σ → ε → Option σ} {init : σ → Prop} {ok : σ → ε → Prop}

theorem Reach.invariant {I : σ → Prop} (hinit : ∀ s, init s → I s)
    (hstep : ∀ s e t, I s → ok s e → step s e = some t → I t)
    {s : σ} (h : Reach step init ok s) : I s := by
  induction h with
  | start h0 => exact hinit _ h0
  | next _ hok hs ih => exact hstep _ _ _ ih hok hs

theorem Reach.mono {ok' : σ → ε → Prop} (hle : ∀ s e, ok s e → ok' s e)
    {s : σ} (h : Reach step init ok s) : Reach step init ok' s := by
  induction h with
  | start h0 => exact .start h0
  | next _ hok hs ih => exact .next ih (hle _ _ hok) hs

/-- A run from a reached state goes on with the run that has reached it. -/
theorem Reach.trans {s t : σ} (hs : Reach step init ok s) (h : Reach step (· = s) ok t) :
    Reach step init ok t := by
  induction h with
  | start heq => exact heq ▸ hs
  | next _ hok hstep ih => exact .next ih hok hstep

theorem Reach.of_run [∀ s e, Decidable (ok s e)] {s t : σ} {es : List ε}
    (hs : Reach step init ok s) (h : run step ok s es = some t) : Reach step init ok t := by
  induction es generalizing s with
  | nil => cases h; exact hs
  | cons e es ih =>
    rw [run] at h
    split at h
    · rename_i hok
      rw [Option.bind_eq_some_iff] at h
      obtain ⟨u, hu, ht⟩ := h
      exact ih (.next hs hok hu) ht
    · cases h

/-- The state that a run ends in is reached from the one that it begins in. -/
theorem reach_run [∀ s e, Decidable (ok s e)] {s t : σ} {es : List ε}
    (h : run step ok s es = some t) : Reach step (· = s) ok t :=
  Reach.of_run (.start rfl) h

end Lib
