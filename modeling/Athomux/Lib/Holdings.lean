import Mathlib.Logic.Basic

/-!
# Holdings

Who holds what at which place. A place may be held by several owners as long as what they
hold does not conflict.
-/

namespace Lib

/-- `H x o t` says that the owner `o` holds a lock of type `t` at `x`. -/
abbrev Holdings (α ω τ : Type) := α → ω → τ → Prop

namespace Holdings

variable {α ω τ : Type} {conflict : τ → τ → Bool} {H H' : Holdings α ω τ}

/-- What different owners hold at one place does not conflict. -/
def Compatible (conflict : τ → τ → Bool) (H : Holdings α ω τ) : Prop :=
  ∀ x o o' t t', o ≠ o' → H x o t → H x o' t' → conflict t t' = false

/-- The owner `o` gets a lock of type `t` on all of `D`. -/
def add (H : Holdings α ω τ) (D : α → Prop) (o : ω) (t : τ) : Holdings α ω τ := fun x o' t' =>
  H x o' t' ∨ (D x ∧ o' = o ∧ t' = t)

theorem Compatible.mono (h : Compatible conflict H) (hle : ∀ x o t, H' x o t → H x o t) :
    Compatible conflict H' :=
  fun x o o' t t' hne h1 h2 => h x o o' t t' hne (hle x o t h1) (hle x o' t' h2)

/-- A lock may be added where it does not conflict with the locks of the others. -/
theorem Compatible.add (h : Compatible conflict H) (hcomm : ∀ t t', conflict t t' = conflict t' t)
    {D : α → Prop} {o : ω} {t : τ}
    (hfree : ∀ x o' t', D x → o' ≠ o → H x o' t' → conflict t' t = false) :
    Compatible conflict (H.add D o t) := by
  intro x o₁ o₂ t₁ t₂ hne h1 h2
  rcases h1 with h1 | ⟨hx, rfl, rfl⟩
  · rcases h2 with h2 | ⟨hx, rfl, rfl⟩
    · exact h x o₁ o₂ t₁ t₂ hne h1 h2
    · exact hfree x o₁ t₁ hx hne h1
  · rcases h2 with h2 | ⟨-, rfl, -⟩
    · rw [hcomm]
      exact hfree x o₂ t₂ hx (Ne.symm hne) h2
    · exact absurd rfl hne

end Holdings

end Lib
