import Mathlib.Data.Set.Function
import Mathlib.Order.Interval.Set.Defs
import Mathlib.Logic.Equiv.Basic

/-!
# Arrays as functions

An array is a function of the index, and moving its elements about is the composition with a
function of the indices.
-/

namespace Lib

variable {α : Type}

/-- The `n` elements from `source` on are put from `target` on. The ranges may overlap. -/
def memmove (f : Nat → α) (target source n : Nat) : Nat → α := fun j =>
  if target ≤ j ∧ j < target + n then f (j - target + source) else f j

/-- `n` elements from another place are put from `target` on. -/
def memcpy (f : Nat → α) (target : Nat) (g : Nat → α) (n : Nat) : Nat → α := fun j =>
  if target ≤ j ∧ j < target + n then g (j - target) else f j

def memset (f : Nat → α) (target : Nat) (x : α) (n : Nat) : Nat → α := fun j =>
  if target ≤ j ∧ j < target + n then x else f j

/-- `f[t] = f[s]` and `f[s] = f[t]`. -/
def exchange (f : Nat → α) (s t : Nat) : Nat → α := fun j =>
  if j = s then f t else if j = t then f s else f j

/-! ## Permutations -/

/-- The first `n` elements are the numbers below `n` in some order. -/
def IsPermutation (n : Nat) (f : Nat → Nat) : Prop := Set.BijOn f (Set.Iio n) (Set.Iio n)

variable {n : Nat} {f σ τ : Nat → Nat}

theorem isPermutation_id (n : Nat) : IsPermutation n id := Set.bijOn_id _

theorem IsPermutation.comp (hf : IsPermutation n f) (hσ : IsPermutation n σ) :
    IsPermutation n (f ∘ σ) :=
  Set.BijOn.comp hf hσ

/-- What can be undone within the first `n` elements permutes them. -/
theorem isPermutation_of_inverse (hσ : ∀ j < n, σ j < n) (hτ : ∀ j < n, τ j < n)
    (hleft : ∀ j < n, τ (σ j) = j) (hright : ∀ j < n, σ (τ j) = j) : IsPermutation n σ := by
  refine ⟨hσ, ?_, ?_⟩
  · intro i hi j hj heq
    rw [← hleft i hi, ← hleft j hj, heq]
  · intro j hj
    exact ⟨τ j, hτ j hj, hright j hj⟩

theorem IsPermutation.injective (hf : IsPermutation n f) {i j : Nat} (hi : i < n) (hj : j < n)
    (h : f i = f j) : i = j :=
  hf.injOn hi hj h

theorem exchange_eq (f : Nat → α) (s t : Nat) : exchange f s t = f ∘ Equiv.swap s t := by
  funext j
  simp only [exchange, Function.comp_apply, Equiv.swap_apply_def]
  split
  · rfl
  · split <;> rfl

theorem IsPermutation.exchange {s t : Nat} (hf : IsPermutation n f) (hs : s < n) (ht : t < n) :
    IsPermutation n (exchange f s t) := by
  rw [exchange_eq]
  have hlt : ∀ j < n, Equiv.swap s t j < n := by
    intro j hj
    rw [Equiv.swap_apply_def]
    split
    · exact ht
    · split
      · exact hs
      · exact hj
  exact hf.comp (isPermutation_of_inverse hlt hlt (fun j _ => Equiv.swap_apply_self s t j)
    fun j _ => Equiv.swap_apply_self s t j)

end Lib
