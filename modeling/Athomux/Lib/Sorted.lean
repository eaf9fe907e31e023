import Mathlib.Data.List.InsertIdx
import Mathlib.Order.Basic

/-!
# Inserting into a sorted list
-/

namespace Lib

variable {α : Type} [Preorder α] {l : List α} {v : α} {p : Nat}

/-- A value inserted behind what is not above it and in front of what is not below it. -/
theorem pairwise_insertIdx (hl : l.Pairwise (· ≤ ·))
    (hbefore : ∀ i a, i < p → l[i]? = some a → a ≤ v)
    (hbehind : ∀ i a, p ≤ i → l[i]? = some a → v ≤ a) :
    (l.insertIdx p v).Pairwise (· ≤ ·) := by
  rw [List.pairwise_iff_getElem] at hl ⊢
  intro i j hi hj hij
  simp only [List.getElem_insertIdx]
  split_ifs with h₁ h₂ h₃ h₄ h₅
  · exact hl _ _ _ _ hij
  · exact hbefore i _ h₁ (List.getElem?_eq_getElem _)
  · exact hl _ _ _ _ (by omega)
  · omega
  · omega
  · exact hbehind (j - 1) _ (by omega) (List.getElem?_eq_getElem _)
  · omega
  · omega
  · exact hl _ _ _ _ (by omega)

/-- A later value of a sorted list is not below an earlier one. -/
theorem le_of_sorted (hl : l.Pairwise (· ≤ ·)) {i j : Nat} {a b : α} (hij : i ≤ j)
    (ha : l[i]? = some a) (hb : l[j]? = some b) : a ≤ b := by
  obtain ⟨hi, rfl⟩ := List.getElem?_eq_some_iff.mp ha
  obtain ⟨hj, rfl⟩ := List.getElem?_eq_some_iff.mp hb
  rcases Nat.lt_or_eq_of_le hij with hlt | rfl
  · exact List.pairwise_iff_getElem.mp hl i j hi hj hlt
  · exact le_rfl

end Lib
