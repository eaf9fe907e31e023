import Mathlib.Data.List.Basic
import Mathlib.Data.List.ReduceOption
import Mathlib.Data.List.Range

/-!
# Segments of arrays

An array is a function of the index. A segment is the list of some elements in a row.
-/

namespace Lib

variable {α : Type} {f g : Nat → α} {a b m n : Nat}

/-- The `n` elements from `a` on. -/
def seg (f : Nat → α) (a n : Nat) : List α := (List.range' a n).map f

@[simp] theorem seg_zero : seg f a 0 = [] := rfl

theorem seg_succ : seg f a (n + 1) = f a :: seg f (a + 1) n := by
  unfold seg
  rw [List.range'_succ, List.map_cons]

theorem seg_add : seg f a (m + n) = seg f a m ++ seg f (a + m) n := by
  unfold seg
  rw [← List.map_append, List.range'_append_1]

@[simp] theorem seg_length : (seg f a n).length = n := by simp [seg]

theorem seg_one : seg f a 1 = [f a] := rfl

/-- Two segments with the same elements. -/
theorem seg_eq (h : ∀ i < n, f (a + i) = g (b + i)) : seg f a n = seg g b n := by
  induction n generalizing a b with
  | zero => rfl
  | succ n ih =>
    rw [seg_succ, seg_succ]
    congr 1
    · exact h 0 (by omega)
    · refine ih fun i hi => ?_
      have hnext := h (i + 1) (by omega)
      rwa [Nat.add_comm i 1, ← Nat.add_assoc, ← Nat.add_assoc] at hnext

theorem seg_congr (h : ∀ i, a ≤ i → i < a + n → f i = g i) : seg f a n = seg g a n :=
  seg_eq fun i hi => h (a + i) (by omega) (by omega)

/-- A segment around one of its elements. -/
theorem seg_split {i : Nat} (ha : a ≤ i) (hi : i < a + n) :
    seg f a n = seg f a (i - a) ++ f i :: seg f (i + 1) (a + n - (i + 1)) := by
  have hn : n = (i - a) + (1 + (a + n - (i + 1))) := by omega
  have hai : a + (i - a) = i := by omega
  rw [hn, seg_add, seg_add, seg_one, hai, List.singleton_append, ← hn]

end Lib
