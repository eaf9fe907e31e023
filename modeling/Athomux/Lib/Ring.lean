import Mathlib.Data.List.Basic
import Mathlib.Data.List.Range
import Mathlib.Data.Int.ModEq

/-!
# Ring buffers

`ring cell cap start len` are the `len` cells from index `start` on, in a ring of
`cap` cells. What a queue holds is `ring` of its head and its length.
-/

namespace Lib

variable {α : Type}

def ring (cell : Nat → α) (cap start len : Nat) : List α :=
  (List.range len).map fun i => cell ((start + i) % cap)

@[simp] theorem ring_zero (cell : Nat → α) (cap start : Nat) : ring cell cap start 0 = [] := rfl

@[simp] theorem ring_length (cell : Nat → α) (cap start len : Nat) :
    (ring cell cap start len).length = len := by
  simp [ring]

theorem ring_start_mod (cell : Nat → α) (cap start len : Nat) :
    ring cell cap (start % cap) len = ring cell cap start len := by
  simp only [ring, Nat.mod_add_mod]

/-- A ring is its first `l` cells, then the rest. -/
theorem ring_add (cell : Nat → α) (cap start l k : Nat) :
    ring cell cap start (l + k) = ring cell cap start l ++ ring cell cap (start + l) k := by
  simp only [ring, List.range_add, List.map_append, List.map_map]
  congr 1
  apply List.map_congr_left
  intro i _
  simp only [Function.comp_apply, Nat.add_assoc]

/-- Releasing `k` cells at the head. -/
theorem ring_pop (cell : Nat → α) (cap start len k : Nat) (h : k ≤ len) :
    ring cell cap start len =
      ring cell cap start k ++ ring cell cap ((start + k) % cap) (len - k) := by
  rw [ring_start_mod, ← ring_add]
  congr 1
  omega

theorem ring_congr (cell cell' : Nat → α) (cap start len : Nat)
    (h : ∀ i < len, cell ((start + i) % cap) = cell' ((start + i) % cap)) :
    ring cell cap start len = ring cell' cap start len := by
  apply List.map_congr_left
  intro i hi
  exact h i (List.mem_range.mp hi)

/-- Two offsets below the capacity never meet in the same cell. -/
theorem ring_index_inj {cap start i j : Nat} (hi : i < cap) (hj : j < cap)
    (h : (start + i) % cap = (start + j) % cap) : i = j := by
  have : i % cap = j % cap := Nat.ModEq.add_left_cancel' start h
  rwa [Nat.mod_eq_of_lt hi, Nat.mod_eq_of_lt hj] at this

/-- Cells that do not wrap are consecutive. -/
theorem ring_of_le (cell : Nat → α) {cap start len : Nat} (h : start + len ≤ cap) :
    ring cell cap start len = (List.range len).map fun i => cell (start + i) := by
  apply List.map_congr_left
  intro i hi
  rw [Nat.mod_eq_of_lt]
  have := List.mem_range.mp hi
  omega

end Lib
