import Mathlib.Logic.Function.Basic
import Mathlib.Order.Basic

/-!
# Allocating and freeing blocks

A block is known by its number, and no number is given twice.
-/

namespace Lib

structure Heap where
  next : Nat
  live : Nat → Bool
  beyond : ∀ p, next ≤ p → live p = false

namespace Heap

def empty (next : Nat) : Heap := ⟨next, fun _ => false, fun _ _ => rfl⟩

def malloc (h : Heap) : Heap where
  next := h.next + 1
  live := Function.update h.live h.next true
  beyond := fun p hp => by
    rw [Function.update_of_ne (by omega)]
    exact h.beyond p (by omega)

/-- Only a live block can be freed. -/
def free (h : Heap) (p : Nat) : Option Heap :=
  if h.live p then some
    { h with
      live := Function.update h.live p false
      beyond := fun q hq => by
        by_cases hqp : q = p
        · rw [hqp, Function.update_self]
        · rw [Function.update_of_ne hqp]
          exact h.beyond q hq }
  else none

variable {h h' : Heap} {p q : Nat}

theorem malloc_live : h.malloc.live p = (decide (p = h.next) || h.live p) := by
  unfold malloc
  by_cases hp : p = h.next
  · simp [hp]
  · simp [hp]

theorem malloc_self : h.malloc.live h.next = true := Function.update_self _ _ _

theorem malloc_mono (hp : h.live p = true) : h.malloc.live p = true := by
  rw [malloc_live, hp, Bool.or_true]

theorem free_eq_some (hf : h.free p = some h') :
    h.live p = true ∧ h'.next = h.next ∧ h'.live = Function.update h.live p false := by
  unfold free at hf
  split_ifs at hf with hlive
  cases hf
  exact ⟨hlive, rfl, rfl⟩

theorem free_self (hf : h.free p = some h') : h'.live p = false := by
  rw [(free_eq_some hf).2.2, Function.update_self]

theorem free_other (hf : h.free p = some h') (hqp : q ≠ p) : h'.live q = h.live q := by
  rw [(free_eq_some hf).2.2, Function.update_of_ne hqp]

/-- What is live afterwards has been live before. -/
theorem live_of_free (hf : h.free p = some h') (hq : h'.live q = true) : h.live q = true ∧ q ≠ p := by
  by_cases hqp : q = p
  · rw [hqp, free_self hf] at hq
    cases hq
  · exact ⟨(free_other hf hqp) ▸ hq, hqp⟩

end Heap

end Lib
