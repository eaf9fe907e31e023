import Mathlib.Logic.Basic
import Mathlib.Tactic.Common

/-!
# Stores with holes

A store has something at some addresses and nothing at the others. What lies one behind the other is
written from a buffer and read into one, up to the first hole.
-/

namespace Lib

variable {β : Type}

abbrev PartialStore (β : Type) := Nat → Option β

namespace PartialStore

/-- How much of the `len` addresses from `addr` on comes before the first hole. -/
def covered (m : PartialStore β) : Nat → Nat → Nat
  | _, 0 => 0
  | addr, len + 1 => if (m addr).isSome then covered m (addr + 1) len + 1 else 0

/-- `n` of the buffer from `pos` on go to `addr`. -/
def put (m : PartialStore β) (addr n : Nat) (buf : Nat → β) (pos : Nat) : PartialStore β := fun x =>
  if addr ≤ x ∧ x < addr + n then some (buf (pos + (x - addr))) else m x

/-- What is at `addr` and behind goes to the `n` of the buffer from `pos` on. -/
def fetch (m : PartialStore β) (addr n : Nat) (buf : Nat → β) (pos : Nat) : Nat → β := fun i =>
  if pos ≤ i ∧ i < pos + n then (m (addr + (i - pos))).getD (buf i) else buf i

/-- Nothing is left at the `n` addresses from `addr` on. -/
def clear (m : PartialStore β) (addr n : Nat) : PartialStore β := fun x =>
  if addr ≤ x ∧ x < addr + n then none else m x

/-! ## The covered part -/

theorem covered_none {m : PartialStore β} {addr : Nat} (h : m addr = none) (len : Nat) :
    m.covered addr len = 0 := by
  cases len with
  | zero => rfl
  | succ len =>
    unfold covered
    rw [if_neg (by simp [h])]

theorem covered_add {m : PartialStore β} {addr n : Nat} (h : ∀ i < n, (m (addr + i)).isSome)
    (len : Nat) : m.covered addr (n + len) = n + m.covered (addr + n) len := by
  induction n generalizing addr with
  | zero => simp
  | succ n ih =>
    have hrest : ∀ i < n, (m (addr + 1 + i)).isSome := by
      intro i hi
      have hnext := h (i + 1) (Nat.succ_lt_succ hi)
      rwa [Nat.add_right_comm]
    have heq := ih hrest
    have haddr : (m addr).isSome := h 0 (Nat.succ_pos n)
    rw [Nat.add_right_comm n 1 len, covered, if_pos haddr, heq,
      show addr + 1 + n = addr + (n + 1) by omega]
    omega

theorem covered_all {m : PartialStore β} {addr n : Nat} (h : ∀ i < n, (m (addr + i)).isSome) :
    m.covered addr n = n :=
  covered_add h 0

/-! ## Parts of a transfer -/

@[simp] theorem put_zero (m : PartialStore β) (addr : Nat) (buf : Nat → β) (pos : Nat) :
    m.put addr 0 buf pos = m := by
  funext x
  exact if_neg (by omega)

@[simp] theorem fetch_zero (m : PartialStore β) (addr : Nat) (buf : Nat → β) (pos : Nat) :
    m.fetch addr 0 buf pos = buf := by
  funext i
  exact if_neg (by omega)

theorem put_add (m : PartialStore β) (addr n k : Nat) (buf : Nat → β) (pos : Nat) :
    (m.put addr n buf pos).put (addr + n) k buf (pos + n) = m.put addr (n + k) buf pos := by
  funext x
  unfold put
  split
  · rw [if_pos (by omega)]
    congr 2
    omega
  · split
    · rw [if_pos (by omega)]
    · rw [if_neg (by omega)]

theorem fetch_add (m : PartialStore β) (addr n k : Nat) (buf : Nat → β) (pos : Nat) :
    m.fetch (addr + n) k (m.fetch addr n buf pos) (pos + n) = m.fetch addr (n + k) buf pos := by
  funext i
  unfold fetch
  by_cases hback : pos + n ≤ i ∧ i < pos + n + k
  · rw [if_pos hback, if_neg (by omega), if_pos (by omega), show addr + n + (i - (pos + n)) =
      addr + (i - pos) by omega]
  · rw [if_neg hback]
    by_cases hfront : pos ≤ i ∧ i < pos + n
    · rw [if_pos hfront, if_pos (by omega)]
    · rw [if_neg hfront, if_neg (by omega)]

end PartialStore

end Lib
