import Mathlib.Data.Nat.Bitwise

/-!
# Lock types

A lock has a data type and an address type. `lock_cache`, `lock_mand` and
`lock_mutex` look conflicts up in one packed matrix.
-/

namespace Athomux

/-- `lock_t`. -/
inductive LockT
  | none
  | read
  | write
  deriving DecidableEq, Repr

namespace LockT

def code : LockT → Nat
  | none => 0
  | read => 1
  | write => 2

instance : LE LockT := ⟨fun a b => a.code ≤ b.code⟩

instance (a b : LockT) : Decidable (a ≤ b) := inferInstanceAs (Decidable (a.code ≤ b.code))

/-- The stronger one. -/
def max (a b : LockT) : LockT := if b.code < a.code then a else b

/-- A write lock conflicts with any lock, a read lock with write locks. -/
def Conflict (a b : LockT) : Prop := (a = write ∧ b ≠ none) ∨ (b = write ∧ a ≠ none)

instance (a b : LockT) : Decidable (Conflict a b) := by
  unfold Conflict
  infer_instance

theorem max_eq (a b : LockT) : max a b = a ∨ max a b = b := by
  unfold max
  split
  · exact Or.inl rfl
  · exact Or.inr rfl

theorem max_of_le {a b : LockT} (h : b ≤ a) : max a b = a := by
  revert h
  cases a <;> cases b <;> decide

end LockT

/-- The bits 0..1 and 2..3 of `flags`. -/
structure LockType where
  data : LockT
  addr : LockT
  deriving DecidableEq, Repr

namespace LockType

/-- `lock_type = ((addr_lock << 2) + data_lock)`. -/
def code (t : LockType) : Nat := t.addr.code * 4 + t.data.code

def lockConflictDef : List Nat := [
  0x000, 0x444, 0x666, 0x000,
  0x700, 0x744, 0x766, 0x000,
  0x770, 0x774, 0x776]

/-- `lock_conflict_def[t] & (1 << u)`. -/
def conflicts (t u : LockType) : Bool := (lockConflictDef.getD t.code 0).testBit u.code

/-- The matrix compares data types with data types and address types with address types. -/
theorem conflicts_iff (t u : LockType) :
    t.conflicts u = true ↔ t.data.Conflict u.data ∨ t.addr.Conflict u.addr := by
  obtain ⟨td, ta⟩ := t
  obtain ⟨ud, ua⟩ := u
  cases td <;> cases ta <;> cases ud <;> cases ua <;> decide

theorem conflicts_comm (t u : LockType) : t.conflicts u = u.conflicts t := by
  rw [Bool.eq_iff_iff, conflicts_iff, conflicts_iff]
  unfold LockT.Conflict
  tauto

/-- The component-wise strongest type conflicts only where one of the two does. -/
theorem conflicts_max {t u v : LockType}
    (h : (⟨t.data.max u.data, t.addr.max u.addr⟩ : LockType).conflicts v = true) :
    t.conflicts v = true ∨ u.conflicts v = true := by
  rw [conflicts_iff] at h ⊢
  rw [conflicts_iff]
  rcases h with h | h
  · rcases LockT.max_eq t.data u.data with heq | heq <;> simp only [heq] at h <;> tauto
  · rcases LockT.max_eq t.addr u.addr with heq | heq <;> simp only [heq] at h <;> tauto

end LockType

end Athomux
