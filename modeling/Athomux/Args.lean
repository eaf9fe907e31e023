import Mathlib.Tactic.NormNum
import Mathlib.Tactic.TypeStar

/-!
# Addresses and lengths

`addr_t` and `len_t` are unsigned and 64 bits wide. They are `Nat` here, and the
sums and differences of the source are taken modulo `2 ^ 64`.
-/

namespace Athomux

/-- One past the highest address. -/
def addrSpace : Nat := 2 ^ 64

def add64 (a b : Nat) : Nat := (a + b) % addrSpace

def sub64 (a b : Nat) : Nat := (a + (addrSpace - b)) % addrSpace

theorem add64_eq {a b : Nat} (h : a + b < addrSpace) : add64 a b = a + b :=
  Nat.mod_eq_of_lt h

theorem sub64_eq {a b : Nat} (hab : b ≤ a) (ha : a < addrSpace) : sub64 a b = a - b := by
  unfold sub64 addrSpace at *
  omega

theorem add64_lt (a b : Nat) : add64 a b < addrSpace := Nat.mod_lt _ (by decide)

theorem sub64_lt (a b : Nat) : sub64 a b < addrSpace := Nat.mod_lt _ (by decide)

/-- `action_t`. -/
inductive Action
  | ask
  | try
  | wait
  deriving DecidableEq, Repr

end Athomux

/-! ## Types of the fields of `struct args` -/

namespace Athomux

/-- `direction_t`. -/
inductive Direction
  | read
  | write
  | stop
  deriving DecidableEq, Repr

/-- `prio_t`. -/
inductive Prio
  | none
  | background
  | normal
  | urgent
  deriving DecidableEq, Repr

/-- `version_t`. -/
inductive Version
  | undef
  | old
  | newest
  deriving DecidableEq, Repr

end Athomux
