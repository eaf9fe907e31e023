import Athomux.Lib.Ledger

/-!
# Elements in memory

The elements of the lists have been allocated in `:<mem`.
-/

namespace Athomux.StratText

open Lib

/-- What `PC_ALLOC` gives, and what `PC_FREE` is called with. -/
structure Block where
  addr : Nat
  len : Nat
  deriving DecidableEq, Repr

abbrev Log := List (Booking Block)

/-- A list element, and where it is. -/
structure Elem (α : Type) where
  ptr : Nat
  val : α
  deriving DecidableEq, Repr

variable {α : Type} {size : Nat} {l l' : List (Elem α)}

def blocks (size : Nat) (l : List (Elem α)) : List Block := l.map fun e => ⟨e.ptr, size⟩

/-- Each element is unlinked and freed. -/
def freeAll (size : Nat) (l : List (Elem α)) : Log := (blocks size l).map .give

theorem blocks_append : blocks size (l ++ l') = blocks size l ++ blocks size l' := List.map_append

theorem turns_freeAll :
    Ledger.Turns (freeAll size l) (blocks size l) (blocks size ([] : List (Elem α))) := .give_all _

/-- A new element becomes the last one. -/
theorem turns_link (e : Elem α) :
    Ledger.Turns [.take ⟨e.ptr, size⟩] (blocks size l) (blocks size (l ++ [e])) := by
  refine Ledger.Turns.take.perm (.refl _) ?_
  rw [blocks_append]
  exact (List.perm_append_singleton _ _).symm

end Athomux.StratText
