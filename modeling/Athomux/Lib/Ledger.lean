import Mathlib.Data.List.Perm.Subperm
import Mathlib.Data.List.Range
import Mathlib.Logic.Function.Basic

/-!
# Ledgers

What is taken and what is given back, in this order. Nothing should be given back that is not
outstanding.
-/

namespace Lib

inductive Booking (κ : Type)
  | take (k : κ)
  | give (k : κ)
  deriving DecidableEq, Repr

def Booking.map {κ μ : Type} (f : κ → μ) : Booking κ → Booking μ
  | .take k => .take (f k)
  | .give k => .give (f k)

namespace Ledger

variable {κ : Type} [DecidableEq κ] {es fs : List (Booking κ)} {l l' : List κ} {k : κ}

/-- What is outstanding after the entries, when `l` is before them. -/
def outstanding : List κ → List (Booking κ) → List κ
  | l, [] => l
  | l, .take k :: es => outstanding (k :: l) es
  | l, .give k :: es => outstanding (l.erase k) es

/-- Everything that is given back is outstanding then. -/
def Sound : List κ → List (Booking κ) → Prop
  | _, [] => True
  | l, .take k :: es => Sound (k :: l) es
  | l, .give k :: es => k ∈ l ∧ Sound (l.erase k) es

instance : (l : List κ) → (es : List (Booking κ)) → Decidable (Sound l es)
  | _, [] => inferInstanceAs (Decidable True)
  | l, .take k :: es =>
    have : Decidable (Sound (k :: l) es) := instDecidableSound (k :: l) es
    inferInstanceAs (Decidable (Sound (k :: l) es))
  | l, .give k :: es =>
    have : Decidable (Sound (l.erase k) es) := instDecidableSound (l.erase k) es
    inferInstanceAs (Decidable (k ∈ l ∧ Sound (l.erase k) es))

theorem outstanding_append :
    outstanding l (es ++ fs) = outstanding (outstanding l es) fs := by
  induction es generalizing l with
  | nil => rfl
  | cons e es ih =>
    cases e with
    | take k => exact ih
    | give k => exact ih

theorem sound_append : Sound l (es ++ fs) ↔ Sound l es ∧ Sound (outstanding l es) fs := by
  induction es generalizing l with
  | nil => simp [Sound, outstanding]
  | cons e es ih =>
    cases e with
    | take k => simp only [List.cons_append, Sound, outstanding, ih]
    | give k => simp only [List.cons_append, Sound, outstanding, ih, and_assoc]

/-! ## Exactly `l` is outstanding -/

/-- The entries are sound and leave `l`. -/
def Settles (es : List (Booking κ)) (l : List κ) : Prop :=
  Sound [] es ∧ (outstanding [] es).Perm l

theorem Settles.nil : Settles ([] : List (Booking κ)) [] := ⟨trivial, .refl _⟩

theorem Settles.perm (h : Settles es l) (hp : l.Perm l') : Settles es l' := ⟨h.1, h.2.trans hp⟩

theorem Settles.take (h : Settles es l) : Settles (es ++ [.take k]) (k :: l) := by
  refine ⟨sound_append.mpr ⟨h.1, trivial⟩, ?_⟩
  rw [outstanding_append]
  exact h.2.cons k

theorem Settles.give (h : Settles es (k :: l)) : Settles (es ++ [.give k]) l := by
  have hmem : k ∈ outstanding [] es := h.2.mem_iff.mpr (List.mem_cons_self ..)
  refine ⟨sound_append.mpr ⟨h.1, hmem, trivial⟩, ?_⟩
  rw [outstanding_append]
  exact (h.2.erase k).trans (by simp)

/-! ## At least `l` is outstanding -/

/-- The entries leave `l`, and perhaps more. -/
def Backs (es : List (Booking κ)) (l : List κ) : Prop := l.Subperm (outstanding [] es)

theorem Backs.nil : Backs ([] : List (Booking κ)) [] := List.nil_subperm

theorem Backs.mem (h : Backs es l) (hk : k ∈ l) : k ∈ outstanding [] es := h.subset hk

theorem Backs.perm (h : Backs es l) (hp : l.Perm l') : Backs es l' := hp.symm.subperm.trans h

theorem Backs.take (h : Backs es l) : Backs (es ++ [.take k]) (k :: l) := by
  unfold Backs
  rw [outstanding_append]
  exact (List.subperm_cons k).mpr h

theorem Backs.take_more (h : Backs es l) : Backs (es ++ [.take k]) l := by
  unfold Backs
  rw [outstanding_append]
  exact h.trans (List.sublist_cons_self ..).subperm

theorem Backs.give (h : Backs es (k :: l)) : Backs (es ++ [.give k]) l := by
  unfold Backs
  rw [outstanding_append]
  have he := List.Subperm.erase k h
  rwa [List.erase_cons_head] at he

theorem Backs.give_other (h : Backs es l) (hk : k ∉ l) : Backs (es ++ [.give k]) l := by
  unfold Backs
  rw [outstanding_append]
  have he := List.Subperm.erase k h
  rwa [List.erase_of_not_mem hk] at he

/-! ## What entries make of a part -/

/-- Beside anything else, the entries leave `l'` where `l` has been outstanding. -/
def Turns (es : List (Booking κ)) (l l' : List κ) : Prop :=
  ∀ fs m, Settles fs (l ++ m) → Settles (fs ++ es) (l' ++ m)

theorem Turns.nil (hp : l.Perm l') : Turns [] l l' := by
  intro fs m h
  rw [List.append_nil]
  exact h.perm (hp.append_right m)

theorem Turns.take : Turns [.take k] l (k :: l) := fun _ _ h => h.take

theorem Turns.give : Turns [.give k] (k :: l) l := fun _ _ h => h.give

theorem Turns.trans {l'' : List κ} (h : Turns es l l') (h' : Turns fs l' l'') :
    Turns (es ++ fs) l l'' := by
  intro gs m hs
  rw [← List.append_assoc]
  exact h' _ m (h gs m hs)

theorem Turns.perm {k k' : List κ} (h : Turns es l l') (hk : k.Perm l) (hk' : l'.Perm k') :
    Turns es k k' := fun fs m hs =>
  (h fs m (hs.perm (hk.append_right m))).perm (hk'.append_right m)

/-- Something else may be outstanding at the side. -/
theorem Turns.frame (h : Turns es l l') (m : List κ) : Turns es (l ++ m) (l' ++ m) := by
  intro fs n hs
  rw [List.append_assoc] at hs ⊢
  exact h fs (m ++ n) hs

theorem Turns.frame_left (h : Turns es l l') (m : List κ) : Turns es (m ++ l) (m ++ l') :=
  (h.frame m).perm List.perm_append_comm List.perm_append_comm

theorem Turns.settles (h : Turns es l l') (hs : Settles fs l) : Settles (fs ++ es) l' := by
  have := h fs [] (by rwa [List.append_nil])
  rwa [List.append_nil] at this

/-- Everything of a list is given back. -/
theorem Turns.give_all (l : List κ) : Turns (l.map .give) l [] := by
  induction l with
  | nil => exact .nil (.refl _)
  | cons k l ih => exact Turns.give.trans ih

end Ledger

/-! ## What the places of a table hold -/

section Table

variable {α : Type} {f : Nat → Option α} {n i : Nat}

/-- What the first `n` places hold. -/
def tableList (n : Nat) (f : Nat → Option α) : List α := (List.range n).filterMap f

theorem mem_tableList {a : α} : a ∈ tableList n f ↔ ∃ i < n, f i = some a := by
  simp [tableList]

/-- One place beside the others. -/
theorem tableList_perm (hi : i < n) :
    (tableList n f).Perm ((f i).toList ++ tableList n (Function.update f i none)) := by
  have hrange : (List.range n).Perm (i :: (List.range n).erase i) :=
    List.perm_cons_erase (List.mem_range.mpr hi)
  have hne : ∀ j ∈ (List.range n).erase i, Function.update f i none j = f j := by
    intro j hj
    have hij : j ≠ i := ((List.nodup_range (n := n)).mem_erase_iff.mp hj).1
    exact Function.update_of_ne hij _ _
  have hrest : (tableList n (Function.update f i none)).Perm
      (((List.range n).erase i).filterMap f) := by
    refine (hrange.filterMap _).trans ?_
    rw [List.filterMap_cons, Function.update_self, List.filterMap_congr hne]
  refine (hrange.filterMap f).trans ?_
  refine .trans ?_ (hrest.symm.append_left _)
  cases hfi : f i <;> simp [hfi]

end Table

end Lib
