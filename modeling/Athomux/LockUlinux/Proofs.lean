import Mathlib.Data.List.Basic
import Athomux.Lib.Holdings
import Athomux.LockUlinux.Spec

/-! # Locks of different mandates -/

open Lib

namespace Athomux.LockUlinux

variable {anchor anchor' l : List Lock} {new e : Lock}

theorem conflicts_comm (t u : Fin 9) : conflicts t u = conflicts u t := by
  revert t u
  decide

/-- The table is the one of the other bricks, but for an address lock for writing: nothing that
locks anything is allowed beside it. -/
theorem conflicts_iff (d a d' a' : LockT) :
    conflicts (makeType d a) (makeType d' a') = true ↔
      d.Conflict d' ∨ a.Conflict a' ∨ (a = .write ∧ d' ≠ .none) ∨ (a' = .write ∧ d ≠ .none) := by
  cases d <;> cases a <;> cases d' <;> cases a' <;> decide

/-! ## What is held -/

/-- What the list says about who holds which type where. -/
def holds (anchor : List Lock) : Holdings Nat Nat (Fin 9) := fun x m t =>
  ∃ e ∈ anchor, e.Has x ∧ e.mandate = m ∧ e.type = t

theorem holds_cons (e : Lock) (l : List Lock) (x m : Nat) (t : Fin 9) :
    holds (e :: l) x m t ↔ (e.Has x ∧ e.mandate = m ∧ e.type = t) ∨ holds l x m t := by
  simp only [holds, List.mem_cons, exists_eq_or_imp]

/-! ## `lock_add` -/

/-- `e` is an entry that `new` can be merged with. -/
def Mergeable (new e : Lock) : Prop :=
  e.mandate = new.mandate ∧ e.type = new.type ∧ new.start ≤ e.stop ∧ e.start ≤ new.stop

/-- `e` is in the way of `new`. -/
def InWay (new e : Lock) : Prop :=
  e.mandate ≠ new.mandate ∧ new.start < e.stop ∧ e.start < new.stop ∧
    conflicts e.type new.type = true

theorem scan_spec {i : Nat} {modify r : Option Nat} (hs : scan new i modify l = .ok r) :
    (∀ e ∈ l, ¬ InWay new e) ∧
    (r = modify ∨ ∃ j e, r = some (i + j) ∧ l[j]? = some e ∧ Mergeable new e) := by
  induction l generalizing i modify with
  | nil =>
    cases hs
    exact ⟨by simp, Or.inl rfl⟩
  | cons elem rest ih =>
    -- An entry of the rest is one further away.
    have hshift : ∀ {modify'}, scan new (i + 1) modify' rest = .ok r →
        r = modify' ∨ ∃ j e, r = some (i + j) ∧ (elem :: rest)[j]? = some e ∧ Mergeable new e := by
      intro modify' hs
      rcases (ih hs).2 with h | ⟨j, e, hr, hj, he⟩
      · exact Or.inl h
      · exact Or.inr ⟨j + 1, e, by rw [hr]; congr 1; omega, by simpa using hj, he⟩
    unfold scan at hs
    split at hs
    · rename_i hm
      have hno : ¬ InWay new elem := fun h => h.1 hm
      split at hs
      · rename_i hmerge
        refine ⟨List.forall_mem_cons.mpr ⟨hno, (ih hs).1⟩, Or.inr ?_⟩
        rcases hshift hs with h | h
        · exact ⟨0, elem, h, rfl, hm, hmerge⟩
        · exact h
      · exact ⟨List.forall_mem_cons.mpr ⟨hno, (ih hs).1⟩, hshift hs⟩
    · split at hs
      · cases hs
      · rename_i hno
        exact ⟨List.forall_mem_cons.mpr ⟨fun h => hno h.2, (ih hs).1⟩, hshift hs⟩

/-- An entry that is stretched has what it had and what is new. -/
theorem has_stretch (h : Mergeable new e) (x : Nat) :
    (stretch new e).Has x ↔ e.Has x ∨ new.Has x := by
  obtain ⟨-, -, h1, h2⟩ := h
  unfold Lock.Has stretch
  simp only
  split <;> split <;> omega

theorem holds_modify {i : Nat} (hi : l[i]? = some e) (h : Mergeable new e) (x m : Nat) (t : Fin 9) :
    holds (l.modify i (stretch new)) x m t ↔
      holds l x m t ∨ (new.Has x ∧ m = new.mandate ∧ t = new.type) := by
  induction l generalizing i with
  | nil => cases hi
  | cons elem rest ih =>
    cases i with
    | zero =>
      simp only [List.getElem?_cons_zero, Option.some.injEq] at hi
      subst hi
      simp only [List.modify_zero_cons, holds_cons, has_stretch h]
      simp only [stretch, h.1, h.2.1]
      tauto
    | succ i =>
      simp only [List.getElem?_cons_succ] at hi
      rw [List.modify_succ_cons, holds_cons, holds_cons, ih hi]
      tauto

/-- A granted lock adds what was asked for, and nothing is in its way. -/
theorem lockAdd_spec (hs : lockAdd anchor new true = .ok anchor') :
    (∀ e ∈ anchor, ¬ InWay new e) ∧
    ∀ x m t, holds anchor' x m t ↔ (holds anchor).add new.Has new.mandate new.type x m t := by
  unfold lockAdd at hs
  cases hscan : scan new 0 none anchor with
  | error e =>
    rw [hscan] at hs
    cases hs
  | ok modify =>
    rw [hscan] at hs
    obtain ⟨hno, hmodify⟩ := scan_spec hscan
    refine ⟨hno, fun x m t => ?_⟩
    rcases hmodify with rfl | ⟨i, e, rfl, hi, he⟩
    · cases hs
      rw [holds_cons, Holdings.add, or_comm, eq_comm (a := new.mandate), eq_comm (a := new.type)]
    · cases hs
      rw [Nat.zero_add, holds_modify hi he, Holdings.add]

/-- Nobody else holds anything in the range of `new` that conflicts with it. -/
theorem free_of_not_inWay (h : ∀ e ∈ anchor, ¬ InWay new e) {x m : Nat} {t : Fin 9}
    (hx : new.Has x) (hm : m ≠ new.mandate) (hholds : holds anchor x m t) :
    conflicts t new.type = false := by
  obtain ⟨e, he, hex, rfl, rfl⟩ := hholds
  rw [Bool.eq_false_iff]
  intro hc
  exact h e he ⟨hm, lt_of_le_of_lt hx.1 hex.2, lt_of_le_of_lt hex.1 hx.2, hc⟩

/-! ## `lock_sub` -/

/-- Nothing is held afterwards that was not held before. -/
theorem holds_lockSub (l : List Lock) {x m : Nat} {t : Fin 9} (h : holds (lockSub new l) x m t) :
    holds l x m t := by
  fun_induction lockSub new l with
  | case1 => exact h
  | case2 elem rest hover hlow lower hup ih =>
    rw [holds_cons, holds_cons] at h
    rw [holds_cons]
    rcases h with ⟨hx, hm, ht⟩ | ⟨hx, hm, ht⟩ | h
    · exact Or.inl ⟨⟨hover.2.2.le.trans hx.1, hx.2⟩, hm, ht⟩
    · exact Or.inl ⟨⟨hx.1, hx.2.trans hover.2.1⟩, hm, ht⟩
    · exact Or.inr (ih h)
  | case3 elem rest hover hlow lower hup ih =>
    rw [holds_cons] at h ⊢
    rcases h with ⟨hx, hm, ht⟩ | h
    · exact Or.inl ⟨⟨hx.1, hx.2.trans hover.2.1⟩, hm, ht⟩
    · exact Or.inr (ih h)
  | case4 elem hover hlow hgone => exact absurd h (by simp [holds])
  | case5 elem hover hlow hgone elem' rest ih =>
    rw [holds_cons] at h
    rw [holds_cons, holds_cons]
    rcases h with h | h
    · exact Or.inr (Or.inl h)
    · exact Or.inr (Or.inr (ih h))
  | case6 elem rest hover hlow hgone ih =>
    rw [holds_cons] at h ⊢
    rcases h with ⟨hx, hm, ht⟩ | h
    · exact Or.inl ⟨⟨hover.2.2.le.trans hx.1, hx.2⟩, hm, ht⟩
    · exact Or.inr (ih h)
  | case7 elem rest hover ih =>
    rw [holds_cons] at h ⊢
    exact h.imp_right ih

/-! ## Whole runs -/

def Safe (anchor : List Lock) : Prop := (holds anchor).Compatible conflicts

theorem Safe.lockAdd {doModify : Bool} (h : Safe anchor)
    (hs : lockAdd anchor new doModify = .ok anchor') : Safe anchor' := by
  cases doModify with
  | true =>
    obtain ⟨hno, hholds⟩ := lockAdd_spec hs
    refine Holdings.Compatible.mono (h.add conflicts_comm (D := new.Has) (o := new.mandate)
      (t := new.type) ?_) fun x m t hx => (hholds x m t).mp hx
    exact fun x m t hx hm hheld => free_of_not_inWay hno hx hm hheld
  | false =>
    unfold LockUlinux.lockAdd at hs
    cases hscan : scan new 0 none anchor with
    | error e =>
      rw [hscan] at hs
      cases hs
    | ok modify =>
      rw [hscan] at hs
      cases hs
      exact h

/-- Nothing of the lock is behind the end of the address space. -/
def Lock.Fits (e : Lock) : Prop := e.start ≤ e.stop ∧ e.stop < addrSpace

theorem covers_iff {x : Nat} (h : e.Fits) (hx : x < addrSpace) : e.Covers x ↔ e.Has x := by
  obtain ⟨hle, hstop⟩ := h
  unfold Lock.Covers Lock.Has
  rw [sub64_eq hle hstop]
  unfold sub64 addrSpace at *
  omega

theorem fits_stretch (hnew : new.Fits) (he : e.Fits) : (stretch new e).Fits := by
  unfold Lock.Fits stretch at *
  simp only
  split <;> split <;> omega

theorem fits_lockAdd {doModify : Bool} (hs : lockAdd anchor new doModify = .ok anchor')
    (h : ∀ e ∈ anchor, e.Fits) (hnew : new.Fits) : ∀ e ∈ anchor', e.Fits := by
  unfold lockAdd at hs
  cases hscan : scan new 0 none anchor with
  | error e =>
    rw [hscan] at hs
    cases hs
  | ok modify =>
    rw [hscan] at hs
    cases doModify with
    | false =>
      cases hs
      exact h
    | true =>
      cases modify with
      | none =>
        cases hs
        exact List.forall_mem_cons.mpr ⟨hnew, h⟩
      | some i =>
        cases hs
        intro e he
        obtain ⟨j, hj⟩ := List.mem_iff_getElem?.mp he
        rw [List.getElem?_modify] at hj
        obtain ⟨f, hf, rfl⟩ := Option.map_eq_some_iff.mp hj
        have hfits := h f (List.mem_of_getElem? hf)
        split
        · exact fits_stretch hnew hfits
        · exact hfits

/-- What is cut off leaves the rest below the end, whatever range is unlocked. -/
theorem fits_lockSub (l : List Lock) (h : ∀ e ∈ l, e.Fits) : ∀ e ∈ lockSub new l, e.Fits := by
  fun_induction lockSub new l with
  | case1 => exact h
  | case2 elem rest hover hlow lower hup ih =>
    obtain ⟨⟨hle, hstop⟩, hrest⟩ := List.forall_mem_cons.mp h
    refine List.forall_mem_cons.mpr ⟨⟨hup.le, hstop⟩, List.forall_mem_cons.mpr ⟨⟨hlow.le, ?_⟩, ih hrest⟩⟩
    exact hover.2.1.trans hstop
  | case3 elem rest hover hlow lower hup ih =>
    obtain ⟨⟨hle, hstop⟩, hrest⟩ := List.forall_mem_cons.mp h
    exact List.forall_mem_cons.mpr ⟨⟨hlow.le, hover.2.1.trans hstop⟩, ih hrest⟩
  | case4 elem hover hlow hgone => simp
  | case5 elem hover hlow hgone elem' rest ih =>
    have hrest := (List.forall_mem_cons.mp h).2
    exact List.forall_mem_cons.mpr ⟨(List.forall_mem_cons.mp hrest).1,
      ih (List.forall_mem_cons.mp hrest).2⟩
  | case6 elem rest hover hlow hgone ih =>
    obtain ⟨⟨hle, hstop⟩, hrest⟩ := List.forall_mem_cons.mp h
    exact List.forall_mem_cons.mpr ⟨⟨(not_le.mp hgone).le, hstop⟩, ih hrest⟩
  | case7 elem rest hover ih =>
    obtain ⟨helem, hrest⟩ := List.forall_mem_cons.mp h
    exact List.forall_mem_cons.mpr ⟨helem, ih hrest⟩

/-- Two entries of different mandates that are for one address carry types that the table
allows. -/
def Exclusion (anchor : List Lock) : Prop :=
  ∀ e ∈ anchor, ∀ f ∈ anchor, e.mandate ≠ f.mandate →
    (∃ x < addrSpace, e.Covers x ∧ f.Covers x) → conflicts e.type f.type = false

theorem Safe.exclusion (h : Safe anchor) (hfits : ∀ e ∈ anchor, e.Fits) : Exclusion anchor := by
  rintro e he f hf hne ⟨x, hx, hex, hfx⟩
  exact h x _ _ _ _ hne ⟨e, he, (covers_iff (hfits e he) hx).mp hex, rfl, rfl⟩
    ⟨f, hf, (covers_iff (hfits f hf) hx).mp hfx, rfl, rfl⟩

end Athomux.LockUlinux
