import Athomux.LockCache.Steps
import Athomux.LockCache.Unlock

/-! # The range that `$lock` grants -/

open Lib Athomux.LockList

namespace Athomux.LockCache

open LockMelt

variable {s t : Sys} {a : LockArgs} {loop : Bool} {A : List (Entry Tag)} {F : List Nat}
  {x len : Nat}

/-! ## The answer -/

/-- `try_addr` and `try_len` after `$lock` with the mutex, if it succeeds without a wait. -/
def searchAnswer (list : LockRecs) (a : LockArgs) : Option (Nat × Nat) :=
  match list.findFirstLock a.obl isConflict with
  | none => some ((granted list a).start, (granted list a).stop - (granted list a).start)
  | some _ => if 0 < a.obl.stop - a.obl.start then none else some (a.logAddr, 0)

/-- The same for all of `$lock`. -/
def lockAnswer (list : LockRecs) (a : LockArgs) : Option (Nat × Nat) :=
  if !lockCheck a then none
  else if noEffect a then some (a.tryAddr, a.tryLen)
  else searchAnswer list a

/-- `$lock` is finished with this answer. -/
theorem search_answer (hs : search s a loop = some t)
    (ha : searchAnswer s.list a = some (x, len)) :
    ∃ list, t = finish { s with list := list } loop x len := by
  unfold searchAnswer at ha
  rcases search_cases hs with ⟨list, hmelts, -, rfl⟩ | ⟨hno, -⟩
  · rw [hmelts.1] at ha
    cases ha
    exact ⟨list, rfl⟩
  · unfold search at hs
    split at hs
    · rename_i hfind
      rw [hfind] at ha
      cases ha
      simp only [grant] at hs
      split at hs
      · rename_i hmelt
        exact absurd ⟨hfind, hmelt⟩ hno
      · exact ⟨s.list, (Option.some.inj hs).symm⟩
    · rename_i conflictor hfind
      rw [hfind] at ha
      simp only at ha
      split at ha
      · cases ha
      · rename_i hlen
        rw [if_neg hlen] at hs
        cases ha
        exact ⟨s.list, (Option.some.inj hs).symm⟩

theorem lock_answer (hs : lock s a loop = some t) (ha : lockAnswer s.list a = some (x, len)) :
    ∃ list, t = finish { s with list := list } loop x len := by
  unfold lockAnswer at ha
  unfold lock at hs
  split at ha
  · cases ha
  · rename_i hcheck
    rw [if_neg hcheck] at hs
    split at ha
    · rename_i heff
      rw [if_pos heff] at hs
      cases ha
      exact ⟨s.list, (Option.some.inj hs).symm⟩
    · rename_i heff
      rw [if_neg heff] at hs
      exact search_answer hs ha

/-! ## What is granted -/

/-- The list can be walked through and is sorted by start. -/
def SortedList (list : LockRecs) : Prop := ∃ F, Rep list list.entries F ∧ Sorted list.entries

/-- The range `g` is granted to the request. -/
structure Granted (A : List (Entry Tag)) (a : LockArgs) (g : Desc) : Prop where
  obligatory : g.start ≤ a.obl.start ∧ a.obl.stop ≤ g.stop
  optional : a.opt.start ≤ g.start ∧ g.stop ≤ a.opt.stop
  clear : ∀ e ∈ A, isConflict e.2 a.obl = true → ∀ x, g.Has x → ¬ e.2.Has x
  /-- A conflicting record ends where the range starts, or goes over that. -/
  cutStart : g.start ≠ a.opt.start →
    ∃ e ∈ A, isConflict e.2 a.obl = true ∧ (e.2.stop = g.start ∨ e.2.Has g.start)
  /-- A conflicting record starts where the range ends, or goes over that. -/
  cutStop : g.stop ≠ a.opt.stop →
    ∃ e ∈ A, isConflict e.2 a.obl = true ∧ (e.2.start = g.stop ∨ e.2.Has g.stop)

/-- The range of an answer. -/
def answerRange (a : LockArgs) (x len : Nat) : Desc := ⟨x, add64 x len, a.obl.tag⟩

theorem obl_between (hcheck : lockCheck a = true) : Between a.obl a.opt a.obl := by
  simp only [lockCheck, Bool.and_eq_true, Bool.not_eq_true', Bool.or_eq_false_iff,
    decide_eq_false_iff_not, Nat.not_lt] at hcheck
  exact ⟨hcheck.2.1, Nat.le_refl _, Nat.le_refl _, hcheck.2.2, rfl⟩

theorem obl_le (hcheck : lockCheck a = true) : a.obl.start ≤ a.obl.stop := by
  simp only [lockCheck, Bool.and_eq_true, Bool.not_eq_true', Bool.or_eq_false_iff,
    decide_eq_false_iff_not, Nat.not_lt] at hcheck
  exact hcheck.1.2

/-- Nothing conflicts with a request for nothing. -/
theorem not_conflict_none {d e : Desc} (h : d.tag.type = ⟨.none, .none⟩) :
    isConflict e d = false := by
  have hno : ∀ u : LockType, LockType.conflicts ⟨.none, .none⟩ u = false := by
    intro u
    rw [← Bool.not_eq_true, LockType.conflicts_iff]
    simp [LockT.Conflict]
  rw [isConflict, h, hno, Bool.and_false]

/-- The range that is granted when the way is free. -/
theorem granted_range {list : LockRecs} (h : SortedList list) (hcheck : lockCheck a = true)
    (hfind : list.findFirstLock a.obl isConflict = none) : Granted list.entries a (granted list a) := by
  obtain ⟨F, hrep, hsort⟩ := h
  have hsub := obl_between hcheck
  have hclear : Clear isConflict list.entries a.obl := by
    intro e he hover
    rw [hrep.findFirstLock, Option.map_eq_none_iff] at hfind
    exact findEntry_none hsort hfind e he hover
  obtain ⟨hbetween, hclear'⟩ := cutOptional_spec tagOnly_isConflict hrep hsort hsub rfl hclear
  obtain ⟨hstart, hstop⟩ := cutOptional_cut (s := list) tagOnly_isConflict hrep hsub
  refine ⟨⟨hbetween.leStart, hbetween.leStop⟩, ⟨hbetween.startLe, hbetween.stopLe⟩, ?_, ?_, ?_⟩
  · intro e he hconf y hy hey
    have hno := hclear' e he ⟨lt_of_le_of_lt hey.1 hy.2, lt_of_le_of_lt hy.1 hey.2⟩
    rw [tagOnly_isConflict e.2 _ a.obl hbetween.tag, hconf] at hno
    cases hno
  · intro hne
    obtain ⟨e, he, hconf, heq⟩ := hstart.resolve_left hne
    exact ⟨e, he, hconf, Or.inl heq⟩
  · intro hne
    obtain ⟨e, he, hconf, heq⟩ := hstop.resolve_left hne
    exact ⟨e, he, hconf, Or.inl heq⟩

theorem Granted.congr {g g' : Desc} (h : Granted A a g) (hstart : g'.start = g.start)
    (hstop : g'.stop = g.stop) : Granted A a g' := by
  obtain ⟨start, stop, tag⟩ := g
  obtain ⟨start', stop', tag'⟩ := g'
  obtain rfl : start' = start := hstart
  obtain rfl : stop' = stop := hstop
  exact ⟨h.obligatory, h.optional, h.clear, h.cutStart, h.cutStop⟩

/-- An empty obligatory part inside of a lock. -/
theorem granted_inside {list : LockRecs} {r : Nat} {g : Desc} (h : SortedList list)
    (hcheck : lockCheck a = true) (hfind : list.findFirstLock a.obl isConflict = some r)
    (hempty : a.obl.stop = a.obl.start) (hstart : g.start = a.obl.start)
    (hstop : g.stop = a.obl.start) : Granted list.entries a g := by
  obtain ⟨F, hrep, hsort⟩ := h
  have hsub := obl_between hcheck
  obtain ⟨R, hR, hover, hconf⟩ := hrep.find_active hrep.active_first hfind
  have hhas : R.Has a.obl.start := ⟨(hempty ▸ hover.1).le, hover.2⟩
  refine ⟨⟨hstart.le, by rw [hempty, hstop]⟩, ⟨hsub.startLe.trans hstart.ge, ?_⟩, ?_, ?_, ?_⟩
  · rw [hstop, ← hempty]
    exact hsub.stopLe
  · intro e he _ y hy
    exact absurd (lt_of_le_of_lt hy.1 hy.2) (by rw [hstart, hstop]; exact lt_irrefl _)
  · intro _
    exact ⟨_, hR, hconf, Or.inr (hstart ▸ hhas)⟩
  · intro _
    exact ⟨_, hR, hconf, Or.inr (hstop ▸ hhas)⟩

/-- **The range that a successful `$lock` grants** has all of the obligatory part, is inside of the
optional part, has no address of a conflicting record, and was cut back only up to such records. -/
theorem granted_maximal {list : LockRecs} (h : SortedList list)
    (ha : lockAnswer list a = some (x, len)) : Granted list.entries a (answerRange a x len) := by
  unfold lockAnswer at ha
  split at ha
  · cases ha
  rename_i hcheck
  rw [Bool.not_eq_true, Bool.not_eq_false'] at hcheck
  have hsub := obl_between hcheck
  have hstop : a.opt.stop < addrSpace := add64_lt _ _
  split at ha
  · rename_i heff
    cases ha
    refine ⟨⟨hsub.startLe, hsub.stopLe⟩, ⟨Nat.le_refl _, Nat.le_refl _⟩, ?_,
      fun hne => absurd rfl hne, fun hne => absurd rfl hne⟩
    intro e he hconf y hy
    simp only [noEffect, Bool.or_eq_true, beq_iff_eq, Bool.and_eq_true] at heff
    rcases heff with hempty | ⟨hdata, haddr⟩
    · have hlt : a.opt.start < a.opt.stop := lt_of_le_of_lt hy.1 hy.2
      omega
    · rw [not_conflict_none (by simp [LockArgs.obl, hdata, haddr])] at hconf
      cases hconf
  · unfold searchAnswer at ha
    split at ha
    · rename_i hfind
      cases ha
      have hg := granted_range h hcheck hfind
      refine hg.congr rfl ?_
      have h1 := hg.obligatory
      have h2 := hg.optional
      have h3 := hsub.leStop
      have hobl := obl_le hcheck
      simp only [answerRange]
      rw [add64_eq (by omega)]
      omega
    · rename_i r hfind
      split at ha
      · cases ha
      · rename_i hlen
        cases ha
        have hobl := obl_le hcheck
        have hstopLe := hsub.stopLe
        have hempty : a.obl.stop = a.obl.start := by omega
        refine granted_inside h hcheck hfind hempty rfl ?_
        simp only [answerRange]
        rw [add64_eq (by change a.obl.start + 0 < _; omega)]
        rfl

/-- Between the locks of two mandates. -/
theorem granted_maximal_between : ∃ list, rows 2 = some list ∧
    Granted list.entries ⟨3, 8, 1, 0, 16, .read, .none, .try⟩
      (answerRange ⟨3, 8, 1, 0, 16, .read, .none, .try⟩ 6 4) := by
  obtain ⟨list, A, F, hs, h⟩ := rows_spec (k := 2) (by decide)
  have hsorted : SortedList list := ⟨F, by rw [h.stores.rep.entries_eq]; exact h.stores.rep,
    by rw [h.stores.rep.entries_eq]; exact h.wf.sorted⟩
  have hrun : (rows 2).bind (lockAnswer · ⟨3, 8, 1, 0, 16, .read, .none, .try⟩) = some (6, 4) := by
    decide +kernel
  rw [hs] at hrun
  exact ⟨list, hs, granted_maximal hsorted hrun⟩

end Athomux.LockCache
