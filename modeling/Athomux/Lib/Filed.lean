import Mathlib.Data.List.Basic
import Mathlib.Logic.Function.Basic

/-!
# Records in lists

Records are kept in lists, as in the buckets of a hash table, or in one list for each owner. `home`
says for each record in which list it belongs.
-/

namespace Lib

variable {ι κ : Type} [DecidableEq ι] [DecidableEq κ]

variable {home : ι → Option κ} {lists : κ → List ι} {i : ι} {k : κ}

/-! ## Buckets that change -/

omit [DecidableEq ι] in
theorem mem_update_cons {j : ι} {k' : κ} :
    j ∈ Function.update lists k (i :: lists k) k' ↔ k' = k ∧ j = i ∨ j ∈ lists k' := by
  by_cases hk : k' = k
  · subst hk
    simp
  · simp [hk]

omit [DecidableEq ι] in
theorem nodup_update_cons (hnodup : ∀ k, (lists k).Nodup) (hnot : i ∉ lists k) (k' : κ) :
    (Function.update lists k (i :: lists k) k').Nodup := by
  by_cases hk : k' = k
  · subst hk
    rw [Function.update_self]
    exact List.nodup_cons.mpr ⟨hnot, hnodup k'⟩
  · rw [Function.update_of_ne hk]
    exact hnodup k'

omit [DecidableEq ι] in
theorem update_sublist {l : List ι} (hsub : l.Sublist (lists k)) (k' : κ) :
    (Function.update lists k l k').Sublist (lists k') := by
  by_cases hk : k' = k
  · subst hk
    rw [Function.update_self]
    exact hsub
  · rw [Function.update_of_ne hk]

theorem mem_update_erase {j : ι} {k' : κ} (hj : j ∈ lists k') (hne : j ≠ i) :
    j ∈ Function.update lists k ((lists k).erase i) k' := by
  by_cases hk : k' = k
  · subst hk
    rw [Function.update_self]
    exact (List.mem_erase_of_ne hne).mpr hj
  · rw [Function.update_of_ne hk]
    exact hj

theorem update_erase_ne (hnodup : (lists k).Nodup) (hin : i ∈ lists k) :
    Function.update lists k ((lists k).erase i) ≠ lists := by
  intro heq
  have hlist := congrFun heq k
  rw [Function.update_self] at hlist
  rw [← hlist] at hin
  exact (hnodup.mem_erase_iff.mp hin).1 rfl

omit [DecidableEq κ] in
/-- A table of records with a new one. -/
theorem update_eq_some {α : Type} {f : ι → Option α} {j : ι} {x y : α} (hfree : f i = none) :
    Function.update f i (some x) j = some y ↔ j = i ∧ x = y ∨ f j = some y := by
  by_cases hj : j = i
  · subst hj
    simp [hfree]
  · simp [hj]

/-! ## Filed records -/

/-- Every record is once in the list where it belongs, and in no other one. -/
structure Filed (home : ι → Option κ) (lists : κ → List ι) : Prop where
  mem_iff : ∀ k i, i ∈ lists k ↔ home i = some k
  nodup : ∀ k, (lists k).Nodup

/-- A new record is put in front. -/
theorem Filed.add (h : Filed home lists) (hi : home i = none) :
    Filed (Function.update home i (some k)) (Function.update lists k (i :: lists k)) := by
  have hnot : ∀ k, i ∉ lists k := fun k hin => by
    rw [h.mem_iff, hi] at hin
    cases hin
  constructor
  · intro k' j
    by_cases hj : j = i
    · subst hj
      by_cases hk : k' = k
      · subst hk
        simp
      · simp [Function.update_of_ne hk, hnot k', Ne.symm hk]
    · rw [Function.update_of_ne hj]
      by_cases hk : k' = k
      · subst hk
        simp [hj, h.mem_iff]
      · rw [Function.update_of_ne hk, h.mem_iff]
  · exact nodup_update_cons h.nodup (hnot k)

theorem Filed.del (h : Filed home lists) (hi : home i = some k) :
    Filed (Function.update home i none) (Function.update lists k ((lists k).erase i)) := by
  constructor
  · intro k' j
    by_cases hj : j = i
    · subst hj
      by_cases hk : k' = k
      · subst hk
        simp [(h.nodup k').mem_erase_iff]
      · have hne : home j ≠ some k' := fun hc => hk (Option.some.inj (hi.symm.trans hc)).symm
        rw [Function.update_of_ne hk, Function.update_self, h.mem_iff]
        exact iff_of_false hne (by simp)
    · rw [Function.update_of_ne hj]
      by_cases hk : k' = k
      · subst hk
        rw [Function.update_self, (h.nodup k').mem_erase_iff, h.mem_iff]
        exact and_iff_right hj
      · rw [Function.update_of_ne hk, h.mem_iff]
  · exact fun k' => (update_sublist (List.erase_sublist ..) k').nodup (h.nodup k')

omit [DecidableEq ι] [DecidableEq κ] in
theorem Filed.congr {home' : ι → Option κ} (h : Filed home lists) (heq : ∀ i, home i = home' i) :
    Filed home' lists :=
  funext heq ▸ h

/-! ## Taking the first one out -/

omit [DecidableEq ι] [DecidableEq κ] in
/-- Only the first record that is found is gone. -/
theorem find?_of_eraseP {l : List ι} {f : ι → Bool} (hin : i ∈ l) (hout : i ∉ l.eraseP f) :
    l.find? f = some i := by
  induction l with
  | nil => cases hin
  | cons j l ih =>
    rw [List.eraseP_cons] at hout
    rw [List.find?_cons]
    cases hj : f j with
    | true =>
      rw [hj, cond_true] at hout
      simp only
      rcases List.mem_cons.mp hin with rfl | hin
      · rfl
      · exact absurd hin hout
    | false =>
      rw [hj, cond_false, List.mem_cons, not_or] at hout
      simp only
      exact ih ((List.mem_cons.mp hin).resolve_left hout.1) hout.2

omit [DecidableEq ι] [DecidableEq κ] in
theorem not_mem_eraseP {l : List ι} {f : ι → Bool} (hnodup : l.Nodup) (hfind : l.find? f = some i) :
    i ∉ l.eraseP f := by
  induction l with
  | nil => cases hfind
  | cons j l ih =>
    obtain ⟨hj, hnodup⟩ := List.nodup_cons.mp hnodup
    rw [List.find?_cons] at hfind
    rw [List.eraseP_cons]
    split at hfind
    · rename_i hf
      obtain rfl : j = i := Option.some.inj hfind
      rw [hf, cond_true]
      exact hj
    · rename_i hf
      rw [hf, cond_false, List.mem_cons, not_or]
      refine ⟨?_, ih hnodup hfind⟩
      rintro rfl
      rw [List.find?_some hfind] at hf
      cases hf

omit [DecidableEq κ] in
/-- Only `i` is looked for. -/
theorem eraseP_eq_erase {l : List ι} {f : ι → Bool} (hf : ∀ j ∈ l, f j = true ↔ j = i) :
    l.eraseP f = l.erase i := by
  induction l with
  | nil => rfl
  | cons j l ih =>
    obtain ⟨hj, hl⟩ := List.forall_mem_cons.mp hf
    rw [List.eraseP_cons, List.erase_cons]
    by_cases heq : j = i
    · rw [hj.mpr heq, cond_true, if_pos (by simpa using heq)]
    · rw [Bool.eq_false_iff.mpr fun h => heq (hj.mp h), cond_false, if_neg (by simpa using heq),
        ih hl]

end Lib
