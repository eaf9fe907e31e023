import Athomux.LockCache.Spec
import Athomux.LockMelt.Removal

/-! # `remove_own_locks` of `#lock_cache` -/

open Lib Athomux.LockList

namespace Athomux.LockCache

open LockMelt

variable {s : LockRecs}

/-- **Removing own locks clears the range and keeps all the rest** if and only if the parts that
are kept of the first own record get a record and a native lock each. A part without a native lock
is lost. -/
theorem cache_removal (h : WellKept s) (mandate start stop : Nat) (obligatory : Bool) :
    (∃ s', removeOwnLocks s (removeDesc mandate start stop obligatory) = some s' ∧
      RestKept (removeDesc mandate start stop obligatory) s.entries s'.entries) ↔
    firstParts (removeDesc mandate start stop obligatory) s.entries ≤ s.free.length ∧
      firstParts (removeDesc mandate start stop obligatory) s.entries ≤ s.lockImp.nFree := by
  obtain ⟨A, F, M, hst, hwf⟩ := h
  rw [hst.rep.entries_eq, hst.rep.free_eq]
  exact removeOwnLocks_iff hst hwf

/-! ## Many records -/

def row (i : Nat) : Desc := ⟨10 * i, 10 * i + 6, ⟨i + 1, ⟨.write, .none⟩, true⟩⟩

/-- `k` mandates have one lock each. -/
def rows : Nat → Option LockRecs
  | 0 => some (LockList.init maxLockRecords fun _ => row 0)
  | k + 1 => (rows k).bind fun s => s.addNew (row k)

/-- The list of `rows k`. -/
structure HasRows (s : LockRecs) (k : Nat) (A : List (Entry Tag)) (F : List Nat) : Prop where
  stores : Stores s A F ∅
  wf : WF A
  mem : ∀ D, (∃ r, (r, D) ∈ A) ↔ ∃ i < k, D = row i
  inj : ∀ e ∈ A, ∀ f ∈ A, e.2 = f.2 → e.1 = f.1
  free : s.lockImp.nFree + k = nNativeLocks
  records : F.length + k = maxLockRecords

theorem row_tag {i j : Nat} (h : (row i).tag.mandate = (row j).tag.mandate) : i = j :=
  Nat.succ_injective h

theorem rows_spec {k : Nat} (hk : k ≤ nNativeLocks) : ∃ s A F, rows k = some s ∧ HasRows s k A F := by
  induction k with
  | zero =>
    refine ⟨LockList.init maxLockRecords fun _ => row 0, [], List.range maxLockRecords, rfl, ?_⟩
    exact ⟨stores_init _, ⟨List.Pairwise.nil, by simp, by simp⟩, by simp, by simp,
      LockNative.nFree_init, by rw [List.length_range, Nat.add_zero]⟩
  | succ k ih =>
    obtain ⟨s, A, F, hs, h⟩ := ih (by omega)
    have hF : F ≠ [] := by
      refine List.ne_nil_of_length_pos ?_
      have := h.records
      unfold nNativeLocks at hk
      unfold maxLockRecords at this
      omega
    obtain ⟨s', hs'⟩ := exists_addNew h.stores (row k) hF
    obtain ⟨r, F', rfl, hr, hst, hfree⟩ := h.stores.addNew hs'
    have hpos : 0 < s.lockImp.nFree := by
      have := h.free
      omega
    rw [insNew, if_neg hpos.ne'] at hst
    have hnew : ∀ e ∈ A, ∃ i < k, e.2 = row i := fun e he => (h.mem _).mp ⟨e.1, he⟩
    have hother : ∀ e ∈ A, e.2.tag.mandate ≠ (row k).tag.mandate := by
      intro e he heq
      obtain ⟨i, hi, hei⟩ := hnew e he
      rw [hei] at heq
      exact hi.ne (row_tag heq)
    refine ⟨s', _, F', by rw [rows, hs]; exact hs', hst, ⟨h.wf.sorted.ins _, ?_, ?_⟩, ?_, ?_, ?_, ?_⟩
    · intro e he
      rcases mem_ins.mp he with rfl | he
      · exact Nat.lt_add_of_pos_right (by decide)
      · exact h.wf.nonempty e he
    · intro e he f hf hne hm
      rcases mem_ins.mp he with rfl | heA <;> rcases mem_ins.mp hf with rfl | hfA
      · exact absurd rfl hne
      · exact absurd hm.symm (hother f hfA)
      · exact absurd hm (hother e heA)
      · exact h.wf.disjoint e heA f hfA hne hm
    · intro D
      simp only [mem_ins, Prod.mk.injEq, exists_or, exists_eq_left, h.mem, Nat.lt_succ_iff_lt_or_eq,
        or_and_right]
      rw [or_comm]
    · intro e he f hf hef
      rcases mem_ins.mp he with rfl | heA <;> rcases mem_ins.mp hf with rfl | hfA
      · rfl
      · exact absurd (congrArg (fun D => D.tag.mandate) hef.symm) (hother f hfA)
      · exact absurd (congrArg (fun D => D.tag.mandate) hef) (hother e heA)
      · exact h.inj e heA f hfA hef
    · have := h.free
      omega
    · have := h.records
      simp only [List.length_cons] at this
      omega

theorem HasRows.parts {k i : Nat} {A : List (Entry Tag)} {F : List Nat} (h : HasRows s k A F)
    (hi : i < k) : firstParts (removeDesc (i + 1) (10 * i + 2) (10 * i + 4) true) A = 2 := by
  obtain ⟨r, hr⟩ := (h.mem (row i)).mpr ⟨i, hi, rfl⟩
  have hover : (row i).Overlaps (removeDesc (i + 1) (10 * i + 2) (10 * i + 4) true) := by
    simp only [row, removeDesc, LockDesc.Overlaps]
    omega
  obtain ⟨q, R, hfirst⟩ := exists_firstTurn h.stores h.wf
    (fun hp : Passed (removeDesc (i + 1) (10 * i + 2) (10 * i + 4) true) A => hp _ hr rfl hover)
  obtain ⟨j, hj, rfl⟩ := (h.mem R).mp ⟨q, hfirst.mem⟩
  obtain rfl : j = i := Nat.succ_injective hfirst.own
  rw [hfirst.parts, partCount, if_pos (by simp only [row, removeDesc]; omega),
    if_pos (by simp only [row, removeDesc]; omega)]

/-- Two mandates have a lock each, and a range inside of one of them is unlocked. -/
theorem cache_removal_two : ∃ s, rows 2 = some s ∧ ∃ s',
    removeOwnLocks s (removeDesc 1 2 4 true) = some s' ∧
      RestKept (removeDesc 1 2 4 true) s.entries s'.entries := by
  obtain ⟨s, A, F, hs, h⟩ := rows_spec (k := 2) (by decide)
  refine ⟨s, hs, (cache_removal ⟨A, F, ∅, h.stores, h.wf⟩ 1 2 4 true).mpr ?_⟩
  rw [h.stores.rep.entries_eq, h.stores.rep.free_eq]
  have hparts : firstParts (removeDesc 1 2 4 true) A = 2 := h.parts (i := 0) (by decide)
  have hfree := h.free
  have hrecords := h.records
  unfold nNativeLocks at hfree
  unfold maxLockRecords at hrecords
  omega

/-- The list has a lock for each of 128 mandates, so no native lock is left: what a mandate does not
unlock is lost. -/
theorem cache_removal_loses : ∃ s s', rows 128 = some s ∧ WellKept s ∧
    removeOwnLocks s (removeDesc 1 2 4 true) = some s' ∧
    ¬ RestKept (removeDesc 1 2 4 true) s.entries s'.entries := by
  obtain ⟨s, A, F, hs, h⟩ := rows_spec (k := 128) (by decide)
  have hparts : firstParts (removeDesc 1 2 4 true) A = 2 := h.parts (i := 0) (by decide)
  have hrecords := h.records
  have hfree := h.free
  unfold maxLockRecords at hrecords
  unfold nNativeLocks at hfree
  obtain ⟨s', hs'⟩ := exists_removeOwnLocks h.stores h.wf (by rw [hparts]; omega)
  refine ⟨s, s', hs, ⟨A, F, ∅, h.stores, h.wf⟩, hs', fun hkept => ?_⟩
  rw [h.stores.rep.entries_eq] at hkept
  have hnat := ((removeOwnLocks_iff h.stores h.wf).mp ⟨s', hs', hkept⟩).2
  omega

end Athomux.LockCache
