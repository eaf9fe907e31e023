import Athomux.LockList.Rep

/-! # Taking locks away and leaving parts of them -/

open Lib

namespace Athomux.LockList

variable {τ : Type} {n : Nat} {s s' : LockList τ n} {A : List (Entry τ)} {F : List Nat}

/-! ## A new entry -/

/-- The list with a new record for `d` in it, unless there is no native lock. -/
def insNew (s : LockList τ n) (r : Nat) (d : LockDesc τ) (A : List (Entry τ)) :
    List (Entry τ) :=
  if s.lockImp.nFree = 0 then A else ins (r, d) A

theorem Rep.addNew {d : LockDesc τ} (h : Rep s A F) (hs : s.addNew d = some s') :
    ∃ r F', F = r :: F' ∧ r ∉ A.map Prod.fst ∧ Rep s' (insNew s r d A) F' := by
  unfold LockList.addNew at hs
  simp only [Option.bind_eq_bind, Option.bind_eq_some_iff, Prod.exists, Option.pure_def,
    Option.some.injEq] at hs
  obtain ⟨r, s1, hnew, rfl⟩ := hs
  obtain ⟨F', rfl, h1, -, himp, -⟩ := h.newLockRec hnew
  have hr : r ∉ A.map Prod.fst := fun hA => h.disjoint hA List.mem_cons_self
  have hrF : r ∉ F' := (List.nodup_cons.mp (List.nodup_append.mp h.nodup).2.1).1
  have h2 := h1.setLockDesc_of_not_mem hr d
  refine ⟨r, F', rfl, hr, ?_⟩
  have h3 := h2.addLockRec hr hrF (h.bound r (by simp))
  have hdesc : (s1.setLockDesc r d).desc r = d := Function.update_self ..
  rw [hdesc, show (s1.setLockDesc r d).lockImp = s.lockImp from himp] at h3
  exact h3

theorem copy_eq (s : LockList τ n) (lock : Nat) (f : LockDesc τ → LockDesc τ) :
    (s.copyLockRec lock).map (fun p => (p.2.setLockDesc p.1 (f (p.2.desc p.1))).addLockRec p.1) =
      s.addNew (f (s.desc lock)) := by
  unfold copyLockRec LockList.addNew newLockRec
  cases s.freeLockRecs with
  | none => rfl
  | some r => simp [setLockDesc, Function.update_idem]

theorem keepLower_eq (s : LockList τ n) (lock x : Nat) :
    s.keepLower lock x = if (s.desc lock).start < x then
      s.addNew { s.desc lock with stop := x } else some s := by
  rw [← copy_eq s lock fun d => { d with stop := x }]
  unfold keepLower
  cases s.copyLockRec lock <;> rfl

theorem keepUpper_eq (s : LockList τ n) (lock x : Nat) :
    s.keepUpper lock x = if x < (s.desc lock).stop then
      s.addNew { s.desc lock with start := x } else some s := by
  rw [← copy_eq s lock fun d => { d with start := x }]
  unfold keepUpper
  cases s.copyLockRec lock <;> rfl

theorem mem_insNew {r : Nat} {d : LockDesc τ} {e : Entry τ} (h : e ∈ insNew s r d A) :
    e = (r, d) ∨ e ∈ A := by
  unfold insNew at h
  split at h
  · exact Or.inr h
  · exact mem_ins.mp h

theorem mem_insNew_of_mem {r : Nat} {d : LockDesc τ} {e : Entry τ} (h : e ∈ A) :
    e ∈ insNew s r d A := by
  unfold insNew
  split
  · exact h
  · exact mem_ins.mpr (Or.inr h)

theorem sorted_insNew (h : Sorted A) (s : LockList τ n) (r : Nat) (d : LockDesc τ) :
    Sorted (insNew s r d A) := by
  unfold insNew
  split
  · exact h
  · exact h.ins _

/-- What is kept of a lock when `c` holds: one entry more at most. -/
theorem Rep.addNew_if {c : Prop} [Decidable c] {d : LockDesc τ} (h : Rep s A F)
    (hs : (if c then s.addNew d else some s) = some s') :
    ∃ q A' F', Rep s' A' F' ∧ q ∉ A.map Prod.fst ∧ (Sorted A → Sorted A') ∧ (∀ e ∈ A, e ∈ A') ∧
      ∀ e ∈ A', e ∈ A ∨ c ∧ e = (q, d) := by
  split at hs
  · rename_i hc
    obtain ⟨q, F', -, hq, hrep⟩ := h.addNew hs
    refine ⟨q, _, F', hrep, hq, fun hsort => sorted_insNew hsort _ _ _, fun e => mem_insNew_of_mem, ?_⟩
    intro e he
    rcases mem_insNew he with he | he
    · exact Or.inr ⟨hc, he⟩
    · exact Or.inl he
  · cases hs
    -- Any reference outside of the storage is a new one.
    refine ⟨n, A, F, h, ?_, id, fun _ => id, fun _ => Or.inl⟩
    intro hn
    exact lt_irrefl n (h.bound n (List.mem_append_left _ hn))

/-! ## Taking a record away -/

theorem Rep.remove_free {r : Nat} (h : Rep s A F) (hr : r ∈ A.map Prod.fst) :
    Rep ((s.removeLockRec r).freeLockRec r) (del r A) (r :: F) := by
  refine (h.removeLockRec hr).freeLockRec ?_ (h.disjoint hr)
    (h.bound r (List.mem_append_left _ hr))
  intro hmem
  obtain ⟨e, he, rfl⟩ := List.mem_map.mp hmem
  exact (mem_del.mp he).2 rfl

/-! ## Where a search starts -/

/-- `NULL_REF` or a record of the list. -/
def Active (A : List (Entry τ)) (lock : Option Nat) : Prop := ∀ r, lock = some r → r ∈ A.map Prod.fst

theorem Rep.active_next (h : Rep s A F) {r : Nat} (hr : r ∈ A.map Prod.fst) :
    Active A (s.links.next r) ∧ s.links.next r ≠ some r := by
  obtain ⟨X, Y, hXY⟩ := List.append_of_mem hr
  have hdll := h.dll
  rw [hXY] at hdll
  have hnd := (List.nodup_cons.mp (List.nodup_middle.mp hdll.nodup)).1
  rw [hdll.next]
  constructor
  · intro q hq
    rw [hXY]
    simp [List.mem_of_mem_head? hq]
  · intro hq
    exact hnd (List.mem_append_right _ (List.mem_of_mem_head? hq))

theorem Rep.find_active {d : LockDesc τ} {requirement : LockDesc τ → LockDesc τ → Bool}
    {lock : Option Nat} {r : Nat} (h : Rep s A F) (hlock : Active A lock)
    (hfind : s.findNextLockFrom lock d requirement = some r) :
    ∃ R, (r, R) ∈ A ∧ R.Overlaps d ∧ requirement R d = true := by
  obtain ⟨X, Y, rfl, hY⟩ : ∃ X Y, A = X ++ Y ∧ (Y.map Prod.fst).head? = lock := by
    cases lock with
    | none => exact ⟨A, [], by simp, rfl⟩
    | some q =>
      obtain ⟨e, he, rfl⟩ := List.mem_map.mp (hlock q rfl)
      obtain ⟨X, Y, rfl⟩ := List.append_of_mem he
      exact ⟨X, e :: Y, rfl, rfl⟩
  rw [← hY, h.findNextLockFrom, Option.map_eq_some_iff] at hfind
  obtain ⟨e, he, rfl⟩ := hfind
  obtain ⟨Z, W, rfl, hover, hreq, -⟩ := findEntry_some he
  exact ⟨e.2, by simp, hover, hreq⟩

theorem Rep.active_first (h : Rep s A F) : Active A s.links.first := by
  intro r hr
  rw [h.dll.first] at hr
  exact List.mem_of_mem_head? hr

end Athomux.LockList
