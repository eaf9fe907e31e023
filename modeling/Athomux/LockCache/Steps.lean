import Athomux.LockCache.Melt
import Athomux.LockMelt.Safety

/-! # What a step does -/

open Lib Athomux.LockList

namespace Athomux.LockCache

open LockMelt

variable {s t : Sys} {a : LockArgs} {loop : Bool} {type : OpType} {start stop : Nat}

/-! ## `$lock` -/

/-- What `$lock` grants when nothing conflicts with the obligatory part. -/
def granted (list : LockRecs) (a : LockArgs) : Desc := list.cutOptional a.obl a.opt isConflict

/-- `granted` is molten into the list. -/
def Melts (list : LockRecs) (a : LockArgs) : Prop :=
  list.findFirstLock a.obl isConflict = none ∧
    (granted list a).start < (granted list a).stop ∧ a.action ≠ .ask

/-- What a step of `$lock` changes besides the list. -/
inductive Parked (s : Sys) (a : LockArgs) (loop : Bool) : Sys → Prop
  | done (tryAddr tryLen : Nat) : Parked s a loop (finish s loop tryAddr tryLen)
  | refused : Parked s a loop s
  | waiting (native : Nat) : Parked s a loop (s.add (.waiting a loop native))
  | opLock (start stop native : Nat) : Parked s a loop (s.add (.opLock a loop start stop native))
  | sent {s' : Sys} {start stop : Nat} : s.managerRecs.find? (opConflict .lock start stop) = none →
      addManagerRec s .lock start stop = some s' → Parked s a loop (s'.add (.lockSent a loop start stop))

theorem search_cases (hs : search s a loop = some t) :
    (∃ list, Melts s.list a ∧ meltLockIntoList s.list (granted s.list a) = some list ∧
      t = finish { s with list := list } loop (granted s.list a).start
        ((granted s.list a).stop - (granted s.list a).start)) ∨
    (¬ Melts s.list a ∧ Parked s a loop t) := by
  unfold search at hs
  split at hs
  · rename_i hfind
    simp only [grant, Option.bind_eq_bind, Option.pure_def] at hs
    split at hs
    · rename_i hmelt
      simp only [Option.bind_eq_some_iff, Option.some.injEq] at hs
      obtain ⟨list, hlist, rfl⟩ := hs
      exact Or.inl ⟨list, ⟨hfind, hmelt⟩, hlist, rfl⟩
    · rename_i hmelt
      cases hs
      exact Or.inr ⟨fun h => hmelt h.2, .done _ _⟩
  · rename_i conflictor hfind
    refine Or.inr ⟨fun h => ?_, ?_⟩
    · rw [h.1] at hfind
      cases hfind
    · split at hs
      · split at hs
        · cases hs
          exact .refused
        · split at hs
          · cases hs
            exact .waiting _
          · simp only [askManager] at hs
            split at hs
            · cases hs
              exact .opLock _ _ _
            · rename_i hno
              simp only [sendLock, Option.map_eq_some_iff] at hs
              obtain ⟨s', hadd, rfl⟩ := hs
              exact .sent hno hadd
      · cases hs
        exact .done _ _

theorem lock_cases (hs : lock s a loop = some t) :
    (lockCheck a = true ∧ noEffect a = false ∧ search s a loop = some t) ∨
    (t = s ∨ ∃ tryAddr tryLen, t = finish s loop tryAddr tryLen) := by
  unfold lock at hs
  split at hs
  · cases hs
    exact Or.inr (Or.inl rfl)
  · rename_i hcheck
    split at hs
    · cases hs
      exact Or.inr (Or.inr ⟨_, _, rfl⟩)
    · rename_i hno
      exact Or.inl ⟨by simpa using hcheck, by simpa using hno, hs⟩

/-! ## The records and their native locks -/

def Sys.natives (s : Sys) : List Nat := s.managerRecs.map ManagerRec.nativeLock

/-- The list represents `A`, and the records at the lock manager have native locks of
their own, too. -/
structure Lists (s : Sys) (A : List (Entry Tag)) (F : List Nat) : Prop where
  stores : Stores s.list A F s.natives.toFinset
  nodup : s.natives.Nodup

variable {A : List (Entry Tag)} {F : List Nat}

theorem Lists.congr (h : Lists s A F) (hlist : t.list = s.list)
    (hrecs : t.managerRecs = s.managerRecs) : Lists t A F := by
  refine ⟨?_, ?_⟩
  · rw [hlist, Sys.natives, hrecs]
    exact h.stores
  · rw [Sys.natives, hrecs]
    exact h.nodup

theorem Lists.addManagerRec (h : Lists s A F) (hs : addManagerRec s type start stop = some t) :
    Lists t A F ∧ t.list.lockImp.nFree = s.list.lockImp.nFree - 1 := by
  unfold LockCache.addManagerRec at hs
  split at hs
  · cases hs
  · split at hs
    · cases hs
    · rename_i native imp hg
      cases hs
      obtain ⟨hn, hnew⟩ := h.stores.natives.gadr hg
      have hnat : Sys.natives { s with
          list := { s.list with lockImp := imp }
          managerRecs := s.managerRecs ++ [⟨type, start, stop, native⟩] } = s.natives ++ [native] := by
        simp [Sys.natives]
      refine ⟨⟨?_, ?_⟩, ?_⟩
      · rw [hnat, List.toFinset_append, List.toFinset_cons, List.toFinset_nil]
        have : s.natives.toFinset ∪ insert native ∅ = insert native s.natives.toFinset := by
          rw [Finset.union_insert, Finset.union_empty]
        rw [this]
        exact h.stores.lockImp hn
      · rw [hnat]
        refine List.nodup_append.mpr ⟨h.nodup, by simp, ?_⟩
        intro i hi j hj heq
        rw [List.mem_singleton.mp hj] at heq
        exact hnew (List.mem_toFinset.mpr (heq ▸ hi))
      · have := LockNative.gadr_nFree hg
        simp only
        omega

theorem eraseP_natives {l : List ManagerRec} {p : ManagerRec → Bool} {q : ManagerRec}
    (hq : l.find? p = some q) (hnd : (l.map ManagerRec.nativeLock).Nodup) :
    (l.eraseP p).map ManagerRec.nativeLock = (l.map ManagerRec.nativeLock).erase q.nativeLock := by
  induction l with
  | nil => cases hq
  | cons r l ih =>
    rw [List.find?_cons] at hq
    rw [List.map_cons, List.nodup_cons] at hnd
    rw [List.eraseP_cons, List.map_cons, List.erase_cons]
    split at hq
    · rename_i hp
      cases hq
      rw [hp]
      simp
    · rename_i hp
      have hmem : q.nativeLock ∈ l.map ManagerRec.nativeLock :=
        List.mem_map_of_mem (List.mem_of_find?_eq_some hq)
      have hne : r.nativeLock ≠ q.nativeLock := fun heq => hnd.1 (heq ▸ hmem)
      rw [hp, if_neg (by simpa using hne)]
      simp only [cond_false, List.map_cons, ih hq hnd.2]

theorem Lists.removeManagerRec (h : Lists s A F)
    (hs : removeManagerRec s type start stop = some t) :
    Lists t A F ∧ t.mand = s.mand ∧ t.tasks = s.tasks ∧ t.manager = s.manager ∧
      t.list.lockImp.nFree = s.list.lockImp.nFree + 1 := by
  unfold LockCache.removeManagerRec at hs
  simp only [Option.bind_eq_bind, Option.bind_eq_some_iff, Option.pure_def, Option.some.injEq] at hs
  obtain ⟨p, hp, imp, himp, rfl⟩ := hs
  have hmem : p.nativeLock ∈ s.natives := List.mem_map_of_mem (List.mem_of_find?_eq_some hp)
  obtain ⟨hn, hcount⟩ := h.stores.natives.padr (List.mem_toFinset.mpr hmem) himp
  have hnat := eraseP_natives hp h.nodup
  refine ⟨⟨?_, ?_⟩, rfl, rfl, rfl, hcount⟩
  · have hfin : (s.natives.erase p.nativeLock).toFinset = s.natives.toFinset.erase p.nativeLock := by
      ext i
      rw [List.mem_toFinset, h.nodup.mem_erase_iff, Finset.mem_erase, List.mem_toFinset]
    rw [Sys.natives, hnat]
    simp only
    rw [show s.managerRecs.map ManagerRec.nativeLock = s.natives from rfl, hfin]
    exact h.stores.lockImp hn
  · rw [Sys.natives, hnat]
    exact h.nodup.erase _

theorem Lists.finish (h : Lists s A F) (loop : Bool) (tryAddr tryLen : Nat) :
    Lists (finish s loop tryAddr tryLen) A F := by
  unfold LockCache.finish
  split
  · exact h.congr rfl rfl
  · exact h

/-- A step of `$lock` that grants nothing leaves the list as it is. -/
theorem Lists.parked (h : Lists s A F) (hp : Parked s a loop t) : Lists t A F := by
  cases hp with
  | done tryAddr tryLen => exact h.finish _ _ _
  | refused => exact h
  | waiting native => exact h.congr rfl rfl
  | opLock start stop native => exact h.congr rfl rfl
  | sent hno hadd => exact (h.addManagerRec hadd).1.congr rfl rfl

/-! ## The start -/

/-- At the start there is at most the record of the lock manager. -/
theorem outputInit_spec {mand : Nat} {lockAllOnInit : Bool} {desc : Nat → Desc}
    (h : outputInit mand lockAllOnInit desc = some s) :
    s.mand = mand ∧ s.managerRecs = [] ∧ s.tasks = [] ∧ ∃ A F, Lists s A F ∧ WF A ∧
      (∀ e ∈ A, e.2 = removeDesc mand 0 allStop false) ∧
      ((A ≠ [] ∧ s.manager = []) ∨ (A = [] ∧ s.manager = [(true, 0, allStop)])) ∧
      A.length + F.length = maxLockRecords := by
  unfold outputInit at h
  simp only [Option.bind_eq_bind, Option.bind_eq_some_iff, Option.pure_def] at h
  obtain ⟨list, hnew, h⟩ := h
  have hpos : 0 < allStop := by decide
  have hinit := stores_init (n := maxLockRecords) desc
  obtain ⟨r, F, hF, -, hst, -⟩ := hinit.addNew hnew
  have hins : insNew (LockList.init maxLockRecords desc) r (removeDesc mand 0 allStop false) [] =
      [(r, removeDesc mand 0 allStop false)] := by
    have hfree : (LockList.init maxLockRecords desc).lockImp.nFree = nNativeLocks :=
      LockNative.nFree_init
    rw [insNew, if_neg (by rw [hfree]; decide)]
    rfl
  have hlen : F.length + 1 = maxLockRecords := by
    have := congrArg List.length hF
    simpa using this.symm
  rw [hins] at hst
  have hwf : WF [(r, removeDesc mand 0 allStop false)] := by
    refine ⟨List.pairwise_singleton _ _, ?_, by simp⟩
    simp only [List.mem_singleton, forall_eq]
    exact hpos
  split at h
  · simp only [Option.bind_eq_some_iff, Option.some.injEq] at h
    obtain ⟨list', hrem, rfl⟩ := h
    have hparts : firstParts (removeDesc mand 0 allStop false)
        [(r, removeDesc mand 0 allStop false)] = 0 := by
      unfold firstParts
      split
      · rename_i e hfind
        obtain ⟨X, Y, hXY, -⟩ := findEntry_some hfind
        have he : e ∈ [(r, removeDesc mand 0 allStop false)] := by simp [hXY]
        rw [List.mem_singleton.mp he]
        simp [partCount]
      · rfl
    obtain ⟨A', F', hst', hrem', hpass, hlen'⟩ := removeOwnLocks_spec False hst hwf
      (Or.inl hpos.le) (by rw [hparts]; exact fun h => absurd h (Nat.not_lt_zero _)) hrem
    have hempty : A' = [] := by
      refine List.eq_nil_iff_forall_not_mem.mpr fun e he => ?_
      by_cases ho : Own (removeDesc mand 0 allStop false) e
      · -- What is left would be a part of the record, so it would overlap the range.
        have hne := hrem'.nonempty e he ho
        obtain ⟨f, hf, -, -, hfx⟩ := hrem'.piece e he ho e.2.start ⟨Nat.le_refl _, hne⟩
        rw [List.mem_singleton.mp hf] at hfx
        exact hpass e he ho ⟨hfx.2, lt_of_le_of_lt hfx.1 hne⟩
      · have := (hrem'.foreign e ho).mp he
        rw [List.mem_singleton.mp this] at ho
        exact ho rfl
    subst hempty
    refine ⟨rfl, rfl, rfl, [], F', ⟨hst', List.nodup_nil⟩, ⟨List.Pairwise.nil, by simp, by simp⟩,
      by simp, Or.inr ⟨rfl, rfl⟩, ?_⟩
    rw [hparts] at hlen'
    simp only [List.length_nil, List.length_singleton] at hlen' ⊢
    omega
  · cases h
    refine ⟨rfl, rfl, rfl, _, F, ⟨hst, List.nodup_nil⟩, hwf, by simp, Or.inl ⟨by simp, rfl⟩, ?_⟩
    simp only [List.length_singleton]
    omega

/-! ## Requests that are past the checks -/

/-- The request that the task is for. -/
def Task.args : Task → Option LockArgs
  | .waiting a .. => some a
  | .opLock a .. => some a
  | .lockSent a .. => some a
  | .lockAnswered a .. => some a
  | _ => none

def Checked (s : Sys) : Prop := ∀ u ∈ s.tasks, ∀ a, u.args = some a → lockCheck a = true

theorem Checked.add (h : Checked s) {u : Task} (hu : ∀ a, u.args = some a → lockCheck a = true) :
    Checked (s.add u) := by
  intro v hv a ha
  rcases List.mem_cons.mp hv with rfl | hv
  · exact hu a ha
  · exact h v hv a ha

theorem Checked.drop (h : Checked s) (i : Nat) : Checked (s.drop i) :=
  fun u hu => h u (List.mem_of_mem_eraseIdx hu)

theorem Checked.congr (h : Checked s) (htasks : t.tasks = s.tasks) : Checked t := by
  intro u hu
  rw [htasks] at hu
  exact h u hu

theorem Checked.finish (h : Checked s) (loop : Bool) (tryAddr tryLen : Nat) :
    Checked (finish s loop tryAddr tryLen) := by
  unfold LockCache.finish
  split
  · exact h.add fun a ha => by cases ha
  · exact h

theorem addManagerRec_frame (hs : addManagerRec s type start stop = some t) :
    t.mand = s.mand ∧ t.tasks = s.tasks ∧ t.manager = s.manager := by
  unfold addManagerRec at hs
  split at hs
  · cases hs
  · split at hs
    · cases hs
    · cases hs
      exact ⟨rfl, rfl, rfl⟩

theorem Checked.parked (h : Checked s) (ha : lockCheck a = true) (hp : Parked s a loop t) :
    Checked t := by
  have hself : ∀ b, some a = some b → lockCheck b = true := fun b hb => by
    cases hb
    exact ha
  cases hp with
  | done tryAddr tryLen => exact h.finish _ _ _
  | refused => exact h
  | waiting native => exact h.add hself
  | opLock start stop native => exact h.add hself
  | sent hno hadd => exact Checked.add (h.congr (addManagerRec_frame hadd).2.1) hself

/-! ## The free part -/

theorem between_of_check (ha : lockCheck a = true) : Between a.obl a.opt a.obl := by
  simp only [lockCheck, Bool.and_eq_true, Bool.not_eq_true', Bool.or_eq_false_iff,
    decide_eq_false_iff_not, Nat.not_lt] at ha
  exact ⟨ha.2.1, Nat.le_refl _, Nat.le_refl _, ha.2.2, rfl⟩

/-- What is granted is inside of the optional part, has all of the obligatory part, and no
lock conflicts with it. -/
theorem granted_spec (h : Lists s A F) (hsort : Sorted A) (ha : lockCheck a = true)
    (hfind : s.list.findFirstLock a.obl isConflict = none) :
    Between a.obl a.opt (granted s.list a) ∧ Clear isConflict A (granted s.list a) := by
  have hclear : Clear isConflict A a.obl := by
    rw [h.stores.rep.findFirstLock, Option.map_eq_none_iff] at hfind
    exact findEntry_none hsort hfind
  exact cutOptional_spec tagOnly_isConflict h.stores.rep hsort (between_of_check ha) rfl hclear

end Athomux.LockCache
