import Mathlib.Data.List.Perm.Subperm
import Athomux.LockCache.Steps

/-! # Opposing requests at the lock manager -/

open Lib

namespace Athomux.LockCache

open LockMelt

/-! ## Operations and their records -/

abbrev Op := OpType × Nat × Nat

/-- The operation that the task has a record for. -/
def Task.op : Task → Option Op
  | .lockSent _ _ start stop => some (.lock, start, stop)
  | .lockAnswered _ _ start stop _ _ => some (.lock, start, stop)
  | .unlockSent start stop => some (.unlock, start, stop)
  | .unlockAnswered start stop => some (.unlock, start, stop)
  | _ => none

def ManagerRec.op (p : ManagerRec) : Op := (p.type, p.start, p.stop)

/-- One is a `$lock`, the other an `$unlock`, and they overlap. -/
def Opposing (x y : Op) : Prop := x.1 ≠ y.1 ∧ x.2.1 < y.2.2 ∧ y.2.1 < x.2.2

def Sys.ops (s : Sys) : List Op := s.tasks.filterMap Task.op

def Sys.recOps (s : Sys) : List Op := s.managerRecs.map ManagerRec.op

/-- Each operation has a record of its own. -/
def Recorded (s : Sys) : Prop := s.ops.Subperm s.recOps

/-- Each operation has a record of its own, and no two records are opposing. A `$lock` that
failed leaves its record behind. -/
structure Guarded (s : Sys) : Prop where
  recorded : s.ops.Subperm s.recOps
  apart : ∀ x ∈ s.recOps, ∀ y ∈ s.recOps, ¬ Opposing x y

variable {s t : Sys} {a : LockArgs} {loop : Bool} {type : OpType} {start stop : Nat}

theorem opConflict_iff {p : ManagerRec} :
    opConflict type start stop p = true ↔ Opposing (type, start, stop) p.op := by
  simp [opConflict, Opposing, ManagerRec.op, and_assoc]

theorem Opposing.symm {x y : Op} (h : Opposing x y) : Opposing y x :=
  ⟨h.1.symm, h.2.2, h.2.1⟩

theorem isRec_iff {p : ManagerRec} :
    isRec type start stop p = true ↔ p.op = (type, start, stop) := by
  simp [isRec, ManagerRec.op, and_assoc]

theorem eraseP_op (l : List ManagerRec) :
    (l.eraseP (isRec type start stop)).map ManagerRec.op =
      (l.map ManagerRec.op).erase (type, start, stop) := by
  induction l with
  | nil => rfl
  | cons p l ih =>
    rw [List.map_cons, List.eraseP_cons, List.erase_cons]
    by_cases h : p.op = (type, start, stop)
    · rw [if_pos (by simpa using h), isRec_iff.mpr h]
      rfl
    · have : isRec type start stop p = false := by
        rw [Bool.eq_false_iff]
        exact fun h' => h (isRec_iff.mp h')
      rw [if_neg (by simpa using h), this]
      simp only [cond_false, List.map_cons, ih]

/-! ## What a step changes -/

theorem Recorded.congr (h : Recorded s) (hops : t.ops = s.ops) (hrecs : t.recOps = s.recOps) :
    Recorded t := by
  unfold Recorded
  rw [hops, hrecs]
  exact h

theorem Sys.ops_drop {i : Nat} {u : Task} (hi : s.tasks[i]? = some u) :
    s.ops.Perm ((u.op.toList) ++ (s.drop i).ops) := by
  have hlt : i < s.tasks.length := (List.getElem?_eq_some_iff.mp hi).1
  have hget : s.tasks[i] = u := (List.getElem?_eq_some_iff.mp hi).2
  have hperm := (List.getElem_cons_eraseIdx_perm hlt).symm
  rw [hget] at hperm
  have := hperm.filterMap Task.op
  simp only [Sys.ops, Sys.drop]
  refine this.trans ?_
  cases hu : u.op with
  | none => rw [List.filterMap_cons_none hu]; rfl
  | some x => rw [List.filterMap_cons_some hu]; rfl

theorem Sys.ops_add (u : Task) : (s.add u).ops = u.op.toList ++ s.ops := by
  simp only [Sys.ops, Sys.add]
  cases hu : u.op with
  | none => rw [List.filterMap_cons_none hu]; rfl
  | some x => rw [List.filterMap_cons_some hu]; rfl

/-- A task without a record comes or goes. -/
theorem Recorded.add (h : Recorded s) {u : Task} (hu : u.op = none) : Recorded (s.add u) :=
  h.congr (by rw [Sys.ops_add, hu]; rfl) rfl

theorem Recorded.drop (h : Recorded s) {i : Nat} {u : Task} (hi : s.tasks[i]? = some u) :
    Recorded (s.drop i) :=
  ((List.sublist_append_right _ _).subperm.trans (Sys.ops_drop hi).symm.subperm).trans h

/-- A task takes the record of another one over. -/
theorem Recorded.swap (h : Recorded s) {i : Nat} {u v : Task} (hi : s.tasks[i]? = some u)
    (huv : v.op = u.op) : Recorded ((s.drop i).add v) := by
  have hperm := Sys.ops_drop hi
  rw [← huv, ← Sys.ops_add] at hperm
  exact hperm.symm.subperm.trans h

theorem addManagerRec_spec (hs : addManagerRec s type start stop = some t) :
    t.tasks = s.tasks ∧ t.recOps = s.recOps ++ [(type, start, stop)] := by
  unfold addManagerRec at hs
  split at hs
  · cases hs
  · split at hs
    · cases hs
    · cases hs
      exact ⟨rfl, by simp [Sys.recOps, ManagerRec.op]⟩

/-- A request goes out. -/
theorem Recorded.send (h : Recorded s) (hs : addManagerRec s type start stop = some t) {u : Task}
    (hu : u.op = some (type, start, stop)) : Recorded (t.add u) := by
  obtain ⟨htasks, hrecs⟩ := addManagerRec_spec hs
  have hops : (t.add u).ops = (type, start, stop) :: s.ops := by
    rw [Sys.ops_add, hu, Sys.ops, htasks]
    rfl
  have hrecs' : (t.add u).recOps = s.recOps ++ [(type, start, stop)] := hrecs
  unfold Recorded
  rw [hops, hrecs']
  exact ((List.subperm_cons _).mpr h).trans (List.perm_append_singleton _ _).symm.subperm

theorem removeManagerRec_spec (hs : removeManagerRec s type start stop = some t) :
    t.tasks = s.tasks ∧ t.recOps = s.recOps.erase (type, start, stop) := by
  unfold removeManagerRec at hs
  simp only [Option.bind_eq_bind, Option.bind_eq_some_iff, Option.pure_def, Option.some.injEq] at hs
  obtain ⟨p, -, imp, -, rfl⟩ := hs
  exact ⟨rfl, eraseP_op _⟩

/-- A request is done: its record goes with it. -/
theorem Recorded.done (h : Recorded s) {i : Nat} {u : Task} (hi : s.tasks[i]? = some u)
    (hu : u.op = some (type, start, stop))
    (hs : removeManagerRec (s.drop i) type start stop = some t) : Recorded t := by
  obtain ⟨htasks, hrecs⟩ := removeManagerRec_spec hs
  have hops := Sys.ops_drop hi
  rw [hu, Option.toList_some, List.singleton_append] at hops
  have hsub := (hops.symm.subperm.trans h).erase (type, start, stop)
  rw [List.erase_cons_head] at hsub
  have hopst : t.ops = (s.drop i).ops := by simp only [Sys.ops, htasks]
  unfold Recorded
  rw [hopst, hrecs]
  exact hsub

theorem Guarded.congr (h : Guarded s) (hops : t.ops = s.ops) (hrecs : t.recOps = s.recOps) :
    Guarded t := by
  refine ⟨Recorded.congr h.recorded hops hrecs, ?_⟩
  rw [hrecs]
  exact h.apart

theorem Guarded.add (h : Guarded s) {u : Task} (hu : u.op = none) : Guarded (s.add u) :=
  ⟨Recorded.add h.recorded hu, h.apart⟩

theorem Guarded.drop (h : Guarded s) {i : Nat} {u : Task} (hi : s.tasks[i]? = some u) :
    Guarded (s.drop i) :=
  ⟨Recorded.drop h.recorded hi, h.apart⟩

theorem Guarded.swap (h : Guarded s) {i : Nat} {u v : Task} (hi : s.tasks[i]? = some u)
    (huv : v.op = u.op) : Guarded ((s.drop i).add v) :=
  ⟨Recorded.swap h.recorded hi huv, h.apart⟩

theorem Guarded.finish (h : Guarded s) (loop : Bool) (tryAddr tryLen : Nat) :
    Guarded (finish s loop tryAddr tryLen) := by
  unfold LockCache.finish
  split
  · exact h.add rfl
  · exact h

theorem Guarded.send (h : Guarded s) (hno : s.managerRecs.find? (opConflict type start stop) = none)
    (hs : addManagerRec s type start stop = some t) {u : Task} (hu : u.op = some (type, start, stop)) :
    Guarded (t.add u) := by
  have hrecs : (t.add u).recOps = s.recOps ++ [(type, start, stop)] := (addManagerRec_spec hs).2
  have hnew : ∀ x ∈ s.recOps, ¬ Opposing (type, start, stop) x := by
    intro x hx hop
    obtain ⟨p, hp, rfl⟩ := List.mem_map.mp hx
    exact List.find?_eq_none.mp hno p hp (opConflict_iff.mpr hop)
  refine ⟨Recorded.send h.recorded hs hu, ?_⟩
  rw [hrecs]
  intro x hx y hy
  rcases List.mem_append.mp hx with hx | hx <;> rcases List.mem_append.mp hy with hy | hy
  · exact h.apart x hx y hy
  · rw [List.mem_singleton.mp hy]
    exact fun hop => hnew x hx hop.symm
  · rw [List.mem_singleton.mp hx]
    exact hnew y hy
  · rw [List.mem_singleton.mp hx, List.mem_singleton.mp hy]
    exact fun hop => hop.1 rfl

theorem Guarded.done (h : Guarded s) {i : Nat} {u : Task} (hi : s.tasks[i]? = some u)
    (hu : u.op = some (type, start, stop))
    (hs : removeManagerRec (s.drop i) type start stop = some t) : Guarded t := by
  refine ⟨Recorded.done h.recorded hi hu hs, ?_⟩
  rw [(removeManagerRec_spec hs).2]
  intro x hx y hy
  exact h.apart x (List.mem_of_mem_erase hx) y (List.mem_of_mem_erase hy)

/-! ## The steps -/

theorem Guarded.parked (h : Guarded s) (hp : Parked s a loop t) : Guarded t := by
  cases hp with
  | done tryAddr tryLen => exact h.finish _ _ _
  | refused => exact h
  | waiting native => exact h.add rfl
  | opLock start stop native => exact h.add rfl
  | sent hno hadd => exact h.send hno hadd rfl

theorem Guarded.search (h : Guarded s) (hs : search s a loop = some t) : Guarded t := by
  rcases search_cases hs with ⟨list, -, -, rfl⟩ | ⟨-, hp⟩
  · exact Guarded.finish (s := { s with list := list }) (h.congr rfl rfl) _ _ _
  · exact h.parked hp

theorem Guarded.lock (h : Guarded s) (hs : lock s a loop = some t) : Guarded t := by
  rcases lock_cases hs with ⟨-, -, hs⟩ | rfl | ⟨tryAddr, tryLen, rfl⟩
  · exact h.search hs
  · exact h
  · exact h.finish _ _ _

/-- What comes back from `wait_for_op_conflicts` finds no conflict any more. -/
def Rechecked (s : Sys) : Event → Prop
  | .resume i =>
    match s.tasks[i]? with
    | some (.opLock _ _ start stop _) => s.managerRecs.find? (opConflict .lock start stop) = none
    | some (.opUnlock start stop _) => s.managerRecs.find? (opConflict .unlock start stop) = none
    | _ => True
  | _ => True

instance (s : Sys) (e : Event) : Decidable (Rechecked s e) := by
  unfold Rechecked
  split
  · split <;> infer_instance
  · infer_instance

theorem Guarded.resume (h : Guarded s) {i : Nat} {u : Task} (hi : s.tasks[i]? = some u)
    (hok : Rechecked s (.resume i)) (hs : resume (s.drop i) u = some t) : Guarded t := by
  have hd := h.drop hi
  simp only [Rechecked, hi] at hok
  cases u with
  | waiting a loop native => exact hd.search hs
  | opLock a loop start stop native =>
    simp only [LockCache.resume, sendLock, Option.map_eq_some_iff] at hs
    obtain ⟨s₁, hadd, rfl⟩ := hs
    exact hd.send hok hadd rfl
  | lockSent a loop start stop => cases hs
  | lockAnswered a loop start stop specAddr specLen =>
    simp only [LockCache.resume, takeGrant, Option.bind_eq_bind, Option.bind_eq_some_iff,
      Option.pure_def, Option.some.injEq] at hs
    obtain ⟨_, ⟨s₁, hrec, list, -, rfl⟩, hs⟩ := hs
    exact Guarded.search (s := { s₁ with list := list }) ((h.done hi rfl hrec).congr rfl rfl) hs
  | retracted start stop =>
    simp only [LockCache.resume, release] at hs
    split at hs
    · cases hs
      exact hd.add rfl
    · rename_i hno
      simp only [sendUnlock, Option.map_eq_some_iff] at hs
      obtain ⟨s₁, hadd, rfl⟩ := hs
      exact hd.send hno hadd rfl
  | opUnlock start stop native =>
    simp only [LockCache.resume, sendUnlock, Option.map_eq_some_iff] at hs
    obtain ⟨s₁, hadd, rfl⟩ := hs
    exact hd.send hok hadd rfl
  | unlockSent start stop => cases hs
  | unlockAnswered start stop => exact h.done hi rfl hs

theorem guarded_step {e : Event} (h : Guarded s) (hok : Rechecked s e) (hs : step s e = some t) :
    Guarded t := by
  cases e with
  | lock a => exact h.lock hs
  | retract mandate logAddr logLen =>
    simp only [step] at hs
    split at hs
    · exact h.lock hs
    · cases hs
      exact h
  | unlock mandate logAddr logLen tryAddr tryLen =>
    simp only [step, unlock] at hs
    split at hs
    · cases hs
      exact h
    · rw [Option.map_eq_some_iff] at hs
      obtain ⟨list, -, rfl⟩ := hs
      exact h.congr rfl rfl
  | answer i ok specAddr specLen =>
    simp only [step] at hs
    split at hs
    · rename_i hi
      split at hs
      · cases hs
        exact Guarded.congr (h.swap hi rfl) rfl rfl
      · cases hs
        exact h.drop hi
    · cases hs
  | released i =>
    simp only [step] at hs
    split at hs
    · rename_i hi
      cases hs
      exact Guarded.congr (h.swap hi rfl) rfl rfl
    · cases hs
  | resume i =>
    simp only [step, Option.bind_eq_some_iff] at hs
    obtain ⟨u, hi, hs⟩ := hs
    exact h.resume hi hok hs

theorem outputInit_empty {mand : Nat} {lockAllOnInit : Bool} {desc : Nat → Desc}
    (h : outputInit mand lockAllOnInit desc = some s) :
    s.mand = mand ∧ s.managerRecs = [] ∧ s.tasks = [] := by
  unfold outputInit at h
  simp only [Option.bind_eq_bind, Option.bind_eq_some_iff, Option.pure_def] at h
  obtain ⟨list, -, h⟩ := h
  split at h
  · simp only [Option.bind_eq_some_iff, Option.some.injEq] at h
    obtain ⟨list', -, rfl⟩ := h
    exact ⟨rfl, rfl, rfl⟩
  · cases h
    exact ⟨rfl, rfl, rfl⟩

theorem guarded_init (h : Init s) : Guarded s := by
  obtain ⟨mand, all, desc, h⟩ := h
  obtain ⟨-, hrecs, htasks⟩ := outputInit_empty h
  refine ⟨?_, ?_⟩
  · simp [Sys.ops, htasks]
  · simp [Sys.recOps, hrecs]

/-! ## No opposing requests are out -/

/-- A `$lock` and an `$unlock` are out at the lock manager, and an address is in both. -/
def OpposingOut (s : Sys) : Prop :=
  ∃ a loop start stop start' stop' x, .lockSent a loop start stop ∈ s.tasks ∧
    .unlockSent start' stop' ∈ s.tasks ∧ (start ≤ x ∧ x < stop) ∧ start' ≤ x ∧ x < stop'

theorem Guarded.not_out (h : Guarded s) : ¬ OpposingOut s := by
  rintro ⟨a, loop, start, stop, start', stop', x, hl, hu, hx, hx'⟩
  have hlock : (.lock, start, stop) ∈ s.recOps :=
    h.recorded.subset (List.mem_filterMap.mpr ⟨_, hl, rfl⟩)
  have hunlock : (.unlock, start', stop') ∈ s.recOps :=
    h.recorded.subset (List.mem_filterMap.mpr ⟨_, hu, rfl⟩)
  exact h.apart _ hlock _ hunlock ⟨by simp, by simp only; omega, by simp only; omega⟩

/-- **No opposing requests are out at the lock manager.** This holds in every run in which
whatever comes back from `wait_for_op_conflicts` finds no conflicting record any more. The
code does not look again: its `break` leaves the macro. -/
theorem no_opposing_out (h : Reach step Init Rechecked s) : ¬ OpposingOut s :=
  (h.invariant (fun _ => guarded_init) (fun _ _ _ => guarded_step)).not_out

def fresh (lockAllOnInit : Bool) : Sys :=
  (outputInit 0 lockAllOnInit fun _ => removeDesc 0 0 0 false).getD
    ⟨0, LockList.init _ fun _ => removeDesc 0 0 0 false, [], [], []⟩

theorem fresh_init (lockAllOnInit : Bool) : Init (fresh lockAllOnInit) := by
  refine ⟨0, lockAllOnInit, fun _ => removeDesc 0 0 0 false, ?_⟩
  have : (outputInit 0 lockAllOnInit fun _ => removeDesc 0 0 0 false).isSome = true := by
    cases lockAllOnInit <;> decide +kernel
  rw [fresh]
  obtain ⟨s, hs⟩ := Option.isSome_iff_exists.mp this
  rw [hs]
  rfl

/-- A `$lock` that waits and has no optional part. -/
def plain (mandate logAddr logLen : Nat) (dataLock addrLock : LockT) : LockArgs :=
  ⟨mandate, logAddr, logLen, logAddr, logLen, dataLock, addrLock, .wait⟩

/-- A record of a mandate, as `$lock` leaves it. -/
def record (mandate start stop : Nat) (dataLock addrLock : LockT) : Desc :=
  ⟨start, stop, ⟨mandate, ⟨dataLock, addrLock⟩, true⟩⟩

/-- No record of the mandate begins inside of what is granted, so that melting moves the start of
none. -/
def Ahead (list : LockRecs) (a : LockArgs) : Prop :=
  ∀ e ∈ list.entries, isOwn e.2 (granted list a) = true →
    e.2.start ≤ (granted list a).start ∨ (granted list a).stop ≤ e.2.start

instance (list : LockRecs) (a : LockArgs) : Decidable (Ahead list a) :=
  inferInstanceAs (Decidable (∀ _ ∈ _, _ → _))

theorem Ahead.not_crossing {list : LockRecs} (h : Ahead list a) :
    ¬ Crossing list.entries (granted list a) :=
  LockMelt.not_crossing fun e he ho => h e he (own_iff.mpr ho)

theorem Ahead.not_slip {list : LockRecs} (h : Ahead list a) :
    ¬ Slip list.entries (granted list a) :=
  LockMelt.not_slip fun e he ho => h e he (own_iff.mpr ho)

/-- Client 1 locks twice, where the second lock splits and stretches the first one, and gives a
part in the middle back. A range is retracted, and client 2 locks a part of it, which the lock
manager grants. The last step takes that over. -/
def clients : List Event :=
  [.lock (plain 1 10 10 .read .none), .lock (plain 1 15 15 .write .none), .unlock 1 18 4 18 4,
    .retract 7 40 10, .resume 0, .released 0, .resume 0,
    .lock (plain 2 42 4 .write .none), .answer 0 true 42 4, .resume 0]

/-- A `$lock` and an `$unlock` of ranges that do not touch are both out. -/
theorem no_opposing_out_apart : ∃ s : Sys,
    .lockSent (plain 1 0 10 .write .none) false 0 10 ∈ s.tasks ∧ .unlockSent 20 30 ∈ s.tasks ∧
      ¬ OpposingOut s := by
  have hrun : (run step Rechecked (fresh false)
      [.lock (plain 1 0 10 .write .none), .retract 7 20 10, .resume 0]).map Sys.tasks =
      some [.unlockSent 20 30, .lockSent (plain 1 0 10 .write .none) false 0 10] := by
    decide +kernel
  obtain ⟨s, hs, heq⟩ := Option.map_eq_some_iff.mp hrun
  exact ⟨s, by simp [heq], by simp [heq], no_opposing_out ((Reach.start (fresh_init _)).of_run hs)⟩

/-- Two `$lock`s are out, and an `$unlock` of both ranges waits for the first one. When that
is done the `$unlock` goes out, too. -/
theorem opposing_out : ∃ s : Sys, Reach step Init anyEvent s ∧ OpposingOut s := by
  have hrun : (run step anyEvent (fresh false)
      [.lock (plain 1 0 10 .write .none), .lock (plain 2 10 10 .write .none), .retract 7 0 20, .resume 0,
        .answer 2 true 0 10, .resume 0, .resume 0]).map Sys.tasks =
      some [.unlockSent 0 20, .lockSent (plain 2 10 10 .write .none) false 10 20] := by
    decide +kernel
  obtain ⟨s, hs, heq⟩ := Option.map_eq_some_iff.mp hrun
  refine ⟨s, (Reach.start (fresh_init _)).of_run hs, ?_⟩
  exact ⟨plain 2 10 10 .write .none, false, 10, 20, 0, 20, 10, by simp [heq], by simp [heq], by omega, by omega⟩

end Athomux.LockCache
