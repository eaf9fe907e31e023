import Athomux.LockCache.InFlight

/-! # Locks of different mandates -/

open Lib Athomux.LockList

namespace Athomux.LockCache

open LockMelt

variable {s t : Sys} {a : LockArgs} {loop : Bool} {A : List (Entry Tag)} {F : List Nat}

/-! ## The invariant -/

structure Safe (s : Sys) : Prop where
  lists : ∃ A F, Lists s A F ∧ WF A ∧ Exclusive A
  checked : Checked s

/-- If something is molten into the list, no lock is stretched over the start of another one
before it or over a foreign lock that conflicts with it. -/
def MeltOk (list : LockRecs) (a : LockArgs) : Prop :=
  Melts list a →
    ¬ Crossing list.entries (granted list a) ∧ ¬ Slip list.entries (granted list a)

theorem Safe.search (h : Safe s) (ha : lockCheck a = true) (hok : MeltOk s.list a)
    (hs : search s a loop = some t) : Safe t := by
  obtain ⟨⟨A, F, hlists, hwf, hex⟩, hchecked⟩ := h
  rcases search_cases hs with ⟨list, hmelts, hmelt, rfl⟩ | ⟨-, hp⟩
  · obtain ⟨hcross, hslip⟩ := hok hmelts
    rw [hlists.stores.rep.entries_eq] at hcross hslip
    obtain ⟨-, hclear⟩ := granted_spec hlists hwf.sorted ha hmelts.1
    obtain ⟨A', F', hres⟩ :=
      meltLockIntoList_spec True hlists.stores hwf hmelts.2.1 (fun _ => trivial) hmelt
    have hlists' : Lists { s with list := list } A' F' := ⟨hres.stores, hlists.nodup⟩
    refine ⟨⟨A', F', hlists'.finish _ _ _, hres.molten.wf hwf hcross, ?_⟩, ?_⟩
    · refine hres.molten.melted.exclusive hwf hex hslip ?_
      intro f hf ho x hfx hx
      exact clear_compat hclear hf ho hfx (hx.elim id id)
    · exact Checked.finish (s := { s with list := list }) (hchecked.congr rfl) _ _ _
  · exact ⟨⟨A, F, hlists.parked hp, hwf, hex⟩, hchecked.parked ha hp⟩

theorem Safe.finish (h : Safe s) (loop : Bool) (tryAddr tryLen : Nat) :
    Safe (finish s loop tryAddr tryLen) := by
  obtain ⟨⟨A, F, hlists, hwf, hex⟩, hchecked⟩ := h
  exact ⟨⟨A, F, hlists.finish _ _ _, hwf, hex⟩, hchecked.finish _ _ _⟩

theorem Safe.lock (h : Safe s) (hok : MeltOk s.list a) (hs : lock s a loop = some t) : Safe t := by
  rcases lock_cases hs with ⟨ha, -, hs⟩ | rfl | ⟨tryAddr, tryLen, rfl⟩
  · exact h.search ha hok hs
  · exact h
  · exact h.finish _ _ _

/-- A removal over a range that does not wrap. -/
theorem Safe.remove (h : Safe s) {mandate addr len : Nat} {obligatory : Bool} {list : LockRecs}
    (hwrap : addr + len ≤ addrSpace)
    (hs : removeOwnLocks s.list (removeDesc mandate addr (add64 addr len) obligatory) = some list) :
    Safe { s with list := list } := by
  obtain ⟨⟨A, F, hlists, hwf, hex⟩, hchecked⟩ := h
  obtain ⟨A', F', hst, hrem, -, -⟩ := removeOwnLocks_spec True hlists.stores hwf
    (passed_or_le hwrap) (fun _ => trivial) hs
  exact ⟨⟨A', F', ⟨hst, hlists.nodup⟩, hrem.wf hwf, hrem.exclusive hwf hex⟩, hchecked.congr rfl⟩

/-! ## Whole runs -/

/-- What is molten into the list is so without a defect, and no range wraps. -/
def Sound (s : Sys) : Event → Prop
  | .lock a => MeltOk s.list a
  | .retract _ logAddr logLen => MeltOk s.list (retractArgs s.mand logAddr logLen)
  | .unlock _ _ _ tryAddr tryLen => tryAddr + tryLen ≤ addrSpace
  | .resume i =>
    match s.tasks[i]? with
    | some (.waiting a _ _) => MeltOk s.list a
    | some (.lockAnswered a _ start stop specAddr specLen) => specAddr + specLen ≤ addrSpace ∧
      ∀ t, takeGrant (s.drop i) start stop specAddr specLen = some t → MeltOk t.list a
    | _ => True
  | _ => True

theorem Safe.congr (h : Safe s) (hlist : t.list = s.list) (hrecs : t.managerRecs = s.managerRecs)
    (htasks : t.tasks = s.tasks) : Safe t := by
  obtain ⟨⟨A, F, hlists, hwf, hex⟩, hchecked⟩ := h
  exact ⟨⟨A, F, hlists.congr hlist hrecs, hwf, hex⟩, hchecked.congr htasks⟩

theorem Safe.drop (h : Safe s) (i : Nat) : Safe (s.drop i) := by
  obtain ⟨⟨A, F, hlists, hwf, hex⟩, hchecked⟩ := h
  exact ⟨⟨A, F, hlists.congr rfl rfl, hwf, hex⟩, hchecked.drop i⟩

theorem Safe.add (h : Safe s) {u : Task} (hu : ∀ a, u.args = some a → lockCheck a = true) :
    Safe (s.add u) := by
  obtain ⟨⟨A, F, hlists, hwf, hex⟩, hchecked⟩ := h
  exact ⟨⟨A, F, hlists.congr rfl rfl, hwf, hex⟩, hchecked.add hu⟩

theorem Safe.send (h : Safe s) {type : OpType} {start stop : Nat}
    (hs : addManagerRec s type start stop = some t) : Safe t := by
  obtain ⟨⟨A, F, hlists, hwf, hex⟩, hchecked⟩ := h
  exact ⟨⟨A, F, (hlists.addManagerRec hs).1, hwf, hex⟩,
    hchecked.congr (addManagerRec_frame hs).2.1⟩

theorem Safe.done (h : Safe s) {type : OpType} {start stop : Nat}
    (hs : removeManagerRec s type start stop = some t) : Safe t := by
  obtain ⟨⟨A, F, hlists, hwf, hex⟩, hchecked⟩ := h
  obtain ⟨hlists', -, htasks, -⟩ := hlists.removeManagerRec hs
  exact ⟨⟨A, F, hlists', hwf, hex⟩, hchecked.congr htasks⟩

theorem Safe.takeGrant (h : Safe s) {start stop specAddr specLen : Nat}
    (hwrap : specAddr + specLen ≤ addrSpace)
    (hs : takeGrant s start stop specAddr specLen = some t) : Safe t := by
  simp only [LockCache.takeGrant, Option.bind_eq_bind, Option.bind_eq_some_iff, Option.pure_def,
    Option.some.injEq] at hs
  obtain ⟨s₁, hrec, list, hrem, rfl⟩ := hs
  exact (h.done hrec).remove hwrap hrem

theorem Safe.resume (h : Safe s) {i : Nat} {u : Task} (hi : s.tasks[i]? = some u)
    (hok : Sound s (.resume i)) (hs : resume (s.drop i) u = some t) : Safe t := by
  have hd := h.drop i
  have hcheck := h.checked u (List.mem_of_getElem? hi)
  simp only [Sound, hi] at hok
  cases u with
  | waiting a loop native => exact hd.search (hcheck a rfl) hok hs
  | opLock a loop start stop native =>
    simp only [LockCache.resume, sendLock, Option.map_eq_some_iff] at hs
    obtain ⟨s₁, hadd, rfl⟩ := hs
    exact (hd.send hadd).add fun b hb => by cases hb; exact hcheck a rfl
  | lockSent a loop start stop => cases hs
  | lockAnswered a loop start stop specAddr specLen =>
    simp only [LockCache.resume, Option.bind_eq_some_iff] at hs
    obtain ⟨s₁, htake, hs⟩ := hs
    exact (hd.takeGrant hok.1 htake).search (hcheck a rfl) (hok.2 s₁ htake) hs
  | retracted start stop =>
    simp only [LockCache.resume, release] at hs
    split at hs
    · cases hs
      exact hd.add fun b hb => by cases hb
    · simp only [sendUnlock, Option.map_eq_some_iff] at hs
      obtain ⟨s₁, hadd, rfl⟩ := hs
      exact (hd.send hadd).add fun b hb => by cases hb
  | opUnlock start stop native =>
    simp only [LockCache.resume, sendUnlock, Option.map_eq_some_iff] at hs
    obtain ⟨s₁, hadd, rfl⟩ := hs
    exact (hd.send hadd).add fun b hb => by cases hb
  | unlockSent start stop => cases hs
  | unlockAnswered start stop => exact hd.done hs

theorem safe_step {e : Event} (h : Safe s) (hok : Sound s e) (hs : step s e = some t) : Safe t := by
  cases e with
  | lock a => exact h.lock hok hs
  | retract mandate logAddr logLen =>
    simp only [step] at hs
    split at hs
    · exact h.lock hok hs
    · cases hs
      exact h
  | unlock mandate logAddr logLen tryAddr tryLen =>
    simp only [step, unlock] at hs
    split at hs
    · cases hs
      exact h
    · rw [Option.map_eq_some_iff] at hs
      obtain ⟨list, hrem, rfl⟩ := hs
      exact h.remove hok hrem
  | answer i ok specAddr specLen =>
    simp only [step] at hs
    split at hs
    · rename_i a loop start stop hi
      have hcheck := h.checked _ (List.mem_of_getElem? hi)
      split at hs
      · cases hs
        have hadd := (h.drop i).add (u := .lockAnswered a loop start stop specAddr specLen)
          fun b hb => by cases hb; exact hcheck a rfl
        exact hadd.congr rfl rfl rfl
      · cases hs
        exact h.drop i
    · cases hs
  | released i =>
    simp only [step] at hs
    split at hs
    · rename_i start stop hi
      cases hs
      have hadd := (h.drop i).add (u := .unlockAnswered start stop) fun b hb => by cases hb
      exact hadd.congr rfl rfl rfl
    · cases hs
  | resume i =>
    simp only [step, Option.bind_eq_some_iff] at hs
    obtain ⟨u, hi, hs⟩ := hs
    exact h.resume hi hok hs

theorem safe_init (h : Init s) : Safe s := by
  obtain ⟨mand, all, desc, h⟩ := h
  obtain ⟨-, -, htasks, A, F, hlists, hwf, hA, -⟩ := outputInit_spec h
  refine ⟨⟨A, F, hlists, hwf, ?_⟩, by simp [Checked, htasks]⟩
  intro e he f hf hne
  rw [hA e he, hA f hf] at hne
  exact absurd rfl hne

/-- Two records that overlap and have different mandates carry types that the matrix allows. -/
def Exclusion (s : Sys) : Prop :=
  s.list.records.Pairwise fun d e => d.tag.mandate ≠ e.tag.mandate → d.Overlaps e →
    d.tag.type.conflicts e.tag.type = false

/-- **Locks of different mandates that overlap never conflict.** This holds in every run whose
steps are all sound. -/
theorem cache_exclusion (h : Reach step Init Sound s) : Exclusion s := by
  have hsafe : Safe s := h.invariant (fun _ => safe_init) (fun _ _ _ => safe_step)
  obtain ⟨A, F, hlists, -, hex⟩ := hsafe.lists
  unfold Exclusion
  rw [hlists.stores.rep.records_eq, List.pairwise_map]
  have hne : A.Pairwise fun e f => e.1 ≠ f.1 := List.pairwise_map.mp hlists.stores.rep.fst_nodup
  exact hne.imp_of_mem fun he hf _ hm hover => hex _ he _ hf hm hover

/-- Steps of `$lock` by a mandate that has no lock yet, and of `$unlock`. -/
def FirstLock (s : Sys) : Event → Prop
  | .lock a => ∀ e ∈ s.list.entries, isOwn e.2 (granted s.list a) = false
  | .unlock _ _ _ tryAddr tryLen => tryAddr + tryLen ≤ addrSpace
  | _ => False

instance (s : Sys) (e : Event) : Decidable (FirstLock s e) := by
  unfold FirstLock
  split <;> infer_instance

theorem sound_of_firstLock {e : Event} (h : FirstLock s e) : Sound s e := by
  cases e with
  | lock a =>
    have hno : ∀ e ∈ s.list.entries, Own (granted s.list a) e →
        e.2.start ≤ (granted s.list a).start ∨ (granted s.list a).stop ≤ e.2.start := by
      intro e he ho
      have := h e he
      rw [own_iff.mpr ho] at this
      cases this
    exact fun _ => ⟨not_crossing hno, not_slip hno⟩
  | unlock mandate logAddr logLen tryAddr tryLen => exact h
  | retract _ _ _ | answer _ _ _ _ | released _ | resume _ => exact absurd h id

/-- Two mandates read the same addresses, then one of them gives a part back. -/
theorem cache_exclusion_readers : ∃ s : Sys,
    s.list.records = [record 1 10 16 .read .none, record 2 12 30 .read .none,
      record 1 18 20 .read .none] ∧ Exclusion s := by
  have hrun : (run step FirstLock (fresh true) [.lock (plain 1 10 10 .read .none),
      .lock (plain 2 12 18 .read .none), .unlock 1 16 2 16 2]).map (fun s => s.list.records) =
      some [record 1 10 16 .read .none, record 2 12 30 .read .none, record 1 18 20 .read .none] := by
    decide +kernel
  obtain ⟨s, hs, heq⟩ := Option.map_eq_some_iff.mp hrun
  refine ⟨s, heq, cache_exclusion (Reach.mono (fun _ _ => sound_of_firstLock) ?_)⟩
  exact (Reach.start (fresh_init _)).of_run hs

/-- A read lock is stretched over the start of a lock that stays before it in the list, and the
next search ends there. Or an address lock is stretched over the lock of another mandate, and
only its data type was compared with what is locked. -/
theorem exclusion_broken :
    (∃ s : Sys, Reach step Init anyEvent s ∧ s.list.records =
      [record 3 0 45 .write .none, record 2 50 60 .read .none, record 1 40 200 .read .none] ∧
      ¬ Exclusion s) ∧
    ∃ s : Sys, Reach step Init anyEvent s ∧ s.list.records =
      [record 2 50 60 .none .read, record 1 40 200 .write .write] ∧ ¬ Exclusion s := by
  have hrun : (run step anyEvent (fresh true) [.lock (plain 2 50 10 .read .none),
      .lock (plain 1 100 100 .read .none), .lock (plain 1 40 160 .read .none),
      .lock (plain 3 0 45 .write .none)]).map (fun s => s.list.records) = some
      [record 3 0 45 .write .none, record 2 50 60 .read .none, record 1 40 200 .read .none] := by
    decide +kernel
  have hrun' : (run step anyEvent (fresh true) [.lock (plain 1 100 100 .none .write),
      .lock (plain 2 50 10 .none .read), .lock (plain 1 40 160 .write .none)]).map
      (fun s => s.list.records) = some
      [record 2 50 60 .none .read, record 1 40 200 .write .write] := by
    decide +kernel
  obtain ⟨s, hs, heq⟩ := Option.map_eq_some_iff.mp hrun
  obtain ⟨s', hs', heq'⟩ := Option.map_eq_some_iff.mp hrun'
  refine ⟨⟨s, (Reach.start (fresh_init _)).of_run hs, heq, ?_⟩,
    s', (Reach.start (fresh_init _)).of_run hs', heq', ?_⟩
  · rw [Exclusion, heq]
    decide
  · rw [Exclusion, heq']
    decide

end Athomux.LockCache
