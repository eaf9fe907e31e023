import Athomux.LockCache.InFlight

/-!
# A `$lock` that fails

What `$lock` leaves behind when it fails, wherever that is. A check that fails returns at once, with
or without the mutex.
-/

open Lib Athomux.LockList

namespace Athomux.LockCache

open LockMelt

variable {s t : Sys} {a : LockArgs} {loop held : Bool} {type : OpType} {start stop i : Nat}

/-! ## The points of failure -/

/-- What works in a step: `lock_mutex`, the `PC_GET` of the state, `wait_for_lock` (and the wait for an
operation) and `unlock_mutex`. -/
structure Services where
  mutex : Bool
  state : Bool
  wait : Bool
  unlock : Bool
  deriving DecidableEq

/-- How a step of `$lock` ends. `fatal` ends the process. -/
inductive Ending
  | goesOn (s : Sys)
  | failed (s : Sys) (mutexHeld : Bool)
  | fatal

/-- The way is free. `@success` is set before the mutex is released. -/
def grantEnd (s : Sys) (a : LockArgs) (loop : Bool) : Ending :=
  match grant s a loop with
  | some s => .goesOn s
  | none => .fatal

def sendLockEnd (f : Services) (s : Sys) (a : LockArgs) (loop : Bool) (start stop : Nat) : Ending :=
  match addManagerRec s .lock start stop with
  | none => .failed s true
  | some s => if f.unlock then .goesOn (s.add (.lockSent a loop start stop)) else .failed s true

def askManagerEnd (f : Services) (s : Sys) (a : LockArgs) (loop : Bool) (conflictor : Desc) : Ending :=
  let start := requestStart conflictor a.obl
  let stop := requestStop conflictor a.obl
  match s.managerRecs.find? (opConflict .lock start stop) with
  | some p => if f.wait then .goesOn (s.add (.opLock a loop start stop p.nativeLock)) else .failed s true
  | none => sendLockEnd f s a loop start stop

/-- The loop over the conflicts, up to its next wait. -/
def loopEnd (f : Services) (s : Sys) (a : LockArgs) (loop : Bool) : Ending :=
  match s.list.findFirstLock a.obl isConflict with
  | none => grantEnd s a loop
  | some conflictor =>
    if (s.list.desc conflictor).tag.mandate ≠ s.mand then
      if f.wait then .goesOn (s.add (.waiting a loop (s.list.nativeLock conflictor)))
      else .failed s true
    else askManagerEnd f s a loop (s.list.desc conflictor)

/-- The lock is refused when there is a conflict and it is not to wait. -/
def searchEnd (f : Services) (s : Sys) (a : LockArgs) (loop : Bool) : Ending :=
  match s.list.findFirstLock a.obl isConflict with
  | none => grantEnd s a loop
  | some _ =>
    if 0 < a.obl.stop - a.obl.start then
      if a.action ≠ .wait then .failed s (!f.unlock) else loopEnd f s a loop
    else .goesOn (finish s loop a.logAddr 0)

/-- `$lock` up to its first wait. -/
def lockEnd (f : Services) (s : Sys) (a : LockArgs) (loop : Bool) : Ending :=
  if !lockCheck a then .failed s false
  else if noEffect a then .goesOn (finish s loop a.tryAddr a.tryLen)
  else if !f.mutex then .failed s false
  else if !f.state then .failed s true
  else searchEnd f s a loop

/-- Back from the lock manager with the mutex. -/
def answerEnd (f : Services) (s : Sys) (a : LockArgs) (loop : Bool)
    (start stop specAddr specLen : Nat) : Ending :=
  match s.managerRecs.find? (isRec .lock start stop) with
  | none => .fatal
  | some p =>
    match s.list.lockImp.padr p.nativeLock with
    | none => .failed s true
    | some _ =>
      match takeGrant s start stop specAddr specLen with
      | none => .fatal
      | some s => loopEnd f s a loop

/-- A step of a `$lock`: its start, its next step after a wait, or a refusal of the lock manager. -/
inductive LockTurn
  | lock (a : LockArgs) (loop : Bool)
  | resume (i : Nat)
  | refused (i : Nat)
  deriving DecidableEq

/-- Task `i` goes on. -/
def resumeEnd (f : Services) (s : Sys) : Task → Option Ending
  | .waiting a loop _ => some (loopEnd f s a loop)
  | .opLock a loop start stop _ => some (sendLockEnd f s a loop start stop)
  | .lockAnswered a loop start stop specAddr specLen =>
    some (if !f.mutex then .failed s false else answerEnd f s a loop start stop specAddr specLen)
  | _ => none

def lockTurn (f : Services) (s : Sys) : LockTurn → Option Ending
  | .lock a loop => some (lockEnd f s a loop)
  | .resume i => s.tasks[i]?.bind fun u => resumeEnd f (s.drop i) u
  | .refused i =>
    match s.tasks[i]? with
    | some (.lockSent ..) => some (.failed (s.drop i) false)
    | _ => none

/-! ## These are the steps of the brick -/

theorem loopEnd_goesOn {f : Services} (hlen : 0 < a.obl.stop - a.obl.start) (hwait : a.action = .wait)
    (h : loopEnd f s a loop = .goesOn t) : search s a loop = some t := by
  unfold loopEnd grantEnd at h
  unfold search
  cases hfind : s.list.findFirstLock a.obl isConflict with
  | none =>
    rw [hfind] at h
    dsimp only at h ⊢
    split at h
    · rename_i hgrant
      cases h
      exact hgrant
    · cases h
  | some conflictor =>
    rw [hfind] at h
    dsimp only at h ⊢
    rw [if_pos hlen, if_neg (not_not_intro hwait)]
    split at h
    · rename_i hmand
      rw [if_pos hmand]
      split at h
      · cases h
        rfl
      · cases h
    · rename_i hmand
      rw [if_neg hmand]
      unfold askManagerEnd sendLockEnd at h
      unfold askManager sendLock
      dsimp only at h ⊢
      cases hrec : s.managerRecs.find? (opConflict .lock
          (requestStart (s.list.desc conflictor) a.obl) (requestStop (s.list.desc conflictor) a.obl)) with
      | some p =>
        simp only [hrec] at h
        split at h
        · cases h
          rfl
        · cases h
      | none =>
        simp only [hrec] at h
        cases hadd : addManagerRec s .lock (requestStart (s.list.desc conflictor) a.obl)
            (requestStop (s.list.desc conflictor) a.obl) with
        | none =>
          simp only [hadd] at h
          cases h
        | some s₁ =>
          simp only [hadd] at h
          split at h
          · cases h
            rfl
          · cases h

theorem lockEnd_goesOn {f : Services} (h : lockEnd f s a loop = .goesOn t) :
    lock s a loop = some t := by
  unfold lockEnd at h
  unfold lock
  split at h
  · cases h
  rename_i hcheck
  rw [if_neg hcheck]
  split at h
  · rename_i hno
    cases h
    rw [if_pos hno]
  rename_i hno
  rw [if_neg hno]
  split at h
  · cases h
  split at h
  · cases h
  unfold searchEnd at h
  cases hfind : s.list.findFirstLock a.obl isConflict with
  | none =>
    rw [hfind] at h
    unfold search
    rw [hfind]
    dsimp only [grantEnd] at h ⊢
    split at h
    · rename_i hgrant
      cases h
      exact hgrant
    · cases h
  | some conflictor =>
    rw [hfind] at h
    dsimp only at h
    split at h
    · rename_i hlen
      split at h
      · cases h
      · rename_i hwait
        exact loopEnd_goesOn hlen (not_not.mp hwait) h
    · rename_i hlen
      cases h
      unfold search
      rw [hfind]
      dsimp only
      rw [if_neg hlen]

/-! ## Runs with failures -/

inductive FailEvent
  | step (e : Event)
  | fail (f : Services) (u : LockTurn)
  deriving DecidableEq

/-- A step, or a `$lock` that fails and leaves the mutex free. With the mutex nothing goes on. -/
def failStep (s : Sys) : FailEvent → Option Sys
  | .step e => step s e
  | .fail f u =>
    match lockTurn f s u with
    | some (.failed t false) => some t
    | _ => none

/-- What is done to the operations and their records. -/
theorem Recorded.finish (h : Recorded s) (loop : Bool) (tryAddr tryLen : Nat) :
    Recorded (finish s loop tryAddr tryLen) := by
  unfold LockCache.finish
  split
  · exact h.add rfl
  · exact h

theorem Recorded.search (h : Recorded s) (hs : search s a loop = some t) : Recorded t := by
  rcases search_cases hs with ⟨list, -, -, rfl⟩ | ⟨-, hp⟩
  · exact Recorded.finish (s := { s with list := list }) (h.congr rfl rfl) _ _ _
  · cases hp with
    | done tryAddr tryLen => exact h.finish _ _ _
    | refused => exact h
    | waiting native => exact h.add rfl
    | opLock start stop native => exact h.add rfl
    | sent _ hadd => exact h.send hadd rfl

theorem Recorded.lock (h : Recorded s) (hs : lock s a loop = some t) : Recorded t := by
  rcases lock_cases hs with ⟨-, -, hs⟩ | rfl | ⟨tryAddr, tryLen, rfl⟩
  · exact h.search hs
  · exact h
  · exact h.finish _ _ _

theorem Recorded.resume (h : Recorded s) {u : Task} (hi : s.tasks[i]? = some u)
    (hs : resume (s.drop i) u = some t) : Recorded t := by
  have hd := h.drop hi
  cases u with
  | waiting a loop native => exact hd.search hs
  | opLock a loop start stop native =>
    simp only [LockCache.resume, sendLock, Option.map_eq_some_iff] at hs
    obtain ⟨s₁, hadd, rfl⟩ := hs
    exact hd.send hadd rfl
  | lockSent a loop start stop => cases hs
  | lockAnswered a loop start stop specAddr specLen =>
    simp only [LockCache.resume, takeGrant, Option.bind_eq_bind, Option.bind_eq_some_iff,
      Option.pure_def, Option.some.injEq] at hs
    obtain ⟨_, ⟨s₁, hrec, list, -, rfl⟩, hs⟩ := hs
    exact Recorded.search (s := { s₁ with list := list }) ((h.done hi rfl hrec).congr rfl rfl) hs
  | retracted start stop =>
    simp only [LockCache.resume, release] at hs
    split at hs
    · cases hs
      exact hd.add rfl
    · simp only [sendUnlock, Option.map_eq_some_iff] at hs
      obtain ⟨s₁, hadd, rfl⟩ := hs
      exact hd.send hadd rfl
  | opUnlock start stop native =>
    simp only [LockCache.resume, sendUnlock, Option.map_eq_some_iff] at hs
    obtain ⟨s₁, hadd, rfl⟩ := hs
    exact hd.send hadd rfl
  | unlockSent start stop => cases hs
  | unlockAnswered start stop => exact h.done hi rfl hs

theorem recorded_step {e : Event} (h : Recorded s) (hs : step s e = some t) : Recorded t := by
  cases e with
  | lock a => exact h.lock hs
  | retract mandate logAddr logLen =>
    simp only [step] at hs
    split at hs
    · exact h.lock hs
    · cases hs
      exact h
  | unlock mandate logAddr logLen tryAddr tryLen =>
    simp only [step, unlock] at hs
    split at hs
    · cases hs
      exact h
    · rw [Option.map_eq_some_iff] at hs
      obtain ⟨list, -, rfl⟩ := hs
      exact h.congr rfl rfl
  | answer i ok specAddr specLen =>
    simp only [step] at hs
    split at hs
    · rename_i hi
      split at hs
      · cases hs
        exact Recorded.congr (h.swap hi rfl) rfl rfl
      · cases hs
        exact h.drop hi
    · cases hs
  | released i =>
    simp only [step] at hs
    split at hs
    · rename_i hi
      cases hs
      exact Recorded.congr (h.swap hi rfl) rfl rfl
    · cases hs
  | resume i =>
    simp only [step, Option.bind_eq_some_iff] at hs
    obtain ⟨u, hi, hs⟩ := hs
    exact h.resume hi hs

/-! ## What a failure leaves -/

theorem sendLockEnd_failed {f : Services} (h : sendLockEnd f s a loop start stop = .failed t held) :
    held = true := by
  unfold sendLockEnd at h
  split at h
  · cases h
    rfl
  · split at h
    · cases h
    · cases h
      rfl

/-- In the loop every failure keeps the mutex. -/
theorem loopEnd_failed {f : Services} (h : loopEnd f s a loop = .failed t held) : held = true := by
  unfold loopEnd at h
  split at h
  · unfold grantEnd at h
    split at h <;> cases h
  · split at h
    · split at h
      · cases h
      · cases h
        rfl
    · unfold askManagerEnd at h
      dsimp only at h
      split at h
      · split at h
        · cases h
        · cases h
          rfl
      · exact sendLockEnd_failed h

theorem answerEnd_failed {f : Services} {specAddr specLen : Nat}
    (h : answerEnd f s a loop start stop specAddr specLen = .failed t held) : held = true := by
  unfold answerEnd at h
  split at h
  · cases h
  · split at h
    · cases h
      rfl
    · split at h
      · cases h
      · exact loopEnd_failed h

namespace LockTurn

/-- The operation that has a record when the turn starts. -/
def own (s : Sys) : LockTurn → Option Op
  | .lock _ _ => none
  | .resume i => s.tasks[i]?.bind Task.op
  | .refused i => s.tasks[i]?.bind Task.op

def args (s : Sys) : LockTurn → Option LockArgs
  | .lock a _ => some a
  | .resume i => s.tasks[i]?.bind Task.args
  | .refused i => s.tasks[i]?.bind Task.args

end LockTurn

/-- The bookkeeping is as before a turn that has failed: the mutex is free, the operation has no
record any more, and its mandate has no lock that it did not have. -/
structure Restored (s : Sys) (u : LockTurn) (t : Sys) (mutexHeld : Bool) : Prop where
  mutex : mutexHeld = false
  records : t.recOps.Perm (s.recOps.diff (u.own s).toList)
  grants : ∀ a, u.args s = some a → ∀ d ∈ t.list.records, d.tag.mandate = a.mandate →
    ∀ x, d.Has x → ∃ e ∈ s.list.records, e.tag = d.tag ∧ e.Has x

/-- The request is refused before anything is taken, and the mutex can be given back. -/
def Refused (f : Services) (s : Sys) : LockTurn → Prop
  | .lock a _ =>
    lockCheck a = false ∨ f.mutex = false ∨
      (f.state = true ∧ f.unlock = true ∧ a.action ≠ .wait ∧ 0 < a.obl.stop - a.obl.start ∧
        (s.list.findFirstLock a.obl isConflict).isSome = true)
  | _ => False

instance (f : Services) (s : Sys) (u : LockTurn) : Decidable (Refused f s u) := by
  unfold Refused
  split <;> infer_instance

theorem restored_self (u : LockTurn) (hown : u.own s = none) : Restored s u s false where
  mutex := rfl
  records := by
    rw [hown]
    exact .refl _
  grants _ _ d hd _ x hx := ⟨d, hd, rfl, hx⟩

/-- What has a record still has it. -/
theorem not_restored (h : Recorded s) {v : Task} {op : Op} (hi : s.tasks[i]? = some v)
    (hop : v.op = some op) (u : LockTurn) (hown : u.own s = some op) (hrecs : t.recOps = s.recOps) :
    ¬ Restored s u t held := by
  intro hr
  have hmem : op ∈ s.recOps :=
    h.subset (List.mem_filterMap.mpr ⟨v, List.mem_of_getElem? hi, hop⟩)
  have hlen := hr.records.length_eq
  rw [hown, Option.toList_some, hrecs, List.diff_cons, List.diff_nil,
    List.length_erase_of_mem hmem] at hlen
  have := List.length_pos_of_mem hmem
  omega

theorem lockEnd_failed {f : Services} (h : lockEnd f s a loop = .failed t held) :
    (Restored s (.lock a loop) t held ↔ Refused f s (.lock a loop)) ∧ (held = false → t = s) := by
  unfold Refused
  dsimp only
  unfold lockEnd at h
  split at h
  · rename_i hcheck
    cases h
    exact ⟨iff_of_true (restored_self _ rfl) (.inl (by simpa using hcheck)), fun _ => rfl⟩
  rename_i hcheck
  split at h
  · cases h
  split at h
  · rename_i hmutex
    cases h
    exact ⟨iff_of_true (restored_self _ rfl) (.inr (.inl (by simpa using hmutex))), fun _ => rfl⟩
  rename_i hmutex
  have hno : ¬ (lockCheck a = false) ∧ ¬ (f.mutex = false) := ⟨by simpa using hcheck, by simpa using hmutex⟩
  split at h
  · rename_i hstate
    cases h
    refine ⟨iff_of_false (fun hr => by cases hr.mutex) ?_, fun _ => rfl⟩
    rintro (h | h | ⟨h, -⟩)
    · exact hno.1 h
    · exact hno.2 h
    · rw [h] at hstate
      cases hstate
  rename_i hstate
  unfold searchEnd at h
  split at h
  · unfold grantEnd at h
    split at h <;> cases h
  rename_i hfind
  split at h
  · rename_i hlen
    split at h
    · rename_i hwait
      cases h
      refine ⟨?_, fun _ => rfl⟩
      cases hunlock : f.unlock with
      | true => exact iff_of_true (restored_self _ rfl) (.inr (.inr
          ⟨by simpa using hstate, rfl, hwait, hlen, by rw [hfind]; rfl⟩))
      | false =>
        refine iff_of_false (fun hr => by cases hr.mutex) ?_
        rintro (h | h | ⟨-, h, -⟩)
        · exact hno.1 h
        · exact hno.2 h
        · cases h
    · rename_i hwait
      have hheld := loopEnd_failed h
      refine ⟨iff_of_false (fun hr => ?_) ?_, fun hfree => ?_⟩
      · rw [hheld] at hr
        cases hr.mutex
      rintro (h | h | ⟨-, -, h, -⟩)
      · exact hno.1 h
      · exact hno.2 h
      · exact hwait h
      · rw [hheld] at hfree
        cases hfree
  · cases h

/-- Of the other turns those fail that keep the mutex, and those of an operation that has a record. -/
theorem resumed_failed {f : Services} {u : LockTurn} (hu : ∀ a loop, u ≠ .lock a loop)
    (hs : lockTurn f s u = some (.failed t held)) :
    held = true ∨ ∃ i v op, s.tasks[i]? = some v ∧ v.op = some op ∧ u.own s = some op ∧
      t = s.drop i := by
  cases u with
  | lock a loop => exact absurd rfl (hu a loop)
  | resume i =>
    simp only [lockTurn, Option.bind_eq_some_iff] at hs
    obtain ⟨v, hi, hs⟩ := hs
    cases v with
    | waiting a loop native => exact .inl (loopEnd_failed (Option.some.inj hs))
    | opLock a loop start stop native => exact .inl (sendLockEnd_failed (Option.some.inj hs))
    | lockAnswered a loop start stop specAddr specLen =>
      simp only [resumeEnd, Option.some.injEq] at hs
      split at hs
      · cases hs
        refine .inr ⟨i, _, _, hi, rfl, ?_, rfl⟩
        rw [LockTurn.own, hi]
        rfl
      · exact .inl (answerEnd_failed hs)
    | lockSent a loop start stop => cases hs
    | retracted start stop => cases hs
    | opUnlock start stop native => cases hs
    | unlockSent start stop => cases hs
    | unlockAnswered start stop => cases hs
  | refused i =>
    simp only [lockTurn] at hs
    split at hs
    · rename_i hi
      cases hs
      refine .inr ⟨i, _, _, hi, rfl, ?_, rfl⟩
      rw [LockTurn.own, hi]
      rfl
    · cases hs

theorem recorded_failStep {e : FailEvent} (h : Recorded s) (hs : failStep s e = some t) :
    Recorded t := by
  cases e with
  | step e => exact recorded_step h hs
  | fail f u =>
    simp only [failStep] at hs
    split at hs
    · rename_i t' hturn
      cases hs
      cases u with
      | lock a loop =>
        rw [(lockEnd_failed (Option.some.inj hturn)).2 rfl]
        exact h
      | resume i =>
        rcases resumed_failed (fun _ _ => LockTurn.noConfusion) hturn with hheld | ⟨i, v, op, hi, -, -, rfl⟩
        · cases hheld
        · exact h.drop hi
      | refused i =>
        rcases resumed_failed (fun _ _ => LockTurn.noConfusion) hturn with hheld | ⟨i, v, op, hi, -, -, rfl⟩
        · cases hheld
        · exact h.drop hi
    · cases hs

theorem recorded_reach (h : Reach failStep Init anyEvent s) : Recorded s :=
  h.invariant (fun _ h => (guarded_init h).recorded) fun _ _ _ h _ hs => recorded_failStep h hs

/-- **A `$lock` that fails leaves the brick as before exactly when it was refused**: for its arguments,
without the mutex, or for a conflict that it is not to wait for. Wherever else it fails the mutex
stays locked, or its record stays in the table. -/
theorem failed_lock_restores (f : Services) (u : LockTurn) (h : Reach failStep Init anyEvent s)
    (hs : lockTurn f s u = some (.failed t held)) : Restored s u t held ↔ Refused f s u := by
  have hrec := recorded_reach h
  cases u with
  | lock a loop => exact (lockEnd_failed (Option.some.inj hs)).1
  | resume i =>
    refine iff_of_false (fun hr => ?_) id
    rcases resumed_failed (fun _ _ => LockTurn.noConfusion) hs with hheld | ⟨j, v, op, hi, hop, hown, rfl⟩
    · rw [hheld] at hr
      cases hr.mutex
    · exact not_restored (t := s.drop j) hrec hi hop _ hown rfl hr
  | refused i =>
    refine iff_of_false (fun hr => ?_) id
    rcases resumed_failed (fun _ _ => LockTurn.noConfusion) hs with hheld | ⟨j, v, op, hi, hop, hown, rfl⟩
    · rw [hheld] at hr
      cases hr.mutex
    · exact not_restored (t := s.drop j) hrec hi hop _ hown rfl hr

def works : Services := ⟨true, true, true, true⟩

/-- A client that does not wait. -/
def impatient : LockTurn := .lock { plain 2 0 10 .write .none with action := .try } false

/-- Whether the mutex is held when a turn has failed. -/
def Ending.mutexHeld : Ending → Option Bool
  | .goesOn _ => none
  | .failed _ held => some held
  | .fatal => none

/-- It meets the lock of another one. -/
theorem failed_lock_restores_conflict : ∃ s t : Sys,
    lockTurn works s impatient = some (.failed t false) ∧ Restored s impatient t false := by
  have hrun : (run failStep anyEvent (fresh true) [.step (.lock (plain 1 0 10 .write .none))]).map
      (fun s => ((lockTurn works s impatient).bind Ending.mutexHeld,
        decide (Refused works s impatient))) = some (some false, true) := by
    decide +kernel
  obtain ⟨s, hs, heq⟩ := Option.map_eq_some_iff.mp hrun
  have hreach := (Reach.start (fresh_init true)).of_run hs
  rw [Prod.mk.injEq, decide_eq_true_eq] at heq
  obtain ⟨hheld, hrefused⟩ := heq
  obtain ⟨e, hturn, hheld⟩ := Option.bind_eq_some_iff.mp hheld
  cases e with
  | goesOn t => cases hheld
  | failed t held =>
    cases hheld
    exact ⟨s, t, hturn, (failed_lock_restores works impatient hreach hturn).mpr hrefused⟩
  | fatal => cases hheld

/-- The lock manager refuses: the record of the `$lock` stays, although no operation is out any
more. -/
theorem refused_lock_remains : ∃ s t : Sys, Reach failStep Init anyEvent s ∧
    lockTurn works s (.refused 0) = some (.failed t false) ∧ t.ops = [] ∧
    t.recOps = [(.lock, 0, 10)] ∧ ¬ Restored s (.refused 0) t false := by
  have hrun : (run failStep anyEvent (fresh false) [.step (.lock (plain 1 0 10 .write .none))]).map
      (fun s => (s.tasks, s.recOps)) =
      some ([.lockSent (plain 1 0 10 .write .none) false 0 10], [(.lock, 0, 10)]) := by
    decide +kernel
  obtain ⟨s, hs, heq⟩ := Option.map_eq_some_iff.mp hrun
  rw [Prod.mk.injEq] at heq
  obtain ⟨htasks, hrecs⟩ := heq
  have hreach := (Reach.start (fresh_init false)).of_run hs
  have hi : s.tasks[0]? = some (.lockSent (plain 1 0 10 .write .none) false 0 10) := by
    rw [htasks]
    rfl
  have hown : LockTurn.own s (.refused 0) = some (.lock, 0, 10) := by
    rw [LockTurn.own, hi]
    rfl
  refine ⟨s, s.drop 0, hreach, ?_, ?_, hrecs, ?_⟩
  · rw [lockTurn, hi]
  · rw [Sys.ops, Sys.drop, htasks]
    rfl
  · exact not_restored (t := s.drop 0) (recorded_reach hreach) hi rfl _ hown rfl

end Athomux.LockCache
