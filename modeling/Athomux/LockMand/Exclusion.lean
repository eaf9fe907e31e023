import Athomux.LockMand.Melt
import Athomux.LockMelt.Safety

/-! # Locks of different mandates -/

open Lib Athomux.LockList

namespace Athomux.LockMand

open LockMelt

variable {s t : Sys} {list list' : LockRecs} {a : LockArgs} {d : Desc}

/-! ## One part -/

/-- The list is well-formed and no two mandates are in each other's way. -/
def Safe (list : LockRecs) : Prop := ∃ A F, Stores list A F ∅ ∧ WF A ∧ Exclusive A

/-- No foreign lock conflicts with `d`, nor with the rest of a first lock that is strengthened, and
no lock is stretched over the start of another one before it or over a conflicting foreign one. -/
def MeltOk (list : LockRecs) (d : Desc) : Prop :=
  d.start < d.stop →
    Clear isConflict list.entries { d with stop := reach d list.entries } ∧
    ¬ Crossing list.entries d ∧ ¬ Slip list.entries d

theorem Safe.meltPart (h : Safe list) (hok : MeltOk list d) (hs : meltPart list d = some list') :
    Safe list' := by
  obtain ⟨A, F, hst, hwf, hex⟩ := h
  unfold LockMand.meltPart at hs
  split at hs
  · rename_i hd
    obtain ⟨hclear, hcross, hslip⟩ := hok hd
    rw [hst.rep.entries_eq] at hclear hcross hslip
    obtain ⟨A', F', hst', hmolten⟩ := meltLockIntoList_spec True hst hwf hd (fun _ => trivial) hs
    refine ⟨A', F', hst', hmolten.wf hwf hcross, hmolten.melted.exclusive hwf hex hslip ?_⟩
    intro f hf ho x hfx hx
    refine clear_compat hclear hf ho hfx ?_
    rcases hx with hx | hx
    · exact ⟨hx.1, lt_of_lt_of_le hx.2 (le_reach d A)⟩
    · exact hx
  · cases hs
    exact ⟨A, F, hst, hwf, hex⟩

/-! ## All parts -/

/-- The parts of a request in the order in which they are molten. -/
def parts (a : LockArgs) : List Desc :=
  [part a a.opt.start a.obl.start false, part a a.obl.start a.obl.stop true,
    part a a.obl.stop a.opt.stop false]

theorem meltParts_eq (list : LockRecs) (a : LockArgs) :
    meltParts list a = (parts a).foldlM LockMand.meltPart list := by
  simp [meltParts, parts]

/-- Each of the parts is molten without a defect into what the parts before have made. -/
def PartsOk : LockRecs → List Desc → Prop
  | _, [] => True
  | list, d :: l => MeltOk list d ∧ ∀ list', meltPart list d = some list' → PartsOk list' l

theorem Safe.foldlM {l : List Desc} (h : Safe list) (hok : PartsOk list l)
    (hs : l.foldlM LockMand.meltPart list = some list') : Safe list' := by
  induction l generalizing list with
  | nil =>
    simp only [List.foldlM_nil, Option.pure_def, Option.some.injEq] at hs
    exact hs ▸ h
  | cons d l ih =>
    simp only [List.foldlM_cons, Option.bind_eq_bind, Option.bind_eq_some_iff] at hs
    obtain ⟨list₁, hpart, hs⟩ := hs
    exact ih (h.meltPart hok.1 hpart) (hok.2 list₁ hpart) hs

/-! ## Whole runs -/

/-- What `$lock` grants when nothing conflicts with the obligatory part. -/
def granted (list : LockRecs) (a : LockArgs) : Desc := list.cutOptional a.obl a.opt isConflict

/-- If the request is granted now, its parts are molten without a defect. -/
def GrantOk (list : LockRecs) (a : LockArgs) : Prop :=
  list.findFirstLock a.obl isConflict = none →
    (granted list a).start < (granted list a).stop → a.action ≠ .ask → PartsOk list (parts a)

/-- What is granted is molten without a defect, and what is given back does not wrap. -/
def Sound (s : Sys) : Event → Prop
  | .lock a => lockCheck a = true → noEffect a = false → GrantOk s.list a
  | .woken i => ∀ a, s.waiting[i]? = some a → GrantOk s.list a
  | .unlock _ _ _ tryAddr tryLen => tryAddr + tryLen ≤ addrSpace

/-- The list after an answer. -/
def LockAnswer.after (list : LockRecs) : LockAnswer → LockRecs
  | .granted list' _ _ => list'
  | _ => list

@[simp] theorem answer_after (s : Sys) (a : LockArgs) (r : LockAnswer) :
    (answer s a r).list = r.after s.list := by
  cases r <;> rfl

theorem Safe.grant {r : LockAnswer} (h : Safe list) (hok : GrantOk list a)
    (hfind : list.findFirstLock a.obl isConflict = none) (hs : grant list a = some r) :
    Safe (r.after list) := by
  simp only [LockMand.grant, Option.bind_eq_bind, Option.pure_def] at hs
  split at hs
  · rename_i hmelt
    simp only [Option.bind_eq_some_iff, Option.some.injEq] at hs
    obtain ⟨list', hparts, rfl⟩ := hs
    rw [meltParts_eq] at hparts
    exact h.foldlM (hok hfind hmelt.1 hmelt.2) hparts
  · cases hs
    exact h

theorem Safe.lock {r : LockAnswer} (h : Safe list)
    (hok : lockCheck a = true → noEffect a = false → GrantOk list a) (hs : lock list a = some r) :
    Safe (r.after list) := by
  unfold LockMand.lock at hs
  split at hs
  · cases hs
    exact h
  · rename_i hcheck
    split at hs
    · cases hs
      exact h
    · rename_i hno
      cases hfind : list.findFirstLock a.obl isConflict with
      | none =>
        rw [hfind] at hs
        exact h.grant (hok (by simpa using hcheck) (by simpa using hno)) hfind hs
      | some conflictor =>
        rw [hfind] at hs
        simp only at hs
        split at hs
        · split at hs
          · cases hs
            exact h
          · cases hs
            exact h
        · cases hs
          exact h

theorem Safe.lockWoken {r : LockAnswer} (h : Safe list) (hok : GrantOk list a)
    (hs : lockWoken list a = some r) : Safe (r.after list) := by
  unfold LockMand.lockWoken at hs
  cases hfind : list.findFirstLock a.obl isConflict with
  | none =>
    rw [hfind] at hs
    exact h.grant hok hfind hs
  | some conflictor =>
    rw [hfind] at hs
    cases hs
    exact h

theorem Safe.unlock {mandate logAddr logLen tryAddr tryLen : Nat} (h : Safe list)
    (hwrap : tryAddr + tryLen ≤ addrSpace)
    (hs : unlock list mandate logAddr logLen tryAddr tryLen = some list') : Safe list' := by
  simp only [LockMand.unlock] at hs
  split at hs
  · cases hs
    exact h
  · obtain ⟨A, F, hst, hwf, hex⟩ := h
    obtain ⟨A', F', hst', hrem, -, -⟩ := removeOwnLocks_spec True hst hwf
      (passed_or_le hwrap) (fun _ => trivial) hs
    exact ⟨A', F', hst', hrem.wf hwf, hrem.exclusive hwf hex⟩

theorem safe_step {e : Event} (h : Safe s.list) (hok : Sound s e) (hs : step s e = some t) :
    Safe t.list := by
  cases e with
  | lock a =>
    simp only [step, Option.map_eq_some_iff] at hs
    obtain ⟨r, hr, rfl⟩ := hs
    rw [answer_after]
    exact h.lock hok hr
  | woken i =>
    simp only [step, Option.bind_eq_some_iff, Option.map_eq_some_iff] at hs
    obtain ⟨a, ha, r, hr, rfl⟩ := hs
    rw [answer_after]
    exact h.lockWoken (hok a ha) hr
  | unlock mandate logAddr logLen tryAddr tryLen =>
    simp only [step, Option.map_eq_some_iff] at hs
    obtain ⟨list, hrem, rfl⟩ := hs
    exact h.unlock hok hrem

theorem safe_init (h : Init s) : Safe s.list := by
  obtain ⟨⟨desc, hlist⟩, -, -⟩ := h
  rw [hlist]
  exact ⟨[], _, stores_init desc, ⟨by simp [Sorted], by simp, by simp⟩, by simp [Exclusive]⟩

/-- Two records that overlap and have different mandates carry types that the matrix allows. -/
def Exclusion (s : Sys) : Prop :=
  s.list.records.Pairwise fun d e => d.tag.mandate ≠ e.tag.mandate → d.Overlaps e →
    d.tag.type.conflicts e.tag.type = false

/-- **Locks of different mandates that overlap never conflict.** This holds in every run whose
steps are all sound. -/
theorem mand_exclusion (h : Reach step Init Sound s) : Exclusion s := by
  have hsafe : Safe s.list := h.invariant (fun _ => safe_init) (fun _ _ _ => safe_step)
  obtain ⟨A, F, hst, -, hex⟩ := hsafe
  unfold Exclusion
  rw [hst.rep.records_eq, List.pairwise_map]
  have hne : A.Pairwise fun e f => e.1 ≠ f.1 := List.pairwise_map.mp hst.rep.fst_nodup
  exact hne.imp_of_mem fun he hf _ hm hover => hex _ he _ hf hm hover

/-! ## Examples -/

/-- No own lock starts inside of the part, and no foreign one conflicts with it. -/
def partApart (list : LockRecs) (d : Desc) : Bool :=
  list.entries.all fun e =>
    (!isOwn e.2 d || e.2.start ≤ d.start || d.stop ≤ e.2.start) &&
    !(isConflict e.2 d && e.2.start < reach d list.entries && d.start < e.2.stop)

def partsApart : LockRecs → List Desc → Bool
  | _, [] => true
  | list, d :: l => partApart list d && (meltPart list d).all fun list' => partsApart list' l

theorem meltOk_of_apart (h : partApart list d = true) : MeltOk list d := by
  simp only [partApart, List.all_eq_true, Bool.and_eq_true, Bool.or_eq_true, Bool.not_eq_true',
    decide_eq_true_eq] at h
  have hno : ∀ e ∈ list.entries, Own d e → e.2.start ≤ d.start ∨ d.stop ≤ e.2.start := by
    intro e he ho
    rcases (h e he).1 with (hown | hle) | hle
    · rw [own_iff.mpr ho] at hown
      cases hown
    · exact Or.inl hle
    · exact Or.inr hle
  refine fun _ => ⟨?_, not_crossing hno, not_slip hno⟩
  intro e he hover
  have hfree := (h e he).2
  rw [decide_eq_true hover.1, decide_eq_true hover.2, Bool.and_true, Bool.and_true] at hfree
  exact hfree

theorem partsOk_of_apart {l : List Desc} (h : partsApart list l = true) : PartsOk list l := by
  induction l generalizing list with
  | nil => trivial
  | cons d l ih =>
    rw [partsApart, Bool.and_eq_true] at h
    refine ⟨meltOk_of_apart h.1, fun list' hs => ih ?_⟩
    have := h.2
    rwa [hs] at this

/-- What is locked has its parts apart, and what is given back does not wrap. -/
def Apart (s : Sys) : Event → Prop
  | .lock a => partsApart s.list (parts a) = true
  | .woken _ => False
  | .unlock _ _ _ tryAddr tryLen => tryAddr + tryLen ≤ addrSpace

instance (s : Sys) (e : Event) : Decidable (Apart s e) := by
  unfold Apart
  split <;> infer_instance

theorem sound_of_apart {e : Event} (h : Apart s e) : Sound s e := by
  cases e with
  | lock a => exact fun _ _ _ _ _ => partsOk_of_apart h
  | woken i => exact absurd h id
  | unlock mandate logAddr logLen tryAddr tryLen => exact h

def fresh : Sys where
  list := LockList.init maxLockRecords fun _ => unlockDesc 0 0 0
  waiting := []
  retracts := []

theorem fresh_init : Init fresh := ⟨⟨_, rfl⟩, rfl, rfl⟩

/-- A record of a mandate. -/
def record (mandate start stop : Nat) (dataLock addrLock : LockT) (obligatory : Bool) : Desc :=
  ⟨start, stop, ⟨mandate, ⟨dataLock, addrLock⟩, obligatory⟩⟩

/-- A reader takes an optional part below a writer, and gives some of it back. -/
theorem mand_exclusion_optional : ∃ s : Sys,
    s.list.records = [record 1 12 20 .read .none false, record 1 20 30 .read .none true,
      record 2 30 40 .write .none true] ∧ Exclusion s := by
  have hrun : (run step Apart fresh [.lock ⟨2, 30, 10, 30, 10, .write, .none, .wait⟩,
      .lock ⟨1, 20, 10, 10, 20, .read, .none, .wait⟩, .unlock 1 10 2 10 2]).map
      (fun s => s.list.records) = some [record 1 12 20 .read .none false,
        record 1 20 30 .read .none true, record 2 30 40 .write .none true] := by
    decide +kernel
  obtain ⟨s, hs, heq⟩ := Option.map_eq_some_iff.mp hrun
  refine ⟨s, heq, mand_exclusion (Reach.mono (fun _ _ => sound_of_apart) ?_)⟩
  exact (Reach.start fresh_init).of_run hs

/-- The optional part above is cut at a writer and yet molten over it as it was requested. -/
theorem mand_exclusion_broken : ∃ s : Sys, Reach step Init anyEvent s ∧
    s.list.records = [record 1 10 20 .write .none true, record 1 20 100 .write .none false,
      record 2 50 60 .write .none true] ∧ ¬ Exclusion s := by
  have hrun : (run step anyEvent fresh [.lock ⟨2, 50, 10, 50, 10, .write, .none, .wait⟩,
      .lock ⟨1, 10, 10, 10, 90, .write, .none, .wait⟩]).map (fun s => s.list.records) =
      some [record 1 10 20 .write .none true, record 1 20 100 .write .none false,
        record 2 50 60 .write .none true] := by
    decide +kernel
  obtain ⟨s, hs, heq⟩ := Option.map_eq_some_iff.mp hrun
  refine ⟨s, (Reach.start fresh_init).of_run hs, heq, ?_⟩
  rw [Exclusion, heq]
  decide

end Athomux.LockMand
