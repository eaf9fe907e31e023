import Athomux.X86Tasks.Steps

/-!
# The table and the rounds

Over whole runs, as long as every creation fits.
-/

open Lib

namespace Athomux.X86Tasks

variable {s s' : Sys} {i t u turns : Nat} {l : List Nat} {stay : Nat → Prop}

/-- The links give a ring of task 0 and the tasks that exist, each once. -/
def RingOf (s : Sys) : Prop :=
  ∃ order : List Nat, LinkedRing (fun i => (s.tasks i).nextTask) (fun i => (s.tasks i).prevTask)
      (0 :: order : List Nat) ∧
    (0 :: order).Nodup ∧ order.Perm s.live ∧ s.taskCount = (0 :: order).length

def Runnable (s : Sys) (i : Nat) : Prop := Exists s i ∧ (s.tasks i).state = .runnable

/-- The loop of the scheduler ends. -/
def Chooses (s : Sys) : Prop :=
  (∃ i, Runnable s i) →
    ∃ turns r, scheduleLoop s.tasks turns s.lastTask = some r ∧ Runnable s r

/-- A new task has a slot of its own. -/
def Creates (s : Sys) : Prop :=
  ∀ junk s', Fits s (.create junk) → step s (.create junk) = some s' →
    ∃ i, i < maxTasks ∧ ¬ Exists s i ∧ s'.live = i :: s.live

/-- A part of a run in which the tasks of `stay` stay runnable, with the tasks that are chosen. -/
inductive Segment (stay : Nat → Prop) (s : Sys) : List Nat → Sys → Prop
  | refl : (∀ x, stay x → Runnable s x) → Segment stay s [] s
  | step {l : List Nat} {t t' : Sys} {e : Event} : Segment stay s l t → Fits t e →
      step t e = some t' → (∀ x, stay x → Runnable t' x) →
      Segment stay s (l ++ (chosen e t').toList) t'

/-- Between two choices of a task every other one is chosen once, and every task is chosen within so
many choices. -/
def Rounds (s : Sys) : Prop :=
  ∀ (stay : Nat → Prop) (l : List Nat) (s' : Sys), Segment stay s l s' →
    (∀ t u turns, stay t → stay u → u ≠ t → s.lastTask = t → t ∉ l →
      scheduleLoop s'.tasks turns s'.lastTask = some t → l.count u = 1) ∧
    ∀ t, stay t → 2 * maxTasks + 1 < l.length → t ∈ l

/-! ## Every state of a run -/

theorem exists_inv (h : Reach step Init Fits s) : ∃ way ring, Inv s way ring := by
  refine h.invariant (I := fun s => ∃ way ring, Inv s way ring) ?_ ?_
  · rintro s rfl
    exact ⟨[], [0], .init⟩
  · rintro s e t ⟨way, ring, hinv⟩ hfit hstep
    obtain ⟨way', ring', hinv', -⟩ := hinv.step hfit hstep
    exact ⟨way', ring', hinv'⟩

theorem Inv.ringOf {way ring : List Nat} (h : Inv s way ring) : RingOf s := by
  obtain ⟨xs, ys, rfl⟩ := List.append_of_mem h.zero_mem
  have hperm : (0 :: (ys ++ xs)).Perm (xs ++ 0 :: ys) :=
    (List.perm_append_comm.cons 0).trans List.perm_middle.symm
  refine ⟨ys ++ xs, ?_, hperm.nodup_iff.mpr h.nodup, ?_, h.count.trans hperm.length_eq.symm⟩
  · rw [← cycle_split]
    exact h.links
  · exact (List.perm_cons 0).mp (hperm.trans h.perm)

theorem Inv.chooses {way ring : List Nat} (h : Inv s way ring) : Chooses s := by
  rintro ⟨i, hex, hrun⟩
  obtain ⟨skip, r, rest, rfl, hr, hskip⟩ :=
    exists_first (p := fun x => state s.tasks x = .runnable) ⟨i, h.mem.mpr hex, hrun⟩
  have hloop := h.scheduleLoop (way.length + skip.length + 1) hr hskip h.way.dead
  rw [if_pos (Nat.lt_succ_self _)] at hloop
  exact ⟨_, r, hloop, h.mem.mp (List.mem_append_right _ List.mem_cons_self), hr⟩

theorem Inv.creates {way ring : List Nat} (h : Inv s way ring) : Creates s := by
  rintro junk s' ⟨i, hfree, hi, -⟩ hstep
  obtain rfl := Option.some.inj ((create_eq hfree h.tag).symm.trans hstep)
  exact ⟨i, (freeSlot_spec hfree).1, hi, rfl⟩

/-! ## Rounds -/

/-- The segments are turns of the ring. -/
theorem Segment.steps {way ring : List Nat} (hs : Segment stay s l s') (h : Inv s way ring) :
    ∃ way' ring', Inv s' way' ring' ∧ RoundRobin.Steps 0 maxTasks stay ⟨s.lastTask, ring⟩ l
      ⟨s'.lastTask, ring'⟩ := by
  induction hs with
  | refl hstay =>
    exact ⟨way, ring, h, .refl h.valid fun x hx => h.mem.mpr (hstay x hx).1⟩
  | @step l t t' e hs hfit hstep hstay ih =>
    obtain ⟨way', ring', hinv, hsteps⟩ := ih
    obtain ⟨way'', ring'', hinv', hturn⟩ := hinv.step hfit hstep
    refine ⟨way'', ring'', hinv', .step hsteps ?_ hturn hinv'.valid fun x hx => ?_⟩
    · intro x hx
      cases hs with
      | refl hrun => exact (hrun x hx).2
      | step _ _ _ hrun => exact (hrun x hx).2
    · exact hinv'.mem.mpr (hstay x hx).1

theorem Segment.runnable (hs : Segment stay s l s') {x : Nat} (hx : stay x) :
    Runnable s x ∧ Runnable s' x := by
  induction hs with
  | refl hrun => exact ⟨hrun x hx, hrun x hx⟩
  | step _ _ _ hrun ih => exact ⟨ih.1, hrun x hx⟩

theorem Inv.rounds {way ring : List Nat} (h : Inv s way ring) : Rounds s := by
  intro stay l s' hs
  obtain ⟨way', ring', hinv, hsteps⟩ := hs.steps h
  refine ⟨?_, ?_⟩
  · rintro t u turns ht hu hne rfl hnot hloop
    have hmemt := h.mem.mpr (hs.runnable ht).1.1
    have hmemu := h.mem.mpr (hs.runnable hu).1.1
    have hend : ring.getLast? = some s.lastTask := h.valid.last hmemt
    have hbefore := RoundRobin.before_getLast hend hmemu hne
    rcases hsteps.count hu ht hbefore hnot with ⟨hb, -⟩ | ⟨-, hcount⟩
    · -- Then `u` would be chosen.
      obtain ⟨ring'', -, hturn⟩ := hinv.schedule hloop
      have := hturn.before_some hinv.nodup hb (hs.runnable hu).2.2 (hs.runnable ht).2.2
      exact absurd rfl this.1
    · exact hcount
  · intro t ht hlen
    exact hsteps.mem_of_length h.valid ht (h.mem.mpr (hs.runnable ht).1.1) hlen

/-! ## Whole runs -/

/-- **As long as every creation fits, the tasks are a ring, and the scheduler goes round.** -/
theorem tasks_sound (h : Reach step Init Fits s) :
    RingOf s ∧ Chooses s ∧ Creates s ∧ Rounds s := by
  obtain ⟨way, ring, hinv⟩ := exists_inv h
  exact ⟨hinv.ringOf, hinv.chooses, hinv.creates, hinv.rounds⟩

theorem not_onWay (hlast : Exists s s.lastTask) : ¬ OnWay s i := by
  intro h
  induction h with
  | last hno => exact hno hlast
  | next _ _ ih => exact ih

theorem fits_create (i junk : Nat) (hfree : freeSlot s = some i) (hi : ¬ Exists s i)
    (hlast : Exists s s.lastTask) : Fits s (.create junk) :=
  ⟨i, hfree, hi, not_onWay hlast⟩

theorem fits_setState (i : Nat) (st : TaskState) : Fits s (.setState i st) := trivial

theorem fits_schedule (turns : Nat) : Fits s (.schedule turns) := trivial

/-- Two tasks, and each has been chosen. -/
theorem tasks_sound_two : ∃ s, s.live = [2, 1] ∧ s.lastTask = 1 ∧
    RingOf s ∧ Chooses s ∧ Creates s ∧ Rounds s := by
  have h0 : Reach step Init Fits start := .start rfl
  have h1 := h0.next (fits_create 1 0 rfl (by decide) (by decide)) rfl
  have h2 := h1.next (fits_setState 1 .runnable) rfl
  have h3 := h2.next (fits_create 2 0 rfl (by decide) (by decide)) rfl
  have h4 := h3.next (fits_setState 2 .runnable) rfl
  have h5 := h4.next (fits_schedule 1) rfl
  have h6 := h5.next (fits_schedule 1) rfl
  exact ⟨_, rfl, rfl, tasks_sound h6⟩

/-- **A new task is not runnable yet, so that the next one has its slot.** -/
theorem tasks_share_slot : ∃ s, run step anyEvent start [.create 0, .create 0] = some s ∧
    s.live = [1, 1] ∧ ¬ RingOf s := by
  refine ⟨_, rfl, rfl, ?_⟩
  rintro ⟨order, -, hnd, hperm, -⟩
  have := hperm.nodup_iff.mp (List.nodup_cons.mp hnd).2
  exact absurd this (by decide)

end Athomux.X86Tasks
