import Athomux.Lib.LinkedRing
import Athomux.Lib.RoundRobin
import Athomux.X86Tasks.Spec

/-!
# The ring of tasks

From the remembered task the scheduler goes through slots of deleted tasks, whose links still lead
to the ring, and then through the ring.
-/

open Lib

namespace Athomux.X86Tasks

variable {s s' : Sys} {tasks : Nat → Task} {i r lastTask turns junk : Nat} {st : TaskState}
  {way ring skip rest : List Nat}

/-! ## Links -/

def next (tasks : Nat → Task) : Nat → Nat := Task.nextTask ∘ tasks

def prev (tasks : Nat → Task) : Nat → Nat := Task.prevTask ∘ tasks

def state (tasks : Nat → Task) : Nat → TaskState := Task.state ∘ tasks

@[simp] theorem next_setNext :
    next (setNext tasks i r) = Function.update (next tasks) i r :=
  Function.comp_update _ _ _ _

@[simp] theorem prev_setNext : prev (setNext tasks i r) = prev tasks :=
  (Function.comp_update _ _ _ _).trans (Function.update_eq_self _ _)

@[simp] theorem state_setNext : state (setNext tasks i r) = state tasks :=
  (Function.comp_update _ _ _ _).trans (Function.update_eq_self _ _)

@[simp] theorem next_setPrev : next (setPrev tasks i r) = next tasks :=
  (Function.comp_update _ _ _ _).trans (Function.update_eq_self _ _)

@[simp] theorem prev_setPrev :
    prev (setPrev tasks i r) = Function.update (prev tasks) i r :=
  Function.comp_update _ _ _ _

@[simp] theorem state_setPrev : state (setPrev tasks i r) = state tasks :=
  (Function.comp_update _ _ _ _).trans (Function.update_eq_self _ _)

@[simp] theorem next_setState : next (setState tasks i st) = next tasks :=
  (Function.comp_update _ _ _ _).trans (Function.update_eq_self _ _)

@[simp] theorem prev_setState : prev (setState tasks i st) = prev tasks :=
  (Function.comp_update _ _ _ _).trans (Function.update_eq_self _ _)

@[simp] theorem state_setState :
    state (setState tasks i st) = Function.update (state tasks) i st :=
  Function.comp_update _ _ _ _

@[simp] theorem next_setPid : next (setPid tasks i r) = next tasks :=
  (Function.comp_update _ _ _ _).trans (Function.update_eq_self _ _)

@[simp] theorem prev_setPid : prev (setPid tasks i r) = prev tasks :=
  (Function.comp_update _ _ _ _).trans (Function.update_eq_self _ _)

@[simp] theorem state_setPid : state (setPid tasks i r) = state tasks :=
  (Function.comp_update _ _ _ _).trans (Function.update_eq_self _ _)

/-- What is read through the links. -/
theorem nextTask_eq : (tasks i).nextTask = next tasks i := rfl

theorem prevTask_eq : (tasks i).prevTask = prev tasks i := rfl

theorem next_link (hi : i ≠ 0) : next (link tasks i) =
    Function.update (Function.update (next tasks) 0 i) i (next tasks 0) := by
  simp only [link, nextTask_eq, next_setNext, next_setPrev]
  rw [Function.update_comm hi]

theorem prev_link (hi : i ≠ 0) : prev (link tasks i) =
    Function.update (Function.update (prev tasks) i 0) (next tasks 0) i := by
  simp only [link, nextTask_eq, next_setNext, next_setPrev, prev_setNext, prev_setPrev,
    Function.update_of_ne hi, Function.update_self]

theorem state_link : state (link tasks i) = state tasks := by simp only [link, state_setNext, state_setPrev]

theorem next_unlink : next (unlink tasks i) =
    Function.update (next tasks) (prev tasks i) (next tasks i) := by
  simp only [unlink, nextTask_eq, prevTask_eq, next_setNext, next_setPrev]

/-- The link out of `i` stays, so that it leads to the ring later. -/
theorem next_unlink_self (tasks : Nat → Task) (i : Nat) :
    next (unlink tasks i) i = next tasks i := by
  rw [next_unlink]
  by_cases h : i = prev tasks i
  · rw [← h, Function.update_self]
  · rw [Function.update_of_ne h]

theorem prev_unlink : prev (unlink tasks i) =
    Function.update (prev tasks) (next tasks i) (prev tasks i) := by
  have hsame := next_unlink_self tasks i
  rw [next_unlink] at hsame
  simp only [unlink, nextTask_eq, prevTask_eq, next_setNext, prev_setNext, prev_setPrev, hsame]

theorem state_unlink : state (unlink tasks i) = state tasks := by
  simp only [unlink, state_setNext, state_setPrev]

/-! ## The loop of the scheduler -/

def Follows (tasks : Nat → Task) (x y : Nat) : Prop := next tasks x = y

theorem Follows.congr {tasks' : Nat → Task} {l ys : List Nat} (hys : ys.length ≤ 1)
    (h : List.IsChain (Follows tasks) (l ++ ys)) (hsame : ∀ x ∈ l, next tasks' x = next tasks x) :
    List.IsChain (Follows tasks') (l ++ ys) := by
  induction l with
  | nil =>
    match ys, hys with
    | [], _ => exact List.isChain_nil
    | [y], _ => exact List.isChain_singleton y
  | cons x l ih =>
    rw [List.cons_append, List.isChain_cons] at h ⊢
    refine ⟨fun y hy => ?_, ih h.2 fun z hz => hsame z (List.mem_cons_of_mem x hz)⟩
    exact (hsame x List.mem_cons_self).trans (h.1 y hy)

theorem scheduleLoop_state (h : scheduleLoop tasks turns lastTask = some r) :
    state tasks r = .runnable := by
  induction turns generalizing lastTask with
  | zero => cases h
  | succ turns ih =>
    rw [scheduleLoop] at h
    split at h
    · rename_i hrun
      exact Option.some.inj h ▸ hrun
    · exact ih h

/-- The loop ends at the first runnable task. -/
theorem scheduleLoop_chain {l : List Nat} (turns : Nat)
    (hchain : List.IsChain (Follows tasks) (lastTask :: (l ++ [r])))
    (hskip : ∀ x ∈ l, state tasks x ≠ .runnable) (hr : state tasks r = .runnable) :
    scheduleLoop tasks turns lastTask = if l.length < turns then some r else none := by
  induction turns generalizing lastTask l with
  | zero => rfl
  | succ turns ih =>
    rw [scheduleLoop]
    cases l with
    | nil =>
      have hnext : next tasks lastTask = r := (List.isChain_cons_cons.mp hchain).1
      rw [nextTask_eq, hnext, if_pos (show (tasks r).state = .runnable from hr),
        if_pos (by simp)]
    | cons x l =>
      obtain ⟨hnext, hrest⟩ := List.isChain_cons_cons.mp hchain
      have hnext : next tasks lastTask = x := hnext
      have hx : ¬ (tasks x).state = .runnable := hskip x List.mem_cons_self
      rw [nextTask_eq, hnext, if_neg hx, ih hrest fun y hy => hskip y (List.mem_cons_of_mem x hy)]
      simp

/-! ## The invariant -/

/-- From the remembered task the links lead to the ring: it is the end of the ring, or it is not
in use any more. -/
inductive Way (tasks : Nat → Task) (lastTask : Nat) : List Nat → List Nat → Prop
  | here {ring : List Nat} : ring.getLast? = some lastTask → Way tasks lastTask [] ring
  | gone {way ring : List Nat} : lastTask ∉ ring → (∀ x ∈ way, x ∉ ring) →
      List.IsChain (Follows tasks) (lastTask :: way ++ ring.take 1) → Way tasks lastTask way ring

theorem Way.congr {tasks' : Nat → Task} (h : Way tasks lastTask way ring)
    (hsame : next tasks' = next tasks) : Way tasks' lastTask way ring := by
  cases h with
  | here hlast => exact .here hlast
  | gone hno hway hchain =>
    refine .gone hno hway (Follows.congr ?_ hchain fun x _ => congrFun hsame x)
    exact List.length_take_le 1 ring

structure Inv (s : Sys) (way ring : List Nat) : Prop where
  links : LinkedRing (next s.tasks) (prev s.tasks) (ring : Cycle Nat)
  nodup : ring.Nodup
  perm : ring.Perm (0 :: s.live)
  bound : ∀ i ∈ ring, i < maxTasks
  count : s.taskCount = ring.length
  tag : s.nextTag ≤ 0xFFFF
  free : ∀ i, i ∉ ring → state s.tasks i = .notRunnable
  way : Way s.tasks s.lastTask way ring

theorem Inv.mem (h : Inv s way ring) : i ∈ ring ↔ Exists s i := h.perm.mem_iff

theorem Inv.zero_mem (h : Inv s way ring) : 0 ∈ ring := h.mem.mpr List.mem_cons_self

theorem Inv.length_le (h : Inv s way ring) : ring.length ≤ maxTasks := by
  have hsub : ring ⊆ List.range maxTasks := fun i hi => List.mem_range.mpr (h.bound i hi)
  simpa using (h.nodup.subperm hsub).length_le

theorem Inv.valid (h : Inv s way ring) : RoundRobin.Valid 0 maxTasks ⟨s.lastTask, ring⟩ := by
  refine ⟨h.nodup, h.zero_mem, h.length_le, fun hmem => ?_⟩
  cases h.way with
  | here hlast => exact hlast
  | gone hno => exact absurd hmem hno

theorem Inv.init : Inv start [] [0] where
  links := LinkedRing.singleton_iff.mpr ⟨rfl, rfl⟩
  nodup := List.nodup_singleton 0
  perm := List.Perm.refl _
  bound i hi := by
    rw [List.mem_singleton.mp hi]
    decide
  count := rfl
  tag := by decide
  free i hi := by
    have hne : i ≠ 0 := by simpa using hi
    simp [start, state, hne]
  way := .here rfl

theorem chain_ring (h : LinkedRing (next tasks) (prev tasks) (i :: rest : List Nat)) :
    List.IsChain (Follows tasks) (i :: (rest ++ [i])) :=
  (LinkedRing.cons_iff.mp h).imp fun _ _ h => h.1

/-- What the scheduler goes through. -/
theorem Inv.chain (h : Inv s way ring) :
    List.IsChain (Follows s.tasks) (s.lastTask :: (way ++ ring)) := by
  cases h.way with
  | here hlast =>
    obtain ⟨l, rfl⟩ := List.getLast?_eq_some_iff.mp hlast
    have hlinks := h.links
    rw [← Cycle.coe_cons_eq_coe_append] at hlinks
    exact chain_ring hlinks
  | gone hno hway hchain =>
    obtain ⟨x, rest, rfl⟩ := List.exists_cons_of_ne_nil (List.ne_nil_of_mem h.zero_mem)
    have hrest : List.IsChain (Follows s.tasks) ([x] ++ rest) :=
      (List.isChain_append.mp (show List.IsChain _ ((x :: rest) ++ [x]) from chain_ring h.links)).1
    have := List.IsChain.append_overlap hchain hrest (by simp)
    simpa using this

end Athomux.X86Tasks
