import Athomux.Lib.Run
import Mathlib.Logic.Function.Basic

/-!
# Tasks of the x86 kernel

`#cpu_x86` keeps the task table, and `#sched_x86` chooses who is next. The tasks are a ring that
starts at the main task, in slot 0.
-/

open Lib

namespace Athomux.X86Tasks

def maxTasks : Nat := 128

/-- `sizeof(task_t)`. -/
def taskSize : Nat := 250

/-- The `TASK_` constants. -/
inductive TaskState
  | notRunnable
  | runnable
  | waiting
  | stopped
  deriving DecidableEq, Repr

/-- What `task_t` has of the table: a slot that is not in use has the state `notRunnable`. -/
structure Task where
  state : TaskState
  nextTask : Nat
  prevTask : Nat
  pid : Nat
  deriving DecidableEq, Repr

/-- The table, `sched_t`, and `last_task` of the scheduler. `live` are the slots of the tasks that
were created and not deleted, newest first. -/
structure Sys where
  tasks : Nat → Task
  taskCount : Nat
  nextTag : Nat
  lastTask : Nat
  live : List Nat

/-! ## `#cpu_x86` -/

/-- `PID_TASK_INDEX`. -/
def pidTaskIndex (pid : Nat) : Nat := pid >>> 16

/-- The search for a free slot. -/
def freeSlot (s : Sys) : Option Nat :=
  (List.range maxTasks).find? fun i => (s.tasks i).state == .notRunnable

def setNext (tasks : Nat → Task) (i next : Nat) : Nat → Task :=
  Function.update tasks i { tasks i with nextTask := next }

def setPrev (tasks : Nat → Task) (i prev : Nat) : Nat → Task :=
  Function.update tasks i { tasks i with prevTask := prev }

def setState (tasks : Nat → Task) (i : Nat) (state : TaskState) : Nat → Task :=
  Function.update tasks i { tasks i with state := state }

def setPid (tasks : Nat → Task) (i pid : Nat) : Nat → Task :=
  Function.update tasks i { tasks i with pid := pid }

/-- The links when `i` is put behind task 0. -/
def link (tasks : Nat → Task) (i : Nat) : Nat → Task :=
  let tasks := setNext tasks i (tasks 0).nextTask
  let tasks := setPrev tasks i 0
  let tasks := setNext tasks 0 i
  setPrev tasks (tasks i).nextTask i

/-- `create_task`. The check that the table is full leaves it without a process id. -/
def createTask (s : Sys) : Option (Nat × Sys) :=
  (freeSlot s).map fun i =>
    let pid := i <<< 16 ||| s.nextTag
    (pid, { s with
      tasks := setPid (setState (link s.tasks i) i .notRunnable) i pid
      nextTag := if s.nextTag + 1 > 0xFFFF then 1 else s.nextTag + 1
      taskCount := s.taskCount + 1 })

/-- The links when `i` is taken out. -/
def unlink (tasks : Nat → Task) (i : Nat) : Nat → Task :=
  let tasks := setNext tasks (tasks i).prevTask (tasks i).nextTask
  setPrev tasks (tasks i).nextTask (tasks i).prevTask

/-- `delete_task`, with `athomux_shutdown` behind the last regular task. -/
def deleteTask (s : Sys) (i : Nat) : Sys :=
  let tasks := setState (unlink s.tasks i) i .notRunnable
  let s := { s with tasks := tasks, taskCount := s.taskCount - 1 }
  if s.taskCount = 1 then { s with tasks := setState s.tasks 0 .runnable } else s

/-- What an operation answers: `@success`, and `@log_addr`. -/
structure Answer where
  success : Bool
  logAddr : Nat
  deriving DecidableEq, Repr

/-- `$gadr` of `:>tasks(:0:)`. `junk` is what is in `pid` before `create_task`. -/
def gadr (s : Sys) (junk : Nat) : Answer × Sys :=
  match createTask s with
  | some (pid, s) => (⟨true, pidTaskIndex pid * taskSize⟩, s)
  | none => (⟨true, pidTaskIndex junk * taskSize⟩, s)

/-- `$padr` of `:>tasks(:0:)`. -/
def padr (s : Sys) (logAddr : Nat) : Sys := deleteTask s (logAddr / taskSize)

/-! ## `#sched_x86` -/

/-- The loop of `$gadr`, for as many turns. -/
def scheduleLoop (tasks : Nat → Task) : Nat → Nat → Option Nat
  | 0, _ => none
  | turns + 1, lastTask =>
    let lastTask := (tasks lastTask).nextTask
    if (tasks lastTask).state = .runnable then some lastTask
    else scheduleLoop tasks turns lastTask

/-! ## The system -/

inductive Event
  | create (junk : Nat)
  | delete (i : Nat)
  /-- The owner of a task, or the kernel for task 0, sets its state. -/
  | setState (i : Nat) (state : TaskState)
  /-- `$gadr` of the scheduler, if its loop ends after as many turns. -/
  | schedule (turns : Nat)
  deriving DecidableEq

/-- Task 0, or a task that was created and not deleted. -/
def Exists (s : Sys) (i : Nat) : Prop := i ∈ 0 :: s.live

instance (s : Sys) (i : Nat) : Decidable (Exists s i) := inferInstanceAs (Decidable (_ ∈ _))

/-- Who creates a task knows its slot by the answer. -/
def step (s : Sys) : Event → Option Sys
  | .create junk =>
    let (a, t) := gadr s junk
    some (if a.success then { t with live := a.logAddr / taskSize :: t.live } else t)
  | .delete i =>
    if i ≠ 0 ∧ i ∈ s.live then
      some { padr s (i * taskSize) with live := s.live.erase i }
    else none
  | .setState i state =>
    if Exists s i then some { s with tasks := setState s.tasks i state } else none
  | .schedule turns =>
    (scheduleLoop s.tasks turns s.lastTask).map fun r => { s with lastTask := r }

/-- `init`. -/
def start : Sys where
  tasks i := if i = 0 then ⟨.runnable, 0, 0, 1⟩ else ⟨.notRunnable, 0, 0, 0⟩
  taskCount := 1
  nextTag := 1
  lastTask := 0
  live := []

def Init (s : Sys) : Prop := s = start

/-! ## Creations that fit -/

/-- The scheduler still goes through the slot, after the deletion of the tasks that it remembers. -/
inductive OnWay (s : Sys) : Nat → Prop
  | last : ¬ Exists s s.lastTask → OnWay s s.lastTask
  | next {i : Nat} : OnWay s i → ¬ Exists s (s.tasks i).nextTask → OnWay s (s.tasks i).nextTask

/-- A creation finds a slot that no task has, and that the scheduler has nothing to do with. -/
def Fits (s : Sys) : Event → Prop
  | .create _ => ∃ i, freeSlot s = some i ∧ ¬ Exists s i ∧ ¬ OnWay s i
  | _ => True

end Athomux.X86Tasks
