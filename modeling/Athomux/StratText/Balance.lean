import Athomux.NetConnect.Balance
import Athomux.StratMerge.Balance

/-!
# Allocations of the strategy bricks

The two bricks beside each other, over all runs.
-/

namespace Athomux.StratText

open Lib NetConnect

/-- **In fair runs, what is allocated is what is linked**, and everything is freed as it was
allocated. -/
theorem fair_balanced (alloc : Log → Nat → Nat) :
    (∀ s, Reach (StratMerge.step alloc) (· = StratMerge.State.init alloc) StratMerge.Fair s →
      StratMerge.Balanced s) ∧
    (∀ s, Reach (Mem.step alloc) (· = Mem.State.init alloc) Mem.Fair s → Mem.Balanced s) :=
  ⟨fun _ => StratMerge.balanced_of_fair, fun _ => Mem.balanced_of_fair⟩

/-- Addresses that have not been given before. -/
def bump (log : Log) (_ : Nat) : Nat := 4096 * (log.length + 1)

/-- A brick is inserted by `$gadr`. -/
def inserted : StratMerge.Op := .gadr [] (fun _ => []) (some 5)

/-- The texts of a main directory and of two parts. -/
def parts : Mem.Answers :=
  [some "brick=M \x7b\n  output=h \x7b\n    connect h=1:in,2:in\n  \x7d\n\x7d\n".toList,
    some "brick=remote_server \x7b\n  b_param remote_server=rid=7\n\x7d\n".toList,
    some "brick=remote_client \x7b\n  b_param remote_client=rid=7\n\x7d\n".toList]

def merging : Mem.Op := .trans true 0 4096 3 parts

/-- What is read from the texts. -/
def partsFound : Found where
  lb := [⟨0, "M".toList, []⟩, ⟨1, "remote_server".toList, "rid=7".toList⟩,
    ⟨2, "remote_client".toList, "rid=7".toList⟩]
  lc := [⟨[], "h".toList, 0, "in".toList, 1⟩, ⟨[], "h".toList, 0, "in".toList, 2⟩]

theorem parts_read : binfo (reading fun _ => Mem.Answers.next) 3 0 (⟨[], []⟩, parts) =
    some ((partsFound, []), some ()) := by
  rfl

theorem parts_gentle : Mem.Gentle partsFound where
  remote := by decide
  mirror := by
    intro m hm
    have hmerge : merge .remote partsFound.lb partsFound.lc [] =
        .ok ⟨[⟨0, "M".toList, []⟩, ⟨1, "remote".toList, "rid=7".toList⟩], [], [⟨1, 2⟩], none⟩ := by
      decide
    cases hmerge.symm.trans hm
    decide
  scans := by
    intro k
    cases k <;> unfold Mem.Scans <;> decide

/-- A fair run with a group of two parts, and one with a new brick. -/
theorem fair_balanced_parts :
    (∃ s, Mem.step bump (Mem.State.init bump) merging = some s ∧ Mem.Balanced s) ∧
    ∃ s, StratMerge.step bump (StratMerge.State.init bump) inserted = some s ∧
      StratMerge.Balanced s := by
  constructor
  · have hfair : Mem.Fair (Mem.State.init bump) merging := by
      refine fun _ _ => ⟨rfl, fun r hr => ?_⟩
      rw [parts_read] at hr
      cases hr
      exact parts_gentle
    have hsome : (Mem.step bump (Mem.State.init bump) merging).isSome = true := by decide +kernel
    obtain ⟨s, hs⟩ := Option.isSome_iff_exists.mp hsome
    exact ⟨s, hs, (fair_balanced bump).2 s (.next (.start rfl) hfair hs)⟩
  · have hfair : StratMerge.Fair (StratMerge.State.init bump) inserted := by
      unfold StratMerge.Fair inserted
      decide +kernel
    exact ⟨_, rfl, (fair_balanced bump).1 _ (.next (.start rfl) hfair rfl)⟩

/-- A brick that `$padr` has unlinked stays allocated. A part is freed with the size of a
connection when the graph is read again. -/
theorem balance_breaks :
    (¬ ∀ s, Reach (StratMerge.step bump) (· = StratMerge.State.init bump) anyEvent s →
      StratMerge.Balanced s) ∧
    ¬ ∀ s, Reach (Mem.step bump) (· = Mem.State.init bump) anyEvent s → Mem.Balanced s := by
  constructor
  · intro h
    have hrun : (run (StratMerge.step bump) anyEvent (StratMerge.State.init bump)
        [inserted, .padr 8192 true]).isSome = true := by decide +kernel
    obtain ⟨s, hs⟩ := Option.isSome_iff_exists.mp hrun
    have hlen := (h s (reach_run hs)).settled.2.length_eq
    have hne : ((run (StratMerge.step bump) anyEvent (StratMerge.State.init bump)
        [inserted, .padr 8192 true]).all fun s =>
          (Ledger.outstanding [] s.log).length = s.linked.length) = false := by decide +kernel
    rw [hs] at hne
    exact of_decide_eq_false hne hlen
  · intro h
    have hrun : (run (Mem.step bump) anyEvent (Mem.State.init bump)
        [merging, .trans true 0 4096 1 []]).isSome = true := by decide +kernel
    obtain ⟨s, hs⟩ := Option.isSome_iff_exists.mp hrun
    have hsound := (h s (reach_run hs)).settled.1
    have hne : ((run (Mem.step bump) anyEvent (Mem.State.init bump)
        [merging, .trans true 0 4096 1 []]).all fun s => Ledger.Sound [] s.log) = false := by
      decide +kernel
    rw [hs] at hne
    exact of_decide_eq_false hne hsound

end Athomux.StratText
