import Athomux.Lib.Run
import Mathlib.Data.Finset.Max
import Mathlib.Data.Finset.Range
import Mathlib.Logic.Function.Basic

/-!
# Native locks

`#lock_native` hands out 128 locks. The bits of `free_locks` that are set are a
`Finset` here. `$gadr` takes the lowest bit of the lowest word, so the least one.
-/

namespace Athomux

def nNativeLocks : Nat := 128

structure LockNative where
  freeLocks : Finset Nat
  deriving DecidableEq

namespace LockNative

/-- `$output_init`. -/
def init : LockNative := ⟨Finset.range nNativeLocks⟩

/-- `$gadr`. -/
def gadr (s : LockNative) : Option (Nat × LockNative) :=
  if h : s.freeLocks.Nonempty then
    let index := s.freeLocks.min' h
    some (index, ⟨s.freeLocks.erase index⟩)
  else none

/-- `$padr`. -/
def padr (s : LockNative) (index : Nat) : Option LockNative :=
  if index < nNativeLocks then
    if index ∈ s.freeLocks then none else some ⟨insert index s.freeLocks⟩
  else none

def nFree (s : LockNative) : Nat := s.freeLocks.card

theorem nFree_init : init.nFree = nNativeLocks := Finset.card_range _

theorem gadr_eq_none {s : LockNative} : s.gadr = none ↔ s.nFree = 0 := by
  unfold gadr nFree
  split
  · rename_i h
    simp [Finset.card_eq_zero, h.ne_empty]
  · rename_i h
    simpa [Finset.card_eq_zero] using Finset.not_nonempty_iff_eq_empty.mp h

theorem gadr_spec {s s' : LockNative} {i : Nat} (h : s.gadr = some (i, s')) :
    i ∈ s.freeLocks ∧ s'.freeLocks = s.freeLocks.erase i := by
  unfold gadr at h
  split at h
  · simp only [Option.some.injEq, Prod.mk.injEq] at h
    obtain ⟨rfl, rfl⟩ := h
    exact ⟨Finset.min'_mem _ _, rfl⟩
  · cases h

theorem gadr_nFree {s s' : LockNative} {i : Nat} (h : s.gadr = some (i, s')) :
    s.nFree = s'.nFree + 1 := by
  obtain ⟨hi, heq⟩ := gadr_spec h
  rw [nFree, nFree, heq, Finset.card_erase_add_one hi]

theorem padr_spec {s : LockNative} {i : Nat} (hlt : i < nNativeLocks) (hi : i ∉ s.freeLocks) :
    s.padr i = some ⟨insert i s.freeLocks⟩ := by
  rw [padr, if_pos hlt, if_neg hi]

end LockNative

end Athomux

/-!
## The words of the native locks

`free_locks` is a bitmap of words, and under ulinux the condition variable of a lock is initialised
when the lock is allocated for the first time.
-/

open Lib

namespace Athomux.LockNative

/-- `WORD_SIZE`. -/
def wordSize : Nat := 32

/-- `N_NATIVE_LOCKS / WORD_SIZE`. -/
def nWords : Nat := 4

/-- The words, the counter, and what was done with it: the slots whose condition variable was
initialised, and the slots of the error message. `allocated` are the locks that `$gadr` has returned
and `$padr` has not taken back. -/
structure Words where
  freeLocks : Nat → BitVec 32
  nSecondHandLocks : Nat
  inits : List Nat
  bugs : List Nat
  allocated : List Nat

/-- What the thread library answers for a slot: `true` is success. -/
structure Pthread where
  condInit : Nat → Bool
  condBroadcast : Nat → Bool

/-- Neither function ever returns an error code. -/
structure Pthread.Works (pt : Pthread) : Prop where
  condInit : ∀ i, pt.condInit i = true
  condBroadcast : ∀ i, pt.condBroadcast i = true

namespace Words

/-- `ffs`. -/
def ffs (w : BitVec 32) : Nat := if w = 0 then 0 else w.ctz.toNat + 1

/-- `init_lock`, with the branch of the debug configurations: whether the operation goes on. -/
def initLock (pt : Pthread) (s : Words) (index : Nat) : Bool × Words :=
  if index = s.nSecondHandLocks then
    (pt.condInit index,
      { s with nSecondHandLocks := s.nSecondHandLocks + 1, inits := index :: s.inits })
  else if s.nSecondHandLocks < index then (false, { s with bugs := index :: s.bugs })
  else (true, s)

/-- The loop over the words finds the first one that is not 0. -/
def findWord (freeLocks : Nat → BitVec 32) : Option Nat :=
  (List.range nWords).find? fun i => freeLocks i != 0

/-- `$gadr`. -/
def gadr (pt : Pthread) (s : Words) : Option Nat × Words :=
  match findWord s.freeLocks with
  | some wordIndex =>
    let word := s.freeLocks wordIndex
    let bitIndex := ffs word - 1
    let index := wordIndex * wordSize + bitIndex
    let s := { s with
      freeLocks := Function.update s.freeLocks wordIndex (word &&& ~~~BitVec.twoPow 32 bitIndex) }
    let (ok, s) := s.initLock pt index
    (if ok then some index else none, s)
  | none => (none, s)

/-- `$padr`: `@success`. -/
def padr (pt : Pthread) (s : Words) (logAddr : Nat) : Bool × Words :=
  if logAddr < nNativeLocks then
    let wordIndex := logAddr / wordSize
    let mask := BitVec.twoPow 32 (logAddr % wordSize)
    let word := s.freeLocks wordIndex
    if word &&& mask = 0 then
      (pt.condBroadcast logAddr,
        { s with freeLocks := Function.update s.freeLocks wordIndex (word ||| mask) })
    else (false, s)
  else (false, s)

/-- `$output_init`. -/
def start : Words where
  freeLocks _ := BitVec.allOnes 32
  nSecondHandLocks := 0
  inits := []
  bugs := []
  allocated := []

inductive Event
  | gadr
  | padr (logAddr : Nat)
  deriving DecidableEq

def step (pt : Pthread) (s : Words) : Event → Option Words
  | .gadr =>
    let (i, t) := gadr pt s
    some { t with allocated := i.toList ++ t.allocated }
  | .padr logAddr =>
    let (success, t) := padr pt s logAddr
    some (if success then { t with allocated := t.allocated.erase logAddr } else t)

def Init (s : Words) : Prop := s = start

end Words

end Athomux.LockNative
