import Mathlib.Order.Defs.PartialOrder
import Mathlib.Tactic.Common

/-!
# Regions of an address space

A region is a start and a length. A region without a length has no addresses, wherever it starts.
-/

namespace Lib

structure Region where
  start : Nat
  len : Nat
  deriving DecidableEq

namespace Region

def stop (r : Region) : Nat := r.start + r.len

def Has (r : Region) (x : Nat) : Prop := r.start ≤ x ∧ x < r.stop

instance (r : Region) (x : Nat) : Decidable (r.Has x) := by
  unfold Has
  infer_instance

/-- No address is in both regions. -/
def Apart (r q : Region) : Prop := ∀ x, r.Has x → ¬ q.Has x

theorem apart_iff {r q : Region} :
    r.Apart q ↔ r.len = 0 ∨ q.len = 0 ∨ r.stop ≤ q.start ∨ q.stop ≤ r.start := by
  unfold Apart Has stop
  constructor
  · intro h
    have hr := h r.start
    have hq := h q.start
    omega
  · intro h x
    omega

instance (r q : Region) : Decidable (r.Apart q) := decidable_of_iff _ apart_iff.symm

theorem Apart.symm {r q : Region} (h : r.Apart q) : q.Apart r := fun x hq hr => h x hr hq

theorem apart_of_len {r q : Region} (h : r.len = 0) : r.Apart q := apart_iff.mpr (Or.inl h)

end Region

/-! ## Making room

One of the regions grows or shrinks by `delta`, and what starts at `base` or behind it is shifted by
as much. `p` are the regions that count.
-/

variable {ι : Type} {p : ι → Prop} {r r' : ι → Region} {own : ι} {base : Nat} {delta : Int}

structure Shifted (p : ι → Prop) (r r' : ι → Region) (own : ι) (base : Nat) (delta : Int) :
    Prop where
  start : (r' own).start = (r own).start
  len : ((r' own).len : Int) = (r own).len + delta
  behind : ∀ i, p i → i ≠ own → base ≤ (r i).start → ((r' i).start : Int) = (r i).start + delta
  before : ∀ i, p i → i ≠ own → (r i).start < base → (r' i).start = (r i).start
  lens : ∀ i, p i → i ≠ own → (r' i).len = (r i).len

/-- No other region lies, even in part, between the start of `own` and `base`. -/
def Clear (p : ι → Prop) (r : ι → Region) (own : ι) (base : Nat) : Prop :=
  ∀ i, p i → i ≠ own → (r i).len ≠ 0 → (r i).stop ≤ (r own).start ∨ base ≤ (r i).start

namespace Shifted

/-- The region that changes stays apart from the others. -/
theorem own_apart (h : Shifted p r r' own base delta) (hclear : Clear p r own base)
    (hbase : (r own).start ≤ base) {i : ι} (hi : p i) (hne : i ≠ own)
    (hapart : (r own).Apart (r i)) : (r' own).Apart (r' i) := by
  rw [Region.apart_iff] at hapart ⊢
  unfold Region.stop at *
  have hstart := h.start
  have hlen := h.len
  have hlens := h.lens i hi hne
  by_cases hzero : (r i).len = 0
  · omega
  · rcases hclear i hi hne hzero with hbefore | hbehind
    · have hstop := h.before i hi hne
      unfold Region.stop at hbefore
      omega
    · have hshift := h.behind i hi hne hbehind
      omega

/-- The others stay apart from each other. -/
theorem others_apart (h : Shifted p r r' own base delta) (hclear : Clear p r own base)
    (hback : (r own).start ≤ base + delta) {i j : ι} (hi : p i) (hj : p j)
    (hiown : i ≠ own) (hjown : j ≠ own) (hapart : (r i).Apart (r j)) : (r' i).Apart (r' j) := by
  rw [Region.apart_iff] at hapart ⊢
  have hileni := h.lens i hi hiown
  have hjlenj := h.lens j hj hjown
  by_cases hizero : (r i).len = 0
  · omega
  by_cases hjzero : (r j).len = 0
  · omega
  have hiclear := hclear i hi hiown hizero
  have hjclear := hclear j hj hjown hjzero
  have hib := h.behind i hi hiown
  have hif := h.before i hi hiown
  have hjb := h.behind j hj hjown
  have hjf := h.before j hj hjown
  unfold Region.stop at *
  omega

/-- If they were apart before, all regions are apart. -/
theorem apart (h : Shifted p r r' own base delta) (hclear : Clear p r own base)
    (hbase : (r own).start ≤ base) (hback : (r own).start ≤ base + delta)
    (hown : p own) (hapart : ∀ i j, p i → p j → i ≠ j → (r i).Apart (r j)) {i j : ι} (hi : p i)
    (hj : p j) (hne : i ≠ j) : (r' i).Apart (r' j) := by
  by_cases hiown : i = own
  · subst hiown
    exact h.own_apart hclear hbase hj hne.symm (hapart i j hi hj hne)
  · by_cases hjown : j = own
    · subst hjown
      exact (h.own_apart hclear hbase hi hne (hapart j i hj hi hne.symm)).symm
    · exact h.others_apart hclear hback hi hj hiown hjown (hapart i j hi hj hne)

end Shifted

end Lib
