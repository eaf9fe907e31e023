import Athomux.Lib.Regions
import Athomux.DirSimple.Spec

/-! # The regions of the files stay apart -/

open Lib

namespace Athomux.DirSimple

variable {t : Table} {sect index i j : Nat} {delta : Int}

/-- The entries of the table. -/
def Table.Used (t : Table) (i : Nat) : Prop := i ≠ 0 ∧ i < t.entryCount

instance (t : Table) (i : Nat) : Decidable (t.Used i) := by
  unfold Table.Used
  infer_instance

/-- The region of a file. -/
def Table.region (t : Table) (sect i : Nat) : Region := ⟨(t.off sect i).offStart, (t.off sect i).offBorder⟩

/-- The regions are disjoint, no file is longer than its region, and all regions lie between the
start and the end of the section. -/
structure Layout (t : Table) (sect : Nat) : Prop where
  apart : ∀ i j, t.Used i → t.Used j → i ≠ j → (t.region sect i).Apart (t.region sect j)
  len_le : ∀ i, t.Used i → (t.off sect i).offLen ≤ (t.off sect i).offBorder
  within : ∀ i x, t.Used i → (t.region sect i).Has x →
    (t.descOff sect).start ≤ x ∧ x < (t.descOff sect).stop

/-! ## Sums -/

theorem addOff_eq {a : Nat} {d : Int} (hlow : 0 ≤ a + d) (hhigh : a + d < addrSpace) :
    (addOff a d : Int) = a + d := by
  rw [addOff, Int.emod_eq_of_lt hlow hhigh, Int.toNat_of_nonneg hlow]

theorem addOff_lt (a : Nat) (d : Int) : addOff a d < addrSpace := by
  have hmod := Int.emod_lt_of_pos (a + d) (show (0 : Int) < addrSpace by decide)
  have hnonneg := Int.emod_nonneg (a + d) (show (addrSpace : Int) ≠ 0 by decide)
  unfold addOff
  omega

/-! ## The invariant

`live` are the entries that have a name, or an output that works on them.
-/

structure Inv (live : Nat → Prop) (t : Table) (sect : Nat) : Prop where
  apart : ∀ i j, t.Used i → t.Used j → i ≠ j → (t.region sect i).Apart (t.region sect j)
  len_le : ∀ i, t.Used i → (t.off sect i).offLen ≤ (t.off sect i).offBorder
  low : ∀ i, t.Used i → live i ∨ (t.off sect i).offBorder ≠ 0 →
    (t.descOff sect).start ≤ (t.off sect i).offStart
  high : ∀ i, t.Used i → (t.off sect i).offBorder ≠ 0 →
    (t.region sect i).stop ≤ (t.descOff sect).stop
  order : (t.descOff sect).start ≤ (t.descOff sect).stop
  fits : (t.descOff sect).stop < addrSpace
  starts : ∀ i, t.Used i → (t.off sect i).offStart < addrSpace
  fresh : ∀ i, t.entryCount ≤ i → t.off sect i = ⟨0, 0, 0⟩
  used : ∀ i, live i → t.Used i

variable {live : Nat → Prop}

theorem Inv.layout (h : Inv live t sect) : Layout t sect where
  apart := h.apart
  len_le := h.len_le
  within := by
    intro i x hi hx
    have hborder : (t.off sect i).offBorder ≠ 0 := by
      unfold Region.Has Region.stop Table.region at hx
      simp only at hx
      omega
    exact ⟨(h.low i hi (Or.inr hborder)).trans hx.1, lt_of_lt_of_le hx.2 (h.high i hi hborder)⟩

/-- The end of a region is an address. -/
theorem Inv.regionStop_eq (h : Inv live t sect) (hi : t.Used i) :
    t.regionStop sect i = (t.region sect i).stop := by
  unfold Table.regionStop
  by_cases hborder : (t.off sect i).offBorder = 0
  · rw [Region.stop, Table.region, hborder]
    exact add64_eq (h.starts i hi)
  · exact add64_eq (lt_of_le_of_lt (h.high i hi hborder) h.fits)

/-! ## What the operations do to the entries -/

theorem off_setOff (t : Table) (sect index : Nat) (o : Offsets) (i : Nat) :
    (t.setOff sect index o).off sect i = if i = index then o else t.off sect i := by
  unfold Table.setOff Table.off
  simp only
  split
  · exact Function.update_self _ _ _
  · rfl

theorem off_setOff_of_ne {sect' : Nat} (t : Table) (index : Nat) (o : Offsets)
    (hne : sect' ≠ sect) (i : Nat) : (t.setOff sect index o).off sect' i = t.off sect' i := by
  unfold Table.setOff Table.off
  simp only
  split
  · exact Function.update_of_ne hne _ _
  · rfl

theorem off_correctInfos (t : Table) (sect index base : Nat) (delta : Int) (i : Nat) :
    (t.correctInfos sect index base delta).off sect i =
      if i = index then ⟨(t.off sect i).offStart, addOff (t.off sect i).offLen delta,
        addOff (t.off sect i).offBorder delta⟩
      else if 1 ≤ i ∧ i < t.entryCount ∧ base ≤ (t.off sect i).offStart then
        { t.off sect i with offStart := addOff (t.off sect i).offStart delta }
      else t.off sect i := by
  unfold Table.correctInfos Table.off
  simp only
  rw [Function.update_self]

theorem off_correctInfos_of_ne {sect' : Nat} (t : Table) (index base : Nat) (delta : Int)
    (hne : sect' ≠ sect) (i : Nat) :
    (t.correctInfos sect index base delta).off sect' i = t.off sect' i := by
  unfold Table.correctInfos Table.off
  simp only
  rw [Function.update_of_ne hne]

/-! ## Shifting -/

instance (t : Table) (sect index base : Nat) :
    Decidable (Clear t.Used (t.region sect) index base) :=
  decidable_of_iff
    (∀ i < t.entryCount, i ≠ 0 → i ≠ index → (t.region sect i).len ≠ 0 →
      (t.region sect i).stop ≤ (t.region sect index).start ∨ base ≤ (t.region sect i).start)
    ⟨fun h i hi => h i hi.2 hi.1, fun h i hi hzero => h i ⟨hzero, hi⟩⟩

/-- The part from `base` to the end of the section can be shifted by `delta` for this file. -/
structure CanShift (t : Table) (sect index base : Nat) (delta : Int) : Prop where
  clear : Clear t.Used (t.region sect) index base
  base_le : base ≤ (t.descOff sect).stop
  len : 0 ≤ (t.off sect index).offLen + delta
  stop : (t.descOff sect).stop + delta < addrSpace
  starts : ∀ i < t.entryCount, i ≠ 0 → i ≠ index → base ≤ (t.off sect i).offStart →
    (t.off sect i).offStart + delta < addrSpace

instance (t : Table) (sect index base : Nat) (delta : Int) :
    Decidable (CanShift t sect index base delta) :=
  decidable_of_iff
    (Clear t.Used (t.region sect) index base ∧ base ≤ (t.descOff sect).stop ∧
      0 ≤ (t.off sect index).offLen + delta ∧ (t.descOff sect).stop + delta < addrSpace ∧
      ∀ i < t.entryCount, i ≠ 0 → i ≠ index → base ≤ (t.off sect i).offStart →
        (t.off sect i).offStart + delta < addrSpace)
    ⟨fun ⟨h1, h2, h3, h4, h5⟩ => ⟨h1, h2, h3, h4, h5⟩,
      fun h => ⟨h.clear, h.base_le, h.len, h.stop, h.starts⟩⟩

section Shift

variable {base : Nat}

/-- The file is not shorter and its region not smaller than by what it shrinks. -/
theorem Inv.border_fits (h : Inv live t sect) (hcan : CanShift t sect index base delta)
    (hindex : t.Used index) :
    0 ≤ (t.off sect index).offBorder + delta ∧
      (t.off sect index).offBorder + delta < addrSpace := by
  have hlen := hcan.len
  have hstop := hcan.stop
  have hbase := hcan.base_le
  have hle := h.len_le index hindex
  have hhigh := h.high index hindex
  unfold Region.stop Table.region at hhigh
  simp only at hhigh
  omega

theorem Inv.shifted (h : Inv live t sect) (hcan : CanShift t sect index base delta)
    (hindex : t.Used index) (hback : (t.off sect index).offStart ≤ base + delta) :
    Shifted t.Used (t.region sect) ((t.correctInfos sect index base delta).region sect) index base
      delta := by
  obtain ⟨hborder, hborder'⟩ := h.border_fits hcan hindex
  constructor
  · simp only [Table.region, off_correctInfos, if_pos]
  · simp only [Table.region, off_correctInfos, if_pos]
    exact addOff_eq hborder hborder'
  · intro i hi hne hbehind
    simp only [Table.region] at hbehind
    have hused : 1 ≤ i ∧ i < t.entryCount ∧ base ≤ (t.off sect i).offStart :=
      ⟨Nat.one_le_iff_ne_zero.mpr hi.1, hi.2, hbehind⟩
    simp only [Table.region, off_correctInfos, if_neg hne, if_pos hused]
    exact addOff_eq (by omega) (hcan.starts i hi.2 hi.1 hne hbehind)
  · intro i hi hne hbefore
    simp only [Table.region] at hbefore
    simp only [Table.region, off_correctInfos, if_neg hne]
    rw [if_neg fun hc => absurd hc.2.2 (not_le.mpr hbefore)]
  · intro i hi hne
    simp only [Table.region, off_correctInfos, if_neg hne]
    split <;> rfl

theorem descOff_correctInfos (t : Table) (sect index base : Nat) (delta : Int) :
    (t.correctInfos sect index base delta).descOff sect =
      ⟨(t.descOff sect).start, addOff (t.descOff sect).stop delta⟩ := by
  simp only [Table.correctInfos, Function.update_self]

theorem Inv.correctInfos (h : Inv live t sect) (hcan : CanShift t sect index base delta)
    (hindex : t.Used index) (hlive : live index) (hlow : (t.off sect index).offStart ≤ base)
    (hback : (t.off sect index).offStart ≤ base + delta) :
    Inv live (t.correctInfos sect index base delta) sect := by
  have hshifted := h.shifted hcan hindex hback
  obtain ⟨hborder, hborder'⟩ := h.border_fits hcan hindex
  have hbase := hcan.base_le
  have hstart := h.low index hindex (Or.inl hlive)
  have hstop : (addOff (t.descOff sect).stop delta : Int) = (t.descOff sect).stop + delta :=
    addOff_eq (by omega) hcan.stop
  have hoff := off_correctInfos t sect index base delta
  refine ⟨fun i j hi hj hne => hshifted.apart hcan.clear hlow hback hindex h.apart hi hj hne,
    ?_, ?_, ?_, ?_, ?_, ?_, ?_, h.used⟩
  · intro i hi
    rw [hoff]
    split
    · rename_i heq
      subst heq
      have hle := h.len_le i hindex
      have hlen : (addOff (t.off sect i).offLen delta : Int) = (t.off sect i).offLen + delta :=
        addOff_eq hcan.len (by omega)
      have hborder : (addOff (t.off sect i).offBorder delta : Int) =
        (t.off sect i).offBorder + delta := addOff_eq hborder hborder'
      simp only
      omega
    · split <;> exact h.len_le i hi
  · intro i hi hlive'
    rw [descOff_correctInfos, hoff]
    rw [hoff] at hlive'
    split
    · rename_i heq
      subst heq
      exact hstart
    · rename_i hne
      rw [if_neg hne] at hlive'
      split
      · rename_i hbehind
        have := hshifted.behind i hi hne hbehind.2.2
        simp only [Table.region, hoff, if_neg hne, if_pos hbehind] at this
        simp only
        omega
      · rename_i hbefore
        rw [if_neg hbefore] at hlive'
        exact h.low i hi hlive'
  · intro i hi hne0
    rw [descOff_correctInfos]
    simp only
    by_cases heq : i = index
    · subst heq
      have hs := hshifted.start
      have hl := hshifted.len
      have hhigh := h.high i hi
      simp only [Table.region, Region.stop] at hs hl hhigh ⊢
      omega
    · have hl := hshifted.lens i hi heq
      have hhigh := h.high i hi
      have hclear := hcan.clear i hi heq
      have hbehind := hshifted.behind i hi heq
      have hbefore := hshifted.before i hi heq
      simp only [Table.region, Region.stop] at hl hhigh hclear hbehind hbefore ⊢
      omega
  · rw [descOff_correctInfos]
    simp only
    omega
  · rw [descOff_correctInfos]
    exact addOff_lt _ _
  · intro i hi
    rw [hoff]
    split
    · exact h.starts i hi
    · split
      · exact addOff_lt _ _
      · exact h.starts i hi
  · intro i hi
    have hcount : t.entryCount ≤ i := hi
    rw [hoff, if_neg fun heq => absurd hindex.2 (by omega),
      if_neg fun hc => absurd hc.2.1 (by omega)]
    exact h.fresh i hi

end Shift

/-! ## The other changes -/

/-- A section whose offsets are the same keeps the invariant. -/
theorem Inv.congr {u : Table} (h : Inv live t sect) (hcount : u.entryCount = t.entryCount)
    (hdesc : u.descOff sect = t.descOff sect) (hoff : ∀ i, u.off sect i = t.off sect i) :
    Inv live u sect := by
  have hregion : ∀ i, u.region sect i = t.region sect i := fun i => by
    rw [Table.region, Table.region, hoff]
  have hused : ∀ i, u.Used i ↔ t.Used i := fun i => by rw [Table.Used, Table.Used, hcount]
  constructor
  · intro i j hi hj
    rw [hregion, hregion]
    exact h.apart i j ((hused i).mp hi) ((hused j).mp hj)
  · intro i hi
    rw [hoff]
    exact h.len_le i ((hused i).mp hi)
  · intro i hi
    rw [hoff, hdesc]
    exact h.low i ((hused i).mp hi)
  · intro i hi
    rw [hoff, hdesc, hregion]
    exact h.high i ((hused i).mp hi)
  · rw [hdesc]
    exact h.order
  · rw [hdesc]
    exact h.fits
  · intro i hi
    rw [hoff]
    exact h.starts i ((hused i).mp hi)
  · intro i hi
    rw [hoff]
    exact h.fresh i (hcount ▸ hi)
  · intro i hi
    exact (hused i).mpr (h.used i hi)

theorem Inv.mono {live' : Nat → Prop} (h : Inv live t sect) (hle : ∀ i, live' i → live i) :
    Inv live' t sect :=
  { h with
    low := fun i hi hor => h.low i hi (hor.imp (hle i) id)
    used := fun i hi => h.used i (hle i hi) }

/-- Only one entry is changed, and not the start of it. -/
theorem Inv.setOff {o : Offsets} (h : Inv live t sect) (hindex : t.Used index)
    (hstart : o.offStart = (t.off sect index).offStart) (hlen : o.offLen ≤ o.offBorder)
    (hlive : live index)
    (hhigh : o.offBorder ≠ 0 → o.offStart + o.offBorder ≤ (t.descOff sect).stop)
    (hapart : ∀ i, t.Used i → i ≠ index →
      Region.Apart ⟨o.offStart, o.offBorder⟩ (t.region sect i)) :
    Inv live (t.setOff sect index o) sect := by
  have hoff := off_setOff t sect index o
  have hregion : ∀ i, i ≠ index → (t.setOff sect index o).region sect i = t.region sect i :=
    fun i hne => by rw [Table.region, Table.region, hoff, if_neg hne]
  have hown : (t.setOff sect index o).region sect index = ⟨o.offStart, o.offBorder⟩ := by
    rw [Table.region, hoff, if_pos rfl]
  refine ⟨?_, ?_, ?_, ?_, h.order, h.fits, ?_, ?_, h.used⟩
  · intro i j hi hj hne
    by_cases hiown : i = index
    · subst hiown
      rw [hown, hregion j hne.symm]
      exact hapart j hj hne.symm
    · rw [hregion i hiown]
      by_cases hjown : j = index
      · subst hjown
        rw [hown]
        exact (hapart i hi hiown).symm
      · rw [hregion j hjown]
        exact h.apart i j hi hj hne
  · intro i hi
    rw [hoff]
    split
    · exact hlen
    · exact h.len_le i hi
  · intro i hi hlive'
    rw [hoff] at hlive' ⊢
    split
    · rw [hstart]
      exact h.low index hindex (Or.inl hlive)
    · rename_i hne
      rw [if_neg hne] at hlive'
      exact h.low i hi hlive'
  · intro i hi hne0
    by_cases hiown : i = index
    · subst hiown
      rw [hoff, if_pos rfl] at hne0
      rw [hown]
      exact hhigh hne0
    · rw [hoff, if_neg hiown] at hne0
      rw [hregion i hiown]
      exact h.high i hi hne0
  · intro i hi
    rw [hoff]
    split
    · rw [hstart]
      exact h.starts index hindex
    · exact h.starts i hi
  · intro i hi
    have hcount : t.entryCount ≤ i := hi
    rw [hoff, if_neg fun heq => absurd hindex.2 (by omega)]
    exact h.fresh i hi

theorem Inv.setLen {newLen : Nat} (h : Inv live t sect) (hindex : t.Used index)
    (hlive : live index) (hle : newLen ≤ (t.off sect index).offBorder) :
    Inv live (t.setOff sect index { t.off sect index with offLen := newLen }) sect :=
  h.setOff hindex rfl hle hlive (h.high index hindex) fun i hi hne =>
    h.apart index i hindex hi hne.symm

/-- The section gets longer. -/
theorem Inv.setStop {stop : Nat} (h : Inv live t sect) (hle : (t.descOff sect).stop ≤ stop)
    (hfits : stop < addrSpace) : Inv live (t.setStop sect stop) sect := by
  have hdesc : (t.setStop sect stop).descOff sect = ⟨(t.descOff sect).start, stop⟩ :=
    Function.update_self _ _ _
  refine ⟨h.apart, h.len_le, ?_, ?_, ?_, ?_, h.starts, h.fresh, h.used⟩
  · rw [hdesc]
    exact h.low
  · rw [hdesc]
    exact fun i hi hne => (h.high i hi hne).trans hle
  · rw [hdesc]
    exact h.order.trans hle
  · rw [hdesc]
    exact hfits

/-- The last region gets longer. -/
theorem Inv.extend {stop : Nat} (h : Inv live t sect) (hindex : t.Used index)
    (hlive : live index) (hlast : (t.descOff sect).stop ≤ (t.region sect index).stop)
    (hle : (t.region sect index).stop ≤ stop) (hfits : stop < addrSpace) :
    Inv live ((t.setStop sect stop).setOff sect index
      { t.off sect index with offBorder := stop - (t.off sect index).offStart }) sect := by
  have hlen := h.len_le index hindex
  have hsum : (t.off sect index).offStart + (t.off sect index).offBorder ≤ stop := hle
  refine (h.setStop (hlast.trans hle) hfits).setOff hindex rfl ?_ hlive ?_ ?_
  · simp only
    omega
  · intro _
    simp only [Table.setStop, Function.update_self]
    omega
  · intro i hi hne
    have hapart := h.apart index i hindex hi hne.symm
    have hhigh := h.high i hi
    rw [Region.apart_iff] at hapart ⊢
    simp only [Region.stop, Table.region, Table.setStop, Table.off] at *
    omega

/-- A new file has no region yet, and starts at the end of the section. -/
theorem Inv.newEntry {empty : Nat} (h : Inv live t sect) (hsect : sect ≤ dirSection)
    (hempty : t.Used empty) (param : List UInt8) :
    Inv (fun i => i = empty ∨ live i) (t.newEntry empty param) sect := by
  have hoff : ∀ i, (t.newEntry empty param).off sect i =
      if i = empty then ⟨(t.descOff sect).stop, 0, 0⟩ else t.off sect i := by
    intro i
    unfold Table.newEntry Table.off
    by_cases heq : i = empty
    · subst heq
      simp only [Function.update_self, if_pos, hsect]
    · simp only [Function.update_of_ne heq, if_neg heq]
  have hcount : t.entryCount ≤ (t.newEntry empty param).entryCount := by
    unfold Table.newEntry
    simp only
    split <;> omega
  have hnew : ∀ i, (t.newEntry empty param).Used i → ¬ t.Used i → t.off sect i = ⟨0, 0, 0⟩ :=
    fun i hi hnot => h.fresh i (not_lt.mp fun hlt => hnot ⟨hi.1, hlt⟩)
  have hzero : ∀ i, (t.newEntry empty param).Used i → ¬ t.Used i ∨ i = empty →
      ((t.newEntry empty param).off sect i).offLen = 0 ∧
        ((t.newEntry empty param).off sect i).offBorder = 0 := by
    intro i hi hor
    rw [hoff]
    split
    · exact ⟨rfl, rfl⟩
    · rename_i hne
      rw [hnew i hi (hor.resolve_right hne)]
      exact ⟨rfl, rfl⟩
  have hold : ∀ i, ¬ (¬ t.Used i ∨ i = empty) →
      t.Used i ∧ (t.newEntry empty param).off sect i = t.off sect i := by
    intro i hi
    push Not at hi
    exact ⟨hi.1, by rw [hoff, if_neg hi.2]⟩
  constructor
  · intro i j hi hj hne
    by_cases hiz : ¬ t.Used i ∨ i = empty
    · exact Region.apart_of_len (hzero i hi hiz).2
    · by_cases hjz : ¬ t.Used j ∨ j = empty
      · exact (Region.apart_of_len (hzero j hj hjz).2).symm
      · obtain ⟨hiu, hio⟩ := hold i hiz
        obtain ⟨hju, hjo⟩ := hold j hjz
        rw [Table.region, Table.region, hio, hjo]
        exact h.apart i j hiu hju hne
  · intro i hi
    by_cases hiz : ¬ t.Used i ∨ i = empty
    · rw [(hzero i hi hiz).1]
      exact Nat.zero_le _
    · obtain ⟨hiu, hio⟩ := hold i hiz
      rw [hio]
      exact h.len_le i hiu
  · intro i hi hor
    by_cases heq : i = empty
    · rw [hoff, if_pos heq]
      exact h.order
    · by_cases hiu : t.Used i
      · rw [hoff, if_neg heq] at hor ⊢
        exact h.low i hiu (hor.imp (fun hl => hl.resolve_left heq) id)
      · rcases hor with hl | hborder
        · exact absurd (h.used i (hl.resolve_left heq)) hiu
        · exact absurd (hzero i hi (Or.inl hiu)).2 hborder
  · intro i hi hborder
    have hiz : ¬ (¬ t.Used i ∨ i = empty) := fun hc => hborder (hzero i hi hc).2
    obtain ⟨hiu, hio⟩ := hold i hiz
    rw [hio] at hborder
    rw [Table.region, hio]
    exact h.high i hiu hborder
  · exact h.order
  · exact h.fits
  · intro i hi
    rw [hoff]
    split
    · exact h.fits
    · by_cases hiu : t.Used i
      · exact h.starts i hiu
      · rw [hnew i hi hiu]
        exact show 0 < addrSpace by decide
  · intro i hi
    have hlt := hempty.2
    rw [hoff, if_neg (by omega)]
    exact h.fresh i (hcount.trans hi)
  · rintro i (rfl | hi)
    · exact ⟨hempty.1, lt_of_lt_of_le hempty.2 hcount⟩
    · exact ⟨(h.used i hi).1, lt_of_lt_of_le (h.used i hi).2 hcount⟩

/-! ## `$create` and `$move` -/

/-- The file can get a region up to `newBorder`, with `postgap` behind it. -/
structure CanGrow (t : Table) (sect index newBorder postgap : Nat) : Prop where
  delta : 0 < t.delta sect index newBorder postgap
  stop : (t.region sect index).stop + t.delta sect index newBorder postgap < addrSpace
  shift : (t.region sect index).stop < (t.descOff sect).stop →
    CanShift t sect index (t.region sect index).stop (t.delta sect index newBorder postgap)

instance (t : Table) (sect index newBorder postgap : Nat) :
    Decidable (CanGrow t sect index newBorder postgap) :=
  decidable_of_iff
    (0 < t.delta sect index newBorder postgap ∧
      (t.region sect index).stop + t.delta sect index newBorder postgap < addrSpace ∧
      ((t.region sect index).stop < (t.descOff sect).stop →
        CanShift t sect index (t.region sect index).stop (t.delta sect index newBorder postgap)))
    ⟨fun ⟨h1, h2, h3⟩ => ⟨h1, h2, h3⟩, fun h => ⟨h.delta, h.stop, h.shift⟩⟩

/-- The region of the file becomes larger. -/
def Table.Grows (t : Table) (sect index border : Nat) : Prop :=
  (t.off sect index).offLen < border ∧ 0 < signed (border - (t.off sect index).offBorder)

instance (t : Table) (sect index border : Nat) : Decidable (t.Grows sect index border) := by
  unfold Table.Grows
  infer_instance

theorem Inv.changeLen {newLen : Nat} {calls : List Call} (h : Inv live t sect)
    (hindex : t.Used index) (hlive : live index) :
    Inv live (t.changeLen sect index newLen calls).table sect := by
  unfold Table.changeLen
  simp only
  split
  · exact h
  · rename_i hle
    simp only
    split
    · exact h.setLen hindex hlive (not_lt.mp hle)
    · exact h

theorem Inv.changeSize {newLen newBorder postgap : Nat} {ok : Bool} (h : Inv live t sect)
    (hindex : t.Used index) (hlive : live index)
    (hgrow : 0 < signed (newBorder - (t.off sect index).offBorder) → ok = true →
      CanGrow t sect index newBorder postgap) :
    Inv live (t.changeSize sect index newLen newBorder postgap ok).table sect := by
  unfold Table.changeSize
  simp only
  split
  · exact h
  split
  · rename_i hdelta
    split
    · exact h
    rename_i hok
    have hcan := hgrow hdelta (by simpa using hok)
    have hpos := hcan.delta
    have hfits := hcan.stop
    have hstart : (t.off sect index).offStart ≤ (t.region sect index).stop := Nat.le_add_right _ _
    rw [h.regionStop_eq hindex]
    split
    · rename_i hlt
      exact (h.correctInfos (hcan.shift hlt) hindex hlive hstart (by omega)).changeLen hindex hlive
    · rename_i hle
      have hstop : (addOff (t.region sect index).stop
          (t.delta sect index newBorder postgap) : Int) =
          (t.region sect index).stop + t.delta sect index newBorder postgap :=
        addOff_eq (by omega) hfits
      rw [sub64_eq (by omega) (addOff_lt _ _)]
      exact (h.extend hindex hlive (not_lt.mp hle) (by omega) (addOff_lt _ _)).changeLen hindex hlive
  · exact h.changeLen hindex hlive

theorem Inv.create {logAddr logLen : Nat} {clear grows ok : Bool} (h : Inv live t sect)
    (hindex : t.Used index) (hlive : live index)
    (hgrow : t.Grows sect index (add64 logAddr logLen) → grows = true →
      CanGrow t sect index (add64 logAddr logLen) (postgap sect)) :
    Inv live (t.create sect index logAddr logLen clear grows ok).table sect := by
  have hextend : Inv live (t.extend sect index (add64 logAddr logLen) grows).table sect := by
    unfold Table.extend
    split
    · rename_i hlt
      exact h.changeSize hindex hlive fun hdelta => hgrow ⟨hlt, hdelta⟩
    · exact h
  unfold Table.create
  simp only
  repeat' split
  all_goals exact hextend

/-- What `:<in` answers to a `$move`, and what it may do to the table. -/
structure CanMove (t : Table) (sect index logAddr logLen : Nat) (offset offsetMax delta : Int) :
    Prop where
  low : offset ≤ delta
  high : delta ≤ offsetMax
  fits : logAddr + logLen + max offsetMax 0 < addrSpace
  shift : (t.off sect index).offBorder < moveBorder logAddr logLen offsetMax → delta ≠ 0 →
    CanShift t sect index (logAddr + (t.off sect index).offStart) delta

instance (t : Table) (sect index logAddr logLen : Nat) (offset offsetMax delta : Int) :
    Decidable (CanMove t sect index logAddr logLen offset offsetMax delta) :=
  decidable_of_iff
    (offset ≤ delta ∧ delta ≤ offsetMax ∧ logAddr + logLen + max offsetMax 0 < addrSpace ∧
      ((t.off sect index).offBorder < moveBorder logAddr logLen offsetMax → delta ≠ 0 →
        CanShift t sect index (logAddr + (t.off sect index).offStart) delta))
    ⟨fun ⟨h1, h2, h3, h4⟩ => ⟨h1, h2, h3, h4⟩, fun h => ⟨h.low, h.high, h.fits, h.shift⟩⟩

/-- A shift by 0 changes nothing. -/
theorem Inv.correctInfos_zero {base : Nat} (h : Inv live t sect) (hindex : t.Used index) :
    Inv live (t.correctInfos sect index base 0) sect := by
  have hzero : ∀ a < addrSpace, addOff a 0 = a := by
    intro a ha
    have := addOff_eq (a := a) (d := 0) (by omega) (by omega)
    omega
  have hborder : (t.off sect index).offBorder < addrSpace := by
    have hhigh := h.high index hindex
    have hfits := h.fits
    simp only [Region.stop, Table.region] at hhigh
    have : 0 < addrSpace := by decide
    omega
  refine h.congr rfl ?_ fun i => ?_
  · rw [descOff_correctInfos, hzero _ h.fits]
  · rw [off_correctInfos]
    split
    · rename_i heq
      subst heq
      rw [hzero _ hborder, hzero _ (lt_of_le_of_lt (h.len_le i hindex) hborder)]
    · split
      · rename_i hi
        rw [hzero _ (h.starts i ⟨Nat.one_le_iff_ne_zero.mp hi.1, hi.2.1⟩)]
      · rfl

/-- The check keeps what is moved within the file. -/
theorem move_back {logAddr logLen : Nat} {offset offsetMax : Int} (hlow : offset ≤ delta)
    (hfits : logAddr + logLen + max offsetMax 0 < addrSpace)
    (hcheck : ¬ (offsetMax < offset ∨ signed logAddr < -offset)) : 0 ≤ logAddr + delta := by
  have hmod : (logAddr : Int) % addrSpace = logAddr := Int.emod_eq_of_lt (by omega) (by omega)
  unfold signed at hcheck
  rw [hmod] at hcheck
  split at hcheck
  · omega
  · omega

theorem Inv.move {logAddr logLen : Nat} {offset offsetMax : Int} {ok : Bool}
    (h : Inv live t sect) (hindex : t.Used index) (hlive : live index)
    (hcan : ok = true → CanMove t sect index logAddr logLen offset offsetMax delta) :
    Inv live (t.move sect index logAddr logLen offset offsetMax ok delta).table sect := by
  unfold Table.move
  simp only
  split
  · exact h
  · rename_i hcheck
    split
    · exact h
    · rename_i hok
      have hcan := hcan (by simpa using hok)
      have hfits := hcan.fits
      have hlow := hcan.low
      have hhigh := hcan.high
      have hback := move_back hlow hfits hcheck
      have hend : add64 logAddr logLen = logAddr + logLen := add64_eq (by omega)
      split
      · rename_i hborder
        simp only
        split
        · refine h.setLen hindex hlive ?_
          have hlen : (addOff (logAddr + logLen) delta : Int) = logAddr + logLen + delta := by
            have := addOff_eq (a := logAddr + logLen) (d := delta) (by omega) (by omega)
            omega
          unfold moveBorder at hborder
          rw [hend] at hborder ⊢
          split at hborder
          · have hmax := addOff_eq (a := logAddr + logLen) (d := offsetMax) (by omega) (by omega)
            omega
          · omega
        · exact h
      · rename_i hborder
        by_cases hzero : delta = 0
        · subst hzero
          exact h.correctInfos_zero hindex
        · have hshift := hcan.shift (not_le.mp hborder) hzero
          have hbase : add64 logAddr (t.off sect index).offStart =
              logAddr + (t.off sect index).offStart :=
            add64_eq (lt_of_le_of_lt hshift.base_le h.fits)
          rw [hbase]
          exact h.correctInfos hshift hindex hlive (by omega) (by omega)

/-! ## The system -/

/-- What the loop finds is among the entries that it looks at. -/
theorem search_spec (t : Table) (param : List UInt8) (n i empty : Nat) (hi : i ≠ 0) :
    ((t.search param n i empty).1 ≠ 0 → (t.search param n i empty).1 < i + n ∧
      (t.entry (t.search param n i empty).1).name ≠ []) ∧
    ((t.search param n i empty).2 = empty ∨ (t.search param n i empty).2 < i + n) := by
  induction n generalizing i empty with
  | zero => exact ⟨fun h => absurd rfl h, Or.inl rfl⟩
  | succ n ih =>
    rw [Table.search]
    split
    · rename_i hname
      obtain ⟨hfound, hempty⟩ := ih (i + 1) (if empty = 0 then i else empty) (by omega)
      refine ⟨fun h => ⟨by have := (hfound h).1; omega, (hfound h).2⟩, ?_⟩
      rcases hempty with heq | hlt
      · rw [heq]
        split
        · exact Or.inr (by omega)
        · exact Or.inl rfl
      · exact Or.inr (by omega)
    · rename_i hname
      split
      · exact ⟨fun _ => ⟨by simp, hname⟩, Or.inl rfl⟩
      · obtain ⟨hfound, hempty⟩ := ih (i + 1) empty (by omega)
        exact ⟨fun h => ⟨by have := (hfound h).1; omega, (hfound h).2⟩, by omega⟩

/-- An entry with a name, or one that an output works on. -/
def Live (s : Sys) (i : Nat) : Prop :=
  i ≠ 0 ∧ ((s.table.entry i).name ≠ [] ∨ ∃ out, s.outs out = i)

/-- An answer of `:<in` makes the operation leave its files apart. -/
def Sound (s : Sys) : Event → Prop
  | .init _ _ _ | .exit _ => True
  | .create out sect logAddr logLen _ grows _ =>
    s.table.Grows sect (s.outs out) (add64 logAddr logLen) → grows = true →
      CanGrow s.table sect (s.outs out) (add64 logAddr logLen) (postgap sect)
  | .move out sect logAddr logLen offset offsetMax ok delta =>
    ok = true → CanMove s.table sect (s.outs out) logAddr logLen offset offsetMax delta

instance (s : Sys) : (e : Event) → Decidable (Sound s e)
  | .init .. | .exit _ => isTrue trivial
  | .create .. | .move .. => inferInstanceAs (Decidable (_ → _))

variable {s u : Sys}

/-- What `change_size` and `correct_infos` leave as it is: the names, how many entries there are,
and the other section. -/
structure SameNames (sect : Nat) (t u : Table) : Prop where
  count : u.entryCount = t.entryCount
  names : ∀ i, (u.entry i).name = (t.entry i).name
  desc : ∀ sect', sect' ≠ sect → u.descOff sect' = t.descOff sect'
  off : ∀ sect' i, sect' ≠ sect → u.off sect' i = t.off sect' i

theorem SameNames.refl (sect : Nat) (t : Table) : SameNames sect t t :=
  ⟨rfl, fun _ => rfl, fun _ _ => rfl, fun _ _ _ => rfl⟩

theorem SameNames.trans {t u v : Table} (h : SameNames sect t u) (h' : SameNames sect u v) :
    SameNames sect t v :=
  ⟨h'.count.trans h.count, fun i => (h'.names i).trans (h.names i),
    fun sect' hne => (h'.desc sect' hne).trans (h.desc sect' hne),
    fun sect' i hne => (h'.off sect' i hne).trans (h.off sect' i hne)⟩

theorem sameNames_setOff (t : Table) (sect index : Nat) (o : Offsets) :
    SameNames sect t (t.setOff sect index o) := by
  refine ⟨rfl, fun i => ?_, fun _ _ => rfl, fun sect' i hne => off_setOff_of_ne t index o hne i⟩
  unfold Table.setOff
  simp only
  split <;> rfl

theorem sameNames_setStop (t : Table) (sect stop : Nat) : SameNames sect t (t.setStop sect stop) :=
  ⟨rfl, fun _ => rfl, fun _ hne => Function.update_of_ne hne _ _, fun _ _ _ => rfl⟩

theorem sameNames_correctInfos (t : Table) (sect index base : Nat) (delta : Int) :
    SameNames sect t (t.correctInfos sect index base delta) :=
  ⟨rfl, fun _ => rfl, fun _ hne => Function.update_of_ne hne _ _,
    fun _ i hne => off_correctInfos_of_ne t index base delta hne i⟩

theorem sameNames_changeLen (t : Table) (sect index newLen : Nat) (calls : List Call) :
    SameNames sect t (t.changeLen sect index newLen calls).table := by
  unfold Table.changeLen
  simp only
  split
  · exact .refl sect t
  · simp only
    split
    · exact sameNames_setOff _ _ _ _
    · exact .refl sect t

theorem sameNames_changeSize (t : Table) (sect index newLen newBorder postgap : Nat) (ok : Bool) :
    SameNames sect t (t.changeSize sect index newLen newBorder postgap ok).table := by
  unfold Table.changeSize
  simp only
  split
  · exact .refl sect t
  split
  · split
    · exact .refl sect t
    split
    · exact (sameNames_correctInfos _ _ _ _ _).trans (sameNames_changeLen _ _ _ _ _)
    · exact ((sameNames_setStop _ _ _).trans (sameNames_setOff _ _ _ _)).trans
        (sameNames_changeLen _ _ _ _ _)
  · exact sameNames_changeLen _ _ _ _ _

theorem sameNames_extend (t : Table) (sect index border : Nat) (ok : Bool) :
    SameNames sect t (t.extend sect index border ok).table := by
  unfold Table.extend
  split
  · exact sameNames_changeSize _ _ _ _ _ _ _
  · exact .refl sect t

theorem sameNames_create (t : Table) (sect index logAddr logLen : Nat) (clear grows ok : Bool) :
    SameNames sect t (t.create sect index logAddr logLen clear grows ok).table := by
  unfold Table.create
  simp only
  repeat' split
  all_goals exact sameNames_extend _ _ _ _ _

theorem sameNames_move (t : Table) (sect index logAddr logLen : Nat) (offset offsetMax : Int)
    (ok : Bool) (delta : Int) :
    SameNames sect t (t.move sect index logAddr logLen offset offsetMax ok delta).table := by
  unfold Table.move
  simp only
  split
  · exact .refl sect t
  split
  · exact .refl sect t
  split
  · simp only
    split
    · exact sameNames_setOff _ _ _ _
    · exact .refl sect t
  · exact sameNames_correctInfos _ _ _ _ _

theorem live_of_sameNames {t : Table} {outs : Nat → Nat} {u : Table} (h : SameNames sect t u) {i : Nat} :
    Live ⟨u, outs⟩ i ↔ Live ⟨t, outs⟩ i := by
  unfold Live
  rw [h.names]

/-- The entry that `$output_init` answers with. -/
theorem instOut_spec (t : Table) (param : List UInt8) (clear : Bool) :
    (t.instOut param clear).1 = t ∧ (∀ i, (t.instOut param clear).2 = some i →
      t.Used i ∧ (t.entry i).name ≠ []) ∨
    ∃ empty, t.Used empty ∧ t.instOut param clear = (t.newEntry empty param, some empty) := by
  obtain ⟨hfound, hempty⟩ := search_spec t param (t.entryCount - 1) 1 0 one_ne_zero
  unfold Table.instOut
  simp only
  split
  · rename_i hne
    obtain ⟨hlt, hname⟩ := hfound hne
    refine Or.inl ⟨rfl, ?_⟩
    rintro i ⟨rfl⟩
    exact ⟨⟨hne, by omega⟩, hname⟩
  · split
    · exact Or.inl ⟨rfl, fun i hi => by cases hi⟩
    · rename_i hclear
      push Not at hclear
      exact Or.inr ⟨_, ⟨hclear.2, by omega⟩, rfl⟩

/-- An output that gets an entry makes no other one live. -/
theorem live_setOut {outs : Nat → Nat} {out index i : Nat}
    (h : Live ⟨t, Function.update outs out index⟩ i) : i = index ∨ Live ⟨t, outs⟩ i := by
  obtain ⟨hi, hname | ⟨out', hout⟩⟩ := h
  · exact Or.inr ⟨hi, Or.inl hname⟩
  · by_cases hc : out' = out
    · subst hc
      exact Or.inl ((Function.update_self _ _ _).symm.trans hout).symm
    · exact Or.inr ⟨hi, Or.inr ⟨out', (Function.update_of_ne hc _ _).symm.trans hout⟩⟩

theorem live_newEntry {outs : Nat → Nat} {empty i : Nat} {param : List UInt8} (hne : i ≠ empty)
    (h : Live ⟨t.newEntry empty param, outs⟩ i) : Live ⟨t, outs⟩ i := by
  refine ⟨h.1, h.2.imp_left fun hname => ?_⟩
  simpa only [Table.newEntry, Function.update_of_ne hne] using hname

theorem inv_init_step {out : Nat} {param : List UInt8} {clear : Bool}
    (h : ∀ sect ≤ dirSection, Inv (Live s) s.table sect)
    (hs : step s (.init out param clear) = some u) :
    ∀ sect ≤ dirSection, Inv (Live u) u.table sect := by
  obtain ⟨t, outs⟩ := s
  intro sect hsect
  simp only [step] at hs
  obtain ⟨htable, hsome⟩ | ⟨empty, hempty, heq⟩ := instOut_spec t param clear
  · -- An entry of this name, or none: the table stays.
    split at hs
    · rename_i t' index heq
      cases hs
      rw [heq] at htable hsome
      obtain rfl : t' = t := htable
      refine (h sect hsect).mono fun i hi => ?_
      rcases live_setOut hi with rfl | hlive
      · exact ⟨hi.1, Or.inl (hsome i rfl).2⟩
      · exact hlive
    · rename_i t' heq
      cases hs
      rw [heq] at htable
      obtain rfl : t' = t := htable
      exact h sect hsect
  · rw [heq] at hs
    cases hs
    refine ((h sect hsect).newEntry hsect hempty param).mono fun i hi => ?_
    by_cases hne : i = empty
    · exact Or.inl hne
    · exact Or.inr (live_newEntry hne ((live_setOut hi).resolve_left hne))

/-- What an operation on a file leaves in the other section is as it was. -/
theorem inv_sections {t t' : Table} {outs : Nat → Nat} {sect' : Nat} (hsame : SameNames sect' t t')
    (h : ∀ sect ≤ dirSection, Inv (Live ⟨t, outs⟩) t sect)
    (hown : sect' ≤ dirSection → Inv (Live ⟨t, outs⟩) t' sect') :
    ∀ sect ≤ dirSection, Inv (Live ⟨t', outs⟩) t' sect := by
  intro sect hsect
  suffices hinv : Inv (Live ⟨t, outs⟩) t' sect from
    hinv.mono fun i => (live_of_sameNames hsame).mp
  by_cases heq : sect = sect'
  · subst heq
    exact hown hsect
  · exact (h sect hsect).congr hsame.count (hsame.desc sect heq) fun i => hsame.off sect i heq

theorem inv_step {e : Event} (h : ∀ sect ≤ dirSection, Inv (Live s) s.table sect)
    (hok : Sound s e) (hs : step s e = some u) :
    ∀ sect ≤ dirSection, Inv (Live u) u.table sect := by
  cases e with
  | init out param clear => exact inv_init_step h hs
  | exit out =>
    cases hs
    exact fun sect hsect => (h sect hsect).mono fun i hi => (live_setOut hi).resolve_left hi.1
  | create out sect' logAddr logLen clear grows ok =>
    simp only [step] at hs
    split at hs
    · rename_i hguard
      cases hs
      have hlive : Live s (s.outs out) := ⟨hguard.1, Or.inr ⟨out, rfl⟩⟩
      exact inv_sections (sameNames_create _ _ _ _ _ _ _ _) h fun hsect =>
        (h sect' hsect).create ((h sect' hsect).used _ hlive) hlive hok
    · cases hs
  | move out sect' logAddr logLen offset offsetMax ok delta =>
    simp only [step] at hs
    split at hs
    · rename_i hguard
      cases hs
      have hlive : Live s (s.outs out) := ⟨hguard.1, Or.inr ⟨out, rfl⟩⟩
      exact inv_sections (sameNames_move _ _ _ _ _ _ _ _ _) h fun hsect =>
        (h sect' hsect).move ((h sect' hsect).used _ hlive) hlive hok
    · cases hs

theorem inv_init (h : Init s) (hsect : sect ≤ dirSection) : Inv (Live s) s.table sect := by
  obtain ⟨table, outs⟩ := s
  obtain ⟨htable, houts⟩ := h
  simp only at htable houts
  subst htable
  have hlive : ∀ i, ¬ Live ⟨newDir dirMax, outs⟩ i := by
    rintro i ⟨hi, hname | ⟨out, hout⟩⟩
    · exact hname rfl
    · exact hi (hout.symm.trans (houts out))
  have hdesc : ((newDir dirMax).descOff sect).start = ((newDir dirMax).descOff sect).stop ∧
      ((newDir dirMax).descOff sect).stop < addrSpace := by
    rcases Nat.le_one_iff_eq_zero_or_eq_one.mp hsect with rfl | rfl
    · exact ⟨rfl, by decide⟩
    · exact ⟨rfl, by decide⟩
  exact ⟨fun i j _ _ _ => Region.apart_of_len rfl, fun _ _ => le_rfl,
    fun i _ hor => (hor.elim (hlive i) fun hne => hne rfl).elim, fun _ _ hne => absurd rfl hne,
    hdesc.1.le, hdesc.2, fun _ _ => show 0 < addrSpace by decide, fun _ _ => rfl,
    fun i hi => absurd hi (hlive i)⟩

theorem inv_reach (h : Reach step Init Sound s) : ∀ sect ≤ dirSection, Inv (Live s) s.table sect :=
  h.invariant (fun _ hinit _ hsect => inv_init hinit hsect) fun _ _ _ hinv hok hs =>
    inv_step hinv hok hs

/-- The pointers stay good, and the answers of `:<in` leave the files apart. -/
def Laid (s : Sys) (x : Attempt) : Prop := s.Held x.1 ∧ Sound s x.1

instance (s : Sys) (x : Attempt) : Decidable (Laid s x) := by
  unfold Laid
  infer_instance

theorem inv_laid (h : Reach pcStep Init Laid s) : ∀ sect ≤ dirSection, Inv (Live s) s.table sect :=
  inv_reach (reach_of_held h)

/-- The pointers stay good as long as the table has at most 128 entries. -/
theorem held_of_count (h : Reach pcStep Init Laid s) (hcount : s.table.entryCount ≤ 128) (e : Event) :
    s.Held e := by
  have hout (out : Nat) : s.outs out < 128 := by
    by_cases hzero : s.outs out = 0
    · omega
    · have hused := (inv_laid h 0 (Nat.zero_le _)).used _ ⟨hzero, Or.inr ⟨out, rfl⟩⟩
      exact lt_of_lt_of_le hused.2 hcount
  have hcontrol : ∀ j ∈ [0], j < 128 := by simp
  have hothers (index : Nat) : ∀ j ∈ s.table.others index, j < 128 := by
    intro j hj
    have hj := (List.mem_range'_1.mp (List.mem_filter.mp hj).1).2
    omega
  cases e with
  | init out param clear =>
    refine kept_of_lt (by decide) fun j hj => ?_
    have hfound := (search_spec s.table param (s.table.entryCount - 1) 1 0 one_ne_zero).1
    have hj := (List.mem_range'_1.mp hj).2
    split at hj
    · rename_i hne
      have := (hfound hne).1
      omega
    · omega
  | exit out => trivial
  | create out sect logAddr logLen clear grows ok =>
    exact fun _ _ => ⟨kept_of_lt (hout out) hcontrol, fun _ _ =>
      ⟨kept_of_lt (by decide) (hothers _), kept_of_lt (hout out) (hothers _)⟩⟩
  | move out sect logAddr logLen offset offsetMax ok delta =>
    exact fun _ _ => ⟨kept_of_lt (hout out) hcontrol, fun _ => kept_of_lt (by decide) (hothers _)⟩

/-- **The regions of the files stay apart**, as long as no file grows into another one and no pointer
is used that is not good any more. -/
theorem dir_layout (h : Reach pcStep Init Laid s) (hsect : sect ≤ dirSection) :
    Layout s.table sect :=
  (inv_laid h sect hsect).layout

/-- After `$output_init` of a new directory. -/
def empty : Sys := ⟨newDir dirMax, fun _ => 0⟩

/-- The first of two files grows, and shifts the second one. -/
theorem dir_layout_shift : ∃ s : Sys, s.table.region 0 1 = ⟨0, 16494⟩ ∧
    s.table.region 0 2 = ⟨16494, 16394⟩ ∧ Layout s.table 0 := by
  have hrun : (run pcStep Laid empty ([.init 0 [97] true, .create 0 0 0 10 true true true,
      .init 1 [98] true, .create 1 0 0 10 false true true, .move 0 0 0 16394 50 100 true 100,
      .init 2 [97] false].map (·, empty))).map
      (fun s => (s.table.region 0 1, s.table.region 0 2)) =
      some (⟨0, 16494⟩, ⟨16494, 16394⟩) := by
    decide +kernel
  obtain ⟨s, hs, heq⟩ := Option.map_eq_some_iff.mp hrun
  exact ⟨s, congrArg Prod.fst heq, congrArg Prod.snd heq,
    dir_layout ((Reach.start ⟨rfl, fun _ => rfl⟩).of_run hs) (Nat.zero_le _)⟩

/-- The last file grows over the start of a file without a region, which gets its region within the
other one. A `$move` makes a file longer than its region, or its region reach into the next one. -/
theorem dir_layout_broken :
    (∃ s, Reach pcStep Init Held s ∧ s.table.region 0 1 = ⟨0, 32779⟩ ∧
      s.table.region 0 2 = ⟨16394, 16385⟩ ∧ ¬ Layout s.table 0) ∧
    (∃ s, Reach pcStep Init Held s ∧ s.table.off 0 1 = ⟨0, addrSpace - 90, 16294⟩ ∧
      ¬ Layout s.table 0) ∧
    ∃ s, Reach pcStep Init Held s ∧ s.table.region 0 1 = ⟨0, 16494⟩ ∧
      s.table.region 0 2 = ⟨16394, 16394⟩ ∧ ¬ Layout s.table 0 := by
  have hreach : ∀ {s : Sys} {es : List Attempt}, run pcStep Held empty es = some s →
      Reach pcStep Init Held s :=
    fun hs => (Reach.start ⟨rfl, fun _ => rfl⟩).of_run hs
  have hapart : ∀ {s : Sys} {r q : Region}, s.table.Used 1 ∧ s.table.Used 2 →
      s.table.region 0 1 = r → s.table.region 0 2 = q → ¬ r.Apart q → ¬ Layout s.table 0 := by
    rintro s r q ⟨h1, h2⟩ rfl rfl hnot hlayout
    exact hnot (hlayout.apart 1 2 h1 h2 (by decide))
  refine ⟨?_, ?_, ?_⟩
  · have hrun : (run pcStep Held empty ([.init 0 [97] true, .create 0 0 0 10 true true true,
        .init 1 [98] true, .create 0 0 0 16395 false true true,
        .create 1 0 0 1 false true true].map (·, empty))).map
        (fun s => (s.table.region 0 1, s.table.region 0 2,
          decide (s.table.Used 1 ∧ s.table.Used 2))) =
        some (⟨0, 32779⟩, ⟨16394, 16385⟩, true) := by
      decide +kernel
    obtain ⟨s, hs, heq⟩ := Option.map_eq_some_iff.mp hrun
    simp only [Prod.mk.injEq, decide_eq_true_eq] at heq
    refine ⟨s, hreach hs, heq.1, heq.2.1, hapart heq.2.2 heq.1 heq.2.1 ?_⟩
    rw [Region.apart_iff]
    decide
  · have hrun : (run pcStep Held empty ([.init 0 [97] true, .create 0 0 0 10 true true true,
        .move 0 0 16000 1000 (-100) (-100) true (-100)].map (·, empty))).map
        (fun s => (s.table.off 0 1, decide (s.table.Used 1))) =
        some (⟨0, addrSpace - 90, 16294⟩, true) := by
      decide +kernel
    obtain ⟨s, hs, heq⟩ := Option.map_eq_some_iff.mp hrun
    simp only [Prod.mk.injEq, decide_eq_true_eq] at heq
    refine ⟨s, hreach hs, heq.1, fun hlayout => ?_⟩
    have hle := hlayout.len_le 1 heq.2
    rw [heq.1] at hle
    exact absurd hle (by decide)
  · have hrun : (run pcStep Held empty ([.init 0 [97] true, .create 0 0 0 10 true true true,
        .init 1 [98] true, .create 1 0 0 10 false true true,
        .move 0 0 20000 1 100 100 true 100].map (·, empty))).map
        (fun s => (s.table.region 0 1, s.table.region 0 2,
          decide (s.table.Used 1 ∧ s.table.Used 2))) =
        some (⟨0, 16494⟩, ⟨16394, 16394⟩, true) := by
      decide +kernel
    obtain ⟨s, hs, heq⟩ := Option.map_eq_some_iff.mp hrun
    simp only [Prod.mk.injEq, decide_eq_true_eq] at heq
    refine ⟨s, hreach hs, heq.1, heq.2.1, hapart heq.2.2 heq.1 heq.2.1 ?_⟩
    rw [Region.apart_iff]
    decide

end Athomux.DirSimple
