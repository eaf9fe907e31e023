import Athomux.LockList.Cut
import Athomux.LockMelt.Run
import Athomux.LockMelt.Remove

/-! # What melting and removing keep -/

open Lib Athomux.LockList

namespace Athomux.LockMelt

variable {A₀ A : List (Entry Tag)} {d : Desc} {region : Nat → Prop} {lost : Prop}

/-! ## Exclusion -/

/-- Overlapping locks of different mandates do not conflict. -/
def Exclusive (A : List (Entry Tag)) : Prop :=
  ∀ e ∈ A, ∀ f ∈ A, e.2.tag.mandate ≠ f.2.tag.mandate → e.2.Overlaps f.2 →
    e.2.tag.type.conflicts f.2.tag.type = false

/-- A lock that is stretched over a gap conflicts there with a foreign lock. -/
def Slip (A : List (Entry Tag)) (d : Desc) : Prop :=
  ∃ R x, Stretch A d R x ∧ ∃ f ∈ A, ¬ Own d f ∧ f.2.Has x ∧
    R.tag.type.conflicts f.2.tag.type = true

/-- A common address of two locks. -/
theorem overlaps_has {e f : Desc} (he : e.start < e.stop) (hf : f.start < f.stop)
    (h : e.Overlaps f) : ∃ x, e.Has x ∧ f.Has x := by
  obtain ⟨h1, h2⟩ := h
  exact ⟨max e.start f.start, ⟨by omega, by omega⟩, by omega, by omega⟩

theorem strongest_conflicts {t u : Tag} {v : LockType} (ht : t.type.conflicts v = false)
    (hu : u.type.conflicts v = false) : (strongest t u).type.conflicts v = false := by
  rw [Bool.eq_false_iff]
  intro h
  rcases LockType.conflicts_max (v := v) (t := t.type) (u := u.type) h with h | h
  · rw [ht] at h
    cases h
  · rw [hu] at h
    cases h

/-- What may be at `x` does not conflict with a foreign lock there. -/
theorem Piece.compat (hex : Exclusive A₀) (hslip : ¬ Slip A₀ d) {x : Nat} {t : LockType}
    (h : Piece A₀ d region x t) {f : Entry Tag} (hf : f ∈ A₀) (hfor : ¬ Own d f) (hfx : f.2.Has x)
    (hclear : d.Has x ∨ region x → d.tag.type.conflicts f.2.tag.type = false) :
    t.conflicts f.2.tag.type = false := by
  rcases h with ⟨e, he, ho, hex', ht⟩ | ⟨hd, -, ht⟩
  · have hef : e.2.tag.type.conflicts f.2.tag.type = false := by
      refine hex e he f hf (fun h => hfor (h.symm.trans ho)) ⟨?_, ?_⟩
      · exact lt_of_le_of_lt hex'.1 hfx.2
      · exact lt_of_le_of_lt hfx.1 hex'.2
    rcases ht with rfl | ⟨hr, rfl⟩
    · exact hef
    · exact strongest_conflicts hef (hclear (Or.inr hr))
  · have hdf := hclear (Or.inl hd)
    rcases ht with rfl | ⟨R, hR, ht⟩
    · exact hdf
    · have hRf : R.tag.type.conflicts f.2.tag.type = false := by
        rw [Bool.eq_false_iff]
        exact fun h => hslip ⟨R, x, hR, f, hf, hfor, hfx, h⟩
      rcases ht with rfl | rfl
      · exact hRf
      · exact strongest_conflicts hRf hdf

/-- Two entries of which at most one is own. -/
theorem exclusive_of (hwf : ∀ e ∈ A, e.2.start < e.2.stop)
    (hforeign : ∀ e ∈ A, ∀ f ∈ A, ¬ Own d e → ¬ Own d f → e.2.tag.mandate ≠ f.2.tag.mandate →
      e.2.Overlaps f.2 → e.2.tag.type.conflicts f.2.tag.type = false)
    (hown : ∀ e ∈ A, ∀ f ∈ A, Own d e → ¬ Own d f → ∀ x, e.2.Has x → f.2.Has x →
      e.2.tag.type.conflicts f.2.tag.type = false) : Exclusive A := by
  intro e he f hf hne hover
  obtain ⟨x, hex, hfx⟩ := overlaps_has (hwf e he) (hwf f hf) hover
  by_cases hoe : Own d e <;> by_cases hof : Own d f
  · exact absurd (hoe.trans hof.symm) hne
  · exact hown e he f hf hoe hof x hex hfx
  · rw [LockType.conflicts_comm]
    exact hown f hf e he hof hoe x hfx hex
  · exact hforeign e he f hf hoe hof hne hover

theorem Melted.nonempty_all (h : Melted A₀ d region lost A) (hwf : WF A₀) :
    ∀ e ∈ A, e.2.start < e.2.stop := by
  intro e he
  by_cases ho : Own d e
  · exact h.nonempty e he ho
  · exact hwf.nonempty e ((h.foreign e ho).mp he)

theorem Melted.exclusive (h : Melted A₀ d region lost A) (hwf : WF A₀) (hex : Exclusive A₀)
    (hslip : ¬ Slip A₀ d)
    (hclear : ∀ f ∈ A₀, ¬ Own d f → ∀ x, f.2.Has x → d.Has x ∨ region x →
      d.tag.type.conflicts f.2.tag.type = false) : Exclusive A := by
  refine exclusive_of (d := d) (h.nonempty_all hwf) ?_ ?_
  · intro e he f hf hoe hof hne hover
    exact hex e ((h.foreign e hoe).mp he) f ((h.foreign f hof).mp hf) hne hover
  · intro e he f hf hoe hof x hx hfx
    have hf₀ := (h.foreign f hof).mp hf
    exact (h.piece e he hoe x hx).compat hex hslip hf₀ hof hfx (hclear f hf₀ hof x hfx)

/-! ## Conflicts -/

theorem tagOnly_isConflict : TagOnly isConflict := by
  intro e d d' h
  simp only [isConflict, h]

/-- A foreign lock does not conflict with a range that is clear of conflicts. -/
theorem clear_compat (h : Clear isConflict A d) {f : Entry Tag} (hf : f ∈ A) (ho : ¬ Own d f)
    {x : Nat} (hfx : f.2.Has x) (hd : d.Has x) : d.tag.type.conflicts f.2.tag.type = false := by
  have := h f hf ⟨lt_of_le_of_lt hfx.1 hd.2, lt_of_le_of_lt hd.1 hfx.2⟩
  simp only [isConflict, Bool.and_eq_false_iff, bne_eq_false_iff_eq] at this
  exact this.resolve_left ho

/-! ## Well-formed lists -/

theorem Molten.wf (h : Molten A₀ d region lost A) (hwf : WF A₀) (hno : ¬ Crossing A₀ d) : WF A where
  sorted := h.sorted hno
  nonempty := h.melted.nonempty_all hwf
  disjoint e he f hf hne heq := by
    by_cases ho : Own d e
    · exact h.melted.disjoint e he f hf ho (heq.symm.trans ho) hne
    · have hof : ¬ Own d f := fun hof => ho (heq.trans hof)
      exact hwf.disjoint e ((h.melted.foreign e ho).mp he) f ((h.melted.foreign f hof).mp hf) hne heq

theorem Removed.wf (h : Removed A₀ d lost A) (hwf : WF A₀) : WF A where
  sorted := h.sorted
  nonempty e he := by
    by_cases ho : Own d e
    · exact h.nonempty e he ho
    · exact hwf.nonempty e ((h.foreign e ho).mp he)
  disjoint e he f hf hne heq := by
    by_cases ho : Own d e
    · exact h.disjoint e he f hf ho (heq.symm.trans ho) hne
    · have hof : ¬ Own d f := fun hof => ho (heq.trans hof)
      exact hwf.disjoint e ((h.foreign e ho).mp he) f ((h.foreign f hof).mp hf) hne heq

theorem Removed.exclusive (h : Removed A₀ d lost A) (hwf : WF A₀) (hex : Exclusive A₀) :
    Exclusive A := by
  refine exclusive_of (d := d) (h.wf hwf).nonempty ?_ ?_
  · intro e he f hf hoe hof hne hover
    exact hex e ((h.foreign e hoe).mp he) f ((h.foreign f hof).mp hf) hne hover
  · intro e he f hf hoe hof x hx hfx
    obtain ⟨g, hg, hog, htag, hgx⟩ := h.piece e he hoe x hx
    rw [← htag]
    refine hex g hg f ((h.foreign f hof).mp hf) (fun heq => hof (heq.symm.trans hog)) ⟨?_, ?_⟩
    · exact lt_of_le_of_lt hgx.1 hfx.2
    · exact lt_of_le_of_lt hfx.1 hgx.2

/-! ## Types and addresses -/

/-- What holds of the types of all own locks and of `d` holds of what is there later. -/
theorem Melted.types {Q : LockType → Prop}
    (h : Melted A₀ d region lost A) (hmax : ∀ t u : Tag, Q t.type → Q u.type → Q (strongest t u).type)
    (hd : Q d.tag.type) (hQ : ∀ e ∈ A₀, Own d e → Q e.2.tag.type) {e : Entry Tag} (he : e ∈ A)
    (ho : Own d e) : Q e.2.tag.type := by
  rcases h.piece e he ho e.2.start ⟨Nat.le_refl _, h.nonempty e he ho⟩ with
    ⟨f, hf, hof, -, ht⟩ | ⟨-, -, ht⟩
  · rcases ht with ht | ⟨-, ht⟩
    · rw [ht]
      exact hQ f hf hof
    · rw [ht]
      exact hmax _ _ (hQ f hf hof) hd
  · rcases ht with ht | ⟨R, ⟨⟨r, hR⟩, hown, -⟩, ht⟩
    · rw [ht]
      exact hd
    · have hQR := hQ _ hR hown
      rcases ht with ht | ht
      · rw [ht]
        exact hQR
      · rw [ht]
        exact hmax _ _ hQR hd

/-- An address of an own lock was locked by the mandate before, or it is in `d`. -/
theorem Melted.has (h : Melted A₀ d region lost A)
    {e : Entry Tag} (he : e ∈ A) (ho : Own d e) {x : Nat} (hx : e.2.Has x) :
    (∃ f ∈ A₀, Own d f ∧ f.2.Has x) ∨ d.Has x := by
  rcases h.piece e he ho x hx with ⟨f, hf, hof, hfx, -⟩ | ⟨hd, -⟩
  · exact Or.inl ⟨f, hf, hof, hfx⟩
  · exact Or.inr hd

theorem covers_foreign {m : Nat} (h : ∀ e, ¬ Own d e → (e ∈ A ↔ e ∈ A₀)) (hm : m ≠ d.tag.mandate)
    {x : Nat} : Covers A m x ↔ Covers A₀ m x := by
  have hno : ∀ e : Entry Tag, e.2.tag.mandate = m → ¬ Own d e := fun e he ho => hm (he.symm.trans ho)
  constructor
  · rintro ⟨e, he, hem, hex⟩
    exact ⟨e, (h e (hno e hem)).mp he, hem, hex⟩
  · rintro ⟨e, he, hem, hex⟩
    exact ⟨e, (h e (hno e hem)).mpr he, hem, hex⟩

/-! ## No own start -/

/-- Where no own lock starts inside of `d` nothing is stretched. -/
theorem not_stretch (h : ∀ e ∈ A, Own d e → e.2.start ≤ d.start ∨ d.stop ≤ e.2.start) {R : Desc}
    {x : Nat} : ¬ Stretch A d R x := by
  rintro ⟨⟨r, hr⟩, ho, hlt, -, hgap⟩
  rcases h (r, R) hr ho with hle | hle
  · exact absurd (lt_of_le_of_lt hgap.le hgap.lt) (Nat.not_lt.mpr hle)
  · exact absurd hlt (Nat.not_lt.mpr hle)

theorem not_crossing (h : ∀ e ∈ A, Own d e → e.2.start ≤ d.start ∨ d.stop ≤ e.2.start) :
    ¬ Crossing A d := by
  rintro ⟨r, R, X, Y, x, -, hs, -⟩
  exact not_stretch h hs

theorem not_slip (h : ∀ e ∈ A, Own d e → e.2.start ≤ d.start ∨ d.stop ≤ e.2.start) :
    ¬ Slip A d := by
  rintro ⟨R, x, hs, -⟩
  exact not_stretch h hs

end Athomux.LockMelt
