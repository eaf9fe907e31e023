import Athomux.LockList.Natives
import Athomux.LockMelt.Spec

/-! # What melting does to the entries -/

open Lib Athomux.LockList

namespace Athomux.LockMelt

/-! ## Well-formed lists -/

def Own (d : Desc) (e : Entry Tag) : Prop := e.2.tag.mandate = d.tag.mandate

/-- Some lock of mandate `m` is on the address. -/
def Covers (A : List (Entry Tag)) (m x : Nat) : Prop := ∃ e ∈ A, e.2.tag.mandate = m ∧ e.2.Has x

structure WF (A : List (Entry Tag)) : Prop where
  sorted : Sorted A
  nonempty : ∀ e ∈ A, e.2.start < e.2.stop
  disjoint : ∀ e ∈ A, ∀ f ∈ A, e.1 ≠ f.1 → e.2.tag.mandate = f.2.tag.mandate →
    ¬ e.2.Overlaps f.2

theorem own_iff {d : Desc} {e : Entry Tag} : isOwn e.2 d = true ↔ Own d e := by
  simp [isOwn, Own]

/-! ## Gaps -/

/-- `x` is in the gap of own locks that ends where `R` starts. -/
structure GapBefore (A : List (Entry Tag)) (d R : Desc) (x : Nat) : Prop where
  le : d.start ≤ x
  lt : x < R.start
  free : ∀ e ∈ A, Own d e → e.2.start < R.start → e.2.stop ≤ x

/-- The gap at `x` is filled by stretching `R`. -/
structure Stretch (A : List (Entry Tag)) (d R : Desc) (x : Nat) : Prop where
  mem : ∃ r, (r, R) ∈ A
  own : R.tag.mandate = d.tag.mandate
  lt : R.start < d.stop
  weaker : isWeakerOrEqual R d = true
  gap : GapBefore A d R x

/-- What type a lock of `d`'s mandate may have at `x` after the melting of `d` into `A`.
`region` is where existing locks are strengthened. -/
def Piece (A : List (Entry Tag)) (d : Desc) (region : Nat → Prop) (x : Nat) (t : LockType) : Prop :=
  (∃ e ∈ A, Own d e ∧ e.2.Has x ∧
    (t = e.2.tag.type ∨ region x ∧ t = (strongest e.2.tag d.tag).type)) ∨
  (d.Has x ∧ ¬ Covers A d.tag.mandate x ∧
    (t = d.tag.type ∨ ∃ R, Stretch A d R x ∧
      (t = R.tag.type ∨ t = (strongest R.tag d.tag).type)))

/-! ## The invariant -/

/-- What holds of the entries `A` while `d` is molten into `A₀`. `lost` says that there
are not enough native locks. -/
structure Melted (A₀ : List (Entry Tag)) (d : Desc) (region : Nat → Prop) (lost : Prop)
    (A : List (Entry Tag)) : Prop where
  foreign : ∀ e, ¬ Own d e → (e ∈ A ↔ e ∈ A₀)
  nonempty : ∀ e ∈ A, Own d e → e.2.start < e.2.stop
  disjoint : ∀ e ∈ A, ∀ f ∈ A, Own d e → Own d f → e.1 ≠ f.1 → ¬ e.2.Overlaps f.2
  piece : ∀ e ∈ A, Own d e → ∀ x, e.2.Has x → Piece A₀ d region x e.2.tag.type
  cover : ∀ x, Covers A₀ d.tag.mandate x → Covers A d.tag.mandate x ∨ (lost ∧ ¬ d.Has x)

theorem Melted.refl {A : List (Entry Tag)} (h : WF A) (d : Desc) (region : Nat → Prop)
    (lost : Prop) : Melted A d region lost A where
  foreign _ _ := Iff.rfl
  nonempty e he _ := h.nonempty e he
  disjoint e he f hf hoe hof hne := h.disjoint e he f hf hne (hoe.trans hof.symm)
  piece e he ho _ hx := Or.inl ⟨e, he, ho, hx, Or.inl rfl⟩
  cover _ hx := Or.inl hx

/-- The own entry `r`, if it is there, is replaced by the own entries `N`. -/
structure Edit (d : Desc) (A A' : List (Entry Tag)) (r : Nat) (N : List (Entry Tag)) : Prop where
  mem : ∀ e, e ∈ A' ↔ (e ∈ A ∧ e.1 ≠ r) ∨ e ∈ N
  old : ∀ e ∈ A, e.1 = r → Own d e
  own : ∀ e ∈ N, Own d e
  nonempty : ∀ e ∈ N, e.2.start < e.2.stop
  apart : ∀ e ∈ N, ∀ f ∈ N, e.1 ≠ f.1 → ¬ e.2.Overlaps f.2
  apartOld : ∀ e ∈ N, ∀ f ∈ A, Own d f → f.1 ≠ r → ¬ e.2.Overlaps f.2

theorem overlaps_comm {d e : Desc} : d.Overlaps e ↔ e.Overlaps d := And.comm

theorem strongest_strongest (t d : Tag) :
    (strongest (strongest t d) d).type = (strongest t d).type := by
  obtain ⟨-, ⟨td, ta⟩, -⟩ := t
  obtain ⟨-, ⟨dd, da⟩, -⟩ := d
  cases td <;> cases ta <;> cases dd <;> cases da <;> rfl

/-- A type that was allowed before the strengthening is allowed after it. -/
theorem Piece.strengthen {A : List (Entry Tag)} {d : Desc} {region : Nat → Prop} {x : Nat}
    {t : Tag} (h : Piece A d region x t.type) (hx : region x) :
    Piece A d region x (strongest t d.tag).type := by
  have hcongr : ∀ u : Tag, t.type = u.type → (strongest t d.tag).type = (strongest u d.tag).type := by
    intro u hu
    simp only [strongest, hu]
  rcases h with ⟨e, he, ho, hex, ht⟩ | ⟨hd, hcov, ht⟩
  · refine Or.inl ⟨e, he, ho, hex, Or.inr ⟨hx, ?_⟩⟩
    rcases ht with ht | ⟨-, ht⟩
    · exact hcongr _ ht
    · rw [hcongr _ ht, strongest_strongest]
  · refine Or.inr ⟨hd, hcov, ?_⟩
    rcases ht with ht | ⟨R, hR, ht⟩
    · left
      rw [hcongr d.tag ht]
      simp only [strongest, LockT.max_of_le (Nat.le_refl _)]
    · refine Or.inr ⟨R, hR, Or.inr ?_⟩
      rcases ht with ht | ht
      · exact hcongr _ ht
      · rw [hcongr _ ht, strongest_strongest]

/-- One edit. Each address of a new entry was on the old one, or it is of `d` and no own
lock was on it. -/
theorem Melted.edit {A₀ A A' : List (Entry Tag)} {d : Desc} {region : Nat → Prop} {lost : Prop}
    {r : Nat} {N : List (Entry Tag)} (h : Melted A₀ d region lost A) (he : Edit d A A' r N)
    (hpiece : ∀ e ∈ N, ∀ x, e.2.Has x →
      (∃ R, (r, R) ∈ A ∧ R.Has x ∧ (e.2.tag.type = R.tag.type ∨
        region x ∧ e.2.tag.type = (strongest R.tag d.tag).type)) ∨
      (d.Has x ∧ ¬ Covers A d.tag.mandate x ∧ (e.2.tag.type = d.tag.type ∨
        ∃ R, Stretch A₀ d R x ∧ (e.2.tag.type = R.tag.type ∨
          e.2.tag.type = (strongest R.tag d.tag).type))))
    (hcover : ∀ R, (r, R) ∈ A → ∀ x, R.Has x → (∃ e ∈ N, e.2.Has x) ∨ (lost ∧ ¬ d.Has x)) :
    Melted A₀ d region lost A' where
  foreign e hne := by
    rw [he.mem, ← h.foreign e hne]
    constructor
    · rintro (⟨heA, -⟩ | heN)
      · exact heA
      · exact absurd (he.own e heN) hne
    · intro heA
      exact Or.inl ⟨heA, fun heq => hne (he.old e heA heq)⟩
  nonempty e he' ho := by
    rcases (he.mem e).mp he' with ⟨heA, -⟩ | heN
    · exact h.nonempty e heA ho
    · exact he.nonempty e heN
  disjoint e he' f hf' hoe hof hne := by
    rcases (he.mem e).mp he' with ⟨heA, her⟩ | heN <;>
      rcases (he.mem f).mp hf' with ⟨hfA, hfr⟩ | hfN
    · exact h.disjoint e heA f hfA hoe hof hne
    · rw [overlaps_comm]
      exact he.apartOld f hfN e heA hoe her
    · exact he.apartOld e heN f hfA hof hfr
    · exact he.apart e heN f hfN hne
  piece e he' ho x hx := by
    rcases (he.mem e).mp he' with ⟨heA, -⟩ | heN
    · exact h.piece e heA ho x hx
    · rcases hpiece e heN x hx with ⟨R, hR, hRx, ht⟩ | ⟨hd, hcov, ht⟩
      · have hold := h.piece _ hR (he.old _ hR rfl) x hRx
        rcases ht with ht | ⟨hreg, ht⟩
        · rw [ht]
          exact hold
        · rw [ht]
          exact hold.strengthen hreg
      · refine Or.inr ⟨hd, ?_, ht⟩
        intro hcov0
        rcases h.cover x hcov0 with hA | ⟨-, hd'⟩
        · exact hcov hA
        · exact hd' hd
  cover x hx := by
    rcases h.cover x hx with ⟨e, heA, hm, hex⟩ | hlost
    · by_cases her : e.1 = r
      · subst her
        rcases hcover e.2 heA x hex with ⟨f, hf, hfx⟩ | hlost
        · exact Or.inl ⟨f, (he.mem f).mpr (Or.inr hf), he.own f hf, hfx⟩
        · exact Or.inr hlost
      · exact Or.inl ⟨e, (he.mem e).mpr (Or.inl ⟨heA, her⟩), hm, hex⟩
    · exact Or.inr hlost

/-! ## The order of the list -/

/-- The lock `r` is stretched over the start of an entry before it, and not put in its place
again because it goes on behind the end of `d`. -/
def CrossAt (A : List (Entry Tag)) (d : Desc) (r : Nat) (R : Desc) : Prop :=
  ∃ X Y x, A = X ++ (r, R) :: Y ∧ Stretch A d R x ∧
    ¬ (d.stop < R.stop ∧ isStrongerOrEqual R d = false) ∧ ∃ f ∈ X, x < f.2.start

def Crossing (A : List (Entry Tag)) (d : Desc) : Prop := ∃ r R, CrossAt A d r R

/-! ## How many records are added -/

/-- The records that melting `d` from `c` on adds for the locks `l`. `eq` says that the
lock before has the type of `d`. -/
def meltCount (d : Desc) : Nat → Bool → List Desc → Nat
  | c, _, [] => if c < d.stop then 1 else 0
  | c, eq, R :: l =>
    if isOwn R d ∧ R.start < d.stop ∧ c < R.stop then
      (if c < R.start ∧ !isWeakerOrEqual R d ∧ !eq then 1 else 0) +
      (if d.stop < R.stop ∧ !isStrongerOrEqual R d then 1 else 0) +
      (if d.stop ≤ R.stop then 0
      else meltCount d R.stop (isEquallyStrong { R with tag := strongest R.tag d.tag } d) l)
    else meltCount d c eq l

end Athomux.LockMelt
