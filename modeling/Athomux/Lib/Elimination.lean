import Mathlib.Data.Set.Insert

/-!
# Taking vertices out of a graph

Edges go from an output of one vertex to an input of another. When a vertex is taken out, what came
in is connected with what went out.
-/

namespace Lib

variable {V O I : Type} {R S : Set V} {E : V × O → V × I → Prop} {p : V × O} {q : V × I} {b x : V}
  {i : I} {o : O}

/-- A path with all its inner vertices in `R`. -/
inductive Through (R : Set V) (E : V × O → V × I → Prop) : V × O → V × I → Prop
  | edge {p : V × O} {q : V × I} : E p q → Through R E p q
  | step {p : V × O} {q : V × I} {x : V} {i : I} {o : O} :
      E p (x, i) → x ∈ R → Through R E (x, o) q → Through R E p q

namespace Through

theorem mono (hRS : R ⊆ S) (h : Through R E p q) : Through S E p q := by
  induction h with
  | edge he => exact .edge he
  | step he hx _ ih => exact .step he (hRS hx) ih

theorem trans (h : Through R E p (x, i)) (hx : x ∈ R) (h' : Through R E (x, o) q) :
    Through R E p q := by
  generalize hy : (x, i) = y at h
  induction h with
  | edge he =>
    subst hy
    exact .step he hx h'
  | step he hz _ ih => exact .step he hz (ih hy)

theorem empty_iff : Through ∅ E p q ↔ E p q := by
  refine ⟨fun h => ?_, .edge⟩
  cases h with
  | edge he => exact he
  | step _ hx _ => exact absurd hx (Set.notMem_empty _)

/-- A path through one vertex more can be cut where it first comes to this vertex, and where it
leaves it for the last time. -/
theorem insert_iff : Through (insert b R) E p q ↔
    Through R E p q ∨ ∃ i o, Through R E p (b, i) ∧ Through R E (b, o) q := by
  constructor
  · intro h
    induction h with
    | edge he => exact .inl (.edge he)
    | @step p q x i o he hx _ ih =>
      rcases hx with rfl | hx
      · rcases ih with ih | ⟨_, o', _, ih⟩
        · exact .inr ⟨i, o, .edge he, ih⟩
        · exact .inr ⟨i, o', .edge he, ih⟩
      · rcases ih with ih | ⟨i', o', ih, ih'⟩
        · exact .inl (.step he hx ih)
        · exact .inr ⟨i', o', .step he hx ih, ih'⟩
  · rintro (h | ⟨i, o, h, h'⟩)
    · exact h.mono (Set.subset_insert b R)
    · exact (h.mono (Set.subset_insert b R)).trans (Set.mem_insert b R)
        (h'.mono (Set.subset_insert b R))

end Through

/-- `b` is on a cycle. -/
def Cyclic (R : Set V) (E : V × O → V × I → Prop) (b : V) : Prop :=
  ∃ o i, Through R E (b, o) (b, i)

theorem Cyclic.mono (hRS : R ⊆ S) (h : Cyclic R E b) : Cyclic S E b := by
  obtain ⟨o, i, h⟩ := h
  exact ⟨o, i, h.mono hRS⟩

/-- `b` is taken out. An edge from `b` to itself counts as coming in only. -/
def TakenOut (b : V) (F F' : V × O → V × I → Prop) : Prop :=
  ∀ p q, F' p q ↔ (F p q ∧ p.1 ≠ b ∧ q.1 ≠ b) ∨ (q.1 ≠ b ∧ ∃ i o, F p (b, i) ∧ F (b, o) q)

/-- The edges `F` that are left of `E` when `R` has been taken out. Edges from `R` are left over where
there was a cycle. -/
structure Eliminated (R : Set V) (E F : V × O → V × I → Prop) : Prop where
  kept : ∀ p q, p.1 ∉ R → (F p q ↔ q.1 ∉ R ∧ Through R E p q)
  target : ∀ p q, F p q → q.1 ∉ R
  leftover : ∀ p q, F p q → p.1 ∈ R → Cyclic R E p.1 ∧ Through R E p q
  cyclic : ∀ b ∈ R, Cyclic R E b → ∀ o q, Through R E (b, o) q → q.1 ∉ R → ∃ p, p.1 ∈ R ∧ F p q

namespace Eliminated

variable {F F' : V × O → V × I → Prop}

theorem start : Eliminated ∅ E E where
  kept := fun _ _ _ => ⟨fun h => ⟨Set.notMem_empty _, .edge h⟩, fun h => Through.empty_iff.mp h.2⟩
  target := fun _ _ _ => Set.notMem_empty _
  leftover := fun _ _ _ h => absurd h (Set.notMem_empty _)
  cyclic := fun _ h => absurd h (Set.notMem_empty _)

theorem notMem_insert (hx : x ∉ R) (hxb : x ≠ b) : x ∉ insert b R := by
  rintro (rfl | h)
  · exact hxb rfl
  · exact hx h

/-- What comes from a vertex that is still there. -/
theorem edge_iff (h : Eliminated R E F) (hb : b ∉ R) (hq : q.1 ∉ R) :
    F (b, o) q ↔ Through R E (b, o) q :=
  (h.kept (b, o) q hb).trans ⟨fun h => h.2, fun h => ⟨hq, h⟩⟩

/-- An edge from `b` to itself and one that leaves `b` leave one over. -/
theorem leftover_of_loop (h : Eliminated R E F) (hb : b ∉ R) (ht : TakenOut b F F')
    {o o' : O} (hloop : Through R E (b, o) (b, i)) (hq : q.1 ∉ R) (hqb : q.1 ≠ b)
    (hout : Through R E (b, o') q) : ∃ p, p.1 ∈ insert b R ∧ F' p q :=
  ⟨(b, o), Set.mem_insert b R, (ht _ _).mpr (.inr ⟨hqb, i, o', (h.edge_iff hb hb).mpr hloop,
    (h.edge_iff hb hq).mpr hout⟩)⟩

theorem takeOut (h : Eliminated R E F) (hb : b ∉ R) (ht : TakenOut b F F') :
    Eliminated (insert b R) E F' where
  kept := by
    intro p q hp
    have hpb : p.1 ≠ b := fun h => hp (.inl h)
    have hpR : p.1 ∉ R := fun h => hp (.inr h)
    rw [ht, Through.insert_iff]
    constructor
    · rintro (⟨hf, -, hqb⟩ | ⟨hqb, i, o, hin, hout⟩)
      · obtain ⟨hq, hpath⟩ := (h.kept p q hpR).mp hf
        exact ⟨notMem_insert hq hqb, .inl hpath⟩
      · obtain ⟨-, hin⟩ := (h.kept p (b, i) hpR).mp hin
        obtain ⟨hq, hout⟩ := (h.kept (b, o) q hb).mp hout
        exact ⟨notMem_insert hq hqb, .inr ⟨i, o, hin, hout⟩⟩
    · rintro ⟨hq, hpath⟩
      have hqb : q.1 ≠ b := fun h => hq (.inl h)
      have hqR : q.1 ∉ R := fun h => hq (.inr h)
      rcases hpath with hpath | ⟨i, o, hin, hout⟩
      · exact .inl ⟨(h.kept p q hpR).mpr ⟨hqR, hpath⟩, hpb, hqb⟩
      · exact .inr ⟨hqb, i, o, (h.kept p _ hpR).mpr ⟨hb, hin⟩, (h.edge_iff hb hqR).mpr hout⟩
  target := by
    intro p q hf
    rcases (ht p q).mp hf with ⟨hf, -, hqb⟩ | ⟨hqb, i, o, -, hout⟩
    · exact notMem_insert (h.target p q hf) hqb
    · exact notMem_insert (h.target _ q hout) hqb
  leftover := by
    intro p q hf hp
    rw [Through.insert_iff]
    rcases (ht p q).mp hf with ⟨hf, hpb, -⟩ | ⟨-, i, o, hin, hout⟩
    · obtain ⟨hcyc, hpath⟩ := h.leftover p q hf (hp.resolve_left hpb)
      exact ⟨hcyc.mono (Set.subset_insert b R), .inl hpath⟩
    · have hout := ((h.kept (b, o) q hb).mp hout).2
      rcases hp with hpb | hp
      · obtain ⟨p₁, o'⟩ := p
        obtain rfl : p₁ = b := hpb
        have hloop := (h.edge_iff hb hb).mp hin
        exact ⟨⟨o', i, hloop.mono (Set.subset_insert _ R)⟩, .inr ⟨i, o, hloop, hout⟩⟩
      · obtain ⟨hcyc, hin⟩ := h.leftover p _ hin hp
        exact ⟨hcyc.mono (Set.subset_insert b R), .inr ⟨i, o, hin, hout⟩⟩
  cyclic := by
    intro x hx hcyc o q hpath hq
    have hqb : q.1 ≠ b := fun h => hq (.inl h)
    have hqR : q.1 ∉ R := fun h => hq (.inr h)
    obtain ⟨o₁, i₁, hcyc⟩ := hcyc
    rw [Through.insert_iff] at hcyc hpath
    rcases hx with rfl | hx
    · have hloop : ∃ i, Through R E (x, o₁) (x, i) := by
        rcases hcyc with hcyc | ⟨i, _, hcyc, -⟩
        · exact ⟨i₁, hcyc⟩
        · exact ⟨i, hcyc⟩
      have hout : ∃ o, Through R E (x, o) q := by
        rcases hpath with hpath | ⟨_, o', -, hpath⟩
        · exact ⟨o, hpath⟩
        · exact ⟨o', hpath⟩
      obtain ⟨i, hloop⟩ := hloop
      obtain ⟨o', hout⟩ := hout
      exact h.leftover_of_loop hb ht hloop hqR hqb hout
    · rcases hcyc with hcyc | ⟨i, o', hin, hback⟩
      · rcases hpath with hpath | ⟨i, o', hin, hout⟩
        · obtain ⟨p, hp, hf⟩ := h.cyclic x hx ⟨o₁, i₁, hcyc⟩ o q hpath hqR
          have hpb : p.1 ≠ b := fun hpb => hb (hpb ▸ hp)
          exact ⟨p, .inr hp, (ht p q).mpr (.inl ⟨hf, hpb, hqb⟩)⟩
        · obtain ⟨p, hp, hf⟩ := h.cyclic x hx ⟨o₁, i₁, hcyc⟩ o (b, i) hin hb
          exact ⟨p, .inr hp, (ht p q).mpr (.inr ⟨hqb, i, o', hf, (h.edge_iff hb hqR).mpr hout⟩)⟩
      · -- The cycle goes through `b` itself.
        have hloop := hback.trans hx hin
        rcases hpath with hpath | ⟨_, o'', -, hout⟩
        · exact h.leftover_of_loop hb ht hloop hqR hqb (hback.trans hx hpath)
        · exact h.leftover_of_loop hb ht hloop hqR hqb hout

/-- There is an edge left over exactly if something else can be reached from a cycle. -/
theorem leftover_iff (h : Eliminated R E F) : (∃ p q, p.1 ∈ R ∧ F p q) ↔
    ∃ b ∈ R, Cyclic R E b ∧ ∃ o q, q.1 ∉ R ∧ Through R E (b, o) q := by
  constructor
  · rintro ⟨p, q, hp, hf⟩
    obtain ⟨hcyc, hpath⟩ := h.leftover p q hf hp
    exact ⟨p.1, hp, hcyc, p.2, q, h.target p q hf, hpath⟩
  · rintro ⟨b, hb, hcyc, o, q, hq, hpath⟩
    obtain ⟨p, hp, hf⟩ := h.cyclic b hb hcyc o q hpath hq
    exact ⟨p, q, hp, hf⟩

end Eliminated

end Lib
