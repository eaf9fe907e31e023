import Athomux.LockList.Proofs

/-! # Cutting the optional part of a lock -/

open Lib

namespace Athomux

namespace LockList

variable {τ : Type} {n : Nat} {isConflict : LockDesc τ → LockDesc τ → Bool}

/-- A test that looks at the type of the request only, not at its range. -/
def TagOnly (isConflict : LockDesc τ → LockDesc τ → Bool) : Prop :=
  ∀ e d d', d.tag = d'.tag → isConflict e d = isConflict e d'

/-- No entry that overlaps `d` conflicts with it. -/
def Clear (isConflict : LockDesc τ → LockDesc τ → Bool) (A : List (Entry τ))
    (d : LockDesc τ) : Prop :=
  ∀ e ∈ A, e.2.Overlaps d → isConflict e.2 d = false

/-- `d` has all of `obl`, is inside of `opt` and has the type of both. -/
structure Between (obl opt d : LockDesc τ) : Prop where
  startLe : opt.start ≤ d.start
  leStart : d.start ≤ obl.start
  leStop : obl.stop ≤ d.stop
  stopLe : d.stop ≤ opt.stop
  tag : d.tag = obl.tag

theorem Clear.mono {A : List (Entry τ)} {d d' : LockDesc τ} (htag : TagOnly isConflict)
    (h : Clear isConflict A d) (heq : d'.tag = d.tag) (hstart : d.start ≤ d'.start)
    (hstop : d'.stop ≤ d.stop) : Clear isConflict A d' := by
  intro e he hover
  rw [htag e.2 d' d heq]
  exact h e he ⟨lt_of_lt_of_le hover.1 hstop, lt_of_le_of_lt hstart hover.2⟩

/-- Cutting at a conflict leaves the obligatory part alone. -/
theorem between_cutAt {obl opt d c : LockDesc τ} (hd : Between obl opt d)
    (hover : c.Overlaps d) (hmiss : ¬ c.Overlaps obl) :
    Between obl opt (cutAt obl.start c d) ∧ ¬ c.Overlaps (cutAt obl.start c d) := by
  obtain ⟨h1, h2, h3, h4, h5⟩ := hd
  obtain ⟨ho1, ho2⟩ := hover
  unfold LockDesc.Overlaps at hmiss ⊢
  unfold cutAt
  split
  · exact ⟨⟨by simp only; omega, by simpa, h3, h4, h5⟩, by simp only; omega⟩
  · exact ⟨⟨h1, h2, by simp only; omega, by simp only; omega, h5⟩, by simp only; omega⟩

theorem cutAt_sub {d c : LockDesc τ} (oblStart : Nat) (hover : c.Overlaps d) :
    (cutAt oblStart c d).tag = d.tag ∧ d.start ≤ (cutAt oblStart c d).start ∧
      (cutAt oblStart c d).stop ≤ d.stop := by
  obtain ⟨ho1, ho2⟩ := hover
  unfold cutAt
  split
  · exact ⟨rfl, ho2.le, Nat.le_refl _⟩
  · exact ⟨rfl, Nat.le_refl _, ho1.le⟩

/-- The conflictor at which the cut was made is passed over. -/
theorem findEntry_cons {d : LockDesc τ} {c : Entry τ} {Y : List (Entry τ)}
    (hsort : Sorted (c :: Y)) (hno : ¬ c.2.Overlaps d) :
    Rep.findEntry d isConflict (c :: Y) = Rep.findEntry d isConflict Y := by
  rw [Rep.findEntry]
  split
  · rename_i hstop
    have hstart : d.stop ≤ c.2.start := Nat.le_of_not_lt fun hlt => hno ⟨hlt, hstop⟩
    rw [if_pos hstart]
    cases hfind : Rep.findEntry d isConflict Y with
    | none => rfl
    | some e =>
      obtain ⟨X, Z, rfl, hover, -, -⟩ := findEntry_some hfind
      have hle : c.2.start ≤ e.2.start := (List.pairwise_cons.mp hsort).1 e (by simp)
      exact absurd hover.1 (by omega)
  · rfl

theorem cutLoop_spec {s : LockList τ n} {F : List Nat} (htag : TagOnly isConflict)
    {obl opt d : LockDesc τ} {X Y : List (Entry τ)} (hrep : Rep s (X ++ Y) F) (hsort : Sorted Y)
    (hclear : Clear isConflict (X ++ Y) obl) (hd : Between obl opt d)
    (hX : Clear isConflict X d) {fuel : Nat} (hfuel : Y.length < fuel) :
    Between obl opt (s.cutLoop obl.start isConflict fuel
      ((Rep.findEntry d isConflict Y).map Prod.fst) d) ∧
    Clear isConflict (X ++ Y) (s.cutLoop obl.start isConflict fuel
      ((Rep.findEntry d isConflict Y).map Prod.fst) d) := by
  induction fuel generalizing X Y d with
  | zero => omega
  | succ fuel ih =>
    cases hfind : Rep.findEntry d isConflict Y with
    | none =>
      refine ⟨hd, ?_⟩
      intro e he
      rcases List.mem_append.mp he with he | he
      · exact hX e he
      · exact findEntry_none hsort hfind e he
    | some c =>
      obtain ⟨mid, suf, rfl, hover, hconf, hmid⟩ := findEntry_some hfind
      have hc : c ∈ X ++ (mid ++ c :: suf) := by simp
      have hmiss : ¬ c.2.Overlaps obl := by
        intro ho
        have := hclear c hc ho
        rw [htag c.2 obl d hd.tag.symm, hconf] at this
        cases this
      obtain ⟨hd', hno⟩ := between_cutAt hd hover hmiss
      obtain ⟨hsubTag, hsubStart, hsubStop⟩ := cutAt_sub obl.start hover
      have hsuf : Sorted (c :: suf) := (List.pairwise_append.mp hsort).2.1
      rw [Option.map_some, cutLoop, hrep.desc c hc]
      have hnext : s.findNextLockFrom (some c.1) (cutAt obl.start c.2 d) isConflict = _ :=
        Rep.findNextLockFrom (X := X ++ mid) (Y := c :: suf) (by simpa using hrep)
          (cutAt obl.start c.2 d) isConflict
      rw [hnext, findEntry_cons hsuf hno]
      have hall : X ++ (mid ++ c :: suf) = (X ++ mid ++ [c]) ++ suf := by simp
      rw [hall] at hrep hclear ⊢
      refine ih hrep (List.pairwise_cons.mp hsuf).2 hclear hd' ?_ (by simp at hfuel; omega)
      -- Up to the conflictor nothing conflicts with what is left.
      intro e he
      rcases List.mem_append.mp he with he | he
      · refine Clear.mono htag ?_ hsubTag hsubStart hsubStop e he
        intro e he
        rcases List.mem_append.mp he with he | he
        · exact hX e he
        · exact hmid e he
      · rw [List.mem_singleton.mp he]
        exact fun ho => absurd ho hno

/-- What `$lock` grants has all of the obligatory part and conflicts with no entry. -/
theorem cutOptional_spec {s : LockList τ n} {A : List (Entry τ)} {F : List Nat}
    (htag : TagOnly isConflict) (hrep : Rep s A F) (hsort : Sorted A) {obl opt : LockDesc τ}
    (hsub : Between obl opt obl) (heq : opt.tag = obl.tag)
    (hclear : Clear isConflict A obl) :
    Between obl opt (s.cutOptional obl opt isConflict) ∧
    Clear isConflict A (s.cutOptional obl opt isConflict) := by
  have hlen := hrep.length_le
  unfold cutOptional
  split
  · rw [hrep.findFirstLock]
    refine cutLoop_spec (X := []) htag hrep hsort hclear ?_ (by simp [Clear]) (by omega)
    have h1 := hsub.startLe
    have h2 := hsub.stopLe
    exact ⟨Nat.le_refl _, h1, h2, Nat.le_refl _, heq⟩
  · exact ⟨hsub, hclear⟩

/-! ## Where it was cut -/

/-- Where the start of `d` is not the one of `opt`, a conflicting entry ends there. -/
def CutStart (isConflict : LockDesc τ → LockDesc τ → Bool) (A : List (Entry τ))
    (opt d : LockDesc τ) : Prop :=
  d.start = opt.start ∨ ∃ e ∈ A, isConflict e.2 opt = true ∧ e.2.stop = d.start

/-- Where the end of `d` is not the one of `opt`, a conflicting entry starts there. -/
def CutStop (isConflict : LockDesc τ → LockDesc τ → Bool) (A : List (Entry τ))
    (opt d : LockDesc τ) : Prop :=
  d.stop = opt.stop ∨ ∃ e ∈ A, isConflict e.2 opt = true ∧ e.2.start = d.stop

/-- A search that goes on in the list finds a conflicting entry. -/
def Found (isConflict : LockDesc τ → LockDesc τ → Bool) (A : List (Entry τ)) (d : LockDesc τ)
    (lock : Option Nat) : Prop :=
  ∀ r, lock = some r → ∃ R, (r, R) ∈ A ∧ R.Overlaps d ∧ isConflict R d = true

theorem cut_cutAt {A : List (Entry τ)} (oblStart : Nat) {opt d c : LockDesc τ} {r : Nat}
    (hmem : (r, c) ∈ A) (hconf : isConflict c opt = true) (hstart : CutStart isConflict A opt d)
    (hstop : CutStop isConflict A opt d) :
    CutStart isConflict A opt (cutAt oblStart c d) ∧
      CutStop isConflict A opt (cutAt oblStart c d) := by
  unfold cutAt
  split
  · exact ⟨Or.inr ⟨_, hmem, hconf, rfl⟩, hstop⟩
  · exact ⟨hstart, Or.inr ⟨_, hmem, hconf, rfl⟩⟩

theorem cutLoop_cut {s : LockList τ n} {A : List (Entry τ)} {F : List Nat} {oblStart fuel : Nat}
    {lock : Option Nat} {opt d : LockDesc τ} (htag : TagOnly isConflict) (hrep : Rep s A F)
    (hlock : Found isConflict A d lock) (htagd : d.tag = opt.tag)
    (hstart : CutStart isConflict A opt d) (hstop : CutStop isConflict A opt d) :
    CutStart isConflict A opt (s.cutLoop oblStart isConflict fuel lock d) ∧
      CutStop isConflict A opt (s.cutLoop oblStart isConflict fuel lock d) := by
  induction fuel generalizing lock d with
  | zero => exact ⟨hstart, hstop⟩
  | succ fuel ih =>
    cases lock with
    | none => exact ⟨hstart, hstop⟩
    | some conflictor =>
      obtain ⟨c, hc, hover, hconf⟩ := hlock conflictor rfl
      rw [htag c d opt htagd] at hconf
      obtain ⟨hstart', hstop'⟩ := cut_cutAt oblStart hc hconf hstart hstop
      rw [cutLoop, hrep.desc _ hc]
      refine ih ?_ ((cutAt_sub oblStart hover).1.trans htagd) hstart' hstop'
      intro r hr
      refine hrep.find_active ?_ hr
      rintro q ⟨⟩
      exact List.mem_map_of_mem (f := Prod.fst) hc

/-- Each border that was cut back is at a conflicting entry. -/
theorem cutOptional_cut {s : LockList τ n} {A : List (Entry τ)} {F : List Nat}
    (htag : TagOnly isConflict) (hrep : Rep s A F) {obl opt : LockDesc τ}
    (hsub : Between obl opt obl) :
    CutStart isConflict A opt (s.cutOptional obl opt isConflict) ∧
      CutStop isConflict A opt (s.cutOptional obl opt isConflict) := by
  unfold cutOptional
  split
  · refine cutLoop_cut htag hrep ?_ rfl (Or.inl rfl) (Or.inl rfl)
    exact fun r hr => hrep.find_active hrep.active_first hr
  · rename_i hin
    have h1 := hsub.startLe
    have h2 := hsub.stopLe
    exact ⟨Or.inl (by omega), Or.inl (by omega)⟩

end LockList

end Athomux
