import Athomux.LockCache.Spec
import Athomux.LockMelt.First
import Athomux.LockMelt.Remove

/-! # `melt_lock_into_list` of `#lock_cache` -/

open Lib Athomux.LockList

namespace Athomux.LockCache

open LockMelt

variable {A₀ A : List (Entry Tag)} {d : Desc} {lost : Prop} {s s' : LockRecs} {F : List Nat}
  {M : Finset Nat}

/-! ## Counting records -/

/-- The record for the part of the first lock below `d`. -/
def firstSplit (d : Desc) (A : List (Entry Tag)) : Nat :=
  match Rep.findEntry d isOwn A with
  | some e => if e.2.start < d.start ∧ !isStrongerOrEqual e.2 d then 1 else 0
  | none => 0

/-- All records that the melting of `d` into `A` adds. -/
def addCount (d : Desc) (A : List (Entry Tag)) : Nat :=
  firstSplit d A + meltCount d d.start false (A.map Prod.snd)

theorem meltCount_first {X suf : List (Entry Tag)} {r : Nat} {R : Desc}
    (hf : FirstOwn A₀ d X r R suf) :
    meltCount d d.start false (A₀.map Prod.snd) =
      meltCount d d.start false (R :: suf.map Prod.snd) := by
  rw [hf.split, List.map_append, List.map_cons]
  apply meltCount_skip
  intro e he ho _
  obtain ⟨f, hfX, rfl⟩ := List.mem_map.mp he
  exact hf.before f hfX (own_iff.mp ho)

theorem meltCount_none (hd : d.start < d.stop) (hno : ∀ e ∈ A₀, Own d e → ¬ e.2.Overlaps d) :
    meltCount d d.start false (A₀.map Prod.snd) = 1 := by
  have := meltCount_skip d d.start (A₀.map Prod.snd) [] false (by
    intro e he ho h1
    obtain ⟨f, hf, rfl⟩ := List.mem_map.mp he
    exact Nat.le_of_not_lt fun h2 => hno f hf (own_iff.mp ho) ⟨h1, h2⟩)
  rw [List.append_nil] at this
  rw [this, meltCount, if_pos hd]

/-- Splitting the first lock does not change what the loop adds. -/
theorem meltCount_split {X suf₁ suf₂ : List (Entry Tag)} {r : Nat} {R : Desc} (hwf : WF A₀)
    (hnd : (A₀.map Prod.fst).Nodup) (hf : FirstOwn A₀ d X r R (suf₁ ++ suf₂))
    (hd : d.start < d.stop) (hlt : R.start < d.start) (hlow : ∀ e ∈ suf₁, e.2.start < d.start) :
    meltCount d d.start false (R :: (suf₁ ++ suf₂).map Prod.snd) =
      meltCount d d.start false ({ R with start := d.start } :: suf₂.map Prod.snd) := by
  have hover := hf.overStop
  have hskip : ∀ c eq, meltCount d c eq ((suf₁ ++ suf₂).map Prod.snd) =
      meltCount d c eq (suf₂.map Prod.snd) := by
    intro c eq
    rw [List.map_append]
    apply meltCount_skip
    intro e he ho _
    obtain ⟨f, hfs, rfl⟩ := List.mem_map.mp he
    have := hf.after hwf hnd f (List.mem_append_left _ hfs) (own_iff.mp ho)
    have := hlow f hfs
    omega
  rw [meltCount_turn hf.own hf.overStart hover,
    meltCount_turn (R := { R with start := d.start }) hf.own hd hover, hskip]
  have hgap : gapCount d d.start false R = 0 := by
    rw [gapCount, if_neg]
    omega
  have hgap' : gapCount d d.start false { R with start := d.start } = 0 := by
    rw [gapCount, if_neg]
    simp
  rw [hgap, hgap']
  rfl

/-! ## The result -/

/-- What melting leaves behind, and how many records are missing then. -/
structure MeltResult (A₀ : List (Entry Tag)) (F : List Nat) (d : Desc) (region : Nat → Prop)
    (lost : Prop) (count nFree : Nat) (s' : LockRecs) (M : Finset Nat) (A' : List (Entry Tag))
    (F' : List Nat) : Prop where
  stores : Stores s' A' F' M
  molten : Molten A₀ d region lost A'
  crossing : Sorted A' → ¬ Crossing A₀ d
  records : A'.length + F'.length + (count - nFree) = A₀.length + F.length

theorem meltLockIntoList_spec (lost : Prop) (hst : Stores s A₀ F M) (hwf : WF A₀) (hd : d.start < d.stop)
    (hlost : s.lockImp.nFree < addCount d A₀ → lost) (hs : meltLockIntoList s d = some s') :
    ∃ A' F', MeltResult A₀ F d d.Has lost (addCount d A₀) s.lockImp.nFree s' M A' F' := by
  have hnd := hst.rep.fst_nodup
  have hfirst := findFirst_own (d := d) hst hwf.sorted
  unfold meltLockIntoList at hs
  unfold addCount firstSplit at hlost ⊢
  cases hfind : s.findFirstLock d isOwn with
  | none =>
    rw [hfind] at hs hfirst
    simp only at hs hfirst
    rw [hst.rep.findFirstLock, Option.map_eq_none_iff] at hfind
    rw [hfind, meltCount_none hd hfirst] at hlost ⊢
    have htail : tailCount d d.start = 1 := by rw [tailCount, if_pos hd]
    obtain ⟨A', F', hst', hmolten, -, hadd⟩ := meltTail_spec
      (done_of_none hwf hfirst : Done A₀ d d.Has lost d.start A₀) hst
      (by rw [htail]; exact fun h => hlost (by simpa using h)) hs
    rw [htail] at hadd
    have h1 := hadd.free
    have h2 := hadd.entries
    exact ⟨A', F', hst', hmolten, fun _ => not_crossing_of_none hwf hfirst, by simp only; omega⟩
  | some r =>
    rw [hfind] at hs hfirst
    simp only at hs hfirst
    obtain ⟨X, R, suf, hf⟩ := hfirst
    have hRd : s.desc r = R := hst.rep.desc (r, R) (by simp [hf.split])
    have hentry := hf.entry hst hfind
    rw [hentry, meltCount_first hf] at hlost ⊢
    simp only [Option.bind_eq_bind, Option.bind_eq_some_iff] at hs
    obtain ⟨s₁, hsplit, hs⟩ := hs
    unfold splitFirst at hsplit
    rw [hRd] at hsplit
    simp only at hlost ⊢
    split at hsplit
    · rename_i hcond
      rw [if_pos hcond] at hlost ⊢
      obtain ⟨suf₁, suf₂, q, F₁, P, rfl, rfl, hq, hlow, hst₁, hP, hsort₁, hadd⟩ :=
        split_first R.tag hf hwf.sorted hst hcond.1 hsplit
      have hP' : P = ins (q, { R with stop := d.start }) (X ++ suf₁) ∨ P = X ++ suf₁ ∧ lost :=
        hP.imp And.left fun h => ⟨h.1, hlost (by omega)⟩
      have ht := hf.turn_split d.Has hwf hnd hd hcond.1 hlow hP' hsort₁
        (fun x _ h1 h2 => ⟨h1, h2⟩)
      rw [meltCount_split hwf hnd hf hd hcond.1 hlow] at hlost ⊢
      have hnat := hadd.natives
      obtain ⟨A', F', hst', hmolten, hcross, hadd'⟩ := meltRest_spec ht hwf hnd (fun _ => id) hst₁
        (fun h => hlost (by simp only [eqPrev] at h; omega)) hs
      simp only [eqPrev] at hadd'
      have hall := hadd.trans hadd'
      have h1 := hall.free
      have h2 := hall.entries
      exact ⟨A', F', hst', hmolten,
        fun hsort => hf.not_crossing hwf (Or.inr hcond.1) hlow (hcross hsort), by omega⟩
    · rename_i hcond
      rw [if_neg hcond] at hlost ⊢
      cases hsplit
      have ht := hf.turn d.Has lost hwf hnd hd (by
        intro x hx hxd
        by_cases hlt : R.start < d.start
        · exact Or.inr (by simpa [hlt] using hcond)
        · exact Or.inl ⟨by have := hx.1; omega, hxd⟩)
      have hst' := hst
      rw [hf.split] at hst'
      obtain ⟨A', F', hst', hmolten, hcross, hadd⟩ := meltRest_spec ht hwf hnd (fun _ => id) hst'
        (fun h => hlost (by simp only [eqPrev] at h; omega)) hs
      simp only [eqPrev] at hadd
      rw [← hf.split] at hadd
      have h1 := hadd.free
      have h2 := hadd.entries
      have hf' : FirstOwn A₀ d X r R ([] ++ suf) := hf
      exact ⟨A', F', hst', hmolten, fun hsort => hf'.not_crossing hwf (Or.inl rfl) (by simp)
        (hcross hsort), by omega⟩

end Athomux.LockCache
