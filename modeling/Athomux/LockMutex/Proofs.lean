import Athomux.LockList.Cut
import Athomux.LockList.Proofs
import Athomux.LockMutex.Spec

/-! # Overlapping locks do not conflict -/

open Lib Athomux.LockList

namespace Athomux.LockMutex

/-! ## The invariant -/

/-- Locks that overlap are compatible. -/
def Compat (A : List (Entry LockType)) : Prop :=
  ∀ e ∈ A, ∀ f ∈ A, e.1 ≠ f.1 → e.2.Overlaps f.2 → e.2.tag.conflicts f.2.tag = false

structure Good (s : State) (A : List (Entry LockType)) (F : List Nat) : Prop where
  rep : Rep s A F
  sorted : Sorted A
  compat : Compat A

theorem tagOnly_isConflict : TagOnly isConflict := by
  intro e d d' h
  simp only [isConflict, h]

/-! ## `$lock` -/

theorem compat_ins {A : List (Entry LockType)} {e : Entry LockType} (h : Compat A)
    (he : ∀ f ∈ A, f.2.Overlaps e.2 → e.2.tag.conflicts f.2.tag = false) : Compat (ins e A) := by
  intro a ha b hb hne hover
  rcases mem_ins.mp ha with rfl | haA <;> rcases mem_ins.mp hb with rfl | hbA
  · exact absurd rfl hne
  · exact he b hbA ⟨hover.2, hover.1⟩
  · rw [LockType.conflicts_comm]
    exact he a haA hover
  · exact h a haA b hbA hne hover

theorem Good.grant {s s' : State} {A : List (Entry LockType)} {F : List Nat} (h : Good s A F)
    {a : LockArgs} (hcheck : lockCheck a = true)
    (hfirst : s.findFirstLock a.obl isConflict = none) {start len : Nat}
    (hs : grant s a = some (.granted s' start len)) : ∃ A' F', Good s' A' F' := by
  have hclear : Clear isConflict A a.obl := by
    rw [h.rep.findFirstLock, Option.map_eq_none_iff] at hfirst
    exact findEntry_none h.sorted hfirst
  have hbetween : Between a.obl a.opt a.obl := by
    simp only [lockCheck, Bool.and_eq_true, Bool.not_eq_true', Bool.or_eq_false_iff,
      decide_eq_false_iff_not, Nat.not_lt] at hcheck
    exact ⟨hcheck.2.1, Nat.le_refl _, Nat.le_refl _, hcheck.2.2, rfl⟩
  obtain ⟨-, hcut⟩ := cutOptional_spec tagOnly_isConflict h.rep h.sorted hbetween rfl hclear
  unfold LockMutex.grant at hs
  simp only [Option.bind_eq_bind, Option.pure_def] at hs
  split at hs
  · simp only [Option.bind_eq_some_iff, Option.some.injEq, LockAnswer.granted.injEq] at hs
    obtain ⟨s1, hnew, rfl, -, -⟩ := hs
    obtain ⟨r, F', -, -, hrep⟩ := h.rep.addNew hnew
    refine ⟨_, F', hrep, sorted_insNew h.sorted _ _ _, ?_⟩
    unfold insNew
    split
    · exact h.compat
    · exact compat_ins h.compat hcut
  · simp only [Option.some.injEq, LockAnswer.granted.injEq] at hs
    obtain ⟨rfl, -, -⟩ := hs
    exact ⟨A, F, h⟩

theorem Good.lock {s s' : State} {A : List (Entry LockType)} {F : List Nat} (h : Good s A F)
    {a : LockArgs} {start len : Nat} (hs : lock s a = some (.granted s' start len)) :
    ∃ A' F', Good s' A' F' := by
  unfold LockMutex.lock at hs
  split at hs
  · cases hs
  · rename_i hcheck
    split at hs
    · cases hs
      exact ⟨A, F, h⟩
    · split at hs
      · rename_i hfirst
        exact h.grant (by simpa using hcheck) hfirst hs
      · split at hs
        · split at hs <;> cases hs
        · cases hs
          exact ⟨A, F, h⟩

/-! ## `$unlock` -/

/-- `R` without the addresses from `x` up to `y` leaves no conflict behind. -/
theorem compat_cut {A B : List (Entry LockType)} {r q q' : Nat} {R : Desc} {x y : Nat}
    (hA : Compat A) (hR : (r, R) ∈ A) (hxy : x ≤ y) (hover : x < R.stop ∧ R.start < y)
    (hB : ∀ e ∈ B, e = (q, { R with stop := x }) ∨ e = (q', { R with start := y }) ∨
      (e ∈ A ∧ e.1 ≠ r)) : Compat B := by
  have hpart : ∀ e ∈ A, e.1 ≠ r → ∀ d : Desc, d.tag = R.tag → R.start ≤ d.start → d.stop ≤ R.stop →
      e.2.Overlaps d → e.2.tag.conflicts d.tag = false := by
    intro e he hne d htag hstart hstop hed
    rw [htag]
    exact hA e he (r, R) hR hne ⟨hed.1.trans_le hstop, hstart.trans_lt hed.2⟩
  intro e he f hf hne hef
  have hfe : f.2.Overlaps e.2 := ⟨hef.2, hef.1⟩
  rcases hB e he with rfl | rfl | ⟨heA, her⟩ <;> rcases hB f hf with rfl | rfl | ⟨hfA, hfr⟩
  · exact absurd rfl hne
  · have h1 : y < x := hef.2
    omega
  · rw [LockType.conflicts_comm]
    exact hpart f hfA hfr _ rfl (Nat.le_refl _) hover.1.le hfe
  · have h1 : y < x := hef.1
    omega
  · exact absurd rfl hne
  · rw [LockType.conflicts_comm]
    exact hpart f hfA hfr _ rfl hover.2.le (Nat.le_refl _) hfe
  · exact hpart e heA her _ rfl (Nat.le_refl _) hover.1.le hef
  · exact hpart e heA her _ rfl hover.2.le (Nat.le_refl _) hef
  · exact hA e heA f hfA hne hef

/-- One turn of the loop: a record away, what is left of it back in. -/
theorem Good.unlock_turn {s s1 s2 : State} {A : List (Entry LockType)} {F : List Nat}
    (h : Good s A F) {r : Nat} {R desc : Desc} (hR : (r, R) ∈ A) (hover : R.Overlaps desc)
    (hle : desc.start ≤ desc.stop)
    (hs1 : s.keepLower r desc.start = some s1) (hs2 : s1.keepUpper r desc.stop = some s2) :
    ∃ A' F', Good ((s2.removeLockRec r).freeLockRec r) A' F' ∧ s2.desc r = R ∧
      ∀ q ∈ A.map Prod.fst, q ≠ r → q ∈ A'.map Prod.fst := by
  rw [keepLower_eq, h.rep.desc _ hR] at hs1
  obtain ⟨q1, A1, F1, hrep1, -, hsort1, hsub1, hmem1⟩ := h.rep.addNew_if hs1
  rw [keepUpper_eq, hrep1.desc _ (hsub1 _ hR)] at hs2
  obtain ⟨q2, A2, F2, hrep2, -, hsort2, hsub2, hmem2⟩ := hrep1.addNew_if hs2
  have hr : r ∈ A2.map Prod.fst := List.mem_map_of_mem (hsub2 _ (hsub1 _ hR))
  refine ⟨del r A2, r :: F2, ⟨hrep2.remove_free hr, (hsort2 (hsort1 h.sorted)).del r, ?_⟩,
    hrep2.desc _ (hsub2 _ (hsub1 _ hR)), ?_⟩
  · apply compat_cut h.compat hR hle ⟨hover.2, hover.1⟩
    intro e he
    obtain ⟨he2, hne⟩ := mem_del.mp he
    rcases hmem2 e he2 with he1 | ⟨-, rfl⟩
    · rcases hmem1 e he1 with heA | ⟨-, rfl⟩
      · exact Or.inr (Or.inr ⟨heA, hne⟩)
      · exact Or.inl rfl
    · exact Or.inr (Or.inl rfl)
  · intro q hq hne
    obtain ⟨e, he, rfl⟩ := List.mem_map.mp hq
    exact List.mem_map_of_mem (mem_del.mpr ⟨hsub2 e (hsub1 e he), hne⟩)

theorem Good.unlockLoop {fuel : Nat} {s s' : State} {A : List (Entry LockType)} {F : List Nat}
    (h : Good s A F) {desc : Desc} {lock : Option Nat}
    (hlock : ∀ r, lock = some r → ∃ R, (r, R) ∈ A ∧ R.Overlaps desc)
    (hle : desc.start ≤ desc.stop ∨ desc.stop = 0)
    (hs : unlockLoop fuel s desc lock = some s') : ∃ A' F', Good s' A' F' := by
  induction fuel generalizing s A F desc lock with
  | zero =>
    cases hs
    exact ⟨A, F, h⟩
  | succ fuel ih =>
    cases lock with
    | none =>
      cases hs
      exact ⟨A, F, h⟩
    | some r =>
      obtain ⟨R, hR, hover⟩ := hlock r rfl
      -- A range that ends at 0 overlaps nothing.
      have hle : desc.start ≤ desc.stop := by
        have := hover.1
        omega
      rw [LockMutex.unlockLoop] at hs
      simp only [Option.bind_eq_bind, Option.bind_eq_some_iff] at hs
      obtain ⟨s1, hs1, s2, hs2, hs⟩ := hs
      obtain ⟨A', F', hgood, hR2, hkeep⟩ := h.unlock_turn hR hover hle hs1 hs2
      rw [hR2] at hs
      generalize hstart : (if desc.stop < R.stop then desc.stop else R.stop) = start at hs
      split at hs
      · cases hs
        exact ⟨A', F', hgood⟩
      · refine ih hgood ?_ ?_ hs
        · intro q hq
          obtain ⟨hnext, hne⟩ := h.rep.active_next (List.mem_map_of_mem hR)
          have hactive : Active A' (s.links.next r) := fun p hp =>
            hkeep p (hnext p hp) fun heq => hne (by rw [hp, heq])
          obtain ⟨Q, hQ, hQover, -⟩ := hgood.rep.find_active hactive hq
          exact ⟨Q, hQ, hQover⟩
        · left
          rw [← hstart]
          split
          · exact Nat.le_refl _
          · exact Nat.le_of_not_lt ‹_›

/-! ## Whole runs -/

theorem Good.unlock {s s' : State} {A : List (Entry LockType)} {F : List Nat} (h : Good s A F)
    {logAddr logLen tryAddr tryLen : Nat} (hwrap : tryAddr + tryLen ≤ addrSpace)
    (hs : unlock s logAddr logLen tryAddr tryLen = some s') : ∃ A' F', Good s' A' F' := by
  unfold LockMutex.unlock at hs
  simp only at hs
  split at hs
  · cases hs
    exact ⟨A, F, h⟩
  · refine h.unlockLoop ?_ ?_ hs
    · intro r hr
      obtain ⟨R, hR, hover, -⟩ := h.rep.find_active h.rep.active_first hr
      exact ⟨R, hR, hover⟩
    · simp only [unlockDesc]
      rcases Nat.lt_or_eq_of_le hwrap with hlt | heq
      · rw [add64_eq hlt]
        exact Or.inl (Nat.le_add_right _ _)
      · exact Or.inr (by rw [add64, heq, Nat.mod_self])

structure Inv (s : Sys) : Prop where
  good : ∃ A F, Good s.state A F
  /-- What waits is past the checks. -/
  checked : ∀ a ∈ s.waiting, lockCheck a = true

theorem inv_init {s : Sys} (h : Init s) : Inv s := by
  obtain ⟨⟨desc, hstate⟩, hwaiting⟩ := h
  refine ⟨⟨[], List.range maxLockRecords, ?_, List.Pairwise.nil, by simp [Compat]⟩,
    by simp [hwaiting]⟩
  rw [hstate]
  exact rep_init desc

theorem lock_wait {s : State} {a : LockArgs} (h : lock s a = some .wait) : lockCheck a = true := by
  unfold LockMutex.lock at h
  split at h
  · cases h
  · rename_i hcheck
    simpa using hcheck

theorem inv_step {s t : Sys} {e : Event} (h : Inv s) (hok : NoWrap s e)
    (hs : step s e = some t) : Inv t := by
  obtain ⟨⟨A, F, hgood⟩, hchecked⟩ := h
  cases e with
  | lock a =>
    simp only [step, Option.map_eq_some_iff] at hs
    obtain ⟨answer, hlock, rfl⟩ := hs
    cases answer with
    | granted state start len => exact ⟨hgood.lock hlock, hchecked⟩
    | refused => exact ⟨⟨A, F, hgood⟩, hchecked⟩
    | wait =>
      refine ⟨⟨A, F, hgood⟩, ?_⟩
      intro b hb
      rcases List.mem_cons.mp hb with rfl | hb
      · exact lock_wait hlock
      · exact hchecked b hb
  | woken i =>
    simp only [step, Option.bind_eq_some_iff, Option.map_eq_some_iff] at hs
    obtain ⟨a, ha, answer, hlock, rfl⟩ := hs
    have hcheck : lockCheck a = true := hchecked a (List.mem_of_getElem? ha)
    unfold lockWoken at hlock
    split at hlock
    · rename_i hfirst
      cases answer with
      | granted state start len =>
        exact ⟨hgood.grant hcheck hfirst hlock,
          fun b hb => hchecked b (List.mem_of_mem_eraseIdx hb)⟩
      | refused => exact ⟨⟨A, F, hgood⟩, hchecked⟩
      | wait => exact ⟨⟨A, F, hgood⟩, hchecked⟩
    · cases hlock
      exact ⟨⟨A, F, hgood⟩, hchecked⟩
  | unlock logAddr logLen tryAddr tryLen =>
    simp only [step, Option.map_eq_some_iff] at hs
    obtain ⟨state, hunlock, rfl⟩ := hs
    exact ⟨hgood.unlock hok hunlock, hchecked⟩

/-- **Locks that overlap never conflict.** In every state of every run over ranges
that do not wrap, the list is sorted by start and any two records of it that overlap
carry types that the matrix allows together. -/
theorem mutex_exclusion {s : Sys} (h : Reach step Init NoWrap s) :
    s.state.records.Pairwise (fun d e => d.start ≤ e.start) ∧
    s.state.records.Pairwise (fun d e => d.Overlaps e → d.tag.conflicts e.tag = false) := by
  have hinv : Inv s := h.invariant (fun _ => inv_init) (fun _ _ _ => inv_step)
  obtain ⟨A, F, hgood⟩ := hinv.good
  rw [hgood.rep.records_eq]
  refine ⟨List.pairwise_map.mpr hgood.sorted, List.pairwise_map.mpr ?_⟩
  have hne : A.Pairwise fun e f => e.1 ≠ f.1 := List.pairwise_map.mp hgood.rep.fst_nodup
  exact hne.imp_of_mem fun he hf hne hover => hgood.compat _ he _ hf hne hover

def fresh : Sys := ⟨LockList.init maxLockRecords fun _ => ⟨0, 0, ⟨.none, .none⟩⟩, []⟩

/-- Two read locks that overlap, then a part of one of them is given back. -/
theorem mutex_exclusion_readers :
    ∃ s : Sys, s.state.records = [
        ⟨10, 16, ⟨.read, .none⟩⟩, ⟨12, 30, ⟨.read, .none⟩⟩, ⟨18, 20, ⟨.read, .none⟩⟩] ∧
      s.state.records.Pairwise (fun d e => d.start ≤ e.start) ∧
      s.state.records.Pairwise (fun d e => d.Overlaps e → d.tag.conflicts e.tag = false) := by
  have hrun : (run step NoWrap fresh [
      .lock ⟨10, 10, 10, 10, .read, .none, .try⟩, .lock ⟨12, 18, 12, 18, .read, .none, .try⟩,
      .lock ⟨14, 2, 14, 2, .write, .none, .try⟩, .unlock 16 2 16 2]).map
      (fun s => s.state.records) = some [
        ⟨10, 16, ⟨.read, .none⟩⟩, ⟨12, 30, ⟨.read, .none⟩⟩, ⟨18, 20, ⟨.read, .none⟩⟩] := by
    decide +kernel
  obtain ⟨s, hs, heq⟩ := Option.map_eq_some_iff.mp hrun
  have hfresh : Init fresh := ⟨⟨_, rfl⟩, rfl⟩
  exact ⟨s, heq, mutex_exclusion ((Reach.start hfresh).of_run hs)⟩

end Athomux.LockMutex
