import Athomux.LockMand.Melt
import Athomux.LockMelt.Strength

/-! # `melt_lock_into_list` of `#lock_mand` address by address -/

open Lib Athomux.LockList

namespace Athomux.LockMand

open LockMelt

variable {A₀ A : List (Entry Tag)} {d : Desc} {pre suf : List (Entry Tag)} {k nFree r x : Nat}
  {R : Desc} {s s₁ s' : LockRecs} {F F₁ : List Nat} {M : Finset Nat} {u : LockType}

/-- An own record goes beyond the range on both sides, and the description is not weaker. -/
def Leaks (A : List (Entry Tag)) (d : Desc) : Prop :=
  ∃ e ∈ A, Own d e ∧ e.2.start < d.start ∧ d.stop < e.2.stop ∧
    strength e.2.tag.type d.tag.type ≠ e.2.tag.type

/-! ## The first lock -/

theorem Behind.strong (h : Behind A₀ d True M nFree F k s₁ pre suf r R F₁) (hwf : WF A₀)
    (hnd : (A₀.map Prod.fst).Nodup) :
    Strong A₀ d R.stop nFree k (pre ++ (r, upgraded d R) :: suf) := by
  have hle := h.le
  constructor
  · rintro x t hdx hx ⟨e, he, ho, ⟨hx1, hx2⟩, rfl⟩
    simp only [List.mem_append, List.mem_cons] at he
    rcases he with he | rfl | he
    · have := h.turn.before e he ho
      omega
    · refine ⟨strength_right _ _, fun R' hs => ?_⟩
      obtain ⟨hlt, -⟩ := h.turn.stretch_eq hwf hnd hdx hx hs
      omega
    · have := h.turn.after e he ho
      omega
  · intro hlost
    obtain ⟨x, hx, hxd, hcov⟩ := h.missing hlost
    exact ⟨x, Or.inl hx, Or.inl (hxd.trans h.turn.overStop), hcov⟩

theorem meltBehind_strong (h : Behind A₀ d True M nFree F k s₁ pre suf r R F₁) (hwf : WF A₀)
    (hnd : (A₀.map Prod.fst).Nodup) (hd : d.start < d.stop)
    (hs : ∃ p, meltLoop (maxLockRecords + 1) s₁ { d with start := R.stop } none
      (s₁.findNextLockFrom (some r) { d with start := R.stop } isOwn) = some p ∧
      meltTail p.1 p.2 = some s') :
    ∃ A' F', Stores s' A' F' M ∧ Strong A₀ d d.stop nFree (addCount d A₀) A' ∧
      F.length = F'.length + addCount d A₀ := by
  have hcount := h.count
  have hfree := h.free
  rcases behind h.turn hwf hnd (has_reached d A₀) h.region h.le hd h.stores h.nodup with
    ⟨hnone, hdone, htail⟩ | ⟨mid, suf₂, r₂, R₂, rfl, hsome, ht₂, hnext⟩
  · rw [hnone] at hs
    simp only [meltLoop, Option.some.injEq, exists_eq_left'] at hs
    obtain ⟨A', F', hst', hstrong, hF⟩ :=
      meltTail_strong hwf hdone h.stores (h.strong hwf hnd) h.natives hs
    rw [← htail, hcount] at hstrong
    exact ⟨A', F', hst', hstrong, by omega⟩
  · rw [hsome] at hs
    have hentries : pre ++ (r, upgraded d R) :: (mid ++ (r₂, R₂) :: suf₂) =
        (pre ++ (r, upgraded d R) :: mid) ++ (r₂, R₂) :: suf₂ := by simp
    have hst := h.stores
    have hstrong := h.strong hwf hnd
    rw [hentries] at hst hstrong
    obtain ⟨A', F', hst', hstrong', hF⟩ := meltRest_strong hwf hnd (has_reached d A₀)
      (fun _ hx => hx.1) ht₂ hst hstrong h.natives hs
    simp only [eqPrev, ← hnext, hcount] at hstrong' hF
    exact ⟨A', F', hst', hstrong', by omega⟩

/-! ## The result -/

theorem meltLockIntoList_strong (hst : Stores s A₀ F M) (hwf : WF A₀) (hd : d.start < d.stop)
    (hs : meltLockIntoList s d = some s') :
    ∃ A' F', Stores s' A' F' M ∧ Strong A₀ d d.stop s.lockImp.nFree (addCount d A₀) A' ∧
      F.length = F'.length + addCount d A₀ := by
  have hnd := hst.rep.fst_nodup
  cases hr : Rep.findEntry d isOwn A₀ with
  | none =>
    have hfirst := findFirst_own (d := d) hst hwf.sorted
    rw [hst.rep.findFirstLock, hr] at hfirst
    rw [meltLockIntoList_none hr hst] at hs
    rw [addCount_none hr hfirst, ← Nat.zero_add (tailCount d d.start)]
    obtain ⟨A', F', hst', hstrong, hF⟩ := meltTail_strong hwf
      (done_of_none hwf hfirst : Done A₀ d (Reached d A₀) True d.start A₀) hst (strong_start _ _ _ _)
      rfl hs
    exact ⟨A', F', hst', hstrong, by omega⟩
  | some e =>
    obtain ⟨r, R⟩ := e
    by_cases hlt : R.start < d.start
    · rw [meltLockIntoList_behind hr hst hlt] at hs
      simp only [Option.bind_eq_some_iff] at hs
      obtain ⟨s₁, hs₁, hs⟩ := hs
      obtain ⟨k, pre, suf, R₁, F₁, h, -⟩ := exists_behind hst hwf hd hr hlt (fun _ => trivial) hs₁
      rw [h.stop] at hs
      exact meltBehind_strong h hwf hnd hd hs
    · obtain ⟨X, suf, hf⟩ := exists_firstOwn hst hwf hr
      rw [meltLockIntoList_at hr hst hlt] at hs
      simp only [Option.bind_eq_some_iff] at hs
      have ht := hf.turn (Reached d A₀) True hwf hnd hd
        (fun x hx hxd => Or.inl (has_reached d A₀ x ⟨(Nat.not_lt.mp hlt).trans hx.1, hxd⟩))
      have hst' := hst
      rw [hf.split] at hst'
      obtain ⟨A', F', hst'', hstrong, hF⟩ := meltRest_strong hwf hnd (has_reached d A₀)
        (fun _ hx => hx.1) ht hst' (strong_start _ _ _ _) rfl hs
      simp only [eqPrev, ← addCount_first hf hr hlt, Nat.zero_add] at hstrong hF
      exact ⟨A', F', hst'', hstrong, hF⟩

theorem exists_meltBehind (h : Behind A₀ d True M nFree F k s₁ pre suf r R F₁) (hwf : WF A₀)
    (hnd : (A₀.map Prod.fst).Nodup) (hd : d.start < d.stop) (hF : addCount d A₀ ≤ F.length) :
    ∃ p s', meltLoop (maxLockRecords + 1) s₁ { d with start := R.stop } none
      (s₁.findNextLockFrom (some r) { d with start := R.stop } isOwn) = some p ∧
      meltTail p.1 p.2 = some s' := by
  have hcount := h.count
  have hfree := h.free
  rcases behind h.turn hwf hnd (has_reached d A₀) h.region h.le hd h.stores h.nodup with
    ⟨hnone, -, htail⟩ | ⟨mid, suf₂, r₂, R₂, rfl, hsome, ht₂, hnext⟩
  · obtain ⟨s', hs'⟩ := exists_meltTail h.stores (d := d) (c := R.stop) (by omega)
    rw [hnone]
    exact ⟨_, s', rfl, hs'⟩
  · have hst : Stores s₁ ((pre ++ (r, upgraded d R) :: mid) ++ (r₂, R₂) :: suf₂) F₁ M := by
      simpa using h.stores
    have hfuel : suf₂.length < maxLockRecords + 1 := by
      have := hst.rep.length_le
      simp only [List.length_append, List.length_cons] at this
      omega
    rw [hsome]
    exact exists_meltRest hwf hnd (has_reached d A₀) ht₂ hst hfuel (by simp only [eqPrev]; omega)

theorem exists_meltLockIntoList (hst : Stores s A₀ F M) (hwf : WF A₀) (hd : d.start < d.stop)
    (hF : addCount d A₀ ≤ F.length) : ∃ s', meltLockIntoList s d = some s' := by
  have hnd := hst.rep.fst_nodup
  cases hr : Rep.findEntry d isOwn A₀ with
  | none =>
    have hfirst := findFirst_own (d := d) hst hwf.sorted
    rw [hst.rep.findFirstLock, hr] at hfirst
    rw [addCount_none hr hfirst] at hF
    rw [meltLockIntoList_none hr hst]
    exact exists_meltTail hst (d := d) (c := d.start) hF
  | some e =>
    obtain ⟨r, R⟩ := e
    obtain ⟨X, suf, hf⟩ := exists_firstOwn hst hwf hr
    by_cases hlt : R.start < d.start
    · have hf' : FirstOwn A₀ d X r R ([] ++ suf) := hf
      have hcount := addCount_behind hf' hr hwf hnd hlt (by simp)
      have hsplit : ∃ s₁, splitFirst s d r = some s₁ := by
        unfold splitFirst
        rw [hst.rep.desc (r, R) (by simp [hf.split])]
        split
        · rename_i hweak
          refine exists_splitLockRec hst _ _ (List.ne_nil_of_length_pos ?_)
          rw [if_pos hweak] at hcount
          omega
        · exact ⟨s, rfl⟩
      obtain ⟨s₁, hs₁⟩ := hsplit
      obtain ⟨k, pre, suf, R₁, F₁, h, -⟩ := exists_behind hst hwf hd hr hlt (fun _ => trivial) hs₁
      obtain ⟨p, s', hloop, htail⟩ := exists_meltBehind h hwf hnd hd hF
      refine ⟨s', ?_⟩
      rw [meltLockIntoList_behind hr hst hlt, hs₁, Option.bind_some, h.stop]
      exact Option.bind_eq_some_iff.mpr ⟨p, hloop, htail⟩
    · have ht := hf.turn (Reached d A₀) True hwf hnd hd
        (fun x hx hxd => Or.inl (has_reached d A₀ x ⟨(Nat.not_lt.mp hlt).trans hx.1, hxd⟩))
      have hst' := hst
      rw [hf.split] at hst'
      have hfuel : suf.length < maxLockRecords + 1 := by
        have := hst'.rep.length_le
        simp only [List.length_append, List.length_cons] at this
        omega
      rw [addCount_first hf hr hlt] at hF
      obtain ⟨p, s', hloop, htail⟩ := exists_meltRest hwf hnd (has_reached d A₀) ht hst' hfuel hF
      refine ⟨s', ?_⟩
      rw [meltLockIntoList_at hr hst hlt]
      exact Option.bind_eq_some_iff.mpr ⟨p, hloop, htail⟩

/-! ## The leak -/

/-- Where a first record is strengthened behind the range, it leaks. -/
theorem strength_of_reached (hwf : WF A₀) (hnd : (A₀.map Prod.fst).Nodup) (hno : ¬ Leaks A₀ d)
    (hx : ¬ d.Has x) (hreach : Reached d A₀ x) (hu : LockedAs A₀ d.tag.mandate x u) :
    strength u d.tag.type = u := by
  obtain ⟨hdx, hxr⟩ := hreach
  have hxd : d.stop ≤ x := Nat.le_of_not_lt fun hlt => hx ⟨hdx, hlt⟩
  unfold reach at hxr
  cases hr : Rep.findEntry d isOwn A₀ with
  | none =>
    rw [hr] at hxr
    exact absurd hxr (Nat.not_lt.mpr hxd)
  | some e =>
    rw [hr] at hxr
    simp only at hxr
    obtain ⟨Y, Z, hYZ, -, hreq, -⟩ := findEntry_some hr
    have heA : e ∈ A₀ := by simp [hYZ]
    have ho : Own d e := own_iff.mp hreq
    split at hxr
    · rename_i hcond
      have hxe : x < e.2.stop := by omega
      have hhas : e.2.Has x := ⟨hcond.1.le.trans hdx, hxe⟩
      rw [← ho, hwf.covers_iff hnd heA hhas] at hu
      subst hu
      by_contra hne
      exact hno ⟨e, heA, ho, hcond.1, lt_of_le_of_lt hxd hxe, hne⟩
    · omega

/-- The record that leaks is the first one, and the loop is over behind it. -/
theorem leaks_locked (hst : Stores s A₀ F M) (hwf : WF A₀) (hd : d.start < d.stop)
    {e : Entry Tag} (he : e ∈ A₀) (ho : Own d e) (h1 : e.2.start < d.start) (h2 : d.stop < e.2.stop)
    (hne : strength e.2.tag.type d.tag.type ≠ e.2.tag.type) (hs : meltLockIntoList s d = some s') :
    LockedAs s'.entries d.tag.mandate d.stop (strength e.2.tag.type d.tag.type) := by
  have hnd := hst.rep.fst_nodup
  cases hr : Rep.findEntry d isOwn A₀ with
  | none =>
    have hfirst := findFirst_own (d := d) hst hwf.sorted
    rw [hst.rep.findFirstLock, hr] at hfirst
    exact absurd ⟨h1.trans hd, hd.trans h2⟩ (hfirst e he ho)
  | some f =>
    obtain ⟨r, R⟩ := f
    obtain ⟨Y, Z, hYZ, hover, hreq, -⟩ := findEntry_some hr
    have hrA : (r, R) ∈ A₀ := by simp [hYZ]
    have hsame : e = (r, R) := by
      by_contra hno
      refine hwf.disjoint e he _ hrA (fun heq => hno (hst.rep.eq_of_fst he hrA heq))
        (ho.trans (own_iff.mp hreq).symm) ⟨h1.trans hover.2, hover.1.trans h2⟩
    subst hsame
    have hweak : (!isStrongerOrEqual R d) = true := by
      rw [Bool.not_eq_true']
      exact Bool.eq_false_iff.mpr fun h => hne (strongest_of_stronger h)
    rw [meltLockIntoList_behind hr hst h1] at hs
    simp only [Option.bind_eq_some_iff] at hs
    obtain ⟨s₁, hs₁, hs⟩ := hs
    obtain ⟨k, pre, suf, R₁, F₁, h, hstop, htag⟩ := exists_behind hst hwf hd hr h1 (fun _ => trivial) hs₁
    have hend : d.stop < R₁.stop := hstop.symm ▸ h2
    rw [h.stop] at hs
    rcases behind h.turn hwf hnd (has_reached d A₀) h.region h.le hd h.stores h.nodup with
      ⟨hnone, -⟩ | ⟨mid, suf₂, r₂, R₂, -, -, ht₂, -⟩
    · rw [hnone] at hs
      simp only [meltLoop, Option.some.injEq, exists_eq_left', meltTail] at hs
      rw [if_neg (Nat.not_lt.mpr hend.le)] at hs
      cases hs
      rw [h.stores.rep.entries_eq]
      refine ⟨(r, upgraded d R₁), by simp, h.turn.own, ⟨h.le.trans hd.le, hend⟩, ?_⟩
      rw [← htag]
      rfl
    · exact absurd ht₂.lt (Nat.not_lt.mpr hend.le)

theorem meltLockIntoList_iff (hst : Stores s A F M) (hwf : WF A) (hd : d.start < d.stop) :
    (∃ s', meltLockIntoList s d = some s' ∧ PointwiseMax d A s'.entries) ↔
      addCount d A ≤ F.length ∧ addCount d A ≤ s.lockImp.nFree ∧ ¬ Slips A d ∧ ¬ Leaks A d := by
  have hnd := hst.rep.fst_nodup
  constructor
  · rintro ⟨s', hs, hmax⟩
    obtain ⟨A', F', hst', hstrong, hF⟩ := meltLockIntoList_strong hst hwf hd hs
    have hentries := hst'.rep.entries_eq
    rw [hentries] at hmax
    refine ⟨by omega, hstrong.enough hmax, hstrong.not_slips hmax, ?_⟩
    rintro ⟨e, he, ho, h1, h2, hne⟩
    have hlock := leaks_locked hst hwf hd he ho h1 h2 hne hs
    rw [hentries, hmax.outside d.stop (fun h => lt_irrefl _ h.2), ← ho,
      hwf.covers_iff hnd he ⟨h1.le.trans hd.le, h2⟩] at hlock
    exact hne hlock
  · rintro ⟨hF, hnat, hslips, hleaks⟩
    obtain ⟨s', hs⟩ := exists_meltLockIntoList hst hwf hd hF
    obtain ⟨A', F', hst', hstrong, -⟩ := meltLockIntoList_strong hst hwf hd hs
    obtain ⟨A₁, F₁, hst₁, hmolten⟩ := meltLockIntoList_spec False hst hwf hd
      (fun hlt => absurd hnat (Nat.not_le.mpr hlt)) hs
    obtain rfl : A' = A₁ := hst'.rep.entries_eq.symm.trans hst₁.rep.entries_eq
    refine ⟨s', hs, ?_⟩
    rw [hst'.rep.entries_eq]
    exact hmolten.pointwiseMax hstrong hwf hnd
      (fun x hx hreach u => strength_of_reached hwf hnd hleaks hx hreach) hslips

/-- **Melting a lock into the list is the pointwise maximum** if and only if all records that it adds
get a record and a native lock each, no gap in the range is filled by an own record that has a
stronger address type than the lock, and no weaker own record goes beyond the range on both sides. -/
theorem mand_melt (h : WellKept s) (hd : d.start < d.stop) :
    (∃ s', meltLockIntoList s d = some s' ∧ PointwiseMax d s.entries s'.entries) ↔
      addCount d s.entries ≤ s.free.length ∧ addCount d s.entries ≤ s.lockImp.nFree ∧
        ¬ Slips s.entries d ∧ ¬ Leaks s.entries d := by
  obtain ⟨A, F, M, hst, hwf⟩ := h
  rw [hst.rep.entries_eq, hst.rep.free_eq]
  exact meltLockIntoList_iff hst hwf hd

/-! ## One record -/

/-- A write lock that starts in a read lock and goes on behind it. -/
theorem mand_melt_behind : ∃ s, oneLock maxLockRecords ⟨0, 4, ⟨1, ⟨.read, .none⟩, true⟩⟩ = some s ∧
    ∃ s', meltLockIntoList s ⟨2, 8, ⟨1, ⟨.write, .none⟩, true⟩⟩ = some s' ∧
      PointwiseMax ⟨2, 8, ⟨1, ⟨.write, .none⟩, true⟩⟩ s.entries s'.entries := by
  obtain ⟨s, r, F, hs, hst, hwf, hF, hnat⟩ := oneLock_spec (n := maxLockRecords) (by decide)
    (D := ⟨0, 4, ⟨1, ⟨.read, .none⟩, true⟩⟩) (by decide)
  refine ⟨s, hs, (mand_melt ⟨_, F, ∅, hst, hwf⟩ (by decide)).mpr ?_⟩
  rw [hst.rep.entries_eq, hst.rep.free_eq]
  refine ⟨hF, hnat, ?_, ?_⟩
  · rintro ⟨R, x, hR, hle⟩
    obtain ⟨q, hq⟩ := hR.mem
    obtain ⟨-, rfl⟩ := Prod.mk.inj (List.mem_singleton.mp hq)
    exact hle (by decide)
  · rintro ⟨e, he, -, -, h2, -⟩
    rw [List.mem_singleton.mp he] at h2
    simp only at h2
    omega

/-- A write lock inside of a read lock: what is behind it becomes a write lock, too. -/
theorem mand_melt_leaks : ∃ s s', oneLock maxLockRecords ⟨0, 10, ⟨1, ⟨.read, .none⟩, true⟩⟩ = some s ∧
    WellKept s ∧ meltLockIntoList s ⟨2, 6, ⟨1, ⟨.write, .none⟩, true⟩⟩ = some s' ∧
    ¬ PointwiseMax ⟨2, 6, ⟨1, ⟨.write, .none⟩, true⟩⟩ s.entries s'.entries := by
  obtain ⟨s, r, F, hs, hst, hwf, hF, hnat⟩ := oneLock_spec (n := maxLockRecords) (by decide)
    (D := ⟨0, 10, ⟨1, ⟨.read, .none⟩, true⟩⟩) (by decide)
  obtain ⟨s', hs'⟩ := exists_meltLockIntoList hst hwf
    (d := ⟨2, 6, ⟨1, ⟨.write, .none⟩, true⟩⟩) (by decide) hF.le
  refine ⟨s, s', hs, ⟨_, F, ∅, hst, hwf⟩, hs', fun hmax => ?_⟩
  rw [hst.rep.entries_eq] at hmax
  refine ((meltLockIntoList_iff hst hwf (by decide)).mp ⟨s', hs', hmax⟩).2.2.2 ?_
  refine ⟨_, List.mem_singleton_self _, rfl, Nat.zero_lt_two, by simp only; omega, fun h => ?_⟩
  cases h

end Athomux.LockMand
