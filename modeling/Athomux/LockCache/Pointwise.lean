import Athomux.LockCache.Melt
import Athomux.LockCache.Unlock
import Athomux.LockMelt.Strength

/-! # `melt_lock_into_list` of `#lock_cache` address by address -/

open Lib Athomux.LockList

namespace Athomux.LockCache

open LockMelt

variable {A₀ A : List (Entry Tag)} {d : Desc} {X suf suf₁ suf₂ P : List (Entry Tag)} {q r : Nat}
  {R : Desc} {s s' : LockRecs} {F : List Nat} {M : Finset Nat}

/-! ## The first lock -/

theorem meltLockIntoList_none (hno : Rep.findEntry d isOwn A₀ = none) (hst : Stores s A₀ F M) :
    meltLockIntoList s d = meltTail s d := by
  rw [meltLockIntoList, hst.rep.findFirstLock, hno]
  rfl

theorem meltLockIntoList_some (hr : Rep.findEntry d isOwn A₀ = some (r, R)) (hst : Stores s A₀ F M) :
    meltLockIntoList s d = (splitFirst s d r).bind fun s =>
      (meltLoop (maxLockRecords + 1) s d none (some r)).bind fun p => meltTail p.1 p.2 := by
  rw [meltLockIntoList, hst.rep.findFirstLock, hr]
  rfl

/-- What the loop starts with. -/
structure FirstSplit (A₀ : List (Entry Tag)) (d : Desc) (M : Finset Nat) (nFree : Nat) (F : List Nat)
    (k : Nat) (s₁ : LockRecs) (pre suf : List (Entry Tag)) (r : Nat) (R : Desc) (F₁ : List Nat) :
    Prop where
  turn : Turn A₀ d d.Has True pre suf d.start none r R
  stores : Stores s₁ (pre ++ (r, R) :: suf) F₁ M
  strong : Strong A₀ d d.start nFree k (pre ++ (r, R) :: suf)
  natives : s₁.lockImp.nFree = nFree - k
  free : F.length = F₁.length + k
  count : k + meltCount d d.start false (R :: suf.map Prod.snd) = addCount d A₀

theorem exists_firstSplit (hwf : WF A₀) (hd : d.start < d.stop) (hst : Stores s A₀ F M)
    (hr : Rep.findEntry d isOwn A₀ = some (r, R)) {s₁ : LockRecs} (hs : splitFirst s d r = some s₁) :
    ∃ k pre suf R₁ F₁, FirstSplit A₀ d M s.lockImp.nFree F k s₁ pre suf r R₁ F₁ := by
  have hnd := hst.rep.fst_nodup
  have hfirst := findFirst_own (d := d) hst hwf.sorted
  rw [hst.rep.findFirstLock, hr] at hfirst
  obtain ⟨X, R', suf, hf⟩ := hfirst
  have hrA : (r, R) ∈ A₀ := by
    obtain ⟨Y, Z, hYZ, -⟩ := findEntry_some hr
    simp [hYZ]
  have hrA' : (r, R') ∈ A₀ := by simp [hf.split]
  obtain rfl : R = R' := congrArg Prod.snd (hst.rep.eq_of_fst hrA hrA' rfl)
  unfold splitFirst at hs
  rw [hst.rep.desc _ hrA] at hs
  have hcount : addCount d A₀ = (if R.start < d.start ∧ !isStrongerOrEqual R d then 1 else 0) +
      meltCount d d.start false (R :: suf.map Prod.snd) := by
    rw [addCount, firstSplit, hr, meltCount_first hf]
  simp only at hs
  split at hs
  · rename_i hcond
    rw [if_pos hcond] at hcount
    obtain ⟨suf₁, suf₂, q, F₁, P, rfl, rfl, hq, hlow, hst₁, hP, hsort₁, hadd⟩ :=
      split_first R.tag hf hwf.sorted hst hcond.1 hs
    rw [meltCount_split hwf hnd hf hd hcond.1 hlow] at hcount
    have hstrong : Strong A₀ d d.start s.lockImp.nFree 1 (P ++ (r, { R with start := d.start }) :: suf₂) := by
      refine ⟨(strong_start A₀ _ d 1).strong, fun hzero => ?_⟩
      obtain ⟨rfl, -⟩ := hP.resolve_left fun h => absurd h.2 (by omega)
      obtain ⟨x, hx, hxd, hcov⟩ := hf.missing hwf hnd hcond.1 R.tag
      exact ⟨x, Or.inl hx, Or.inl hxd, hcov⟩
    exact ⟨1, P, suf₂, _, F₁,
      hf.turn_split d.Has hwf hnd hd hcond.1 hlow (hP.imp And.left fun h => ⟨h.1, trivial⟩) hsort₁
        (fun x _ h1 h2 => ⟨h1, h2⟩), hst₁, hstrong, hadd.natives, rfl,
      hcount.symm⟩
  · rename_i hcond
    cases hs
    rw [if_neg hcond] at hcount
    refine ⟨0, X, suf, R, F, ?_, by rwa [← hf.split], strong_start _ _ _ _, rfl, rfl, hcount.symm⟩
    refine hf.turn d.Has True hwf hnd hd fun x hx hxd => ?_
    by_cases hlt : R.start < d.start
    · exact Or.inr (by simpa [hlt] using hcond)
    · exact Or.inl ⟨by have := hx.1; omega, hxd⟩

/-! ## The result -/

theorem meltLockIntoList_strong (hst : Stores s A₀ F M) (hwf : WF A₀) (hd : d.start < d.stop)
    (hs : meltLockIntoList s d = some s') :
    ∃ A' F', Stores s' A' F' M ∧ Strong A₀ d d.stop s.lockImp.nFree (addCount d A₀) A' ∧
      F.length = F'.length + addCount d A₀ := by
  cases hr : Rep.findEntry d isOwn A₀ with
  | none =>
    rw [meltLockIntoList_none hr hst] at hs
    have hfirst := findFirst_own (d := d) hst hwf.sorted
    rw [hst.rep.findFirstLock, hr] at hfirst
    have hcount : addCount d A₀ = 0 + tailCount d d.start := by
      rw [addCount, firstSplit, hr, meltCount_none hd hfirst, tailCount, if_pos hd]
    rw [hcount]
    obtain ⟨A', F', hst', hstrong, hF⟩ := meltTail_strong hwf
      (done_of_none hwf hfirst : Done A₀ d d.Has True d.start A₀) hst (strong_start _ _ _ _) rfl hs
    exact ⟨A', F', hst', hstrong, by omega⟩
  | some e =>
    obtain ⟨r, R⟩ := e
    rw [meltLockIntoList_some hr hst] at hs
    simp only [Option.bind_eq_some_iff] at hs
    obtain ⟨s₁, hs₁, hrest⟩ := hs
    obtain ⟨k, pre, suf, R₁, F₁, h⟩ := exists_firstSplit hwf hd hst hr hs₁
    obtain ⟨A', F', hst', hstrong, hF⟩ := meltRest_strong hwf hst.rep.fst_nodup (fun _ => id)
      (fun _ hx => hx.1) h.turn h.stores h.strong h.natives hrest
    have hcount := h.count
    have hfree := h.free
    simp only [eqPrev, hcount] at hstrong hF
    exact ⟨A', F', hst', hstrong, by omega⟩

theorem exists_meltLockIntoList (hst : Stores s A₀ F M) (hwf : WF A₀) (hd : d.start < d.stop)
    (hF : addCount d A₀ ≤ F.length) : ∃ s', meltLockIntoList s d = some s' := by
  cases hr : Rep.findEntry d isOwn A₀ with
  | none =>
    have hfirst := findFirst_own (d := d) hst hwf.sorted
    rw [hst.rep.findFirstLock, hr] at hfirst
    rw [meltLockIntoList_none hr hst]
    refine exists_meltTail hst (d := d) (c := d.start) ?_
    rw [addCount, meltCount_none hd hfirst] at hF
    rw [tailCount, if_pos hd]
    omega
  | some e =>
    obtain ⟨r, R⟩ := e
    have hrA : (r, R) ∈ A₀ := by
      obtain ⟨Y, Z, hYZ, -⟩ := findEntry_some hr
      simp [hYZ]
    have hsplit : ∃ s₁, splitFirst s d r = some s₁ := by
      unfold splitFirst
      rw [hst.rep.desc _ hrA]
      split
      · rename_i hcond
        refine exists_splitLockRec hst _ _ (List.ne_nil_of_length_pos ?_)
        rw [addCount, firstSplit, hr] at hF
        simp only at hF
        rw [if_pos hcond] at hF
        omega
      · exact ⟨s, rfl⟩
    obtain ⟨s₁, hs₁⟩ := hsplit
    obtain ⟨k, pre, suf, R₁, F₁, h⟩ := exists_firstSplit hwf hd hst hr hs₁
    have hfuel : suf.length < maxLockRecords + 1 := by
      have := h.stores.rep.length_le
      simp only [List.length_append, List.length_cons] at this
      omega
    have hcount := h.count
    have hfree := h.free
    obtain ⟨p, s', hloop, htail⟩ := exists_meltRest hwf hst.rep.fst_nodup (fun _ => id) h.turn h.stores
      hfuel (by simp only [eqPrev]; omega)
    refine ⟨s', ?_⟩
    rw [meltLockIntoList_some hr hst, hs₁, Option.bind_some]
    exact Option.bind_eq_some_iff.mpr ⟨p, hloop, htail⟩

theorem meltLockIntoList_iff (hst : Stores s A F M) (hwf : WF A) (hd : d.start < d.stop) :
    (∃ s', meltLockIntoList s d = some s' ∧ PointwiseMax d A s'.entries) ↔
      addCount d A ≤ F.length ∧ addCount d A ≤ s.lockImp.nFree ∧ ¬ Slips A d := by
  constructor
  · rintro ⟨s', hs, hmax⟩
    obtain ⟨A', F', hst', hstrong, hF⟩ := meltLockIntoList_strong hst hwf hd hs
    rw [hst'.rep.entries_eq] at hmax
    exact ⟨by omega, hstrong.enough hmax, hstrong.not_slips hmax⟩
  · rintro ⟨hF, hnat, hno⟩
    obtain ⟨s', hs⟩ := exists_meltLockIntoList hst hwf hd hF
    obtain ⟨A', F', hst', hstrong, -⟩ := meltLockIntoList_strong hst hwf hd hs
    obtain ⟨A₁, F₁, hres⟩ := meltLockIntoList_spec False hst hwf hd
      (fun hlt => absurd hnat (Nat.not_le.mpr hlt)) hs
    obtain rfl : A' = A₁ := hst'.rep.entries_eq.symm.trans hres.stores.rep.entries_eq
    refine ⟨s', hs, ?_⟩
    rw [hst'.rep.entries_eq]
    exact hres.molten.pointwiseMax hstrong hwf hst.rep.fst_nodup (fun x hx hd => absurd hd hx) hno

/-- **Melting a lock into the list is the pointwise maximum** if and only if all records that it adds
get a record and a native lock each, and no gap in the range is filled by an own record that has a
stronger address type than the lock: that it is weaker is checked with the data type only. -/
theorem cache_melt (h : WellKept s) (hd : d.start < d.stop) :
    (∃ s', meltLockIntoList s d = some s' ∧ PointwiseMax d s.entries s'.entries) ↔
      addCount d s.entries ≤ s.free.length ∧ addCount d s.entries ≤ s.lockImp.nFree ∧
        ¬ Slips s.entries d := by
  obtain ⟨A, F, M, hst, hwf⟩ := h
  rw [hst.rep.entries_eq, hst.rep.free_eq]
  exact meltLockIntoList_iff hst hwf hd

/-! ## One record -/

/-- A read lock of the data and the addresses of [4, 6). -/
def readBoth : Desc := ⟨4, 6, ⟨1, ⟨.read, .read⟩, true⟩⟩

/-- A write lock of the data of [0, 6). -/
def writeData : Desc := ⟨0, 6, ⟨1, ⟨.write, .none⟩, true⟩⟩

/-- A write lock of the data below it fills the gap. -/
theorem cache_melt_below : ∃ s, oneLock maxLockRecords ⟨4, 6, ⟨1, ⟨.read, .none⟩, true⟩⟩ = some s ∧
    ∃ s', meltLockIntoList s writeData = some s' ∧ PointwiseMax writeData s.entries s'.entries := by
  obtain ⟨s, r, F, hs, hst, hwf, hF, hnat⟩ :=
    oneLock_spec (n := maxLockRecords) (by decide) (D := ⟨4, 6, ⟨1, ⟨.read, .none⟩, true⟩⟩) (by decide)
  refine ⟨s, hs, (cache_melt ⟨_, F, ∅, hst, hwf⟩ (by decide)).mpr ?_⟩
  rw [hst.rep.entries_eq, hst.rep.free_eq]
  refine ⟨Nat.zero_le _, Nat.zero_le _, ?_⟩
  rintro ⟨R, x, hR, hle⟩
  obtain ⟨q, hq⟩ := hR.mem
  obtain ⟨-, rfl⟩ := Prod.mk.inj (List.mem_singleton.mp hq)
  exact hle (by decide)

theorem slips_readBoth (r : Nat) : Slips [(r, readBoth)] writeData := by
  refine ⟨readBoth, 0, ⟨⟨r, List.mem_singleton_self _⟩, rfl, by decide, by decide, by decide, by decide, ?_⟩,
    by decide⟩
  intro e he _ hlt
  rw [List.mem_singleton.mp he] at hlt
  exact absurd hlt (lt_irrefl _)

/-- A read lock of data and addresses is stretched over the gap below it: the mandate has locked the
addresses there, too. -/
theorem cache_melt_slips : ∃ s s', oneLock maxLockRecords readBoth = some s ∧ WellKept s ∧
    meltLockIntoList s writeData = some s' ∧ ¬ PointwiseMax writeData s.entries s'.entries := by
  obtain ⟨s, r, F, hs, hst, hwf, hF, hnat⟩ :=
    oneLock_spec (n := maxLockRecords) (by decide) (D := readBoth) (by decide)
  have hslips : Slips s.entries writeData := by
    rw [hst.rep.entries_eq]
    exact slips_readBoth r
  obtain ⟨s', hs'⟩ := exists_meltLockIntoList hst hwf (d := writeData) (by decide) (Nat.zero_le _)
  refine ⟨s, s', hs, ⟨_, F, ∅, hst, hwf⟩, hs', fun hmax => ?_⟩
  rw [hst.rep.entries_eq] at hmax hslips
  exact ((meltLockIntoList_iff hst hwf (by decide)).mp ⟨s', hs', hmax⟩).2.2 hslips

end Athomux.LockCache
