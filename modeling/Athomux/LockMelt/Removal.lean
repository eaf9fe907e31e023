import Athomux.LockMelt.Safety

/-! # When removing own locks leaves the rest alone -/

open Lib Athomux.LockList

namespace Athomux.LockMelt

variable {n : Nat} {A₀ A A' : List (Entry Tag)} {d : Desc} {pre suf : List (Entry Tag)} {r : Nat}
  {R : Desc} {s s₁ s₂ s' : LockList Tag n} {F F' : List Nat} {M : Finset Nat} {m x : Nat}
  {t : LockType}

/-! ## Locks of a mandate -/

/-- The mandate has a lock of this type on the address. -/
def LockedAs (A : List (Entry Tag)) (m x : Nat) (t : LockType) : Prop :=
  ∃ e ∈ A, e.2.tag.mandate = m ∧ e.2.Has x ∧ e.2.tag.type = t

theorem LockedAs.covers (h : LockedAs A m x t) : Covers A m x := by
  obtain ⟨e, he, hm, hx, -⟩ := h
  exact ⟨e, he, hm, hx⟩

/-- The links are consistent, each record of the list has a native lock of its own, and the locks
are sorted and those of a mandate disjoint. -/
def WellKept (s : LockList Tag n) : Prop := ∃ A F M, Stores s A F M ∧ WF A

/-- Nothing is left of the own locks in `d`, and all the rest is as before. -/
structure RestKept (d : Desc) (A A' : List (Entry Tag)) : Prop where
  free : ∀ x, d.Has x → ¬ Covers A' d.tag.mandate x
  kept : ∀ x t, ¬ d.Has x → (LockedAs A' d.tag.mandate x t ↔ LockedAs A d.tag.mandate x t)
  foreign : ∀ e, ¬ Own d e → (e ∈ A' ↔ e ∈ A)
  sorted : Sorted A'

/-- At most one lock of a mandate is on an address. -/
theorem WF.eq_of_has (h : WF A) (hnd : (A.map Prod.fst).Nodup) {e f : Entry Tag} (he : e ∈ A)
    (hf : f ∈ A) (hm : e.2.tag.mandate = f.2.tag.mandate) (hex : e.2.Has x) (hfx : f.2.Has x) :
    e = f := by
  by_contra hne
  refine h.disjoint e he f hf (fun heq => hne (List.inj_on_of_nodup_map hnd he hf heq)) hm ?_
  exact ⟨lt_of_le_of_lt hex.1 hfx.2, lt_of_le_of_lt hfx.1 hex.2⟩

theorem WF.covers_iff (h : WF A) (hnd : (A.map Prod.fst).Nodup) {e : Entry Tag} (he : e ∈ A)
    (hx : e.2.Has x) : LockedAs A e.2.tag.mandate x t ↔ t = e.2.tag.type := by
  constructor
  · rintro ⟨f, hf, hm, hfx, rfl⟩
    rw [h.eq_of_has hnd he hf hm.symm hx hfx]
  · rintro rfl
    exact ⟨e, he, rfl, hx, rfl⟩

/-- When nothing is lost. -/
theorem Removed.restKept (h : Removed A₀ d False A) (hwf : WF A₀) (hnd : (A₀.map Prod.fst).Nodup)
    (hp : Passed d A) : RestKept d A₀ A where
  free _ hx := hp.free hx
  foreign := h.foreign
  sorted := h.sorted
  kept x t hx := by
    have hpiece : LockedAs A d.tag.mandate x t → LockedAs A₀ d.tag.mandate x t := by
      rintro ⟨e, he, ho, hex, rfl⟩
      obtain ⟨f, hf, hof, htag, hfx⟩ := h.piece e he ho x hex
      exact ⟨f, hf, hof, hfx, by rw [htag]⟩
    refine ⟨hpiece, ?_⟩
    rintro ⟨e, he, hm, hex, rfl⟩
    rcases h.cover x ⟨e, he, hm, hex⟩ with ⟨f, hf, hof, hfx⟩ | hlost | hd
    · obtain ⟨g, hg, hog, htag, hgx⟩ := h.piece f hf hof x hfx
      rw [hwf.eq_of_has hnd he hg (hm.trans hog.symm) hex hgx, htag]
      exact ⟨f, hf, hof, hfx, rfl⟩
    · exact hlost.elim
    · exact absurd hd hx

/-! ## The first turn -/

theorem mem_addNew_if {c : Prop} [Decidable c] {D : Desc} (hst : Stores s A F M)
    (hs : (if c then s.addNew D else some s) = some s') :
    ∃ q A' F', Stores s' A' F' M ∧
      s'.lockImp.nFree = s.lockImp.nFree - (if c then 1 else 0) ∧
      F.length = F'.length + (if c then 1 else 0) ∧
      (c → 0 < s.lockImp.nFree → q ∉ A.map Prod.fst) ∧ (Sorted A → Sorted A') ∧
      ∀ e, e ∈ A' ↔ e ∈ A ∨ c ∧ 0 < s.lockImp.nFree ∧ e = (q, D) := by
  obtain ⟨q, A', F', hst', hA', hfree, hF, -⟩ := hst.addNew_if hs
  refine ⟨q, A', F', hst', hfree, hF, ?_⟩
  rcases hA' with ⟨hc, hpos, hq, rfl⟩ | ⟨rfl, hzero⟩
  · refine ⟨fun _ _ => hq, fun hsort => hsort.ins _, fun e => ?_⟩
    rw [mem_ins]
    tauto
  · have hno : ¬ (c ∧ 0 < s.lockImp.nFree) := fun h => h.2.ne' (hzero h.1)
    refine ⟨fun hc hpos => absurd ⟨hc, hpos⟩ hno, id, fun e => ?_⟩
    tauto

/-- What is in the list after `R` has been taken away: the parts of it that get a native lock. -/
theorem turn_mem (hst : Stores s A F M) (hr : (r, R) ∈ A) (hs₁ : s.keepLower r d.start = some s₁)
    (hs₂ : s₁.keepUpper r d.stop = some s₂) :
    ∃ q q' A' F', Stores ((s₂.removeLockRec r).freeLockRec r) A' (r :: F') M ∧
      F'.length + partCount d R = F.length ∧ (Sorted A → Sorted A') ∧ ∀ e, e ∈ A' ↔
        (e ∈ A ∧ e.1 ≠ r) ∨
        (R.start < d.start ∧ 0 < s.lockImp.nFree ∧ e = (q, { R with stop := d.start })) ∨
        (d.stop < R.stop ∧ (if R.start < d.start then 1 else 0) < s.lockImp.nFree ∧
          e = (q', { R with start := d.stop })) := by
  rw [keepLower_eq, hst.rep.desc _ hr] at hs₁
  simp only at hs₁
  obtain ⟨q, A₁, F₁, hst₁, hfree₁, hF₁, hq, hsort₁, hA₁⟩ := mem_addNew_if hst hs₁
  have hr₁ : (r, R) ∈ A₁ := (hA₁ _).mpr (Or.inl hr)
  rw [keepUpper_eq, hst₁.rep.desc _ hr₁] at hs₂
  simp only at hs₂
  obtain ⟨q', A₂, F₂, hst₂, -, hF₂, hq', hsort₂, hA₂⟩ := mem_addNew_if hst₁ hs₂
  have hr₂ : (r, R) ∈ A₂ := (hA₂ _).mpr (Or.inl hr₁)
  obtain ⟨hst₃, -⟩ := hst₂.removeFree (List.mem_map_of_mem (f := Prod.fst) hr₂)
  have hqr : R.start < d.start → 0 < s.lockImp.nFree → q ≠ r := by
    rintro hc hpos rfl
    exact hq hc hpos (List.mem_map_of_mem (f := Prod.fst) hr)
  have hqr' : d.stop < R.stop → 0 < s₁.lockImp.nFree → q' ≠ r := by
    rintro hc hpos rfl
    exact hq' hc hpos (List.mem_map_of_mem (f := Prod.fst) hr₁)
  have hnat : 0 < s₁.lockImp.nFree ↔ (if R.start < d.start then 1 else 0) < s.lockImp.nFree := by
    rw [hfree₁]
    omega
  refine ⟨q, q', _, F₂, hst₃, ?_, fun hsort => (hsort₂ (hsort₁ hsort)).del r, fun e => ?_⟩
  · rw [partCount]
    omega
  · rw [mem_del, hA₂, hA₁, ← hnat]
    constructor
    · rintro ⟨(he | ⟨hc, hpos, rfl⟩) | ⟨hc, hpos, rfl⟩, hne⟩
      · exact Or.inl ⟨he, hne⟩
      · exact Or.inr (Or.inl ⟨hc, hpos, rfl⟩)
      · exact Or.inr (Or.inr ⟨hc, hpos, rfl⟩)
    · rintro (⟨he, hne⟩ | ⟨hc, hpos, rfl⟩ | ⟨hc, hpos, rfl⟩)
      · exact ⟨Or.inl (Or.inl he), hne⟩
      · exact ⟨Or.inl (Or.inr ⟨hc, hpos, rfl⟩), hqr hc hpos⟩
      · exact ⟨Or.inr ⟨hc, hpos, rfl⟩, hqr' hc hpos⟩

theorem exists_addNew (hst : Stores s A F M) (D : Desc) (hF : F ≠ []) :
    ∃ s', s.addNew D = some s' := by
  obtain ⟨p, hp⟩ := Option.ne_none_iff_exists'.mp (hst.rep.newLockRec_eq_none.not.mpr hF)
  rw [LockList.addNew, hp]
  exact ⟨_, rfl⟩

theorem exists_addNew_if {c : Prop} [Decidable c] {D : Desc} (hst : Stores s A F M)
    (hF : c → F ≠ []) : ∃ s', (if c then s.addNew D else some s) = some s' := by
  by_cases hc : c
  · rw [if_pos hc]
    exact exists_addNew hst D (hF hc)
  · exact ⟨s, if_neg hc⟩

/-- The parts need free records. -/
theorem turn_some (hst : Stores s A F M) (hr : (r, R) ∈ A) (hF : partCount d R ≤ F.length) :
    ∃ s₁ s₂, s.keepLower r d.start = some s₁ ∧ s₁.keepUpper r d.stop = some s₂ := by
  have hlow : ∃ s₁, s.keepLower r d.start = some s₁ := by
    rw [keepLower_eq, hst.rep.desc _ hr]
    refine exists_addNew_if hst fun hc => List.ne_nil_of_length_pos ?_
    rw [partCount, if_pos hc] at hF
    omega
  obtain ⟨s₁, hs₁⟩ := hlow
  have hs₁' := hs₁
  rw [keepLower_eq, hst.rep.desc _ hr] at hs₁
  simp only at hs₁
  obtain ⟨q, A₁, F₁, hst₁, -, hF₁, -, -, hA₁⟩ := mem_addNew_if hst hs₁
  have hup : ∃ s₂, s₁.keepUpper r d.stop = some s₂ := by
    rw [keepUpper_eq, hst₁.rep.desc _ ((hA₁ _).mpr (Or.inl hr))]
    refine exists_addNew_if hst₁ fun hc => List.ne_nil_of_length_pos ?_
    rw [partCount, if_pos hc] at hF
    omega
  obtain ⟨s₂, hs₂⟩ := hup
  exact ⟨s₁, s₂, hs₁', hs₂⟩

/-! ## The other turns -/

theorem removeLoop_some {fuel : Nat} {P Y : List (Entry Tag)} (hst : Stores s (P ++ Y) F M)
    (h : Removed A₀ d True (P ++ Y)) (hP : Passed d P) (hwrap : d.start ≤ d.stop)
    (hF : firstParts d Y ≤ F.length) :
    ∃ s', removeLoop d fuel s ((Rep.findEntry d isOwn Y).map Prod.fst) = some s' := by
  induction fuel generalizing P Y s F with
  | zero => exact ⟨s, by cases (Rep.findEntry d isOwn Y).map Prod.fst <;> rfl⟩
  | succ fuel ih =>
    unfold firstParts at hF
    cases hf : Rep.findEntry d isOwn Y with
    | none => exact ⟨s, removeLoop_none d _ s⟩
    | some e =>
      obtain ⟨r, R⟩ := e
      obtain ⟨mid, suf, rfl, hover, hreq, hmid⟩ := findEntry_some hf
      have ho : R.tag.mandate = d.tag.mandate := own_iff.mp hreq
      rw [hf] at hF
      have hall : P ++ (mid ++ (r, R) :: suf) = (P ++ mid) ++ (r, R) :: suf := by simp
      rw [hall] at hst h
      have hr : (r, R) ∈ (P ++ mid) ++ (r, R) :: suf := by simp
      obtain ⟨s₁, s₂, hs₁, hs₂⟩ := turn_some hst hr hF
      obtain ⟨q, q', A₁, F₁, hst₁, -⟩ := turn_mem hst hr hs₁ hs₂
      have hnext : s.links.next r = (suf.map Prod.fst).head? :=
        Links.Dll.next (X := (P ++ mid).map Prod.fst) (by simpa using hst.rep.dll)
      obtain ⟨P', Y', F', hst', hrem, hhead, hP', hY', -, -⟩ :=
        remove_turn hst h ho hover (passed_mid hP hmid) hwrap (fun _ => trivial) hs₁ hs₂ rfl
      have hfree : F' = r :: F₁ := hst'.rep.free_eq.symm.trans hst₁.rep.free_eq
      have hparts := firstParts_le_one h hst.rep.fst_nodup ho hover hY'
      obtain ⟨s', hs'⟩ := ih hst' hrem hP' (hparts.trans (by rw [hfree]; exact Nat.le_add_left 1 _))
      have hfind := hst'.rep.findNextLockFrom d isOwn
      rw [hhead, ← hnext] at hfind
      refine ⟨s', ?_⟩
      simp only [Option.map_some, removeLoop, Option.bind_eq_bind, hs₁, hs₂, Option.bind_some, hfind]
      exact hs'

/-- What the search starts from is still in the list. -/
theorem active_next_turn (hst : Stores s A F M) (hr : (r, R) ∈ A)
    (hA' : ∀ e, e ∈ A ∧ e.1 ≠ r → e ∈ A') : Active A' (s.links.next r) := by
  obtain ⟨hact, hne⟩ := hst.rep.active_next (List.mem_map_of_mem (f := Prod.fst) hr)
  intro q hq
  obtain ⟨e, he, rfl⟩ := List.mem_map.mp (hact q hq)
  exact List.mem_map_of_mem (hA' e ⟨he, fun heq => hne (heq ▸ hq)⟩)

/-- What is kept was there before. -/
theorem removeLoop_locked {fuel : Nat} {lock : Option Nat} (hst : Stores s A F M)
    (hlock : ∀ r, lock = some r → ∃ R, (r, R) ∈ A ∧ R.Overlaps d)
    (hs : removeLoop d fuel s lock = some s') :
    ∃ A' F', Stores s' A' F' M ∧ ∀ m x t, LockedAs A' m x t → LockedAs A m x t := by
  induction fuel generalizing s A F lock with
  | zero =>
    cases lock <;> cases hs <;> exact ⟨A, F, hst, fun m x t => id⟩
  | succ fuel ih =>
    cases lock with
    | none =>
      cases hs
      exact ⟨A, F, hst, fun m x t => id⟩
    | some r =>
      obtain ⟨R, hr, hover⟩ := hlock r rfl
      simp only [removeLoop, Option.bind_eq_bind, Option.bind_eq_some_iff] at hs
      obtain ⟨s₁, hs₁, s₂, hs₂, hs⟩ := hs
      obtain ⟨q, q', A₁, F₁, hst₁, -, -, hA₁⟩ := turn_mem hst hr hs₁ hs₂
      have hact : Active A₁ (s.links.next r) :=
        active_next_turn hst hr fun e he => (hA₁ e).mpr (Or.inl he)
      have hfound : ∀ q, ((s₂.removeLockRec r).freeLockRec r).findNextLockFrom (s.links.next r) d
          isOwn = some q → ∃ Q, (q, Q) ∈ A₁ ∧ Q.Overlaps d := by
        intro q hq
        obtain ⟨Q, hQ, hover, -⟩ := hst₁.rep.find_active hact hq
        exact ⟨Q, hQ, hover⟩
      obtain ⟨A', F', hst', hsub⟩ := ih hst₁ hfound hs
      refine ⟨A', F', hst', fun m x t hx => ?_⟩
      obtain ⟨e, he, hm, hex, ht⟩ := hsub m x t hx
      rcases (hA₁ e).mp he with ⟨heA, -⟩ | ⟨-, -, rfl⟩ | ⟨-, -, rfl⟩
      · exact ⟨e, heA, hm, hex, ht⟩
      · exact ⟨_, hr, hm, ⟨hex.1, hex.2.trans hover.2⟩, ht⟩
      · exact ⟨_, hr, hm, ⟨hover.1.le.trans hex.1, hex.2⟩, ht⟩

/-- Where nothing is left to be removed, the loop ends. -/
theorem Passed.find_none {lock : Option Nat} (hp : Passed d A) (hst : Stores s A F M)
    (hlock : Active A lock) : s.findNextLockFrom lock d isOwn = none := by
  cases hf : s.findNextLockFrom lock d isOwn with
  | none => rfl
  | some q =>
    obtain ⟨Q, hQ, hover, hreq⟩ := hst.rep.find_active hlock hf
    exact absurd hover (hp _ hQ (own_iff.mp hreq))

/-! ## All of it -/

/-- The first lock that is found. -/
structure FirstTurn (s : LockList Tag n) (A : List (Entry Tag)) (d : Desc) (r : Nat) (R : Desc) :
    Prop where
  mem : (r, R) ∈ A
  own : R.tag.mandate = d.tag.mandate
  overlaps : R.Overlaps d
  parts : firstParts d A = partCount d R
  first : s.findFirstLock d isOwn = some r

theorem exists_firstTurn (hst : Stores s A F M) (hwf : WF A) (hno : ¬ Passed d A) :
    ∃ r R, FirstTurn s A d r R := by
  cases hf : Rep.findEntry d isOwn A with
  | none => exact absurd (passed_mid (X := []) (by simp [Passed]) (findEntry_none hwf.sorted hf)) hno
  | some e =>
    obtain ⟨r, R⟩ := e
    obtain ⟨pre, suf, rfl, hover, hreq, -⟩ := findEntry_some hf
    refine ⟨r, R, by simp, own_iff.mp hreq, hover, by rw [firstParts, hf], ?_⟩
    rw [hst.rep.findFirstLock, hf]
    rfl

theorem FirstTurn.eq (h : FirstTurn s A d r R) : removeOwnLocks s d =
    (s.keepLower r d.start).bind fun s₁ => (s₁.keepUpper r d.stop).bind fun s₂ =>
      removeLoop d n ((s₂.removeLockRec r).freeLockRec r)
        (((s₂.removeLockRec r).freeLockRec r).findNextLockFrom (s.links.next r) d isOwn) := by
  rw [removeOwnLocks, h.first]
  rfl

/-- The own locks that are left overlap a range that wraps no more. -/
theorem FirstTurn.passed (h : FirstTurn s A d r R) (hwf : WF A) (hwrap : d.stop < d.start)
    (hA' : ∀ e ∈ A', (e ∈ A ∧ e.1 ≠ r) ∨ e.2.stop = d.start ∨ e.2.start = d.stop) :
    Passed d A' := by
  rintro e he ho ⟨h1, h2⟩
  rcases hA' e he with ⟨heA, hne⟩ | heq | heq
  · refine hwf.disjoint e heA _ h.mem hne (ho.trans h.own.symm) ?_
    exact ⟨h1.trans (hwrap.trans h.overlaps.2), h.overlaps.1.trans (hwrap.trans h2)⟩
  · exact h2.ne' heq
  · exact h1.ne heq

/-- In a range that wraps there is one turn. -/
theorem FirstTurn.wrapped (h : FirstTurn s A d r R) (hst : Stores s A F M) (hwf : WF A)
    (hwrap : d.stop < d.start) (hs₁ : s.keepLower r d.start = some s₁)
    (hs₂ : s₁.keepUpper r d.stop = some s₂) :
    removeOwnLocks s d = some ((s₂.removeLockRec r).freeLockRec r) := by
  obtain ⟨q, q', A₁, F₁, hst₁, -, -, hA₁⟩ := turn_mem hst h.mem hs₁ hs₂
  have hpass : Passed d A₁ := h.passed hwf hwrap fun e he => by
    rcases (hA₁ e).mp he with he | ⟨-, -, rfl⟩ | ⟨-, -, rfl⟩
    · exact Or.inl he
    · exact Or.inr (Or.inl rfl)
    · exact Or.inr (Or.inr rfl)
  have hact : Active A₁ (s.links.next r) :=
    active_next_turn hst h.mem fun e he => (hA₁ e).mpr (Or.inl he)
  rw [h.eq, hs₁, Option.bind_some, hs₂, Option.bind_some, hpass.find_none hst₁ hact]
  exact removeLoop_none d n _

/-- A part that gets no native lock is lost. -/
theorem FirstTurn.lost (h : FirstTurn s A d r R) (hst : Stores s A F M) (hwf : WF A)
    (hs : removeOwnLocks s d = some s') (hnat : s.lockImp.nFree < partCount d R) :
    ∃ x, R.Has x ∧ ¬ d.Has x ∧ ¬ Covers s'.entries d.tag.mandate x := by
  have hs' := hs
  rw [h.eq] at hs
  simp only [Option.bind_eq_some_iff] at hs
  obtain ⟨s₁, hs₁, s₂, hs₂, hs⟩ := hs
  obtain ⟨q, q', A₁, F₁, hst₁, -, -, hA₁⟩ := turn_mem hst h.mem hs₁ hs₂
  have hact : Active A₁ (s.links.next r) :=
    active_next_turn hst h.mem fun e he => (hA₁ e).mpr (Or.inl he)
  obtain ⟨A', F', hst', hsub⟩ := removeLoop_locked hst₁ (d := d) (fun q hq => by
    obtain ⟨Q, hQ, hover, -⟩ := hst₁.rep.find_active hact hq
    exact ⟨Q, hQ, hover⟩) hs
  rw [hst'.rep.entries_eq]
  obtain ⟨hover1, hover2⟩ := h.overlaps
  have hne := hwf.nonempty _ h.mem
  simp only at hne
  -- The other own locks are not on an address of `R`.
  have hother : ∀ x, R.Has x → Covers A' d.tag.mandate x →
      (R.start < d.start ∧ 0 < s.lockImp.nFree ∧ x < d.start) ∨
      (d.stop < R.stop ∧ (if R.start < d.start then 1 else 0) < s.lockImp.nFree ∧ d.stop ≤ x) := by
    rintro x hx ⟨f, hf, hm, hfx⟩
    obtain ⟨e, he, hem, hex, -⟩ := hsub _ x _ ⟨f, hf, hm, hfx, rfl⟩
    rcases (hA₁ e).mp he with ⟨heA, hner⟩ | ⟨hlow, hpos, rfl⟩ | ⟨hup, hpos, rfl⟩
    · have heq := hwf.eq_of_has hst.rep.fst_nodup heA h.mem (hem.trans h.own.symm) hex hx
      exact absurd (congrArg Prod.fst heq) hner
    · exact Or.inl ⟨hlow, hpos, hex.2⟩
    · exact Or.inr ⟨hup, hpos, hex.1⟩
  unfold partCount at hnat
  by_cases hlow : R.start < d.start ∧ s.lockImp.nFree = 0
  · refine ⟨R.start, ⟨Nat.le_refl _, hne⟩, fun hx => absurd hx.1 (Nat.not_le.mpr hlow.1), fun hcov => ?_⟩
    have := hother R.start ⟨Nat.le_refl _, hne⟩ hcov
    omega
  · have hlast : R.Has (R.stop - 1) := ⟨Nat.le_sub_one_of_lt hne, Nat.sub_one_lt_of_lt hne⟩
    have hup : d.stop < R.stop := by
      by_contra hno
      rw [if_neg hno] at hnat
      split at hnat <;> omega
    refine ⟨R.stop - 1, hlast, fun hx => absurd hx.2 (by omega), fun hcov => ?_⟩
    have := hother _ hlast hcov
    rw [if_pos hup] at hnat
    omega

/-- In a range that wraps all of the lock is in its two parts. -/
theorem FirstTurn.restKept_wrapped (h : FirstTurn s A d r R) (hst : Stores s A F M) (hwf : WF A)
    (hwrap : d.stop < d.start) (hs₁ : s.keepLower r d.start = some s₁)
    (hs₂ : s₁.keepUpper r d.stop = some s₂) (hnat : partCount d R ≤ s.lockImp.nFree) :
    RestKept d A ((s₂.removeLockRec r).freeLockRec r).entries := by
  obtain ⟨q, q', A₁, F₁, hst₁, -, hsort, hA₁⟩ := turn_mem hst h.mem hs₁ hs₂
  rw [hst₁.rep.entries_eq]
  have hlow : R.start < d.start := h.overlaps.1.trans hwrap
  have hup : d.stop < R.stop := hwrap.trans h.overlaps.2
  rw [partCount, if_pos hlow, if_pos hup] at hnat
  have hmem : ∀ e, e ∈ A₁ ↔ (e ∈ A ∧ e.1 ≠ r) ∨ e = (q, { R with stop := d.start }) ∨
      e = (q', { R with start := d.stop }) := by
    intro e
    rw [hA₁, if_pos hlow]
    have h1 : 0 < s.lockImp.nFree := by omega
    have h2 : 1 < s.lockImp.nFree := by omega
    simp only [hlow, hup, h1, h2, true_and]
  refine ⟨fun x hx => absurd (hx.1.trans_lt hx.2) hwrap.not_gt, fun x t _ => ?_, fun e hno => ?_,
    hsort hwf.sorted⟩
  · constructor
    · rintro ⟨e, he, hm, hex, ht⟩
      rcases (hmem e).mp he with ⟨heA, -⟩ | rfl | rfl
      · exact ⟨e, heA, hm, hex, ht⟩
      · exact ⟨_, h.mem, hm, ⟨hex.1, hex.2.trans h.overlaps.2⟩, ht⟩
      · exact ⟨_, h.mem, hm, ⟨h.overlaps.1.le.trans hex.1, hex.2⟩, ht⟩
    · rintro ⟨e, he, hm, hex, ht⟩
      by_cases her : e.1 = r
      · obtain rfl : e = (r, R) := hst.rep.eq_of_fst he h.mem her
        rcases Nat.lt_or_ge x d.start with hx | hx
        · exact ⟨_, (hmem _).mpr (Or.inr (Or.inl rfl)), hm, ⟨hex.1, hx⟩, ht⟩
        · exact ⟨_, (hmem _).mpr (Or.inr (Or.inr rfl)), hm, ⟨hwrap.le.trans hx, hex.2⟩, ht⟩
      · exact ⟨e, (hmem e).mpr (Or.inl ⟨he, her⟩), hm, hex, ht⟩
  · rw [hmem]
    constructor
    · rintro (⟨heA, -⟩ | rfl | rfl)
      · exact heA
      · exact absurd h.own hno
      · exact absurd h.own hno
    · intro heA
      refine Or.inl ⟨heA, fun her => hno ?_⟩
      rw [hst.rep.eq_of_fst heA h.mem her]
      exact h.own

/-- It is fatal to run out of records. -/
theorem exists_removeOwnLocks (hst : Stores s A F M) (hwf : WF A)
    (hF : firstParts d A ≤ F.length) : ∃ s', removeOwnLocks s d = some s' := by
  by_cases hno : Passed d A
  · exact ⟨s, removeOwnLocks_none hst hno⟩
  · rcases Nat.lt_or_ge d.stop d.start with hwrap | hwrap
    · obtain ⟨r, R, h⟩ := exists_firstTurn hst hwf hno
      rw [h.parts] at hF
      obtain ⟨s₁, s₂, hs₁, hs₂⟩ := turn_some hst h.mem hF
      exact ⟨_, h.wrapped hst hwf hwrap hs₁ hs₂⟩
    · obtain ⟨s', hs⟩ : ∃ s', removeLoop d (n + 1) s ((Rep.findEntry d isOwn A).map Prod.fst) = some s' :=
        removeLoop_some (P := []) hst (Removed.refl hwf d True) (by simp [Passed]) hwrap hF
      rw [← hst.rep.findFirstLock] at hs
      exact ⟨s', hs⟩

/-- Removing own locks does what it should if and only if the parts that are kept of the first lock
get a record and a native lock each. -/
theorem removeOwnLocks_iff (hst : Stores s A F M) (hwf : WF A) :
    (∃ s', removeOwnLocks s d = some s' ∧ RestKept d A s'.entries) ↔
      firstParts d A ≤ F.length ∧ firstParts d A ≤ s.lockImp.nFree := by
  by_cases hno : Passed d A
  · rw [firstParts_none hno]
    refine iff_of_true ⟨s, removeOwnLocks_none hst hno, ?_⟩ ⟨Nat.zero_le _, Nat.zero_le _⟩
    rw [hst.rep.entries_eq]
    exact (Removed.refl hwf d False).restKept hwf hst.rep.fst_nodup hno
  · obtain ⟨r, R, h⟩ := exists_firstTurn hst hwf hno
    rw [h.parts]
    constructor
    · rintro ⟨s', hs, hkept⟩
      constructor
      · have hs' := hs
        rw [h.eq] at hs
        simp only [Option.bind_eq_some_iff] at hs
        obtain ⟨s₁, hs₁, s₂, hs₂, -⟩ := hs
        obtain ⟨q, q', A₁, F₁, -, hF, -⟩ := turn_mem hst h.mem hs₁ hs₂
        omega
      · refine Nat.le_of_not_lt fun hnat => ?_
        obtain ⟨x, hR, hd, hcov⟩ := h.lost hst hwf hs hnat
        exact hcov ((hkept.kept x R.tag.type hd).mpr ⟨_, h.mem, h.own, hR, rfl⟩).covers
    · rintro ⟨hF, hnat⟩
      rcases Nat.lt_or_ge d.stop d.start with hwrap | hwrap
      · obtain ⟨s₁, s₂, hs₁, hs₂⟩ := turn_some hst h.mem hF
        exact ⟨_, h.wrapped hst hwf hwrap hs₁ hs₂, h.restKept_wrapped hst hwf hwrap hs₁ hs₂ hnat⟩
      · rw [← h.parts] at hF hnat
        obtain ⟨s', hs⟩ := exists_removeOwnLocks hst hwf hF
        obtain ⟨A', F', hst', hrem, hpass, -⟩ := removeOwnLocks_spec False hst hwf (Or.inl hwrap)
          (fun hlt => absurd hnat (Nat.not_le.mpr hlt)) hs
        refine ⟨s', hs, ?_⟩
        rw [hst'.rep.entries_eq]
        exact hrem.restKept hwf hst.rep.fst_nodup hpass

end Athomux.LockMelt
