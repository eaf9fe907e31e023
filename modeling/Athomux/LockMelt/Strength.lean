import Athomux.LockMelt.Exact

/-! # When melting is the pointwise maximum -/

open Lib Athomux.LockList

namespace Athomux.LockMelt

variable {n : Nat} {A₀ A A' : List (Entry Tag)} {d d' : Desc} {region : Nat → Prop} {lost : Prop}
  {pre suf : List (Entry Tag)} {c r x j k fuel nFree : Nat} {prev : Option Nat} {R R' : Desc}
  {s s₁ s₂ s' : LockList Tag n} {F : List Nat} {M : Finset Nat}

/-! ## One step of the loop -/

/-- The turn of `r` is the last one. -/
structure LastTurn (s : LockList Tag n) (d : Desc) (c : Nat) (prev : Option Nat) (suf : List (Entry Tag))
    (r : Nat) (R : Desc) (fuel : Nat) (s' : LockList Tag n) : Prop where
  eq : meltLoop (fuel + 1) s { d with start := c } prev (some r) =
    some (s', { d with start := endStop d R })
  count : meltCount d c (eqPrev s prev d) (R :: suf.map Prod.snd) =
    gapCount d c (eqPrev s prev d) R + endCount d R + tailCount d (endStop d R)

/-- The lock `r₂` has the next turn. -/
structure NextTurn (A₀ : List (Entry Tag)) (s : LockList Tag n) (d : Desc) (region : Nat → Prop) (c : Nat)
    (prev : Option Nat) (suf : List (Entry Tag)) (r : Nat) (R : Desc) (fuel : Nat)
    (s' : LockList Tag n) (A' : List (Entry Tag)) (pre₂ suf₂ : List (Entry Tag)) (r₂ : Nat)
    (R₂ : Desc) : Prop where
  eq : meltLoop (fuel + 1) s { d with start := c } prev (some r) =
    meltLoop fuel s' { d with start := endStop d R } (some r) (some r₂)
  count : meltCount d c (eqPrev s prev d) (R :: suf.map Prod.snd) =
    gapCount d c (eqPrev s prev d) R + endCount d R +
      meltCount d (endStop d R) (eqPrev s' (some r) d) (R₂ :: suf₂.map Prod.snd)
  turn : Turn A₀ d region True pre₂ suf₂ (endStop d R) (some r) r₂ R₂
  entries : A' = pre₂ ++ (r₂, R₂) :: suf₂
  shorter : suf₂.length < suf.length

theorem meltLoop_turn (ht : Turn A₀ d region True pre suf c prev r R) (hwf : WF A₀)
    (hnd : (A₀.map Prod.fst).Nodup) (hreg : ∀ x, d.Has x → region x)
    (hst : Stores s (pre ++ (r, R) :: suf) F M) (fuel : Nat)
    (hs₁ : fillGap s { d with start := c } prev r = some s₁)
    (hs₂ : splitEnd s₁ { d with start := c } r = some s₂) :
    ∃ A' F', Stores (setStrongest s₂ r { d with start := c }) A' F' M ∧
      Added s (pre ++ (r, R) :: suf) F (setStrongest s₂ r { d with start := c }) A' F'
        (gapCount d c (eqPrev s prev d) R + endCount d R) ∧
      (LastTurn s d c prev suf r R fuel (setStrongest s₂ r { d with start := c }) ∧
        Done A₀ d region True (endStop d R) A' ∨
      ∃ pre₂ suf₂ r₂ R₂, NextTurn A₀ s d region c prev suf r R fuel
        (setStrongest s₂ r { d with start := c }) A' pre₂ suf₂ r₂ R₂) := by
  obtain ⟨pre₁, R₃, A₁, F₁, hst₁, hd, hfor, hback, hbefore, hadd⟩ :=
    turn_spec ht hwf hnd hst (fun _ => trivial) hs₁ hs₂
  set s₃ := setStrongest s₂ r { d with start := c } with hs₃
  have hdesc : s₃.desc r = R₃ := hst₁.rep.desc (r, R₃) hd.mem
  have hloop : meltLoop (fuel + 1) s { d with start := c } prev (some r) =
      if d.stop ≤ R₃.stop then some (s₃, { d with start := R₃.stop })
      else meltLoop fuel s₃ { d with start := R₃.stop } (some r)
        (s₃.findNextLockFrom (some r) { d with start := R₃.stop } isOwn) := by
    rw [meltLoop, hs₁, Option.bind_eq_bind, Option.bind_some, hs₂]
    simp only [Option.bind_some, ← hs₃, hdesc]
  have hcd := ht.lt
  refine ⟨A₁, F₁, hst₁, hadd, ?_⟩
  by_cases hend : d.stop ≤ R.stop
  · have hend₃ : d.stop ≤ endStop d R := by
      unfold endStop
      split
      · exact Nat.le_refl _
      · exact hend
    refine Or.inl ⟨⟨?_, ?_⟩, ?_⟩
    · rw [hloop, if_pos (hd.stop ▸ hend₃), hd.stop]
    · rw [meltCount_turn ht.own ht.overStart ht.overStop, if_pos hend, tailCount,
        if_neg (Nat.not_lt.mpr hend₃)]
    · rw [← hd.stop]
      exact hd.done ht hbefore (Or.inl (hd.stop ▸ hend₃))
  · have hlt : R.stop < d.stop := Nat.lt_of_not_le hend
    have hstop : endStop d R = R.stop := by
      rw [endStop, if_neg]
      exact fun h => hlt.not_gt h.1
    have hst₁' := hst₁
    rw [hd.shape hlt] at hst₁'
    have hnext := hst₁'.rep.findNextLockFrom { d with start := R.stop } isOwn
    rw [List.map_cons, List.head?_cons] at hnext
    have heq : eqPrev s₃ (some r) d = isEquallyStrong { R with tag := strongest R.tag d.tag } d := by
      simp only [eqPrev, hdesc, isEquallyStrong, hd.tag]
    rw [hd.stop, hstop, if_neg hend, hnext] at hloop
    have hcount : meltCount d c (eqPrev s prev d) (R :: suf.map Prod.snd) = _ :=
      meltCount_turn ht.own ht.overStart ht.overStop
    rw [if_neg hend] at hcount
    have hsearch := hd.search ht hwf hlt
    cases hf : Rep.findEntry { d with start := R.stop } isOwn ((r, R₃) :: suf) with
    | none =>
      rw [hf] at hsearch hloop
      refine Or.inl ⟨⟨?_, ?_⟩, ?_⟩
      · rw [hloop, hstop]
        cases fuel <;> rfl
      · have hskip := meltCount_skip d R.stop (suf.map Prod.snd) []
          (isEquallyStrong { R with tag := strongest R.tag d.tag } d) (by
            intro e he ho h1
            obtain ⟨f, hf, rfl⟩ := List.mem_map.mp he
            exact hsearch f hf (own_iff.mp ho) h1)
        rw [List.append_nil] at hskip
        rw [hcount, hskip, hstop]
        rfl
      · rw [← hd.stop]
        exact hd.done ht hbefore (Or.inr ⟨hlt, hsearch⟩)
    | some e =>
      obtain ⟨r₂, R₂⟩ := e
      rw [hf] at hloop
      obtain ⟨mid, suf₂, hsuf, hmid, ht₂⟩ := hd.next_turn ht hwf hnd hreg hfor hbefore hlt hf
      refine Or.inr ⟨pre₁ ++ (r, R₃) :: mid, suf₂, r₂, R₂, ?_, ?_, ?_, ?_, ?_⟩
      · rw [hloop, hstop]
        rfl
      · have hmap : suf.map Prod.snd = mid.map Prod.snd ++ R₂ :: suf₂.map Prod.snd := by
          rw [hsuf]
          simp
        rw [hcount, hmap, hstop, heq, meltCount_skip]
        intro e he ho _
        obtain ⟨f, hf, rfl⟩ := List.mem_map.mp he
        exact hmid f hf (own_iff.mp ho)
      · rw [hstop]
        exact ht₂
      · rw [hd.shape hlt, hsuf]
        simp
      · rw [hsuf, List.length_append, List.length_cons]
        omega

/-! ## The invariant -/

/-- Up to `c` no own lock is weaker than `d`, or than the lock that its gap is filled by. If `j`
records are more than there were native locks, the locks of some address are lost. -/
structure Strong (A₀ : List (Entry Tag)) (d : Desc) (c nFree j : Nat) (A : List (Entry Tag)) :
    Prop where
  strong : ∀ x t, d.start ≤ x → x < c → LockedAs A d.tag.mandate x t →
    strength t d.tag.type = t ∧ ∀ R, Stretch A₀ d R x → strength t R.tag.type = t
  lost : nFree < j → ∃ x, (Covers A₀ d.tag.mandate x ∨ d.Has x) ∧ (x < c ∨ d.stop ≤ x) ∧
    ¬ Covers A d.tag.mandate x

/-- Only the lock of the turn is stretched over the gap. -/
theorem Turn.stretch_eq (ht : Turn A₀ d region True pre suf c prev r R) (hwf : WF A₀)
    (hnd : (A₀.map Prod.fst).Nodup) (hc : c ≤ x) (hx : x < R.stop) (hs : Stretch A₀ d R' x) :
    x < R.start ∧ R' = R := by
  obtain ⟨r', hr'⟩ := hs.mem
  have hne' : R'.start < R'.stop := hwf.nonempty _ hr'
  have hxR' := hs.gap.lt
  have hlt : x < R.start := by
    refine Nat.lt_of_not_le fun hge => ?_
    obtain ⟨f, hf, hof, hfstop, hfstart⟩ := ht.entry
    have := hs.gap.free f hf hof (by omega)
    omega
  obtain ⟨Z, hA, -, hZ, hZbefore⟩ := ht.origin
  obtain ⟨X, rfl⟩ := hZ (by omega)
  have hrA : (r, R) ∈ A₀ := by simp [hA]
  have hRne := ht.nonempty
  refine ⟨hlt, ?_⟩
  by_contra hne
  have hrr : r' ≠ r := by
    rintro rfl
    exact hne (congrArg Prod.snd (List.inj_on_of_nodup_map hnd hr' hrA rfl))
  have hdisj : ¬ R'.Overlaps R := hwf.disjoint _ hr' _ hrA hrr (hs.own.trans ht.own.symm)
  have hr := hr'
  rw [hA, List.mem_append] at hr
  rcases hr with hr | hr
  · rcases hZbefore _ hr hs.own with hle | ⟨heq, -⟩
    · simp only at hle
      omega
    · simp only at heq
      exact hdisj ⟨by omega, by omega⟩
  · have hafter : R.stop ≤ R'.start := ht.after _ hr hs.own
    have := hs.gap.free _ hrA ht.own (by simp only; omega)
    simp only at this
    omega

theorem Turn.lt_endStop (ht : Turn A₀ d region True pre suf c prev r R) : c < endStop d R := by
  unfold endStop
  split
  · exact ht.lt
  · exact ht.overStop

/-- A turn keeps it. -/
theorem Strong.turn (h : Strong A₀ d c nFree j (pre ++ (r, R) :: suf))
    (ht : Turn A₀ d region True pre suf c prev r R) (hwf : WF A₀) (hnd : (A₀.map Prod.fst).Nodup)
    (hnat : s.lockImp.nFree = nFree - j) (hty : TurnTypes s (pre ++ (r, R) :: suf) d c prev R A') :
    Strong A₀ d (endStop d R) nFree (j + (gapCount d c (eqPrev s prev d) R + endCount d R)) A' := by
  have hlt := ht.lt_endStop
  have hle := endStop_le (d := d) (R := R)
  constructor
  · intro x t hdx hx hlock
    rcases Nat.lt_or_ge x c with hxc | hcx
    · exact h.strong x t hdx hxc (hty.rest x t (Or.inl hxc) hlock)
    · obtain ⟨h1, h2⟩ := hty.strong x t hcx hx hlock
      refine ⟨h1, fun R' hs => ?_⟩
      obtain ⟨hlt, rfl⟩ := ht.stretch_eq hwf hnd hcx (hx.trans_le hle) hs
      exact h2 hlt hs.weaker
  · intro hlost
    by_cases hj : nFree < j
    · obtain ⟨x, hx, hxc, hcov⟩ := h.lost hj
      refine ⟨x, hx, hxc.imp_left fun h => h.trans hlt, ?_⟩
      rintro ⟨e, he, hm, hex⟩
      exact hcov (hty.rest x _ hxc ⟨e, he, hm, hex, rfl⟩).covers
    · have hgap := gapCount_le_one d c (eqPrev s prev d) R
      by_cases hg : s.lockImp.nFree < gapCount d c (eqPrev s prev d) R
      · exact ⟨c, Or.inr ⟨ht.le, ht.lt⟩, Or.inl hlt, hty.gapLost hg⟩
      · have hend : endCount d R = 1 := by
          have : endCount d R ≤ 1 := by
            unfold endCount
            split <;> omega
          omega
        obtain ⟨hdR, -⟩ := endCount_eq_one.mp hend
        obtain ⟨f, hf, hof, hfstop, hfstart⟩ := ht.entry
        have hRd := ht.overStart
        exact ⟨d.stop, Or.inl ⟨f, hf, hof, by omega, by omega⟩, Or.inr (Nat.le_refl _),
          hty.endLost (by omega) hend⟩

theorem meltLoop_strong (hwf : WF A₀) (hnd : (A₀.map Prod.fst).Nodup)
    (hreg : ∀ x, d.Has x → region x) (hregion : ∀ x, region x → d.start ≤ x)
    (ht : Turn A₀ d region True pre suf c prev r R) (hst : Stores s (pre ++ (r, R) :: suf) F M)
    (hfuel : suf.length < fuel) (h : Strong A₀ d c nFree j (pre ++ (r, R) :: suf))
    (hnat : s.lockImp.nFree = nFree - j)
    (hs : meltLoop fuel s { d with start := c } prev (some r) = some (s', d')) :
    ∃ A' F' c' k, d' = { d with start := c' } ∧ Stores s' A' F' M ∧ Done A₀ d region True c' A' ∧
      Strong A₀ d c' nFree k A' ∧ s'.lockImp.nFree = nFree - k ∧ F.length + j = F'.length + k ∧
      k + tailCount d c' = j + meltCount d c (eqPrev s prev d) (R :: suf.map Prod.snd) := by
  induction fuel generalizing pre suf c prev r R s F j with
  | zero => omega
  | succ fuel ih =>
    have hs' := hs
    simp only [meltLoop, Option.bind_eq_bind, Option.bind_eq_some_iff] at hs'
    obtain ⟨s₁, hs₁, s₂, hs₂, -⟩ := hs'
    obtain ⟨A₁, F₁, hst₁, hadd, hturn⟩ := meltLoop_turn ht hwf hnd hreg hst fuel hs₁ hs₂
    obtain ⟨A₁', F₁', hst₁', hty⟩ := turn_types ht hwf hnd hregion hst hs₁ hs₂
    obtain rfl : A₁ = A₁' := hst₁.rep.entries_eq.symm.trans hst₁'.rep.entries_eq
    have hstrong := h.turn ht hwf hnd hnat hty
    have hnat₁ := hadd.natives
    have hfree := hadd.free
    rcases hturn with ⟨hlast, hdone⟩ | ⟨pre₂, suf₂, r₂, R₂, hnext⟩
    · rw [hlast.eq] at hs
      cases hs
      refine ⟨A₁, F₁, _, _, rfl, hst₁, hdone, hstrong, by omega, by omega, ?_⟩
      rw [hlast.count]
      omega
    · have hentries := hnext.entries
      subst hentries
      rw [hnext.eq] at hs
      have hshort := hnext.shorter
      obtain ⟨A', F', c', k, hd', hst', hdone, hstrong', hnat', hF', hk⟩ :=
        ih hnext.turn hst₁ (by omega) hstrong (by omega) hs
      refine ⟨A', F', c', k, hd', hst', hdone, hstrong', hnat', by omega, ?_⟩
      rw [hk, hnext.count]
      omega

/-- The space behind the last lock. -/
theorem meltTail_strong (hwf : WF A₀) (hdone : Done A₀ d region True c A) (hst : Stores s A F M)
    (h : Strong A₀ d c nFree j A) (hnat : s.lockImp.nFree = nFree - j)
    (hs : meltTail s { d with start := c } = some s') :
    ∃ A' F', Stores s' A' F' M ∧ Strong A₀ d d.stop nFree (j + tailCount d c) A' ∧
      F.length = F'.length + tailCount d c := by
  unfold meltTail at hs
  unfold tailCount
  simp only at hs
  split at hs
  · rename_i hlt
    rw [if_pos hlt]
    obtain ⟨q, F', rfl, -, hst', -⟩ := hst.addNew hs
    have hfree : ∀ x t, c ≤ x → x < d.stop → ¬ LockedAs A d.tag.mandate x t := by
      rintro x t hcx hx ⟨e, he, ho, hex, -⟩
      exact hdone.rest e he ho x hcx hx hex
    have hlocked := fun x t => lockedAs_insNew (s := s) (q := q) (A := A) (x := x) (t := t)
      (D := { d with start := c }) (rfl : _ = d.tag.mandate)
    refine ⟨_, F', hst', ⟨?_, ?_⟩, rfl⟩
    · intro x t hdx hx hlock
      rcases (hlocked x t).mp hlock with hA | ⟨-, ⟨hcx, -⟩, rfl⟩
      · exact h.strong x t hdx (Nat.lt_of_not_le fun hcx => hfree x t hcx hx hA) hA
      · refine ⟨strength_self _, fun R hs => ?_⟩
        -- No own lock is behind `c`.
        exfalso
        obtain ⟨q, hq⟩ := hs.mem
        have hxR := hs.gap.lt
        have hRd := hs.lt
        have hne : R.start < R.stop := hwf.nonempty _ hq
        have hdc := hdone.le
        have hcx : c ≤ x := hcx
        rcases hdone.melted.cover R.start ⟨_, hq, hs.own, Nat.le_refl _, hne⟩ with ⟨e, he, ho, hex⟩ | ⟨-, hno⟩
        · exact hdone.rest e he ho R.start (by omega) hRd hex
        · exact hno ⟨by omega, hRd⟩
    · intro hlost
      by_cases hj : nFree < j
      · obtain ⟨x, hx, hxc, hcov⟩ := h.lost hj
        refine ⟨x, hx, Nat.lt_or_ge x d.stop, ?_⟩
        rintro ⟨e, he, hm, hex⟩
        rcases (hlocked x _).mp ⟨e, he, hm, hex, rfl⟩ with hA | ⟨-, ⟨h1, h2⟩, -⟩
        · exact hcov hA.covers
        · simp only at h1 h2
          omega
      · refine ⟨c, Or.inr ⟨hdone.le, hlt⟩, Or.inl hlt, ?_⟩
        rintro ⟨e, he, hm, hex⟩
        rcases (hlocked c _).mp ⟨e, he, hm, hex, rfl⟩ with hA | ⟨hpos, -⟩
        · exact hfree c _ (Nat.le_refl _) hlt hA
        · omega
  · rename_i hge
    cases hs
    rw [if_neg hge]
    refine ⟨A, F, hst, ⟨?_, ?_⟩, rfl⟩
    · intro x t hdx hx
      exact h.strong x t hdx (hx.trans_le (Nat.not_lt.mp hge))
    · intro hlost
      obtain ⟨x, hx, -, hcov⟩ := h.lost hlost
      exact ⟨x, hx, Nat.lt_or_ge x d.stop, hcov⟩

/-- The loop from a turn on, and the space behind the last lock. -/
theorem meltRest_strong (hwf : WF A₀) (hnd : (A₀.map Prod.fst).Nodup)
    (hreg : ∀ x, d.Has x → region x) (hregion : ∀ x, region x → d.start ≤ x)
    (ht : Turn A₀ d region True pre suf c prev r R) (hst : Stores s (pre ++ (r, R) :: suf) F M)
    (h : Strong A₀ d c nFree j (pre ++ (r, R) :: suf)) (hnat : s.lockImp.nFree = nFree - j)
    (hs : ∃ p, meltLoop (n + 1) s { d with start := c } prev (some r) = some p ∧
      meltTail p.1 p.2 = some s') :
    ∃ A' F', Stores s' A' F' M ∧
      Strong A₀ d d.stop nFree (j + meltCount d c (eqPrev s prev d) (R :: suf.map Prod.snd)) A' ∧
      F.length = F'.length + meltCount d c (eqPrev s prev d) (R :: suf.map Prod.snd) := by
  have hfuel : suf.length < n + 1 := by
    have := hst.rep.length_le
    simp only [List.length_append, List.length_cons] at this
    omega
  obtain ⟨⟨s₁, d₁⟩, hloop, htail⟩ := hs
  obtain ⟨A₁, F₁, c', k, rfl, hst₁, hdone, hstrong, hnat₁, hF₁, hk⟩ :=
    meltLoop_strong hwf hnd hreg hregion ht hst hfuel h hnat hloop
  obtain ⟨A', F', hst', hstrong', hF'⟩ := meltTail_strong hwf hdone hst₁ hstrong hnat₁ htail
  rw [hk] at hstrong'
  exact ⟨A', F', hst', hstrong', by omega⟩

/-! ## Enough records -/

theorem exists_splitLockRec (hst : Stores s A F M) (D D' : Desc) (hF : F ≠ []) :
    ∃ s', s.splitLockRec r D D' = some s' := by
  obtain ⟨p, hp⟩ := Option.ne_none_iff_exists'.mp (hst.rep.newLockRec_eq_none.not.mpr hF)
  rw [LockList.splitLockRec, hp]
  exact ⟨_, rfl⟩

theorem exists_fillGap (hst : Stores s A F M) (hr : (r, R) ∈ A)
    (hF : gapCount d c (eqPrev s prev d) R ≤ F.length) :
    ∃ s₁, fillGap s { d with start := c } prev r = some s₁ := by
  have hnew : c < R.start → isWeakerOrEqual R d = false → eqPrev s prev d = false →
      ∃ s₁, s.addNew { d with start := c, stop := R.start } = some s₁ := by
    intro hgap hweak heq
    refine exists_addNew hst _ (List.ne_nil_of_length_pos ?_)
    rw [gapCount_eq_one.mpr ⟨hgap, hweak, heq⟩] at hF
    exact hF
  unfold fillGap
  rw [hst.rep.desc _ hr]
  simp only
  split
  · rename_i hgap
    split
    · exact ⟨_, rfl⟩
    · rename_i hweak
      have hweak : isWeakerOrEqual R d = false := Bool.eq_false_iff.mpr hweak
      split
      · split
        · exact ⟨_, rfl⟩
        · rename_i heq
          exact hnew hgap hweak (Bool.eq_false_iff.mpr heq)
      · exact hnew hgap hweak rfl
  · exact ⟨_, rfl⟩

theorem exists_splitEnd (hst : Stores s A F M) (hr : (r, R) ∈ A) (hF : endCount d R ≤ F.length) :
    ∃ s₁, splitEnd s { d with start := c } r = some s₁ := by
  unfold splitEnd
  rw [hst.rep.desc _ hr]
  simp only
  split
  · rename_i hend
    refine exists_splitLockRec hst _ _ (List.ne_nil_of_length_pos ?_)
    rw [endCount_eq_one.mpr hend] at hF
    exact hF
  · exact ⟨_, rfl⟩

theorem exists_meltTail (hst : Stores s A F M) (hF : tailCount d c ≤ F.length) :
    ∃ s', meltTail s { d with start := c } = some s' := by
  unfold meltTail
  split
  · rename_i hlt
    refine exists_addNew hst _ (List.ne_nil_of_length_pos ?_)
    rw [tailCount, if_pos hlt] at hF
    exact hF
  · exact ⟨s, rfl⟩

/-- It is fatal to run out of records. -/
theorem exists_meltRest (hwf : WF A₀) (hnd : (A₀.map Prod.fst).Nodup)
    (hreg : ∀ x, d.Has x → region x) (ht : Turn A₀ d region True pre suf c prev r R)
    (hst : Stores s (pre ++ (r, R) :: suf) F M) (hfuel : suf.length < fuel)
    (hF : meltCount d c (eqPrev s prev d) (R :: suf.map Prod.snd) ≤ F.length) :
    ∃ p s', meltLoop fuel s { d with start := c } prev (some r) = some p ∧
      meltTail p.1 p.2 = some s' := by
  induction fuel generalizing pre suf c prev r R s F with
  | zero => omega
  | succ fuel ih =>
    have hcount : meltCount d c (eqPrev s prev d) (R :: suf.map Prod.snd) = _ :=
      meltCount_turn ht.own ht.overStart ht.overStop
    obtain ⟨s₁, hs₁⟩ : ∃ s₁, fillGap s { d with start := c } prev r = some s₁ :=
      exists_fillGap hst ht.mem (by omega)
    obtain ⟨pre₁, R₁, F₁, hst₁, hg, -, -, -, hadd⟩ := fillGap_spec ht hst (fun _ => trivial) hs₁
    have hend : endCount d R₁ = endCount d R := (hg.end_eq).2
    have hfree := hadd.free
    obtain ⟨s₂, hs₂⟩ := exists_splitEnd hst₁ (c := c) (d := d) (r := r) (R := R₁) (by simp)
      (by rw [hend]; omega)
    obtain ⟨A₁, F₂, hst₂, hadd₂, hturn⟩ := meltLoop_turn ht hwf hnd hreg hst fuel hs₁ hs₂
    have hfree₂ := hadd₂.free
    rcases hturn with ⟨hlast, -⟩ | ⟨pre₂, suf₂, r₂, R₂, hnext⟩
    · rw [hlast.count] at hF
      obtain ⟨s', hs'⟩ := exists_meltTail hst₂ (d := d) (c := endStop d R) (by omega)
      exact ⟨_, s', hlast.eq, hs'⟩
    · rw [hnext.count] at hF
      have hentries := hnext.entries
      subst hentries
      have hshort := hnext.shorter
      rw [hnext.eq]
      exact ih hnext.turn hst₂ (by omega) (by omega)

/-! ## The result -/

theorem le_of_max_eq {a b : LockT} (h : a.max b = a) : b ≤ a := by
  revert h
  cases a <;> cases b <;> decide

theorem strength_comm (t u : LockType) : strength t u = strength u t := by
  obtain ⟨td, ta⟩ := t
  obtain ⟨ud, ua⟩ := u
  cases td <;> cases ta <;> cases ud <;> cases ua <;> rfl

theorem strong_start (A₀ A : List (Entry Tag)) (d : Desc) (nFree : Nat) :
    Strong A₀ d d.start nFree 0 A :=
  ⟨fun _ _ h1 h2 => absurd h2 (Nat.not_lt.mpr h1), fun h => absurd h (Nat.not_lt_zero _)⟩

theorem Stretch.has (h : Stretch A₀ d R x) : d.Has x := ⟨h.gap.le, h.gap.lt.trans h.lt⟩

theorem Stretch.not_covers (h : Stretch A₀ d R x) : ¬ Covers A₀ d.tag.mandate x := by
  rintro ⟨e, he, ho, hx⟩
  exact absurd hx.2 (Nat.not_lt.mpr (h.gap.free e he ho (lt_of_le_of_lt hx.1 h.gap.lt)))

/-- A stretched lock that does not slip is not stronger than `d`. -/
theorem Stretch.strength_eq (h : Stretch A₀ d R x) (hno : ¬ Slips A₀ d) :
    strength d.tag.type R.tag.type = d.tag.type := by
  have haddr : R.tag.type.addr ≤ d.tag.type.addr := by
    by_contra hle
    exact hno ⟨R, x, h, hle⟩
  have hdata : R.tag.type.data ≤ d.tag.type.data := by
    have := h.weaker
    simp only [isWeakerOrEqual, Bool.and_eq_true, decide_eq_true_eq] at this
    exact this.1.1
  simp only [strength, LockT.max_of_le haddr, LockT.max_of_le hdata]

/-- What the locks of `d`'s mandate are, if none is lost. -/
theorem Molten.inside (hm : Molten A₀ d region False A') (hs : Strong A₀ d d.stop nFree j A')
    (hno : ¬ Slips A₀ d) {t : LockType} (hx : d.Has x) (hlock : LockedAs A' d.tag.mandate x t) :
    (∃ u, LockedAs A₀ d.tag.mandate x u ∧ t = strength u d.tag.type) ∨
      (¬ Covers A₀ d.tag.mandate x ∧ t = d.tag.type) := by
  obtain ⟨hstrong, -⟩ := hs.strong x t hx.1 hx.2 hlock
  obtain ⟨e, he, ho, hex, rfl⟩ := hlock
  rcases hm.melted.piece e he ho x hex with ⟨f, hf, hof, hfx, ht⟩ | ⟨-, hcov, ht⟩
  · refine Or.inl ⟨_, ⟨f, hf, hof, hfx, rfl⟩, ?_⟩
    rcases ht with ht | ⟨-, ht⟩
    · rw [← ht, hstrong]
    · exact ht
  · refine Or.inr ⟨hcov, ?_⟩
    rcases ht with ht | ⟨R, hR, ht⟩
    · exact ht
    · have hle := hR.strength_eq hno
      rcases ht with ht | ht
      · rw [ht, strength_comm, hle] at hstrong
        rw [ht, hstrong]
      · rw [ht, ← hle]
        exact strength_comm _ _

/-- Enough native locks, and no gap where the address type slips. -/
theorem Molten.pointwiseMax (hm : Molten A₀ d region False A')
    (hs : Strong A₀ d d.stop nFree j A') (hwf : WF A₀) (hnd : (A₀.map Prod.fst).Nodup)
    (hregion : ∀ x, ¬ d.Has x → region x → ∀ u, LockedAs A₀ d.tag.mandate x u →
      strength u d.tag.type = u) (hno : ¬ Slips A₀ d) : PointwiseMax d A₀ A' where
  foreign := hm.melted.foreign
  inside x hx t := by
    refine ⟨hm.inside hs hno hx, ?_⟩
    have hcov : Covers A' d.tag.mandate x := (hm.filled x hx).resolve_right id
    obtain ⟨e, he, ho, hex⟩ := hcov
    have hlock : LockedAs A' d.tag.mandate x e.2.tag.type := ⟨e, he, ho, hex, rfl⟩
    rcases hm.inside hs hno hx hlock with ⟨u, hu, heq⟩ | ⟨hfree, heq⟩
    · rintro (⟨u', hu', rfl⟩ | ⟨hfree, -⟩)
      · obtain ⟨f, hf, hof, hfx, rfl⟩ := hu
        rw [← hof, hwf.covers_iff hnd hf hfx] at hu'
        rwa [hu', ← heq]
      · exact absurd hu.covers hfree
    · rintro (⟨u', hu', -⟩ | ⟨-, rfl⟩)
      · exact absurd hu'.covers hfree
      · rwa [← heq]
  outside x hx t := by
    have hpiece : ∀ t, LockedAs A' d.tag.mandate x t → LockedAs A₀ d.tag.mandate x t := by
      rintro t ⟨e, he, ho, hex, rfl⟩
      rcases hm.melted.piece e he ho x hex with ⟨f, hf, hof, hfx, ht⟩ | ⟨hd, -⟩
      · have hlock : LockedAs A₀ d.tag.mandate x f.2.tag.type := ⟨f, hf, hof, hfx, rfl⟩
        rcases ht with ht | ⟨hreg, ht⟩
        · rwa [ht]
        · rw [ht, show (strongest f.2.tag d.tag).type = strength f.2.tag.type d.tag.type from rfl,
            hregion x hx hreg _ hlock]
          exact hlock
      · exact absurd hd hx
    refine ⟨hpiece t, ?_⟩
    rintro ⟨f, hf, hof, hfx, rfl⟩
    rcases hm.melted.cover x ⟨f, hf, hof, hfx⟩ with ⟨e, he, ho, hex⟩ | ⟨hlost, -⟩
    · have hlock := hpiece _ ⟨e, he, ho, hex, rfl⟩
      rw [← hof, hwf.covers_iff hnd hf hfx] at hlock
      exact ⟨e, he, ho, hex, hlock⟩
    · exact hlost.elim

theorem PointwiseMax.covers (h : PointwiseMax d A₀ A') (hx : Covers A₀ d.tag.mandate x ∨ d.Has x) :
    Covers A' d.tag.mandate x := by
  by_cases hd : d.Has x
  · by_cases hcov : Covers A₀ d.tag.mandate x
    · obtain ⟨e, he, ho, hex⟩ := hcov
      exact ((h.inside x hd _).mpr (Or.inl ⟨_, ⟨e, he, ho, hex, rfl⟩, rfl⟩)).covers
    · exact ((h.inside x hd _).mpr (Or.inr ⟨hcov, rfl⟩)).covers
  · obtain ⟨e, he, ho, hex⟩ := hx.resolve_right hd
    exact ((h.outside x hd _).mpr ⟨e, he, ho, hex, rfl⟩).covers

theorem Strong.enough (hs : Strong A₀ d d.stop nFree j A') (h : PointwiseMax d A₀ A') :
    j ≤ nFree := by
  refine Nat.le_of_not_lt fun hlt => ?_
  obtain ⟨x, hx, -, hcov⟩ := hs.lost hlt
  exact hcov (h.covers hx)

theorem Strong.not_slips (hs : Strong A₀ d d.stop nFree j A') (h : PointwiseMax d A₀ A') :
    ¬ Slips A₀ d := by
  rintro ⟨R, x, hR, hle⟩
  have hx := hR.has
  have hlock : LockedAs A' d.tag.mandate x d.tag.type :=
    (h.inside x hx _).mpr (Or.inr ⟨hR.not_covers, rfl⟩)
  obtain ⟨-, hst⟩ := hs.strong x _ hx.1 hx.2 hlock
  exact hle (le_of_max_eq (congrArg LockType.addr (hst R hR)))

/-! ## One record -/

/-- The list has one lock. -/
def oneLock (n : Nat) (D : Desc) : Option (LockList Tag n) := (LockList.init n fun _ => D).addNew D

theorem oneLock_spec (hn : 2 < n) {D : Desc} (hD : D.start < D.stop) : ∃ s r F, oneLock n D = some s ∧
    Stores s [(r, D)] F ∅ ∧ WF [(r, D)] ∧ 1 < F.length ∧ 1 < s.lockImp.nFree := by
  have hst : Stores (LockList.init n fun _ => D) [] (List.range n) ∅ := stores_init _
  obtain ⟨s, hs⟩ := exists_addNew hst D
    (List.ne_nil_of_length_pos (by rw [List.length_range]; omega))
  obtain ⟨r, F, hF, -, hst', hnat⟩ := hst.addNew hs
  have hfree : (LockList.init n fun _ => D).lockImp.nFree = nNativeLocks := LockNative.nFree_init
  rw [hfree] at hnat
  have hlen := congrArg List.length hF
  rw [List.length_range, List.length_cons] at hlen
  refine ⟨s, r, F, hs, ?_, ⟨List.pairwise_singleton _ _, by simpa using hD, by simp⟩, by omega, ?_⟩
  · rw [insNew, hfree, if_neg (by decide)] at hst'
    exact hst'
  · rw [hnat]
    decide

end Athomux.LockMelt
