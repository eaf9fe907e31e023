import Athomux.LockMelt.First
import Athomux.LockMelt.Removal

/-! # What melting makes of each address -/

open Lib Athomux.LockList

namespace Athomux.LockMelt

variable {n : Nat} {A₀ A A₁ A' : List (Entry Tag)} {d : Desc} {region : Nat → Prop}
  {pre suf : List (Entry Tag)} {c r q m x : Nat} {prev : Option Nat} {R R₁ D : Desc}
  {s s₁ s₂ s' : LockList Tag n} {F F' : List Nat} {M : Finset Nat} {t : LockType}

/-! ## Pointwise maximum -/

/-- The componentwise maximum. -/
def strength (t u : LockType) : LockType := ⟨t.data.max u.data, t.addr.max u.addr⟩

/-- In the range of `d` the own types are the former ones or none, together with the type of `d`. The
rest is as before. -/
structure PointwiseMax (d : Desc) (A A' : List (Entry Tag)) : Prop where
  inside : ∀ x, d.Has x → ∀ t, LockedAs A' d.tag.mandate x t ↔
    (∃ u, LockedAs A d.tag.mandate x u ∧ t = strength u d.tag.type) ∨
      (¬ Covers A d.tag.mandate x ∧ t = d.tag.type)
  outside : ∀ x, ¬ d.Has x → ∀ t,
    LockedAs A' d.tag.mandate x t ↔ LockedAs A d.tag.mandate x t
  foreign : ∀ e, ¬ Own d e → (e ∈ A' ↔ e ∈ A)

/-- A gap is filled by an own lock with a stronger address type. -/
def Slips (A : List (Entry Tag)) (d : Desc) : Prop :=
  ∃ R x, Stretch A d R x ∧ ¬ R.tag.type.addr ≤ d.tag.type.addr

/-! ## Entries -/

theorem lockedAs_of_mem (hnd : (A.map Prod.fst).Nodup) (hr : (r, R) ∈ A) (ho : R.tag.mandate = m) :
    LockedAs A m x t ↔ LockedAs (del r A) m x t ∨ (R.Has x ∧ t = R.tag.type) := by
  constructor
  · rintro ⟨e, he, hm, hx, rfl⟩
    by_cases her : e.1 = r
    · obtain rfl : e = (r, R) := List.inj_on_of_nodup_map hnd he hr her
      exact Or.inr ⟨hx, rfl⟩
    · exact Or.inl ⟨e, mem_del.mpr ⟨he, her⟩, hm, hx, rfl⟩
  · rintro (⟨e, he, hm, hx, rfl⟩ | ⟨hx, rfl⟩)
    · exact ⟨e, (mem_del.mp he).1, hm, hx, rfl⟩
    · exact ⟨_, hr, ho, hx, rfl⟩

theorem lockedAs_upd (hr : r ∈ A.map Prod.fst) (ho : D.tag.mandate = m) :
    LockedAs (upd r D A) m x t ↔ LockedAs (del r A) m x t ∨ (D.Has x ∧ t = D.tag.type) := by
  constructor
  · rintro ⟨e, he, hm, hx, rfl⟩
    rcases mem_upd.mp he with he | ⟨rfl, -⟩
    · exact Or.inl ⟨e, mem_del.mpr he, hm, hx, rfl⟩
    · exact Or.inr ⟨hx, rfl⟩
  · rintro (⟨e, he, hm, hx, rfl⟩ | ⟨hx, rfl⟩)
    · exact ⟨e, mem_upd.mpr (Or.inl (mem_del.mp he)), hm, hx, rfl⟩
    · exact ⟨_, mem_upd.mpr (Or.inr ⟨rfl, hr⟩), ho, hx, rfl⟩

theorem mem_insNew_iff {e : Entry Tag} :
    e ∈ insNew s q D A ↔ e ∈ A ∨ (0 < s.lockImp.nFree ∧ e = (q, D)) := by
  unfold insNew
  split
  · rename_i hzero
    rw [hzero]
    simp
  · rename_i hpos
    rw [mem_ins]
    have := Nat.pos_of_ne_zero hpos
    tauto

theorem lockedAs_insNew (ho : D.tag.mandate = m) :
    LockedAs (insNew s q D A) m x t ↔
      LockedAs A m x t ∨ (0 < s.lockImp.nFree ∧ D.Has x ∧ t = D.tag.type) := by
  constructor
  · rintro ⟨e, he, hm, hx, rfl⟩
    rcases mem_insNew_iff.mp he with he | ⟨hpos, rfl⟩
    · exact Or.inl ⟨e, he, hm, hx, rfl⟩
    · exact Or.inr ⟨hpos, hx, rfl⟩
  · rintro (⟨e, he, hm, hx, rfl⟩ | ⟨hpos, hx, rfl⟩)
    · exact ⟨e, mem_insNew_iff.mpr (Or.inl he), hm, hx, rfl⟩
    · exact ⟨_, mem_insNew_iff.mpr (Or.inr ⟨hpos, rfl⟩), ho, hx, rfl⟩

/-! ## The gap -/

/-- Of which type the gap before `R` becomes, if it is filled. -/
def GapFill (s : LockList Tag n) (d : Desc) (prev : Option Nat) (R : Desc) (t : LockType) : Prop :=
  (isWeakerOrEqual R d = true ∧ t = R.tag.type) ∨
    (isWeakerOrEqual R d = false ∧ t = d.tag.type ∧ (eqPrev s prev d = true ∨ 0 < s.lockImp.nFree))

/-- The own lock before ends where the gap starts. -/
def PrevAt (A : List (Entry Tag)) (d : Desc) (c : Nat) (prev : Option Nat) : Prop :=
  ∀ p, prev = some p → ∃ P, (p, P) ∈ A ∧ P.tag.mandate = d.tag.mandate ∧ P.stop = c ∧ P.start ≤ c

theorem fillGap_exact (hst : Stores s A F M) (hr : (r, R) ∈ A) (ho : R.tag.mandate = d.tag.mandate)
    (hne : R.start ≤ R.stop) (hprev : PrevAt A d c prev)
    (hs : fillGap s { d with start := c } prev r = some s₁) :
    ∃ A₁ F₁, Stores s₁ A₁ F₁ M ∧ ∀ x t, LockedAs A₁ d.tag.mandate x t ↔
      LockedAs A d.tag.mandate x t ∨ (c ≤ x ∧ x < R.start ∧ GapFill s d prev R t) := by
  have hnd := hst.rep.fst_nodup
  unfold fillGap at hs
  rw [hst.rep.desc _ hr] at hs
  simp only at hs
  split at hs
  · rename_i hgap
    split at hs
    · -- `R` is stretched.
      rename_i hweak
      have hweak : isWeakerOrEqual R d = true := hweak
      cases hs
      refine ⟨_, F, hst.setLockDesc r { R with start := c }, fun x t => ?_⟩
      rw [lockedAs_upd (D := { R with start := c }) (List.mem_map_of_mem (f := Prod.fst) hr) ho,
        lockedAs_of_mem hnd hr ho, or_assoc]
      refine or_congr_right ⟨?_, ?_⟩
      · rintro ⟨⟨h1, h2⟩, rfl⟩
        rcases Nat.lt_or_ge x R.start with hlt | hge
        · exact Or.inr ⟨h1, hlt, Or.inl ⟨hweak, rfl⟩⟩
        · exact Or.inl ⟨⟨hge, h2⟩, rfl⟩
      · rintro (⟨⟨h1, h2⟩, rfl⟩ | ⟨h1, h2, hfill⟩)
        · exact ⟨⟨hgap.le.trans h1, h2⟩, rfl⟩
        · rcases hfill with ⟨-, rfl⟩ | ⟨hno, -⟩
          · exact ⟨⟨h1, h2.trans_le hne⟩, rfl⟩
          · rw [hweak] at hno
            cases hno
    · rename_i hweak
      have hweak : isWeakerOrEqual R d = false := Bool.eq_false_iff.mpr hweak
      have hnew : eqPrev s prev d = false →
          s.addNew { d with start := c, stop := R.start } = some s₁ →
          ∃ A₁ F₁, Stores s₁ A₁ F₁ M ∧ ∀ x t, LockedAs A₁ d.tag.mandate x t ↔
            LockedAs A d.tag.mandate x t ∨ (c ≤ x ∧ x < R.start ∧ GapFill s d prev R t) := by
        intro heq hs
        obtain ⟨q, F', -, -, hst', -⟩ := hst.addNew hs
        refine ⟨_, F', hst', fun x t => ?_⟩
        rw [lockedAs_insNew (D := { d with start := c, stop := R.start }) rfl]
        refine or_congr_right ⟨?_, ?_⟩
        · rintro ⟨hpos, ⟨h1, h2⟩, rfl⟩
          exact ⟨h1, h2, Or.inr ⟨hweak, rfl, Or.inr hpos⟩⟩
        · rintro ⟨h1, h2, ⟨hw, -⟩ | ⟨-, rfl, hpos⟩⟩
          · rw [hweak] at hw
            cases hw
          · rw [heq] at hpos
            exact ⟨hpos.resolve_left Bool.false_ne_true, ⟨h1, h2⟩, rfl⟩
      split at hs
      · rename_i p
        split at hs
        · -- The lock before is stretched.
          rename_i heq
          cases hs
          obtain ⟨P, hP, hPo, hPstop, hPle⟩ := hprev p rfl
          have hPd : s.desc p = P := hst.rep.desc (p, P) hP
          rw [hPd] at heq ⊢
          have heqP : eqPrev s (some p) d = true := by
            rw [eqPrev, hPd]
            exact heq
          have htype : P.tag.type = d.tag.type := by
            simpa [isEquallyStrong] using heq
          refine ⟨_, F, hst.setLockDesc p { P with stop := R.start }, fun x t => ?_⟩
          rw [lockedAs_upd (D := { P with stop := R.start }) (List.mem_map_of_mem (f := Prod.fst) hP)
            hPo, lockedAs_of_mem hnd hP hPo, or_assoc]
          refine or_congr_right ⟨?_, ?_⟩
          · rintro ⟨⟨h1, h2⟩, rfl⟩
            rcases Nat.lt_or_ge x c with hlt | hge
            · exact Or.inl ⟨⟨h1, hPstop ▸ hlt⟩, rfl⟩
            · exact Or.inr ⟨hge, h2, Or.inr ⟨hweak, htype, Or.inl heqP⟩⟩
          · rintro (⟨⟨h1, h2⟩, rfl⟩ | ⟨h1, h2, hfill⟩)
            · exact ⟨⟨h1, (hPstop ▸ h2).trans hgap⟩, rfl⟩
            · rcases hfill with ⟨hw, -⟩ | ⟨-, rfl, -⟩
              · rw [hweak] at hw
                cases hw
              · exact ⟨⟨hPle.trans h1, h2⟩, htype.symm⟩
        · rename_i heq
          exact hnew (Bool.eq_false_iff.mpr heq) hs
      · exact hnew rfl hs
  · rename_i hgap
    cases hs
    refine ⟨A, F, hst, fun x t => ⟨Or.inl, ?_⟩⟩
    rintro (h | ⟨h1, h2, -⟩)
    · exact h
    · exact absurd (lt_of_le_of_lt h1 h2) hgap

/-! ## The lock itself -/

/-- `R₁` becomes as strong as `d` up to its end or that of `d`. -/
theorem strengthen_exact (hst : Stores s A F M) (hr : (r, R) ∈ A)
    (ho : R.tag.mandate = d.tag.mandate)
    (hapart : ∀ e ∈ A, e.1 ≠ r → Own d e → ¬ R.Overlaps e.2)
    (hs : splitEnd s { d with start := c } r = some s₂) :
    ∃ A' F', Stores (setStrongest s₂ r { d with start := c }) A' F' M ∧
      ∀ x t, LockedAs A' d.tag.mandate x t ↔
        (¬ R.Has x ∧ LockedAs A d.tag.mandate x t) ∨
        (R.start ≤ x ∧ x < endStop d R ∧ t = strength R.tag.type d.tag.type) ∨
        (endCount d R = 1 ∧ 0 < s.lockImp.nFree ∧ d.stop ≤ x ∧ x < R.stop ∧ t = R.tag.type) := by
  have hnd := hst.rep.fst_nodup
  have hfst := List.mem_map_of_mem (f := Prod.fst) hr
  have hothers : ∀ x t, LockedAs (del r A) d.tag.mandate x t ↔
      ¬ R.Has x ∧ LockedAs A d.tag.mandate x t := by
    intro x t
    rw [lockedAs_of_mem hnd hr ho]
    constructor
    · rintro ⟨e, he, hm, hx, rfl⟩
      refine ⟨fun hRx => ?_, Or.inl ⟨e, he, hm, hx, rfl⟩⟩
      obtain ⟨heA, hne⟩ := mem_del.mp he
      exact hapart e heA hne hm ⟨lt_of_le_of_lt hRx.1 hx.2, lt_of_le_of_lt hx.1 hRx.2⟩
    · rintro ⟨hno, h | ⟨hx, -⟩⟩
      · exact h
      · exact absurd hx hno
  unfold splitEnd at hs
  rw [hst.rep.desc _ hr] at hs
  simp only at hs
  split at hs
  · rename_i hend
    have hend' : d.stop < R.stop ∧ (!isStrongerOrEqual R d) = true := hend
    have hstop : endStop d R = d.stop := if_pos hend'
    have hcount : endCount d R = 1 := if_pos hend'
    obtain ⟨q, F', rfl, hq, hst₂, -⟩ := hst.splitLockRec hfst hs
    set kept : Desc := { R with stop := d.stop } with hkept
    set rest : Desc := { R with start := d.stop } with hrest
    set B := insNew s q rest (ins (r, kept) (del r A)) with hB
    have hkB : (r, kept) ∈ B := mem_insNew_of_mem (mem_ins.mpr (Or.inl rfl))
    have hset : setStrongest s₂ r { d with start := c } =
        s₂.setLockDesc r { kept with tag := strongest R.tag d.tag } := by
      rw [setStrongest, hst₂.rep.desc _ hkB]
    have hqr : q ≠ r := fun heq => hq (heq ▸ hfst)
    have hBmem : ∀ e, e ∈ B ↔ e = (r, kept) ∨ e ∈ del r A ∨ (0 < s.lockImp.nFree ∧ e = (q, rest)) := by
      intro e
      rw [hB, mem_insNew_iff, mem_ins, or_assoc]
    rw [hset, hstop, hcount]
    refine ⟨_, F', hst₂.setLockDesc r _, fun x t => ?_⟩
    rw [lockedAs_upd (D := { kept with tag := strongest R.tag d.tag })
      (List.mem_map_of_mem (f := Prod.fst) hkB) ho, ← hothers]
    constructor
    · rintro (⟨e, he, hm, hx, rfl⟩ | ⟨⟨h1, h2⟩, rfl⟩)
      · obtain ⟨heB, hne⟩ := mem_del.mp he
        rcases (hBmem e).mp heB with rfl | heA | ⟨hpos, rfl⟩
        · exact absurd rfl hne
        · exact Or.inl ⟨e, heA, hm, hx, rfl⟩
        · exact Or.inr (Or.inr ⟨rfl, hpos, hx.1, hx.2, rfl⟩)
      · exact Or.inr (Or.inl ⟨h1, h2, rfl⟩)
    · rintro (⟨e, he, hm, hx, rfl⟩ | ⟨h1, h2, rfl⟩ | ⟨-, hpos, h1, h2, rfl⟩)
      · exact Or.inl ⟨e, mem_del.mpr ⟨(hBmem e).mpr (Or.inr (Or.inl he)), (mem_del.mp he).2⟩, hm, hx, rfl⟩
      · exact Or.inr ⟨⟨h1, h2⟩, rfl⟩
      · exact Or.inl ⟨_, mem_del.mpr ⟨(hBmem _).mpr (Or.inr (Or.inr ⟨hpos, rfl⟩)), hqr⟩, ho, ⟨h1, h2⟩, rfl⟩
  · rename_i hkeep
    have hkeep' : ¬ (d.stop < R.stop ∧ (!isStrongerOrEqual R d) = true) := hkeep
    cases hs
    have hset : setStrongest s r { d with start := c } =
        s.setLockDesc r { R with tag := strongest R.tag d.tag } := by
      rw [setStrongest, hst.rep.desc _ hr]
    rw [hset, endStop, if_neg hkeep', endCount, if_neg hkeep']
    refine ⟨_, F, hst.setLockDesc r _, fun x t => ?_⟩
    rw [lockedAs_upd (D := { R with tag := strongest R.tag d.tag }) hfst ho, hothers]
    refine or_congr_right ⟨?_, ?_⟩
    · rintro ⟨⟨h1, h2⟩, rfl⟩
      exact Or.inl ⟨h1, h2, rfl⟩
    · rintro (⟨h1, h2, rfl⟩ | ⟨h0, -⟩)
      · exact ⟨⟨h1, h2⟩, rfl⟩
      · exact absurd h0 Nat.zero_ne_one

/-! ## A turn -/

theorem strength_left (t u : LockType) : strength (strength t u) t = strength t u := by
  obtain ⟨td, ta⟩ := t
  obtain ⟨ud, ua⟩ := u
  cases td <;> cases ta <;> cases ud <;> cases ua <;> rfl

theorem strength_right (t u : LockType) : strength (strength t u) u = strength t u := by
  obtain ⟨td, ta⟩ := t
  obtain ⟨ud, ua⟩ := u
  cases td <;> cases ta <;> cases ud <;> cases ua <;> rfl

theorem strength_self (t : LockType) : strength t t = t := by
  obtain ⟨td, ta⟩ := t
  cases td <;> cases ta <;> rfl

theorem endStop_le : endStop d R ≤ R.stop := by
  unfold endStop
  split
  · rename_i h
    exact h.1.le
  · exact Nat.le_refl _

theorem endCount_eq_one : endCount d R = 1 ↔ d.stop < R.stop ∧ (!isStrongerOrEqual R d) = true := by
  unfold endCount
  split
  · exact iff_of_true rfl ‹_›
  · exact iff_of_false Nat.zero_ne_one ‹_›

theorem gapCount_le_one (d : Desc) (c : Nat) (b : Bool) (R : Desc) : gapCount d c b R ≤ 1 := by
  unfold gapCount
  split
  · exact Nat.le_refl _
  · exact Nat.zero_le _

theorem gapCount_eq_one {b : Bool} : gapCount d c b R = 1 ↔
    c < R.start ∧ isWeakerOrEqual R d = false ∧ b = false := by
  unfold gapCount
  split
  · rename_i h
    exact iff_of_true rfl (by simpa using h)
  · rename_i h
    exact iff_of_false Nat.zero_ne_one (by simpa using h)

/-- The types that a turn leaves behind. -/
structure TurnTypes (s : LockList Tag n) (A : List (Entry Tag)) (d : Desc) (c : Nat)
    (prev : Option Nat) (R : Desc) (A' : List (Entry Tag)) : Prop where
  strong : ∀ x t, c ≤ x → x < endStop d R → LockedAs A' d.tag.mandate x t →
    strength t d.tag.type = t ∧
      (x < R.start → isWeakerOrEqual R d = true → strength t R.tag.type = t)
  rest : ∀ x t, x < c ∨ d.stop ≤ x → LockedAs A' d.tag.mandate x t → LockedAs A d.tag.mandate x t
  gapLost : s.lockImp.nFree < gapCount d c (eqPrev s prev d) R → ¬ Covers A' d.tag.mandate c
  endLost : s.lockImp.nFree < gapCount d c (eqPrev s prev d) R + endCount d R →
    endCount d R = 1 → ¬ Covers A' d.tag.mandate d.stop

theorem Turn.prevAt (ht : Turn A₀ d region True pre suf c prev r R) :
    PrevAt (pre ++ (r, R) :: suf) d c prev := by
  intro p hp
  obtain ⟨P, hP, ho, hstop⟩ := ht.prev p hp
  have hPA : (p, P) ∈ pre ++ (r, R) :: suf := List.mem_append_left _ hP
  exact ⟨P, hPA, ho, hstop, hstop ▸ (ht.melted.nonempty _ hPA ho).le⟩

/-- A lock that starts before its turn does is not strengthened. -/
theorem Turn.stronger_of_lt (ht : Turn A₀ d region True pre suf c prev r R) (hwf : WF A₀)
    (hnd : (A₀.map Prod.fst).Nodup) (hregion : ∀ x, region x → d.start ≤ x) (hlt : R.start < c) :
    isStrongerOrEqual R d = true := by
  have hc : c = d.start := by
    refine ht.last.resolve_right ?_
    rintro ⟨e, he, ho, hstop, hestart⟩
    obtain ⟨f, hf, hof, hfstop, hfstart⟩ := ht.entry
    have hover := ht.overStop
    have hne : e.1 ≠ f.1 := by
      intro heq
      rw [List.inj_on_of_nodup_map hnd he hf heq] at hstop
      omega
    exact hwf.disjoint e he f hf hne (ho.trans hof.symm) ⟨by omega, by omega⟩
  rcases ht.region R.start ⟨Nat.le_refl _, ht.nonempty⟩ ht.overStart with hr | hs
  · have := hregion _ hr
    omega
  · exact hs

theorem Gapped.end_eq {lost : Prop} {R₁ : Desc} (hg : Gapped A₀ d region lost pre suf c r R R₁) :
    endStop d R₁ = endStop d R ∧ endCount d R₁ = endCount d R := by
  obtain ⟨htag, hstop, -⟩ := hg.tag
  have hstrong : isStrongerOrEqual R₁ d = isStrongerOrEqual R d := by
    simp only [isStrongerOrEqual, htag]
  rw [endStop, endStop, endCount, endCount, hstop, hstrong]
  exact ⟨rfl, rfl⟩

/-- The gap and the lock. -/
theorem turn_locked (ht : Turn A₀ d region True pre suf c prev r R)
    (hst : Stores s (pre ++ (r, R) :: suf) F M)
    (hs₁ : fillGap s { d with start := c } prev r = some s₁)
    (hs₂ : splitEnd s₁ { d with start := c } r = some s₂) :
    ∃ R₁ A' F', Stores (setStrongest s₂ r { d with start := c }) A' F' M ∧
      (R₁ = R ∨ R₁ = { R with start := c } ∧ c < R.start ∧ isWeakerOrEqual R d = true) ∧
      (c < R.start → isWeakerOrEqual R d = true → R₁.start = c) ∧
      ∀ x t, LockedAs A' d.tag.mandate x t ↔
        (¬ R₁.Has x ∧ (LockedAs (pre ++ (r, R) :: suf) d.tag.mandate x t ∨
          (c ≤ x ∧ x < R.start ∧ GapFill s d prev R t))) ∨
        (R₁.start ≤ x ∧ x < endStop d R ∧ t = strength R.tag.type d.tag.type) ∨
        (endCount d R = 1 ∧ gapCount d c (eqPrev s prev d) R < s.lockImp.nFree ∧ d.stop ≤ x ∧
          x < R.stop ∧ t = R.tag.type) := by
  obtain ⟨A₁, F₁, hst₁, hA₁⟩ := fillGap_exact hst ht.mem ht.own ht.nonempty.le ht.prevAt hs₁
  obtain ⟨pre₁, R₁, F₁', hst₁', hg, -, -, hdown, hadd⟩ := fillGap_spec ht hst (fun _ => trivial) hs₁
  obtain rfl : A₁ = pre₁ ++ (r, R₁) :: suf := hst₁.rep.entries_eq.symm.trans hst₁'.rep.entries_eq
  obtain ⟨htag, hstop, -⟩ := hg.tag
  have hnat := hadd.natives
  have hapart : ∀ e ∈ pre₁ ++ (r, R₁) :: suf, e.1 ≠ r → Own d e → ¬ R₁.Overlaps e.2 := by
    intro e he hne ho
    have hnd := hst₁.rep.fst_nodup
    refine hg.apart ht (by simpa using hnd) ((mem_others hnd).mpr ⟨he, hne⟩) ho
  obtain ⟨A', F', hst', hA'⟩ := strengthen_exact hst₁ (by simp) (by rw [htag]; exact ht.own) hapart hs₂
  refine ⟨R₁, A', F', hst', ?_, hdown, fun x t => ?_⟩
  · exact hg.shape.imp_right fun h => ⟨h.1, h.2.1, h.2.2.1⟩
  · have hpos : 0 < s₁.lockImp.nFree ↔ gapCount d c (eqPrev s prev d) R < s.lockImp.nFree := by
      omega
    rw [hA', hA₁, hg.end_eq.1, hg.end_eq.2, hstop, htag, hpos]

theorem turn_types (ht : Turn A₀ d region True pre suf c prev r R) (hwf : WF A₀)
    (hnd : (A₀.map Prod.fst).Nodup) (hregion : ∀ x, region x → d.start ≤ x)
    (hst : Stores s (pre ++ (r, R) :: suf) F M)
    (hs₁ : fillGap s { d with start := c } prev r = some s₁)
    (hs₂ : splitEnd s₁ { d with start := c } r = some s₂) :
    ∃ A' F', Stores (setStrongest s₂ r { d with start := c }) A' F' M ∧
      TurnTypes s (pre ++ (r, R) :: suf) d c prev R A' := by
  obtain ⟨R₁, A', F', hst', hR₁, hdown, hA'⟩ := turn_locked ht hst hs₁ hs₂
  have hcR := ht.overStop
  have hRd := ht.overStart
  have hstart : R₁.start ≤ R.start ∧ R₁.stop = R.stop := by
    rcases hR₁ with rfl | ⟨rfl, hlt, -⟩
    · exact ⟨Nat.le_refl _, rfl⟩
    · exact ⟨hlt.le, rfl⟩
  have hle := endStop_le (d := d) (R := R)
  refine ⟨A', F', hst', ?_, ?_, ?_, ?_⟩
  · intro x t hcx hx hlock
    rcases (hA' x t).mp hlock with ⟨hno, hA | ⟨-, hgap, hfill⟩⟩ | ⟨hge, -, rfl⟩ | ⟨hend, -, hdx, -⟩
    · rcases Nat.lt_or_ge x R.start with hlt | hge
      · exact absurd hA.covers (ht.gap_free hcx hlt)
      · exact absurd ⟨hstart.1.trans hge, by omega⟩ hno
    · rcases hfill with ⟨hweak, rfl⟩ | ⟨hweak, rfl, -⟩
      · have := hdown (by omega) hweak
        exact absurd ⟨by omega, by omega⟩ hno
      · refine ⟨strength_self _, fun _ h => ?_⟩
        rw [hweak] at h
        cases h
    · exact ⟨strength_right _ _, fun _ _ => strength_left _ _⟩
    · rw [endStop, if_pos] at hx
      · omega
      · exact endCount_eq_one.mp hend
  · intro x t hx hlock
    have hR : R.Has x → LockedAs (pre ++ (r, R) :: suf) d.tag.mandate x R.tag.type := fun h =>
      ⟨_, ht.mem, ht.own, h, rfl⟩
    rcases (hA' x t).mp hlock with ⟨-, hA | ⟨hcx, hgap, -⟩⟩ | ⟨hge, hlt, rfl⟩ | ⟨-, -, hdx, hxR, rfl⟩
    · exact hA
    · omega
    · have hstrong : isStrongerOrEqual R d = true := by
        rcases hx with hx | hx
        · rcases hR₁ with rfl | ⟨rfl, -⟩
          · exact ht.stronger_of_lt hwf hnd hregion (lt_of_le_of_lt hge hx)
          · exact absurd hx (Nat.not_lt.mpr hge)
        · by_contra hno
          have hdR : d.stop < R.stop := by omega
          rw [endStop, if_pos ⟨hdR, by simpa using hno⟩] at hlt
          omega
      have hstrength : strength R.tag.type d.tag.type = R.tag.type := strongest_of_stronger hstrong
      rw [hstrength]
      refine hR ⟨?_, hlt.trans_le hle⟩
      rcases hx with hx | hx
      · rcases hR₁ with rfl | ⟨rfl, -⟩
        · exact hge
        · exact absurd hx (Nat.not_lt.mpr hge)
      · exact hRd.le.trans hx
    · exact hR ⟨hRd.le.trans hdx, hxR⟩
  · rintro hlost ⟨e, he, hm, hx⟩
    obtain ⟨hlt, hweak, heq⟩ := gapCount_eq_one.mp
      (le_antisymm (gapCount_le_one d c _ R) (Nat.one_le_of_lt hlost))
    rcases (hA' c _).mp ⟨e, he, hm, hx, rfl⟩ with ⟨-, hA | ⟨-, -, hfill⟩⟩ | ⟨hge, -⟩ | ⟨-, -, hdx, -⟩
    · exact ht.gap_free (Nat.le_refl _) hlt hA.covers
    · have := gapCount_le_one d c (eqPrev s prev d) R
      rcases hfill with ⟨h, -⟩ | ⟨-, -, h | h⟩
      · exact Bool.false_ne_true (hweak.symm.trans h)
      · exact Bool.false_ne_true (heq.symm.trans h)
      · omega
    · rcases hR₁ with rfl | ⟨-, -, h⟩
      · omega
      · exact Bool.false_ne_true (hweak.symm.trans h)
    · have := ht.lt
      omega
  · rintro hlost hend ⟨e, he, hm, hx⟩
    have hcond := endCount_eq_one.mp hend
    rcases (hA' d.stop _).mp ⟨e, he, hm, hx, rfl⟩ with ⟨hno, -⟩ | ⟨-, hlt, -⟩ | ⟨-, hpos, -⟩
    · exact hno ⟨by omega, by have := hcond.1; omega⟩
    · rw [endStop, if_pos hcond] at hlt
      exact lt_irrefl _ hlt
    · omega

end Athomux.LockMelt
