import Athomux.LockMand.Spec
import Athomux.LockMelt.First

/-! # `melt_lock_into_list` of `#lock_mand` -/

open Lib Athomux.LockList

namespace Athomux.LockMand

open LockMelt

variable {A₀ A : List (Entry Tag)} {d : Desc} {region : Nat → Prop} {lost : Prop}
  {X pre suf suf₁ suf₂ : List (Entry Tag)} {c r : Nat} {prev : Option Nat} {R R₃ : Desc}
  {s s₁ s' : LockRecs} {F : List Nat} {M : Finset Nat}

/-! ## The first lock -/

/-- The first lock as it is behind its split. -/
def upgraded (d R : Desc) : Desc := { R with tag := strongest R.tag d.tag }

theorem upgraded_of_stronger (h : isStrongerOrEqual R d = true) : upgraded d R = R := by
  obtain ⟨start, stop, ⟨mandate, ⟨data, addr⟩, obligatory⟩⟩ := R
  simp only [isStrongerOrEqual, Bool.and_eq_true, decide_eq_true_eq, Bool.or_eq_true,
    Bool.not_eq_true'] at h
  obtain ⟨⟨hdata, haddr⟩, hobl⟩ := h
  simp only [upgraded, strongest, LockT.max_of_le hdata, LockT.max_of_le haddr]
  rcases hobl with hobl | hobl <;> simp [hobl]

/-- The lock `r` is strengthened over all of its range. -/
theorem melted_upgraded (ht : Turn A₀ d region lost pre suf c prev r R)
    (hnd : ((pre ++ (r, R) :: suf).map Prod.fst).Nodup)
    (hreg : ∀ x, R.Has x → region x ∨ isStrongerOrEqual R d = true) :
    Melted A₀ d region lost (pre ++ (r, upgraded d R) :: suf) := by
  have hrA := ht.mem
  have huniq : ∀ e ∈ pre ++ (r, R) :: suf, e.1 = r → e = (r, R) := fun e he her =>
    List.inj_on_of_nodup_map hnd he hrA her
  have hedit : Edit d (pre ++ (r, R) :: suf) (pre ++ (r, upgraded d R) :: suf) r
      [(r, upgraded d R)] := by
    refine ⟨?_, ?_, by simpa [Own, upgraded, strongest] using ht.own, by simpa [upgraded] using ht.nonempty,
      by simp, ?_⟩
    · intro e
      rw [← mem_others hnd]
      simp only [List.mem_append, List.mem_cons, List.not_mem_nil, or_false]
      tauto
    · intro e he her
      rw [huniq e he her]
      exact ht.own
    · simp only [List.mem_singleton, forall_eq]
      intro f hf hof hfr
      exact ht.melted.disjoint (r, R) hrA f hf ht.own hof (Ne.symm hfr)
  refine ht.melted.edit hedit ?_ ?_
  · simp only [List.mem_singleton, forall_eq]
    intro x hx
    refine Or.inl ⟨R, hrA, hx, ?_⟩
    rcases hreg x hx with hr | hs
    · exact Or.inr ⟨hr, rfl⟩
    · exact Or.inl (strongest_of_stronger hs)
  · intro R' hR' x hx
    have : R' = R := congrArg Prod.snd (huniq _ hR' rfl)
    subst this
    exact Or.inl ⟨_, List.mem_singleton_self _, hx⟩

theorem sorted_upgraded (h : Sorted (pre ++ (r, R) :: suf)) :
    Sorted (pre ++ (r, upgraded d R) :: suf) :=
  sorted_middle h (fun e he => (List.pairwise_append.mp h).2.2 e he _ List.mem_cons_self)
    (Nat.le_refl _)

theorem filled_upgraded (ht : Turn A₀ d region lost pre suf c prev r R) (hle : R.start ≤ d.start)
    {x : Nat} (hdx : d.start ≤ x) (hx : x < R.stop) :
    Covers (pre ++ (r, upgraded d R) :: suf) d.tag.mandate x ∨ lost :=
  Or.inl ⟨(r, upgraded d R), by simp, ht.own, hle.trans hdx, hx⟩

/-- The first lock has had its turn. -/
theorem turned_upgraded (ht : Turn A₀ d region lost pre suf c prev r R) (hwf : WF A₀)
    (hnd : ((pre ++ (r, R) :: suf).map Prod.fst).Nodup)
    (hreg : ∀ x, R.Has x → region x ∨ isStrongerOrEqual R d = true) (hle : R.start ≤ d.start)
    (hstop : R.stop ≤ d.stop) :
    Turned A₀ d region lost pre suf r R (upgraded d R) (pre ++ (r, upgraded d R) :: suf) := by
  have hno : ¬ CrossAt A₀ d r R := by
    intro h
    obtain ⟨-, -, -, hlt⟩ := h.overlaps hwf
    omega
  refine ⟨melted_upgraded ht hnd hreg, by simp, rfl, ?_, Nat.le_refl _,
    fun x => filled_upgraded ht hle, fun h => sorted_upgraded (ht.sorted h), fun _ => rfl,
    fun _ => hno, fun hsort => ⟨hsort.sublist (List.sublist_append_left _ _), hno⟩⟩
  rw [endStop, if_neg (by omega)]
  rfl

/-- The first lock goes at least up to the end of `d`. -/
theorem done_upgraded (ht : Turn A₀ d region lost pre suf c prev r R)
    (hnd : ((pre ++ (r, R) :: suf).map Prod.fst).Nodup)
    (hreg : ∀ x, R.Has x → region x ∨ isStrongerOrEqual R d = true) (hle : R.start ≤ d.start)
    (hlt : d.start < d.stop) (hstop : d.stop ≤ R.stop) :
    Done A₀ d region lost R.stop (pre ++ (r, upgraded d R) :: suf) where
  melted := melted_upgraded ht hnd hreg
  sorted h := sorted_upgraded (ht.sorted h)
  le := by omega
  filled x := filled_upgraded ht hle
  rest e _ _ x hx hxd := by omega

/-! ## Behind the first lock -/

/-- The lock before need not be known. -/
theorem forget_prev (ht : Turn A₀ d region lost pre suf c prev r R) :
    Turn A₀ d region lost pre suf c none r R := by
  obtain ⟨h1, h2, h3, h4, h5, h6, h7, h8, h9, -, h10, h11, h12, h13, h14⟩ := ht
  exact ⟨h1, h2, h3, h4, h5, h6, h7, h8, h9, by simp, h10, h11, h12, h13, h14⟩

/-- Behind the first lock either no own lock is left, or the next one has its turn. -/
theorem behind (ht : Turn A₀ d region lost pre suf c prev r R) (hwf : WF A₀)
    (hnd : (A₀.map Prod.fst).Nodup) (hreg : ∀ x, d.Has x → region x)
    (hregR : ∀ x, R.Has x → region x ∨ isStrongerOrEqual R d = true) (hle : R.start ≤ d.start)
    (hlt : d.start < d.stop) (hst : Stores s (pre ++ (r, upgraded d R) :: suf) F M)
    (hnd' : ((pre ++ (r, R) :: suf).map Prod.fst).Nodup) :
    (s.findNextLockFrom (some r) { d with start := R.stop } isOwn = none ∧
      Done A₀ d region lost R.stop (pre ++ (r, upgraded d R) :: suf) ∧
      meltCount d R.stop false (suf.map Prod.snd) = tailCount d R.stop) ∨
    ∃ mid suf₂ r₂ R₂, suf = mid ++ (r₂, R₂) :: suf₂ ∧
      s.findNextLockFrom (some r) { d with start := R.stop } isOwn = some r₂ ∧
      Turn A₀ d region lost (pre ++ (r, upgraded d R) :: mid) suf₂ R.stop none r₂ R₂ ∧
      meltCount d R.stop false (suf.map Prod.snd) =
        meltCount d R.stop false (R₂ :: suf₂.map Prod.snd) := by
  have hnext := hst.rep.findNextLockFrom { d with start := R.stop } isOwn
  rw [List.map_cons, List.head?_cons] at hnext
  rw [hnext]
  cases hf : Rep.findEntry { d with start := R.stop } isOwn ((r, upgraded d R) :: suf) with
  | none =>
    have hskip : (∀ e ∈ suf, Own d e → e.2.start < d.stop → e.2.stop ≤ R.stop) →
        meltCount d R.stop false (suf.map Prod.snd) = tailCount d R.stop := by
      intro h
      have := meltCount_skip d R.stop (suf.map Prod.snd) [] false (by
        intro e he ho h1
        obtain ⟨f, hf, rfl⟩ := List.mem_map.mp he
        exact h f hf (own_iff.mp ho) h1)
      rwa [List.append_nil] at this
    refine Or.inl ⟨rfl, ?_⟩
    rcases Nat.lt_or_ge R.stop d.stop with hstop | hstop
    · have hd := turned_upgraded ht hwf hnd' hregR hle hstop.le
      have hsearch := hd.search ht hwf hstop
      rw [hf] at hsearch
      exact ⟨hd.done ht (fun e he ho => Or.inl (ht.before e he ho)) (Or.inr ⟨hstop, hsearch⟩),
        hskip hsearch⟩
    · refine ⟨done_upgraded ht hnd' hregR hle hlt hstop, hskip fun e he ho h1 => ?_⟩
      have := ht.after e he ho
      omega
  | some e =>
    obtain ⟨r₂, R₂⟩ := e
    have hstop : R.stop < d.stop := by
      obtain ⟨X, Y, hXY, ⟨h1, h2⟩, hreq, -⟩ := findEntry_some hf
      simp only at h1 h2
      have hmem : (r₂, R₂) ∈ (r, upgraded d R) :: suf := by simp [hXY]
      rcases List.mem_cons.mp hmem with heq | hmem
      · cases heq
        exact absurd h2 (lt_irrefl _)
      · exact lt_of_le_of_lt (ht.after _ hmem (own_iff.mp hreq)) h1
    have hd := turned_upgraded ht hwf hnd' hregR hle hstop.le
    obtain ⟨mid, suf₂, rfl, hmid, ht₂⟩ := hd.next_turn ht hwf hnd hreg (fun _ he _ => he)
      (fun e he ho => Or.inl (ht.before e he ho)) hstop hf
    refine Or.inr ⟨mid, suf₂, r₂, R₂, rfl, rfl, forget_prev ht₂, ?_⟩
    rw [List.map_append, List.map_cons, meltCount_skip]
    intro e he ho _
    obtain ⟨f, hf, rfl⟩ := List.mem_map.mp he
    exact hmid f hf (own_iff.mp ho)

/-- The loop from behind the first lock on. -/
theorem meltBehind_spec (ht : Turn A₀ d region lost pre suf c prev r R) (hwf : WF A₀)
    (hnd : (A₀.map Prod.fst).Nodup) (hreg : ∀ x, d.Has x → region x)
    (hregR : ∀ x, R.Has x → region x ∨ isStrongerOrEqual R d = true) (hle : R.start ≤ d.start)
    (hlt : d.start < d.stop) (hst : Stores s (pre ++ (r, upgraded d R) :: suf) F M)
    (hnd' : ((pre ++ (r, R) :: suf).map Prod.fst).Nodup)
    (hlost : s.lockImp.nFree < meltCount d R.stop false (suf.map Prod.snd) → lost)
    (hs : ∃ p, meltLoop (maxLockRecords + 1) s { d with start := R.stop } none
      (s.findNextLockFrom (some r) { d with start := R.stop } isOwn) = some p ∧
      meltTail p.1 p.2 = some s') :
    ∃ A' F', Stores s' A' F' M ∧ Molten A₀ d region lost A' := by
  rcases behind ht hwf hnd hreg hregR hle hlt hst hnd' with
    ⟨hnone, hdone, hcount⟩ | ⟨mid, suf₂, r₂, R₂, rfl, hsome, ht₂, hcount⟩
  · rw [hcount] at hlost
    rw [hnone] at hs
    simp only [meltLoop, Option.some.injEq, exists_eq_left'] at hs
    obtain ⟨A', F', hst', hmolten, -⟩ := meltTail_spec hdone hst hlost hs
    exact ⟨A', F', hst', hmolten⟩
  · rw [hcount] at hlost
    rw [hsome] at hs
    have hst₂ : Stores s ((pre ++ (r, upgraded d R) :: mid) ++ (r₂, R₂) :: suf₂) F M := by
      simpa using hst
    obtain ⟨A', F', hst', hmolten, -⟩ := meltRest_spec ht₂ hwf hnd hreg hst₂ hlost hs
    exact ⟨A', F', hst', hmolten⟩

/-! ## The first lock and the range -/

/-- Up to where the first lock is strengthened: if it is split, over all of its rest. -/
def reach (d : Desc) (A : List (Entry Tag)) : Nat :=
  match Rep.findEntry d isOwn A with
  | some e => if e.2.start < d.start ∧ !isStrongerOrEqual e.2 d then max d.stop e.2.stop else d.stop
  | none => d.stop

/-- Where existing locks are strengthened. -/
def Reached (d : Desc) (A : List (Entry Tag)) (x : Nat) : Prop := d.start ≤ x ∧ x < reach d A

theorem le_reach (d : Desc) (A : List (Entry Tag)) : d.stop ≤ reach d A := by
  unfold reach
  split
  · split <;> omega
  · exact Nat.le_refl _

/-! ## Counting records -/

/-- The record for the part of the first lock below `d`. -/
def firstSplit (d : Desc) (A : List (Entry Tag)) : Nat :=
  match Rep.findEntry d isOwn A with
  | some e => if e.2.start < d.start ∧ !isStrongerOrEqual e.2 d then 1 else 0
  | none => 0

/-- Where the loop starts: behind a first lock that starts below `d`. -/
def loopStart (d : Desc) (A : List (Entry Tag)) : Nat :=
  match Rep.findEntry d isOwn A with
  | some e => if e.2.start < d.start then e.2.stop else d.start
  | none => d.start

/-- All records that the melting of `d` into `A` adds. -/
def addCount (d : Desc) (A : List (Entry Tag)) : Nat :=
  firstSplit d A + meltCount d (loopStart d A) false (A.map Prod.snd)

theorem addCount_none (hno : Rep.findEntry d isOwn A₀ = none)
    (hfree : ∀ e ∈ A₀, Own d e → ¬ e.2.Overlaps d) : addCount d A₀ = tailCount d d.start := by
  have := meltCount_skip d d.start (A₀.map Prod.snd) [] false (by
    intro e he ho h1
    obtain ⟨f, hf, rfl⟩ := List.mem_map.mp he
    exact Nat.le_of_not_lt fun h2 => hfree f hf (own_iff.mp ho) ⟨h1, h2⟩)
  rw [List.append_nil] at this
  rw [addCount, firstSplit, loopStart, hno, this]
  exact Nat.zero_add _

theorem addCount_first (hf : FirstOwn A₀ d X r R suf) (hentry : Rep.findEntry d isOwn A₀ = some (r, R))
    (hle : ¬ R.start < d.start) :
    addCount d A₀ = meltCount d d.start false (R :: suf.map Prod.snd) := by
  rw [addCount, firstSplit, loopStart, hentry]
  simp only
  rw [if_neg hle, if_neg (fun h => hle h.1), Nat.zero_add, hf.split, List.map_append, List.map_cons,
    meltCount_skip]
  intro e he ho _
  obtain ⟨f, hfX, rfl⟩ := List.mem_map.mp he
  exact hf.before f hfX (own_iff.mp ho)

/-- Behind a first lock the records are counted from its end on. -/
theorem addCount_behind (hf : FirstOwn A₀ d X r R (suf₁ ++ suf₂))
    (hentry : Rep.findEntry d isOwn A₀ = some (r, R)) (hwf : WF A₀) (hnd : (A₀.map Prod.fst).Nodup)
    (hlt : R.start < d.start) (hlow : ∀ e ∈ suf₁, e.2.start < d.start) :
    addCount d A₀ = (if !isStrongerOrEqual R d then 1 else 0) +
      meltCount d R.stop false (suf₂.map Prod.snd) := by
  have hmap : A₀.map Prod.snd = (X ++ (r, R) :: suf₁).map Prod.snd ++ suf₂.map Prod.snd := by
    rw [hf.split]
    simp
  rw [addCount, firstSplit, loopStart, hentry]
  simp only
  rw [if_pos hlt, hmap, meltCount_skip]
  · simp only [hlt, true_and]
  · have hstop := hf.overStop
    intro e he ho _
    obtain ⟨f, hfX, rfl⟩ := List.mem_map.mp he
    simp only [List.mem_append, List.mem_cons] at hfX
    rcases hfX with hfX | rfl | hfX
    · have := hf.before f hfX (own_iff.mp ho)
      omega
    · exact Nat.le_refl _
    · have h1 := hf.after hwf hnd f (List.mem_append_left _ hfX) (own_iff.mp ho)
      have h2 := hlow f hfX
      omega

/-! ## The start of the loop -/

theorem meltLockIntoList_none (hno : Rep.findEntry d isOwn A₀ = none) (hst : Stores s A₀ F M) :
    meltLockIntoList s d = meltTail s d := by
  rw [meltLockIntoList, hst.rep.findFirstLock, hno]
  rfl

theorem meltLockIntoList_behind (hr : Rep.findEntry d isOwn A₀ = some (r, R)) (hst : Stores s A₀ F M)
    (hlt : R.start < d.start) :
    meltLockIntoList s d = (splitFirst s d r).bind fun s =>
      (meltLoop (maxLockRecords + 1) s { d with start := (s.desc r).stop } none
        (s.findNextLockFrom (some r) { d with start := (s.desc r).stop } isOwn)).bind
          fun p => meltTail p.1 p.2 := by
  have hrA : (r, R) ∈ A₀ := by
    obtain ⟨Y, Z, hYZ, -⟩ := findEntry_some hr
    simp [hYZ]
  rw [meltLockIntoList, hst.rep.findFirstLock, hr]
  simp only [Option.map_some, meltFirst, hst.rep.desc _ hrA, if_pos hlt]
  cases splitFirst s d r <;> rfl

theorem meltLockIntoList_at (hr : Rep.findEntry d isOwn A₀ = some (r, R)) (hst : Stores s A₀ F M)
    (hge : ¬ R.start < d.start) :
    meltLockIntoList s d = (meltLoop (maxLockRecords + 1) s d none (some r)).bind
      fun p => meltTail p.1 p.2 := by
  have hrA : (r, R) ∈ A₀ := by
    obtain ⟨Y, Z, hYZ, -⟩ := findEntry_some hr
    simp [hYZ]
  rw [meltLockIntoList, hst.rep.findFirstLock, hr]
  simp only [Option.map_some, meltFirst, hst.rep.desc _ hrA, if_neg hge]
  rfl

/-- The list behind a first lock `r` that starts below `d`. -/
structure Behind (A₀ : List (Entry Tag)) (d : Desc) (lost : Prop) (M : Finset Nat) (nFree : Nat)
    (F : List Nat) (k : Nat) (s₁ : LockRecs) (pre suf : List (Entry Tag)) (r : Nat) (R : Desc)
    (F₁ : List Nat) : Prop where
  turn : Turn A₀ d (Reached d A₀) lost pre suf d.start none r R
  stores : Stores s₁ (pre ++ (r, upgraded d R) :: suf) F₁ M
  le : R.start ≤ d.start
  region : ∀ x, R.Has x → Reached d A₀ x ∨ isStrongerOrEqual R d = true
  natives : s₁.lockImp.nFree = nFree - k
  free : F.length = F₁.length + k
  count : k + meltCount d R.stop false (suf.map Prod.snd) = addCount d A₀
  missing : nFree < k → ∃ x, Covers A₀ d.tag.mandate x ∧ x < d.start ∧
    ¬ Covers (pre ++ (r, upgraded d R) :: suf) d.tag.mandate x

theorem Behind.nodup {nFree k : Nat} {F₁ : List Nat}
    (h : Behind A₀ d lost M nFree F k s₁ pre suf r R F₁) :
    ((pre ++ (r, R) :: suf).map Prod.fst).Nodup := by
  simpa using h.stores.rep.fst_nodup

theorem Behind.stop {nFree k : Nat} {F₁ : List Nat}
    (h : Behind A₀ d lost M nFree F k s₁ pre suf r R F₁) : (s₁.desc r).stop = R.stop := by
  rw [h.stores.rep.desc (r, upgraded d R) (by simp)]
  rfl

theorem has_reached (d : Desc) (A : List (Entry Tag)) (x : Nat) (hx : d.Has x) : Reached d A x :=
  ⟨hx.1, lt_of_lt_of_le hx.2 (le_reach d A)⟩

theorem exists_firstOwn (hst : Stores s A₀ F M) (hwf : WF A₀)
    (hr : Rep.findEntry d isOwn A₀ = some (r, R)) : ∃ X suf, FirstOwn A₀ d X r R suf := by
  have hfirst := findFirst_own (d := d) hst hwf.sorted
  rw [hst.rep.findFirstLock, hr] at hfirst
  obtain ⟨X, R', suf, hf⟩ := hfirst
  have hrA : (r, R) ∈ A₀ := by
    obtain ⟨Y, Z, hYZ, -⟩ := findEntry_some hr
    simp [hYZ]
  have hrA' : (r, R') ∈ A₀ := by simp [hf.split]
  obtain rfl : R = R' := congrArg Prod.snd (hst.rep.eq_of_fst hrA hrA' rfl)
  exact ⟨X, suf, hf⟩

theorem exists_behind (hst : Stores s A₀ F M) (hwf : WF A₀) (hd : d.start < d.stop)
    (hr : Rep.findEntry d isOwn A₀ = some (r, R)) (hlt : R.start < d.start)
    (hlost : s.lockImp.nFree < addCount d A₀ → lost) (hs : splitFirst s d r = some s₁) :
    ∃ k pre suf R₁ F₁, Behind A₀ d lost M s.lockImp.nFree F k s₁ pre suf r R₁ F₁ ∧
      R₁.stop = R.stop ∧ R₁.tag = R.tag := by
  have hnd := hst.rep.fst_nodup
  obtain ⟨X, suf, hf⟩ := exists_firstOwn hst hwf hr
  have hrA : (r, R) ∈ A₀ := by simp [hf.split]
  unfold splitFirst at hs
  rw [hst.rep.desc _ hrA] at hs
  split at hs
  · rename_i hweak
    obtain ⟨suf₁, suf₂, q, F₁, P, rfl, rfl, hq, hlow, hst₁, hP, hsort₁, hadd⟩ :=
      split_first _ hf hwf.sorted hst hlt hs
    have hcount := addCount_behind hf hr hwf hnd hlt hlow
    rw [if_pos hweak] at hcount
    have hsort : Sorted (P ++ (r, { R with start := d.start }) :: suf₂) :=
      sorted_middle hsort₁ (fun e he => (List.pairwise_append.mp hsort₁).2.2 e he _
        List.mem_cons_self) (Nat.le_refl _)
    refine ⟨1, P, suf₂, { R with start := d.start }, F₁,
      ⟨hf.turn_split (Reached d A₀) hwf hnd hd hlt hlow
        (hP.imp And.left fun h => ⟨h.1, hlost (by omega)⟩) hsort
        (fun x _ h1 h2 => has_reached d A₀ x ⟨h1, h2⟩),
      hst₁, Nat.le_refl _, ?_, hadd.natives, rfl, hcount.symm, ?_⟩, rfl, rfl⟩
    · intro x hx
      refine Or.inl ⟨hx.1, ?_⟩
      rw [reach, hr]
      simp only
      rw [if_pos ⟨hlt, hweak⟩]
      exact lt_of_lt_of_le hx.2 (le_max_right _ _)
    · intro hzero
      obtain ⟨rfl, -⟩ := hP.resolve_left fun h => absurd h.2 (by omega)
      exact hf.missing hwf hnd hlt _
  · rename_i hstrong
    cases hs
    have hf' : FirstOwn A₀ d X r R ([] ++ suf) := hf
    have hcount := addCount_behind hf' hr hwf hnd hlt (by simp)
    rw [if_neg hstrong] at hcount
    have hstrong : isStrongerOrEqual R d = true := by simpa using hstrong
    refine ⟨0, X, suf, R, F, ⟨hf.turn (Reached d A₀) lost hwf hnd hd (fun _ _ _ => Or.inr hstrong), ?_,
      hlt.le, fun _ _ => Or.inr hstrong, rfl, rfl, hcount.symm, fun h => absurd h (Nat.not_lt_zero _)⟩,
      rfl, rfl⟩
    rw [upgraded_of_stronger hstrong, ← hf.split]
    exact hst

/-! ## The result -/

theorem meltLockIntoList_spec (lost : Prop) (hst : Stores s A₀ F M) (hwf : WF A₀)
    (hd : d.start < d.stop) (hlost : s.lockImp.nFree < addCount d A₀ → lost)
    (hs : meltLockIntoList s d = some s') :
    ∃ A' F', Stores s' A' F' M ∧ Molten A₀ d (Reached d A₀) lost A' := by
  have hnd := hst.rep.fst_nodup
  cases hr : Rep.findEntry d isOwn A₀ with
  | none =>
    have hfirst := findFirst_own (d := d) hst hwf.sorted
    rw [hst.rep.findFirstLock, hr] at hfirst
    rw [meltLockIntoList_none hr hst] at hs
    rw [addCount_none hr hfirst] at hlost
    obtain ⟨A', F', hst', hmolten, -⟩ := meltTail_spec
      (done_of_none hwf hfirst : Done A₀ d (Reached d A₀) lost d.start A₀) hst hlost hs
    exact ⟨A', F', hst', hmolten⟩
  | some e =>
    obtain ⟨r, R⟩ := e
    by_cases hlt : R.start < d.start
    · rw [meltLockIntoList_behind hr hst hlt] at hs
      simp only [Option.bind_eq_some_iff] at hs
      obtain ⟨s₁, hs₁, hs⟩ := hs
      obtain ⟨k, pre, suf, R₁, F₁, h, -⟩ := exists_behind hst hwf hd hr hlt hlost hs₁
      have hcount := h.count
      have hnat := h.natives
      rw [h.stop] at hs
      exact meltBehind_spec h.turn hwf hnd (has_reached d A₀) h.region h.le hd h.stores h.nodup
        (fun hlt => hlost (by omega)) hs
    · obtain ⟨X, suf, hf⟩ := exists_firstOwn hst hwf hr
      rw [meltLockIntoList_at hr hst hlt] at hs
      simp only [Option.bind_eq_some_iff] at hs
      rw [addCount_first hf hr hlt] at hlost
      have ht := hf.turn (Reached d A₀) lost hwf hnd hd
        (fun x hx hxd => Or.inl (has_reached d A₀ x ⟨(Nat.not_lt.mp hlt).trans hx.1, hxd⟩))
      rw [hf.split] at hst
      obtain ⟨A', F', hst', hmolten, -⟩ :=
        meltRest_spec ht hwf hnd (has_reached d A₀) hst hlost hs
      exact ⟨A', F', hst', hmolten⟩

end Athomux.LockMand
