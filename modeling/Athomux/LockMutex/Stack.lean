import Mathlib.Data.Multiset.Filter
import Athomux.LockMutex.Spec

/-!
# Stacked locks

The types that are held at one address, and what the loop of `$unlock` takes away there.
-/

open Lib

namespace Athomux.LockMutex

/-! ## Types that are held -/

def dataTypes (m : Multiset LockType) : Multiset LockT := (m.map LockType.data).filter (· ≠ .none)

def addrTypes (m : Multiset LockType) : Multiset LockT := (m.map LockType.addr).filter (· ≠ .none)

/-- The same data locks and the same address locks, in whatever records. -/
def SameTypes (m m' : Multiset LockType) : Prop :=
  dataTypes m = dataTypes m' ∧ addrTypes m = addrTypes m'

def noType : LockType := ⟨.none, .none⟩

variable {m m' u : Multiset LockType} {t t' : LockType}

theorem dataTypes_add : dataTypes (u + m) = dataTypes u + dataTypes m := by
  simp [dataTypes]

theorem addrTypes_add : addrTypes (u + m) = addrTypes u + addrTypes m := by
  simp [addrTypes]

theorem sameTypes_refl : SameTypes m m := ⟨rfl, rfl⟩

/-- `none` is not held. -/
def held (t : LockT) : Multiset LockT := ({t} : Multiset LockT).filter (· ≠ .none)

theorem held_inj {t t' : LockT} (h : held t = held t') : t = t' := by
  cases t <;> cases t' <;> first | rfl | exact absurd h (by decide)

theorem eq_none_of_held {t : LockT} {m : Multiset LockT} (h : held t + m = 0) : t = .none := by
  have hcard := congrArg Multiset.card h
  rw [Multiset.card_add, Multiset.card_zero] at hcard
  have hzero : held t = held .none := Multiset.card_eq_zero.mp (by omega)
  exact held_inj hzero

theorem not_sameTypes_zero (ht : t ≠ noType) : ¬ SameTypes ({t} + m) 0 := by
  rintro ⟨hdata, haddr⟩
  rw [dataTypes_add] at hdata
  rw [addrTypes_add] at haddr
  have hd : t.data = .none := eq_none_of_held hdata
  have ha : t.addr = .none := eq_none_of_held haddr
  obtain ⟨d, a⟩ := t
  cases hd
  cases ha
  exact ht rfl

theorem sameTypes_singleton : SameTypes {t} {t'} ↔ t = t' := by
  constructor
  · rintro ⟨hdata, haddr⟩
    obtain ⟨d, a⟩ := t
    obtain ⟨d', a'⟩ := t'
    cases held_inj hdata
    cases held_inj haddr
    rfl
  · rintro rfl
    exact sameTypes_refl

/-! ## Types at an address -/

/-- What `d` holds at `x`. -/
def cover (d : Desc) (x : Nat) : Multiset LockType := if d.Has x then {d.tag} else 0

def typesAt (l : List Desc) (x : Nat) : Multiset LockType :=
  ((l.filter fun d => d.Has x).map LockDesc.tag : List LockType)

theorem typesAt_cons (d : Desc) (l : List Desc) (x : Nat) :
    typesAt (d :: l) x = cover d x + typesAt l x := by
  unfold typesAt cover
  by_cases h : d.Has x
  · simp [h]
  · simp [h]

theorem typesAt_perm {l l' : List Desc} (h : l.Perm l') (x : Nat) : typesAt l x = typesAt l' x :=
  Multiset.coe_eq_coe.mpr ((h.filter _).map _)

/-! ## What `$unlock` takes away -/

/-- What is taken from `R` at `x`, when `low` says that the part below `lo` is kept, and `up` that
the part from `hi` on is. -/
def cutOut (lo hi : Nat) (low up : Prop) [Decidable low] [Decidable up] (R : Desc) (x : Nat) :
    Multiset LockType :=
  if R.Has x ∧ ¬ (low ∧ x < lo) ∧ ¬ (up ∧ hi ≤ x) then {R.tag} else 0

/-- A part and two other ones, if they are kept. -/
theorem ite_eq_add {p a b c low up : Prop} [Decidable p] [Decidable a] [Decidable b] [Decidable c]
    [Decidable low] [Decidable up] (h : p ↔ a ∨ (low ∧ b) ∨ (up ∧ c)) (hab : ¬ (a ∧ low ∧ b))
    (hac : ¬ (a ∧ up ∧ c)) (hbc : ¬ ((low ∧ b) ∧ up ∧ c)) :
    (if p then u else 0) = (if a then u else 0) +
      ((if low then if b then u else 0 else 0) + if up then if c then u else 0 else 0) := by
  by_cases hl : low <;> by_cases hu : up <;> by_cases ha : a <;> by_cases hb : b <;>
    by_cases hc : c <;> simp_all

theorem cover_eq_cutOut {lo hi : Nat} {R : Desc} (low up : Prop) [Decidable low] [Decidable up]
    (hle : lo ≤ hi) (hstart : R.start < hi) (hstop : lo < R.stop) (x : Nat) :
    cover R x = cutOut lo hi low up R x + ((if low then cover { R with stop := lo } x else 0) +
      (if up then cover { R with start := hi } x else 0)) := by
  unfold cover cutOut
  refine ite_eq_add ?_ ?_ ?_ ?_ <;> unfold LockDesc.Has
  · by_cases hl : low <;> by_cases hu : up <;>
      simp only [hl, hu, true_and, false_and, not_false_iff, and_true, or_false, false_or] <;> omega
  · rintro ⟨⟨-, hx, -⟩, hl, -, hlt⟩
    exact hx ⟨hl, hlt⟩
  · rintro ⟨⟨-, -, hx⟩, hu, hge, -⟩
    exact hx ⟨hu, hge⟩
  · rintro ⟨⟨-, -, hlt⟩, -, hge, -⟩
    exact absurd (hge.trans_lt hlt) (Nat.not_lt.mpr hle)

/-- What the loop of `$unlock` takes away at `x` from the locks of the list, with `k` free native
locks. -/
def gone (hi x : Nat) : Nat → Nat → List Desc → Multiset LockType
  | _, _, [] => 0
  | lo, k, R :: l =>
    if lo < R.stop then
      if hi ≤ R.start then 0
      else
        let kept := if R.start < lo then 1 else 0
        cutOut lo hi (R.start < lo ∧ 0 < k) (hi < R.stop ∧ kept < k) R x +
          if R.stop < hi then gone hi x R.stop (k - kept + 1) l else 0
    else gone hi x lo k l

/-- `f` free records are enough for the parts that the loop of `$unlock` keeps. -/
def Fits (hi : Nat) : Nat → Nat → List Desc → Prop
  | _, _, [] => True
  | lo, f, R :: l =>
    if lo < R.stop then
      if hi ≤ R.start then True
      else
        (if R.start < lo then 1 else 0) + (if hi < R.stop then 1 else 0) ≤ f ∧
          (R.stop < hi → Fits hi R.stop (f - (if R.start < lo then 1 else 0) + 1) l)
    else Fits hi lo f l

variable {hi lo k f x : Nat} {l : List Desc} {R : Desc}

theorem fits_cons : Fits hi lo f (R :: l) =
    if lo < R.stop then
      if hi ≤ R.start then True
      else
        (if R.start < lo then 1 else 0) + (if hi < R.stop then 1 else 0) ≤ f ∧
          (R.stop < hi → Fits hi R.stop (f - (if R.start < lo then 1 else 0) + 1) l)
    else Fits hi lo f l := rfl

theorem fits_skip (h : R.stop ≤ lo) : Fits hi lo f (R :: l) ↔ Fits hi lo f l := by
  rw [fits_cons, if_neg (Nat.not_lt.mpr h)]

theorem fits_stop (hstop : lo < R.stop) (hstart : hi ≤ R.start) : Fits hi lo f (R :: l) := by
  rw [fits_cons, if_pos hstop, if_pos hstart]
  trivial

theorem fits_take (hstop : lo < R.stop) (hstart : R.start < hi) :
    Fits hi lo f (R :: l) ↔
      (if R.start < lo then 1 else 0) + (if hi < R.stop then 1 else 0) ≤ f ∧
        (R.stop < hi → Fits hi R.stop (f - (if R.start < lo then 1 else 0) + 1) l) := by
  rw [fits_cons, if_pos hstop, if_neg (Nat.not_le.mpr hstart)]

theorem gone_cons : gone hi x lo k (R :: l) =
    if lo < R.stop then
      if hi ≤ R.start then 0
      else
        cutOut lo hi (R.start < lo ∧ 0 < k) (hi < R.stop ∧ (if R.start < lo then 1 else 0) < k) R x +
          if R.stop < hi then gone hi x R.stop (k - (if R.start < lo then 1 else 0) + 1) l else 0
    else gone hi x lo k l := rfl

theorem gone_skip (h : R.stop ≤ lo) : gone hi x lo k (R :: l) = gone hi x lo k l := by
  rw [gone_cons, if_neg (Nat.not_lt.mpr h)]

theorem gone_stop (hstop : lo < R.stop) (hstart : hi ≤ R.start) : gone hi x lo k (R :: l) = 0 := by
  rw [gone_cons, if_pos hstop, if_pos hstart]

theorem gone_take (hstop : lo < R.stop) (hstart : R.start < hi) :
    gone hi x lo k (R :: l) =
      cutOut lo hi (R.start < lo ∧ 0 < k) (hi < R.stop ∧ (if R.start < lo then 1 else 0) < k) R x +
        if R.stop < hi then gone hi x R.stop (k - (if R.start < lo then 1 else 0) + 1) l else 0 := by
  rw [gone_cons, if_pos hstop, if_neg (Nat.not_le.mpr hstart)]

/-- Parts that are kept are not taken. -/
theorem gone_below (hk : 0 < k) (hx : x < lo) : gone hi x lo k l = 0 := by
  induction l generalizing lo k with
  | nil => rfl
  | cons R l ih =>
    rcases Nat.lt_or_ge lo R.stop with hstop | hstop
    · rcases Nat.lt_or_ge R.start hi with hstart | hstart
      · have hcut : ¬ (R.Has x ∧ ¬ ((R.start < lo ∧ 0 < k) ∧ x < lo) ∧
            ¬ ((hi < R.stop ∧ (if R.start < lo then 1 else 0) < k) ∧ hi ≤ x)) := by
          rintro ⟨⟨hge, -⟩, hlow, -⟩
          exact hlow ⟨⟨hge.trans_lt hx, hk⟩, hx⟩
        rw [gone_take hstop hstart, cutOut, if_neg hcut, zero_add]
        split
        · exact ih (Nat.succ_pos _) (hx.trans hstop)
        · rfl
      · exact gone_stop hstop hstart
    · rw [gone_skip hstop]
      exact ih hk hx

/-! ## When nothing is taken -/

structure Proper (R : Desc) : Prop where
  range : R.start < R.stop
  tag : R.tag ≠ noType

theorem gone_unlocked (hsort : l.Pairwise fun d e => d.start ≤ e.start)
    (hproper : ∀ R ∈ l, Proper R) (hle : lo ≤ hi) :
    (∀ x, SameTypes (gone hi x lo k l) 0) ↔
      ∀ P ∈ l, P.start < hi → lo < P.stop → hi ≤ lo ∧ 2 ≤ k := by
  induction l with
  | nil => simp [gone, sameTypes_refl]
  | cons R l ih =>
    obtain ⟨hbefore, hsort⟩ := List.pairwise_cons.mp hsort
    obtain ⟨hR, hproper⟩ := List.forall_mem_cons.mp hproper
    rcases Nat.lt_or_ge lo R.stop with hstop | hstop
    · rcases Nat.lt_or_ge R.start hi with hstart | hstart
      · constructor
        · intro hzero
          suffices h : hi ≤ lo ∧ 2 ≤ k from fun _ _ _ _ => h
          -- Otherwise something of the record is taken.
          have hcut : ∀ x, ¬ (R.Has x ∧ ¬ ((R.start < lo ∧ 0 < k) ∧ x < lo) ∧
              ¬ ((hi < R.stop ∧ (if R.start < lo then 1 else 0) < k) ∧ hi ≤ x)) := by
            intro x hx
            have h := hzero x
            rw [gone_take hstop hstart, cutOut, if_pos hx] at h
            exact not_sameTypes_zero hR.tag h
          unfold LockDesc.Has at hcut
          have hrange := hR.range
          have hlow := hcut R.start
          have hmid := hcut (max lo R.start)
          have hup := hcut hi
          split_ifs at hlow hmid hup <;> omega
        · intro h x
          obtain ⟨hge, hk⟩ := h R (by simp) hstart hstop
          have hcut : ¬ (R.Has x ∧ ¬ ((R.start < lo ∧ 0 < k) ∧ x < lo) ∧
              ¬ ((hi < R.stop ∧ (if R.start < lo then 1 else 0) < k) ∧ hi ≤ x)) := by
            rw [if_pos (by omega)]
            omega
          rw [gone_take hstop hstart, cutOut, if_neg hcut, if_neg (show ¬ R.stop < hi by omega)]
          exact sameTypes_refl
      · constructor
        · intro _ P hP hlt _
          rcases List.mem_cons.mp hP with rfl | hP
          · omega
          · have := hbefore P hP
            omega
        · intro _ x
          rw [gone_stop hstop hstart]
          exact sameTypes_refl
    · simp only [gone_skip hstop]
      rw [ih hsort hproper]
      constructor
      · intro h P hP hstart hlt
        rcases List.mem_cons.mp hP with rfl | hP
        · omega
        · exact h P hP hstart hlt
      · exact fun h P hP => h P (List.mem_cons_of_mem _ hP)

theorem fits_unlocked (hsort : l.Pairwise fun d e => d.start ≤ e.start)
    (h : ∀ P ∈ l, P.start < hi → lo < P.stop → hi ≤ lo ∧ 2 ≤ f) : Fits hi lo f l := by
  induction l with
  | nil => trivial
  | cons R l ih =>
    obtain ⟨-, hsort⟩ := List.pairwise_cons.mp hsort
    obtain ⟨hR, hl⟩ := List.forall_mem_cons.mp h
    rcases Nat.lt_or_ge lo R.stop with hstop | hstop
    · rcases Nat.lt_or_ge R.start hi with hstart | hstart
      · obtain ⟨hle, hf⟩ := hR hstart hstop
        rw [fits_take hstop hstart]
        refine ⟨?_, fun hlt => by omega⟩
        split_ifs <;> omega
      · exact fits_stop hstop hstart
    · exact (fits_skip hstop).mpr (ih hsort hl)

/-- Inside of a lock both parts are kept. -/
theorem two_le_of_fits (hsort : l.Pairwise fun d e => d.start ≤ e.start) (hle : hi ≤ lo)
    (h : Fits hi lo f l) {P : Desc} (hP : P ∈ l) (hstart : P.start < hi) (hstop : lo < P.stop) :
    2 ≤ f := by
  induction l with
  | nil => cases hP
  | cons R l ih =>
    obtain ⟨hbefore, hsort⟩ := List.pairwise_cons.mp hsort
    have hRP : R.start ≤ P.start := by
      rcases List.mem_cons.mp hP with rfl | hP
      · exact Nat.le_refl _
      · exact hbefore P hP
    rcases Nat.lt_or_ge lo R.stop with hRstop | hRstop
    · have hroom := ((fits_take hRstop (hRP.trans_lt hstart)).mp h).1
      rw [if_pos (by omega), if_pos (by omega)] at hroom
      exact hroom
    · rcases List.mem_cons.mp hP with rfl | hP
      · omega
      · exact ih hsort ((fits_skip hRstop).mp h) hP

/-! ## When only the own lock is taken -/

/-- `P` reaches beyond `lo` and beyond all that is before it in the list, and nothing before it
reaches up to `hi`. -/
def Leads (l : List Desc) (lo hi : Nat) (P : Desc) : Prop :=
  lo < P.stop ∧ ∃ X Y, l = X ++ P :: Y ∧ ∀ Q ∈ X, Q.stop < P.stop ∧ Q.stop < hi

theorem leads_cons {P : Desc} : Leads (R :: l) lo hi P ↔
    (P = R ∧ lo < R.stop) ∨ (R.stop < P.stop ∧ R.stop < hi ∧ Leads l lo hi P) := by
  constructor
  · rintro ⟨hlo, X, Y, heq, hX⟩
    cases X with
    | nil =>
      cases heq
      exact Or.inl ⟨rfl, hlo⟩
    | cons Q X =>
      cases heq
      obtain ⟨hQ, hX⟩ := List.forall_mem_cons.mp hX
      exact Or.inr ⟨hQ.1, hQ.2, hlo, X, Y, rfl, hX⟩
  · rintro (⟨rfl, hlo⟩ | ⟨hstop, hhi, hlo, X, Y, rfl, hX⟩)
    · exact ⟨hlo, [], l, rfl, by simp⟩
    · exact ⟨hlo, R :: X, Y, rfl, List.forall_mem_cons.mpr ⟨⟨hstop, hhi⟩, hX⟩⟩

theorem leads_skip {P : Desc} (hstop : R.stop ≤ lo) (hlt : lo < hi) :
    Leads (R :: l) lo hi P ↔ Leads l lo hi P := by
  rw [leads_cons]
  constructor
  · rintro (⟨rfl, hlo⟩ | ⟨-, -, h⟩)
    · omega
    · exact h
  · exact fun h => Or.inr ⟨hstop.trans_lt h.1, hstop.trans_lt hlt, h⟩

/-- After a record that ends inside of the range the next ones reach beyond it. -/
theorem leads_take {P : Desc} (hstop : lo < R.stop) (hlt : R.stop < hi) :
    Leads (R :: l) lo hi P ↔ P = R ∨ Leads l R.stop hi P := by
  rw [leads_cons]
  constructor
  · rintro (⟨rfl, -⟩ | ⟨hP, -, -, h⟩)
    · exact Or.inl rfl
    · exact Or.inr ⟨hP, h⟩
  · rintro (rfl | ⟨hP, h⟩)
    · exact Or.inl ⟨rfl, hstop⟩
    · exact Or.inr ⟨hP, hlt, hstop.trans hP, h⟩

theorem leads_last {P : Desc} (hstop : lo < R.stop) (hge : hi ≤ R.stop) :
    Leads (R :: l) lo hi P ↔ P = R := by
  rw [leads_cons]
  constructor
  · rintro (⟨rfl, -⟩ | ⟨-, hlt, -⟩)
    · rfl
    · omega
  · exact fun h => Or.inl ⟨h, hstop⟩

theorem not_leads_nil {P : Desc} : ¬ Leads [] lo hi P := by
  rintro ⟨-, X, Y, heq, -⟩
  simp at heq

/-- A record that starts below the range loses what is from `lo` on. -/
theorem cutOut_eq {P : Desc} (hlo : P.start < lo) (hk : 1 ≤ k) (hup : hi < P.stop → 2 ≤ k) :
    cutOut lo hi (P.start < lo ∧ 0 < k) (hi < P.stop ∧ 1 < k) P x =
      if lo ≤ x ∧ x < min hi P.stop then {P.tag} else 0 := by
  have hiff : (P.Has x ∧ ¬ ((P.start < lo ∧ 0 < k) ∧ x < lo) ∧
      ¬ ((hi < P.stop ∧ 1 < k) ∧ hi ≤ x)) ↔ lo ≤ x ∧ x < min hi P.stop := by
    unfold LockDesc.Has
    omega
  simp only [cutOut, hiff]

theorem cutOut_of_has {P : Desc} {low up : Prop} [Decidable low] [Decidable up]
    (h : P.Has x ∧ ¬ (low ∧ x < lo) ∧ ¬ (up ∧ hi ≤ x)) : cutOut lo hi low up P x = {P.tag} :=
  if_pos h

/-- The own lock `N` starts at `g`. What is before it in the list starts lower. -/
theorem gone_locked {g : Nat} {T : LockType} {N : Desc} {A Z : List Desc} (hT : T ≠ noType)
    (hN : N = ⟨g, hi, T⟩) (hA : ∀ P ∈ A, P.start < g ∧ P.tag ≠ noType) (hg : g ≤ lo)
    (hlt : lo < hi) :
    (∀ x, SameTypes (gone hi x lo k (A ++ N :: Z)) (if lo ≤ x ∧ x < hi then {T} else 0)) ↔
      (∀ P, Leads A lo hi P → P.tag = T ∧ 1 ≤ k ∧ (hi < P.stop → 2 ≤ k)) ∧ (g < lo → 1 ≤ k) := by
  induction A generalizing lo k with
  | nil =>
    have hgone : ∀ x, gone hi x lo k ([] ++ N :: Z) =
        if (g ≤ x ∧ x < hi) ∧ ¬ ((g < lo ∧ 0 < k) ∧ x < lo) then {T} else 0 := by
      intro x
      rw [List.nil_append, hN, gone_take hlt (hg.trans_lt hlt), cutOut]
      simp [LockDesc.Has]
    simp only [hgone, not_leads_nil, false_imp_iff, implies_true, true_and]
    constructor
    · intro h hglo
      by_contra hk
      have hx := h g
      rw [if_pos (by omega), if_neg (by omega), ← add_zero ({T} : Multiset LockType)] at hx
      exact not_sameTypes_zero hT hx
    · intro hk x
      have hiff : ((g ≤ x ∧ x < hi) ∧ ¬ ((g < lo ∧ 0 < k) ∧ x < lo)) ↔ lo ≤ x ∧ x < hi := by
        omega
      simp only [hiff]
      exact sameTypes_refl
  | cons P A ih =>
    obtain ⟨⟨hstart, htag⟩, hA⟩ := List.forall_mem_cons.mp hA
    rw [List.cons_append]
    rcases Nat.lt_or_ge lo P.stop with hstop | hstop
    · have hlo : P.start < lo := hstart.trans_le hg
      have hgone := fun x => gone_take (x := x) (k := k) (l := A ++ N :: Z) hstop (hlo.trans hlt)
      simp only [if_pos hlo] at hgone
      -- Without a native lock the part below `lo` is lost.
      have hkept : (∀ x, SameTypes (gone hi x lo k (P :: (A ++ N :: Z)))
          (if lo ≤ x ∧ x < hi then {T} else 0)) → 1 ≤ k := by
        intro h
        by_contra hk
        have hx := h P.start
        rw [hgone, cutOut_of_has (by unfold LockDesc.Has; omega),
          if_neg (show ¬ (lo ≤ P.start ∧ P.start < hi) by omega)] at hx
        exact not_sameTypes_zero htag hx
      rcases Nat.lt_or_ge P.stop hi with hin | hout
      · simp only [leads_take hstop hin, if_pos hin] at hgone ⊢
        have hcut : 1 ≤ k → ∀ x, gone hi x lo k (P :: (A ++ N :: Z)) =
            (if lo ≤ x ∧ x < P.stop then {P.tag} else 0) +
              gone hi x P.stop k (A ++ N :: Z) := by
          intro hk x
          rw [hgone, cutOut_eq hlo hk (fun hup => by omega), Nat.min_eq_right hin.le,
            Nat.sub_add_cancel hk]
        constructor
        · intro h
          have hk := hkept h
          have htype : P.tag = T := by
            have hx := h lo
            rw [hcut hk, if_pos ⟨Nat.le_refl _, hstop⟩, gone_below hk hstop, add_zero,
              if_pos ⟨Nat.le_refl _, hlt⟩] at hx
            exact sameTypes_singleton.mp hx
          have hrest := (ih (k := k) hA (hg.trans hstop.le) hin).mp fun x => by
            have hx := h x
            rw [hcut hk] at hx
            rcases Nat.lt_or_ge x P.stop with hbelow | habove
            · rw [gone_below hk hbelow, if_neg (by omega)]
              exact sameTypes_refl
            · rw [if_neg (by omega), zero_add] at hx
              simpa only [show (P.stop ≤ x ∧ x < hi) ↔ (lo ≤ x ∧ x < hi) by omega] using hx
          refine ⟨?_, fun _ => hk⟩
          rintro Q (rfl | hQ)
          · exact ⟨htype, hk, fun hup => by omega⟩
          · exact hrest.1 Q hQ
        · rintro ⟨hlead, -⟩ x
          obtain ⟨rfl, hk, -⟩ := hlead P (Or.inl rfl)
          have hx := (ih (k := k) hA (hg.trans hstop.le) hin).mpr
            ⟨fun Q hQ => hlead Q (Or.inr hQ), fun _ => hk⟩ x
          rw [hcut hk]
          rcases Nat.lt_or_ge x P.stop with hbelow | habove
          · rw [gone_below hk hbelow, add_zero]
            simp only [show (lo ≤ x ∧ x < P.stop) ↔ (lo ≤ x ∧ x < hi) by omega]
            exact sameTypes_refl
          · rw [if_neg (by omega), zero_add]
            simpa only [show (P.stop ≤ x ∧ x < hi) ↔ (lo ≤ x ∧ x < hi) by omega] using hx
      · simp only [leads_last hstop hout, if_neg (Nat.not_lt.mpr hout)] at hgone ⊢
        constructor
        · intro h
          refine ⟨?_, fun _ => hkept h⟩
          rintro P rfl
          refine ⟨?_, hkept h, fun hup => ?_⟩
          · have hx := h lo
            rw [hgone, cutOut_of_has (by unfold LockDesc.Has; omega), add_zero,
              if_pos ⟨Nat.le_refl _, hlt⟩] at hx
            exact sameTypes_singleton.mp hx
          · by_contra hk
            have hx := h hi
            rw [hgone, cutOut_of_has (by unfold LockDesc.Has; omega), if_neg (by omega)] at hx
            exact not_sameTypes_zero htag hx
        · rintro ⟨hlead, -⟩ x
          obtain ⟨rfl, hk, hup⟩ := hlead P rfl
          rw [hgone, cutOut_eq hlo hk hup, Nat.min_eq_left hout, add_zero]
          exact sameTypes_refl
    · simp only [gone_skip hstop, leads_skip hstop hlt]
      exact ih hA hg hlt

theorem fits_locked {g : Nat} {N : Desc} {A Z : List Desc} (hN : N.start = g ∧ N.stop = hi)
    (hA : ∀ P ∈ A, P.start < g) (hg : g ≤ lo) (hlt : lo < hi) :
    Fits hi lo f (A ++ N :: Z) ↔
      (∀ P, Leads A lo hi P → 1 ≤ f ∧ (hi < P.stop → 2 ≤ f)) ∧ (g < lo → 1 ≤ f) := by
  induction A generalizing lo f with
  | nil =>
    rw [List.nil_append, fits_take (by omega) (by omega)]
    simp only [not_leads_nil, false_imp_iff, implies_true, true_and]
    constructor
    · rintro ⟨hf, -⟩ hglo
      rw [if_pos (by omega)] at hf
      omega
    · intro hf
      refine ⟨?_, fun hlt => by omega⟩
      rw [if_neg (show ¬ hi < N.stop by omega)]
      split <;> omega
  | cons P A ih =>
    obtain ⟨hstart, hA⟩ := List.forall_mem_cons.mp hA
    rw [List.cons_append]
    rcases Nat.lt_or_ge lo P.stop with hstop | hstop
    · rw [fits_take hstop (by omega), if_pos (show P.start < lo by omega)]
      rcases Nat.lt_or_ge P.stop hi with hin | hout
      · simp only [leads_take hstop hin, if_neg (Nat.not_lt.mpr hin.le), hin, true_imp_iff]
        constructor
        · rintro ⟨hf, hrest⟩
          rw [Nat.sub_add_cancel hf, ih hA (by omega) hin] at hrest
          refine ⟨?_, fun _ => hf⟩
          rintro Q (rfl | hQ)
          · exact ⟨hf, fun hup => by omega⟩
          · exact hrest.1 Q hQ
        · rintro ⟨hlead, -⟩
          have hf := (hlead P (Or.inl rfl)).1
          rw [Nat.sub_add_cancel hf, ih hA (by omega) hin]
          exact ⟨hf, fun Q hQ => hlead Q (Or.inr hQ), fun _ => hf⟩
      · simp only [leads_last hstop hout, forall_eq]
        constructor
        · rintro ⟨hf, -⟩
          refine ⟨⟨by omega, fun hup => ?_⟩, fun _ => by omega⟩
          rw [if_pos hup] at hf
          exact hf
        · rintro ⟨⟨hf, hup⟩, -⟩
          refine ⟨?_, fun hlt => by omega⟩
          split
          · rename_i hlt
            exact hup hlt
          · exact hf
    · rw [fits_skip hstop, ih hA hg hlt]
      simp only [leads_skip hstop hlt]

end Athomux.LockMutex
