import Athomux.LockUlinux.Proofs

/-!
# What `$unlock` takes away

`lock_sub` goes on behind the entry that takes the place of a removed one.
-/

open Lib

namespace Athomux.LockUlinux

variable {l anchor : List Lock} {e new : Lock} {m x : Nat}

instance : Decidable (e.Has x) := inferInstanceAs (Decidable (_ ∧ _))

/-! ## Types at an address -/

/-- The types of the entries of a mandate that cover the address, in the order of the list. -/
def typesAt (m x : Nat) (l : List Lock) : List (Fin 9) :=
  (l.filter fun e => e.mandate = m ∧ e.Has x).map Lock.type

theorem typesAt_cons_pos (hm : e.mandate = m) (hx : e.Has x) :
    typesAt m x (e :: l) = e.type :: typesAt m x l := by
  unfold typesAt
  rw [List.filter_cons_of_pos (by simpa using ⟨hm, hx⟩), List.map_cons]

theorem typesAt_cons_neg (h : ¬ (e.mandate = m ∧ e.Has x)) :
    typesAt m x (e :: l) = typesAt m x l := by
  unfold typesAt
  rw [List.filter_cons_of_neg (by simpa using h)]

/-- Two entries that are alike at the address. -/
theorem typesAt_cons_congr {f : Lock} {l' : List Lock} (hm : e.mandate = f.mandate)
    (ht : e.type = f.type) (hx : e.Has x ↔ f.Has x) (h : typesAt m x l = typesAt m x l') :
    typesAt m x (e :: l) = typesAt m x (f :: l') := by
  by_cases hf : f.mandate = m ∧ f.Has x
  · rw [typesAt_cons_pos hf.1 hf.2, typesAt_cons_pos (hm.trans hf.1) (hx.mpr hf.2), ht, h]
  · rw [typesAt_cons_neg hf, typesAt_cons_neg (by rwa [hm, hx]), h]

theorem typesAt_eq_nil : typesAt m x l = [] ↔ ∀ e ∈ l, e.mandate = m → ¬ e.Has x := by
  unfold typesAt
  rw [List.map_eq_nil_iff, List.filter_eq_nil_iff]
  simp

/-! ## The loop -/

/-- The entry is unlinked: it is an own one that lies in the range. -/
def Unlinked (new e : Lock) : Prop :=
  e.mandate = new.mandate ∧ new.start < e.stop ∧ e.start < new.stop ∧
    new.start ≤ e.start ∧ e.stop ≤ new.stop

instance : Decidable (Unlinked new e) := inferInstanceAs (Decidable (_ ∧ _))

/-- The entries that take the place of an unlinked one. -/
def passedOver (new : Lock) : List Lock → List Lock
  | [] => []
  | elem :: rest =>
    if Unlinked new elem then
      match rest with
      | [] => []
      | elem' :: rest => elem' :: passedOver new rest
    else passedOver new rest

theorem passedOver_cons_neg (h : ¬ Unlinked new e) : passedOver new (e :: l) = passedOver new l := by
  rw [passedOver.eq_def]
  exact if_neg h

/-- Inside of the range, what is left is what was passed over. -/
theorem typesAt_lockSub_inside (hx : new.Has x) :
    typesAt new.mandate x (lockSub new l) = typesAt new.mandate x (passedOver new l) := by
  fun_induction lockSub new l with
  | case1 => rfl
  | case2 elem rest hover hlow lower hup ih =>
    have hnot : ¬ Unlinked new elem := fun h => Nat.not_le_of_lt hlow h.2.2.2.1
    have hlower : ¬ lower.Has x := fun h => Nat.not_lt_of_le hx.1 h.2
    have hupper : ¬ ({ elem with start := new.stop } : Lock).Has x := fun h =>
      Nat.not_le_of_lt hx.2 h.1
    rw [typesAt_cons_neg fun h => hupper h.2, typesAt_cons_neg fun h => hlower h.2,
      passedOver_cons_neg hnot, ih]
  | case3 elem rest hover hlow lower hup ih =>
    have hnot : ¬ Unlinked new elem := fun h => Nat.not_le_of_lt hlow h.2.2.2.1
    have hlower : ¬ lower.Has x := fun h => Nat.not_lt_of_le hx.1 h.2
    rw [typesAt_cons_neg fun h => hlower h.2, passedOver_cons_neg hnot, ih]
  | case4 elem hover hlow hgone =>
    rw [passedOver, if_pos ⟨hover.1, hover.2.1, hover.2.2, Nat.le_of_not_lt hlow, hgone⟩]
  | case5 elem hover hlow hgone elem' rest ih =>
    rw [passedOver, if_pos ⟨hover.1, hover.2.1, hover.2.2, Nat.le_of_not_lt hlow, hgone⟩]
    exact typesAt_cons_congr rfl rfl Iff.rfl ih
  | case6 elem rest hover hlow hgone ih =>
    have hnot : ¬ Unlinked new elem := fun h => hgone h.2.2.2.2
    have hupper : ¬ ({ elem with start := new.stop } : Lock).Has x := fun h =>
      Nat.not_le_of_lt hx.2 h.1
    rw [typesAt_cons_neg fun h => hupper h.2, passedOver_cons_neg hnot, ih]
  | case7 elem rest hover ih =>
    have hnot : ¬ Unlinked new elem := fun h => hover ⟨h.1, h.2.1, h.2.2.1⟩
    have helem : ¬ (elem.mandate = new.mandate ∧ elem.Has x) := fun h =>
      hover ⟨h.1, hx.1.trans_lt h.2.2, h.2.1.trans_lt hx.2⟩
    rw [typesAt_cons_neg helem, passedOver_cons_neg hnot, ih]

/-- Outside of the range nothing changes. -/
theorem typesAt_lockSub_outside (new : Lock) (hrange : new.start ≤ new.stop) (hx : ¬ new.Has x) :
    typesAt new.mandate x (lockSub new l) = typesAt new.mandate x l := by
  have hout : x < new.start ∨ new.stop ≤ x := by
    unfold Lock.Has at hx
    omega
  fun_induction lockSub new l with
  | case1 => rfl
  | case2 elem rest hover hlow lower hup ih =>
    rcases hout with hlt | hge
    · have hupper : ¬ ({ elem with start := new.stop } : Lock).Has x := fun h =>
        Nat.not_lt_of_le (hrange.trans h.1) hlt
      rw [typesAt_cons_neg fun h => hupper h.2]
      refine typesAt_cons_congr rfl rfl ?_ ih
      exact ⟨fun h => ⟨h.1, hlt.trans hover.2.1⟩, fun h => ⟨h.1, hlt⟩⟩
    · have hlower : ¬ lower.Has x := fun h => Nat.not_lt_of_le (hrange.trans hge) h.2
      have hskip : typesAt new.mandate x (lower :: lockSub new rest) = typesAt new.mandate x rest := by
        rw [typesAt_cons_neg fun h => hlower h.2, ih]
      refine typesAt_cons_congr rfl rfl ?_ hskip
      exact ⟨fun h => ⟨hover.2.2.le.trans h.1, h.2⟩, fun h => ⟨hge, h.2⟩⟩
  | case3 elem rest hover hlow lower hup ih =>
    refine typesAt_cons_congr rfl rfl ?_ ih
    constructor
    · intro h
      exact ⟨h.1, Nat.lt_trans h.2 hover.2.1⟩
    · intro h
      refine ⟨h.1, hout.resolve_right fun hge => ?_⟩
      exact hup (hge.trans_lt h.2)
  | case4 elem hover hlow hgone =>
    refine (typesAt_cons_neg fun h => ?_).symm
    have := h.2.1
    have := h.2.2
    omega
  | case5 elem hover hlow hgone elem' rest ih =>
    have helem : ¬ elem.Has x := by
      unfold Lock.Has
      omega
    rw [typesAt_cons_neg fun h => helem h.2]
    exact typesAt_cons_congr rfl rfl Iff.rfl ih
  | case6 elem rest hover hlow hgone ih =>
    refine typesAt_cons_congr rfl rfl ?_ ih
    constructor
    · intro h
      exact ⟨hover.2.2.le.trans h.1, h.2⟩
    · intro h
      refine ⟨hout.resolve_left fun hlt => ?_, h.2⟩
      exact hlow (h.1.trans_lt hlt)
  | case7 elem rest hover ih => exact typesAt_cons_congr rfl rfl Iff.rfl ih

/-- The entries of the other mandates stay. -/
theorem others_lockSub (new : Lock) :
    (lockSub new l).filter (fun e => e.mandate ≠ new.mandate) =
      l.filter fun e => e.mandate ≠ new.mandate := by
  have hdrop (e : Lock) (l : List Lock) (h : e.mandate = new.mandate) :
      (e :: l).filter (fun e => e.mandate ≠ new.mandate) =
        l.filter fun e => e.mandate ≠ new.mandate :=
    List.filter_cons_of_neg (by simpa using h)
  fun_induction lockSub new l with
  | case1 => rfl
  | case2 elem rest hover hlow lower hup ih =>
    rw [hdrop { elem with start := new.stop } _ hover.1, hdrop lower _ hover.1,
      hdrop elem _ hover.1, ih]
  | case3 elem rest hover hlow lower hup ih =>
    rw [hdrop lower _ hover.1, hdrop elem _ hover.1, ih]
  | case4 elem hover hlow hgone => rw [hdrop elem _ hover.1]
  | case5 elem hover hlow hgone elem' rest ih =>
    rw [hdrop elem _ hover.1, List.filter_cons, List.filter_cons, ih]
  | case6 elem rest hover hlow hgone ih =>
    rw [hdrop { elem with start := new.stop } _ hover.1, hdrop elem _ hover.1, ih]
  | case7 elem rest hover ih => rw [List.filter_cons, List.filter_cons, ih]

/-! ## `$unlock` -/

/-- The mandate has nothing in the range any more, and all else is as it was. -/
structure TakenAway (anchor after : List Lock) (m s e : Nat) : Prop where
  gone : ∀ x, s ≤ x → x < e → typesAt m x after = []
  kept : ∀ x, ¬ (s ≤ x ∧ x < e) → typesAt m x after = typesAt m x anchor
  others : (after.filter fun e => e.mandate ≠ m) = anchor.filter fun e => e.mandate ≠ m

/-- **`$unlock` takes away exactly what the mandate has in the range if and only if no entry that is
passed over is one of them.** -/
theorem unlock_takes_iff (anchor : List Lock) (mandate logAddr logLen : Nat)
    (hwrap : logAddr + logLen < addrSpace) :
    TakenAway anchor (unlock anchor mandate logAddr logLen) mandate logAddr (logAddr + logLen) ↔
      ∀ e ∈ passedOver ⟨logAddr, logAddr + logLen, mandate, 0⟩ anchor, e.mandate = mandate →
        ∀ x, logAddr ≤ x → x < logAddr + logLen → ¬ e.Has x := by
  rw [unlock, add64_eq hwrap]
  let new : Lock := ⟨logAddr, logAddr + logLen, mandate, 0⟩
  constructor
  · intro h e he hm x hge hlt
    have hnil := h.gone x hge hlt
    rw [typesAt_lockSub_inside (show new.Has x from ⟨hge, hlt⟩)] at hnil
    exact typesAt_eq_nil.mp hnil e he hm
  · intro h
    refine ⟨fun x hge hlt => ?_, fun x hx => ?_, others_lockSub new⟩
    · rw [typesAt_lockSub_inside (show new.Has x from ⟨hge, hlt⟩)]
      exact typesAt_eq_nil.mpr fun e he hm => h e he hm x hge hlt
    · exact typesAt_lockSub_outside new (Nat.le_add_right _ _) hx

/-- A reader that has become a writer keeps its lock for reading. -/
theorem unlock_passes_over : ¬ ∀ (s : Sys) (mandate logAddr logLen : Nat),
    Reach step Init anyEvent s → logAddr + logLen < addrSpace →
      TakenAway s.anchor (unlock s.anchor mandate logAddr logLen) mandate logAddr
        (logAddr + logLen) := by
  intro h
  have hrun : run step anyEvent ⟨[], []⟩ [.lock ⟨1, 20, 10, .read, .none, .wait⟩,
      .lock ⟨1, 20, 10, .write, .none, .wait⟩] = some ⟨[⟨20, 30, 1, 2⟩, ⟨20, 30, 1, 1⟩], []⟩ := by
    decide
  have hgone := (h _ 1 20 10 ((Reach.start ⟨rfl, rfl⟩).of_run hrun) (by decide)).gone 20 (by decide)
    (by decide)
  exact absurd hgone (by decide)

/-- An entry behind the one that is unlinked is of no harm when the range does not reach it. -/
theorem unlock_takes_iff_behind : TakenAway [⟨20, 30, 1, 2⟩, ⟨40, 50, 1, 1⟩]
    (unlock [⟨20, 30, 1, 2⟩, ⟨40, 50, 1, 1⟩] 1 20 10) 1 20 30 := by
  refine (unlock_takes_iff [⟨20, 30, 1, 2⟩, ⟨40, 50, 1, 1⟩] 1 20 10 (by decide)).mpr ?_
  intro e he _ x _ hlt hx
  obtain rfl : e = ⟨40, 50, 1, 1⟩ := List.mem_singleton.mp he
  have hge : 40 ≤ x := hx.1
  omega

end Athomux.LockUlinux
