import Athomux.NetConnect.Rewire

/-!
# Steps on the connections

A merge drops the hooks of one part of each group, and moves the connections of the others to it.
-/

namespace Athomux.NetConnect

inductive Move
  | unhook (a : Nat)
  | wire (b r : Nat)
  deriving DecidableEq, Repr

/-- The brick that loses its hooks. -/
def Move.addr : Move → Nat
  | .unhook a => a
  | .wire b _ => b

/-- The next element stays in the list. -/
def Move.safe : Move → List GConn → Bool
  | .unhook _, _ => true
  | .wire b r, lc => !collides b r [] lc

def Move.apply : Move → List GConn → List GConn
  | .unhook a, lc => removeHook a lc
  | .wire b r, lc => tidy b r [] lc

def applyAll (ms : List Move) (lc : List GConn) : List GConn := ms.foldl (fun lc m => m.apply lc) lc

def safeAll : List Move → List GConn → Bool
  | [], _ => true
  | m :: ms, lc => m.safe lc && safeAll ms (m.apply lc)

/-- Where the connections of a brick end afterwards. -/
def movedTo : List Move → Nat → Nat
  | [], x => x
  | .unhook _ :: ms, x => movedTo ms x
  | .wire b r :: ms, x => if x = b then r else movedTo ms x

def Wire.image (ms : List Move) (w : Wire) : Wire := (movedTo ms w.1, movedTo ms w.2.1, w.2.2)

def Wire.hooked (ms : List Move) (w : Wire) : Prop := w.1 = 0 ∧ w.2.1 ∈ ms.map Move.addr

/-- The main directory is left alone, and nothing is moved twice. -/
structure Orderly (ms : List Move) : Prop where
  main : ∀ b r, .wire b r ∈ ms → b ≠ 0 ∧ r ≠ 0
  once : ∀ b r, .wire b r ∈ ms → ∀ b' r', .wire b' r' ∈ ms → r ≠ b'

variable {ms : List Move} {m : Move} {lc : List GConn} {w : Wire}

theorem Orderly.tail (h : Orderly (m :: ms)) : Orderly ms where
  main := fun b r hm => h.main b r (List.mem_cons_of_mem _ hm)
  once := fun b r hm b' r' hm' =>
    h.once b r (List.mem_cons_of_mem _ hm) b' r' (List.mem_cons_of_mem _ hm')

theorem movedTo_of_notMem {x : Nat} (h : ∀ r, .wire x r ∉ ms) : movedTo ms x = x := by
  induction ms with
  | nil => rfl
  | cons m ms ih =>
    have htail := ih fun r hr => h r (List.mem_cons_of_mem _ hr)
    cases m with
    | unhook a => exact htail
    | wire b r =>
      have hx : x ≠ b := by
        rintro rfl
        exact h r List.mem_cons_self
      rw [movedTo, if_neg hx, htail]

/-- The redirections one after the other. -/
theorem movedTo_redirect {b r : Nat} (h : Orderly (.wire b r :: ms)) (x : Nat) :
    movedTo ms (redirect b r x) = movedTo (.wire b r :: ms) x := by
  unfold redirect
  rw [movedTo]
  by_cases hx : x = b
  · rw [if_pos hx, if_pos hx]
    refine movedTo_of_notMem fun r' hr' => ?_
    exact h.once b r List.mem_cons_self r r' (List.mem_cons_of_mem _ hr') rfl
  · rw [if_neg hx, if_neg hx]

theorem mem_wires_removeHook {a : Nat} :
    w ∈ wires (removeHook a lc) ↔ w ∈ wires lc ∧ ¬ w.Hook a := by
  simp only [wires, removeHook, List.mem_map, List.mem_filter, Bool.not_eq_true']
  constructor
  · rintro ⟨c, ⟨hc, hhook⟩, rfl⟩
    refine ⟨⟨c, hc, rfl⟩, ?_⟩
    rw [← isHook_iff, hhook]
    exact Bool.false_ne_true
  · rintro ⟨⟨c, hc, rfl⟩, hhook⟩
    rw [← isHook_iff, Bool.not_eq_true] at hhook
    exact ⟨c, ⟨hc, hhook⟩, rfl⟩

theorem mem_wires_apply_wire {b r : Nat} (hbr : b ≠ r) :
    w ∈ wires ((Move.wire b r).apply lc) ↔ ∃ v ∈ wires lc, ¬ v.Hook b ∧ v.rename b r = w := by
  rw [Move.apply, mem_wires_tidy hbr (fun v hv => by cases hv)]
  exact or_iff_right (List.not_mem_nil)

/-- **A wire of the list afterwards** is the image of one that was no hook of the bricks. -/
theorem mem_wires_applyAll (h : Orderly ms) :
    w ∈ wires (applyAll ms lc) ↔ ∃ v ∈ wires lc, ¬ v.hooked ms ∧ v.image ms = w := by
  induction ms generalizing lc with
  | nil =>
    constructor
    · intro hw
      exact ⟨w, hw, fun hhook => List.not_mem_nil hhook.2, rfl⟩
    · rintro ⟨v, hv, -, rfl⟩
      exact hv
  | cons m ms ih =>
    rw [applyAll, List.foldl_cons, ← applyAll, ih h.tail]
    cases m with
    | unhook a =>
      refine exists_congr fun v => ?_
      have hhook : v.hooked (.unhook a :: ms) ↔ v.Hook a ∨ v.hooked ms := by
        simp only [Wire.hooked, Wire.Hook, List.map_cons, List.mem_cons, Move.addr, and_or_left]
      rw [Move.apply, mem_wires_removeHook, hhook, not_or, and_assoc, and_assoc]
      rfl
    | wire b r =>
      have hb := h.main b r List.mem_cons_self
      have hbr : b ≠ r := (h.once b r List.mem_cons_self b r List.mem_cons_self).symm
      constructor
      · rintro ⟨u, hu, hhook, rfl⟩
        obtain ⟨v, hv, hvb, rfl⟩ := (mem_wires_apply_wire hbr).mp hu
        refine ⟨v, hv, ?_, ?_⟩
        · rintro ⟨hsrc, hdst⟩
          rw [List.map_cons, List.mem_cons] at hdst
          rcases hdst with hdst | hdst
          · exact hvb ⟨hsrc, hdst⟩
          · have hne : v.2.1 ≠ b := fun hv' => hvb ⟨hsrc, hv'⟩
            refine hhook ⟨?_, ?_⟩
            · simp [Wire.rename, redirect, hsrc, hb.1.symm]
            · simpa [Wire.rename, redirect, hne] using hdst
        · simp only [Wire.image, Wire.rename, movedTo_redirect h]
      · rintro ⟨v, hv, hhook, rfl⟩
        refine ⟨v.rename b r, ?_, ?_, ?_⟩
        · refine (mem_wires_apply_wire hbr).mpr ⟨v, hv, ?_, rfl⟩
          rintro ⟨hsrc, hdst⟩
          exact hhook ⟨hsrc, hdst ▸ List.mem_cons_self⟩
        · rintro ⟨hsrc, hdst⟩
          have hsrc' : v.1 = 0 := by
            by_contra hne
            simp only [Wire.rename, redirect] at hsrc
            split at hsrc
            · exact hb.2 hsrc
            · exact hne hsrc
          have hdst' : v.2.1 ≠ b := fun hd => hhook ⟨hsrc', hd ▸ List.mem_cons_self⟩
          refine hhook ⟨hsrc', List.mem_cons_of_mem _ ?_⟩
          simpa [Wire.rename, redirect, hdst'] using hdst
        · simp only [Wire.image, Wire.rename, movedTo_redirect h]

theorem nodup_apply (h : (wires lc).Nodup) : (wires (m.apply lc)).Nodup := by
  cases m with
  | unhook a => exact h.sublist (List.filter_sublist.map _)
  | wire b r => exact nodup_tidy nodup_wires_nil

theorem nodup_applyAll (h : (wires lc).Nodup) : (wires (applyAll ms lc)).Nodup := by
  induction ms generalizing lc with
  | nil => exact h
  | cons m ms ih => exact ih (nodup_apply h)

theorem nodup_of_wire {b r : Nat} (h : .wire b r ∈ ms) : (wires (applyAll ms lc)).Nodup := by
  induction ms generalizing lc with
  | nil => cases h
  | cons m ms ih =>
    rcases List.mem_cons.mp h with h | h
    · subst h
      have hfirst : (wires ((Move.wire b r).apply lc)).Nodup := nodup_tidy nodup_wires_nil
      rw [applyAll, List.foldl_cons, ← applyAll]
      exact nodup_applyAll hfirst
    · exact ih h

theorem filter_clear_applyAll {s : List Nat} (haddr : ∀ m ∈ ms, m.addr ∈ s)
    (hto : ∀ b r, .wire b r ∈ ms → r ∈ s)
    (hnd : (∃ b r, .wire b r ∈ ms) → (wires (lc.filter (·.clear s))).Nodup) :
    (applyAll ms lc).filter (·.clear s) = lc.filter (·.clear s) := by
  induction ms generalizing lc with
  | nil => rfl
  | cons m ms ih =>
    have hm : (m.apply lc).filter (·.clear s) = lc.filter (·.clear s) := by
      have hin := haddr m List.mem_cons_self
      cases m with
      | unhook a =>
        rw [Move.apply, removeHook, List.filter_filter]
        refine List.filter_congr fun c _ => ?_
        by_cases hc : c.clear s = true
        · have hhook : c.isHook a = false := not_hook_of_clear hin hc
          rw [hc, hhook]
          rfl
        · rw [Bool.not_eq_true] at hc
          rw [hc, Bool.false_and]
      | wire b r =>
        exact filter_clear_tidy hin (hto b r List.mem_cons_self)
          (hnd ⟨b, r, List.mem_cons_self⟩) fun _ _ _ => rfl
    rw [applyAll, List.foldl_cons, ← applyAll, ih, hm]
    · exact fun m hm => haddr m (List.mem_cons_of_mem _ hm)
    · exact fun b r hm => hto b r (List.mem_cons_of_mem _ hm)
    · rintro ⟨b, r, hw⟩
      rw [hm]
      exact hnd ⟨b, r, List.mem_cons_of_mem _ hw⟩

theorem applyAll_append (ms ms' : List Move) (lc : List GConn) :
    applyAll (ms ++ ms') lc = applyAll ms' (applyAll ms lc) := List.foldl_append

theorem safeAll_append (ms ms' : List Move) (lc : List GConn) :
    safeAll (ms ++ ms') lc = (safeAll ms lc && safeAll ms' (applyAll ms lc)) := by
  induction ms generalizing lc with
  | nil => rfl
  | cons m ms ih =>
    rw [List.cons_append, safeAll, safeAll, ih, Bool.and_assoc]
    rfl

end Athomux.NetConnect
