import Mathlib.Data.Set.Basic
import Mathlib.Logic.Function.Basic

/-!
# Computations with a footprint

A store has a value at every address. A computation stays in a set of addresses when it changes
nothing outside and when what is outside makes no difference to it. Parties whose computations stay in
disjoint sets do not notice each other.
-/

namespace Lib

variable {Addr Val α β ι Op Res : Type}

/-- What a computation returns, and what it does, is a matter of the addresses in `W` alone. -/
structure StaysIn (W : Set Addr) (x : StateM (Addr → Val) α) : Prop where
  frame : ∀ s, ∀ a ∉ W, (x s).2 a = s a
  result : ∀ s t, (∀ a ∈ W, s a = t a) → (x s).1 = (x t).1
  effect : ∀ s t, (∀ a ∈ W, s a = t a) → ∀ a ∈ W, (x s).2 a = (x t).2 a

namespace StaysIn

variable {W : Set Addr} {x : StateM (Addr → Val) α}

theorem mono {V : Set Addr} (h : StaysIn W x) (hle : W ⊆ V) : StaysIn V x where
  frame s a ha := h.frame s a fun hW => ha (hle hW)
  result s t hst := h.result s t fun a ha => hst a (hle ha)
  effect s t hst a ha := by
    by_cases hW : a ∈ W
    · exact h.effect s t (fun b hb => hst b (hle hb)) a hW
    · rw [h.frame s a hW, h.frame t a hW, hst a ha]

theorem pure (a : α) : StaysIn W (pure a : StateM (Addr → Val) α) :=
  ⟨fun _ _ _ => rfl, fun _ _ _ => rfl, fun _ _ h => h⟩

theorem bind {f : α → StateM (Addr → Val) β} (hx : StaysIn W x) (hf : ∀ a, StaysIn W (f a)) :
    StaysIn W (x >>= f) where
  frame s a ha := ((hf _).frame _ a ha).trans (hx.frame s a ha)
  result s t h := by
    change (f (x s).1 (x s).2).1 = (f (x t).1 (x t).2).1
    rw [hx.result s t h]
    exact (hf _).result _ _ (hx.effect s t h)
  effect s t h := by
    change ∀ a ∈ W, (f (x s).1 (x s).2).2 a = (f (x t).1 (x t).2).2 a
    rw [hx.result s t h]
    exact (hf _).effect _ _ (hx.effect s t h)

/-- Other addresses may change meanwhile. -/
theorem of_disjoint {V : Set Addr} (h : StaysIn W x) (hdisj : ∀ a ∈ W, a ∉ V) (s : Addr → Val) :
    ∀ a ∈ V, (x s).2 a = s a :=
  fun a ha => h.frame s a fun hW => hdisj a hW ha

end StaysIn

/-! ## Parties -/

/-- What every operation of a run returns. -/
def results (exec : ι × Op → StateM (Addr → Val) Res) : (Addr → Val) → List (ι × Op) → List (ι × Res)
  | _, [] => []
  | s, r :: rs => (r.1, (exec r s).1) :: results exec (exec r s).2 rs

variable [DecidableEq ι] {exec : ι × Op → StateM (Addr → Val) Res} {W : ι → Set Addr}

/-- A party gets what it would get if it were alone. -/
theorem results_alone (hdisj : ∀ i j, i ≠ j → ∀ a ∈ W i, a ∉ W j) (i : ι) {rs : List (ι × Op)}
    (hstay : ∀ r ∈ rs, StaysIn (W r.1) (exec r)) {s t : Addr → Val} (hst : ∀ a ∈ W i, s a = t a) :
    (results exec s rs).filter (fun r => r.1 = i) = results exec t (rs.filter fun r => r.1 = i) := by
  induction rs generalizing s t with
  | nil => rfl
  | cons r rs ih =>
    have hr := hstay r List.mem_cons_self
    have hrs := fun r' hr' => hstay r' (List.mem_cons_of_mem _ hr')
    by_cases hi : r.1 = i
    · have hW : ∀ a ∈ W r.1, s a = t a := by rwa [hi]
      have hnext : ∀ a ∈ W i, (exec r s).2 a = (exec r t).2 a := by
        rw [← hi]
        exact hr.effect s t hW
      simp only [results, List.filter_cons, hi, decide_true, if_true]
      rw [ih hrs hnext, hr.result s t hW]
    · have hnext : ∀ a ∈ W i, (exec r s).2 a = t a := fun a ha =>
        (hr.of_disjoint (hdisj r.1 i hi) s a ha).trans (hst a ha)
      simp only [results, List.filter_cons, hi, decide_false, Bool.false_eq_true, if_false]
      exact ih hrs hnext

/-- Two runs with the same operations of a party have the same results for it. -/
theorem results_congr (hdisj : ∀ i j, i ≠ j → ∀ a ∈ W i, a ∉ W j) (i : ι) {rs ts : List (ι × Op)}
    (hrs : ∀ r ∈ rs, StaysIn (W r.1) (exec r)) (hts : ∀ r ∈ ts, StaysIn (W r.1) (exec r))
    (h : rs.filter (fun r => r.1 = i) = ts.filter fun r => r.1 = i) {s t : Addr → Val}
    (hst : ∀ a ∈ W i, s a = t a) :
    (results exec s rs).filter (fun r => r.1 = i) = (results exec t ts).filter fun r => r.1 = i := by
  rw [results_alone hdisj i hrs hst, results_alone hdisj i hts fun _ _ => rfl, h]

end Lib
