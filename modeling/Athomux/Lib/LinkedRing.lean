import Mathlib.Data.List.Cycle

/-!
# Doubly linked rings

An element of a ring points at the next one, which points back. What is done to the links is given
by the two functions afterwards.
-/

namespace Lib

variable {α : Type} {next prev next' prev' : α → α} {s e : α} {l : List α}

/-- Each element points at the one behind it, and that one points back. -/
def LinkedRing (next prev : α → α) (c : Cycle α) : Prop := c.Chain fun x y => next x = y ∧ prev y = x

namespace LinkedRing

theorem nil : LinkedRing next prev Cycle.nil := Cycle.Chain.nil _

theorem singleton_iff : LinkedRing next prev ([s] : List α) ↔ next s = s ∧ prev s = s :=
  Cycle.chain_singleton _ s

theorem cons_iff : LinkedRing next prev (s :: l : List α) ↔
    List.IsChain (fun x y => next x = y ∧ prev y = x) (s :: (l ++ [s])) := Iff.rfl

/-- A ring is a matter of its own links. -/
theorem congr {c : Cycle α} (h : LinkedRing next prev c)
    (hn : ∀ x ∈ c, next' x = next x) (hp : ∀ x ∈ c, prev' x = prev x) : LinkedRing next' prev' c := by
  induction c with
  | nil => exact nil
  | cons s l =>
    refine List.IsChain.imp_of_mem_imp ?_ (cons_iff.mp h)
    rintro x y hx hy ⟨hxy, hyx⟩
    have hmem (z : α) (hz : z ∈ s :: (l ++ [s])) : z ∈ ((s :: l : List α) : Cycle α) := by
      simp only [List.mem_cons, List.mem_append, List.not_mem_nil, or_false, Cycle.mem_coe_iff] at hz ⊢
      tauto
    exact ⟨(hn x (hmem x hx)).trans hxy, (hp y (hmem y hy)).trans hyx⟩

theorem next_head (h : LinkedRing next prev (s :: l : List α)) :
    next s = (l ++ [s]).head (by simp) := by
  cases l with
  | nil => exact (singleton_iff.mp h).1
  | cons y t => exact (List.isChain_cons_cons.mp (cons_iff.mp h)).1.1

theorem next_mem (h : LinkedRing next prev (s :: l : List α)) : next s ∈ s :: l := by
  have hmem : next s ∈ l ++ [s] := by
    rw [next_head h]
    exact List.head_mem _
  exact (List.perm_append_singleton s l).mem_iff.mp hmem

/-- What the links lead to from `s` on. -/
theorem of_next {P : α → Prop} (h : LinkedRing next prev (s :: l : List α)) (hs : P s)
    (hP : ∀ x, P x → P (next x)) : ∀ x ∈ s :: l, P x := by
  intro x hx
  refine (cons_iff.mp h).induction P _ (fun y z hyz hy => hyz.1 ▸ hP y hy) (fun _ => hs) x ?_
  exact List.mem_append_left [s] hx

theorem prev_mem (h : LinkedRing next prev (s :: l : List α)) : prev s ∈ s :: l := by
  obtain ⟨-, -, hlast⟩ := List.isChain_append.mp
    (show List.IsChain _ ((s :: l) ++ [s]) from cons_iff.mp h)
  have hx := hlast _ (List.getLast?_eq_some_getLast (List.cons_ne_nil s l)) s (by simp)
  rw [hx.2]
  exact List.getLast_mem _

variable [DecidableEq α]

/-- The links when `e` is put behind `s`. -/
theorem insertAfter (h : LinkedRing next prev (s :: l : List α)) (hs : s ∉ l) (he : e ∉ s :: l) :
    LinkedRing (Function.update (Function.update next s e) e (next s))
      (Function.update (Function.update prev e s) (next s) e) (s :: e :: l : List α) := by
  have hes : e ≠ s := fun h => he (h ▸ List.mem_cons_self)
  have hel : e ∉ l := fun h => he (List.mem_cons_of_mem _ h)
  cases l with
  | nil =>
    obtain ⟨hn, hp⟩ := singleton_iff.mp h
    rw [cons_iff, hn]
    simp [List.isChain_cons_cons, hes, hes.symm]
  | cons y t =>
    rw [cons_iff] at h ⊢
    obtain ⟨⟨hn, hp⟩, hrest⟩ := List.isChain_cons_cons.mp h
    have hys : s ≠ y := fun h => hs (h ▸ List.mem_cons_self)
    have hey : e ≠ y := fun h => hel (h ▸ List.mem_cons_self)
    obtain ⟨hchain, -, hlast⟩ := List.isChain_append.mp (show List.IsChain _ ((y :: t) ++ [s]) from hrest)
    rw [hn]
    refine List.isChain_cons_cons.mpr ⟨⟨?_, ?_⟩, List.isChain_cons_cons.mpr ⟨⟨?_, ?_⟩, ?_⟩⟩
    · rw [Function.update_of_ne hes.symm, Function.update_self]
    · rw [Function.update_of_ne hey, Function.update_self]
    · rw [Function.update_self]
    · rw [Function.update_self]
    · change List.IsChain _ ((y :: t) ++ [s])
      refine List.isChain_append.mpr ⟨?_, List.isChain_singleton _, ?_⟩
      · refine List.IsChain.imp_of_mem_imp ?_ hchain
        rintro a b ha hb ⟨hab, hba⟩
        have has : a ≠ s := fun h => hs (h ▸ ha)
        have hby : b ≠ y := fun h => has (by rw [← hba, h, hp])
        have hae : a ≠ e := fun h => hel (h ▸ ha)
        have hbe : b ≠ e := fun h => hel (h ▸ hb)
        rw [Function.update_of_ne hae, Function.update_of_ne has, Function.update_of_ne hby,
          Function.update_of_ne hbe]
        exact ⟨hab, hba⟩
      · intro a ha b hb
        obtain ⟨hab, hba⟩ := hlast a ha b hb
        obtain rfl : s = b := by simpa using hb
        have hmem : a ∈ y :: t := List.mem_of_mem_getLast? ha
        have hae : a ≠ e := fun h => hel (h ▸ hmem)
        have has : a ≠ s := fun h => hs (h ▸ hmem)
        rw [Function.update_of_ne hae, Function.update_of_ne has, Function.update_of_ne hys,
          Function.update_of_ne hes.symm]
        exact ⟨hab, hba⟩

/-- The links when `e` is put before `s`. -/
theorem insertBefore (h : LinkedRing next prev (s :: l : List α)) (hnodup : (s :: l).Nodup)
    (he : e ∉ s :: l) :
    LinkedRing (Function.update (Function.update next (prev s) e) e s)
      (Function.update (Function.update prev e (prev s)) s e) (e :: s :: l : List α) := by
  rcases List.eq_nil_or_concat l with rfl | ⟨t, p, rfl⟩
  · have hps := (singleton_iff.mp h).2
    have hns := (singleton_iff.mp h).1
    have hins := insertAfter h (by simp) he
    rw [hns] at hins
    rw [hps, Cycle.coe_cons_eq_coe_append]
    exact hins
  · rw [List.concat_eq_append] at h hnodup he ⊢
    have hrot : ((s :: (t ++ [p]) : List α) : Cycle α) = (p :: s :: t : List α) :=
      (Cycle.coe_cons_eq_coe_append (s :: t) p).symm
    rw [hrot] at h
    obtain ⟨⟨hn, hp⟩, -⟩ := List.isChain_cons_cons.mp (cons_iff.mp h)
    have hnot : p ∉ s :: t := by
      have : (s :: t ++ [p]).Nodup := hnodup
      exact fun hp => (List.disjoint_of_nodup_append this) hp (List.mem_singleton_self p)
    have hins := insertAfter h hnot (fun hmem => he (by
      simp only [List.mem_cons, List.mem_append, List.not_mem_nil, or_false] at hmem ⊢
      tauto))
    rw [hn] at hins
    rw [hp]
    have hrot' : ((e :: s :: (t ++ [p]) : List α) : Cycle α) = (p :: e :: s :: t : List α) :=
      (Cycle.coe_cons_eq_coe_append (e :: s :: t) p).symm
    rw [hrot']
    exact hins

/-- The links when `e` is taken out. -/
theorem remove (h : LinkedRing next prev (e :: l : List α)) (he : e ∉ l) :
    LinkedRing (Function.update next (prev e) (next e)) (Function.update prev (next e) (prev e)) l := by
  cases l with
  | nil => exact nil
  | cons y t =>
    rw [cons_iff] at h ⊢
    obtain ⟨⟨hn, hp⟩, hrest⟩ := List.isChain_cons_cons.mp h
    obtain ⟨hchain, -, hlast⟩ := List.isChain_append.mp (show List.IsChain _ ((y :: t) ++ [e]) from hrest)
    have hx := hlast _ (List.getLast?_eq_some_getLast (List.cons_ne_nil y t)) e (by simp)
    have hprev : prev e = (y :: t).getLast (List.cons_ne_nil y t) := hx.2
    rw [hn, hprev, ← List.cons_append]
    refine List.isChain_append.mpr ⟨?_, List.isChain_singleton _, ?_⟩
    · refine List.IsChain.imp_of_mem_imp ?_ hchain
      rintro a b ha hb ⟨hab, hba⟩
      have hax : a ≠ (y :: t).getLast (List.cons_ne_nil y t) := fun h => he (by
        rw [← hx.1, ← h, hab]
        exact hb)
      have hby : b ≠ y := by
        rintro rfl
        exact he (hp ▸ hba ▸ ha)
      rw [Function.update_of_ne hax, Function.update_of_ne hby]
      exact ⟨hab, hba⟩
    · intro a ha b hb
      rw [List.getLast?_eq_some_getLast (List.cons_ne_nil y t)] at ha
      obtain rfl : y = b := by simpa using hb
      obtain rfl := Option.some.inj ha
      rw [Function.update_self, Function.update_self]
      exact ⟨rfl, rfl⟩

end LinkedRing

end Lib
