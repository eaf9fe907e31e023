import Mathlib.Data.List.Count
import Mathlib.Data.List.Perm.Basic

/-!
# Taking turns

A queue of elements that have turns, the next one first. Who has a turn goes to the end, and those
that are skipped go before it. The element `home` never leaves, and who joins goes behind it.
-/

namespace Lib.RoundRobin

variable {α : Type} {home last t u r x : α} {n : Nat} {ok : α → Prop}
  {skip rest l xs ys : List α}

/-! ## The order -/

/-- `u` comes before `t`. -/
def Before (u t : α) (l : List α) : Prop := [u, t].Sublist l

theorem Before.mem_left (h : Before u t l) : u ∈ l := h.subset (by simp)

theorem Before.mem_right (h : Before u t l) : t ∈ l := h.subset (by simp)

theorem before_cons : Before u t (x :: l) ↔ Before u t l ∨ u = x ∧ t ∈ l := by
  rw [Before, List.cons_sublist_cons', List.singleton_sublist]
  rfl

theorem Before.ne (h : Before u t l) (hnd : l.Nodup) : u ≠ t := by
  have := hnd.sublist h
  simpa using this

theorem Before.asymm (h : Before u t l) (hnd : l.Nodup) : ¬ Before t u l := by
  intro h'
  have hne := h.ne hnd
  induction l with
  | nil => cases h
  | cons x l ih =>
    obtain ⟨hx, hl⟩ := List.nodup_cons.mp hnd
    rcases before_cons.mp h with h | ⟨rfl, ht⟩ <;> rcases before_cons.mp h' with h' | ⟨heq, hu⟩
    · exact ih h hl h'
    · exact hx (heq ▸ h.mem_right)
    · exact hx h'.mem_right
    · exact hne heq.symm

/-- Of two one is before the other. -/
theorem before_or (hu : u ∈ l) (ht : t ∈ l) (hne : u ≠ t) : Before u t l ∨ Before t u l := by
  induction l with
  | nil => cases hu
  | cons x l ih =>
    rw [before_cons, before_cons]
    rcases List.mem_cons.mp hu with rfl | hu' <;> rcases List.mem_cons.mp ht with rfl | ht'
    · exact absurd rfl hne
    · exact Or.inl (Or.inr ⟨rfl, ht'⟩)
    · exact Or.inr (Or.inr ⟨rfl, hu'⟩)
    · exact (ih hu' ht').imp Or.inl Or.inl

theorem before_append (hu : u ∈ xs) (ht : t ∈ ys) : Before u t (xs ++ ys) :=
  (List.singleton_sublist.mpr hu).append (List.singleton_sublist.mpr ht)

/-- The order is that of a larger list. -/
theorem Before.of_sublist {l' : List α} (h : Before u t l) (hsub : l'.Sublist l) (hnd : l.Nodup)
    (hu : u ∈ l') (ht : t ∈ l') : Before u t l' :=
  (before_or hu ht (h.ne hnd)).resolve_right fun h' => h.asymm hnd (h'.trans hsub)

/-! ## Turns -/

/-- Who has had the last turn, and the queue. -/
structure Queue (α : Type) where
  last : α
  list : List α

variable [DecidableEq α] {q q' : Queue α}

instance (u t : α) (l : List α) : Decidable (Before u t l) := inferInstanceAs (Decidable ([u, t].Sublist l))

/-- One step, and who has a turn in it. `ok` says who may have one. -/
inductive Step (home : α) (ok : α → Prop) : Queue α → Option α → Queue α → Prop
  | turn {last r : α} {skip rest : List α} : ok r → (∀ x ∈ skip, ¬ ok x) →
      Step home ok ⟨last, skip ++ r :: rest⟩ (some r) ⟨r, rest ++ skip ++ [r]⟩
  | joinFirst {x : α} {list : List α} : x ∉ list →
      Step home ok ⟨home, list⟩ none ⟨home, x :: list⟩
  | join {last x : α} {xs ys : List α} : last ≠ home → x ∉ xs ++ home :: ys →
      Step home ok ⟨last, xs ++ home :: ys⟩ none ⟨last, xs ++ home :: x :: ys⟩
  | leave {last x : α} {list : List α} : x ≠ home →
      Step home ok ⟨last, list⟩ none ⟨last, list.erase x⟩
  | stay {q : Queue α} : Step home ok q none q

/-- Who has had the last turn is at the end, if it is still there. -/
structure Valid (home : α) (n : Nat) (q : Queue α) : Prop where
  nodup : q.list.Nodup
  home : home ∈ q.list
  length : q.list.length ≤ n
  last : q.last ∈ q.list → q.list.getLast? = some q.last

/-- Nobody who stays overtakes anybody else who stays, unless it has a turn. -/
theorem Step.before_none (h : Step home ok q none q') (hnd : q.list.Nodup) (hb : Before u t q.list)
    (hu : u ∈ q'.list) (ht : t ∈ q'.list) : Before u t q'.list := by
  cases h with
  | joinFirst hx => exact before_cons.mpr (Or.inl hb)
  | join _ hx =>
    refine hb.trans ?_
    exact (List.sublist_cons_self _ _).cons_cons home |>.append_left _
  | leave hx => exact hb.of_sublist List.erase_sublist hnd hu ht
  | stay => exact hb

omit [DecidableEq α] in
theorem before_turn (hb : Before u t (skip ++ r :: rest)) (hu : u ∉ skip) (hne : u ≠ r) :
    Before u t rest := by
  induction skip with
  | nil => exact (before_cons.mp hb).resolve_right fun h => hne h.1
  | cons x skip ih =>
    rw [List.mem_cons, not_or] at hu
    exact ih ((before_cons.mp hb).resolve_right fun h => hu.1 h.1) hu.2

/-- Who is before somebody else that may have a turn has it first. -/
theorem Step.before_some (h : Step home ok q (some r) q') (hnd : q.list.Nodup)
    (hb : Before u t q.list) (hu : ok u) (ht : ok t) :
    r ≠ t ∧ (r = u → Before t u q'.list) ∧ (r ≠ u → Before u t q'.list) := by
  cases h with
  | turn hr hskip =>
    rename_i last skip rest
    have hus : u ∉ skip := fun hmem => hskip u hmem hu
    have hts : t ∉ skip := fun hmem => hskip t hmem ht
    have hrest : u ≠ r → Before u t rest := before_turn hb hus
    refine ⟨?_, ?_, ?_⟩
    · rintro rfl
      have hnd' := (List.nodup_append.mp hnd).2.1
      exact (List.nodup_cons.mp hnd').1 (hrest (hb.ne hnd)).mem_right
    · rintro rfl
      have htr : t ∈ rest := by
        have := hb.mem_right
        simp only [List.mem_append, List.mem_cons] at this
        exact (this.resolve_left hts).resolve_left (hb.ne hnd).symm
      exact before_append (List.mem_append_left _ htr) (List.mem_singleton_self _)
    · intro hne
      exact (hrest (Ne.symm hne)).trans
        ((List.sublist_append_left _ _).trans (List.sublist_append_left _ _))

/-! ## Rounds -/

/-- Steps in which the elements of `stay` always may have turns, and who has had one. -/
inductive Steps (home : α) (n : Nat) (stay : α → Prop) : Queue α → List α → Queue α → Prop
  | refl {q : Queue α} : Valid home n q → (∀ x, stay x → x ∈ q.list) → Steps home n stay q [] q
  | step {q q' q'' : Queue α} {l : List α} {r : Option α} {ok : α → Prop} :
      Steps home n stay q l q' → (∀ x, stay x → ok x) → Step home ok q' r q'' → Valid home n q'' →
      (∀ x, stay x → x ∈ q''.list) → Steps home n stay q (l ++ r.toList) q''

variable {stay : α → Prop}

theorem Steps.valid (h : Steps home n stay q l q') : Valid home n q' := by
  cases h with
  | refl hv => exact hv
  | step _ _ _ hv => exact hv

theorem Steps.mem (h : Steps home n stay q l q') (hx : stay x) : x ∈ q'.list := by
  cases h with
  | refl _ hmem => exact hmem x hx
  | step _ _ _ _ hmem => exact hmem x hx

/-- Between two turns of `t` any other one that stays has one turn. -/
theorem Steps.count (h : Steps home n stay q l q') (hu : stay u) (ht : stay t)
    (hb : Before u t q.list) (hnot : t ∉ l) :
    (Before u t q'.list ∧ l.count u = 0) ∨ (Before t u q'.list ∧ l.count u = 1) := by
  induction h with
  | refl => exact Or.inl ⟨hb, rfl⟩
  | @step q' q'' l r ok hs hok hstep hv hmem ih =>
    have hnd := hs.valid.nodup
    rw [List.mem_append, not_or] at hnot
    have ih := ih hnot.1
    cases r with
    | none =>
      rw [Option.toList_none, List.append_nil]
      exact ih.imp (fun h => ⟨hstep.before_none hnd h.1 (hmem u hu) (hmem t ht), h.2⟩)
        fun h => ⟨hstep.before_none hnd h.1 (hmem t ht) (hmem u hu), h.2⟩
    | some r =>
      rw [Option.toList_some, List.count_append]
      have hrt : r ≠ t := by
        rintro rfl
        exact hnot.2 (by simp)
      rcases ih with ⟨hbut, hcount⟩ | ⟨hbtu, hcount⟩
      · obtain ⟨-, heq, hne⟩ := hstep.before_some hnd hbut (hok u hu) (hok t ht)
        by_cases hru : r = u
        · right
          exact ⟨heq hru, by simp [hcount, hru]⟩
        · left
          exact ⟨hne hru, by simp [hcount, hru]⟩
      · obtain ⟨hru, -, hne⟩ := hstep.before_some hnd hbtu (hok t ht) (hok u hu)
        right
        exact ⟨hne hrt, by simp [hcount, hru]⟩

/-! ## Waiting for a turn -/

omit [DecidableEq α] in
theorem before_getLast (hl : l.getLast? = some home) (ht : t ∈ l) (hne : t ≠ home) :
    Before t home l := by
  obtain ⟨ys, rfl⟩ := List.getLast?_eq_some_iff.mp hl
  refine before_append ?_ (List.mem_singleton_self _)
  rcases List.mem_append.mp ht with h | h
  · exact h
  · exact absurd (List.mem_singleton.mp h) hne

theorem idxOf_erase_le (hne : t ≠ x) : (l.erase x).idxOf t ≤ l.idxOf t := by
  induction l with
  | nil => simp
  | cons y l ih =>
    by_cases hyx : y = x
    · rw [hyx, List.erase_cons_head, List.idxOf_cons_ne _ hne.symm]
      exact Nat.le_succ _
    · rw [List.erase_cons_tail (by simpa using hyx)]
      by_cases hyt : y = t
      · simp [hyt]
      · rw [List.idxOf_cons_ne _ hyt, List.idxOf_cons_ne _ hyt]
        exact Nat.succ_le_succ ih

/-- A bound for the turns before that of `t`: who joins comes behind `home`, so that no more than a
whole queue comes after its turn. -/
def wait (home t : α) (n : Nat) (q : Queue α) : Nat :=
  if q.last = home then n + 1
  else if Before home t q.list then n + 2 + q.list.idxOf home
  else q.list.idxOf t

omit [DecidableEq α] in
theorem perm_turn (skip rest : List α) (r : α) :
    (skip ++ r :: rest).Perm (rest ++ skip ++ [r]) :=
  List.perm_append_comm.trans (List.perm_append_singleton r (rest ++ skip)).symm

/-- A turn of another one makes the waiting shorter. -/
theorem wait_turn (hnd : (skip ++ r :: rest).Nodup) (hhome : home ∈ skip ++ r :: rest)
    (hlen : (skip ++ r :: rest).length ≤ n)
    (hlast : last = home → (skip ++ r :: rest).getLast? = some home) (ht : t ∈ rest) :
    wait home t n ⟨r, rest ++ skip ++ [r]⟩ < wait home t n ⟨last, skip ++ r :: rest⟩ := by
  have hnd' : (rest ++ skip ++ [r]).Nodup := (perm_turn skip rest r).nodup_iff.mp hnd
  have htr : t ≠ r := by
    rintro rfl
    exact (List.nodup_cons.mp (List.nodup_append.mp hnd).2.1).1 ht
  have hts : t ∉ skip := fun h =>
    (List.nodup_append.mp hnd).2.2 t h t (List.mem_cons_of_mem _ ht) rfl
  have hidx' : (rest ++ skip ++ [r]).idxOf t = rest.idxOf t := by
    rw [List.append_assoc, List.idxOf_append, if_pos ht]
  have hidx : (skip ++ r :: rest).idxOf t = rest.idxOf t + 1 + skip.length := by
    rw [List.idxOf_append, if_neg hts, List.idxOf_cons_ne _ htr.symm]
  have hltn : rest.idxOf t + 1 + skip.length ≤ n := by
    have := List.idxOf_lt_length_of_mem ht
    simp only [List.length_append, List.length_cons] at hlen
    omega
  -- If `t` is before `home` in the new queue, its place counts.
  have hafter : r ≠ home → ¬ Before home t (rest ++ skip ++ [r]) →
      wait home t n ⟨r, rest ++ skip ++ [r]⟩ = rest.idxOf t := by
    intro hr hb
    rw [wait, if_neg hr, if_neg hb, hidx']
  have hsub : ∀ {a b : α}, Before a b (rest ++ skip) → ¬ Before b a (rest ++ skip ++ [r]) := by
    intro a b h
    have h' : Before a b (rest ++ skip ++ [r]) := h.trans (List.sublist_append_left _ _)
    exact h'.asymm hnd'
  by_cases hl : last = home
  · have hend := hlast hl
    have hrest : rest.getLast? = some home := by
      rw [List.getLast?_append_of_ne_nil _ (List.cons_ne_nil _ _)] at hend
      rwa [List.getLast?_cons_of_ne_nil (List.ne_nil_of_mem ht)] at hend
    have hr : r ≠ home := by
      rintro rfl
      exact (List.nodup_cons.mp (List.nodup_append.mp hnd).2.1).1 (List.mem_of_getLast? hrest)
    have hb : ¬ Before home t (rest ++ skip ++ [r]) := by
      by_cases hth : t = home
      · intro hb
        exact hb.ne hnd' hth.symm
      · exact hsub ((before_getLast hrest ht hth).trans (List.sublist_append_left _ _))
    rw [hafter hr hb, wait, if_pos hl]
    omega
  · by_cases hb : Before home t (skip ++ r :: rest)
    · have hwait : wait home t n ⟨last, skip ++ r :: rest⟩ =
          n + 2 + (skip ++ r :: rest).idxOf home := by
        rw [wait, if_neg hl, if_pos hb]
      rw [hwait]
      by_cases hr : r = home
      · rw [wait, if_pos hr]
        omega
      · by_cases hskip : home ∈ skip
        · rw [hafter hr (hsub (before_append ht hskip))]
          omega
        · have hrest := before_turn hb hskip (Ne.symm hr)
          have hb' : Before home t (rest ++ skip ++ [r]) :=
            hrest.trans ((List.sublist_append_left _ _).trans (List.sublist_append_left _ _))
          rw [wait, if_neg hr, if_pos hb', List.append_assoc, List.idxOf_append,
            if_pos hrest.mem_left, List.idxOf_append, if_neg hskip, List.idxOf_cons_ne _ hr]
          omega
    · have hr : r ≠ home := by
        rintro rfl
        exact hb ((before_cons.mpr (Or.inr ⟨rfl, ht⟩)).trans (List.sublist_append_right _ _))
      have hb' : ¬ Before home t (rest ++ skip ++ [r]) := by
        by_cases hth : t = home
        · intro hb
          exact hb.ne hnd' hth.symm
        · apply hsub
          simp only [List.mem_append, List.mem_cons] at hhome
          rcases hhome with h | h | h
          · exact before_append ht h
          · exact absurd h.symm hr
          · refine ((before_or ht h hth).resolve_right fun h' => hb ?_).trans
              (List.sublist_append_left _ _)
            exact (h'.cons r).trans (List.sublist_append_right _ _)
      rw [hafter hr hb', wait, if_neg hl, if_neg hb, hidx]
      omega

/-- The other steps do not make it longer. -/
theorem Step.wait_none (h : Step home ok q none q') (hv : Valid home n q) (hv' : Valid home n q')
    (ht : t ∈ q.list) (ht' : t ∈ q'.list) : wait home t n q' ≤ wait home t n q := by
  have hbefore : Before home t q'.list ↔ Before home t q.list := by
    refine ⟨fun hb => ?_, fun hb => h.before_none hv.nodup hb hv'.home ht'⟩
    refine (before_or hv.home ht (hb.ne hv'.nodup)).resolve_right fun hno => ?_
    exact hb.asymm hv'.nodup (h.before_none hv.nodup hno ht' hv'.home)
  have hlast : q'.last = q.last := by cases h <;> rfl
  unfold wait
  rw [hlast]
  split
  · exact Nat.le_refl _
  · rename_i hne
    simp only [hbefore]
    have hidx : ∀ {a}, a ∈ q.list → a ∈ q'.list → a = home ∨ ¬ Before home a q.list →
        q'.list.idxOf a ≤ q.list.idxOf a := by
      intro a ha ha' hor
      cases h with
      | joinFirst => exact absurd rfl hne
      | @join last x xs ys hl hx =>
        rw [List.idxOf_append, List.idxOf_append]
        split
        · exact Nat.le_refl _
        · rename_i hxs
          have hah : a = home := by
            by_contra hno
            have hys : a ∈ ys := by
              simp only [List.mem_append, List.mem_cons] at ha
              exact (ha.resolve_left hxs).resolve_left hno
            exact hor.resolve_left hno
              ((before_cons.mpr (Or.inr ⟨rfl, hys⟩)).trans (List.sublist_append_right _ _))
          simp only [hah, List.idxOf_cons_self, Nat.le_refl]
      | leave hx =>
        refine idxOf_erase_le ?_
        rintro rfl
        exact hv.nodup.not_mem_erase ha'
      | stay => exact Nat.le_refl _
    split
    · exact Nat.add_le_add_left (hidx hv.home hv'.home (Or.inl rfl)) _
    · rename_i hb
      exact hidx ht ht' (Or.inr hb)

theorem wait_le (hv : Valid home n q) (ht : t ∈ q.list) : wait home t n q ≤ 2 * n + 1 := by
  have h1 := List.idxOf_lt_length_of_mem ht
  have h2 := List.idxOf_lt_length_of_mem hv.home
  have h3 := hv.length
  unfold wait
  split
  · omega
  · split <;> omega

theorem Step.wait_some (h : Step home ok q (some r) q') (hv : Valid home n q) (hne : r ≠ t) (ht : ok t)
    (hmem : t ∈ q.list) : wait home t n q' < wait home t n q := by
  cases h with
  | turn hr hskip =>
    simp only [List.mem_append, List.mem_cons] at hmem
    have hrest := (hmem.resolve_left fun h => hskip t h ht).resolve_left hne.symm
    exact wait_turn hv.nodup hv.home hv.length (fun heq => heq ▸ hv.last (heq ▸ hv.home)) hrest

theorem Steps.length_le (h : Steps home n stay q l q') (ht : stay t) (hnot : t ∉ l) :
    l.length + wait home t n q' ≤ wait home t n q := by
  induction h with
  | refl => simp
  | @step q' q'' l r ok hs hok hstep hv hmem ih =>
    rw [List.mem_append, not_or] at hnot
    have ih := ih hnot.1
    cases r with
    | none =>
      have := hstep.wait_none hs.valid hv (hs.mem ht) (hmem t ht)
      simp only [Option.toList_none, List.append_nil]
      omega
    | some r =>
      have hne : r ≠ t := by
        rintro rfl
        exact hnot.2 (by simp)
      have := hstep.wait_some hs.valid hne (hok t ht) (hs.mem ht)
      simp only [Option.toList_some, List.length_append, List.length_singleton]
      omega

/-- Nobody waits for ever. -/
theorem Steps.mem_of_length (h : Steps home n stay q l q') (hv : Valid home n q) (ht : stay t)
    (hmem : t ∈ q.list) (hlen : 2 * n + 1 < l.length) : t ∈ l := by
  by_contra hnot
  have h1 := h.length_le ht hnot
  have h2 := wait_le hv hmem
  omega

end Lib.RoundRobin
