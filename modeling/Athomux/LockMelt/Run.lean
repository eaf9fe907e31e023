import Athomux.LockMelt.Loop

/-! # All turns of the loop -/

open Lib Athomux.LockList

namespace Athomux.LockMelt

variable {n : Nat} {A₀ A A' : List (Entry Tag)} {d : Desc} {region : Nat → Prop} {lost : Prop}
  {pre pre₁ suf mid suf₂ : List (Entry Tag)} {c r r₂ : Nat} {prev : Option Nat} {R R₁ R₂ R₃ : Desc}
  {s s' : LockList Tag n} {F : List Nat} {M : Finset Nat}

/-! ## From one turn to the next -/

/-- The next own lock behind `r` has the next turn. -/
theorem Turned.next (hd : Turned A₀ d region lost pre₁ suf r R R₃ A')
    (ht : Turn A₀ d region lost pre suf c prev r R) (hwf : WF A₀) (hnd : (A₀.map Prod.fst).Nodup)
    (hreg : ∀ x, d.Has x → region x) (hfor : ∀ e ∈ pre₁, ¬ Own d e → e ∈ pre)
    (hbefore : ∀ e ∈ pre₁, Own d e → e.2.stop ≤ c ∨ e.2.stop ≤ R.start) (hlt : R.stop < d.stop)
    (hsuf : suf = mid ++ (r₂, R₂) :: suf₂) (hown : R₂.tag.mandate = d.tag.mandate)
    (hstart : R₂.start < d.stop) (hstop : R.stop < R₂.stop)
    (hmid : ∀ e ∈ mid, Own d e → e.2.stop ≤ R.stop) :
    Turn A₀ d region lost (pre₁ ++ (r, R₃) :: mid) suf₂ R.stop (some r) r₂ R₂ := by
  obtain ⟨Z, hA, hZfor, -, hZ⟩ := ht.origin
  have hRne := ht.nonempty
  have hcR := ht.overStop
  have hdc := ht.le
  have hstop₃ : R₃.stop = R.stop := by
    rw [hd.stop, endStop, if_neg]
    omega
  have hown₃ : R₃.tag.mandate = d.tag.mandate := by
    rw [hd.tag]
    exact ht.own
  have hshape : A' = (pre₁ ++ (r, R₃) :: mid) ++ (r₂, R₂) :: suf₂ := by
    rw [hd.shape hlt, hsuf]
    simp
  have hmelted := hd.melted
  have hfilled := hd.filled
  have hsorted := hd.sorted
  rw [hshape] at hmelted hfilled hsorted
  rw [hsuf] at hA
  have hR₂ : (r₂, R₂) ∈ A₀ := by simp [hA]
  -- The next lock starts where this one ends, or behind.
  have hge : R.stop ≤ R₂.start := ht.after (r₂, R₂) (by simp [hsuf]) hown
  refine ⟨hmelted, hown, hstop, hstart, by omega, hlt, ?_, ?_, ?_, ?_, ?_,
    ⟨_, hR₂, hown, rfl, Nat.le_refl _⟩, ?_, ?_, hsorted⟩
  · intro e he ho
    simp only [List.mem_append, List.mem_cons] at he
    rcases he with he | rfl | he
    · have := hbefore e he ho
      omega
    · exact hstop₃.le
    · exact hmid e he ho
  · intro e he ho
    have heA : e ∈ A₀ := by simp [hA, he]
    have hpair : Sorted ((r₂, R₂) :: suf₂) := by
      have := hwf.sorted
      rw [hA, ← List.append_assoc] at this
      exact (List.pairwise_append.mp this).2.1
    have hle : R₂.start ≤ e.2.start := (List.pairwise_cons.mp hpair).1 e he
    have hne : e.1 ≠ r₂ := by
      rintro rfl
      rw [hA, ← List.append_assoc, List.map_append, List.map_cons] at hnd
      have := (List.nodup_cons.mp (List.nodup_append.mp hnd).2.1).1
      exact this (List.mem_map.mpr ⟨e, he, rfl⟩)
    have hno := hwf.disjoint e heA _ hR₂ hne (ho.trans hown.symm)
    have hene := hwf.nonempty e heA
    refine Nat.le_of_not_lt fun hlt' => hno ⟨hlt', ?_⟩
    simp only
    omega
  · intro x hx hxd
    have := hx.1
    exact Or.inl (hreg x ⟨by omega, hxd⟩)
  · rintro p hp
    cases hp
    exact ⟨R₃, by simp, hown₃, hstop₃⟩
  · obtain ⟨e, he, ho, hestop, hestart⟩ := ht.entry
    exact Or.inr ⟨e, he, ho, hestop, by omega⟩
  · refine ⟨Z ++ mid ++ [(r₂, R₂)], by simp [hA], ?_, fun _ => ⟨Z ++ mid, rfl⟩, ?_⟩
    · intro e he ho
      simp only [List.mem_append, List.mem_cons] at he ⊢
      rcases he with he | rfl | he
      · exact Or.inl (Or.inl (hZfor e (hfor e he ho) ho))
      · exact absurd hown₃ ho
      · exact Or.inl (Or.inr he)
    · intro e he ho
      simp only [List.mem_append, List.mem_singleton] at he
      rcases he with (he | he) | rfl
      · have := hZ e he ho
        omega
      · exact Or.inl (hmid e he ho)
      · exact Or.inr ⟨rfl, Nat.le_refl _⟩
  · intro x hdx hx
    exact hfilled x hdx (by omega)

/-- After the loop: up to `c` the space of `d` is filled, behind it no own lock is left. -/
structure Done (A₀ : List (Entry Tag)) (d : Desc) (region : Nat → Prop) (lost : Prop) (c : Nat)
    (A : List (Entry Tag)) : Prop where
  melted : Melted A₀ d region lost A
  sorted : ¬ Crossing A₀ d → Sorted A
  le : d.start ≤ c
  filled : ∀ x, d.start ≤ x → x < c → Covers A d.tag.mandate x ∨ lost
  rest : ∀ e ∈ A, Own d e → ∀ x, c ≤ x → x < d.stop → ¬ e.2.Has x

/-! ## Counting -/

def tailCount (d : Desc) (c : Nat) : Nat := if c < d.stop then 1 else 0

theorem meltCount_skip (d : Desc) (c : Nat) (l l' : List Desc) (eq : Bool)
    (h : ∀ e ∈ l, isOwn e d = true → e.start < d.stop → e.stop ≤ c) :
    meltCount d c eq (l ++ l') = meltCount d c eq l' := by
  induction l with
  | nil => rfl
  | cons e l ih =>
    rw [List.cons_append, meltCount, if_neg]
    · exact ih fun f hf => h f (List.mem_cons_of_mem _ hf)
    · rintro ⟨ho, h1, h2⟩
      have := h e List.mem_cons_self ho h1
      omega

theorem meltCount_turn {l : List Desc} {eq : Bool} (ho : R.tag.mandate = d.tag.mandate)
    (h1 : R.start < d.stop) (h2 : c < R.stop) :
    meltCount d c eq (R :: l) = gapCount d c eq R + endCount d R +
      if d.stop ≤ R.stop then 0
      else meltCount d R.stop (isEquallyStrong { R with tag := strongest R.tag d.tag } d) l := by
  rw [meltCount, if_pos ⟨by simpa [isOwn] using ho, h1, h2⟩]
  rfl

/-! ## The loop -/

/-- What the search for the next own lock finds behind `r`. -/
theorem Turned.search (hd : Turned A₀ d region lost pre₁ suf r R R₃ A')
    (ht : Turn A₀ d region lost pre suf c prev r R) (hwf : WF A₀) (hlt : R.stop < d.stop) :
    match Rep.findEntry { d with start := R.stop } isOwn ((r, R₃) :: suf) with
    | none => ∀ e ∈ suf, Own d e → e.2.start < d.stop → e.2.stop ≤ R.stop
    | some e => ∃ mid suf₂, suf = mid ++ e :: suf₂ ∧ Own d e ∧ e.2.start < d.stop ∧
        R.stop < e.2.stop ∧ ∀ f ∈ mid, Own d f → f.2.start < d.stop → f.2.stop ≤ R.stop := by
  have hstop₃ : R₃.stop = R.stop := by
    rw [hd.stop, endStop, if_neg]
    omega
  have hskip : Rep.findEntry { d with start := R.stop } isOwn ((r, R₃) :: suf) =
      Rep.findEntry { d with start := R.stop } isOwn suf := by
    rw [Rep.findEntry, if_neg]
    simp only [hstop₃]
    omega
  rw [hskip]
  have hclear : ∀ e : Entry Tag, (e.2.Overlaps { d with start := R.stop } →
      isOwn e.2 { d with start := R.stop } = false) →
      Own d e → e.2.start < d.stop → e.2.stop ≤ R.stop := by
    intro e h ho h1
    refine Nat.le_of_not_lt fun h2 => ?_
    have := h ⟨h1, h2⟩
    rw [show isOwn e.2 { d with start := R.stop } = isOwn e.2 d from rfl, own_iff.mpr ho] at this
    cases this
  cases hf : Rep.findEntry { d with start := R.stop } isOwn suf with
  | none =>
    obtain ⟨Z, hA, -⟩ := ht.origin
    have hsort : Sorted suf := by
      have := hwf.sorted
      rw [hA] at this
      exact (List.pairwise_append.mp this).2.1
    exact fun e he => hclear e (findEntry_none hsort hf e he)
  | some e =>
    obtain ⟨mid, suf₂, hsuf, hover, hreq, hmid⟩ := findEntry_some hf
    exact ⟨mid, suf₂, hsuf, own_iff.mp hreq, hover.1, hover.2, fun f hf => hclear f (hmid f hf)⟩

/-- The turn of the lock that is found. -/
theorem Turned.next_turn (hd : Turned A₀ d region lost pre₁ suf r R R₃ A')
    (ht : Turn A₀ d region lost pre suf c prev r R) (hwf : WF A₀) (hnd : (A₀.map Prod.fst).Nodup)
    (hreg : ∀ x, d.Has x → region x) (hfor : ∀ e ∈ pre₁, ¬ Own d e → e ∈ pre)
    (hbefore : ∀ e ∈ pre₁, Own d e → e.2.stop ≤ c ∨ e.2.stop ≤ R.start) (hlt : R.stop < d.stop)
    (hf : Rep.findEntry { d with start := R.stop } isOwn ((r, R₃) :: suf) = some (r₂, R₂)) :
    ∃ mid suf₂, suf = mid ++ (r₂, R₂) :: suf₂ ∧ (∀ e ∈ mid, Own d e → e.2.stop ≤ R.stop) ∧
      Turn A₀ d region lost (pre₁ ++ (r, R₃) :: mid) suf₂ R.stop (some r) r₂ R₂ := by
  have hsearch := hd.search ht hwf hlt
  rw [hf] at hsearch
  simp only at hsearch
  obtain ⟨mid, suf₂, hsuf, ho, h1, h2, hmid⟩ := hsearch
  have hsort : Sorted suf := by
    obtain ⟨Z, hA, -⟩ := ht.origin
    have := hwf.sorted
    rw [hA] at this
    exact (List.pairwise_append.mp this).2.1
  have hmid' : ∀ f ∈ mid, Own d f → f.2.stop ≤ R.stop := by
    intro f hf hof
    rw [hsuf] at hsort
    have : f.2.start ≤ R₂.start := (List.pairwise_append.mp hsort).2.2 f hf _ List.mem_cons_self
    exact hmid f hf hof (lt_of_le_of_lt this h1)
  exact ⟨mid, suf₂, hsuf, hmid', hd.next ht hwf hnd hreg hfor hbefore hlt hsuf ho h1 h2 hmid'⟩

/-- The end of the loop behind `r`. -/
theorem Turned.done (hd : Turned A₀ d region lost pre₁ suf r R R₃ A')
    (ht : Turn A₀ d region lost pre suf c prev r R)
    (hbefore : ∀ e ∈ pre₁, Own d e → e.2.stop ≤ c ∨ e.2.stop ≤ R.start)
    (hend : d.stop ≤ R₃.stop ∨ R.stop < d.stop ∧
      ∀ e ∈ suf, Own d e → e.2.start < d.stop → e.2.stop ≤ R.stop) :
    Done A₀ d region lost R₃.stop A' := by
  have hRne := ht.nonempty
  have hc := ht.overStop
  have hdc := ht.le
  have hcd := ht.lt
  refine ⟨hd.melted, hd.sorted, ?_, hd.filled, ?_⟩
  · rw [hd.stop, endStop]
    split <;> omega
  · rintro e he ho x hx hxd ⟨hx1, hx2⟩
    rcases hend with hend | ⟨hlt, hsuf⟩
    · omega
    · have hstop₃ : R₃.stop = R.stop := by
        rw [hd.stop, endStop, if_neg]
        omega
      rw [hd.shape hlt] at he
      simp only [List.mem_append, List.mem_cons] at he
      rcases he with he | rfl | he
      · have := hbefore e he ho
        omega
      · simp only at hx2
        omega
      · have := hsuf e he ho (by omega)
        omega

/-- A lock behind `r` that has no turn is not stretched. -/
theorem Turn.not_crossAt (ht : Turn A₀ d region lost pre suf c prev r R) (hwf : WF A₀)
    {e : Entry Tag} (he : e ∈ suf) (h : Own d e → e.2.start < d.stop → e.2.stop ≤ R.stop) :
    ¬ CrossAt A₀ d e.1 e.2 := by
  rintro ⟨X, Y, x, hXY, hs, -⟩
  have hne := hwf.nonempty e (by simp [hXY])
  have := h hs.own hs.lt
  have := ht.after e he hs.own
  omega

theorem meltLoop_spec (hwf : WF A₀) (hnd : (A₀.map Prod.fst).Nodup)
    (hreg : ∀ x, d.Has x → region x) {fuel : Nat} {d' : Desc}
    (ht : Turn A₀ d region lost pre suf c prev r R) (hst : Stores s (pre ++ (r, R) :: suf) F M)
    (hfuel : suf.length < fuel)
    (hlost : s.lockImp.nFree < meltCount d c (eqPrev s prev d) (R :: suf.map Prod.snd) → lost)
    (hs : meltLoop fuel s { d with start := c } prev (some r) = some (s', d')) :
    ∃ A' F' c' j, d' = { d with start := c' } ∧ Stores s' A' F' M ∧ Done A₀ d region lost c' A' ∧
      (Sorted A' → Sorted pre ∧ ∀ e ∈ (r, R) :: suf, ¬ CrossAt A₀ d e.1 e.2) ∧
      Added s (pre ++ (r, R) :: suf) F s' A' F' j ∧
      j + tailCount d c' = meltCount d c (eqPrev s prev d) (R :: suf.map Prod.snd) := by
  induction fuel generalizing pre suf c prev r R s F with
  | zero => omega
  | succ fuel ih =>
    rw [meltCount_turn ht.own ht.overStart ht.overStop] at hlost ⊢
    simp only [meltLoop, Option.bind_eq_bind, Option.bind_eq_some_iff] at hs
    obtain ⟨s₁, hs₁, s₂, hs₂, hs⟩ := hs
    obtain ⟨pre₁, R₃, A₁, F₁, hst₁, hd, hfor, hback, hbefore, hadd⟩ :=
      turn_spec ht hwf hnd hst (fun h => hlost (by omega)) hs₁ hs₂
    have hdesc : (setStrongest s₂ r { d with start := c }).desc r = R₃ :=
      hst₁.rep.desc (r, R₃) hd.mem
    rw [hdesc] at hs
    have hcd := ht.lt
    -- What a sorted list says of this turn, when no lock of `suf` has a turn.
    have hlast : (∀ e ∈ suf, Own d e → e.2.start < d.stop → e.2.stop ≤ R.stop) →
        Sorted A₁ → Sorted pre ∧ ∀ e ∈ (r, R) :: suf, ¬ CrossAt A₀ d e.1 e.2 := by
      intro hsuf hsort
      obtain ⟨hpre, hno⟩ := hd.back hsort
      refine ⟨hback hpre, ?_⟩
      intro e he
      rcases List.mem_cons.mp he with rfl | he
      · exact hno
      · exact ht.not_crossAt hwf he (hsuf e he)
    by_cases hend : d.stop ≤ R.stop
    · -- The end of `d` is reached.
      have hend₃ : d.stop ≤ R₃.stop := by
        rw [hd.stop, endStop]
        split <;> omega
      rw [if_pos hend₃] at hs
      cases hs
      refine ⟨A₁, F₁, R₃.stop, _, rfl, hst₁, hd.done ht hbefore (Or.inl hend₃), hlast ?_, hadd, ?_⟩
      · intro e he ho h1
        have := ht.after e he ho
        omega
      · rw [if_pos hend, tailCount, if_neg (by omega)]
    · have hlt : R.stop < d.stop := by omega
      have hstop₃ : R₃.stop = R.stop := by
        rw [hd.stop, endStop, if_neg]
        omega
      rw [if_neg hend] at hlost ⊢
      rw [hstop₃, if_neg hend] at hs
      have hst₁' := hst₁
      rw [hd.shape hlt] at hst₁'
      have hnext := hst₁'.rep.findNextLockFrom { d with start := R.stop } isOwn
      rw [List.map_cons, List.head?_cons] at hnext
      have heq : eqPrev (setStrongest s₂ r { d with start := c }) (some r) d =
          isEquallyStrong { R with tag := strongest R.tag d.tag } d := by
        simp only [eqPrev, hdesc, isEquallyStrong, hd.tag]
      have hsearch := hd.search ht hwf hlt
      cases hf : Rep.findEntry { d with start := R.stop } isOwn ((r, R₃) :: suf) with
      | none =>
        rw [hf] at hsearch hnext
        simp only at hsearch
        rw [Option.map_none] at hnext
        have hs' : some (setStrongest s₂ r { d with start := c }, { d with start := R.stop }) =
            some (s', d') := by
          rw [← hs, hnext]
          cases fuel <;> rfl
        cases hs'
        refine ⟨A₁, F₁, R.stop, _, rfl, hst₁, ?_, hlast hsearch, hadd, ?_⟩
        · rw [← hstop₃]
          exact hd.done ht hbefore (Or.inr ⟨hlt, hsearch⟩)
        · have hskip := meltCount_skip d R.stop (suf.map Prod.snd) []
            (isEquallyStrong { R with tag := strongest R.tag d.tag } d) (by
              intro e he ho h1
              obtain ⟨f, hf, rfl⟩ := List.mem_map.mp he
              exact hsearch f hf (own_iff.mp ho) h1)
          rw [List.append_nil] at hskip
          rw [hskip]
          rfl
      | some e =>
        obtain ⟨r₂, R₂⟩ := e
        rw [hf, Option.map_some] at hnext
        obtain ⟨mid, suf₂, hsuf, hmid, ht₂⟩ :=
          hd.next_turn ht hwf hnd hreg hfor hbefore hlt hf
        have hskip := meltCount_skip d R.stop (mid.map Prod.snd) (R₂ :: suf₂.map Prod.snd)
          (isEquallyStrong { R with tag := strongest R.tag d.tag } d) (by
            intro e he _ _
            obtain ⟨f, hf, rfl⟩ := List.mem_map.mp he
            exact hmid f hf (own_iff.mp ‹_›))
        have hmap : suf.map Prod.snd = mid.map Prod.snd ++ R₂ :: suf₂.map Prod.snd := by
          rw [hsuf]
          simp
        have hA₁ : A₁ = (pre₁ ++ (r, R₃) :: mid) ++ (r₂, R₂) :: suf₂ := by
          rw [hd.shape hlt, hsuf]
          simp
        have hst₂ := hst₁
        rw [hA₁] at hst₂
        rw [hmap, hskip] at hlost ⊢
        rw [← heq] at hlost ⊢
        rw [hnext] at hs
        have hnat := hadd.natives
        obtain ⟨A', F', c', j, hd', hst', hdone, hsorted, hadd', hcount⟩ := ih ht₂ hst₂
          (by rw [hsuf] at hfuel; simp at hfuel; omega) (fun h => hlost (by omega)) hs
        rw [← hA₁] at hadd'
        refine ⟨A', F', c', _, hd', hst', hdone, ?_, hadd.trans hadd', by omega⟩
        intro hsort'
        obtain ⟨hpre₂, hno₂⟩ := hsorted hsort'
        have hpre₁ : Sorted pre₁ := hpre₂.sublist (List.sublist_append_left _ _)
        refine ⟨hback hpre₁, ?_⟩
        intro e he
        rcases List.mem_cons.mp he with rfl | he
        · exact hd.crossing (hpre₂.sublist
            ((List.singleton_sublist.mpr List.mem_cons_self).append_left pre₁))
        · rw [hsuf, List.mem_append] at he
          rcases he with hm | hm
          · exact ht.not_crossAt hwf (by simp [hsuf, hm]) fun hof _ => hmid e hm hof
          · exact hno₂ e hm

/-! ## The space behind the last lock -/

/-- `d` is molten into `A₀`. -/
structure Molten (A₀ : List (Entry Tag)) (d : Desc) (region : Nat → Prop) (lost : Prop)
    (A : List (Entry Tag)) : Prop where
  melted : Melted A₀ d region lost A
  sorted : ¬ Crossing A₀ d → Sorted A
  filled : ∀ x, d.Has x → Covers A d.tag.mandate x ∨ lost

theorem meltTail_spec (hd : Done A₀ d region lost c A) (hst : Stores s A F M)
    (hlost : s.lockImp.nFree < tailCount d c → lost)
    (hs : meltTail s { d with start := c } = some s') :
    ∃ A' F', Stores s' A' F' M ∧ Molten A₀ d region lost A' ∧ (Sorted A' → Sorted A) ∧
      Added s A F s' A' F' (tailCount d c) := by
  unfold meltTail at hs
  unfold tailCount at hlost ⊢
  simp only at hs
  split at hs
  · rename_i hlt
    rw [if_pos hlt] at hlost ⊢
    obtain ⟨q, F', rfl, hq, hst', hfree⟩ := hst.addNew hs
    refine ⟨_, F', hst', ?_, ?_, Added.insNew _ hfree⟩
    rotate_left
    · unfold insNew
      split
      · exact id
      · exact fun hsort => hsort.sublist (sublist_ins _ _)
    unfold insNew
    split
    · rename_i hzero
      exact ⟨hd.melted, hd.sorted, fun x _ => Or.inr (hlost (by omega))⟩
    · have hne : ∀ e ∈ A, e.1 ≠ q := by
        rintro e he rfl
        exact hq (List.mem_map_of_mem he)
      have hmem : ∀ e, e ∈ ins (q, { d with start := c }) A ↔
          (e ∈ A ∧ e.1 ≠ q) ∨ e ∈ [(q, { d with start := c })] := by
        intro e
        rw [mem_ins, List.mem_singleton]
        constructor
        · rintro (he | he)
          · exact Or.inr he
          · exact Or.inl ⟨he, hne e he⟩
        · rintro (⟨he, -⟩ | he)
          · exact Or.inr he
          · exact Or.inl he
      refine ⟨hd.melted.edit (r := q) (N := [(q, { d with start := c })])
        ⟨hmem, fun e he heq => absurd heq (hne e he), ?_, ?_, by simp, ?_⟩ ?_ ?_, ?_, ?_⟩
      · simp [Own]
      · simpa using hlt
      · simp only [List.mem_singleton, forall_eq]
        rintro f hf hof - ⟨h1, h2⟩
        have hfne := hd.melted.nonempty f hf hof
        simp only at h1 h2
        exact hd.rest f hf hof (max c f.2.start) (by omega) (by omega) ⟨by omega, by omega⟩
      · simp only [List.mem_singleton, forall_eq]
        rintro x ⟨hx1, hx2⟩
        refine Or.inr ⟨⟨hd.le.trans hx1, hx2⟩, ?_, Or.inl trivial⟩
        rintro ⟨e, he, ho, hex⟩
        exact hd.rest e he ho x hx1 hx2 hex
      · intro R hR
        exact absurd rfl (hne _ hR)
      · exact fun hno => (hd.sorted hno).ins _
      · rintro x ⟨hx1, hx2⟩
        rcases Nat.lt_or_ge x c with hlt' | hge
        · refine (hd.filled x hx1 hlt').imp_left ?_
          rintro ⟨e, he, ho, hex⟩
          exact ⟨e, mem_ins.mpr (Or.inr he), ho, hex⟩
        · exact Or.inl ⟨_, mem_ins.mpr (Or.inl rfl), rfl, hge, hx2⟩
  · rename_i hge
    cases hs
    rw [if_neg hge]
    exact ⟨A, F, hst,
      ⟨hd.melted, hd.sorted, fun x hx => hd.filled x hx.1 (by have := hx.2; omega)⟩, id,
      ⟨rfl, by omega, by omega, fun _ => id⟩⟩

/-- The loop from its first turn on, and the space behind the last lock. -/
theorem meltRest_spec (ht : Turn A₀ d region lost pre suf c prev r R) (hwf : WF A₀)
    (hnd : (A₀.map Prod.fst).Nodup) (hreg : ∀ x, d.Has x → region x)
    (hst : Stores s (pre ++ (r, R) :: suf) F M)
    (hlost : s.lockImp.nFree < meltCount d c (eqPrev s prev d) (R :: suf.map Prod.snd) → lost)
    (hs : ∃ p, meltLoop (n + 1) s { d with start := c } prev (some r) = some p ∧
      meltTail p.1 p.2 = some s') :
    ∃ A' F', Stores s' A' F' M ∧ Molten A₀ d region lost A' ∧
      (Sorted A' → ∀ e ∈ (r, R) :: suf, ¬ CrossAt A₀ d e.1 e.2) ∧
      Added s (pre ++ (r, R) :: suf) F s' A' F'
        (meltCount d c (eqPrev s prev d) (R :: suf.map Prod.snd)) := by
  have hfuel : suf.length < n + 1 := by
    have := hst.rep.length_le
    simp only [List.length_append, List.length_cons] at this
    omega
  obtain ⟨⟨s₁, d'⟩, hloop, htail⟩ := hs
  obtain ⟨A₁, F₁, c', j, rfl, hst₁, hdone, hsorted, hadd, hcount⟩ :=
    meltLoop_spec hwf hnd hreg ht hst hfuel hlost hloop
  have hnat := hadd.natives
  obtain ⟨A', F', hst', hmolten, hback, hadd'⟩ :=
    meltTail_spec hdone hst₁ (fun h => hlost (by omega)) htail
  refine ⟨A', F', hst', hmolten, fun hsort => (hsorted (hback hsort)).2, ?_⟩
  rw [← hcount]
  exact hadd.trans hadd'

end Athomux.LockMelt
