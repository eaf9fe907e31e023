import Athomux.LockMelt.Inv

/-! # The loop of `melt_lock_into_list` -/

open Lib Athomux.LockList

namespace Athomux.LockMelt

variable {n : Nat}

/-! ## Counting records -/

/-- `j` records were taken from the free list, and each that got a native lock is in
the list. -/
structure Added (s : LockList Tag n) (A : List (Entry Tag)) (F : List Nat) (s' : LockList Tag n)
    (A' : List (Entry Tag)) (F' : List Nat) (j : Nat) : Prop where
  free : F.length = F'.length + j
  natives : s'.lockImp.nFree = s.lockImp.nFree - j
  entries : A'.length + (j - s.lockImp.nFree) = A.length + j
  refs : ∀ q ∈ A'.map Prod.fst ++ F', q ∈ A.map Prod.fst ++ F

theorem Added.trans {s s₁ s₂ : LockList Tag n} {A A₁ A₂ : List (Entry Tag)} {F F₁ F₂ : List Nat}
    {i j : Nat} (h : Added s A F s₁ A₁ F₁ i) (h' : Added s₁ A₁ F₁ s₂ A₂ F₂ j) :
    Added s A F s₂ A₂ F₂ (i + j) := by
  obtain ⟨h1, h2, h3, h4⟩ := h
  obtain ⟨h1', h2', h3', h4'⟩ := h'
  exact ⟨by omega, by omega, by omega, fun q hq => h4 q (h4' q hq)⟩

/-- The descriptors change, the records stay. -/
theorem Added.upd (s s' : LockList Tag n) (himp : s'.lockImp = s.lockImp) (A : List (Entry Tag))
    (F : List Nat) (r : Nat) (d : Desc) : Added s A F s' (upd r d A) F 0 := by
  refine ⟨rfl, by rw [himp]; rfl, by rw [upd_length]; omega, ?_⟩
  intro q hq
  rwa [upd_fst] at hq

theorem Added.insNew {s s' : LockList Tag n} {A : List (Entry Tag)} {F : List Nat} {q : Nat}
    (d : Desc) (hcount : s'.lockImp.nFree = s.lockImp.nFree - 1) :
    Added s A (q :: F) s' (insNew s q d A) F 1 := by
  refine ⟨rfl, hcount, ?_, ?_⟩
  · unfold LockList.insNew
    split
    · omega
    · rw [(perm_ins (q, d) A).length_eq, List.length_cons]
      omega
  · intro p hp
    simp only [List.mem_append, List.mem_cons, List.mem_map] at hp ⊢
    rcases hp with ⟨e, he, rfl⟩ | hp
    · rcases mem_insNew he with rfl | he
      · exact Or.inr (Or.inl rfl)
      · exact Or.inl ⟨e, he, rfl⟩
    · exact Or.inr (Or.inr hp)

/-- A record is split. -/
theorem Added.split {s s' : LockList Tag n} {X Y : List (Entry Tag)} {F : List Nat} {r q : Nat}
    {D : Desc} (kept rest : Desc) (hcount : s'.lockImp.nFree = s.lockImp.nFree - 1) :
    Added s (X ++ (r, D) :: Y) (q :: F) s' (LockList.insNew s q rest (ins (r, kept) (X ++ Y))) F 1 := by
  have hlen : (ins (r, kept) (X ++ Y)).length = (X ++ (r, D) :: Y).length := by
    rw [(perm_ins _ _).length_eq]
    simp only [List.length_cons, List.length_append]
    omega
  have hmove : Added s (X ++ (r, D) :: Y) (q :: F) s (ins (r, kept) (X ++ Y)) (q :: F) 0 := by
    refine ⟨rfl, rfl, by rw [hlen]; omega, ?_⟩
    intro p hp
    simp only [List.mem_append, List.mem_map] at hp ⊢
    refine hp.imp_left ?_
    rintro ⟨e, he, rfl⟩
    rcases mem_ins.mp he with rfl | he
    · exact ⟨(r, D), by simp, rfl⟩
    · exact ⟨e, by simp only [List.mem_append, List.mem_cons] at he ⊢; tauto, rfl⟩
  simpa using hmove.trans (Added.insNew rest hcount)

/-! ## One turn -/

/-- The entry `r` is the next own one from `c` on: before it all own locks end at `c`,
behind it the list is as it was. -/
structure Turn (A₀ : List (Entry Tag)) (d : Desc) (region : Nat → Prop) (lost : Prop)
    (pre suf : List (Entry Tag)) (c : Nat) (prev : Option Nat) (r : Nat) (R : Desc) : Prop where
  melted : Melted A₀ d region lost (pre ++ (r, R) :: suf)
  own : R.tag.mandate = d.tag.mandate
  overStop : c < R.stop
  overStart : R.start < d.stop
  le : d.start ≤ c
  lt : c < d.stop
  before : ∀ e ∈ pre, Own d e → e.2.stop ≤ c
  after : ∀ e ∈ suf, Own d e → R.stop ≤ e.2.start
  region : ∀ x, R.Has x → x < d.stop → region x ∨ isStrongerOrEqual R d = true
  prev : ∀ p, prev = some p → ∃ P, (p, P) ∈ pre ∧ P.tag.mandate = d.tag.mandate ∧ P.stop = c
  last : c = d.start ∨ ∃ e ∈ A₀, Own d e ∧ e.2.stop = c ∧ e.2.start < R.start
  entry : ∃ e ∈ A₀, Own d e ∧ e.2.stop = R.stop ∧ e.2.start ≤ R.start
  origin : ∃ Z, A₀ = Z ++ suf ∧ (∀ e ∈ pre, ¬ Own d e → e ∈ Z) ∧
    (c < R.start → ∃ X, Z = X ++ [(r, R)]) ∧
    ∀ e ∈ Z, Own d e → e.2.stop ≤ c ∨ (e.2.stop = R.stop ∧ e.2.start ≤ R.start)
  filled : ∀ x, d.start ≤ x → x < c →
    Covers (pre ++ (r, R) :: suf) d.tag.mandate x ∨ lost
  sorted : ¬ Crossing A₀ d → Sorted (pre ++ (r, R) :: suf)

/-- After the gap before `r` is filled: `R₁` is `R`, or it is `R` stretched down to `c`. -/
structure Gapped (A₀ : List (Entry Tag)) (d : Desc) (region : Nat → Prop) (lost : Prop)
    (pre suf : List (Entry Tag)) (c : Nat) (r : Nat) (R R₁ : Desc) : Prop where
  melted : Melted A₀ d region lost (pre ++ (r, R) :: suf)
  shape : R₁ = R ∨ (R₁ = { R with start := c } ∧ c < R.start ∧ isWeakerOrEqual R d = true ∧
    ∀ e ∈ pre, Own d e → e.2.stop ≤ c)
  before : ∀ e ∈ pre, Own d e → e.2.stop ≤ c ∨ e.2.stop ≤ R.start
  filled : ∀ x, d.start ≤ x → x < c ∨ x < R₁.start →
    Covers (pre ++ (r, R) :: suf) d.tag.mandate x ∨ lost
  sorted : ¬ Crossing A₀ d → Sorted (pre ++ (r, R) :: suf)

variable {A₀ : List (Entry Tag)} {d : Desc} {region : Nat → Prop} {lost : Prop}
  {pre suf : List (Entry Tag)} {c r : Nat} {prev : Option Nat} {R : Desc}

theorem Turn.mem (_ : Turn A₀ d region lost pre suf c prev r R) : (r, R) ∈ pre ++ (r, R) :: suf :=
  by simp

theorem Turn.nonempty (h : Turn A₀ d region lost pre suf c prev r R) : R.start < R.stop :=
  h.melted.nonempty (r, R) h.mem h.own

/-- No own lock is in the gap. -/
theorem Turn.gap_free (h : Turn A₀ d region lost pre suf c prev r R) {x : Nat} (hc : c ≤ x)
    (hx : x < R.start) : ¬ Covers (pre ++ (r, R) :: suf) d.tag.mandate x := by
  have hne := h.nonempty
  rintro ⟨e, he, ho, hxl, hxr⟩
  rcases List.mem_append.mp he with he | he
  · have := h.before e he ho
    omega
  · rcases List.mem_cons.mp he with rfl | he
    · exact absurd hxl (Nat.not_le.mpr hx)
    · have := h.after e he ho
      omega

/-- An address of the gap belongs to `d`. -/
theorem Turn.gap_has (h : Turn A₀ d region lost pre suf c prev r R) {x : Nat} (hc : c ≤ x)
    (hx : x < R.start) : d.Has x :=
  ⟨h.le.trans hc, hx.trans h.overStart⟩

/-- The lock before is stretched up to `R`. -/
theorem Turn.stretch_prev (h : Turn A₀ d region lost pre suf c prev r R) (hgap : c < R.start)
    (hnd : ((pre ++ (r, R) :: suf).map Prod.fst).Nodup) {p : Nat} {P : Desc} (hp : (p, P) ∈ pre)
    (ho : P.tag.mandate = d.tag.mandate) (hstop : P.stop = c)
    (heq : isEquallyStrong P d = true) :
    Gapped A₀ d region lost (upd p { P with stop := R.start } pre) suf c r R R := by
  have hpA : (p, P) ∈ pre ++ (r, R) :: suf := List.mem_append_left _ hp
  have hPne : P.start < P.stop := h.melted.nonempty _ hpA ho
  have huniq : ∀ e ∈ pre ++ (r, R) :: suf, e.1 = p → e = (p, P) := by
    intro e he hep
    exact List.inj_on_of_nodup_map hnd he hpA hep
  have hpout : p ∉ ((r, R) :: suf).map Prod.fst := by
    rw [List.map_append] at hnd
    exact fun hmem => (List.nodup_append.mp hnd).2.2 p (List.mem_map_of_mem hp) p hmem rfl
  have hupd : upd p { P with stop := R.start } (pre ++ (r, R) :: suf) =
      upd p { P with stop := R.start } pre ++ (r, R) :: suf := by
    have := upd_of_not_mem { P with stop := R.start } hpout
    unfold upd at this ⊢
    rw [List.map_append, this]
  have hedit : Edit d (pre ++ (r, R) :: suf) (upd p { P with stop := R.start } pre ++ (r, R) :: suf)
      p [(p, { P with stop := R.start })] := by
    refine ⟨?_, ?_, ?_, ?_, ?_, ?_⟩
    · intro e
      rw [← hupd, mem_upd, List.mem_singleton]
      simp [List.mem_map_of_mem hp]
    · intro e he hep
      rw [huniq e he hep]
      exact ho
    · simpa [Own] using ho
    · simp only [List.mem_singleton, forall_eq]
      omega
    · simp
    · simp only [List.mem_singleton, forall_eq]
      rintro f hf hof hfp ⟨h1, h2⟩
      simp only at h1 h2
      have hfne := h.melted.nonempty f hf hof
      have hdisj : ¬ f.2.Overlaps P := h.melted.disjoint f hf _ hpA hof ho hfp
      rcases List.mem_append.mp hf with hfp | hfs
      · have := h.before f hfp hof
        exact hdisj ⟨by omega, by omega⟩
      · have hRne := h.nonempty
        rcases List.mem_cons.mp hfs with rfl | hfs
        · simp only at h2
          omega
        · have := h.after f hfs hof
          omega
  have hcov : ∀ x, Covers (pre ++ (r, R) :: suf) d.tag.mandate x →
      Covers (upd p { P with stop := R.start } pre ++ (r, R) :: suf) d.tag.mandate x := by
    rintro x ⟨e, he, hoe, hx⟩
    by_cases hep : e.1 = p
    · rw [huniq e he hep] at hx
      refine ⟨(p, { P with stop := R.start }), (hedit.mem _).mpr (Or.inr (by simp)), ho, hx.1, ?_⟩
      have := hx.2
      simp only at this ⊢
      omega
    · exact ⟨e, (hedit.mem e).mpr (Or.inl ⟨he, hep⟩), hoe, hx⟩
  refine ⟨h.melted.edit hedit ?_ ?_, Or.inl rfl, ?_, ?_, ?_⟩
  · simp only [List.mem_singleton, forall_eq]
    rintro x ⟨hx1, hx2⟩
    simp only at hx1 hx2
    rcases Nat.lt_or_ge x c with hlt | hge
    · exact Or.inl ⟨P, hpA, ⟨hx1, by omega⟩, Or.inl rfl⟩
    · refine Or.inr ⟨h.gap_has hge hx2, h.gap_free hge hx2, Or.inl ?_⟩
      simpa [isEquallyStrong] using heq
  · intro P' hP' x hx
    have : P' = P := congrArg Prod.snd (huniq _ hP' rfl)
    subst this
    refine Or.inl ⟨_, List.mem_singleton_self _, hx.1, ?_⟩
    have := hx.2
    simp only
    omega
  · intro e he hoe
    rcases mem_upd.mp he with ⟨he, -⟩ | ⟨rfl, -⟩
    · exact Or.inl (h.before e he hoe)
    · exact Or.inr (Nat.le_refl _)
  · intro x hdx hx
    rcases Nat.lt_or_ge x c with hlt | hge
    · exact (h.filled x hdx hlt).imp_left (hcov x)
    · refine Or.inl ⟨(p, { P with stop := R.start }), (hedit.mem _).mpr (Or.inr (by simp)), ho, ?_, ?_⟩
      · simp only
        omega
      · simp only
        omega
  · intro hno
    rw [← hupd]
    apply (h.sorted hno).upd
    intro e he hep
    rw [huniq e he hep]

/-- A new record fills the gap. -/
theorem Turn.insert (h : Turn A₀ d region lost pre suf c prev r R) (hgap : c < R.start) {q : Nat}
    (hq : q ∉ (pre ++ (r, R) :: suf).map Prod.fst) :
    Gapped A₀ d region lost (ins (q, { d with start := c, stop := R.start }) pre) suf c r R R := by
  set G : Entry Tag := (q, { d with start := c, stop := R.start }) with hG
  have hins : ins G (pre ++ (r, R) :: suf) = ins G pre ++ (r, R) :: suf :=
    ins_append (e := G) (a := (r, R)) hgap.le pre suf
  have hne : ∀ e ∈ pre ++ (r, R) :: suf, e.1 ≠ q := by
    rintro e he rfl
    exact hq (List.mem_map_of_mem he)
  have hedit : Edit d (pre ++ (r, R) :: suf) (ins G pre ++ (r, R) :: suf) q [G] := by
    refine ⟨?_, fun e he heq => absurd heq (hne e he), ?_, ?_, ?_, ?_⟩
    · intro e
      rw [← hins, mem_ins, List.mem_singleton]
      constructor
      · rintro (he | he)
        · exact Or.inr he
        · exact Or.inl ⟨he, hne e he⟩
      · rintro (⟨he, -⟩ | he)
        · exact Or.inr he
        · exact Or.inl he
    · simp [hG, Own]
    · simpa [hG] using hgap
    · simp
    · simp only [List.mem_singleton, forall_eq]
      rintro f hf hof - ⟨h1, h2⟩
      simp only [hG] at h1 h2
      -- An address that both have would be in the gap.
      have hfne := h.melted.nonempty f hf hof
      refine h.gap_free (x := max c f.2.start) (by omega) (by omega) ⟨f, hf, hof, ?_, ?_⟩
      · omega
      · omega
  refine ⟨h.melted.edit hedit ?_ ?_, Or.inl rfl, ?_, ?_, ?_⟩
  · simp only [List.mem_singleton, forall_eq]
    rintro x ⟨hx1, hx2⟩
    simp only [hG] at hx1 hx2
    exact Or.inr ⟨h.gap_has hx1 hx2, h.gap_free hx1 hx2, Or.inl rfl⟩
  · intro P hP
    exact absurd rfl (hne _ hP)
  · intro e he hoe
    rcases mem_ins.mp he with rfl | he
    · exact Or.inr (Nat.le_refl _)
    · exact Or.inl (h.before e he hoe)
  · intro x hdx hx
    rcases Nat.lt_or_ge x c with hlt | hge
    · refine (h.filled x hdx hlt).imp_left ?_
      rintro ⟨e, he, hoe, hex⟩
      exact ⟨e, (hedit.mem e).mpr (Or.inl ⟨he, hne e he⟩), hoe, hex⟩
    · refine Or.inl ⟨G, (hedit.mem _).mpr (Or.inr (by simp)), rfl, ?_, ?_⟩
      · simp only [hG]
        omega
      · simp only [hG]
        omega
  · intro hno
    rw [← hins]
    exact (h.sorted hno).ins G

/-- Nothing fills the gap: there is none, or a native lock is missing. -/
theorem Turn.no_fill (h : Turn A₀ d region lost pre suf c prev r R) (hgap : c < R.start → lost) :
    Gapped A₀ d region lost pre suf c r R R := by
  refine ⟨h.melted, Or.inl rfl, fun e he ho => Or.inl (h.before e he ho), ?_, h.sorted⟩
  intro x hdx hx
  rcases Nat.lt_or_ge x c with hlt | hge
  · exact h.filled x hdx hlt
  · exact Or.inr (hgap (by omega))

/-- `R` itself is stretched down to `c`. -/
theorem Turn.stretch (h : Turn A₀ d region lost pre suf c prev r R) (hgap : c < R.start)
    (hweak : isWeakerOrEqual R d = true) :
    Gapped A₀ d region lost pre suf c r R { R with start := c } :=
  ⟨h.melted, Or.inr ⟨rfl, hgap, hweak, h.before⟩, fun e he ho => Or.inl (h.before e he ho),
    fun x hdx hx => h.filled x hdx (by simpa using hx), h.sorted⟩

/-! ## The lock itself -/

variable {pre₁ : List (Entry Tag)} {R₁ : Desc}

theorem strongest_of_stronger {t d : Desc} (h : isStrongerOrEqual t d = true) :
    (strongest t.tag d.tag).type = t.tag.type := by
  simp only [isStrongerOrEqual, Bool.and_eq_true, decide_eq_true_eq] at h
  simp only [strongest, LockT.max_of_le h.1.1, LockT.max_of_le h.1.2]

theorem Gapped.tag (hg : Gapped A₀ d region lost pre₁ suf c r R R₁) :
    R₁.tag = R.tag ∧ R₁.stop = R.stop ∧ R₁.start ≤ R.start := by
  rcases hg.shape with rfl | ⟨rfl, hlt, -, -⟩
  · exact ⟨rfl, rfl, Nat.le_refl _⟩
  · exact ⟨rfl, rfl, hlt.le⟩

/-- No other own lock is on an address of `R₁`. -/
theorem Gapped.apart (hg : Gapped A₀ d region lost pre₁ suf c r R R₁)
    (ht : Turn A₀ d region lost pre suf c prev r R)
    (hnd : ((pre₁ ++ (r, R) :: suf).map Prod.fst).Nodup) {f : Entry Tag}
    (hf : f ∈ pre₁ ++ suf) (hof : Own d f) : ¬ R₁.Overlaps f.2 := by
  have hr : (r, R) ∈ pre₁ ++ (r, R) :: suf := by simp
  obtain ⟨hfA, hfr⟩ := (mem_others hnd).mp hf
  have hdisj : ¬ f.2.Overlaps R := hg.melted.disjoint f hfA _ hr hof ht.own hfr
  rcases hg.shape with rfl | ⟨rfl, hlt, -, hbefore⟩
  · rwa [overlaps_comm]
  · rintro ⟨h1, h2⟩
    simp only at h1 h2
    have hRne := ht.nonempty
    rcases List.mem_append.mp hf with hf | hf
    · have := hbefore f hf hof
      omega
    · have := ht.after f hf hof
      omega

/-- `R₁` up to `t` becomes as strong as `d`, and `N` is what is left of it behind. -/
theorem Gapped.strengthen (hg : Gapped A₀ d region lost pre₁ suf c r R R₁)
    (ht : Turn A₀ d region lost pre suf c prev r R)
    (hnd : ((pre₁ ++ (r, R) :: suf).map Prod.fst).Nodup)
    (hstretch : ∀ x, R₁.Has x → x < R.start → c ≤ x ∧ Stretch A₀ d R x)
    {A' N : List (Entry Tag)} {t : Nat} {R₃ : Desc}
    (hR₃ : R₃ = ⟨R₁.start, t, strongest R.tag d.tag⟩)
    (hmem : ∀ e, e ∈ A' ↔ e ∈ pre₁ ++ suf ∨ e = (r, R₃) ∨ e ∈ N)
    (hN : (t = R.stop ∧ N = [] ∧ (R.stop ≤ d.stop ∨ isStrongerOrEqual R d = true)) ∨
      (t = d.stop ∧ d.stop < R.stop ∧
        ((∃ q, N = [(q, { R with start := d.stop })]) ∨ N = [] ∧ lost))) :
    Melted A₀ d region lost A' := by
  obtain ⟨-, -, hstart⟩ := hg.tag
  have hRne := ht.nonempty
  have hRd := ht.overStart
  have htle : t ≤ R.stop ∧ R.start < t := by
    rcases hN with ⟨rfl, -, -⟩ | ⟨rfl, hlt, -⟩ <;> omega
  have hrB : (r, R) ∈ pre₁ ++ (r, R) :: suf := by simp
  have huniq : ∀ P, (r, P) ∈ pre₁ ++ (r, R) :: suf → P = R := fun P hP =>
    congrArg Prod.snd (List.inj_on_of_nodup_map hnd hP hrB rfl)
  have hB : ∀ e, e ∈ pre₁ ++ suf ↔ e ∈ pre₁ ++ (r, R) :: suf ∧ e.1 ≠ r := fun _ => mem_others hnd
  -- What is left behind the end of `d` is a part of `R`.
  have hrest : ∀ e ∈ N, e.2 = { R with start := d.stop } ∧ t = d.stop ∧ d.stop < R.stop := by
    intro e he
    rcases hN with ⟨-, rfl, -⟩ | ⟨h1, h2, ⟨q, rfl⟩ | ⟨rfl, -⟩⟩
    · cases he
    · rw [List.mem_singleton.mp he]
      exact ⟨rfl, h1, h2⟩
    · cases he
  have hinside : ∀ e ∈ (r, R₃) :: N, R₁.start ≤ e.2.start ∧ e.2.stop ≤ R.stop := by
    intro e he
    rcases List.mem_cons.mp he with rfl | he
    · rw [hR₃]
      exact ⟨Nat.le_refl _, htle.1⟩
    · rw [(hrest e he).1]
      simp only
      omega
  have hedit : Edit d (pre₁ ++ (r, R) :: suf) A' r ((r, R₃) :: N) := by
    refine ⟨?_, ?_, ?_, ?_, ?_, ?_⟩
    · intro e
      rw [hmem, hB, List.mem_cons]
    · intro e he her
      have : e = (r, R) := List.inj_on_of_nodup_map hnd he hrB her
      rw [this]
      exact ht.own
    · intro e he
      rcases List.mem_cons.mp he with rfl | he
      · rw [hR₃]
        exact ht.own
      · rw [Own, (hrest e he).1]
        exact ht.own
    · intro e he
      rcases List.mem_cons.mp he with rfl | he
      · rw [hR₃]
        simp only
        omega
      · rw [(hrest e he).1]
        exact (hrest e he).2.2
    · have hsplit : ∀ e ∈ N, ¬ R₃.Overlaps e.2 := by
        rintro e he ⟨-, h2⟩
        obtain ⟨h1, h3, -⟩ := hrest e he
        rw [h1, hR₃] at h2
        simp only at h2
        omega
      intro e he f hf hne
      rcases List.mem_cons.mp he with rfl | heN <;> rcases List.mem_cons.mp hf with rfl | hfN
      · exact absurd rfl hne
      · exact hsplit f hfN
      · rw [overlaps_comm]
        exact hsplit e heN
      · -- There is at most one such part.
        rcases hN with ⟨-, rfl, -⟩ | ⟨-, -, ⟨q, rfl⟩ | ⟨rfl, -⟩⟩
        · cases heN
        · rw [List.mem_singleton.mp heN, List.mem_singleton.mp hfN] at hne
          exact absurd rfl hne
        · cases heN
    · rintro e he f hf hof hfr ⟨h1, h2⟩
      obtain ⟨h3, h4⟩ := hinside e he
      obtain ⟨-, hstop, -⟩ := hg.tag
      refine hg.apart ht hnd ((hB f).mpr ⟨hf, hfr⟩) hof ⟨?_, ?_⟩ <;> omega
  refine hg.melted.edit hedit ?_ ?_
  · intro e he x hx
    rcases List.mem_cons.mp he with rfl | he
    · rw [hR₃] at hx ⊢
      obtain ⟨hx1, hx2⟩ := hx
      simp only at hx1 hx2
      rcases Nat.lt_or_ge x R.start with hlt | hge
      · obtain ⟨hcx, hs⟩ := hstretch x ⟨hx1, by have := hg.tag.2.1; omega⟩ hlt
        refine Or.inr ⟨ht.gap_has hcx hlt, ?_, Or.inr ⟨R, hs, Or.inr rfl⟩⟩
        rintro ⟨f, hf, hof, hfx⟩
        by_cases hfr : f.1 = r
        · have : f = (r, R) := List.inj_on_of_nodup_map hnd hf hrB hfr
          rw [this] at hfx
          exact absurd hfx.1 (Nat.not_le.mpr hlt)
        · refine hg.apart ht hnd ((hB f).mpr ⟨hf, hfr⟩) hof ?_
          have := hg.tag.2.1
          have := hfx.1
          have := hfx.2
          exact ⟨by omega, by omega⟩
      · refine Or.inl ⟨R, hrB, ⟨hge, by omega⟩, ?_⟩
        by_cases hstrong : isStrongerOrEqual R d = true
        · exact Or.inl (strongest_of_stronger hstrong)
        · have hxd : x < d.stop := by
            rcases hN with ⟨h1, -, hle | hs⟩ | ⟨h1, -, -⟩
            · omega
            · exact absurd hs hstrong
            · omega
          rcases ht.region x ⟨hge, by omega⟩ hxd with hr | hs
          · exact Or.inr ⟨hr, rfl⟩
          · exact absurd hs hstrong
    · obtain ⟨h1, -, hlt⟩ := hrest e he
      rw [h1] at hx ⊢
      refine Or.inl ⟨R, hrB, ⟨?_, hx.2⟩, Or.inl rfl⟩
      have := hx.1
      simp only at this
      omega
  · intro P hP x hx
    rw [huniq P hP] at hx
    obtain ⟨hx1, hx2⟩ := hx
    rcases Nat.lt_or_ge x t with hlt | hge
    · refine Or.inl ⟨(r, R₃), List.mem_cons_self, ?_⟩
      rw [hR₃]
      exact ⟨hstart.trans hx1, hlt⟩
    · rcases hN with ⟨rfl, -, -⟩ | ⟨rfl, -, ⟨q, rfl⟩ | ⟨rfl, hlost⟩⟩
      · omega
      · exact Or.inl ⟨(q, { R with start := d.stop }), by simp, hge, hx2⟩
      · exact Or.inr ⟨hlost, fun hd => absurd hd.2 (by omega)⟩

/-! ## One turn of the code -/

variable {s s₁ s₂ : LockList Tag n} {F : List Nat} {M : Finset Nat}

/-- The lock before has the type of `d`. -/
def eqPrev (s : LockList Tag n) (prev : Option Nat) (d : Desc) : Bool :=
  match prev with
  | some p => isEquallyStrong (s.desc p) d
  | none => false

def gapCount (d : Desc) (c : Nat) (eq : Bool) (R : Desc) : Nat :=
  if c < R.start ∧ !isWeakerOrEqual R d ∧ !eq then 1 else 0

def endCount (d R : Desc) : Nat := if d.stop < R.stop ∧ !isStrongerOrEqual R d then 1 else 0

/-- The gap before `r` in the code. -/
theorem fillGap_spec (ht : Turn A₀ d region lost pre suf c prev r R)
    (hst : Stores s (pre ++ (r, R) :: suf) F M)
    (hlost : s.lockImp.nFree < gapCount d c (eqPrev s prev d) R → lost)
    (hs : fillGap s { d with start := c } prev r = some s₁) :
    ∃ pre₁ R₁ F₁, Stores s₁ (pre₁ ++ (r, R₁) :: suf) F₁ M ∧
      Gapped A₀ d region lost pre₁ suf c r R R₁ ∧ (∀ e ∈ pre₁, ¬ Own d e → e ∈ pre) ∧
      (Sorted pre₁ → Sorted pre) ∧
      (c < R.start → isWeakerOrEqual R d = true → R₁.start = c) ∧
      Added s (pre ++ (r, R) :: suf) F s₁ (pre₁ ++ (r, R₁) :: suf) F₁
        (gapCount d c (eqPrev s prev d) R) := by
  have hnd := hst.rep.fst_nodup
  have hR : s.desc r = R := hst.rep.desc (r, R) ht.mem
  unfold fillGap at hs
  rw [hR] at hs
  simp only at hs
  split at hs
  · rename_i hgap
    split at hs
    · rename_i hweak
      cases hs
      obtain ⟨hX, hY⟩ := hst.rep.split_not_mem
      have hcount : gapCount d c (eqPrev s prev d) R = 0 := by
        have : isWeakerOrEqual R d = true := hweak
        simp [gapCount, this]
      have hst' := hst.setLockDesc r { R with start := c }
      have hadd := Added.upd s (s.setLockDesc r { R with start := c }) rfl
        (pre ++ (r, R) :: suf) F r { R with start := c }
      rw [upd_split hX hY] at hst' hadd
      rw [hcount]
      exact ⟨pre, _, F, hst', ht.stretch hgap hweak, fun _ he _ => he, id, fun _ _ => rfl, hadd⟩
    · rename_i hweak
      have hnew : (∀ p, prev = some p → isEquallyStrong (s.desc p) { d with start := c } = false) →
          s.addNew { d with start := c, stop := R.start } = some s₁ →
          ∃ pre₁ R₁ F₁, Stores s₁ (pre₁ ++ (r, R₁) :: suf) F₁ M ∧
            Gapped A₀ d region lost pre₁ suf c r R R₁ ∧ (∀ e ∈ pre₁, ¬ Own d e → e ∈ pre) ∧
            (Sorted pre₁ → Sorted pre) ∧
            (c < R.start → isWeakerOrEqual R d = true → R₁.start = c) ∧
            Added s (pre ++ (r, R) :: suf) F s₁ (pre₁ ++ (r, R₁) :: suf) F₁
              (gapCount d c (eqPrev s prev d) R) := by
        intro heq hs
        have hcount : gapCount d c (eqPrev s prev d) R = 1 := by
          have hw : isWeakerOrEqual R d = false := by
            have : isWeakerOrEqual R d ≠ true := hweak
            simpa using this
          have he : eqPrev s prev d = false := by
            unfold eqPrev
            split
            · exact heq _ rfl
            · rfl
          simp [gapCount, hgap, hw, he]
        obtain ⟨q, F', rfl, hq, hst', hfree⟩ := hst.addNew hs
        have hadd := Added.insNew (F := F') (q := q) (A := pre ++ (r, R) :: suf)
          { d with start := c, stop := R.start } hfree
        rw [hcount] at hlost ⊢
        unfold insNew at hst' hadd
        split at hst'
        · rename_i hzero
          rw [if_pos hzero] at hadd
          exact ⟨pre, R, F', hst', ht.no_fill fun _ => hlost (by omega), fun _ he _ => he, id,
            fun _ h => absurd h hweak, hadd⟩
        · rename_i hzero
          rw [if_neg hzero] at hadd
          have hins := ins_append (e := (q, { d with start := c, stop := R.start })) (a := (r, R))
            hgap.le pre suf
          rw [hins] at hst' hadd
          refine ⟨_, R, F', hst', ht.insert hgap hq, ?_, fun h => h.sublist (sublist_ins _ _),
            fun _ h => absurd h hweak, hadd⟩
          intro e he hoe
          rcases mem_ins.mp he with rfl | he
          · exact absurd rfl hoe
          · exact he
      split at hs
      · rename_i p
        split at hs
        · rename_i heq
          cases hs
          obtain ⟨P, hP, hPo, hPstop⟩ := ht.prev p rfl
          have hPd : s.desc p = P := hst.rep.desc (p, P) (List.mem_append_left _ hP)
          rw [hPd] at heq ⊢
          have heq : isEquallyStrong P d = true := heq
          have hcount : gapCount d c (eqPrev s (some p) d) R = 0 := by
            simp [gapCount, eqPrev, hPd, heq]
          have hst' := hst.setLockDesc p { P with stop := R.start }
          have hadd := Added.upd s (s.setLockDesc p { P with stop := R.start }) rfl
            (pre ++ (r, R) :: suf) F p { P with stop := R.start }
          have hpout : p ∉ ((r, R) :: suf).map Prod.fst := by
            rw [List.map_append] at hnd
            exact fun hmem => (List.nodup_append.mp hnd).2.2 p (List.mem_map_of_mem hP) p hmem rfl
          have hupd : upd p { P with stop := R.start } (pre ++ (r, R) :: suf) =
              upd p { P with stop := R.start } pre ++ (r, R) :: suf := by
            have := upd_of_not_mem { P with stop := R.start } hpout
            unfold upd at this ⊢
            rw [List.map_append, this]
          rw [hupd] at hst' hadd
          rw [hcount]
          refine ⟨_, R, F, hst', ht.stretch_prev hgap hnd hP hPo hPstop heq, ?_, ?_,
            fun _ h => absurd h hweak, hadd⟩
          · intro e he hoe
            rcases mem_upd.mp he with ⟨he, -⟩ | ⟨rfl, -⟩
            · exact he
            · exact absurd hPo hoe
          · apply sorted_of_upd
            intro e he hep
            rw [List.inj_on_of_nodup_map hnd (List.mem_append_left _ he)
              (List.mem_append_left _ hP) hep]
        · rename_i heq
          exact hnew (fun q hq => by cases hq; simpa using heq) hs
      · exact hnew (fun q hq => by cases hq) hs
  · rename_i hgap
    cases hs
    have hcount : gapCount d c (eqPrev s prev d) R = 0 := by simp [gapCount, hgap]
    rw [hcount]
    exact ⟨pre, R, F, hst, ht.no_fill fun h => absurd h hgap, fun _ he _ => he, id,
      fun h _ => absurd h hgap, ⟨rfl, rfl, by omega, fun _ hq => hq⟩⟩

/-- A gap before `r` is a gap of the list that melting started with. -/
theorem Turn.stretch_gap (ht : Turn A₀ d region lost pre suf c prev r R) (hwf : WF A₀)
    (hnd : (A₀.map Prod.fst).Nodup) {x : Nat} (hc : c ≤ x) (hx : x < R.start)
    (hweak : isWeakerOrEqual R d = true) : Stretch A₀ d R x := by
  obtain ⟨Z, hA, -, hZ, hdone⟩ := ht.origin
  obtain ⟨X, rfl⟩ := hZ (by omega)
  have hR : (r, R) ∈ A₀ := by simp [hA]
  have hRne := ht.nonempty
  refine ⟨⟨r, hR⟩, ht.own, ht.overStart, hweak, ht.le.trans hc, hx, ?_⟩
  intro e he hoe hlt
  by_cases hes : e ∈ suf
  · have := ht.after e hes hoe
    omega
  · have hez : e ∈ X ++ [(r, R)] := by
      rw [hA] at he
      exact (List.mem_append.mp he).resolve_right hes
    rcases hdone e hez hoe with hle | ⟨hstop, -⟩
    · omega
    · -- Two own locks with the same end are the same lock.
      have hover : e.2.Overlaps R := ⟨by omega, by omega⟩
      by_cases her : e.1 = r
      · rw [List.inj_on_of_nodup_map hnd he hR her] at hlt
        exact absurd hlt (lt_irrefl _)
      · exact absurd hover (hwf.disjoint e he (r, R) hR her (hoe.trans ht.own.symm))

theorem sorted_middle {X Y : List (Entry Tag)} {r : Nat} {D D' : Desc}
    (h : Sorted (X ++ (r, D) :: Y)) (hX : ∀ e ∈ X, e.2.start ≤ D'.start)
    (hle : D'.start ≤ D.start) : Sorted (X ++ (r, D') :: Y) := by
  obtain ⟨h1, h2, h3⟩ := List.pairwise_append.mp h
  obtain ⟨h4, h5⟩ := List.pairwise_cons.mp h2
  refine List.pairwise_append.mpr ⟨h1, List.pairwise_cons.mpr ⟨?_, h5⟩, ?_⟩
  · intro e he
    exact hle.trans (h4 e he)
  · intro e he f hf
    rcases List.mem_cons.mp hf with rfl | hf
    · exact hX e he
    · exact h3 e he f (List.mem_cons_of_mem _ hf)

/-- The order after a turn in which `R` is not put in its place again. -/
theorem Gapped.sorted_keep (hg : Gapped A₀ d region lost pre₁ suf c r R R₁)
    (ht : Turn A₀ d region lost pre suf c prev r R) (hwf : WF A₀)
    (hnd : (A₀.map Prod.fst).Nodup) (hfor : ∀ e ∈ pre₁, ¬ Own d e → e ∈ pre)
    (hkeep : ¬ (d.stop < R.stop ∧ isStrongerOrEqual R d = false)) {R₃ : Desc}
    (hR₃ : R₃.start = R₁.start) (hno : ¬ Crossing A₀ d) : Sorted (pre₁ ++ (r, R₃) :: suf) := by
  have hsort := hg.sorted hno
  rcases hg.shape with rfl | ⟨rfl, hlt, hweak, hbefore⟩
  · refine sorted_middle hsort ?_ hR₃.le
    intro e he
    rw [hR₃]
    exact (List.pairwise_append.mp hsort).2.2 e he _ List.mem_cons_self
  · refine sorted_middle hsort ?_ (by rw [hR₃]; exact hlt.le)
    intro e he
    rw [hR₃]
    by_cases hoe : Own d e
    · have := hbefore e he hoe
      have := hg.melted.nonempty e (List.mem_append_left _ he) hoe
      simp only
      omega
    · obtain ⟨Z, hA, hZ, hX, -⟩ := ht.origin
      obtain ⟨X, rfl⟩ := hX hlt
      have heX : e ∈ X := by
        rcases List.mem_append.mp (hZ e (hfor e he hoe) hoe) with h | h
        · exact h
        · rw [List.mem_singleton.mp h] at hoe
          exact absurd ht.own hoe
      refine Nat.le_of_not_lt fun hcross => hno ⟨r, R, X, suf, c, by simp [hA],
        ht.stretch_gap hwf hnd (Nat.le_refl _) hlt hweak, hkeep, e, heX, hcross⟩

/-- Up to where `R` is locked after its turn. -/
def endStop (d R : Desc) : Nat :=
  if d.stop < R.stop ∧ !isStrongerOrEqual R d then d.stop else R.stop

/-- After the turn of `r`: it is locked as `R₃` now. -/
structure Turned (A₀ : List (Entry Tag)) (d : Desc) (region : Nat → Prop) (lost : Prop)
    (pre₁ suf : List (Entry Tag)) (r : Nat) (R R₃ : Desc) (A' : List (Entry Tag)) : Prop where
  melted : Melted A₀ d region lost A'
  mem : (r, R₃) ∈ A'
  tag : R₃.tag = strongest R.tag d.tag
  stop : R₃.stop = endStop d R
  le : R₃.start ≤ R.start
  filled : ∀ x, d.start ≤ x → x < R₃.stop → Covers A' d.tag.mandate x ∨ lost
  sorted : ¬ Crossing A₀ d → Sorted A'
  shape : R.stop < d.stop → A' = pre₁ ++ (r, R₃) :: suf
  crossing : Sorted (pre₁ ++ [(r, R₃)]) → ¬ CrossAt A₀ d r R
  back : Sorted A' → Sorted pre₁ ∧ ¬ CrossAt A₀ d r R

/-- What is filled stays filled when `R₁` becomes `R₃` and `N`. -/
theorem Gapped.filled_after (hg : Gapped A₀ d region lost pre₁ suf c r R R₁)
    (ht : Turn A₀ d region lost pre suf c prev r R) {A' N : List (Entry Tag)} (R₃ : Desc)
    (hstart : R₃.start = R₁.start) (htag : R₃.tag = strongest R.tag d.tag)
    (hmem : ∀ e, e ∈ A' ↔ e ∈ pre₁ ++ suf ∨ e = (r, R₃) ∨ e ∈ N) {x : Nat} (hdx : d.start ≤ x)
    (hx : x < R₃.stop) : Covers A' d.tag.mandate x ∨ lost := by
  have hown : R₃.tag.mandate = d.tag.mandate := by
    rw [htag]
    exact ht.own
  rcases Nat.lt_or_ge x R₁.start with hlt | hge
  · refine (hg.filled x hdx (Or.inr hlt)).imp_left ?_
    rintro ⟨e, he, ho, hex⟩
    simp only [List.mem_append, List.mem_cons] at he
    rcases he with he | rfl | he
    · exact ⟨e, (hmem e).mpr (Or.inl (List.mem_append_left _ he)), ho, hex⟩
    · -- `R` starts behind the gap.
      obtain ⟨-, -, hle⟩ := hg.tag
      exact absurd hex.1 (by simp only; omega)
    · exact ⟨e, (hmem e).mpr (Or.inl (List.mem_append_right _ he)), ho, hex⟩
  · exact Or.inl ⟨(r, R₃), (hmem _).mpr (Or.inr (Or.inl rfl)), hown, hstart.trans_le hge, hx⟩

/-- A gap that `R` is stretched over. -/
theorem Gapped.stretch (hg : Gapped A₀ d region lost pre₁ suf c r R R₁)
    (ht : Turn A₀ d region lost pre suf c prev r R) (hwf : WF A₀)
    (hnd : (A₀.map Prod.fst).Nodup) {x : Nat} (hx : R₁.Has x) (hlt : x < R.start) :
    c ≤ x ∧ Stretch A₀ d R x := by
  rcases hg.shape with rfl | ⟨rfl, -, hweak, -⟩
  · exact absurd hx.1 (Nat.not_le.mpr hlt)
  · exact ⟨hx.1, ht.stretch_gap hwf hnd hx.1 hlt hweak⟩

/-- If the list is sorted after a turn, `R` was not stretched over the start of another lock. -/
theorem Gapped.not_crossAt (hg : Gapped A₀ d region lost pre₁ suf c r R R₁)
    (ht : Turn A₀ d region lost pre suf c prev r R) (hwf : WF A₀)
    (hnd : (A₀.map Prod.fst).Nodup)
    (hdown : c < R.start → isWeakerOrEqual R d = true → R₁.start = c) {R₃ : Desc}
    (hR₃ : R₃.start = R₁.start) (hsort : Sorted (pre₁ ++ [(r, R₃)])) : ¬ CrossAt A₀ d r R := by
  rintro ⟨X, Y, x, hXY, hs, -, f, hf, hfx⟩
  have hRne := ht.nonempty
  have hrA : (r, R) ∈ A₀ := by simp [hXY]
  have hfA : f ∈ A₀ := by simp [hXY, hf]
  have hx := hs.gap.lt
  have hcx : c ≤ x := by
    rcases ht.last with hc | ⟨e, he, ho, hstop, hlt⟩
    · rw [hc]
      exact hs.gap.le
    · rw [← hstop]
      exact hs.gap.free e he ho hlt
  have hstart : R₁.start = c := hdown (by omega) hs.weaker
  -- The other lock is foreign, so it is still before `r`.
  have hle : f.2.start ≤ R.start := by
    have := hwf.sorted
    rw [hXY] at this
    exact (List.pairwise_append.mp this).2.2 f hf _ List.mem_cons_self
  have hfr : f.1 ≠ r := by
    rw [hXY] at hnd
    exact ((mem_others hnd).mp (List.mem_append_left _ hf)).2
  have hfor : ¬ Own d f := by
    intro ho
    have hfne := hwf.nonempty f hfA
    have hno := hwf.disjoint f hfA _ hrA hfr (ho.trans ht.own.symm)
    have hlt : f.2.start < R.start := Nat.lt_of_le_of_ne hle fun heq =>
      hno ⟨by simp only; omega, by simp only; omega⟩
    have := hs.gap.free f hfA ho hlt
    omega
  have hfB := (hg.melted.foreign f hfor).mpr hfA
  have hfpre : f ∈ pre₁ := by
    simp only [List.mem_append, List.mem_cons] at hfB
    rcases hfB with h | rfl | h
    · exact h
    · exact absurd rfl hfr
    · exfalso
      obtain ⟨Z, hA, -, hZ, -⟩ := ht.origin
      obtain ⟨X', rfl⟩ := hZ (by omega)
      rw [hXY] at hnd hA
      have hnot : ∀ e ∈ X ++ Y, e ≠ (r, R) := fun e he heq => ((mem_others hnd).mp he).2 (by rw [heq])
      rw [List.append_assoc] at hA
      obtain ⟨-, -, rfl⟩ := (List.append_cons_inj_of_notMem
        (fun h => hnot _ (List.mem_append_left _ h) rfl)
        (fun h => hnot _ (List.mem_append_right _ h) rfl)).mp hA
      rw [List.map_append, List.map_cons] at hnd
      have hdisj := (List.nodup_append.mp hnd).2.2 f.1 (List.mem_map.mpr ⟨f, hf, rfl⟩) f.1
      exact hdisj (List.mem_cons_of_mem _ (List.mem_map.mpr ⟨f, h, rfl⟩)) rfl
  have := (List.pairwise_append.mp hsort).2.2 f hfpre _ List.mem_cons_self
  simp only [startLe] at this
  omega

/-- One turn of the loop. -/
theorem turn_spec (ht : Turn A₀ d region lost pre suf c prev r R) (hwf : WF A₀)
    (hnd : (A₀.map Prod.fst).Nodup) (hst : Stores s (pre ++ (r, R) :: suf) F M)
    (hlost : s.lockImp.nFree < gapCount d c (eqPrev s prev d) R + endCount d R → lost)
    (hs₁ : fillGap s { d with start := c } prev r = some s₁)
    (hs₂ : splitEnd s₁ { d with start := c } r = some s₂) :
    ∃ pre₁ R₃ A' F', Stores (setStrongest s₂ r { d with start := c }) A' F' M ∧
      Turned A₀ d region lost pre₁ suf r R R₃ A' ∧
      (∀ e ∈ pre₁, ¬ Own d e → e ∈ pre) ∧ (Sorted pre₁ → Sorted pre) ∧
      (∀ e ∈ pre₁, Own d e → e.2.stop ≤ c ∨ e.2.stop ≤ R.start) ∧
      Added s (pre ++ (r, R) :: suf) F (setStrongest s₂ r { d with start := c }) A' F'
        (gapCount d c (eqPrev s prev d) R + endCount d R) := by
  obtain ⟨pre₁, R₁, F₁, hst₁, hg, hfor, hback, hdown, hadd₁⟩ :=
    fillGap_spec ht hst (fun h => hlost (by omega)) hs₁
  obtain ⟨htag, hstop, hle⟩ := hg.tag
  have hdesc : s₁.desc r = R₁ := hst₁.rep.desc (r, R₁) (by simp)
  have hnd₁ : ((pre₁ ++ (r, R) :: suf).map Prod.fst).Nodup := by
    simpa using hst₁.rep.fst_nodup
  obtain ⟨hX, hY⟩ := hst₁.rep.split_not_mem
  have hstrong : isStrongerOrEqual R₁ { d with start := c } = isStrongerOrEqual R d := by
    simp only [isStrongerOrEqual, htag]
  unfold splitEnd at hs₂
  rw [hdesc, hstrong, hstop] at hs₂
  simp only at hs₂
  split at hs₂
  · rename_i hend
    have hcount : endCount d R = 1 := by rw [endCount, if_pos hend]
    have hendStop : endStop d R = d.stop := by rw [endStop, if_pos hend]
    obtain ⟨q, F', rfl, hq, hst₂, hfree⟩ := hst₁.splitLockRec (by simp) hs₂
    rw [del_split hX hY] at hst₂
    set kept : Desc := { R₁ with stop := d.stop } with hkept
    set rest : Desc := { R₁ with start := d.stop } with hrest
    set R₃ : Desc := { kept with tag := strongest R.tag d.tag } with hR₃
    set B := insNew s₁ q rest (ins (r, kept) (pre₁ ++ suf)) with hB
    have hrB : (r, kept) ∈ B := mem_insNew_of_mem (mem_ins.mpr (Or.inl rfl))
    have hdesc₂ : s₂.desc r = kept := hst₂.rep.desc _ hrB
    have hset : setStrongest s₂ r { d with start := c } = s₂.setLockDesc r R₃ := by
      simp only [setStrongest, hdesc₂, hR₃, hkept, htag]
    have hst₃ := hst₂.setLockDesc r R₃
    have hadd : Added s₁ (pre₁ ++ (r, R₁) :: suf) (q :: F') (s₂.setLockDesc r R₃) (upd r R₃ B) F' 1 := by
      have hset' : Added s₂ B F' (s₂.setLockDesc r R₃) (upd r R₃ B) F' 0 :=
        Added.upd s₂ (s₂.setLockDesc r R₃) rfl B F' r R₃
      simpa using (Added.split kept rest hfree).trans hset'
    -- What is in the list now.
    set N : List (Entry Tag) :=
      if s₁.lockImp.nFree = 0 then [] else [(q, { R with start := d.stop })] with hN
    have hrestR : rest = { R with start := d.stop } := by rw [hrest, hstop, htag]
    have hBmem : ∀ e, e ∈ B ↔ e ∈ N ∨ e = (r, kept) ∨ e ∈ pre₁ ++ suf := by
      intro e
      rw [hB, hN, insNew]
      split
      · rw [mem_ins]
        simp only [List.not_mem_nil, false_or]
      · rw [mem_ins, mem_ins, List.mem_singleton, hrestR]
    have hqr : q ≠ r := by
      rintro rfl
      exact hq (by simp)
    have hNr : ∀ e ∈ N, e.1 ≠ r := by
      intro e he
      rw [hN] at he
      split at he
      · cases he
      · rw [List.mem_singleton.mp he]
        exact hqr
    have hpr : ∀ e ∈ pre₁ ++ suf, e.1 ≠ r := by
      rintro e he rfl
      rcases List.mem_append.mp he with he | he
      · exact hX (List.mem_map_of_mem he)
      · exact hY (List.mem_map_of_mem he)
    have hmem : ∀ e, e ∈ upd r R₃ B ↔ e ∈ pre₁ ++ suf ∨ e = (r, R₃) ∨ e ∈ N := by
      intro e
      rw [mem_upd, hBmem]
      constructor
      · rintro (⟨he | rfl | he, hne⟩ | ⟨rfl, -⟩)
        · exact Or.inr (Or.inr he)
        · exact absurd rfl hne
        · exact Or.inl he
        · exact Or.inr (Or.inl rfl)
      · rintro (he | rfl | he)
        · exact Or.inl ⟨Or.inr (Or.inr he), hpr e he⟩
        · exact Or.inr ⟨rfl, List.mem_map.mpr ⟨_, hrB, rfl⟩⟩
        · exact Or.inl ⟨Or.inl he, hNr e he⟩
    have hlost' : s₁.lockImp.nFree = 0 → lost := by
      intro hzero
      have := hadd₁.natives
      exact hlost (by omega)
    rw [hset, hcount]
    have hno : ¬ CrossAt A₀ d r R := by
      rintro ⟨X, Y, x, -, -, hkeep, -⟩
      exact hkeep ⟨hend.1, by simpa using hend.2⟩
    have hpre₁ : Sorted (upd r R₃ B) → Sorted pre₁ := by
      intro hsort
      have hB' : Sorted B := by
        apply sorted_of_upd ?_ hsort
        intro e he her
        rcases (hBmem e).mp he with he | rfl | he
        · exact absurd her (hNr e he)
        · rfl
        · exact absurd her (hpr e he)
      have hsub : (pre₁ ++ suf).Sublist B := by
        rw [hB, insNew]
        split
        · exact sublist_ins _ _
        · exact (sublist_ins _ _).trans (sublist_ins _ _)
      exact hB'.sublist ((List.sublist_append_left _ _).trans hsub)
    refine ⟨pre₁, R₃, _, F', hst₃, ⟨?_, (hmem _).mpr (Or.inr (Or.inl rfl)), rfl, ?_, hle, ?_, ?_, ?_,
      fun _ => hno, fun hsort => ⟨hpre₁ hsort, hno⟩⟩, hfor, hback, hg.before, hadd₁.trans hadd⟩
    · refine hg.strengthen ht hnd₁ (fun x hx hlt => hg.stretch ht hwf hnd hx hlt) (t := d.stop)
        rfl hmem (Or.inr ⟨rfl, hend.1, ?_⟩)
      rw [hN]
      split
      · exact Or.inr ⟨rfl, hlost' ‹_›⟩
      · exact Or.inl ⟨q, rfl⟩
    · rw [hendStop]
    · exact fun x hdx hx => hg.filled_after ht R₃ rfl rfl hmem hdx hx
    · intro hno
      have hsort : Sorted (pre₁ ++ suf) := by
        have := (hg.sorted hno).del r
        rwa [del_split (D := R) hX hY] at this
      refine (sorted_insNew (hsort.ins _) _ _ _).upd ?_
      intro e he her
      rcases (hBmem e).mp he with he | rfl | he
      · exact absurd her (hNr e he)
      · rfl
      · exact absurd her (hpr e he)
    · intro hlt
      exact absurd hend.1 (by omega)
  · rename_i hkeep
    cases hs₂
    have hcount : endCount d R = 0 := by rw [endCount, if_neg hkeep]
    have hendStop : endStop d R = R.stop := by rw [endStop, if_neg hkeep]
    set R₃ : Desc := { R₁ with tag := strongest R.tag d.tag } with hR₃
    have hset : setStrongest s₁ r { d with start := c } = s₁.setLockDesc r R₃ := by
      simp only [setStrongest, hdesc, hR₃, htag]
    have hst₃ := hst₁.setLockDesc r R₃
    have hadd := hadd₁.trans (Added.upd s₁ (s₁.setLockDesc r R₃) rfl
      (pre₁ ++ (r, R₁) :: suf) F₁ r R₃)
    rw [upd_split hX hY] at hst₃ hadd
    rw [hset, hcount]
    have hmem : ∀ e, e ∈ pre₁ ++ (r, R₃) :: suf ↔
        e ∈ pre₁ ++ suf ∨ e = (r, R₃) ∨ e ∈ ([] : List (Entry Tag)) := by
      intro e
      simp only [List.mem_append, List.mem_cons, List.not_mem_nil, or_false]
      tauto
    have hkeep' : ¬ (d.stop < R.stop ∧ isStrongerOrEqual R d = false) := by simpa using hkeep
    have hno : Sorted (pre₁ ++ [(r, R₃)]) → ¬ CrossAt A₀ d r R := hg.not_crossAt ht hwf hnd hdown rfl
    refine ⟨pre₁, R₃, _, F₁, hst₃, ⟨?_, by simp, rfl, ?_, hle, ?_, ?_, fun _ => rfl, hno,
      fun hsort => ⟨hsort.sublist (List.sublist_append_left _ _), hno (hsort.sublist ?_)⟩⟩,
      hfor, hback, hg.before, hadd⟩
    · refine hg.strengthen ht hnd₁ (fun x hx hlt => hg.stretch ht hwf hnd hx hlt) (t := R.stop)
        (by rw [hR₃, ← hstop]) hmem (Or.inl ⟨rfl, rfl, ?_⟩)
      by_contra hno
      rw [not_or] at hno
      exact hkeep' ⟨by omega, by simpa using hno.2⟩
    · rw [hendStop]
      exact hstop
    · exact fun x hdx hx => hg.filled_after ht R₃ rfl rfl hmem hdx hx
    · exact hg.sorted_keep ht hwf hnd hfor hkeep' rfl
    · exact (List.singleton_sublist.mpr (by simp)).append_left pre₁

end Athomux.LockMelt
