import Athomux.LockMelt.Run

/-! # The first turn -/

open Lib Athomux.LockList

namespace Athomux.LockMelt

variable {n : Nat} {A₀ A A' : List (Entry Tag)} {d : Desc} {region : Nat → Prop} {lost : Prop}
  {X suf suf₁ suf₂ : List (Entry Tag)} {r : Nat} {R : Desc} {s s' : LockList Tag n} {F : List Nat}
  {M : Finset Nat}

/-- `r` is the first own lock that overlaps `d`. -/
structure FirstOwn (A₀ : List (Entry Tag)) (d : Desc) (X : List (Entry Tag)) (r : Nat) (R : Desc)
    (suf : List (Entry Tag)) : Prop where
  split : A₀ = X ++ (r, R) :: suf
  own : R.tag.mandate = d.tag.mandate
  overStart : R.start < d.stop
  overStop : d.start < R.stop
  before : ∀ e ∈ X, Own d e → e.2.stop ≤ d.start

/-- The search for it. -/
theorem findFirst_own (hst : Stores s A₀ F M) (hsort : Sorted A₀) :
    match s.findFirstLock d isOwn with
    | none => ∀ e ∈ A₀, Own d e → ¬ e.2.Overlaps d
    | some r => ∃ X R suf, FirstOwn A₀ d X r R suf := by
  rw [hst.rep.findFirstLock]
  cases hf : Rep.findEntry d isOwn A₀ with
  | none =>
    simp only [Option.map_none]
    intro e he ho hover
    have := findEntry_none hsort hf e he hover
    rw [own_iff.mpr ho] at this
    cases this
  | some e =>
    simp only [Option.map_some]
    obtain ⟨X, suf, rfl, hover, hreq, hX⟩ := findEntry_some hf
    refine ⟨X, e.2, suf, rfl, own_iff.mp hreq, hover.1, hover.2, ?_⟩
    intro f hfX ho
    refine Nat.le_of_not_lt fun hlt => ?_
    have hle : f.2.start ≤ e.2.start :=
      (List.pairwise_append.mp hsort).2.2 f hfX e List.mem_cons_self
    have := hX f hfX ⟨lt_of_le_of_lt hle hover.1, hlt⟩
    rw [own_iff.mpr ho] at this
    cases this

theorem FirstOwn.entry (hf : FirstOwn A₀ d X r R suf) (hst : Stores s A₀ F M)
    (hfind : s.findFirstLock d isOwn = some r) : Rep.findEntry d isOwn A₀ = some (r, R) := by
  rw [hst.rep.findFirstLock, Option.map_eq_some_iff] at hfind
  obtain ⟨e, he, rfl⟩ := hfind
  obtain ⟨Y, Z, hYZ, -⟩ := findEntry_some he
  have heA : e ∈ A₀ := by simp [hYZ]
  have hrA : (e.1, R) ∈ A₀ := by simp [hf.split]
  rw [he, List.inj_on_of_nodup_map hst.rep.fst_nodup heA hrA rfl]

/-- No own lock overlaps `d`. -/
theorem done_of_none (hwf : WF A₀) (hno : ∀ e ∈ A₀, Own d e → ¬ e.2.Overlaps d) :
    Done A₀ d region lost d.start A₀ where
  melted := Melted.refl hwf d region lost
  sorted _ := hwf.sorted
  le := Nat.le_refl _
  filled _ hx hlt := absurd hlt (Nat.not_lt.mpr hx)
  rest e he ho _ hx hxd hex := hno e he ho ⟨lt_of_le_of_lt hex.1 hxd, lt_of_le_of_lt hx hex.2⟩

/-- Only a lock that starts in `d` is stretched. -/
theorem CrossAt.overlaps (hwf : WF A₀) (h : CrossAt A₀ d r R) :
    (r, R) ∈ A₀ ∧ Own d (r, R) ∧ R.Overlaps d ∧ d.start < R.start := by
  obtain ⟨X, Y, x, hXY, hs, -⟩ := h
  have hrA : (r, R) ∈ A₀ := by simp [hXY]
  have hRne := hwf.nonempty _ hrA
  have hstart : d.start < R.start := lt_of_le_of_lt hs.gap.le hs.gap.lt
  exact ⟨hrA, hs.own, ⟨hs.lt, hstart.trans hRne⟩, hstart⟩

theorem not_crossing_of_none (hwf : WF A₀) (hno : ∀ e ∈ A₀, Own d e → ¬ e.2.Overlaps d) :
    ¬ Crossing A₀ d := by
  rintro ⟨r, R, h⟩
  obtain ⟨hr, ho, hover, -⟩ := h.overlaps hwf
  exact hno _ hr ho hover

/-- It is enough to look at the locks of the turns. -/
theorem FirstOwn.not_crossing (hf : FirstOwn A₀ d X r R (suf₁ ++ suf₂)) (hwf : WF A₀)
    {R' : Desc} (hR : R' = R ∨ R.start < d.start) (hsuf₁ : ∀ e ∈ suf₁, e.2.start < d.start)
    (h : ∀ e ∈ (r, R') :: suf₂, ¬ CrossAt A₀ d e.1 e.2) : ¬ Crossing A₀ d := by
  rintro ⟨q, Q, hcross⟩
  obtain ⟨hq, ho, ⟨-, hover⟩, hstart⟩ := hcross.overlaps hwf
  rw [hf.split] at hq
  simp only [List.mem_append, List.mem_cons, Prod.mk.injEq] at hq
  rcases hq with hq | ⟨rfl, rfl⟩ | hq | hq
  · have := hf.before _ hq ho
    simp only at this
    omega
  · rcases hR with rfl | hlt
    · exact h _ List.mem_cons_self hcross
    · omega
  · have := hsuf₁ _ hq
    simp only at this
    omega
  · exact h _ (List.mem_cons_of_mem _ hq) hcross

theorem FirstOwn.after (hf : FirstOwn A₀ d X r R suf) (hwf : WF A₀)
    (hnd : (A₀.map Prod.fst).Nodup) : ∀ e ∈ suf, Own d e → R.stop ≤ e.2.start := by
  intro e he ho
  have heA : e ∈ A₀ := by simp [hf.split, he]
  have hrA : (r, R) ∈ A₀ := by simp [hf.split]
  have hsort := hwf.sorted
  rw [hf.split] at hsort hnd
  have hle : R.start ≤ e.2.start :=
    (List.pairwise_cons.mp (List.pairwise_append.mp hsort).2.1).1 e he
  have hne : e.1 ≠ r := by
    rintro rfl
    rw [List.map_append, List.map_cons] at hnd
    exact (List.nodup_cons.mp (List.nodup_append.mp hnd).2.1).1 (List.mem_map.mpr ⟨e, he, rfl⟩)
  have hene := hwf.nonempty e heA
  refine Nat.le_of_not_lt fun hlt => ?_
  exact hwf.disjoint e heA _ hrA hne (ho.trans hf.own.symm) ⟨hlt, lt_of_le_of_lt hle hene⟩

/-- The first turn when the first lock is not split. -/
theorem FirstOwn.turn (region : Nat → Prop) (lost : Prop) (hf : FirstOwn A₀ d X r R suf) (hwf : WF A₀) (hnd : (A₀.map Prod.fst).Nodup)
    (hd : d.start < d.stop)
    (hreg : ∀ x, R.Has x → x < d.stop → region x ∨ isStrongerOrEqual R d = true) :
    Turn A₀ d region lost X suf d.start none r R := by
  have hsplit := hf.split
  refine ⟨?_, hf.own, hf.overStop, hf.overStart, Nat.le_refl _, hd, hf.before, hf.after hwf hnd,
    hreg, by simp, Or.inl rfl, ⟨(r, R), by simp [hsplit], hf.own, rfl, Nat.le_refl _⟩,
    ⟨X ++ [(r, R)], by simp [hsplit], ?_, fun _ => ⟨X, rfl⟩, ?_⟩, ?_, ?_⟩
  · rw [← hsplit]
    exact Melted.refl hwf d region lost
  · intro e he _
    exact List.mem_append_left _ he
  · intro e he ho
    rcases List.mem_append.mp he with he | he
    · exact Or.inl (hf.before e he ho)
    · rw [List.mem_singleton.mp he]
      exact Or.inr ⟨rfl, Nat.le_refl _⟩
  · intro x hx hlt
    omega
  · intro _
    rw [← hsplit]
    exact hwf.sorted

/-! ## Splitting the first lock -/

/-- The first lock goes on at the start of `d`, and `P` are the entries before it then: what
is below the start of `d` is a new entry, if there is a native lock. -/
theorem FirstOwn.turn_split (region : Nat → Prop) (hf : FirstOwn A₀ d X r R (suf₁ ++ suf₂)) (hwf : WF A₀)
    (hnd : (A₀.map Prod.fst).Nodup) (hd : d.start < d.stop) (hlt : R.start < d.start)
    (hsuf₁ : ∀ e ∈ suf₁, e.2.start < d.start) {q : Nat}
    {P : List (Entry Tag)}
    (hP : P = ins (q, { R with stop := d.start }) (X ++ suf₁) ∨ P = X ++ suf₁ ∧ lost)
    (hsort : Sorted (P ++ (r, { R with start := d.start }) :: suf₂))
    (hreg : ∀ x, R.Has x → d.start ≤ x → x < d.stop → region x) :
    Turn A₀ d region lost P suf₂ d.start none r { R with start := d.start } := by
  have hsplit := hf.split
  have hstop := hf.overStop
  have hrA : (r, R) ∈ A₀ := by simp [hsplit]
  have hafter := hf.after hwf hnd
  set kept : Desc := { R with start := d.start } with hkept
  set rest : Desc := { R with stop := d.start } with hrest
  have huniq : ∀ e ∈ A₀, e.1 = r → e = (r, R) := fun e he her =>
    List.inj_on_of_nodup_map hnd he hrA her
  have hPmem : ∀ e ∈ P, e = (q, rest) ∨ e ∈ X ++ suf₁ := by
    intro e he
    rcases hP with rfl | ⟨rfl, -⟩
    · exact mem_ins.mp he
    · exact Or.inr he
  -- No own lock is between the two parts.
  have hbefore : ∀ e ∈ P, Own d e → e.2.stop ≤ d.start := by
    intro e he ho
    rcases hPmem e he with rfl | he
    · exact Nat.le_refl _
    · rcases List.mem_append.mp he with he | he
      · exact hf.before e he ho
      · have := hafter e (List.mem_append_left _ he) ho
        have := hsuf₁ e he
        omega
  obtain ⟨N, hN, hkeptN, hrestN, hPN⟩ : ∃ N : List (Entry Tag),
      (∀ e ∈ N, e = (r, kept) ∨ e = (q, rest)) ∧ (r, kept) ∈ N ∧ ((q, rest) ∈ N ∨ lost) ∧
      ∀ e, e ∈ P ++ (r, kept) :: suf₂ ↔ e ∈ X ++ suf₁ ++ suf₂ ∨ e ∈ N := by
    rcases hP with rfl | ⟨rfl, hl⟩
    · refine ⟨[(r, kept), (q, rest)], by simp, by simp, Or.inl (by simp), ?_⟩
      intro e
      simp only [List.mem_append, List.mem_cons, mem_ins, List.not_mem_nil, or_false]
      tauto
    · refine ⟨[(r, kept)], by simp, by simp, Or.inr hl, ?_⟩
      intro e
      simp only [List.mem_append, List.mem_cons, List.not_mem_nil, or_false]
      tauto
  have hothers : ∀ e, e ∈ X ++ suf₁ ++ suf₂ ↔ e ∈ A₀ ∧ e.1 ≠ r := by
    intro e
    rw [hsplit] at hnd ⊢
    rw [List.append_assoc]
    exact mem_others hnd
  have hinside : ∀ e ∈ N, Own d e ∧ e.2.start < e.2.stop ∧ R.start ≤ e.2.start ∧
      e.2.stop ≤ R.stop ∧ e.2.tag = R.tag := by
    intro e he
    rcases hN e he with rfl | rfl
    · exact ⟨hf.own, hstop, hlt.le, Nat.le_refl _, rfl⟩
    · exact ⟨hf.own, hlt, Nat.le_refl _, hstop.le, rfl⟩
  have hedit : Edit d A₀ (P ++ (r, kept) :: suf₂) r N := by
    refine ⟨fun e => by rw [hPN, hothers], ?_, fun e he => (hinside e he).1,
      fun e he => (hinside e he).2.1, ?_, ?_⟩
    · intro e he her
      rw [huniq e he her]
      exact hf.own
    · intro e he f hf hne
      rcases hN e he with rfl | rfl <;> rcases hN f hf with rfl | rfl
      · exact absurd rfl hne
      · exact fun ho => absurd ho.1 (lt_irrefl _)
      · exact fun ho => absurd ho.2 (lt_irrefl _)
      · exact absurd rfl hne
    · rintro e he f hfA hof hfr ⟨h1, h2⟩
      obtain ⟨-, -, h3, h4, -⟩ := hinside e he
      exact hwf.disjoint f hfA _ hrA hfr (hof.trans hf.own.symm) ⟨by simp only; omega, by simp only; omega⟩
  have hmelted : Melted A₀ d region lost (P ++ (r, kept) :: suf₂) := by
    refine (Melted.refl hwf d region lost).edit hedit ?_ ?_
    · intro e he x hx
      obtain ⟨-, -, h3, h4, h5⟩ := hinside e he
      exact Or.inl ⟨R, hrA, ⟨h3.trans hx.1, lt_of_lt_of_le hx.2 h4⟩, Or.inl (congrArg _ h5)⟩
    · intro R' hR' x hx
      have : R' = R := congrArg Prod.snd (huniq _ hR' rfl)
      subst this
      rcases Nat.lt_or_ge x d.start with hxd | hxd
      · rcases hrestN with hr | hl
        · exact Or.inl ⟨_, hr, hx.1, hxd⟩
        · exact Or.inr ⟨hl, fun hdx => absurd hdx.1 (Nat.not_le.mpr hxd)⟩
      · exact Or.inl ⟨_, hkeptN, hxd, hx.2⟩
  refine ⟨hmelted, hf.own, hstop, hd, Nat.le_refl _, hd, hbefore,
    fun e he => hafter e (List.mem_append_right _ he), ?_, by simp, Or.inl rfl,
    ⟨(r, R), hrA, hf.own, rfl, hlt.le⟩, ?_, ?_, fun _ => hsort⟩
  · intro x hx hxd
    exact Or.inl (hreg x ⟨hlt.le.trans hx.1, hx.2⟩ hx.1 hxd)
  · refine ⟨X ++ (r, R) :: suf₁, by simp [hsplit], ?_, fun h => absurd h (lt_irrefl _), ?_⟩
    · intro e he ho
      rcases hPmem e he with rfl | he
      · exact absurd hf.own ho
      · simp only [List.mem_append, List.mem_cons] at he ⊢
        tauto
    · intro e he ho
      rcases List.mem_append.mp he with he | he
      · exact Or.inl (hf.before e he ho)
      · rcases List.mem_cons.mp he with rfl | he
        · exact Or.inr ⟨rfl, hlt.le⟩
        · have := hafter e (List.mem_append_left _ he) ho
          have := hsuf₁ e he
          omega
  · intro x hx hlt
    omega

/-- The code of the split. `tag` is what the part in `d` becomes. -/
theorem split_first (tag : Tag) (hf : FirstOwn A₀ d X r R suf) (hsort : Sorted A₀) (hst : Stores s A₀ F M)
    (hlt : R.start < d.start)
    (hs : s.splitLockRec r { R with start := d.start, tag := tag } { R with stop := d.start } =
      some s') :
    ∃ suf₁ suf₂ q F' P, suf = suf₁ ++ suf₂ ∧ F = q :: F' ∧ q ∉ A₀.map Prod.fst ∧
      (∀ e ∈ suf₁, e.2.start < d.start) ∧
      Stores s' (P ++ (r, { R with start := d.start, tag := tag }) :: suf₂) F' M ∧
      (P = ins (q, { R with stop := d.start }) (X ++ suf₁) ∧ 0 < s.lockImp.nFree ∨
        P = X ++ suf₁ ∧ s.lockImp.nFree = 0) ∧
      Sorted (P ++ (r, { R with start := d.start, tag := tag }) :: suf₂) ∧
      Added s A₀ F s' (P ++ (r, { R with start := d.start, tag := tag }) :: suf₂) F' 1 := by
  have hsplit := hf.split
  subst hsplit
  obtain ⟨hX, hY⟩ := hst.rep.split_not_mem
  obtain ⟨q, F', rfl, hq, hst', hfree⟩ := hst.splitLockRec (by simp) hs
  rw [del_split hX hY] at hst'
  set kept : Desc := { R with start := d.start, tag := tag } with hkept
  set rest : Desc := { R with stop := d.start } with hrest
  set p : Entry Tag → Bool := fun b => !decide (kept.start ≤ b.2.start) with hp
  have hXp : ∀ e ∈ X, p e = true := by
    intro e he
    have : e.2.start ≤ R.start := (List.pairwise_append.mp hsort).2.2 e he _ List.mem_cons_self
    simp only [hp, hkept, Bool.not_eq_true', decide_eq_false_iff_not]
    omega
  have hins : ins (r, kept) (X ++ suf) =
      (X ++ suf.takeWhile p) ++ (r, kept) :: suf.dropWhile p := by
    rw [ins_eq, List.takeWhile_append_of_pos hXp, List.dropWhile_append_of_pos hXp]
  have hsuf : suf = suf.takeWhile p ++ suf.dropWhile p := List.takeWhile_append_dropWhile.symm
  have hsort' : Sorted (insNew s q rest (ins (r, kept) (X ++ suf))) := by
    have := hsort.del r
    rw [del_split hX hY] at this
    exact sorted_insNew (this.ins _) _ _ _
  have hadd := Added.split (X := X) (Y := suf) (F := F') (r := r) (q := q) (D := R) kept rest hfree
  have hlow : ∀ e ∈ suf.takeWhile p, e.2.start < d.start := by
    intro e he
    have := List.mem_takeWhile_imp he
    simp only [hp, hkept, Bool.not_eq_true', decide_eq_false_iff_not] at this
    omega
  rw [hins] at hst' hsort' hadd
  refine ⟨suf.takeWhile p, suf.dropWhile p, q, F', ?_⟩
  unfold insNew at hst' hsort' hadd
  split at hst'
  · rename_i hzero
    rw [if_pos hzero] at hsort' hadd
    exact ⟨X ++ suf.takeWhile p, hsuf, rfl, hq, hlow, hst', Or.inr ⟨rfl, hzero⟩, hsort', hadd⟩
  · rename_i hzero
    rw [if_neg hzero] at hsort' hadd
    rw [ins_append (e := (q, rest)) (a := (r, kept)) hlt.le] at hst' hsort' hadd
    exact ⟨_, hsuf, rfl, hq, hlow, hst', Or.inl ⟨rfl, Nat.pos_of_ne_zero hzero⟩, hsort',
      hadd⟩

/-- Without a native lock the part below `d` is missing. -/
theorem FirstOwn.missing (hf : FirstOwn A₀ d X r R (suf₁ ++ suf₂)) (hwf : WF A₀)
    (hnd : (A₀.map Prod.fst).Nodup) (hlt : R.start < d.start) (tag : Tag) :
    ∃ x, Covers A₀ d.tag.mandate x ∧ x < d.start ∧
      ¬ Covers (X ++ suf₁ ++ (r, { R with start := d.start, tag := tag }) :: suf₂) d.tag.mandate x := by
  have hrA : (r, R) ∈ A₀ := by simp [hf.split]
  have hne := hwf.nonempty _ hrA
  refine ⟨R.start, ⟨_, hrA, hf.own, Nat.le_refl _, hne⟩, hlt, ?_⟩
  rintro ⟨e, he, ho, hx1, hx2⟩
  have hmem : e = (r, { R with start := d.start, tag := tag }) ∨ e ∈ X ++ (suf₁ ++ suf₂) := by
    simp only [List.mem_append, List.mem_cons] at he ⊢
    tauto
  rcases hmem with rfl | hmem
  · exact absurd hx1 (Nat.not_le.mpr hlt)
  · have hnd' := hnd
    rw [hf.split] at hnd'
    obtain ⟨heA, her⟩ := (mem_others hnd').mp hmem
    rw [← hf.split] at heA
    exact hwf.disjoint e heA _ hrA her (ho.trans hf.own.symm) ⟨lt_of_le_of_lt hx1 hne, hx2⟩

end Athomux.LockMelt
