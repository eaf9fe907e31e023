import Athomux.LockMelt.Inv

/-! # Removing own locks -/

open Lib Athomux.LockList

namespace Athomux.LockMelt

variable {n : Nat} {A₀ A A' : List (Entry Tag)} {d : Desc} {lost : Prop}
  {pre suf : List (Entry Tag)} {r : Nat} {R : Desc} {s s₁ s₂ s' : LockList Tag n} {F : List Nat}
  {M : Finset Nat}

/-! ## The invariant -/

/-- What holds of the entries `A` while the own locks in `d` are removed from `A₀`. -/
structure Removed (A₀ : List (Entry Tag)) (d : Desc) (lost : Prop) (A : List (Entry Tag)) :
    Prop where
  foreign : ∀ e, ¬ Own d e → (e ∈ A ↔ e ∈ A₀)
  nonempty : ∀ e ∈ A, Own d e → e.2.start < e.2.stop
  disjoint : ∀ e ∈ A, ∀ f ∈ A, Own d e → Own d f → e.1 ≠ f.1 → ¬ e.2.Overlaps f.2
  piece : ∀ e ∈ A, Own d e → ∀ x, e.2.Has x →
    ∃ f ∈ A₀, Own d f ∧ f.2.tag = e.2.tag ∧ f.2.Has x
  cover : ∀ x, Covers A₀ d.tag.mandate x → Covers A d.tag.mandate x ∨ lost ∨ d.Has x
  sorted : Sorted A

theorem Removed.refl (h : WF A₀) (d : Desc) (lost : Prop) : Removed A₀ d lost A₀ where
  foreign _ _ := Iff.rfl
  nonempty e he _ := h.nonempty e he
  disjoint e he f hf hoe hof hne := h.disjoint e he f hf hne (hoe.trans hof.symm)
  piece e he ho _ hx := ⟨e, he, ho, rfl, hx⟩
  cover _ hx := Or.inl hx
  sorted := h.sorted

/-- One edit: what is left of `r` was a part of it. -/
theorem Removed.edit {N : List (Entry Tag)} (h : Removed A₀ d lost A) (he : Edit d A A' r N)
    (hsort : Sorted A')
    (hpart : ∀ e ∈ N, ∃ R, (r, R) ∈ A ∧ e.2.tag = R.tag ∧ R.start ≤ e.2.start ∧ e.2.stop ≤ R.stop)
    (hcover : ∀ R, (r, R) ∈ A → ∀ x, R.Has x → (∃ e ∈ N, e.2.Has x) ∨ lost ∨ d.Has x) :
    Removed A₀ d lost A' where
  foreign e hne := by
    rw [he.mem, ← h.foreign e hne]
    constructor
    · rintro (⟨heA, -⟩ | heN)
      · exact heA
      · exact absurd (he.own e heN) hne
    · intro heA
      exact Or.inl ⟨heA, fun heq => hne (he.old e heA heq)⟩
  nonempty e he' ho := by
    rcases (he.mem e).mp he' with ⟨heA, -⟩ | heN
    · exact h.nonempty e heA ho
    · exact he.nonempty e heN
  disjoint e he' f hf' hoe hof hne := by
    rcases (he.mem e).mp he' with ⟨heA, her⟩ | heN <;>
      rcases (he.mem f).mp hf' with ⟨hfA, hfr⟩ | hfN
    · exact h.disjoint e heA f hfA hoe hof hne
    · rw [overlaps_comm]
      exact he.apartOld f hfN e heA hoe her
    · exact he.apartOld e heN f hfA hof hfr
    · exact he.apart e heN f hfN hne
  piece e he' ho x hx := by
    rcases (he.mem e).mp he' with ⟨heA, -⟩ | heN
    · exact h.piece e heA ho x hx
    · obtain ⟨R, hR, htag, h1, h2⟩ := hpart e heN
      obtain ⟨f, hf, hof, hft, hfx⟩ := h.piece _ hR (he.old _ hR rfl) x
        ⟨h1.trans hx.1, lt_of_lt_of_le hx.2 h2⟩
      exact ⟨f, hf, hof, hft.trans htag.symm, hfx⟩
  cover x hx := by
    rcases h.cover x hx with ⟨e, heA, hm, hex⟩ | hlost
    · by_cases her : e.1 = r
      · subst her
        rcases hcover e.2 heA x hex with ⟨f, hf, hfx⟩ | hlost
        · exact Or.inl ⟨f, (he.mem f).mpr (Or.inr hf), he.own f hf, hfx⟩
        · exact Or.inr hlost
      · exact Or.inl ⟨e, (he.mem e).mpr (Or.inl ⟨heA, her⟩), hm, hex⟩
    · exact Or.inr hlost
  sorted := hsort

/-! ## One turn of the code -/

/-- How many parts of `R` are kept. -/
def partCount (d R : Desc) : Nat :=
  (if R.start < d.start then 1 else 0) + (if d.stop < R.stop then 1 else 0)

/-- No own lock that overlaps `d`. -/
def Passed (d : Desc) (A : List (Entry Tag)) : Prop := ∀ e ∈ A, Own d e → ¬ e.2.Overlaps d

theorem ins_behind {e a : Entry Tag} (X Y : List (Entry Tag)) (hX : ∀ b ∈ X, b.2.start < e.2.start)
    (ha : a.2.start < e.2.start) : ins e (X ++ a :: Y) = X ++ a :: ins e Y := by
  have hpos : ∀ b ∈ X ++ [a], (!decide (e.2.start ≤ b.2.start)) = true := by
    intro b hb
    have : b.2.start < e.2.start := by
      rcases List.mem_append.mp hb with hb | hb
      · exact hX b hb
      · rw [List.mem_singleton.mp hb]
        exact ha
    simpa using this
  rw [show X ++ a :: Y = (X ++ [a]) ++ Y by simp, ins_eq, ins_eq,
    List.takeWhile_append_of_pos hpos, List.dropWhile_append_of_pos hpos]
  simp

/-- The record behind which a new one goes in stays the next one, or all behind it start
later. -/
theorem ins_split {e : Entry Tag} (P suf : List (Entry Tag)) :
    ∃ P' Y, P ++ ins e suf = P' ++ Y ∧ (Y.map Prod.fst).head? = (suf.map Prod.fst).head? ∧
      (∀ b ∈ P', b ∈ P ∨ b = e) ∧ ∀ b ∈ Y, b ∈ suf ∨ b = e := by
  cases suf with
  | nil => exact ⟨P ++ [e], [], by simp [ins], rfl, by simp, by simp⟩
  | cons a suf =>
    by_cases h : startLe e a
    · refine ⟨P ++ [e], a :: suf, ?_, rfl, by simp, fun b hb => Or.inl hb⟩
      rw [ins, List.orderedInsert_cons_of_le _ suf h, List.append_assoc]
      rfl
    · refine ⟨P, a :: ins e suf, ?_, rfl, fun b hb => Or.inl hb, ?_⟩
      · rw [ins, List.orderedInsert_cons, if_neg h]
        rfl
      · intro b hb
        rcases List.mem_cons.mp hb with rfl | hb
        · simp
        · rcases mem_ins.mp hb with rfl | hb
          · exact Or.inr rfl
          · exact Or.inl (List.mem_cons_of_mem _ hb)

/-- The own locks that are still to be removed. -/
def pending (d : Desc) (A : List (Entry Tag)) : Nat :=
  A.countP fun e => isOwn e.2 d && decide (e.2.Overlaps d)

theorem Passed.append {A B : List (Entry Tag)} (hA : Passed d A) (hB : Passed d B) :
    Passed d (A ++ B) := by
  intro e he
  rcases List.mem_append.mp he with he | he
  · exact hA e he
  · exact hB e he

theorem Passed.free (hp : Passed d A) {x : Nat} (hx : d.Has x) :
    ¬ Covers A d.tag.mandate x := by
  rintro ⟨e, he, ho, hex⟩
  exact hp e he ho ⟨lt_of_le_of_lt hex.1 hx.2, lt_of_le_of_lt hx.1 hex.2⟩

/-- `X'` is `X` with the part `e` of a lock that is kept when `c` holds, and `N` is that part. -/
structure Kept (c : Prop) [Decidable c] (lost : Prop) (nFree : Nat) (e : Entry Tag)
    (X X' N : List (Entry Tag)) : Prop where
  eq : ∀ b ∈ N, b = e ∧ c
  has : c → e ∈ N ∨ lost
  mem : ∀ b, b ∈ X' ↔ b ∈ X ∨ b ∈ N
  length : X'.length = X.length + min (if c then 1 else 0) nFree

theorem kept_ins {c : Prop} [Decidable c] {nFree : Nat} (e : Entry Tag) (X : List (Entry Tag))
    (hc : c) (hpos : 0 < nFree) : Kept c lost nFree e X (ins e X) [e] := by
  refine ⟨by simpa using hc, by simp, ?_, ?_⟩
  · intro b
    rw [mem_ins, List.mem_singleton, or_comm]
  · rw [(perm_ins _ _).length_eq, if_pos hc, List.length_cons]
    omega

theorem kept_none {c : Prop} [Decidable c] {nFree : Nat} (e : Entry Tag) (X : List (Entry Tag))
    (hzero : c → nFree = 0) (hlost : c → lost) : Kept c lost nFree e X X [] := by
  refine ⟨by simp, fun hc => Or.inr (hlost hc), by simp, ?_⟩
  by_cases hc : c
  · rw [hzero hc]
    simp
  · rw [if_neg hc]
    simp

/-- The entries after a turn. -/
theorem Removed.keep (h : Removed A₀ d lost (pre ++ (r, R) :: suf))
    (hnd : ((pre ++ (r, R) :: suf).map Prod.fst).Nodup) (ho : R.tag.mandate = d.tag.mandate)
    (hover : R.Overlaps d) (hwrap : d.start ≤ d.stop) {q q' i j : Nat}
    {pre₁ suf₂ N₁ N₂ : List (Entry Tag)}
    (h₁ : Kept (R.start < d.start) lost i (q, { R with stop := d.start }) pre pre₁ N₁)
    (h₂ : Kept (d.stop < R.stop) lost j (q', { R with start := d.stop }) suf suf₂ N₂)
    (hsort : Sorted (pre₁ ++ suf₂)) : Removed A₀ d lost (pre₁ ++ suf₂) := by
  obtain ⟨hover1, hover2⟩ := hover
  have hrA : (r, R) ∈ pre ++ (r, R) :: suf := by simp
  have hN : ∀ e ∈ N₁ ++ N₂, Own d e ∧ e.2.start < e.2.stop ∧ R.start ≤ e.2.start ∧
      e.2.stop ≤ R.stop ∧ e.2.tag = R.tag := by
    intro e he
    rcases List.mem_append.mp he with he | he
    · obtain ⟨rfl, hlt⟩ := h₁.eq e he
      exact ⟨ho, hlt, Nat.le_refl _, hover2.le, rfl⟩
    · obtain ⟨rfl, hlt⟩ := h₂.eq e he
      exact ⟨ho, hlt, hover1.le, Nat.le_refl _, rfl⟩
  refine h.edit (N := N₁ ++ N₂) (r := r) ⟨?_, ?_, fun e he => (hN e he).1, fun e he => (hN e he).2.1,
    ?_, ?_⟩ hsort ?_ ?_
  · intro e
    rw [← mem_others hnd]
    simp only [List.mem_append, h₁.mem, h₂.mem]
    tauto
  · intro e he her
    rw [List.inj_on_of_nodup_map hnd he hrA her]
    exact ho
  · intro e he f hf hne
    rcases List.mem_append.mp he with he | he <;> rcases List.mem_append.mp hf with hf | hf
    · rw [(h₁.eq e he).1, (h₁.eq f hf).1] at hne
      exact absurd rfl hne
    · rw [(h₁.eq e he).1, (h₂.eq f hf).1]
      exact fun h => absurd h.2 (Nat.not_lt.mpr hwrap)
    · rw [(h₂.eq e he).1, (h₁.eq f hf).1]
      exact fun h => absurd h.1 (Nat.not_lt.mpr hwrap)
    · rw [(h₂.eq e he).1, (h₂.eq f hf).1] at hne
      exact absurd rfl hne
  · rintro e he f hf hof hfr ⟨h1, h2⟩
    obtain ⟨-, -, h3, h4, -⟩ := hN e he
    exact h.disjoint f hf _ hrA hof ho hfr ⟨by simp only; omega, by simp only; omega⟩
  · intro e he
    obtain ⟨-, -, h3, h4, h5⟩ := hN e he
    exact ⟨R, hrA, h5, h3, h4⟩
  · intro R' hR' x hx
    have : R' = R := congrArg Prod.snd (List.inj_on_of_nodup_map hnd hR' hrA rfl)
    subst this
    rcases Nat.lt_or_ge x d.start with hxl | hxl
    · rcases h₁.has (lt_of_le_of_lt hx.1 hxl) with hm | hl
      · exact Or.inl ⟨_, List.mem_append_left _ hm, hx.1, hxl⟩
      · exact Or.inr (Or.inl hl)
    · rcases Nat.lt_or_ge x d.stop with hxr | hxr
      · exact Or.inr (Or.inr ⟨hxl, hxr⟩)
      · rcases h₂.has (lt_of_le_of_lt hxr hx.2) with hm | hl
        · exact Or.inl ⟨_, List.mem_append_right _ hm, hxr, hx.2⟩
        · exact Or.inr (Or.inl hl)

/-- The part below `d` in the code. -/
theorem keepLower_spec (lost : Prop) (hst : Stores s (pre ++ (r, R) :: suf) F M)
    (hlost : R.start < d.start → s.lockImp.nFree = 0 → lost)
    (hs : s.keepLower r d.start = some s₁) :
    ∃ q pre₁ N F₁, Stores s₁ (pre₁ ++ (r, R) :: suf) F₁ M ∧
      Kept (R.start < d.start) lost s.lockImp.nFree (q, { R with stop := d.start }) pre pre₁ N ∧
      (Sorted (pre ++ (r, R) :: suf) → Sorted (pre₁ ++ (r, R) :: suf)) ∧
      s₁.lockImp.nFree = s.lockImp.nFree - (if R.start < d.start then 1 else 0) ∧
      F.length = F₁.length + (if R.start < d.start then 1 else 0) := by
  rw [keepLower_eq, hst.rep.desc (r, R) (by simp)] at hs
  obtain ⟨q, A₁, F₁, hst₁, hA₁, hfree, hF, -⟩ := hst.addNew_if hs
  rcases hA₁ with ⟨hlt, hpos, -, rfl⟩ | ⟨rfl, hzero⟩
  · rw [ins_append (e := (q, { R with stop := d.start })) (a := (r, R)) (Nat.le_refl _)] at hst₁
    refine ⟨q, _, _, F₁, hst₁, kept_ins _ pre hlt hpos, ?_, hfree, hF⟩
    intro hsort
    rw [← ins_append (e := (q, { R with stop := d.start })) (a := (r, R)) (Nat.le_refl _)]
    exact hsort.ins _
  · exact ⟨q, pre, [], F₁, hst₁, kept_none _ pre hzero fun h => hlost h (hzero h), id, hfree, hF⟩

/-- The part behind `d` in the code. -/
theorem keepUpper_spec (lost : Prop) (hst : Stores s (pre ++ (r, R) :: suf) F M) (hover : R.start < d.stop)
    (hsort : Sorted (pre ++ (r, R) :: suf))
    (hlost : d.stop < R.stop → s.lockImp.nFree = 0 → lost)
    (hs : s.keepUpper r d.stop = some s₁) :
    ∃ q suf₁ N F₁ P Y, Stores s₁ (pre ++ (r, R) :: suf₁) F₁ M ∧
      Kept (d.stop < R.stop) lost s.lockImp.nFree (q, { R with start := d.stop }) suf suf₁ N ∧
      Sorted (pre ++ (r, R) :: suf₁) ∧
      s₁.lockImp.nFree = s.lockImp.nFree - (if d.stop < R.stop then 1 else 0) ∧
      F.length = F₁.length + (if d.stop < R.stop then 1 else 0) ∧
      pre ++ suf₁ = P ++ Y ∧ (Y.map Prod.fst).head? = (suf.map Prod.fst).head? ∧
      (∀ b ∈ P, b ∈ pre ∨ b.2 = { R with start := d.stop }) ∧
      ∀ b ∈ Y, b ∈ suf ∨ b.2 = { R with start := d.stop } := by
  have hstart : ∀ b ∈ pre, b.2.start < d.stop := fun b hb =>
    lt_of_le_of_lt ((List.pairwise_append.mp hsort).2.2 b hb _ List.mem_cons_self) hover
  rw [keepUpper_eq, hst.rep.desc (r, R) (by simp)] at hs
  obtain ⟨q, A₁, F₁, hst₁, hA₁, hfree, hF, -⟩ := hst.addNew_if hs
  rcases hA₁ with ⟨hlt, hpos, -, rfl⟩ | ⟨rfl, hzero⟩
  · have hins := ins_behind (e := (q, { R with start := d.stop })) (a := (r, R)) pre suf hstart hover
    have hsort₁ := hsort.ins (q, { R with start := d.stop })
    rw [hins] at hst₁ hsort₁
    obtain ⟨P, Y, heq, hhead, hP, hY⟩ := ins_split (e := (q, { R with start := d.stop })) pre suf
    refine ⟨q, _, _, F₁, P, Y, hst₁, kept_ins _ suf hlt hpos, hsort₁, hfree, hF, heq, hhead, ?_, ?_⟩
    · exact fun b hb => (hP b hb).imp_right fun h => congrArg Prod.snd h
    · exact fun b hb => (hY b hb).imp_right fun h => congrArg Prod.snd h
  · exact ⟨q, suf, [], F₁, pre, suf, hst₁, kept_none _ suf hzero fun h => hlost h (hzero h), hsort,
      hfree, hF, rfl, rfl, fun _ => Or.inl, fun _ => Or.inl⟩

/-- One turn of `remove_own_locks`. -/
theorem remove_turn (hst : Stores s (pre ++ (r, R) :: suf) F M)
    (h : Removed A₀ d lost (pre ++ (r, R) :: suf)) (ho : R.tag.mandate = d.tag.mandate)
    (hover : R.Overlaps d) (hpre : Passed d pre) (hwrap : d.start ≤ d.stop)
    (hlost : s.lockImp.nFree < partCount d R → lost)
    (hs₁ : s.keepLower r d.start = some s₁) (hs₂ : s₁.keepUpper r d.stop = some s₂)
    (hs' : s' = (s₂.removeLockRec r).freeLockRec r) :
    ∃ P Y F', Stores s' (P ++ Y) F' M ∧ Removed A₀ d lost (P ++ Y) ∧
      (Y.map Prod.fst).head? = (suf.map Prod.fst).head? ∧ Passed d P ∧
      (∀ b ∈ Y, b ∈ suf ∨ ¬ b.2.Overlaps d) ∧
      s'.lockImp.nFree = s.lockImp.nFree - partCount d R + 1 ∧
      (P ++ Y).length + F'.length + (partCount d R - s.lockImp.nFree) =
        (pre ++ (r, R) :: suf).length + F.length := by
  obtain ⟨q, pre₁, N₁, F₁, hst₁, hk₁, hsort₁, hfree₁, hF₁⟩ := keepLower_spec lost hst
    (fun hlt hzero => hlost (by rw [partCount, if_pos hlt]; omega)) hs₁
  obtain ⟨q', suf₂, N₂, F₂, P, Y, hst₂, hk₂, hsort₂, hfree₂, hF₂, hPY, hhead, hP, hY⟩ :=
    keepUpper_spec lost hst₁ hover.1 (hsort₁ h.sorted)
      (fun hlt hzero => hlost (by rw [partCount, if_pos hlt]; omega)) hs₂
  obtain ⟨hst₃, hfree₃⟩ := hst₂.removeFree (r := r) (by simp)
  obtain ⟨hX, hY'⟩ := hst₂.rep.split_not_mem
  have hsort₃ := hsort₂.del r
  rw [del_split hX hY'] at hst₃ hsort₃
  have hrem := h.keep hst.rep.fst_nodup ho hover hwrap hk₁ hk₂ hsort₃
  have hlen : (pre₁ ++ suf₂).length + (r :: F₂).length + (partCount d R - s.lockImp.nFree) =
      (pre ++ (r, R) :: suf).length + F.length := by
    have h1 := hk₁.length
    have h2 := hk₂.length
    simp only [List.length_append, List.length_cons, partCount]
    omega
  have hupper : ∀ b : Entry Tag, b.2 = { R with start := d.stop } → ¬ b.2.Overlaps d := by
    intro b hb hover
    rw [hb] at hover
    exact absurd hover.1 (lt_irrefl _)
  rw [← hs'] at hst₃ hfree₃
  rw [hPY] at hst₃ hrem hlen
  refine ⟨P, Y, _, hst₃, hrem, hhead, ?_, fun b hb => (hY b hb).imp_right (hupper b), ?_, hlen⟩
  · intro b hb hob
    rcases hP b hb with hb | hb
    · rcases (hk₁.mem b).mp hb with hb | hb
      · exact hpre b hb hob
      · rw [(hk₁.eq b hb).1]
        exact fun h => absurd h.2 (lt_irrefl _)
    · exact hupper b hb
  · rw [hfree₃, hfree₂, hfree₁, partCount]
    omega

/-! ## The loop -/

/-- The parts that are kept of the first own lock that overlaps `d`. -/
def firstParts (d : Desc) (A : List (Entry Tag)) : Nat :=
  match Rep.findEntry d isOwn A with
  | some e => partCount d e.2
  | none => 0

theorem pending_lt {Y : List (Entry Tag)} {e : Entry Tag} (mid : List (Entry Tag))
    (hnd : Y.Nodup) (hY : ∀ b ∈ Y, b ∈ suf ∨ ¬ b.2.Overlaps d) (ho : Own d e)
    (hover : e.2.Overlaps d) : pending d Y < pending d (mid ++ e :: suf) := by
  have hle : pending d Y ≤ pending d suf := by
    unfold pending
    rw [List.countP_eq_length_filter, List.countP_eq_length_filter]
    refine (List.Nodup.subperm (hnd.filter _) ?_).length_le
    intro b hb
    obtain ⟨hb, hp⟩ := List.mem_filter.mp hb
    refine List.mem_filter.mpr ⟨(hY b hb).resolve_right ?_, hp⟩
    simp only [Bool.and_eq_true, decide_eq_true_eq] at hp
    exact fun h => h hp.2
  have he : (isOwn e.2 d && decide (e.2.Overlaps d)) = true := by
    simp [own_iff.mpr ho, hover]
  unfold pending at hle ⊢
  rw [List.countP_append, List.countP_cons, if_pos he]
  omega

theorem passed_mid {X Y : List (Entry Tag)} (hX : Passed d X)
    (h : ∀ a ∈ Y, a.2.Overlaps d → isOwn a.2 d = false) : Passed d (X ++ Y) := by
  refine hX.append ?_
  intro a ha ho hover
  have := h a ha hover
  rw [own_iff.mpr ho] at this
  cases this

/-- The next lock starts in `d`. -/
theorem firstParts_le_one {Y : List (Entry Tag)} (h : Removed A₀ d lost (pre ++ (r, R) :: suf))
    (hnd : ((pre ++ (r, R) :: suf).map Prod.fst).Nodup) (ho : R.tag.mandate = d.tag.mandate)
    (hover : R.Overlaps d) (hY : ∀ b ∈ Y, b ∈ suf ∨ ¬ b.2.Overlaps d) : firstParts d Y ≤ 1 := by
  unfold firstParts
  cases hf : Rep.findEntry d isOwn Y with
  | none => exact Nat.zero_le _
  | some e =>
    obtain ⟨X₂, Z₂, hY₂, hover₂, hreq₂, -⟩ := findEntry_some hf
    have hesuf : e ∈ suf := (hY e (by simp [hY₂])).resolve_right (fun hn => hn hover₂)
    have heA : e ∈ pre ++ (r, R) :: suf := by simp [hesuf]
    have hle : R.start ≤ e.2.start :=
      (List.pairwise_cons.mp (List.pairwise_append.mp h.sorted).2.1).1 e hesuf
    have hne : e.1 ≠ r := ((mem_others hnd).mp (List.mem_append_right _ hesuf)).2
    have hene := h.nonempty e heA (own_iff.mp hreq₂)
    have hdisj := h.disjoint e heA (r, R) (by simp) (own_iff.mp hreq₂) ho hne
    have hstop : R.stop ≤ e.2.start := Nat.le_of_not_lt fun hlt =>
      hdisj ⟨hlt, lt_of_le_of_lt hle hene⟩
    have hstart : d.start < R.stop := hover.2
    simp only [partCount]
    rw [if_neg (by omega)]
    split <;> omega

theorem removeLoop_spec {fuel : Nat} {P Y : List (Entry Tag)} (hst : Stores s (P ++ Y) F M)
    (h : Removed A₀ d lost (P ++ Y)) (hP : Passed d P) (hwrap : d.start ≤ d.stop)
    (hfuel : pending d Y < fuel) (hlost : s.lockImp.nFree < firstParts d Y → lost)
    (hs : removeLoop d fuel s ((Rep.findEntry d isOwn Y).map Prod.fst) = some s') :
    ∃ A' F', Stores s' A' F' M ∧ Removed A₀ d lost A' ∧ Passed d A' ∧
      A'.length + F'.length + (firstParts d Y - s.lockImp.nFree) = (P ++ Y).length + F.length := by
  induction fuel generalizing P Y s F with
  | zero => omega
  | succ fuel ih =>
    unfold firstParts at hlost ⊢
    cases hf : Rep.findEntry d isOwn Y with
    | none =>
      rw [hf] at hs
      simp only [Option.map_none, removeLoop, Option.some.injEq] at hs
      subst hs
      have hsort : Sorted Y := (List.pairwise_append.mp h.sorted).2.1
      exact ⟨P ++ Y, F, hst, h, passed_mid hP (findEntry_none hsort hf), by simp⟩
    | some e =>
      obtain ⟨r, R⟩ := e
      obtain ⟨mid, suf, rfl, hover, hreq, hmid⟩ := findEntry_some hf
      have ho : R.tag.mandate = d.tag.mandate := own_iff.mp hreq
      rw [hf] at hs hlost
      simp only [Option.map_some, removeLoop, Option.bind_eq_bind, Option.bind_eq_some_iff] at hs
      simp only at hlost ⊢
      obtain ⟨s₁, hs₁, s₂, hs₂, hs⟩ := hs
      have hall : P ++ (mid ++ (r, R) :: suf) = (P ++ mid) ++ (r, R) :: suf := by simp
      rw [hall] at hst h ⊢
      have hnext : s.links.next r = (suf.map Prod.fst).head? :=
        Links.Dll.next (X := (P ++ mid).map Prod.fst) (by simpa using hst.rep.dll)
      obtain ⟨P', Y', F', hst', hrem, hhead, hP', hY', hfree, hlen⟩ :=
        remove_turn hst h ho hover (passed_mid hP hmid) hwrap hlost hs₁ hs₂ rfl
      have hfind := hst'.rep.findNextLockFrom d isOwn
      rw [hhead, ← hnext] at hfind
      rw [hfind] at hs
      have hparts := firstParts_le_one h hst.rep.fst_nodup ho hover hY'
      have hnd : Y'.Nodup :=
        (List.nodup_append.mp (List.Nodup.of_map _ hst'.rep.fst_nodup)).2.1
      obtain ⟨A', F'', hst'', hrem', hpass, hlen'⟩ := ih hst' hrem hP'
        (lt_of_lt_of_le (pending_lt (e := (r, R)) mid hnd hY' ho hover) (Nat.lt_succ_iff.mp hfuel))
        (fun hlt => absurd hlt (by omega)) hs
      refine ⟨A', F'', hst'', hrem', hpass, ?_⟩
      omega

theorem Passed.findEntry (hno : Passed d A) : Rep.findEntry d isOwn A = none := by
  cases hf : Rep.findEntry d isOwn A with
  | none => rfl
  | some e =>
    obtain ⟨X, Y, rfl, hover, hreq, -⟩ := findEntry_some hf
    exact absurd hover (hno e (by simp) (own_iff.mp hreq))

theorem removeLoop_none (desc : Desc) (fuel : Nat) (s : LockList Tag n) :
    removeLoop desc fuel s none = some s := by
  cases fuel <;> rfl

/-- Where no own lock overlaps `d` nothing happens. -/
theorem removeOwnLocks_none (hst : Stores s A₀ F M) (hno : Passed d A₀) :
    removeOwnLocks s d = some s := by
  unfold removeOwnLocks
  rw [hst.rep.findFirstLock, hno.findEntry]
  exact removeLoop_none d _ s

theorem firstParts_none (hno : Passed d A₀) : firstParts d A₀ = 0 := by
  rw [firstParts, hno.findEntry]

/-- A range that goes at most up to the last address does not wrap, or it ends at 0. -/
theorem passed_or_le {addr len : Nat} {tag : Tag} (hwrap : addr + len ≤ addrSpace) :
    addr ≤ add64 addr len ∨ Passed ⟨addr, add64 addr len, tag⟩ A := by
  rcases Nat.lt_or_eq_of_le hwrap with hlt | heq
  · left
    rw [add64_eq hlt]
    exact Nat.le_add_right _ _
  · right
    intro e _ _ hover
    have := hover.1
    rw [add64, heq, Nat.mod_self] at this
    exact absurd this (Nat.not_lt_zero _)

/-- A range that wraps must not overlap an own lock. -/
theorem removeOwnLocks_spec (lost : Prop) (hst : Stores s A₀ F M) (hwf : WF A₀)
    (hwrap : d.start ≤ d.stop ∨ Passed d A₀) (hlost : s.lockImp.nFree < firstParts d A₀ → lost)
    (hs : removeOwnLocks s d = some s') :
    ∃ A' F', Stores s' A' F' M ∧ Removed A₀ d lost A' ∧ Passed d A' ∧
      A'.length + F'.length + (firstParts d A₀ - s.lockImp.nFree) = A₀.length + F.length := by
  rcases hwrap with hwrap | hno
  · unfold removeOwnLocks at hs
    rw [hst.rep.findFirstLock] at hs
    have hlen := hst.rep.length_le
    have hpend : pending d A₀ ≤ A₀.length := List.countP_le_length
    exact removeLoop_spec (P := []) hst (Removed.refl hwf d lost) (by simp [Passed]) hwrap
      (by omega) hlost hs
  · rw [removeOwnLocks_none hst hno, Option.some.injEq] at hs
    subst hs
    exact ⟨A₀, F, hst, Removed.refl hwf d lost, hno, by rw [firstParts_none hno]; omega⟩

/-! ## A range that wraps -/

/-- The parts of the one lock that goes over the whole gap between the end and the start of `d`
overlap, unless one of them is lost. -/
theorem removeOwnLocks_wrapped (hst : Stores s A₀ F M) (hwf : WF A₀) (hwrap : d.stop < d.start)
    (hsplit : ¬ Passed d A₀) (hs : removeOwnLocks s d = some s') :
    ∃ A' F', Stores s' A' F' M ∧ (A'.length + F'.length = A₀.length + F.length →
      ∃ e ∈ A', ∃ f ∈ A', e.1 ≠ f.1 ∧ Own d e ∧ Own d f ∧ e.2.Overlaps f.2) := by
  unfold removeOwnLocks at hs
  rw [hst.rep.findFirstLock] at hs
  cases hf : Rep.findEntry d isOwn A₀ with
  | none => exact absurd (passed_mid (X := []) (by simp [Passed]) (findEntry_none hwf.sorted hf)) hsplit
  | some e =>
    obtain ⟨r, R⟩ := e
    obtain ⟨pre, suf, rfl, hover, hreq, -⟩ := findEntry_some hf
    have ho : R.tag.mandate = d.tag.mandate := own_iff.mp hreq
    have hnd := hst.rep.fst_nodup
    have hover' := hover
    obtain ⟨hover1, hover2⟩ := hover'
    simp only at hover1 hover2
    have hlow : R.start < d.start := hover1.trans hwrap
    have hup : d.stop < R.stop := hwrap.trans hover2
    rw [hf] at hs
    simp only [Option.map_some, removeLoop, Option.bind_eq_bind, Option.bind_eq_some_iff] at hs
    obtain ⟨s₁, hs₁, s₂, hs₂, hs⟩ := hs
    obtain ⟨q, pre₁, N₁, F₁, hst₁, hk₁, hsort₁, hfree₁, hF₁⟩ :=
      keepLower_spec (s.lockImp.nFree < 2) hst (fun _ hzero => by omega) hs₁
    obtain ⟨q', suf₂, N₂, F₂, P, Y, hst₂, hk₂, -, -, hF₂, hPY, hhead, -, hY⟩ :=
      keepUpper_spec (s.lockImp.nFree < 2) hst₁ hover1 (hsort₁ hwf.sorted)
        (fun _ hzero => by rw [if_pos hlow] at hfree₁; omega) hs₂
    obtain ⟨hst₃, -⟩ := hst₂.removeFree (r := r) (by simp)
    obtain ⟨hX, hY'⟩ := hst₂.rep.split_not_mem
    rw [del_split hX hY'] at hst₃
    -- No other own lock overlaps the range, and the parts do not.
    have hnone : Rep.findEntry d isOwn Y = none := by
      cases hf' : Rep.findEntry d isOwn Y with
      | none => rfl
      | some f =>
        obtain ⟨X₂, Z₂, rfl, ⟨hf1, hf2⟩, hreq₂, -⟩ := findEntry_some hf'
        rcases hY f (by simp) with hfs | hfeq
        · have hfA : f ∈ pre ++ (r, R) :: suf := by simp [hfs]
          have hfr := ((mem_others hnd).mp (List.mem_append_right pre hfs)).2
          exact absurd ⟨hf1.trans (hwrap.trans hover2), hover1.trans (hwrap.trans hf2)⟩
            (hwf.disjoint f hfA (r, R) (by simp) hfr ((own_iff.mp hreq₂).trans ho.symm))
        · rw [hfeq] at hf1
          exact absurd hf1 (lt_irrefl _)
    have hnext : s.links.next r = (suf.map Prod.fst).head? :=
      Links.Dll.next (X := pre.map Prod.fst) (by simpa using hst.rep.dll)
    rw [hPY] at hst₃
    have hfind := hst₃.rep.findNextLockFrom d isOwn
    rw [hhead, ← hnext, hnone, Option.map_none] at hfind
    rw [hfind, removeLoop_none] at hs
    rw [Option.some.inj hs, ← hPY] at hst₃
    refine ⟨_, _, hst₃, ?_⟩
    intro hlen
    have h1 := hk₁.length
    have h2 := hk₂.length
    rw [if_pos hlow] at h1 hfree₁ hF₁
    rw [if_pos hup] at h2 hF₂
    simp only [List.length_append, List.length_cons] at hlen
    have hmem₁ := (hk₁.has hlow).resolve_right (by omega)
    have hmem₂ := (hk₂.has hup).resolve_right (by omega)
    refine ⟨_, List.mem_append_left _ ((hk₁.mem _).mpr (Or.inr hmem₁)), _,
      List.mem_append_right _ ((hk₂.mem _).mpr (Or.inr hmem₂)), ?_, ho, ho, ?_⟩
    · intro heq
      have := List.inj_on_of_nodup_map hst₃.rep.fst_nodup
        (List.mem_append_left _ ((hk₁.mem _).mpr (Or.inr hmem₁)))
        (List.mem_append_right _ ((hk₂.mem _).mpr (Or.inr hmem₂))) heq
      have hstop : d.start = R.stop := congrArg (fun e => e.2.stop) this
      omega
    · exact ⟨hover1.trans (hwrap.trans hover2), hwrap⟩

end Athomux.LockMelt
