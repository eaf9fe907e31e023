import Mathlib.Data.List.Basic
import Athomux.NetConnect.Moves

/-!
# Groups of parts

One pass of the outer loop takes the group of the first part that is left. All passes together are
the moves of all groups.
-/

namespace Athomux.NetConnect

variable {k : Kind} {s : Text} {lb pre post : List GBrick} {lc : List GConn} {lv : List GVpart}
variable {b p : GBrick} {m : Merge}

/-! ## What a merge is to do -/

def hasRid (k : Kind) (s : Text) (b : GBrick) : Bool := isPart k b ∧ rid b = some s

def members (k : Kind) (s : Text) (lb : List GBrick) : List Nat :=
  (lb.filter (hasRid k s)).map GBrick.addr

def rids (k : Kind) (lb : List GBrick) : List Text :=
  ((lb.filter (isPart k)).filterMap rid).eraseDups

def movesOf : List Nat → List Move
  | [] => []
  | a :: bs => .unhook a :: bs.map (.wire · a)

def moves (k : Kind) (lb : List GBrick) : List Move :=
  (rids k lb).flatMap fun s => movesOf (members k s lb)

def whole (k : Kind) (s : Text) (a : Nat) : GBrick := ⟨a, k.whole, ridParam s⟩

/-- The first part of a group becomes the whole one, and the others vanish. -/
def turn (k : Kind) (lb : List GBrick) (b : GBrick) : Option GBrick :=
  if isPart k b then
    (rid b).bind fun s =>
      if (members k s lb).head? = some b.addr then some (whole k s b.addr) else none
  else some b

def fits (s : Text) : Prop := (ridParam s).length < paramSize

instance : DecidablePred fits := fun _ => inferInstanceAs (Decidable (_ < _))

def Fit (k : Kind) (lb : List GBrick) : Prop :=
  ∀ b ∈ lb, isPart k b = true → ∃ s, rid b = some s ∧ fits s

def Move.vparts : Move → List GVpart → List GVpart
  | .unhook _, lv => lv
  | .wire b r, lv => lv ++ [⟨r, b⟩]

def vpartsAll (ms : List Move) (lv : List GVpart) : List GVpart :=
  ms.foldl (fun lv m => m.vparts lv) lv

theorem hasRid_iff : hasRid k s b = true ↔ isPart k b = true ∧ rid b = some s := by
  simp [hasRid]

theorem isPart_whole (a : Nat) : isPart k (whole k s a) = false := by
  cases k <;> rfl

/-! ## One pass -/

theorem map_eq_ok {ε α β : Type} {f : α → β} {x : Except ε α} {y : β} :
    x.map f = .ok y ↔ ∃ a, x = .ok a ∧ f a = y := by
  cases x <;> simp [Except.map]

theorem map_eq_error {ε α β : Type} {f : α → β} {x : Except ε α} {e : ε} :
    x.map f = .error e ↔ x = .error e := by
  cases x <;> simp [Except.map]

theorem bind_eq_ok {ε α β : Type} {f : α → Except ε β} {x : Except ε α} {y : β} :
    x.bind f = .ok y ↔ ∃ a, x = .ok a ∧ f a = .ok y := by
  cases x <;> simp [Except.bind]

theorem rewireNc_eq_ok {b r : Nat} {lc' : List GConn} :
    rewireNc b r lc = .ok lc' ↔ (Move.wire b r).safe lc = true ∧ (Move.wire b r).apply lc = lc' := by
  rw [rewireNc_eq, Move.safe, Move.apply]
  cases collides b r [] lc <;> simp

variable {group : Option (Nat × Text)} {a : Nat} {bs : List GBrick}

section

attribute [local simp] mergeLoop

theorem mergeLoop_skip (h : isPart k b = false) :
    mergeLoop k lc lv group (b :: bs) = (mergeLoop k lc lv group bs).map (Merge.cons b) := by
  simp [h]

theorem mergeLoop_anon (h : isPart k b = true) (hrid : rid b = none) :
    mergeLoop k lc lv group (b :: bs) = .error .check := by
  simp [h, hrid]

theorem mergeLoop_start (h : hasRid k s b = true) :
    mergeLoop k lc lv none (b :: bs) =
      if fits s then
        (mergeLoop k (removeHook b.addr lc) lv (some (b.addr, s)) bs).map
          (Merge.cons (whole k s b.addr))
      else .error .check := by
  obtain ⟨hpart, hrid⟩ := hasRid_iff.mp h
  simp only [mergeLoop, hpart, hrid, if_true]
  rfl

theorem mergeLoop_same (h : hasRid k s b = true) :
    mergeLoop k lc lv (some (a, s)) (b :: bs) = (rewireNc b.addr a lc).bind fun lc =>
      mergeLoop k lc (lv ++ [⟨a, b.addr⟩]) (some (a, s)) bs := by
  obtain ⟨hpart, hrid⟩ := hasRid_iff.mp h
  simp [hpart, hrid]

theorem mergeLoop_other {s' : Text} (h : hasRid k s' b = true) (hs : s' ≠ s) :
    mergeLoop k lc lv (some (a, s)) (b :: bs) =
      (mergeLoop k lc lv (some (a, s)) bs).map (Merge.cons b) := by
  obtain ⟨hpart, hrid⟩ := hasRid_iff.mp h
  simp [hpart, hrid, hs]

end

theorem members_in (h : hasRid k s b = true) : members k s (b :: bs) = b.addr :: members k s bs := by
  simp [members, h]

theorem members_out (h : hasRid k s b = false) : members k s (b :: bs) = members k s bs := by
  simp [members, h]

theorem ok_out {x : Except Stop Merge} {ms : List Move} {q : Prop} (h : hasRid k s b = false)
    (hx : ∀ m, x = .ok m ↔ q ∧ safeAll ms lc = true ∧
      ⟨bs.filter fun b => !hasRid k s b, applyAll ms lc, vpartsAll ms lv, some (a, s)⟩ = m) :
    x.map (Merge.cons b) = .ok m ↔ q ∧ safeAll ms lc = true ∧
      ⟨(b :: bs).filter fun b => !hasRid k s b, applyAll ms lc, vpartsAll ms lv, some (a, s)⟩ = m := by
  rw [List.filter_cons_of_pos (by rw [h]; rfl), map_eq_ok]
  constructor
  · rintro ⟨m', hm', rfl⟩
    obtain ⟨hq, hsafe, rfl⟩ := (hx m').mp hm'
    exact ⟨hq, hsafe, rfl⟩
  · rintro ⟨hq, hsafe, rfl⟩
    exact ⟨_, (hx _).mpr ⟨hq, hsafe, rfl⟩, rfl⟩

/-- The rest of a pass, behind the first part. -/
theorem mergeLoop_some :
    mergeLoop k lc lv (some (a, s)) bs = .ok m ↔
      (∀ b ∈ bs, isPart k b = true → (rid b).isSome = true) ∧
      safeAll ((members k s bs).map (.wire · a)) lc = true ∧
      ⟨bs.filter fun b => !hasRid k s b, applyAll ((members k s bs).map (.wire · a)) lc,
        vpartsAll ((members k s bs).map (.wire · a)) lv, some (a, s)⟩ = m := by
  induction bs generalizing lc lv m with
  | nil => simp [mergeLoop, members, safeAll, applyAll, vpartsAll]
  | cons b bs ih =>
    rw [List.forall_mem_cons]
    by_cases hpart : isPart k b = true
    · cases hrid : rid b with
      | none => simp [mergeLoop_anon hpart hrid, hpart]
      | some s' =>
        have hin : hasRid k s' b = true := hasRid_iff.mpr ⟨hpart, hrid⟩
        by_cases hs : s' = s
        · subst hs
          rw [mergeLoop_same hin, bind_eq_ok, members_in hin, List.map_cons, safeAll,
            List.filter_cons_of_neg (by rw [hin]; decide)]
          simp only [rewireNc_eq_ok, ih, Option.isSome_some, implies_true, true_and,
            Bool.and_eq_true]
          constructor
          · rintro ⟨_, ⟨hsafe, rfl⟩, hall, hrest, rfl⟩
            exact ⟨hall, ⟨hsafe, hrest⟩, rfl⟩
          · rintro ⟨hall, ⟨hsafe, hrest⟩, rfl⟩
            exact ⟨_, ⟨hsafe, rfl⟩, hall, hrest, rfl⟩
        · have hout : hasRid k s b = false := by
            rw [← Bool.not_eq_true, hasRid_iff, hrid]
            exact fun h => hs (Option.some.inj h.2)
          rw [mergeLoop_other hin hs, members_out hout, ok_out hout fun _ => ih]
          simp
    · rw [Bool.not_eq_true] at hpart
      have hout : hasRid k s b = false := by
        rw [← Bool.not_eq_true, hasRid_iff, hpart]
        exact fun h => Bool.false_ne_true h.1
      rw [mergeLoop_skip hpart, members_out hout, ok_out hout fun _ => ih]
      simp [hpart]

theorem mergeLoop_pre (hpre : ∀ b ∈ pre, isPart k b = false) (bs : List GBrick) :
    mergeLoop k lc lv none (pre ++ bs) =
      (mergeLoop k lc lv none bs).map fun m => { m with lb := pre ++ m.lb } := by
  induction pre with
  | nil => cases h : mergeLoop k lc lv none bs <;> simp [h, Except.map]
  | cons b pre ih =>
    rw [List.cons_append, mergeLoop_skip (hpre b List.mem_cons_self),
      ih fun b hb => hpre b (List.mem_cons_of_mem _ hb)]
    cases mergeLoop k lc lv none bs <;> rfl

theorem mergeLoop_none (hlb : ∀ b ∈ lb, isPart k b = false) :
    mergeLoop k lc lv none lb = .ok ⟨lb, lc, lv, none⟩ := by
  rw [← List.append_nil lb, mergeLoop_pre hlb]
  simp [mergeLoop, Except.map]

/-- The bricks after the pass of the group `s`, whose first part is at `a`. -/
def passed (k : Kind) (s : Text) (a : Nat) (pre post : List GBrick) : List GBrick :=
  pre ++ whole k s a :: post.filter fun b => !hasRid k s b

theorem members_split (hpre : ∀ b ∈ pre, isPart k b = false) (hp : hasRid k s p = true) :
    members k s (pre ++ p :: post) = p.addr :: members k s post := by
  have hnone : pre.filter (hasRid k s) = [] := by
    refine List.filter_eq_nil_iff.mpr fun b hb hin => ?_
    rw [hasRid_iff, hpre b hb] at hin
    exact Bool.false_ne_true hin.1
  simp [members, hnone, hp]

theorem mergeLoop_first (hpre : ∀ b ∈ pre, isPart k b = false) (hp : isPart k p = true) :
    mergeLoop k lc lv none (pre ++ p :: post) = .ok m ↔
      ∃ s, rid p = some s ∧ fits s ∧
        (∀ b ∈ post, isPart k b = true → (rid b).isSome = true) ∧
        safeAll (movesOf (members k s (pre ++ p :: post))) lc = true ∧
        ⟨passed k s p.addr pre post, applyAll (movesOf (members k s (pre ++ p :: post))) lc,
          vpartsAll (movesOf (members k s (pre ++ p :: post))) lv, some (p.addr, s)⟩ = m := by
  rw [mergeLoop_pre hpre]
  cases hrid : rid p with
  | none => simp [mergeLoop_anon hp hrid, Except.map]
  | some s =>
    have hin : hasRid k s p = true := hasRid_iff.mpr ⟨hp, hrid⟩
    simp only [Option.some.injEq, exists_eq_left', members_split hpre hin, movesOf,
      mergeLoop_start hin]
    by_cases hfit : fits s
    · rw [if_pos hfit]
      simp only [hfit, map_eq_ok, mergeLoop_some, true_and]
      constructor
      · rintro ⟨_, ⟨_, ⟨hall, hsafe, rfl⟩, rfl⟩, rfl⟩
        exact ⟨hall, hsafe, rfl⟩
      · rintro ⟨hall, hsafe, rfl⟩
        exact ⟨_, ⟨_, ⟨hall, hsafe, rfl⟩, rfl⟩, rfl⟩
    · rw [if_neg hfit]
      simp [hfit, Except.map]

/-! ## All passes -/

theorem exists_first (lb : List GBrick) (k : Kind) : (∀ b ∈ lb, isPart k b = false) ∨
    ∃ pre p post, lb = pre ++ p :: post ∧ (∀ b ∈ pre, isPart k b = false) ∧ isPart k p = true := by
  cases h : lb.find? (isPart k) with
  | none => exact Or.inl fun b hb => Bool.eq_false_iff.mpr (List.find?_eq_none.mp h b hb)
  | some p =>
    obtain ⟨hp, pre, post, rfl, hpre⟩ := List.find?_eq_some_iff_append.mp h
    exact Or.inr ⟨pre, p, post, rfl, fun b hb => by simpa using hpre b hb, hp⟩

theorem hasRid_of_ne {s' : Text} (h : hasRid k s b = true) (hs : s' ≠ s) : hasRid k s' b = false := by
  rw [← Bool.not_eq_true, hasRid_iff, (hasRid_iff.mp h).2]
  exact fun h' => hs (Option.some.inj h'.2).symm

theorem hasRid_of_not (h : isPart k b = false) (s : Text) : hasRid k s b = false := by
  rw [← Bool.not_eq_true, hasRid_iff, h]
  exact fun h' => Bool.false_ne_true h'.1

theorem mem_rids : s ∈ rids k lb ↔ ∃ b ∈ lb, hasRid k s b = true := by
  simp only [rids, List.mem_eraseDups, List.mem_filterMap, List.mem_filter, hasRid_iff, and_assoc]

theorem members_passed {s' : Text} (hin : hasRid k s p = true) (hs : s' ≠ s) :
    members k s' (passed k s p.addr pre post) = members k s' (pre ++ p :: post) := by
  have hp := hasRid_of_ne hin hs
  have hw : hasRid k s' (whole k s p.addr) = false := hasRid_of_not (isPart_whole _) s'
  have hpost : (post.filter fun b => !hasRid k s b).filter (hasRid k s') =
      post.filter (hasRid k s') := by
    rw [List.filter_filter]
    refine List.filter_congr fun b _ => ?_
    by_cases hb : hasRid k s' b = true
    · rw [hb, hasRid_of_ne hb hs.symm]
      rfl
    · rw [Bool.not_eq_true] at hb
      rw [hb, Bool.false_and]
  simp only [members, passed, List.filter_append, List.filter_cons, hp, hw, hpost,
    Bool.false_eq_true, if_false]

theorem count_passed (hin : hasRid k s p = true) :
    (passed k s p.addr pre post).countP (isPart k) <
    (pre ++ p :: post).countP (isPart k) := by
  have hp := (hasRid_iff.mp hin).1
  have hpost : (post.filter fun b => !hasRid k s b).countP (isPart k) ≤ post.countP (isPart k) :=
    List.filter_sublist.countP_le
  simp only [passed, List.countP_append, List.countP_cons, isPart_whole, hp, if_true,
    Bool.false_eq_true, if_false]
  omega

theorem nodup_passed (hnd : ((pre ++ p :: post).map GBrick.addr).Nodup) :
    ((passed k s p.addr pre post).map GBrick.addr).Nodup := by
  refine hnd.sublist ?_
  simp only [passed, List.map_append, List.map_cons]
  exact (List.Sublist.refl _).append ((List.filter_sublist.map _).cons_cons _)

section

variable (hpre : ∀ b ∈ pre, isPart k b = false) (hin : hasRid k s p = true)
include hpre hin

theorem rids_passed : rids k (pre ++ p :: post) = s :: rids k (passed k s p.addr pre post) := by
  obtain ⟨hp, hrid⟩ := hasRid_iff.mp hin
  have hnone : pre.filter (isPart k) = [] :=
    List.filter_eq_nil_iff.mpr fun b hb => Bool.eq_false_iff.mp (hpre b hb)
  have hpost : ((post.filter (isPart k)).filterMap rid).filter (fun x => !x == s) =
      ((post.filter fun b => !hasRid k s b).filter (isPart k)).filterMap rid := by
    induction post with
    | nil => rfl
    | cons b post ih =>
      by_cases hb : isPart k b = true
      · cases hr : rid b with
        | none =>
          have hout : hasRid k s b = false := by simp [hasRid, hr]
          simp [hb, hr, hout, ih]
        | some s' =>
          by_cases hs : s' = s
          · have hb' : hasRid k s b = true := hasRid_iff.mpr ⟨hb, hs ▸ hr⟩
            simp [hb, hr, hb', hs, ih]
          · have hb' : hasRid k s b = false := hasRid_of_ne (hasRid_iff.mpr ⟨hb, hr⟩) (Ne.symm hs)
            simp [hb, hr, hb', hs, ih]
      · rw [Bool.not_eq_true] at hb
        simp [hb, hasRid_of_not hb, ih]
  simp only [rids, passed, List.filter_append, hnone, List.nil_append, List.filter_cons, hp,
    isPart_whole, if_true, Bool.false_eq_true, if_false, List.filterMap_cons, hrid,
    List.eraseDups_cons, hpost]

theorem moves_passed : moves k (pre ++ p :: post) =
    movesOf (members k s (pre ++ p :: post)) ++ moves k (passed k s p.addr pre post) := by
  rw [moves, rids_passed hpre hin, List.flatMap_cons, moves]
  congr 1
  refine List.flatMap_congr fun s' hs' => ?_
  obtain ⟨b, hb, hrid⟩ := mem_rids.mp hs'
  have hs : s' ≠ s := by
    rintro rfl
    rw [passed, List.mem_append, List.mem_cons, List.mem_filter] at hb
    rcases hb with hb | rfl | ⟨-, hb⟩
    · rw [hasRid_of_not (hpre b hb)] at hrid
      exact Bool.false_ne_true hrid
    · rw [hasRid_of_not (isPart_whole _)] at hrid
      exact Bool.false_ne_true hrid
    · rw [hrid] at hb
      exact Bool.false_ne_true hb
  rw [members_passed hin hs]

theorem fit_passed : Fit k (pre ++ p :: post) ↔ fits s ∧
    (∀ b ∈ post, isPart k b = true → (rid b).isSome = true) ∧
    Fit k (passed k s p.addr pre post) := by
  obtain ⟨hp, hrid⟩ := hasRid_iff.mp hin
  constructor
  · intro h
    have hpost : ∀ b ∈ post, isPart k b = true → ∃ s, rid b = some s ∧ fits s :=
      fun b hb => h b (List.mem_append_right _ (List.mem_cons_of_mem _ hb))
    refine ⟨?_, ?_, ?_⟩
    · obtain ⟨s', hs', hfit⟩ := h p (List.mem_append_right _ List.mem_cons_self) hp
      rwa [Option.some.inj (hrid.symm.trans hs')]
    · intro b hb hpart
      obtain ⟨s', hs', -⟩ := hpost b hb hpart
      rw [hs']
      rfl
    · intro b hb hpart
      rw [passed, List.mem_append, List.mem_cons, List.mem_filter] at hb
      rcases hb with hb | rfl | ⟨hb, -⟩
      · rw [hpre b hb] at hpart
        cases hpart
      · rw [isPart_whole] at hpart
        cases hpart
      · exact hpost b hb hpart
  · rintro ⟨hfit, hall, h⟩ b hb hpart
    rw [List.mem_append, List.mem_cons] at hb
    rcases hb with hb | rfl | hb
    · rw [hpre b hb] at hpart
      cases hpart
    · exact ⟨s, hrid, hfit⟩
    · by_cases hb' : hasRid k s b = true
      · exact ⟨s, (hasRid_iff.mp hb').2, hfit⟩
      · refine h b (List.mem_append_right _ (List.mem_cons_of_mem _ ?_)) hpart
        exact List.mem_filter.mpr ⟨hb, by simpa using hb'⟩

theorem turn_passed (hnd : ((pre ++ p :: post).map GBrick.addr).Nodup) :
    (pre ++ p :: post).filterMap (turn k (pre ++ p :: post)) =
      (passed k s p.addr pre post).filterMap (turn k (passed k s p.addr pre post)) := by
  obtain ⟨hp, hrid⟩ := hasRid_iff.mp hin
  have hhead : (members k s (pre ++ p :: post)).head? = some p.addr := by
    rw [members_split hpre hin]
    rfl
  have hkeep : ∀ (lb : List GBrick) (b : GBrick), isPart k b = false → turn k lb b = some b :=
    fun lb b hb => if_neg (Bool.eq_false_iff.mp hb)
  have hpost : post.filterMap (turn k (pre ++ p :: post)) =
      (post.filter fun b => !hasRid k s b).filterMap
        (turn k (passed k s p.addr pre post)) := by
    rw [List.filterMap_filter]
    refine List.filterMap_congr fun b hb => ?_
    by_cases hb' : hasRid k s b = true
    · have hne : p.addr ≠ b.addr := by
        rw [List.map_append, List.map_cons] at hnd
        have := (List.nodup_cons.mp (List.nodup_append.mp hnd).2.1).1
        exact fun h => this (List.mem_map.mpr ⟨b, hb, h.symm⟩)
      simp [turn, (hasRid_iff.mp hb').1, (hasRid_iff.mp hb').2, hhead, hb', hne]
    · rw [Bool.not_eq_true] at hb'
      rw [hb', Bool.not_false, if_pos rfl]
      by_cases hpart : isPart k b = true
      · rw [turn, turn, if_pos hpart, if_pos hpart]
        cases hr : rid b with
        | none => rfl
        | some s' =>
          have hs : s' ≠ s := by
            rintro rfl
            rw [hasRid_iff.mpr ⟨hpart, hr⟩] at hb'
            cases hb'
          rw [Option.bind_some, Option.bind_some, members_passed hin hs]
      · rw [Bool.not_eq_true] at hpart
        rw [hkeep _ b hpart, hkeep _ b hpart]
  have hpre' : ∀ lb, pre.filterMap (turn k lb) = pre := by
    intro lb
    rw [List.filterMap_congr (g := some) fun b hb => hkeep lb b (hpre b hb), List.filterMap_some]
  have hp' : turn k (pre ++ p :: post) p = some (whole k s p.addr) := by
    simp [turn, hp, hrid, hhead]
  rw [List.filterMap_append, List.filterMap_cons, hp', hpre', hpost]
  rw [passed, List.filterMap_append, hpre', List.filterMap_cons, hkeep _ _ (isPart_whole _)]

end

theorem moves_none (h : ∀ b ∈ lb, isPart k b = false) : moves k lb = [] := by
  have hnone : lb.filter (isPart k) = [] :=
    List.filter_eq_nil_iff.mpr fun b hb => Bool.eq_false_iff.mp (h b hb)
  simp [moves, rids, hnone]

theorem turn_none (h : ∀ b ∈ lb, isPart k b = false) : lb.filterMap (turn k lb) = lb := by
  have hkeep : ∀ b ∈ lb, turn k lb b = some b := fun b hb => if_neg (Bool.eq_false_iff.mp (h b hb))
  rw [List.filterMap_congr hkeep, List.filterMap_some]

theorem vpartsAll_append (ms ms' : List Move) (lv : List GVpart) :
    vpartsAll (ms ++ ms') lv = vpartsAll ms' (vpartsAll ms lv) := List.foldl_append

/-- What all passes come to. -/
def merged (k : Kind) (lb : List GBrick) (lc : List GConn) (lv : List GVpart) : Merge :=
  ⟨lb.filterMap (turn k lb), applyAll (moves k lb) lc, vpartsAll (moves k lb) lv, none⟩

theorem mergeNc_ok {fuel : Nat} (hnd : (lb.map GBrick.addr).Nodup)
    (hfuel : lb.countP (isPart k) < fuel) :
    mergeNc k fuel lb lc lv = .ok m ↔
      Fit k lb ∧ safeAll (moves k lb) lc = true ∧ merged k lb lc lv = m := by
  induction fuel generalizing lb lc lv with
  | zero => cases hfuel
  | succ fuel ih =>
    rw [mergeNc, bind_eq_ok]
    rcases exists_first lb k with hnone | ⟨pre, p, post, rfl, hpre, hp⟩
    · have hfit : Fit k lb := fun b hb hpart => by
        rw [hnone b hb] at hpart
        cases hpart
      simp [mergeLoop_none hnone, merged, moves_none hnone, turn_none hnone, hfit, safeAll,
        applyAll, vpartsAll]
    · constructor
      · rintro ⟨_, hloop, hrest⟩
        obtain ⟨s, hrid, hfit, hall, hsafe, rfl⟩ := (mergeLoop_first hpre hp).mp hloop
        have hin : hasRid k s p = true := hasRid_iff.mpr ⟨hp, hrid⟩
        have hcount : (passed k s p.addr pre post).countP (isPart k) < fuel :=
          Nat.lt_of_lt_of_le (count_passed hin) (Nat.le_of_lt_succ hfuel)
        rw [Option.isSome_some, if_pos rfl, ih (nodup_passed hnd) hcount] at hrest
        obtain ⟨hfit', hsafe', rfl⟩ := hrest
        refine ⟨(fit_passed hpre hin).mpr ⟨hfit, hall, hfit'⟩, ?_, ?_⟩
        · rw [moves_passed hpre hin, safeAll_append, hsafe, hsafe']
          rfl
        · rw [merged, merged, turn_passed hpre hin hnd, moves_passed hpre hin, applyAll_append,
            vpartsAll_append]
      · rintro ⟨hfit, hsafe, rfl⟩
        obtain ⟨s, hrid, -⟩ := hfit p (List.mem_append_right _ List.mem_cons_self) hp
        have hin : hasRid k s p = true := hasRid_iff.mpr ⟨hp, hrid⟩
        have hcount : (passed k s p.addr pre post).countP (isPart k) < fuel :=
          Nat.lt_of_lt_of_le (count_passed hin) (Nat.le_of_lt_succ hfuel)
        obtain ⟨hfit, hall, hfit'⟩ := (fit_passed hpre hin).mp hfit
        rw [moves_passed hpre hin, safeAll_append, Bool.and_eq_true] at hsafe
        refine ⟨_, (mergeLoop_first hpre hp).mpr ⟨s, hrid, hfit, hall, hsafe.1, rfl⟩, ?_⟩
        rw [Option.isSome_some, if_pos rfl, ih (nodup_passed hnd) hcount]
        refine ⟨hfit', hsafe.2, ?_⟩
        rw [merged, merged, turn_passed hpre hin hnd, moves_passed hpre hin, applyAll_append,
          vpartsAll_append]

theorem merge_ok (hnd : (lb.map GBrick.addr).Nodup) :
    merge k lb lc lv = .ok m ↔
      Fit k lb ∧ safeAll (moves k lb) lc = true ∧ merged k lb lc lv = m :=
  mergeNc_ok hnd (Nat.lt_succ_of_le List.countP_le_length)

end Athomux.NetConnect
