import Athomux.MapDelta.Pieces

/-!
# Blocks that touch

`merge_overlap` makes one range of two, and `LI_MERGE_BLOCK` takes the blocks that touch a range out of
a ring and puts one for all of them into it. Both use the new start where the old one is meant.
-/

open Lib

namespace Athomux.MapDelta

variable {r q : Region} {x : Nat}

/-- `merge_overlap`. -/
def mergeOverlap (r q : Region) : Region :=
  let stop := max (add64 r.start r.len) (add64 q.start q.len)
  if q.start ≤ add64 r.start r.len then ⟨r.start, sub64 stop q.start⟩
  else if r.start ≤ add64 q.start q.len then ⟨q.start, sub64 stop q.start⟩
  else r

/-- The test of `LI_MERGE_BLOCK`. -/
def Meets (r q : Region) : Prop :=
  r.start ≤ q.start ∧ q.start ≤ add64 r.start r.len ∨
    q.start ≤ r.start ∧ r.start ≤ add64 q.start q.len

instance (r q : Region) : Decidable (Meets r q) := by
  unfold Meets
  infer_instance

/-- The new range. `start` has become the smaller one when the length is computed. -/
def mergeRange (r q : Region) : Region :=
  let start := min r.start q.start
  ⟨start, sub64 (max (add64 start r.len) (add64 q.start q.len)) start⟩

/-- The loop of `LI_MERGE_BLOCK` over the elements of a ring: the range, and what stays in the ring. -/
def mergeLoop (r : Region) : List (Nat × BlockT) → Region × List (Nat × BlockT)
  | [] => (r, [])
  | e :: ring =>
    if Meets r e.2.region then mergeLoop (mergeRange r e.2.region) ring
    else ((mergeLoop r ring).1, e :: (mergeLoop r ring).2)

/-- `LI_MERGE_BLOCK`. `PC_ALLOC` gives the element `new`, whose `offset` stays what it was. -/
def liMergeBlock (ring : List (Nat × BlockT)) (r : Region) (new offset : Nat) : List (Nat × BlockT) :=
  (new, ⟨(mergeLoop r ring).1, offset⟩) :: (mergeLoop r ring).2

/-! ## What they are for -/

/-- The ranges overlap, or one of them begins where the other ends. -/
def Touches (r q : Region) : Prop := r.start ≤ q.stop ∧ q.start ≤ r.stop

instance (r q : Region) : Decidable (Touches r q) := by
  unfold Touches
  infer_instance

def hull (r q : Region) : Region :=
  ⟨min r.start q.start, max r.stop q.stop - min r.start q.start⟩

def merged (r q : Region) : Region := if Touches r q then hull r q else r

/-- A range grows by the blocks with the offset `o` that it touches. The others stay. -/
def grow (o : Nat) (r : Region) : List (Nat × BlockT) → Region × List (Nat × BlockT)
  | [] => (r, [])
  | e :: ring =>
    if e.2.offset = o ∧ Touches r e.2.region then grow o (hull r e.2.region) ring
    else ((grow o r ring).1, e :: (grow o r ring).2)

/-- One block for the range and all that touch it. -/
def replaced (o : Nat) (ring : List (Nat × BlockT)) (r : Region) (new : Nat) : List (Nat × BlockT) :=
  (new, ⟨(grow o r ring).1, o⟩) :: (grow o r ring).2

/-! ## The condition -/

/-- Both begin at the same address. The other cases are ends at the top of the address space that do
not matter. -/
def OverlapOk (r q : Region) : Prop :=
  r.stop < addrSpace ∧ q.stop < addrSpace ∧ r.start = q.start ∨
  r.stop = addrSpace ∧ q.stop = addrSpace ∧ r.start ≤ q.start ∨
  r.stop = addrSpace ∧ q.stop < r.start ∧ (0 < q.start ∨ q.stop = r.len) ∨
  q.stop = addrSpace ∧ r.stop < q.start ∧ 0 < r.start

/-- A block that the range touches has its offset, and does not begin before the range unless it goes
as far. -/
def TurnOk (o : Nat) (r : Region) (b : BlockT) : Prop :=
  ¬ Touches r b.region ∨
  b.offset = o ∧ r.stop < addrSpace ∧ b.region.stop < addrSpace ∧
    (r.start ≤ b.region.start ∨ r.stop ≤ b.region.stop) ∨
  b.offset ≠ o ∧ ¬ Meets r b.region

/-- This holds for every block, with the range as it has grown before. -/
def RingOk (o : Nat) (r : Region) : List (Nat × BlockT) → Prop
  | [] => True
  | e :: ring => TurnOk o r e.2 ∧
      RingOk o (if e.2.offset = o ∧ Touches r e.2.region then hull r e.2.region else r) ring

/-! ## The hull -/

theorem hull_stop (h : Touches r q) : (hull r q).stop = max r.stop q.stop := by
  unfold Touches hull Region.stop at *
  dsimp only
  omega

/-- The hull of ranges that touch has no other addresses than theirs. -/
theorem hull_has (h : Touches r q) : (hull r q).Has x ↔ r.Has x ∨ q.Has x := by
  unfold Region.Has
  rw [hull_stop h]
  unfold Touches hull Region.stop at *
  dsimp only
  omega

/-- What touches a range touches all that it grows to. -/
theorem touches_hull {b : Region} (h : Touches r q) (hb : Touches r b) : Touches (hull r q) b := by
  have hstop := hull_stop h
  unfold Touches at *
  rw [hstop]
  unfold hull
  dsimp only
  omega

/-- What `grow` gives: some of the blocks with the offset, among them all that touch the range, are
taken out, and the new range has exactly their addresses. -/
theorem grow_spec (o : Nat) (r : Region) (ring : List (Nat × BlockT)) :
    ∃ gone : List (Nat × BlockT), (gone ++ (grow o r ring).2).Perm ring ∧
      (grow o r ring).2.Sublist ring ∧ (∀ e ∈ gone, e.2.offset = o) ∧
      (∀ e ∈ (grow o r ring).2, e.2.offset = o → ¬ Touches r e.2.region) ∧
      ∀ x, (grow o r ring).1.Has x ↔ r.Has x ∨ ∃ e ∈ gone, e.2.region.Has x := by
  induction ring generalizing r with
  | nil => exact ⟨[], List.Perm.refl _, List.Sublist.refl _, by simp, by simp [grow], by simp [grow]⟩
  | cons e ring ih =>
    unfold grow
    split
    · rename_i htouch
      obtain ⟨gone, hperm, hsub, hoff, hstay, hhas⟩ := ih (hull r e.2.region)
      refine ⟨e :: gone, hperm.cons e, hsub.cons e, ?_, ?_, fun x => ?_⟩
      · exact List.forall_mem_cons.mpr ⟨htouch.1, hoff⟩
      · exact fun e' he' ho ht => hstay e' he' ho (touches_hull htouch.2 ht)
      · rw [hhas, hull_has htouch.2, or_assoc]
        simp only [List.mem_cons, exists_eq_or_imp]
    · rename_i hnot
      obtain ⟨gone, hperm, hsub, hoff, hstay, hhas⟩ := ih r
      refine ⟨gone, List.perm_middle.trans (hperm.cons e), hsub.cons_cons e, hoff, ?_, hhas⟩
      refine List.forall_mem_cons.mpr ⟨fun ho ht => hnot ⟨ho, ht⟩, hstay⟩

/-! ## The computed ends -/

/-- The computed end of a range is its end, or 0 for one that ends at the top. -/
theorem add64_end (h : InSpace r) : add64 r.start r.len = r.stop ∧ r.stop < addrSpace ∨
    add64 r.start r.len = 0 ∧ r.stop = addrSpace := by
  rcases Nat.lt_or_eq_of_le h.stop with hlt | htop
  · exact Or.inl ⟨add64_eq hlt, hlt⟩
  · exact Or.inr ⟨add64_top htop, htop⟩

/-- What `merge_overlap` gives is right, when it computes `new`. -/
theorem merged_iff {new : Region} (h : mergeOverlap r q = new) :
    mergeOverlap r q = merged r q ↔
      new.start = (merged r q).start ∧ new.len = (merged r q).len := by
  rw [h]
  obtain ⟨s, l⟩ := new
  rw [← Region.mk.injEq]

theorem merged_touching (h : Touches r q) : merged r q = hull r q := if_pos h

theorem merged_apart (h : ¬ Touches r q) : merged r q = r := if_neg h

/-- Both ranges end below the top. -/
theorem mergeOverlap_low (hr : r.stop < addrSpace) (hq : q.stop < addrSpace) :
    mergeOverlap r q = merged r q ↔ r.start = q.start := by
  have hsub : sub64 (max r.stop q.stop) q.start = max r.stop q.stop - q.start :=
    sub64_eq ((Nat.le_add_right _ _).trans (le_max_right _ _)) (max_lt hr hq)
  have hnew : mergeOverlap r q =
      if q.start ≤ r.stop then ⟨r.start, max r.stop q.stop - q.start⟩
      else if r.start ≤ q.stop then ⟨q.start, max r.stop q.stop - q.start⟩ else r := by
    rw [mergeOverlap, add64_eq hr, add64_eq hq]
    change (if _ then Region.mk _ (sub64 (max r.stop q.stop) q.start) else
      if _ then Region.mk _ (sub64 (max r.stop q.stop) q.start) else _) = _
    rw [hsub]
    rfl
  rw [merged_iff hnew]
  clear hnew hsub hr hq
  by_cases ht : Touches r q
  · rw [merged_touching ht]
    unfold hull
    unfold Touches Region.stop at *
    split_ifs <;> (try dsimp only) <;> omega
  · rw [merged_apart ht]
    unfold Touches Region.stop at *
    split_ifs <;> (try dsimp only) <;> omega

/-- Only the first one ends at the top. -/
theorem mergeOverlap_first (hr : r.stop = addrSpace) (hq : q.stop < addrSpace) :
    mergeOverlap r q = merged r q ↔ q.stop < r.start ∧ (0 < q.start ∨ q.stop = r.len) := by
  have hsub : sub64 (max 0 q.stop) q.start = q.len := by
    rw [Nat.zero_max]
    exact (sub64_eq (Nat.le_add_right _ _) hq).trans (Nat.add_sub_cancel_left _ _)
  have hnew : mergeOverlap r q =
      if q.start ≤ 0 then ⟨r.start, q.len⟩ else if r.start ≤ q.stop then ⟨q.start, q.len⟩ else r := by
    rw [mergeOverlap, add64_top hr, add64_eq hq]
    change (if _ then Region.mk _ (sub64 (max 0 q.stop) q.start) else
      if _ then Region.mk _ (sub64 (max 0 q.stop) q.start) else _) = _
    rw [hsub]
    rfl
  rw [merged_iff hnew]
  clear hnew hsub
  generalize addrSpace = top at *
  by_cases ht : Touches r q
  · rw [merged_touching ht]
    unfold hull
    unfold Touches Region.stop at *
    split_ifs <;> (try dsimp only) <;> omega
  · rw [merged_apart ht]
    unfold Touches Region.stop at *
    split_ifs <;> (try dsimp only) <;> omega

/-- Only the second one does. -/
theorem mergeOverlap_second (hr : r.stop < addrSpace) (hq : q.stop = addrSpace) :
    mergeOverlap r q = merged r q ↔ r.stop < q.start ∧ 0 < r.start := by
  have hsub (h : q.start ≤ r.stop) : sub64 r.stop q.start = r.stop - q.start := sub64_eq h hr
  have hnew : mergeOverlap r q =
      if q.start ≤ r.stop then ⟨r.start, sub64 r.stop q.start⟩
      else if r.start ≤ 0 then ⟨q.start, sub64 r.stop q.start⟩ else r := by
    rw [mergeOverlap, add64_eq hr, add64_top hq]
    change (if _ then Region.mk _ (sub64 (max r.stop 0) q.start) else
      if _ then Region.mk _ (sub64 (max r.stop 0) q.start) else _) = _
    rw [Nat.max_zero]
    rfl
  rw [merged_iff hnew]
  clear hnew
  generalize sub64 r.stop q.start = d at *
  generalize addrSpace = top at *
  by_cases ht : Touches r q
  · rw [merged_touching ht]
    unfold hull
    unfold Touches Region.stop at *
    split_ifs <;> (try dsimp only) <;> omega
  · rw [merged_apart ht]
    unfold Touches Region.stop at *
    split_ifs <;> (try dsimp only) <;> omega

/-- Both do. -/
theorem mergeOverlap_tops (hr : InSpace r) (hq : InSpace q) (hrt : r.stop = addrSpace)
    (hqt : q.stop = addrSpace) : mergeOverlap r q = merged r q ↔ r.start ≤ q.start := by
  have hrl := hr.len
  have hql := hq.len
  have ht : Touches r q := ⟨hqt ▸ hr.start.le, hrt ▸ hq.start.le⟩
  have hnew : mergeOverlap r q = r := by
    unfold Region.stop at hrt hqt
    rw [mergeOverlap, add64_top hrt, add64_top hqt, if_neg (by omega), if_neg (by omega)]
  rw [merged_iff hnew, merged_touching ht]
  clear ht hnew hr hq
  unfold hull
  unfold Region.stop at *
  generalize addrSpace = top at *
  dsimp only
  omega

theorem mergeOverlap_iff (hr : InSpace r) (hq : InSpace q) :
    mergeOverlap r q = merged r q ↔ OverlapOk r q := by
  unfold OverlapOk
  rcases Nat.lt_or_eq_of_le hr.stop with hrs | hrs <;>
    rcases Nat.lt_or_eq_of_le hq.stop with hqs | hqs
  · rw [mergeOverlap_low hrs hqs]
    simp only [hrs, hqs, hrs.ne, hqs.ne, true_and, false_and, or_false]
  · rw [mergeOverlap_second hrs hqs]
    simp only [hrs, hqs, hrs.ne, lt_irrefl, true_and, false_and, and_false, false_or]
  · rw [mergeOverlap_first hrs hqs]
    simp only [hrs, hqs, hqs.ne, lt_irrefl, true_and, false_and, and_false, or_false, false_or]
  · rw [mergeOverlap_tops hr hq hrs hqs]
    have := hr.start
    have := hq.start
    simp only [hrs, hqs, lt_irrefl, true_and, false_and, false_or]
    omega

theorem Meets.touches (h : Meets r q) (hr : InSpace r) (hq : InSpace q) : Touches r q := by
  have hendr := add64_end hr
  have hendq := add64_end hq
  unfold Meets at h
  unfold Touches Region.stop at *
  omega

/-! ## A turn of the loop -/

variable {o : Nat} {b : BlockT} {ring : List (Nat × BlockT)}

/-- The turn does with the block what is to be done. -/
def TurnRight (o : Nat) (r : Region) (b : BlockT) : Prop :=
  if b.offset = o ∧ Touches r b.region then
    Meets r b.region ∧ mergeRange r b.region = hull r b.region
  else ¬ Meets r b.region

theorem add64_min (hr : InSpace r) {m : Nat} (hm : m ≤ r.start) :
    add64 m r.len = m + r.len ∧ m + r.len < addrSpace ∨
      add64 m r.len = 0 ∧ m + r.len = addrSpace := by
  have hstop := hr.stop
  unfold Region.stop at hstop
  unfold add64
  rcases Nat.lt_or_eq_of_le (show m + r.len ≤ addrSpace by omega) with hlt | htop
  · exact Or.inl ⟨Nat.mod_eq_of_lt hlt, hlt⟩
  · exact Or.inr ⟨by rw [htop, Nat.mod_self], htop⟩

/-- Below the top the range that is computed is the hull, unless the end of the first one is lost. -/
theorem mergeRange_low (hrs : r.stop < addrSpace) (hqs : q.stop < addrSpace) (ht : Touches r q) :
    Meets r q ∧ mergeRange r q = hull r q ↔ r.start ≤ q.start ∨ r.stop ≤ q.stop := by
  have hmin : min r.start q.start + r.len ≤ r.stop :=
    Nat.add_le_add_right (Nat.min_le_left _ _) _
  have hle : min r.start q.start ≤ q.stop := (Nat.min_le_right _ _).trans (Nat.le_add_right _ _)
  have hsub : sub64 (max (min r.start q.start + r.len) q.stop) (min r.start q.start) =
      max (min r.start q.start + r.len) q.stop - min r.start q.start :=
    sub64_eq (hle.trans (le_max_right _ _)) (max_lt (hmin.trans_lt hrs) hqs)
  have hnew : mergeRange r q = ⟨min r.start q.start,
      max (min r.start q.start + r.len) q.stop - min r.start q.start⟩ := by
    rw [← hsub, mergeRange, add64_eq (hmin.trans_lt hrs), add64_eq hqs]
    rfl
  have hmeets : Meets r q := by
    rw [Meets, add64_eq hrs, add64_eq hqs]
    unfold Touches Region.stop at *
    omega
  rw [hnew, hull, Region.mk.injEq]
  simp only [hmeets, true_and]
  clear hsub hnew hmeets hrs hqs
  unfold Touches Region.stop at *
  omega

/-- Only 0 is as far below an address as the top is above it. -/
theorem eq_zero_of_sub64 {a m : Nat} (ha : a < addrSpace) (hm : m < addrSpace)
    (h : sub64 a m = addrSpace - m) : a = 0 := by
  rcases Nat.lt_or_ge a m with hlt | hge
  · have hwrap : sub64 a m = a + (addrSpace - m) := Nat.mod_eq_of_lt (by omega)
    omega
  · rw [sub64_eq hge ha] at h
    omega

/-- A range that ends at the top is not merged, or not to the hull. -/
theorem not_mergeRange_top (hr : InSpace r) (hq : InSpace q)
    (htop : r.stop = addrSpace ∨ q.stop = addrSpace) :
    ¬ (Meets r q ∧ mergeRange r q = hull r q) := by
  rintro ⟨hmeets, heq⟩
  have hrs := hr.start
  have hmax : max r.stop q.stop = addrSpace := by
    have := hr.stop
    have := hq.stop
    omega
  have hzero : max (add64 (min r.start q.start) r.len) (add64 q.start q.len) = 0 := by
    have hm : min r.start q.start < addrSpace := by omega
    refine eq_zero_of_sub64 (max_lt (add64_lt _ _) (add64_lt _ _)) hm ?_
    exact (congrArg Region.len heq).trans (congrArg (· - _) hmax)
  obtain ⟨he, heq'⟩ := Nat.max_eq_zero_iff.mp hzero
  have hrl := hr.len
  have hql := hq.len
  have hmin := add64_min hr (Nat.min_le_left r.start q.start)
  have hendq := add64_end hq
  have hendr := add64_end hr
  unfold Meets at hmeets
  unfold Region.stop at *
  omega

theorem mergeRange_iff (hr : InSpace r) (hq : InSpace q) (ht : Touches r q) :
    Meets r q ∧ mergeRange r q = hull r q ↔
      r.stop < addrSpace ∧ q.stop < addrSpace ∧ (r.start ≤ q.start ∨ r.stop ≤ q.stop) := by
  rcases Nat.lt_or_eq_of_le hr.stop with hrs | hrs
  · rcases Nat.lt_or_eq_of_le hq.stop with hqs | hqs
    · rw [mergeRange_low hrs hqs ht]
      simp only [hrs, hqs, true_and]
    · exact iff_of_false (not_mergeRange_top hr hq (.inr hqs)) fun h => h.2.1.ne hqs
  · exact iff_of_false (not_mergeRange_top hr hq (.inl hrs)) fun h => h.1.ne hrs

theorem turnOk_iff (hr : InSpace r) (hb : InSpace b.region) : TurnOk o r b ↔ TurnRight o r b := by
  unfold TurnOk TurnRight
  by_cases ht : Touches r b.region
  · by_cases ho : b.offset = o
    · rw [if_pos ⟨ho, ht⟩, mergeRange_iff hr hb ht]
      tauto
    · rw [if_neg fun h => ho h.1]
      tauto
  · rw [if_neg fun h => ht h.2]
    exact iff_of_true (Or.inl ht) fun hm => ht (hm.touches hr hb)

theorem hull_inSpace (hr : InSpace r) (ht : Touches r q) (hrs : r.stop < addrSpace)
    (hqs : q.stop < addrSpace) : InSpace (hull r q) := by
  have hstop := hull_stop ht
  have hstart := hr.start
  refine ⟨?_, ?_, ?_⟩
  · unfold hull
    dsimp only
    omega
  · unfold Region.stop at hstop hrs hqs
    omega
  · omega

theorem loop_cons {e : Nat × BlockT} (h : TurnRight o r e.2) (l : List (Nat × BlockT)) :
    mergeLoop r (e :: l) = grow o r (e :: l) ↔
      mergeLoop (if e.2.offset = o ∧ Touches r e.2.region then hull r e.2.region else r) l =
        grow o (if e.2.offset = o ∧ Touches r e.2.region then hull r e.2.region else r) l := by
  unfold TurnRight at h
  rw [mergeLoop, grow]
  split at h
  · rename_i htouch
    rw [if_pos h.1, if_pos htouch, if_pos htouch, h.2]
  · rename_i htouch
    rw [if_neg h, if_neg htouch, if_neg htouch, Prod.mk.injEq, List.cons.injEq, eq_self, true_and]
    exact Prod.ext_iff.symm

theorem turnRight_of_loop {e : Nat × BlockT} (h : mergeLoop r [e] = grow o r [e]) :
    TurnRight o r e.2 := by
  unfold TurnRight
  simp only [mergeLoop, grow] at h
  split at h
  · rename_i hmeets
    split at h
    · rename_i htouch
      rw [if_pos htouch]
      exact ⟨hmeets, congrArg Prod.fst h⟩
    · exact absurd (congrArg Prod.snd h) (List.cons_ne_nil _ _).symm
  · rename_i hmeets
    split at h
    · exact absurd (congrArg Prod.snd h) (List.cons_ne_nil _ _)
    · rename_i htouch
      rw [if_neg htouch]
      exact hmeets

theorem loop_iff (hr : InSpace r) (hring : ∀ e ∈ ring, InSpace e.2.region) :
    (∀ l, l <+: ring → mergeLoop r l = grow o r l) ↔ RingOk o r ring := by
  induction ring generalizing r with
  | nil =>
    refine iff_of_true (fun l hl => ?_) trivial
    rw [List.prefix_nil.mp hl]
    rfl
  | cons e ring ih =>
    obtain ⟨he, hring⟩ := List.forall_mem_cons.mp hring
    have hnext (hok : TurnOk o r e.2) :
        InSpace (if e.2.offset = o ∧ Touches r e.2.region then hull r e.2.region else r) := by
      split
      · rename_i htouch
        obtain ⟨-, hrs, hes, -⟩ :=
          (hok.resolve_left (not_not_intro htouch.2)).resolve_right fun h => h.1 htouch.1
        exact hull_inSpace hr htouch.2 hrs hes
      · exact hr
    constructor
    · intro h
      have hright := turnRight_of_loop (h [e] (List.cons_prefix_cons.mpr ⟨rfl, List.nil_prefix⟩))
      have hok := (turnOk_iff hr he).mpr hright
      refine ⟨hok, (ih (hnext hok) hring).mp fun l hl => ?_⟩
      exact (loop_cons hright l).mp (h (e :: l) (List.cons_prefix_cons.mpr ⟨rfl, hl⟩))
    · rintro ⟨hok, hrest⟩ l hl
      rcases List.prefix_cons_iff.mp hl with rfl | ⟨l', rfl, hl'⟩
      · rfl
      · exact (loop_cons ((turnOk_iff hr he).mp hok) l').mpr ((ih (hnext hok) hring).mpr hrest l' hl')

end Athomux.MapDelta
