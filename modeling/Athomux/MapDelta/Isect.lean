import Athomux.Lib.Regions
import Athomux.Args

/-!
# Intersections and splits

The macros of `isect.inc`. They are right for regions that end inside of the address space.
-/

open Lib

namespace Athomux.MapDelta

variable {r q : Region} {p x : Nat}

/-- `intersect`. -/
def intersect (r q : Region) : Region :=
  if add64 r.start r.len ≤ q.start ∨ add64 q.start q.len ≤ r.start then ⟨0, 0⟩
  else if r.start < q.start then
    let len := sub64 (add64 r.start r.len) q.start
    ⟨q.start, if q.len < len then q.len else len⟩
  else
    let len := sub64 (add64 q.start q.len) r.start
    ⟨r.start, if r.len < len then r.len else len⟩

/-- `splitleft`. -/
def splitLeft (r : Region) (p : Nat) : Region :=
  if p ≤ r.start then ⟨0, 0⟩
  else if add64 r.start r.len ≤ p then r
  else ⟨r.start, sub64 p r.start⟩

/-- `splitright`. -/
def splitRight (r : Region) (p : Nat) : Region :=
  if p ≤ r.start then r
  else if add64 r.start r.len ≤ p then ⟨0, 0⟩
  else ⟨p, sub64 (add64 r.start r.len) p⟩

theorem intersect_cases (hr : r.stop < addrSpace) (hq : q.stop < addrSpace) :
    (intersect r q).len = 0 ∧ r.Apart q ∨
      max r.start q.start < min r.stop q.stop ∧
        (intersect r q).start = max r.start q.start ∧ (intersect r q).stop = min r.stop q.stop := by
  have hr' : add64 r.start r.len = r.stop := add64_eq hr
  have hq' : add64 q.start q.len = q.stop := add64_eq hq
  unfold intersect
  rw [hr', hq', Region.apart_iff]
  unfold Region.stop at *
  split
  · left
    dsimp only
    omega
  · split
    · rw [sub64_eq (by omega) hr]
      dsimp only
      split <;> omega
    · rw [sub64_eq (by omega) hq]
      dsimp only
      split <;> omega

theorem intersect_has (hr : r.stop < addrSpace) (hq : q.stop < addrSpace) :
    (intersect r q).Has x ↔ r.Has x ∧ q.Has x := by
  rcases intersect_cases hr hq with ⟨hlen, hapart⟩ | ⟨hlt, hstart, hstop⟩
  · constructor
    · intro h
      unfold Region.Has Region.stop at h
      omega
    · rintro ⟨h1, h2⟩
      exact absurd h2 (hapart x h1)
  · unfold Region.Has
    rw [hstart, hstop]
    omega

theorem intersect_len (hr : r.stop < addrSpace) (hq : q.stop < addrSpace) :
    0 < (intersect r q).len ↔ ¬ r.Apart q := by
  rcases intersect_cases hr hq with ⟨hlen, hapart⟩ | ⟨hlt, hstart, hstop⟩
  · exact iff_of_false (by omega) (not_not_intro hapart)
  · refine iff_of_true ?_ ?_
    · unfold Region.stop at *
      omega
    · rw [Region.apart_iff]
      unfold Region.stop at *
      omega

theorem splitLeft_has (hr : r.stop < addrSpace) : (splitLeft r p).Has x ↔ r.Has x ∧ x < p := by
  have hr' : add64 r.start r.len = r.stop := add64_eq hr
  unfold splitLeft
  rw [hr']
  unfold Region.Has Region.stop at *
  split
  · dsimp only
    omega
  · split
    · omega
    · rw [sub64_eq (by omega) (by omega)]
      dsimp only
      omega

theorem splitRight_has (hr : r.stop < addrSpace) : (splitRight r p).Has x ↔ r.Has x ∧ p ≤ x := by
  have hr' : add64 r.start r.len = r.stop := add64_eq hr
  unfold splitRight
  rw [hr']
  unfold Region.Has Region.stop at *
  split
  · omega
  · split
    · dsimp only
      omega
    · rw [sub64_eq (by omega) hr]
      dsimp only
      omega

/-- The parts stay inside of the address space. -/
theorem splitLeft_stop (hr : r.stop < addrSpace) : (splitLeft r p).stop < addrSpace := by
  have hr' : add64 r.start r.len = r.stop := add64_eq hr
  unfold splitLeft
  rw [hr']
  unfold Region.stop at *
  split
  · exact Nat.zero_lt_of_lt hr
  · split
    · exact hr
    · rw [sub64_eq (by omega) (by omega)]
      dsimp only
      omega

theorem splitRight_stop (hr : r.stop < addrSpace) : (splitRight r p).stop < addrSpace := by
  have hr' : add64 r.start r.len = r.stop := add64_eq hr
  unfold splitRight
  rw [hr']
  unfold Region.stop at *
  split
  · exact hr
  · split
    · exact Nat.zero_lt_of_lt hr
    · rw [sub64_eq (by omega) hr]
      dsimp only
      omega

/-- The fields of the parts are 64 bits wide. -/
theorem splitLeft_lt (h : r.start < addrSpace ∧ r.len < addrSpace) :
    (splitLeft r p).start < addrSpace ∧ (splitLeft r p).len < addrSpace := by
  unfold splitLeft
  split
  · exact ⟨by decide, by decide⟩
  · split
    · exact h
    · exact ⟨h.1, sub64_lt _ _⟩

theorem splitRight_lt (h : r.start < addrSpace ∧ r.len < addrSpace) (hp : p < addrSpace) :
    (splitRight r p).start < addrSpace ∧ (splitRight r p).len < addrSpace := by
  unfold splitRight
  split
  · exact h
  · split
    · exact ⟨by decide, by decide⟩
    · exact ⟨hp, sub64_lt _ _⟩

/-! ## Partitions -/

/-- `substract`. Both regions have the length `l`. -/
def substract (s1 s2 l : Nat) : Region :=
  if s2 ≤ s1 ∧ s1 < add64 s2 l then ⟨add64 s2 l, sub64 s1 s2⟩
  else if s1 < s2 ∧ s2 < add64 s1 l then ⟨s1, sub64 s2 s1⟩
  else ⟨s1, l⟩

/-- The parts have no address in common, and together those of `r`. -/
def Partition (r : Region) (parts : List Region) : Prop :=
  parts.Pairwise Region.Apart ∧ ∀ x, r.Has x ↔ ∃ part ∈ parts, part.Has x

/-- What the macros are for, with a cut at `p`. -/
structure RangeLaws (r q : Region) (p : Nat) : Prop where
  common : ∀ x, (intersect r q).Has x ↔ r.Has x ∧ q.Has x
  left : ∀ x, (splitLeft r p).Has x ↔ r.Has x ∧ x < p
  right : ∀ x, (splitRight r p).Has x ↔ r.Has x ∧ p ≤ x
  rests : Partition r [intersect r q, splitLeft r (intersect r q).start,
    splitRight r (add64 (intersect r q).start (intersect r q).len)]
  rest : r.len = q.len → Partition r [intersect r q, substract r.start q.start r.len]

/-- A region of the address space, which may end at its top. -/
structure InSpace (r : Region) : Prop where
  start : r.start < addrSpace
  len : r.len < addrSpace
  stop : r.stop ≤ addrSpace

theorem add64_top (h : r.stop = addrSpace) : add64 r.start r.len = 0 := by
  unfold Region.stop at h
  rw [add64, h, Nat.mod_self]

/-- The end of a region that goes up to the highest address wraps around, and then the two do not
seem to meet. -/
theorem intersect_top (hr : r.stop ≤ addrSpace) (hq : q.stop ≤ addrSpace)
    (htop : ¬ (r.stop < addrSpace ∧ q.stop < addrSpace)) : intersect r q = ⟨0, 0⟩ := by
  have hzero : add64 r.start r.len ≤ q.start ∨ add64 q.start q.len ≤ r.start := by
    unfold add64 Region.stop addrSpace at *
    omega
  unfold intersect
  rw [if_pos hzero]

theorem not_has_zero {a : Nat} : ¬ Region.Has ⟨a, 0⟩ x := by
  unfold Region.Has Region.stop
  dsimp only
  omega

theorem partition_three {a b c : Region} : Partition r [a, b, c] ↔
    (a.Apart b ∧ a.Apart c ∧ b.Apart c) ∧ ∀ x, r.Has x ↔ a.Has x ∨ b.Has x ∨ c.Has x := by
  unfold Partition
  simp only [List.pairwise_cons, List.mem_cons, List.not_mem_nil, or_false, List.Pairwise.nil,
    forall_eq_or_imp, forall_eq, exists_eq_or_imp, exists_eq_left, and_true, IsEmpty.forall_iff,
    implies_true, and_assoc]

theorem partition_two {a b : Region} :
    Partition r [a, b] ↔ a.Apart b ∧ ∀ x, r.Has x ↔ a.Has x ∨ b.Has x := by
  unfold Partition
  simp only [List.pairwise_cons, List.mem_cons, List.not_mem_nil, or_false, List.Pairwise.nil,
    forall_eq, exists_eq_or_imp, exists_eq_left, and_true, IsEmpty.forall_iff, implies_true]

/-- What `intersect` gives is what both have, unless a region that ends at the top meets the other. -/
theorem intersect_common (hr : InSpace r) (hq : InSpace q)
    (h : r.stop < addrSpace ∧ q.stop < addrSpace ∨ r.Apart q) :
    (intersect r q).Has x ↔ r.Has x ∧ q.Has x := by
  by_cases hin : r.stop < addrSpace ∧ q.stop < addrSpace
  · exact intersect_has hin.1 hin.2
  · have hapart := h.resolve_left hin
    rw [intersect_top hr.stop hq.stop hin]
    exact iff_of_false not_has_zero fun hx => hapart x hx.1 hx.2

theorem intersect_stop (hr : InSpace r) (hq : InSpace q) (hrs : r.stop < addrSpace)
    (hqs : q.stop < addrSpace) : (intersect r q).stop < addrSpace := by
  rcases intersect_cases hrs hqs with ⟨hlen, -⟩ | ⟨-, -, hstop⟩
  · have hstart : (intersect r q).start < addrSpace := by
      unfold intersect
      split
      · exact Nat.zero_lt_of_lt hrs
      · split
        · exact hq.start
        · exact hr.start
    unfold Region.stop
    omega
  · omega

/-- The intersection and what is on both of its sides. -/
theorem rests_partition (hr : InSpace r) (hq : InSpace q) :
    Partition r [intersect r q, splitLeft r (intersect r q).start,
      splitRight r (add64 (intersect r q).start (intersect r q).len)] := by
  rw [partition_three]
  by_cases hin : r.stop < addrSpace ∧ q.stop < addrSpace
  · have hsum : add64 (intersect r q).start (intersect r q).len = (intersect r q).stop :=
      add64_eq (intersect_stop hr hq hin.1 hin.2)
    have hwithin : (intersect r q).len = 0 ∨
        r.start ≤ (intersect r q).start ∧ (intersect r q).stop ≤ r.stop := by
      rcases intersect_cases hin.1 hin.2 with ⟨hlen, -⟩ | ⟨-, hstart, hstop⟩
      · exact Or.inl hlen
      · exact Or.inr (by omega)
    rw [hsum]
    refine ⟨⟨fun y hy hy' => ?_, fun y hy hy' => ?_, fun y hy hy' => ?_⟩, fun y => ?_⟩
    · rw [splitLeft_has hin.1] at hy'
      unfold Region.Has at hy
      omega
    · rw [splitRight_has hin.1] at hy'
      unfold Region.Has at hy
      omega
    · rw [splitLeft_has hin.1] at hy
      rw [splitRight_has hin.1] at hy'
      unfold Region.stop at hy'
      omega
    · rw [splitLeft_has hin.1, splitRight_has hin.1]
      unfold Region.Has Region.stop at *
      omega
  · have hleft : splitLeft r 0 = ⟨0, 0⟩ := if_pos (Nat.zero_le _)
    have hright : splitRight r 0 = r := if_pos (Nat.zero_le _)
    have hzero : add64 0 0 = 0 := by decide
    rw [intersect_top hr.stop hq.stop hin, hzero, hleft, hright]
    refine ⟨⟨Region.apart_of_len rfl, Region.apart_of_len rfl, Region.apart_of_len rfl⟩, fun y => ?_⟩
    simp only [not_has_zero, false_or]

/-- `substract` takes away what both have. Only a region at the top that is taken from itself remains. -/
theorem substract_has {s1 s2 l : Nat} (h1 : InSpace ⟨s1, l⟩) (h2 : InSpace ⟨s2, l⟩)
    (h : ¬ (s1 = s2 ∧ s1 + l = addrSpace)) :
    (substract s1 s2 l).Has x ↔ Region.Has ⟨s1, l⟩ x ∧ ¬ Region.Has ⟨s2, l⟩ x := by
  have hs1 := h1.start
  have hs2 := h2.start
  have he1 := h1.stop
  have he2 := h2.stop
  have hend : ∀ s, s + l ≤ addrSpace →
      add64 s l = s + l ∧ s + l < addrSpace ∨ add64 s l = 0 ∧ s + l = addrSpace := by
    intro s hs
    rcases Nat.lt_or_eq_of_le hs with hlt | htop
    · exact Or.inl ⟨add64_eq hlt, hlt⟩
    · exact Or.inr ⟨by rw [add64, htop, Nat.mod_self], htop⟩
  unfold Region.Has Region.stop at *
  dsimp only at *
  have hend1 := hend s1 he1
  have hend2 := hend s2 he2
  unfold substract
  split
  · rw [sub64_eq (by omega) hs1]
    dsimp only
    omega
  · split
    · rw [sub64_eq (by omega) hs2]
      dsimp only
      omega
    · dsimp only
      omega

theorem rest_partition {s1 s2 l : Nat} (h1 : InSpace ⟨s1, l⟩) (h2 : InSpace ⟨s2, l⟩)
    (h : Region.stop ⟨s1, l⟩ < addrSpace ∧ Region.stop ⟨s2, l⟩ < addrSpace ∨
      Region.Apart ⟨s1, l⟩ ⟨s2, l⟩) :
    Partition ⟨s1, l⟩ [intersect ⟨s1, l⟩ ⟨s2, l⟩, substract s1 s2 l] := by
  have htop : ¬ (s1 = s2 ∧ s1 + l = addrSpace) := by
    rintro ⟨rfl, htop⟩
    rw [Region.apart_iff] at h
    have hs1 := h1.start
    unfold Region.stop at h
    dsimp only at h hs1
    omega
  rw [partition_two]
  refine ⟨fun y hy hy' => ?_, fun y => ?_⟩
  · rw [intersect_common h1 h2 h] at hy
    rw [substract_has h1 h2 htop] at hy'
    exact hy'.2 hy.2
  · rw [intersect_common h1 h2 h, substract_has h1 h2 htop, ← and_or_left]
    exact (and_iff_left (em _)).symm

/-- **Partitions.** The macros are right but for ranges that end at the top of the address space: there
an intersection is lost, and so is what is right of a cut. -/
theorem range_laws_iff (hr : InSpace r) (hq : InSpace q) (hp : p < addrSpace) :
    RangeLaws r q p ↔ (r.stop < addrSpace ∧ q.stop < addrSpace ∨ r.Apart q) ∧
      (r.stop < addrSpace ∨ p ≤ r.start) := by
  have hrs := hr.stop
  have hqs := hq.stop
  constructor
  · intro h
    constructor
    · refine or_iff_not_imp_left.mpr fun hin x hx hx' => ?_
      have hboth := (h.common x).mpr ⟨hx, hx'⟩
      rw [intersect_top hr.stop hq.stop hin] at hboth
      exact not_has_zero hboth
    · by_contra hno
      have hright := h.right (addrSpace - 1)
      have hcut : splitRight r p = ⟨0, 0⟩ := by
        unfold splitRight
        rw [if_neg (by omega), if_pos (by rw [add64_top (by omega)]; exact Nat.zero_le _)]
      rw [hcut] at hright
      refine not_has_zero (hright.mpr ⟨⟨?_, ?_⟩, ?_⟩) <;> omega
  · rintro ⟨hin, hcut⟩
    refine ⟨fun x => intersect_common hr hq hin, fun x => ?_, fun x => ?_,
      rests_partition hr hq, fun hlen => ?_⟩
    · rcases hcut with hlow | hlow
      · exact splitLeft_has hlow
      · rw [splitLeft, if_pos hlow]
        refine iff_of_false not_has_zero fun hx => ?_
        unfold Region.Has at hx
        omega
    · rcases hcut with hlow | hlow
      · exact splitRight_has hlow
      · rw [splitRight, if_pos hlow]
        refine (and_iff_left_of_imp fun hx => ?_).symm
        unfold Region.Has at hx
        omega
    · obtain ⟨s1, l⟩ := r
      obtain ⟨s2, l2⟩ := q
      obtain rfl : l = l2 := hlen
      exact rest_partition hr hq hin

theorem range_laws_page :
    RangeLaws ⟨0, 8192⟩ ⟨4096, 8192⟩ 6000 ↔
      (Region.stop ⟨0, 8192⟩ < addrSpace ∧ Region.stop ⟨4096, 8192⟩ < addrSpace ∨
        Region.Apart ⟨0, 8192⟩ ⟨4096, 8192⟩) ∧
      (Region.stop ⟨0, 8192⟩ < addrSpace ∨ 6000 ≤ Region.start ⟨0, 8192⟩) :=
  range_laws_iff ⟨by decide, by decide, by decide⟩ ⟨by decide, by decide, by decide⟩ (by decide)

/-- The last page and the last two pages have the last page in common. -/
theorem top_not_common :
    InSpace ⟨addrSpace - 4096, 4096⟩ ∧ InSpace ⟨addrSpace - 8192, 8192⟩ ∧
      ¬ RangeLaws ⟨addrSpace - 4096, 4096⟩ ⟨addrSpace - 8192, 8192⟩ 0 := by
  refine ⟨⟨by decide, by decide, by decide⟩, ⟨by decide, by decide, by decide⟩, fun h => ?_⟩
  have hlast := (h.common (addrSpace - 1)).mpr (by decide)
  rw [intersect_top (by decide) (by decide) (by decide)] at hlast
  exact not_has_zero hlast

end Athomux.MapDelta
