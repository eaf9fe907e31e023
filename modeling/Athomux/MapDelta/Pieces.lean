import Athomux.MapDelta.Isect
import Mathlib.Algebra.BigOperators.Group.Multiset.Basic
import Mathlib.Algebra.Order.BigOperators.Group.List

/-!
# What remains of a block

A block out of which a range is taken is replaced by what is left and right of it.
-/

open Lib

namespace Athomux.MapDelta

/-- `struct block_t` without its link. -/
structure BlockT where
  region : Region
  offset : Nat
  deriving DecidableEq

/-- The addresses of a block, with its offset. -/
def BlockT.pairs (b : BlockT) : List (Nat × Nat) :=
  (List.range' b.region.start b.region.len).map fun x => (x, b.offset)

/-- What the blocks of a list cover. -/
def covers (l : List BlockT) : Multiset (Nat × Nat) := ((l.flatMap BlockT.pairs : List _) : Multiset _)

/-- A part that is not empty. -/
def part (q : Region) (offset : Nat) : List BlockT := if 0 < q.len then [⟨q, offset⟩] else []

/-- What `LI_REMOVE_ISECT` leaves of a block. -/
def pieces (r : Region) (b : BlockT) : List BlockT :=
  let i := intersect r b.region
  if 0 < i.len then
    part (splitLeft b.region i.start) b.offset ++
      part (splitRight b.region (add64 i.start i.len)) b.offset
  else [b]

/-- The block that is met ends, as the range does, below the highest address. -/
def Ends (r : Region) (b : BlockT) : Prop :=
  r.Apart b.region ∨ r.stop < addrSpace ∧ b.region.stop < addrSpace

instance (r : Region) (b : BlockT) : Decidable (Ends r b) := inferInstanceAs (Decidable (_ ∨ _))

variable {r q : Region} {b : BlockT} {l : List BlockT} {offset : Nat}

/-- The pairs outside of the range. -/
def outside (r : Region) (l : List (Nat × Nat)) : List (Nat × Nat) := l.filter fun p => ¬ r.Has p.1

theorem part_pairs : (part q offset).flatMap BlockT.pairs = BlockT.pairs ⟨q, offset⟩ := by
  unfold part
  split
  · exact List.append_nil _
  · have hlen : q.len = 0 := by omega
    simp only [BlockT.pairs, hlen, List.range'_zero, List.map_nil, List.flatMap_nil]

theorem pairs_split {s n k : Nat} (hk : k ≤ n) :
    BlockT.pairs ⟨⟨s, n⟩, offset⟩ =
      BlockT.pairs ⟨⟨s, k⟩, offset⟩ ++ BlockT.pairs ⟨⟨s + k, n - k⟩, offset⟩ := by
  unfold BlockT.pairs
  dsimp only
  rw [← List.map_append, List.range'_append_1, Nat.add_sub_cancel' hk]

theorem mem_pairs {p : Nat × Nat} : p ∈ b.pairs ↔ b.region.Has p.1 ∧ p.2 = b.offset := by
  unfold BlockT.pairs Region.Has Region.stop
  simp only [List.mem_map, List.mem_range'_1]
  constructor
  · rintro ⟨x, hx, rfl⟩
    exact ⟨hx, rfl⟩
  · rintro ⟨hx, hp⟩
    exact ⟨p.1, hx, by rw [← hp]⟩

theorem outside_of_apart (h : r.Apart b.region) : outside r b.pairs = b.pairs := by
  refine List.filter_eq_self.mpr fun p hp => ?_
  simpa using fun hr => h p.1 hr (mem_pairs.mp hp).1

theorem outside_of_inside (h : ∀ x, b.region.Has x → r.Has x) : outside r b.pairs = [] := by
  refine List.filter_eq_nil_iff.mpr fun p hp => ?_
  simpa using h p.1 (mem_pairs.mp hp).1

/-- A block is its part below the range, the part in it, and the part above. -/
theorem pieces_meet (hr : r.stop < addrSpace) (hb : b.region.stop < addrSpace)
    (hmeet : ¬ r.Apart b.region) :
    (pieces r b).flatMap BlockT.pairs = outside r b.pairs := by
  have hlen := (intersect_len hr hb).mpr hmeet
  obtain ⟨hzero, -⟩ | ⟨hlt, hstart, hstop⟩ := intersect_cases hr hb
  · omega
  unfold pieces
  dsimp only
  rw [if_pos hlen, List.flatMap_append, part_pairs, part_pairs]
  generalize intersect r b.region = i at *
  obtain ⟨⟨s, n⟩, offset⟩ := b
  have hsum : add64 i.start i.len = i.stop := add64_eq (by unfold Region.stop at *; omega)
  unfold Region.stop at *
  dsimp only at *
  rw [hsum]
  have hleft : BlockT.pairs ⟨splitLeft ⟨s, n⟩ i.start, offset⟩ =
      BlockT.pairs ⟨⟨s, i.start - s⟩, offset⟩ := by
    unfold splitLeft
    dsimp only
    split
    · rw [show i.start - s = 0 by omega]
      rfl
    · rw [add64_eq hb, if_neg (by omega), sub64_eq (by omega) (by omega)]
  have hright : BlockT.pairs ⟨splitRight ⟨s, n⟩ (i.start + i.len), offset⟩ =
      BlockT.pairs ⟨⟨i.start + i.len, s + n - (i.start + i.len)⟩, offset⟩ := by
    unfold splitRight
    dsimp only
    rw [if_neg (by omega), add64_eq hb]
    split
    · rw [show s + n - (i.start + i.len) = 0 by omega]
      rfl
    · rw [sub64_eq (by omega) hb]
  rw [hleft, hright, pairs_split (s := s) (n := n) (k := i.start - s) (by omega),
    show s + (i.start - s) = i.start by omega,
    pairs_split (s := i.start) (n := n - (i.start - s)) (k := i.len) (by omega),
    show n - (i.start - s) - i.len = s + n - (i.start + i.len) by omega]
  unfold outside
  rw [List.filter_append, List.filter_append]
  have h1 := outside_of_apart (r := r) (b := ⟨⟨s, i.start - s⟩, offset⟩) fun x hx hx' => by
    unfold Region.Has Region.stop at *
    dsimp only at *
    omega
  have h2 := outside_of_inside (r := r) (b := ⟨⟨i.start, i.len⟩, offset⟩) fun x hx => by
    unfold Region.Has Region.stop at *
    dsimp only at *
    omega
  have h3 := outside_of_apart (r := r)
    (b := ⟨⟨i.start + i.len, s + n - (i.start + i.len)⟩, offset⟩) fun x hx hx' => by
      unfold Region.Has Region.stop at *
      dsimp only at *
      omega
  unfold outside at h1 h2 h3
  rw [h1, h2, h3, List.nil_append]

theorem pieces_one (h : ¬ 0 < (intersect r b.region).len) : pieces r b = [b] := by
  unfold pieces
  dsimp only
  rw [if_neg h]

theorem pieces_ends (hr : r.stop ≤ addrSpace) (hb : b.region.stop ≤ addrSpace) (h : Ends r b) :
    (pieces r b).flatMap BlockT.pairs = outside r b.pairs := by
  by_cases hmeet : r.Apart b.region
  · have hlen : ¬ 0 < (intersect r b.region).len := by
      by_cases hends : r.stop < addrSpace ∧ b.region.stop < addrSpace
      · exact (intersect_len hends.1 hends.2).not.mpr (not_not_intro hmeet)
      · exact Nat.not_lt.mpr (congrArg Region.len (intersect_top hr hb hends)).le
    rw [pieces_one hlen, outside_of_apart hmeet]
    exact List.append_nil _
  · obtain ⟨hr, hb⟩ := h.resolve_left hmeet
    exact pieces_meet hr hb hmeet

/-- A block that goes up to the highest address keeps what should be taken out. -/
theorem pieces_not_ends (hr : r.stop ≤ addrSpace) (hb : b.region.stop ≤ addrSpace) (h : ¬ Ends r b) :
    (outside r b.pairs).length < ((pieces r b).flatMap BlockT.pairs).length := by
  obtain ⟨hmeet, htop⟩ := not_or.mp h
  have hone := pieces_one (Nat.not_lt.mpr (congrArg Region.len (intersect_top hr hb htop)).le)
  have hpairs : (pieces r b).flatMap BlockT.pairs = b.pairs := by
    rw [hone]
    exact List.append_nil _
  rw [hpairs]
  unfold Region.Apart at hmeet
  push Not at hmeet
  obtain ⟨x, hxr, hxb⟩ := hmeet
  refine List.length_filter_lt_length_iff_exists.mpr ⟨(x, b.offset), mem_pairs.mpr ⟨hxb, rfl⟩, ?_⟩
  simpa using hxr

theorem pieces_length (hr : r.stop ≤ addrSpace) (hb : b.region.stop ≤ addrSpace) :
    (outside r b.pairs).length ≤ ((pieces r b).flatMap BlockT.pairs).length := by
  by_cases h : Ends r b
  · rw [pieces_ends hr hb h]
  · exact (pieces_not_ends hr hb h).le

theorem covers_pieces (l : List BlockT) :
    covers (l.flatMap (pieces r)) =
      (l.flatMap fun b => (pieces r b).flatMap BlockT.pairs : List (Nat × Nat)) := by
  rw [covers, List.flatMap_assoc]

theorem covers_filter (l : List BlockT) :
    (covers l).filter (fun p => ¬ r.Has p.1) =
      (l.flatMap fun b => outside r b.pairs : List (Nat × Nat)) := by
  rw [covers, Multiset.filter_coe, List.filter_flatMap]
  rfl

/-- The blocks of a list cover what they covered outside of the range if and only if no block that is
met goes up to the highest address, nor the range. -/
theorem pieces_covers (hr : r.stop ≤ addrSpace) (hl : ∀ b ∈ l, b.region.stop ≤ addrSpace) :
    covers (l.flatMap (pieces r)) = (covers l).filter (fun p => ¬ r.Has p.1) ↔
      ∀ b ∈ l, Ends r b := by
  rw [covers_pieces, covers_filter]
  constructor
  · intro h
    have hlen := (Multiset.coe_eq_coe.mp h).length_eq
    clear h
    induction l with
    | nil => exact fun b hb => absurd hb List.not_mem_nil
    | cons b l ih =>
      obtain ⟨hb, hl⟩ := List.forall_mem_cons.mp hl
      rw [List.flatMap_cons, List.flatMap_cons, List.length_append, List.length_append] at hlen
      have hle : (l.flatMap fun b => outside r b.pairs).length ≤
          (l.flatMap fun b => (pieces r b).flatMap BlockT.pairs).length := by
        rw [List.length_flatMap, List.length_flatMap]
        exact List.sum_le_sum fun c hc => pieces_length hr (hl c hc)
      have hb' := pieces_length hr hb
      refine List.forall_mem_cons.mpr ⟨?_, ih hl (by omega)⟩
      by_contra hends
      have := pieces_not_ends hr hb hends
      omega
  · intro h
    refine congrArg _ (List.flatMap_congr fun b hb => ?_)
    exact pieces_ends hr (hl b hb) (h b hb)

end Athomux.MapDelta
