import Athomux.MapDelta.Translation
import Mathlib.Data.List.Nodup
import Mathlib.Data.List.Perm.Basic

/-!
# Requests over many blocks

`rec_op` splits the block where it should split the request.
-/

open Lib

namespace Athomux.MapDelta

variable {l X Y : List Block} {b : Block} {r q : Region} {x : Nat} {s : Issued}
  {answer : List Region → Region → Bool}

/-! ## Addresses -/

def addresses (r : Region) : List Nat := (List.range r.len).map (add64 r.start)

theorem addresses_empty (h : r.len = 0) : addresses r = [] := by
  rw [addresses, h]
  rfl

theorem addresses_eq (hr : r.stop ≤ addrSpace) :
    addresses r = (List.range r.len).map (r.start + ·) := by
  refine List.map_congr_left fun i hi => ?_
  have hi := List.mem_range.mp hi
  unfold Region.stop at hr
  exact add64_eq (by omega)

theorem mem_addresses (hr : r.stop ≤ addrSpace) : x ∈ addresses r ↔ r.Has x := by
  rw [addresses_eq hr, List.mem_map]
  unfold Region.Has Region.stop
  constructor
  · rintro ⟨i, hi, rfl⟩
    have := List.mem_range.mp hi
    omega
  · rintro ⟨hge, hlt⟩
    exact ⟨x - r.start, List.mem_range.mpr (by omega), by omega⟩

theorem nodup_addresses (hr : r.stop ≤ addrSpace) : (addresses r).Nodup := by
  rw [addresses_eq hr]
  exact List.nodup_range.map fun _ _ h => Nat.add_left_cancel h

/-- A part of a region in two ways. -/
theorem addresses_filter {p : Nat → Bool} (hr : r.stop ≤ addrSpace) (hq : q.stop ≤ addrSpace)
    (h : ∀ x, q.Has x ↔ r.Has x ∧ p x = true) : ((addresses r).filter p).Perm (addresses q) := by
  refine (List.perm_ext_iff_of_nodup ((nodup_addresses hr).filter p) (nodup_addresses hq)).mpr ?_
  intro x
  rw [List.mem_filter, mem_addresses hr, mem_addresses hq, h]

/-! ## What is issued -/

/-- The calls have the translations of the addresses of the request, each once. -/
def Tiles (l : List Block) (r : Region) (calls : List Region) : Prop :=
  (calls.flatMap addresses).Perm ((addresses r).map (translate l))

/-- What is translated outside of the first block that is seen is what is left of the block outside of
the request. If none is seen, then what the request has of blocks is moved to the same addresses. -/
def Whole (l : List Block) (r : Region) : Prop :=
  match l.find? fun b => Sees r b.region with
  | some b => (((addresses r).filter fun x => ¬ b.region.Has x).map (translate l)).Perm
      ((addresses b.region).filter fun x => ¬ r.Has x)
  | none => (((addresses r).filter fun x => ∃ b ∈ l, b.region.Has x).map (translate l)).Perm
      ((addresses r).filter fun x => ∃ b ∈ l, b.region.Has x)

instance (l : List Block) (r : Region) : Decidable (Whole l r) := by
  unfold Whole
  split <;> infer_instance

theorem recOp_skip (hr : InSpace r) (hX : ∀ c ∈ X, InSpace c.region)
    (hnot : ∀ c ∈ X, ¬ Sees r c.region) : recOp answer (X ++ Y) r s = recOp answer Y r s := by
  induction X with
  | nil => rfl
  | cons c X ih =>
    obtain ⟨hc, hX⟩ := List.forall_mem_cons.mp hX
    obtain ⟨hnc, hnot⟩ := List.forall_mem_cons.mp hnot
    rw [List.cons_append, recOp, if_neg ((sees_iff hr hc).not.mpr hnc)]
    exact ih hX hnot

theorem recOp_unseen (hr : InSpace r) (hl : ∀ c ∈ l, InSpace c.region)
    (hnot : ∀ c ∈ l, ¬ Sees r c.region) : recOp answer l r s = issue answer s r := by
  have : recOp answer (l ++ []) r s = recOp answer [] r s := recOp_skip hr hl hnot
  rwa [List.append_nil] at this

/-! ## The block that is met first -/

/-- The parts of the block below and behind the request. -/
def leftPart (b : Block) (r : Region) : Region :=
  splitLeft b.region (intersect r b.region).start

def rightPart (b : Block) (r : Region) : Region :=
  splitRight b.region (add64 (intersect r b.region).start (intersect r b.region).len)

/-- Where the common part lies at `:<in`. -/
def shifted (b : Block) (r : Region) : Region :=
  ⟨shift64 (intersect r b.region).start b.offset, (intersect r b.region).len⟩

def nonempty (r : Region) : List Region := if 0 < r.len then [r] else []

theorem addresses_nonempty : (nonempty r).flatMap addresses = addresses r := by
  unfold nonempty
  split
  · simp
  · rename_i h
    rw [addresses_empty (Nat.le_zero.mp (Nat.not_lt.mp h))]
    rfl

/-- A part that may be empty. -/
def issuePart (answer : List Region → Region → Bool) (s : Issued) (r : Region) : Issued :=
  if 0 < r.len then issue answer s r else ⟨s.calls, true⟩

theorem issuePart_calls : (issuePart answer s r).calls = s.calls ++ nonempty r := by
  unfold issuePart nonempty
  split
  · rfl
  · exact (List.append_nil _).symm

theorem issuePart_success (hall : ∀ cs r, answer cs r = true) : (issuePart answer s r).success = true := by
  unfold issuePart
  split
  · exact hall _ _
  · rfl

theorem inSpace_leftPart (hb : b.region.stop < addrSpace) : InSpace (leftPart b r) := by
  have hspace : b.region.start < addrSpace ∧ b.region.len < addrSpace := by
    unfold Region.stop at hb
    omega
  obtain ⟨hstart, hlen⟩ := splitLeft_lt (r := b.region) (p := (intersect r b.region).start) hspace
  exact ⟨hstart, hlen, (splitLeft_stop hb).le⟩

section

variable (hr : r.stop < addrSpace) (hb : b.region.stop < addrSpace) (hmeet : ¬ r.Apart b.region)
include hr hb hmeet

theorem meet_cases : max r.start b.region.start < min r.stop b.region.stop ∧
    (intersect r b.region).start = max r.start b.region.start ∧
    (intersect r b.region).stop = min r.stop b.region.stop :=
  (intersect_cases hr hb).resolve_left fun h => hmeet h.2

theorem leftPart_has : (leftPart b r).Has x ↔ b.region.Has x ∧ x < r.start := by
  obtain ⟨hlt, hstart, -⟩ := meet_cases hr hb hmeet
  rw [leftPart, splitLeft_has hb, hstart]
  unfold Region.Has
  omega

theorem inSpace_rightPart : InSpace (rightPart b r) := by
  obtain ⟨hlt, -, hstop⟩ := meet_cases hr hb hmeet
  have hspace : b.region.start < addrSpace ∧ b.region.len < addrSpace := by
    unfold Region.stop at hb
    omega
  obtain ⟨hstart, hlen⟩ := splitRight_lt (r := b.region) hspace
    (add64_lt (intersect r b.region).start (intersect r b.region).len)
  exact ⟨hstart, hlen, (splitRight_stop hb).le⟩

theorem rightPart_has : (rightPart b r).Has x ↔ b.region.Has x ∧ r.stop ≤ x := by
  obtain ⟨hlt, -, hstop⟩ := meet_cases hr hb hmeet
  have hadd : add64 (intersect r b.region).start (intersect r b.region).len = min r.stop b.region.stop := by
    rw [← hstop]
    refine add64_eq ?_
    change (intersect r b.region).stop < addrSpace
    omega
  rw [rightPart, splitRight_has hb, hadd]
  unfold Region.Has
  omega

variable (hY : ∀ c ∈ Y, InSpace c.region ∧ b.region.Apart c.region)
include hY

theorem recOp_left : recOp answer Y (leftPart b r) s = issue answer s (leftPart b r) := by
  refine recOp_unseen (inSpace_leftPart hb) (fun c hc => (hY c hc).1) fun c hc hsees => ?_
  exact hsees.2.2 fun x hx => (hY c hc).2 x ((leftPart_has hr hb hmeet).mp hx).1

theorem recOp_right : recOp answer Y (rightPart b r) s = issue answer s (rightPart b r) := by
  refine recOp_unseen (inSpace_rightPart hr hb hmeet) (fun c hc => (hY c hc).1) fun c hc hsees => ?_
  exact hsees.2.2 fun x hx => (hY c hc).2 x ((rightPart_has hr hb hmeet).mp hx).1

theorem recOp_meet : recOp answer (b :: Y) r s =
    let s₁ := issuePart answer s (leftPart b r)
    let s₂ := issuePart answer s₁ (rightPart b r)
    if s₁.success then if s₂.success then issue answer s₂ (shifted b r) else s₂ else s₁ := by
  have hpos : 0 < (intersect r b.region).len := (intersect_len hr hb).mpr hmeet
  rw [recOp, if_pos hpos]
  change (let s₁ := if 0 < (leftPart b r).len then recOp answer Y (leftPart b r) s else ⟨s.calls, true⟩
    if s₁.success then
      let s₂ := if 0 < (rightPart b r).len then recOp answer Y (rightPart b r) s₁ else ⟨s₁.calls, true⟩
      if s₂.success then issue answer s₂ (shifted b r) else s₂
    else s₁) = _
  simp only [recOp_left hr hb hmeet hY, recOp_right hr hb hmeet hY]
  rfl

theorem recOp_calls (h : (recOp answer (b :: Y) r s).success = true) :
    (recOp answer (b :: Y) r s).calls =
      s.calls ++ nonempty (leftPart b r) ++ nonempty (rightPart b r) ++ [shifted b r] := by
  rw [recOp_meet hr hb hmeet hY] at h ⊢
  dsimp only at h ⊢
  split
  · rename_i h1
    rw [if_pos h1] at h
    split
    · rw [issue, issuePart_calls, issuePart_calls]
    · rename_i h2
      rw [if_neg h2] at h
      exact absurd h h2
  · rename_i h1
    rw [if_neg h1] at h
    exact absurd h h1

theorem recOp_success (hall : ∀ cs r, answer cs r = true) :
    (recOp answer (b :: Y) r s).success = true := by
  rw [recOp_meet hr hb hmeet hY]
  dsimp only
  rw [if_pos (issuePart_success hall), if_pos (issuePart_success hall)]
  exact hall _ _

end

/-! ## All that is issued -/

theorem addresses_shifted (hr : r.stop < addrSpace) (hb : b.region.stop < addrSpace)
    (hapart : (X ++ b :: Y).Pairwise fun b c => b.region.Apart c.region) :
    addresses (shifted b r) = (addresses (intersect r b.region)).map (translate (X ++ b :: Y)) := by
  rw [addresses, addresses, List.map_map]
  refine List.map_congr_left fun k hk => ?_
  have hk : k < (intersect r b.region).len := List.mem_range.mp hk
  have hmem : (intersect r b.region).Has ((intersect r b.region).start + k) := by
    unfold Region.Has Region.stop
    omega
  have hboth := (intersect_has hr hb).mp hmem
  have hadd : add64 (intersect r b.region).start k = (intersect r b.region).start + k := by
    have := hboth.1.2
    exact add64_eq (by omega)
  rw [Function.comp_apply, hadd, translate_mem hapart hboth.2, shift64_add]
  rfl

theorem tiles_meet (hr : r.stop < addrSpace) (hb : b.region.stop < addrSpace)
    (hmeet : ¬ r.Apart b.region)
    (hapart : (X ++ b :: Y).Pairwise fun b c => b.region.Apart c.region) :
    Tiles (X ++ b :: Y) r (nonempty (leftPart b r) ++ nonempty (rightPart b r) ++ [shifted b r]) ↔
      (((addresses r).filter fun x => ¬ b.region.Has x).map (translate (X ++ b :: Y))).Perm
        ((addresses b.region).filter fun x => ¬ r.Has x) := by
  have hi : (intersect r b.region).stop < addrSpace := by
    have := (meet_cases hr hb hmeet).2.2
    omega
  have hcommon : ((addresses r).filter fun x => b.region.Has x).Perm
      (addresses (intersect r b.region)) := by
    refine addresses_filter hr.le hi.le fun x => ?_
    rw [intersect_has hr hb, decide_eq_true_eq]
  -- What the request has, by whether it is in the block.
  have hall : ((addresses r).map (translate (X ++ b :: Y))).Perm
      (addresses (shifted b r) ++
        ((addresses r).filter fun x => ¬ b.region.Has x).map (translate (X ++ b :: Y))) := by
    have hsplit := (List.filter_append_perm (fun x => decide (b.region.Has x)) (addresses r)).symm
    have := hsplit.map (translate (X ++ b :: Y))
    rw [List.map_append] at this
    rw [addresses_shifted hr hb hapart]
    simp only [decide_not]
    exact this.trans ((hcommon.map _).append_right _)
  -- What is left of the block.
  have hrest : ((addresses b.region).filter fun x => ¬ r.Has x).Perm
      (addresses (leftPart b r) ++ addresses (rightPart b r)) := by
    have hleft := splitLeft_stop (p := (intersect r b.region).start) hb
    have hright : (rightPart b r).stop < addrSpace := splitRight_stop hb
    have hdisjoint : ∀ x ∈ addresses (leftPart b r), ∀ y ∈ addresses (rightPart b r), x ≠ y := by
      intro x hx y hy
      have hx := ((leftPart_has hr hb hmeet).mp ((mem_addresses hleft.le).mp hx)).2
      have hy := ((rightPart_has hr hb hmeet).mp ((mem_addresses hright.le).mp hy)).2
      unfold Region.stop at hy
      omega
    refine (List.perm_ext_iff_of_nodup ((nodup_addresses hb.le).filter _)
      (List.nodup_append.mpr ⟨nodup_addresses hleft.le, nodup_addresses hright.le, hdisjoint⟩)).mpr ?_
    intro x
    rw [List.mem_filter, mem_addresses hb.le, List.mem_append, mem_addresses hleft.le,
      mem_addresses hright.le]
    have hhas : r.Has x ↔ r.start ≤ x ∧ x < r.stop := Iff.rfl
    have hlx := leftPart_has (x := x) hr hb hmeet
    have hrx := rightPart_has (x := x) hr hb hmeet
    rw [show (splitLeft b.region (intersect r b.region).start).Has x ↔ _ from hlx, hrx,
      decide_eq_true_eq, hhas, ← and_or_left, not_and_or, Nat.not_le, Nat.not_lt]
  rw [Tiles, List.flatMap_append, List.flatMap_append, addresses_nonempty, addresses_nonempty,
    List.flatMap_singleton]
  rw [hall.congr_right, List.perm_append_comm.congr_left, List.perm_append_left_iff,
    ← hrest.congr_left, List.perm_comm]

/-- A request in which no block is seen goes on as it is. -/
theorem tiles_unseen : Tiles l r [r] ↔
    (((addresses r).filter fun x => ∃ b ∈ l, b.region.Has x).map (translate l)).Perm
      ((addresses r).filter fun x => ∃ b ∈ l, b.region.Has x) := by
  have hsplit := List.filter_append_perm (fun x => decide (∃ b ∈ l, b.region.Has x)) (addresses r)
  have hrest : ((addresses r).filter fun x => !decide (∃ b ∈ l, b.region.Has x)).map (translate l) =
      (addresses r).filter fun x => !decide (∃ b ∈ l, b.region.Has x) := by
    refine (List.map_congr_left (g := id) fun x hx => ?_).trans (List.map_id _)
    have hnone := (List.mem_filter.mp hx).2
    simp only [Bool.not_eq_true', decide_eq_false_iff_not, not_exists, not_and] at hnone
    exact translate_none hnone
  have hmap := hsplit.map (translate l)
  rw [List.map_append, hrest] at hmap
  rw [Tiles, List.flatMap_singleton, ← hsplit.congr_left, ← hmap.congr_right,
    List.perm_append_right_iff, List.perm_comm]

/-- **The calls are the translation of the request exactly if the translation of what is outside of
the first block that is seen fills this block up**, or, where none is seen, if blocks only change
places within the request. -/
theorem tiled_iff (l : Blocks) (logAddr logLen : Nat) (haddr : logAddr < addrSpace)
    (hlen : logLen < addrSpace) (hwrap : logAddr + logLen ≤ addrSpace) :
    (∀ answer, (tiled answer l logAddr logLen).success = true →
      Tiles l.list ⟨logAddr, logLen⟩ (tiled answer l logAddr logLen).calls) ↔
        Whole l.list ⟨logAddr, logLen⟩ := by
  have hspace : InSpace ⟨logAddr, logLen⟩ := ⟨haddr, hlen, hwrap⟩
  obtain ⟨l, hl, hapart⟩ := l
  unfold Whole
  cases hfind : l.find? fun b => Sees ⟨logAddr, logLen⟩ b.region with
  | none =>
    have hnone : ∀ b ∈ l, ¬ Sees ⟨logAddr, logLen⟩ b.region := by
      simpa using List.find?_eq_none.mp hfind
    have hcalls (answer : List Region → Region → Bool) :
        tiled answer ⟨l, hl, hapart⟩ logAddr logLen = issue answer ⟨[], false⟩ ⟨logAddr, logLen⟩ :=
      recOp_unseen hspace hl hnone
    simp only [hcalls, ← tiles_unseen]
    exact ⟨fun h => h (fun _ _ => true) rfl, fun h answer _ => h⟩
  | some b =>
    obtain ⟨hb, X, Y, rfl, hX⟩ := List.find?_eq_some_iff_append.mp hfind
    obtain ⟨hr, hb, hmeet⟩ : Sees ⟨logAddr, logLen⟩ b.region := by simpa using hb
    have hX : ∀ c ∈ X, ¬ Sees ⟨logAddr, logLen⟩ c.region := by simpa using hX
    have hbehind := (List.pairwise_cons.mp (List.pairwise_append.mp hapart).2.1).1
    have hY : ∀ c ∈ Y, InSpace c.region ∧ b.region.Apart c.region := fun c hc =>
      ⟨hl c (List.mem_append_right X (List.mem_cons_of_mem b hc)), hbehind c hc⟩
    refine Iff.trans ?_ (tiles_meet hr hb hmeet hapart)
    have hskip (answer : List Region → Region → Bool) :
        tiled answer ⟨X ++ b :: Y, hl, hapart⟩ logAddr logLen =
          recOp answer (b :: Y) ⟨logAddr, logLen⟩ ⟨[], false⟩ :=
      recOp_skip hspace (fun c hc => hl c (List.mem_append_left _ hc)) hX
    constructor
    · intro h
      have hsuccess : (recOp (fun _ _ => true) (b :: Y) ⟨logAddr, logLen⟩ ⟨[], false⟩).success =
          true := recOp_success hr hb hmeet hY fun _ _ => rfl
      have := h (fun _ _ => true)
      rw [hskip] at this
      have := this hsuccess
      rwa [recOp_calls hr hb hmeet hY hsuccess] at this
    · intro h answer hsuccess
      rw [hskip] at hsuccess ⊢
      rwa [recOp_calls hr hb hmeet hY hsuccess]

/-! ## Some blocks -/

theorem oneBlock_inSpace : ∀ b ∈ [(⟨⟨10, 10⟩, 100⟩ : Block)], InSpace b.region :=
  List.forall_mem_singleton.mpr ⟨by decide, by decide, by decide⟩

theorem oneBlock_apart :
    [(⟨⟨10, 10⟩, 100⟩ : Block)].Pairwise fun b c => b.region.Apart c.region :=
  List.pairwise_singleton _ _

def oneBlock : Blocks := ⟨[⟨⟨10, 10⟩, 100⟩], oneBlock_inSpace, oneBlock_apart⟩

/-- A request inside of the block comes with all that is beside it. -/
theorem tiled_beside : ¬ ∀ answer, (tiled answer oneBlock 12 3).success = true →
    Tiles oneBlock.list ⟨12, 3⟩ (tiled answer oneBlock 12 3).calls := by
  intro h
  have hlen := (h (fun _ _ => true) (by decide)).length_eq
  exact absurd hlen (by decide)

/-- The request for the block itself. -/
theorem tiled_iff_block :
    Tiles oneBlock.list ⟨10, 10⟩ (tiled (fun _ _ => true) oneBlock 10 10).calls :=
  (tiled_iff oneBlock 10 10 (by decide) (by decide) (by decide)).mpr (by decide) (fun _ _ => true)
    (by decide)

end Athomux.MapDelta
