import Athomux.MapDelta.Isect
import Mathlib.Data.List.Pairwise
import Mathlib.Tactic.Ring
import Mathlib.Tactic.Zify

/-!
# Translated blocks

`#map_delta` keeps a list of the blocks that were moved. What is in no block stays where it is.
-/

open Lib

namespace Athomux.MapDelta

/-- What `struct block_t` says of a block. -/
structure Block where
  region : Region
  offset : Int
  deriving DecidableEq

/-- `offs_t` added to an address. -/
def shift64 (addr : Nat) (offset : Int) : Nat := ((addr + offset) % (addrSpace : Int)).toNat

/-- The block list of `#map_delta`: no two blocks share an address. A block may end at the top of the
address space. -/
structure Blocks where
  list : List Block
  inSpace : ∀ b ∈ list, InSpace b.region
  apart : list.Pairwise fun b c => b.region.Apart c.region

/-- Where an address lies at `:<in`. -/
def translate (l : List Block) (x : Nat) : Nat :=
  match l.find? fun b => b.region.Has x with
  | some b => shift64 x b.offset
  | none => x

/-! ## The first block -/

/-- The loop of `first_tb`. -/
def firstTb : List Block → Region → Region
  | [], r => r
  | b :: rest, r =>
    let i := intersect r b.region
    if 0 < i.len then
      if i.start = r.start then ⟨shift64 r.start b.offset, i.len⟩
      else firstTb rest ⟨r.start, sub64 i.start r.start⟩
    else firstTb rest r

/-- `$get` and `$trans`: the part that is forwarded. -/
def getTrans (l : Blocks) (logAddr logLen : Nat) : Region := firstTb l.list ⟨logAddr, logLen⟩

/-! ## All blocks -/

/-- The calls of `:<in`, and `@success`. `answer` says what a call answers, after those before it. -/
structure Issued where
  calls : List Region
  success : Bool

variable (answer : List Region → Region → Bool)

def issue (s : Issued) (r : Region) : Issued := ⟨s.calls ++ [r], answer s.calls r⟩

/-- `rec_op`. The parts that are split off are those of the block. -/
def recOp : List Block → Region → Issued → Issued
  | [], r, s => issue answer s r
  | b :: rest, r, s =>
    let i := intersect r b.region
    if 0 < i.len then
      let left := splitLeft b.region i.start
      let right := splitRight b.region (add64 i.start i.len)
      let s := if 0 < left.len then recOp rest left s else ⟨s.calls, true⟩
      if s.success then
        let s := if 0 < right.len then recOp rest right s else ⟨s.calls, true⟩
        if s.success then issue answer s ⟨shift64 i.start b.offset, i.len⟩ else s
      else s
    else recOp rest r s

/-- `$create`, `$delete`, `$put` and `$wait`. -/
def tiled (l : Blocks) (logAddr logLen : Nat) : Issued :=
  recOp answer l.list ⟨logAddr, logLen⟩ ⟨[], false⟩

end Athomux.MapDelta

/-!
## The first translated block
-/

open Lib

namespace Athomux.MapDelta

variable {l X Y : List Block} {b : Block} {r q p : Region} {x i : Nat}

theorem shift64_add (addr i : Nat) (offset : Int) :
    shift64 (addr + i) offset = add64 (shift64 addr offset) i := by
  unfold shift64 add64
  have hpos : (0 : Int) < addrSpace := by decide
  have hmod := Int.emod_nonneg (addr + offset) (Int.ne_of_gt hpos)
  zify
  rw [Int.toNat_of_nonneg (Int.emod_nonneg _ (Int.ne_of_gt hpos)), Int.toNat_of_nonneg hmod,
    Int.emod_add_emod]
  congr 1
  ring

/-- An offset of 0 in 64 bits moves nothing, and any other one everything. -/
theorem shift64_eq_self {offset : Int} (hx : x < addrSpace) :
    shift64 x offset = x ↔ offset % addrSpace = 0 := by
  unfold shift64 addrSpace at *
  omega

theorem translate_nil : translate [] x = x := rfl

theorem translate_here (h : b.region.Has x) : translate (b :: l) x = shift64 x b.offset := by
  rw [translate, List.find?_cons_of_pos (by simpa using h)]

theorem translate_behind (h : ¬ b.region.Has x) : translate (b :: l) x = translate l x := by
  rw [translate, List.find?_cons_of_neg (by simpa using h)]
  rfl

theorem translate_skip (h : ∀ c ∈ X, ¬ c.region.Has x) : translate (X ++ Y) x = translate Y x := by
  induction X with
  | nil => rfl
  | cons c X ih =>
    obtain ⟨hc, hX⟩ := List.forall_mem_cons.mp h
    rw [List.cons_append, translate_behind hc]
    exact ih hX

theorem translate_none (h : ∀ c ∈ l, ¬ c.region.Has x) : translate l x = x := by
  have := translate_skip (Y := []) h
  rwa [List.append_nil] at this

theorem translate_mem (hapart : (X ++ b :: Y).Pairwise fun b c => b.region.Apart c.region)
    (hx : b.region.Has x) : translate (X ++ b :: Y) x = shift64 x b.offset := by
  have hX : ∀ c ∈ X, ¬ c.region.Has x := fun c hc hcx =>
    (List.pairwise_append.mp hapart).2.2 c hc b List.mem_cons_self x hcx hx
  rw [translate_skip hX, translate_here hx]

/-! ## Which blocks are seen -/

/-- `intersect` finds what both have. An end at the top of the address space wraps around, and then
the two do not seem to meet. -/
def Sees (r q : Region) : Prop := r.stop < addrSpace ∧ q.stop < addrSpace ∧ ¬ r.Apart q

instance (r q : Region) : Decidable (Sees r q) := inferInstanceAs (Decidable (_ ∧ _))

theorem sees_iff (hr : InSpace r) (hq : InSpace q) : 0 < (intersect r q).len ↔ Sees r q := by
  by_cases hin : r.stop < addrSpace ∧ q.stop < addrSpace
  · rw [intersect_len hin.1 hin.2, Sees, ← and_assoc]
    exact (and_iff_right hin).symm
  · rw [intersect_top hr.stop hq.stop hin]
    exact iff_of_false (Nat.lt_irrefl 0) fun h => hin ⟨h.1, h.2.1⟩

theorem front_below (hb : InSpace b.region) (hlt : r.start < b.region.start) :
    (⟨r.start, b.region.start - r.start⟩ : Region).stop < addrSpace := by
  have hstart := hb.start
  unfold Region.stop
  dsimp only
  omega

theorem front_inSpace (hb : InSpace b.region) (hlt : r.start < b.region.start) :
    InSpace ⟨r.start, b.region.start - r.start⟩ :=
  have hstart := hb.start
  ⟨hlt.trans hstart, (Nat.sub_le _ _).trans_lt hstart, (front_below hb hlt).le⟩

/-- A turn of `first_tb` at a block that is seen: it holds the start, or the run ends before it. -/
theorem firstTb_seen (hb : InSpace b.region) (hr : InSpace r) (hsees : Sees r b.region) :
    (b.region.Has r.start ∧
      firstTb (b :: l) r = ⟨shift64 r.start b.offset, min r.stop b.region.stop - r.start⟩) ∨
    (r.start < b.region.start ∧ b.region.start < r.stop ∧
      firstTb (b :: l) r = firstTb l ⟨r.start, b.region.start - r.start⟩) := by
  have hpos := (sees_iff hr hb).mpr hsees
  obtain ⟨hrs, hbs, hmeet⟩ := hsees
  obtain ⟨hlt, hstart, hend⟩ := (intersect_cases hrs hbs).resolve_left fun h => hmeet h.2
  rw [firstTb, if_pos hpos]
  split
  · rename_i heq
    refine Or.inl ⟨?_, congrArg _ ?_⟩
    · unfold Region.Has
      omega
    · unfold Region.stop at hend ⊢
      omega
  · rename_i hne
    have hfront : (intersect r b.region).start = b.region.start := by omega
    rw [hfront, sub64_eq (by omega) hb.start]
    exact Or.inr ⟨by omega, by omega, rfl⟩

theorem firstTb_not_seen (hb : InSpace b.region) (hr : InSpace r) (h : ¬ Sees r b.region) :
    firstTb (b :: l) r = firstTb l r := by
  rw [firstTb, if_neg ((sees_iff hr hb).not.mpr h)]

/-- Every block that is seen limits the run, or begins it. -/
theorem firstTb_spec (hl : ∀ b ∈ l, InSpace b.region) (hlen : 0 < r.len) (hr : InSpace r) :
    0 < (firstTb l r).len ∧ (firstTb l r).len ≤ r.len ∧ ∀ i < (firstTb l r).len,
      (∀ b ∈ l, b.region.Has (r.start + i) → Sees r b.region) →
        translate l (r.start + i) = add64 (firstTb l r).start i := by
  induction l generalizing r with
  | nil =>
    refine ⟨hlen, Nat.le_refl _, fun i hi _ => ?_⟩
    have hi : i < r.len := hi
    have hstop := hr.stop
    unfold Region.stop at hstop
    rw [translate_nil, firstTb, add64_eq (by omega)]
  | cons b l ih =>
    obtain ⟨hb, hl⟩ := List.forall_mem_cons.mp hl
    by_cases hsees : Sees r b.region
    · rcases firstTb_seen hb hr hsees with ⟨hhas, heq⟩ | ⟨hlt, hin, heq⟩
      · -- The block holds the start.
        rw [heq]
        unfold Region.Has Region.stop at hhas
        refine ⟨?_, ?_, fun i hi _ => ?_⟩
        · unfold Region.stop
          dsimp only
          omega
        · unfold Region.stop
          dsimp only
          omega
        · have hmem : b.region.Has (r.start + i) := by
            unfold Region.Has Region.stop at *
            dsimp only at hi
            omega
          rw [translate_here hmem, shift64_add]
      · -- The block begins later, and the run ends before it.
        rw [heq]
        obtain ⟨hpos, hle, hall⟩ := ih hl (Nat.sub_pos_of_lt hlt) (front_inSpace hb hlt)
        refine ⟨hpos, ?_, fun i hi hseen => ?_⟩
        · unfold Region.stop at hin
          dsimp only at hle
          omega
        · have hfront : i < b.region.start - r.start := hi.trans_le hle
          have hnot : ¬ b.region.Has (r.start + i) := by
            unfold Region.Has
            omega
          rw [translate_behind hnot]
          refine hall i hi fun c hc hx =>
            ⟨front_below hb hlt, (hseen c (List.mem_cons_of_mem b hc) hx).2.1, ?_⟩
          exact fun hap => hap _ ⟨Nat.le_add_right _ _, Nat.add_lt_add_left hfront _⟩ hx
    · rw [firstTb_not_seen hb hr hsees]
      obtain ⟨hpos, hle, hall⟩ := ih hl hlen hr
      refine ⟨hpos, hle, fun i hi hseen => ?_⟩
      rw [translate_behind fun hx => hsees (hseen b List.mem_cons_self hx)]
      exact hall i hi fun c hc => hseen c (List.mem_cons_of_mem b hc)

/-- Two blocks that a request meets: the second one lies behind the first, or in front of it. -/
theorem Sees.behind (hq : Sees r q) (hx : Sees r p) (hap : p.Apart q) :
    p.stop ≤ q.start ∨ q.stop ≤ p.start := by
  have hmq := Region.apart_iff.not.mp hq.2.2
  have hmp := Region.apart_iff.not.mp hx.2.2
  rcases Region.apart_iff.mp hap with hzero | hzero | hle | hle
  · omega
  · omega
  · exact Or.inl hle
  · exact Or.inr hle

/-- The run ends where a block that is seen ends, or before. -/
theorem firstTb_stop (hl : ∀ b ∈ l, InSpace b.region)
    (hapart : l.Pairwise fun b c => b.region.Apart c.region) (hlen : 0 < r.len) (hr : InSpace r)
    (hmem : b ∈ l) (hsees : Sees r b.region) :
    r.start + (firstTb l r).len ≤ b.region.stop := by
  induction l generalizing r with
  | nil => cases hmem
  | cons c l ih =>
    obtain ⟨hc, hl⟩ := List.forall_mem_cons.mp hl
    obtain ⟨hcl, hapart⟩ := List.pairwise_cons.mp hapart
    have hmeet := Region.apart_iff.not.mp hsees.2.2
    by_cases hseen : Sees r c.region
    · have hbehind : b = c ∨ c.region.stop ≤ b.region.start ∨
          b.region.stop ≤ c.region.start ∧ b ∈ l := by
        rcases List.mem_cons.mp hmem with heq | hin
        · exact Or.inl heq
        · exact Or.inr ((hsees.behind hseen (hcl b hin)).imp_right fun hle => ⟨hle, hin⟩)
      rcases firstTb_seen hc hr hseen with ⟨hhas, heq⟩ | ⟨hlt, hin, heq⟩
      · rw [heq]
        rcases hbehind with rfl | hle | ⟨hle, -⟩ <;> unfold Region.Has Region.stop at * <;>
          dsimp only <;> omega
      · rw [heq]
        have hrun := (firstTb_spec hl (Nat.sub_pos_of_lt hlt) (front_inSpace hc hlt)).2.1
        dsimp only at hrun
        rcases hbehind with rfl | hle | ⟨hle, hmem⟩
        · unfold Region.stop
          omega
        · unfold Region.stop at *
          omega
        · refine ih hl hapart (Nat.sub_pos_of_lt hlt) (front_inSpace hc hlt) hmem
            ⟨front_below hc hlt, hsees.2.1, ?_⟩
          rw [Region.apart_iff]
          unfold Region.stop at *
          dsimp only
          omega
    · rw [firstTb_not_seen hc hr hseen]
      rcases List.mem_cons.mp hmem with rfl | hin
      · exact absurd hsees hseen
      · exact ih hl hapart hlen hr hin hsees

theorem firstTb_unseen (hl : ∀ b ∈ l, InSpace b.region) (hr : InSpace r)
    (h : ∀ b ∈ l, ¬ Sees r b.region) : firstTb l r = r := by
  induction l with
  | nil => rfl
  | cons b l ih =>
    obtain ⟨hb, hl⟩ := List.forall_mem_cons.mp hl
    obtain ⟨hnot, h⟩ := List.forall_mem_cons.mp h
    rw [firstTb_not_seen hb hr hnot]
    exact ih hl h

/-- A block that is seen lies below all those that are not. -/
theorem stop_le_of_seen {c : Region} (hc : InSpace c) (hq : Sees r q) (hcr : ¬ Sees r c)
    (hx : c.Has x) (hrx : r.Has x) (hapart : q.Apart c) : q.stop ≤ x := by
  have htop : c.stop = addrSpace := by
    by_contra hne
    have hstop := hc.stop
    exact hcr ⟨hq.1, by omega, fun hap => hap x hrx hx⟩
  have hlen := Region.apart_iff.not.mp hq.2.2
  have happ := Region.apart_iff.mp hapart
  have hqs := hq.2.1
  unfold Region.Has Region.stop at *
  omega

/-- A block that the request meets is seen, or none of those that it meets is moved. -/
def Found (l : List Block) (r : Region) : Prop :=
  (∃ b ∈ l, Sees r b.region) ∨ ∀ b ∈ l, b.offset % addrSpace ≠ 0 → r.Apart b.region

instance (l : List Block) (r : Region) : Decidable (Found l r) := inferInstanceAs (Decidable (_ ∨ _))

/-- Where nothing is moved, each address lies at its own place. -/
theorem translate_still (hl : l.Pairwise fun b c => b.region.Apart c.region)
    (hr : r.stop ≤ addrSpace) :
    (∀ x, r.Has x → translate l x = x) ↔ ∀ b ∈ l, b.offset % addrSpace ≠ 0 → r.Apart b.region := by
  constructor
  · intro h b hb hmoved x hx hbx
    obtain ⟨X, Y, rfl⟩ := List.append_of_mem hb
    have hsame := h x hx
    rw [translate_mem hl hbx, shift64_eq_self (hx.2.trans_le hr)] at hsame
    exact hmoved hsame
  · intro h x hx
    rw [translate]
    split
    · rename_i b hfind
      have hbx : b.region.Has x := by simpa using List.find?_some hfind
      rw [shift64_eq_self (hx.2.trans_le hr)]
      by_contra hmoved
      exact h b (List.mem_of_find?_eq_some hfind) hmoved x hx hbx
    · rfl

/-- What is forwarded is not empty, no more than the request, and lies at one place at `:<in`. -/
def OnePlace (l : List Block) (r part : Region) : Prop :=
  0 < part.len ∧ part.len ≤ r.len ∧
    ∀ i < part.len, translate l (r.start + i) = add64 part.start i

/-- **The part that `$get` or `$trans` forwards lies at one place at `:<in`** exactly if a block that
the request meets is seen, or none of those that it meets is moved. -/
theorem get_trans_iff (l : Blocks) (logAddr logLen : Nat) (hlen : 0 < logLen)
    (haddr : logLen < addrSpace) (hwrap : logAddr + logLen ≤ addrSpace) :
    OnePlace l.list ⟨logAddr, logLen⟩ (getTrans l logAddr logLen) ↔
      Found l.list ⟨logAddr, logLen⟩ := by
  have hr : InSpace ⟨logAddr, logLen⟩ := ⟨by dsimp only; omega, haddr, hwrap⟩
  obtain ⟨hpos, hle, hall⟩ := firstTb_spec l.inSpace hlen hr
  by_cases hseen : ∃ b ∈ l.list, Sees ⟨logAddr, logLen⟩ b.region
  · refine iff_of_true ⟨hpos, hle, fun i hi => hall i hi fun c hc hx => ?_⟩ (Or.inl hseen)
    obtain ⟨b, hb, hsees⟩ := hseen
    have hstop := firstTb_stop l.inSpace l.apart hlen hr hb hsees
    by_contra hcr
    have hne : b ≠ c := fun heq => hcr (heq ▸ hsees)
    have : Std.Symm fun b c : Block => b.region.Apart c.region := ⟨fun _ _ h => h.symm⟩
    have hapart : b.region.Apart c.region := l.apart.forall hb hc hne
    have hrx : (⟨logAddr, logLen⟩ : Region).Has (logAddr + i) :=
      ⟨Nat.le_add_right _ _, Nat.add_lt_add_left (hi.trans_le hle) _⟩
    have hbelow := stop_le_of_seen (l.inSpace c hc) hsees hcr hx hrx hapart
    exact absurd (Nat.add_lt_add_left hi logAddr) (Nat.not_lt.mpr (hstop.trans hbelow))
  · push Not at hseen
    have hself : getTrans l logAddr logLen = ⟨logAddr, logLen⟩ := firstTb_unseen l.inSpace hr hseen
    have hnone : ¬ ∃ b ∈ l.list, Sees ⟨logAddr, logLen⟩ b.region := by simpa using hseen
    rw [hself, Found, or_iff_right hnone, ← translate_still l.apart (r := ⟨logAddr, logLen⟩) hwrap]
    constructor
    · rintro ⟨-, -, h⟩ x ⟨hge, hlt⟩
      have hlt : x < logAddr + logLen := hlt
      have hge : logAddr ≤ x := hge
      have := h (x - logAddr) (by dsimp only; omega)
      dsimp only at this
      rwa [add64_eq (by omega), Nat.add_sub_cancel' hge] at this
    · intro h
      refine ⟨hlen, Nat.le_refl _, fun i hi => ?_⟩
      have hi : i < logLen := hi
      rw [add64_eq (by dsimp only; omega)]
      exact h (logAddr + i) ⟨Nat.le_add_right _ _, Nat.add_lt_add_left hi _⟩

def twoList : List Block := [⟨⟨20, 5⟩, 100⟩, ⟨⟨10, 5⟩, -10⟩]

theorem twoList_inSpace : ∀ b ∈ twoList, InSpace b.region := by
  intro b hb
  have : b.region.start < addrSpace ∧ b.region.len < addrSpace ∧ b.region.stop ≤ addrSpace := by
    revert b
    decide
  exact ⟨this.1, this.2.1, this.2.2⟩

theorem twoList_apart : twoList.Pairwise fun b c => b.region.Apart c.region :=
  List.pairwise_pair.mpr (Region.apart_iff.mpr (by decide))

def twoBlocks : Blocks := ⟨twoList, twoList_inSpace, twoList_apart⟩

/-- A run between two blocks that ends in the second one of the list. -/
theorem get_trans_iff_two : (getTrans twoBlocks 12 8).len = 3 ∧
    OnePlace twoList ⟨12, 8⟩ (getTrans twoBlocks 12 8) :=
  ⟨by decide, (get_trans_iff twoBlocks 12 8 (by decide) (by decide) (by decide)).mpr (by decide)⟩

/-- The last page, and it is moved. -/
def topBlocks : Blocks where
  list := [⟨⟨addrSpace - 4096, 4096⟩, -8192⟩]
  inSpace := fun b hb => by
    rw [List.mem_singleton.mp hb]
    exact ⟨by decide, by decide, by decide⟩
  apart := List.pairwise_singleton _ _

/-- A request for the last page goes to where the page was before. -/
theorem get_trans_top :
    ¬ OnePlace topBlocks.list ⟨addrSpace - 4096, 10⟩ (getTrans topBlocks (addrSpace - 4096) 10) :=
  fun h => absurd (h.2.2 0 (by decide)) (by decide)

end Athomux.MapDelta
