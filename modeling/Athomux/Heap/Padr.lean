import Athomux.Heap.Safety

/-!
# What `$padr` gives back

A range is given back exactly as long as no record is deleted, but for the one case in which a single
byte makes no difference.
-/

open Lib

namespace Athomux.Heap

variable {t t' t₁ : Table} {lo hi i left next right : Nat} {logAddr logLen stop x : Nat}
  {recs recs' : Nat → Rec}

/-! ## The entries that are read -/

/-- The binary search. -/
def searchReads (recs : Nat → Rec) (logAddr : Nat) : Nat → Nat → Nat → List Nat
  | 0, _, _ => []
  | fuel + 1, left, right =>
    if left < right then
      let mid := (left + right) / 2
      mid :: if (recs mid).addr ≤ logAddr ∧ logAddr < (recs mid).stop then []
        else if (recs mid).addr < logAddr then searchReads recs logAddr fuel (mid + 1) right
        else searchReads recs logAddr fuel left mid
    else []

/-- The search for the end of the records to be deleted. -/
def scanReads (recs : Nat → Rec) (stop : Nat) : Nat → Nat → List Nat
  | 0, _ => []
  | fuel + 1, right =>
    right :: if (recs right).stop ≤ stop then scanReads recs stop fuel (right + 1) else []

/-- The entries that `$padr` reads, and the ones that `memmove` reads for it. -/
def reads (t : Table) (logAddr logLen : Nat) : List Nat :=
  let stop := add64 logAddr logLen
  let left := search t.recs logAddr t.nRecs 0 t.nRecs
  let r := t.recs left
  searchReads t.recs logAddr t.nRecs 0 t.nRecs ++
    if t.nRecs ≤ left then []
    else left ::
      if r.addr < logAddr ∧ stop < r.stop then List.range' left (t.nRecs - left)
      else if r.addr < stop then
        let next := (shortenLower t left logAddr).2
        scanReads t.recs stop (nRecsMax + 1) next ++
          match scan t.recs stop (nRecsMax + 1) next with
          | some right => List.range' right ((t.nRecs - right + 15) / 16)
          | none => []
      else []

theorem searchReads_lt {fuel : Nat} :
    ∀ i ∈ searchReads recs logAddr fuel left right, i < right := by
  induction fuel generalizing left right with
  | zero => simp [searchReads]
  | succ fuel ih =>
    intro i hi
    rw [searchReads] at hi
    split at hi
    · rename_i hlt
      rcases List.mem_cons.mp hi with rfl | hi
      · omega
      split at hi
      · cases hi
      split at hi
      · exact ih i hi
      · have := ih i hi
        omega
    · cases hi

theorem scan_succ (fuel : Nat) : scan recs stop (fuel + 1) right =
    if nRecsMax ≤ right then none
    else if (recs right).stop ≤ stop then scan recs stop fuel (right + 1)
    else some right := rfl

theorem scanReads_succ (fuel : Nat) : scanReads recs stop (fuel + 1) right =
    right :: if (recs right).stop ≤ stop then scanReads recs stop fuel (right + 1) else [] := rfl

theorem scan_some {fuel : Nat} (h : scan recs stop fuel next = some right) :
    next ≤ right ∧ (∀ i, next ≤ i → i < right → (recs i).stop ≤ stop) ∧
      stop < (recs right).stop ∧
        scanReads recs stop fuel next = List.range' next (right + 1 - next) := by
  induction fuel generalizing next with
  | zero => cases h
  | succ fuel ih =>
    rw [scan_succ] at h
    split at h
    · cases h
    split at h
    · rename_i hin
      obtain ⟨hle, hall, hright, hreads⟩ := ih h
      refine ⟨by omega, fun i hge hlt => ?_, hright, ?_⟩
      · rcases Nat.lt_or_eq_of_le hge with hgt | rfl
        · exact hall i hgt hlt
        · exact hin
      · rw [scanReads_succ, if_pos hin, hreads, show right + 1 - next = right + 1 - (next + 1) + 1 by omega,
          List.range'_succ]
    · rename_i hout
      cases h
      refine ⟨Nat.le_refl _, fun i hge hlt => absurd hlt (Nat.not_lt.mpr hge),
        Nat.lt_of_not_le hout, ?_⟩
      rw [scanReads_succ, if_neg hout, Nat.add_sub_cancel_left]
      rfl

theorem scan_eq {fuel : Nat} (hmax : right < nRecsMax) (hfuel : right - next < fuel)
    (hle : next ≤ right) (hall : ∀ i, next ≤ i → i < right → (recs i).stop ≤ stop)
    (hright : stop < (recs right).stop) : scan recs stop fuel next = some right := by
  induction fuel generalizing next with
  | zero => omega
  | succ fuel ih =>
    rw [scan_succ, if_neg (by omega)]
    rcases Nat.lt_or_eq_of_le hle with hlt | rfl
    · rw [if_pos (hall next (Nat.le_refl _) hlt)]
      exact ih (by omega) hlt fun i hge => hall i (by omega)
    · rw [if_neg (Nat.not_le.mpr hright)]

/-- Records that all end inside of the range do not stop the scan. -/
theorem mem_scanReads {fuel n : Nat} (hfuel : n - next < fuel) (hle : next ≤ n)
    (hall : ∀ i, next ≤ i → i < n → (recs i).stop ≤ stop) : n ∈ scanReads recs stop fuel next := by
  induction fuel generalizing next with
  | zero => omega
  | succ fuel ih =>
    rw [scanReads_succ]
    rcases Nat.lt_or_eq_of_le hle with hlt | rfl
    · rw [if_pos (hall next (Nat.le_refl _) hlt)]
      exact List.mem_cons_of_mem _ (ih (by omega) hlt fun i hge => hall i (by omega))
    · exact List.mem_cons_self

theorem scan_congr {fuel : Nat} (h : ∀ i, next ≤ i → recs i = recs' i) :
    scan recs stop fuel next = scan recs' stop fuel next := by
  induction fuel generalizing next with
  | zero => rfl
  | succ fuel ih =>
    rw [scan_succ, scan_succ, h next (Nat.le_refl _), ih fun i hi => h i (by omega)]

/-! ## The table without a range -/

/-- The table has what it had outside of the range, in order, and nothing behind the records is
written. -/
structure Freed (t t' : Table) (lo hi logAddr stop : Nat) : Prop where
  ordered : Ordered t' lo hi
  full : t'.nRecs ≤ nRecsMax
  recorded : ∀ x, Recorded t' x ↔ Recorded t x ∧ (x < logAddr ∨ stop ≤ x)
  rest : ∀ j, max t.nRecs t'.nRecs ≤ j → t'.recs j = t.recs j

/-- `$padr` reads records only, and gives back the range, if it is not refused for want of a free
record. -/
def Frees (t : Table) (lo hi logAddr logLen : Nat) : Prop :=
  (∀ i ∈ reads t logAddr logLen, i < t.nRecs) ∧
    (release t logAddr logLen = some (.error ()) ∨
      ∃ t', release t logAddr logLen = some (.ok t') ∧
        Freed t t' lo hi logAddr (logAddr + logLen))

theorem freed_refl (h : Ordered t lo hi) (hn : t.nRecs ≤ nRecsMax)
    (hout : ∀ i < t.nRecs, ∀ x, (t.recs i).Has x → x < logAddr ∨ stop ≤ x) :
    Freed t t lo hi logAddr stop where
  ordered := h
  full := hn
  recorded x := by
    constructor
    · rintro ⟨i, hi, hx⟩
      exact ⟨⟨i, hi, hx⟩, hout i hi x hx⟩
    · exact fun hx => hx.1
  rest _ _ := rfl

theorem freed_split (h : Ordered t lo hi) (hhi : hi < addrSpace) (hleft : left < t.nRecs)
    (hlow : (t.recs left).addr < logAddr) (hle : logAddr ≤ stop)
    (hup : stop < (t.recs left).addr + (t.recs left).len) (hroom : t.nRecs < nRecsMax) :
    Freed t (split t left logAddr stop) lo hi logAddr stop where
  ordered := h.split hhi hleft hlow hle hup
  full := hroom
  recorded x := by
    refine ⟨?_, fun hx => recorded_split h hhi hleft hlow hle hup hx.1 hx.2⟩
    have hh := h.high left hleft
    have hlen := sub64_stop (r := t.recs left) (by omega) (show (t.recs left).addr ≤ stop by omega)
      hup.le
    rintro ⟨i, hi, hx⟩
    rcases split_cases left hi with hlt | rfl | rfl | ⟨k, rfl, hlt, hk⟩
    · rw [split_below t left logAddr stop hlt] at hx
      have hbefore := h.before hlt hleft
      have hx2 := hx.2
      exact ⟨⟨i, by omega, hx⟩, .inl (by omega)⟩
    · rw [split_left] at hx
      obtain ⟨h1, h2⟩ := hx
      simp only at h1 h2
      exact ⟨⟨i, hleft, h1, by omega⟩, .inl (by omega)⟩
    · rw [split_right, hlen] at hx
      obtain ⟨h1, h2⟩ := hx
      simp only at h1 h2
      exact ⟨⟨left, hleft, by omega, by omega⟩, .inr h1⟩
    · rw [split_above t left logAddr stop hlt hk] at hx
      have hbefore := h.before hlt hk
      have hx1 := hx.1
      exact ⟨⟨k, hk, hx⟩, .inr (by omega)⟩
  rest j hj := by
    have hj : t.nRecs + 1 ≤ j := (le_max_right _ _).trans hj
    simp only [split]
    rw [Table.set_recs_of_ne (by omega), Table.set_recs_of_ne (by omega)]
    simp only [memmove]
    rw [if_neg (by omega)]

/-! ## The lower end -/

/-- What `shortenLower` leaves: from `next` on the records start in the range or above it, and before
it they are cut. -/
structure Lowered (t t₁ : Table) (lo hi logAddr stop next : Nat) : Prop where
  ordered : Ordered t₁ lo hi
  nRecs : t₁.nRecs = t.nRecs
  next_le : next ≤ t.nRecs
  same : ∀ i, next ≤ i → t₁.recs i = t.recs i
  above : ∀ i, next ≤ i → i < t.nRecs → logAddr ≤ (t.recs i).addr
  below : ∀ i < next, (t₁.recs i).addr + (t₁.recs i).len ≤ logAddr
  cut : ∀ i < next, ∀ x, (t₁.recs i).Has x ↔ (t.recs i).Has x ∧ (x < logAddr ∨ stop ≤ x)

theorem lowered (h : Ordered t lo hi) (hleft : left < t.nRecs)
    (hbelow : ∀ i < left, (t.recs i).addr + (t.recs i).len ≤ logAddr)
    (hfound : logAddr ≤ (t.recs left).addr ∨ (t.recs left).Has logAddr)
    (hsplit : ¬ ((t.recs left).addr < logAddr ∧
      stop < (t.recs left).addr + (t.recs left).len)) :
    Lowered t (shortenLower t left logAddr).1 lo hi logAddr stop (shortenLower t left logAddr).2 := by
  have hcut : ∀ i < left, ∀ x, (t.recs i).Has x → x < logAddr := fun i hi x hx => by
    have := hbelow i hi
    have := hx.2
    omega
  unfold shortenLower
  dsimp only
  split
  · rename_i hlow
    have hhas := (hfound.resolve_left (by omega)).2
    have hstop : (t.recs left).addr + (t.recs left).len ≤ stop := by omega
    refine ⟨h.shrink (Nat.le_refl _) (by dsimp only; omega), rfl, hleft,
      fun i hi => Table.set_recs_of_ne (by omega) _ _, fun i hge hlt => ?_, fun i hi => ?_,
      fun i hi x => ?_⟩
    · have := h.before hge hlt
      omega
    · rcases Nat.lt_or_eq_of_le (Nat.le_of_lt_succ hi) with hlt | rfl
      · rw [Table.set_recs_of_ne (by omega)]
        exact hbelow i hlt
      · rw [Table.set_recs_self]
        dsimp only
        omega
    · rcases Nat.lt_or_eq_of_le (Nat.le_of_lt_succ hi) with hlt | rfl
      · rw [Table.set_recs_of_ne (by omega)]
        exact ⟨fun hx => ⟨hx, .inl (hcut i hlt x hx)⟩, fun hx => hx.1⟩
      · rw [Table.set_recs_self]
        unfold Rec.Has
        dsimp only
        omega
  · rename_i hlow
    refine ⟨h, rfl, hleft.le, fun _ _ => rfl, ?_, hbelow, fun i hi x =>
      ⟨fun hx => ⟨hx, .inl (hcut i hi x hx)⟩, fun hx => hx.1⟩⟩
    intro i hge hlt
    dsimp only at hge
    rcases Nat.lt_or_eq_of_le hge with hgt | rfl
    · have := h.before hgt hlt
      omega
    · omega

/-! ## The upper end -/

/-- What is cut from a record at its lower end. -/
theorem shortenUpper_self (left stop : Nat) {a l : Nat} (hrec : t.recs left = ⟨a, l⟩) (ha : a < addrSpace)
    (hl : l < addrSpace) :
    ((shortenUpper t left stop).recs left).addr = max a stop ∧
      (stop ≤ a + l → a + l < addrSpace →
        ((shortenUpper t left stop).recs left).addr +
          ((shortenUpper t left stop).recs left).len = a + l) ∧
      (((shortenUpper t left stop).recs left).addr +
          ((shortenUpper t left stop).recs left).len < addrSpace → stop < addrSpace →
        ((shortenUpper t left stop).recs left).addr +
          ((shortenUpper t left stop).recs left).len = a + l) := by
  unfold shortenUpper
  rw [hrec]
  dsimp only
  split
  · rename_i hlt
    rw [Table.set_recs_self]
    dsimp only
    unfold sub64 addrSpace at *
    refine ⟨by omega, fun h1 h2 => by omega, fun h1 h2 => by omega⟩
  · rw [hrec]
    dsimp only
    omega

theorem shortenUpper_of_ne (h : i ≠ left) : (shortenUpper t left stop).recs i = t.recs i := by
  unfold shortenUpper
  dsimp only
  split
  · exact Table.set_recs_of_ne h _ _
  · rfl

theorem shortenUpper_nRecs : (shortenUpper t left stop).nRecs = t.nRecs := by
  unfold shortenUpper
  dsimp only
  split <;> rfl

/-- The records from `next` to `right` are deleted: the others are behind the ones that were cut, and
the first of them is as good as the one at `right`. -/
structure Moved (t t₁ t₂ : Table) (stop next right : Nat) : Prop where
  next_le : next ≤ right
  right_lt : right < t.nRecs
  inside : ∀ i, next ≤ i → i < right → (t.recs i).addr + (t.recs i).len ≤ stop
  outside : stop < (t.recs right).addr + (t.recs right).len
  nRecs : t₂.nRecs = t.nRecs - (right - next)
  below : ∀ i < next, t₂.recs i = t₁.recs i
  addr : max (t₂.recs next).addr stop = max (t.recs right).addr stop
  last : (t₂.recs next).addr + (t₂.recs next).len = (t.recs right).addr + (t.recs right).len
  above : ∀ i, next < i → i < t₂.nRecs → t₂.recs i = t.recs (i + (right - next))
  rest : ∀ i, t.nRecs ≤ i → t₂.recs i = t.recs i

theorem freed_moved {t₂ : Table} (h : Ordered t lo hi) (hhi : hi < addrSpace)
    (hn : t.nRecs ≤ nRecsMax) (hle : logAddr ≤ stop)
    (hl : Lowered t t₁ lo hi logAddr stop next) (hm : Moved t t₁ t₂ stop next right) :
    Freed t (shortenUpper t₂ next stop) lo hi logAddr stop := by
  obtain ⟨d, hd⟩ := Nat.exists_eq_add_of_le hm.next_le
  have hd' : right - next = d := by rw [hd, Nat.add_sub_cancel_left]
  have hright := hm.right_lt
  have hlast := h.high right hright
  have hn₂ : t₂.nRecs + d = t.nRecs := by
    rw [hm.nRecs, hd', Nat.sub_add_cancel (by omega)]
  have hend := hm.last
  obtain ⟨haddr, hstop, -⟩ := shortenUpper_self next stop (t := t₂)
    (a := (t₂.recs next).addr) (l := (t₂.recs next).len) rfl (by omega) (by omega)
  have hstop := hstop (by have := hm.outside; omega) (by omega)
  rw [hm.addr] at haddr
  rw [hend] at hstop
  have hbelow : ∀ i < next, (shortenUpper t₂ next stop).recs i = t₁.recs i := fun i hi => by
    rw [shortenUpper_of_ne (by omega), hm.below i hi]
  have habove : ∀ i, next < i → i < t₂.nRecs →
      (shortenUpper t₂ next stop).recs i = t.recs (i + d) := fun i hi hlt => by
    rw [shortenUpper_of_ne (by omega), hm.above i hi hlt, hd']
  have hlow := h.low right hright
  have houtside := hm.outside
  have hn₁ := hl.nRecs
  refine ⟨⟨fun i hi => ?_, fun i hi => ?_, fun i hi => ?_⟩, ?_, fun x => ⟨?_, ?_⟩, fun j hj => ?_⟩
  · rw [shortenUpper_nRecs] at hi
    rcases Nat.lt_trichotomy i next with hlt | rfl | hgt
    · rw [hbelow i hlt]
      exact hl.ordered.low i (by omega)
    · omega
    · rw [habove i hgt hi]
      exact h.low _ (by omega)
  · rw [shortenUpper_nRecs] at hi
    rcases Nat.lt_trichotomy i next with hlt | rfl | hgt
    · rw [hbelow i hlt]
      exact hl.ordered.high i (by omega)
    · omega
    · rw [habove i hgt hi]
      exact h.high _ (by omega)
  · rw [shortenUpper_nRecs] at hi
    rcases Nat.lt_trichotomy i next with hlt | rfl | hgt
    · rw [hbelow i hlt]
      rcases Nat.lt_or_eq_of_le (Nat.succ_le_of_lt hlt) with hlt' | heq
      · rw [hbelow (i + 1) hlt']
        exact hl.ordered.next i (by omega)
      · have hcut := hl.below i hlt
        rw [show i + 1 = next from heq, haddr]
        omega
    · rw [habove (i + 1) (by omega) hi, hstop]
      exact h.before (by omega) (by omega)
    · rw [habove i hgt (by omega), habove (i + 1) (by omega) hi,
        show i + 1 + d = i + d + 1 by omega]
      exact h.next _ (by omega)
  · rw [shortenUpper_nRecs]
    omega
  · rintro ⟨i, hi, hx⟩
    rw [shortenUpper_nRecs] at hi
    rcases Nat.lt_trichotomy i next with hlt | rfl | hgt
    · rw [hbelow i hlt] at hx
      obtain ⟨hx, hout⟩ := (hl.cut i hlt x).mp hx
      exact ⟨⟨i, by omega, hx⟩, hout⟩
    · obtain ⟨hx1, hx2⟩ := hx
      refine ⟨⟨right, hright, ?_, ?_⟩, ?_⟩ <;> omega
    · rw [habove i hgt hi] at hx
      have hbefore := h.before (show right < i + d by omega) (by omega)
      have hx1 := hx.1
      exact ⟨⟨i + d, by omega, hx⟩, .inr (by omega)⟩
  · rintro ⟨⟨i, hi, hx⟩, hout⟩
    rcases Nat.lt_or_ge i next with hlt | hge
    · refine ⟨i, by rw [shortenUpper_nRecs]; omega, ?_⟩
      rw [hbelow i hlt]
      exact (hl.cut i hlt x).mpr ⟨hx, hout⟩
    have hstart := hl.above i hge hi
    obtain ⟨hx1, hx2⟩ := hx
    rcases Nat.lt_trichotomy i right with hlt | rfl | hgt
    · have := hm.inside i hge hlt
      omega
    · refine ⟨next, by rw [shortenUpper_nRecs]; omega, ?_, ?_⟩ <;> omega
    · obtain ⟨j, rfl⟩ := Nat.exists_eq_add_of_lt hgt
      refine ⟨next + j + 1, by rw [shortenUpper_nRecs]; omega, ?_⟩
      rw [habove _ (by omega) (by omega), show next + j + 1 + d = right + j + 1 by omega]
      exact ⟨hx1, hx2⟩
  · rw [shortenUpper_of_ne (by omega)]
    exact hm.rest j (by omega)

/-! ## Which ranges are given back -/

/-- A single record behind the range remains, and its address and the one of the first deleted
record differ in the lowest byte only: this is the byte that is moved. -/
def OneBehind (t : Table) (logAddr logLen : Nat) : Prop :=
  let stop := add64 logAddr logLen
  let next := (shortenLower t (search t.recs logAddr t.nRecs 0 t.nRecs) logAddr).2
  let last := t.recs (t.nRecs - 1)
  let addr := lowBytes 1 (t.recs next).addr last.addr
  next + 1 < t.nRecs ∧ (∀ i < t.nRecs - 1, next ≤ i → (t.recs i).stop ≤ stop) ∧ stop < last.stop ∧
    max addr stop = max last.addr stop ∧ addr + (t.recs next).len = last.addr + last.len

instance (t : Table) (logAddr logLen : Nat) : Decidable (OneBehind t logAddr logLen) := by
  unfold OneBehind
  infer_instance

theorem release_removes {t₂ : Table} (hstop : add64 logAddr logLen = stop)
    (hsearch : search t.recs logAddr t.nRecs 0 t.nRecs = left) (hleft : left < t.nRecs)
    (hsplit : ¬ ((t.recs left).addr < logAddr ∧ stop < (t.recs left).stop))
    (hover : (t.recs left).addr < stop) (hlower : shortenLower t left logAddr = (t₁, next))
    (hscan : scan t₁.recs stop (nRecsMax + 1) next = some right)
    (hdelete : deleteRecs t₁ next right = some t₂) :
    release t logAddr logLen = some (.ok (shortenUpper t₂ next stop)) := by
  unfold release
  simp only [hstop, hsearch]
  rw [if_neg (by omega), if_neg hsplit, if_pos hover, hlower]
  simp only [hscan, hdelete, Option.bind_eq_bind, Option.bind_some, Option.pure_def]

/-- What is moved when a single record remains. -/
theorem deleteRecs_one (t₁ : Table) (next : Nat) (hnext : next + 1 < t₁.nRecs) :
    deleteRecs t₁ next (t₁.nRecs - 1) = some ⟨next + 1, Function.update t₁.recs next
      ⟨lowBytes 1 (t₁.recs next).addr (t₁.recs (t₁.nRecs - 1)).addr, (t₁.recs next).len⟩⟩ := by
  have hcount : t₁.nRecs - (t₁.nRecs - 1) = 1 := by omega
  rw [deleteRecs, if_pos (by omega), if_neg (by omega), hcount]
  congr 2
  · omega
  · funext j
    by_cases hj : j = next
    · subst hj
      rw [moveBytes, if_pos ⟨rfl, by decide⟩, Function.update_self, Nat.sub_self, Nat.zero_add]
      rfl
    · rw [moveBytes, if_neg (fun h => hj h.1), Function.update_of_ne hj, memmove,
        if_neg (by omega)]

theorem lowBytes_lt {old new : Nat} (h : old < addrSpace) : lowBytes 1 old new < addrSpace := by
  unfold lowBytes addrSpace at *
  omega

/-- What is found by the search. -/
theorem search_all (h : Ordered t lo hi) (hhi : hi < addrSpace)
    (hsearch : search t.recs logAddr t.nRecs 0 t.nRecs = left) :
    (∀ i < left, (t.recs i).addr + (t.recs i).len ≤ logAddr) ∧
      (left < t.nRecs → logAddr ≤ (t.recs left).addr ∨ (t.recs left).Has logAddr) := by
  subst hsearch
  exact (search_spec h hhi (Nat.sub_zero t.nRecs).le (Nat.zero_le _) (Nat.le_refl _)
    (fun i hi => absurd hi (Nat.not_lt_zero i)) (fun hlt => absurd hlt (lt_irrefl _))).2

/-- The record at which the scan ends is the one that remains, if the condition is met. -/
theorem moved_of (h : Ordered t lo hi) (hhi : hi < addrSpace)
    (hstop : add64 logAddr logLen = stop)
    (hsearch : search t.recs logAddr t.nRecs 0 t.nRecs = left) (hleft : left < t.nRecs)
    (hsplit : ¬ ((t.recs left).addr < logAddr ∧ stop < (t.recs left).stop))
    (hover : (t.recs left).addr < stop) (hlower : shortenLower t left logAddr = (t₁, next))
    (hl : Lowered t t₁ lo hi logAddr stop next)
    (hok : Clean t logAddr logLen ∨ OneBehind t logAddr logLen) :
    ∃ right t₂, (∀ i, next ≤ i → i < right → (t.recs i).stop ≤ stop) ∧
      stop < (t.recs right).stop ∧ deleteRecs t₁ next right = some t₂ ∧
        Moved t t₁ t₂ stop next right := by
  rcases hok with hclean | hone
  · unfold Clean at hclean
    simp only [hstop, hsearch] at hclean
    obtain ⟨hnext, hup⟩ := hclean hleft hsplit hover
    rw [hlower] at hnext hup
    refine ⟨next, t₁, fun i h1 h2 => absurd h1 (Nat.not_le.mpr h2), hup, if_neg (lt_irrefl _), ?_⟩
    rw [h.stop_eq hhi hnext] at hup
    refine ⟨Nat.le_refl _, hnext, fun i h1 h2 => absurd h1 (Nat.not_le.mpr h2), hup, ?_,
      fun _ _ => rfl, ?_, ?_, fun i hi _ => ?_, fun i hi => hl.same i (hl.next_le.trans hi)⟩
    · rw [Nat.sub_self, hl.nRecs]
      rfl
    · rw [hl.same next (Nat.le_refl _)]
    · rw [hl.same next (Nat.le_refl _)]
    · rw [Nat.sub_self, hl.same i hi.le]
      rfl
  · unfold OneBehind at hone
    simp only [hstop, hsearch, hlower] at hone
    obtain ⟨hnext, hin, hup, haddr, hlast⟩ := hone
    have hdelete := deleteRecs_one t₁ next (by rw [hl.nRecs]; exact hnext)
    rw [hl.nRecs, hl.same next (Nat.le_refl _), hl.same (t.nRecs - 1) (by omega)] at hdelete
    refine ⟨t.nRecs - 1, _, fun i h1 h2 => hin i h2 h1, hup, hdelete, ?_⟩
    rw [h.stop_eq hhi (by omega)] at hup
    refine ⟨by omega, by omega, fun i h1 h2 => ?_, hup, ?_, fun i hi => ?_, ?_, ?_, fun i hi hlt => ?_,
      fun i hi => ?_⟩
    · have hi := hin i h2 h1
      rwa [h.stop_eq hhi (by omega)] at hi
    · dsimp only
      omega
    · exact Function.update_of_ne (by omega) _ _
    · dsimp only
      rw [Function.update_self]
      exact haddr
    · dsimp only
      rw [Function.update_self]
      exact hlast
    · dsimp only at hlt
      omega
    · dsimp only
      rw [Function.update_of_ne (by omega)]
      exact hl.same i (by omega)

theorem frees_of (h : Ordered t lo hi) (hhi : hi < addrSpace) (hn : t.nRecs ≤ nRecsMax)
    (hwrap : logAddr + logLen < addrSpace)
    (hok : Clean t logAddr logLen ∨ OneBehind t logAddr logLen) :
    Frees t lo hi logAddr logLen := by
  generalize hsearch : search t.recs logAddr t.nRecs 0 t.nRecs = left
  obtain ⟨hbelow, hfound⟩ := search_all h hhi hsearch
  have hstop := add64_eq hwrap
  have hsearched : ∀ i ∈ searchReads t.recs logAddr t.nRecs 0 t.nRecs, i < t.nRecs :=
    searchReads_lt
  unfold Frees reads
  simp only [hstop, hsearch]
  by_cases hleft : t.nRecs ≤ left
  · refine ⟨by simpa only [if_pos hleft, List.append_nil] using hsearched, .inr ⟨t, ?_, ?_⟩⟩
    · simp only [release, hsearch, if_pos hleft]
    · refine freed_refl h hn fun i hi x hx => .inl ?_
      have := hbelow i (by omega)
      have := hx.2
      omega
  have hleft := Nat.not_le.mp hleft
  have hfound := hfound hleft
  have hend := h.stop_eq hhi hleft
  rw [if_neg (by omega)]
  by_cases hsplit : (t.recs left).addr < logAddr ∧ logAddr + logLen < (t.recs left).stop
  · rw [if_pos hsplit]
    refine ⟨fun i hi => ?_, ?_⟩
    · rcases List.mem_append.mp hi with hi | hi
      · exact hsearched i hi
      rcases List.mem_cons.mp hi with rfl | hi
      · exact hleft
      · have := List.mem_range'_1.mp hi
        omega
    · unfold release
      simp only [hstop, hsearch]
      rw [if_neg (by omega), if_pos hsplit]
      split
      · exact .inl rfl
      · rename_i hroom
        rw [hend] at hsplit
        exact .inr ⟨_, rfl, freed_split h hhi hleft hsplit.1 (by omega) hsplit.2
          (Nat.not_le.mp hroom)⟩
  rw [if_neg hsplit]
  by_cases hover : (t.recs left).addr < logAddr + logLen
  · generalize hlower : shortenLower t left logAddr = lower
    obtain ⟨t₁, next⟩ := lower
    have hl : Lowered t t₁ lo hi logAddr (logAddr + logLen) next := by
      rw [hend] at hsplit
      have hl := lowered h hleft hbelow hfound hsplit
      rwa [hlower] at hl
    obtain ⟨right, t₂, hin, hout, hdelete, hm⟩ :=
      moved_of h hhi hstop hsearch hleft hsplit hover hlower hl hok
    have hright := hm.right_lt
    have hscan : scan t.recs (logAddr + logLen) (nRecsMax + 1) next = some right :=
      scan_eq (by omega) (by omega) hm.next_le hin hout
    rw [if_pos hover, hscan, (scan_some hscan).2.2.2]
    refine ⟨fun i hi => ?_, .inr ⟨_, release_removes hstop hsearch hleft hsplit hover hlower
      ((scan_congr hl.same).trans hscan) hdelete, freed_moved h hhi hn (by omega) hl hm⟩⟩
    rcases List.mem_append.mp hi with hi | hi
    · exact hsearched i hi
    rcases List.mem_cons.mp hi with rfl | hi
    · exact hleft
    rcases List.mem_append.mp hi with hi | hi
    · have := List.mem_range'_1.mp hi
      omega
    · have := List.mem_range'_1.mp hi
      omega
  · rw [if_neg hover]
    refine ⟨fun i hi => ?_, .inr ⟨t, ?_, ?_⟩⟩
    · rcases List.mem_append.mp hi with hi | hi
      · exact hsearched i hi
      · rw [List.mem_singleton.mp hi]
        exact hleft
    · unfold release
      simp only [hstop, hsearch]
      rw [if_neg (by omega), if_neg hsplit, if_neg hover]
    · refine freed_refl h hn fun i hi x hx => ?_
      obtain ⟨hx1, hx2⟩ := hx
      rcases Nat.lt_trichotomy i left with hlt | rfl | hgt
      · have := hbelow i hlt
        omega
      · omega
      · have := h.before hgt hi
        omega

/-- With two records or more behind the range the last entry is one that was not moved, and so the
last record is lost. -/
theorem not_freed_many (h : Ordered t lo hi) (hlast : 0 < (t.recs (t.nRecs - 1)).len)
    (hnext : next < right) (hright : right + 1 < t.nRecs)
    (hlow : stop < (t.recs right).addr + (t.recs right).len)
    (hn : t'.nRecs = t.nRecs - (right - next))
    (hkeep : t'.recs (t'.nRecs - 1) = t.recs (t'.nRecs - 1)) :
    ¬ Freed t t' lo hi logAddr stop := by
  intro hf
  have hbefore := h.before (show right < t.nRecs - 1 by omega) (by omega)
  have hx : Recorded t ((t.recs (t.nRecs - 1)).addr + (t.recs (t.nRecs - 1)).len - 1) :=
    ⟨t.nRecs - 1, by omega, by omega, by omega⟩
  obtain ⟨i, hi, -, hx⟩ := (hf.recorded _).mpr ⟨hx, .inr (by omega)⟩
  have hend := h.before (show t'.nRecs - 1 < t.nRecs - 1 by omega) (by omega)
  rcases Nat.lt_or_eq_of_le (Nat.le_sub_one_of_lt hi) with hlt | rfl
  · have := hf.ordered.before hlt (by omega)
    rw [hkeep] at this
    omega
  · rw [hkeep] at hx
    omega

/-- The one record that is left over has what the last one had. -/
theorem freed_one {a : Nat} (h : Ordered t lo hi) (hhi : hi < addrSpace)
    (hle : logAddr ≤ stop) (hlast : 0 < (t.recs (t.nRecs - 1)).len)
    (hl : Lowered t t₁ lo hi logAddr stop next) (hnext : next + 1 < t.nRecs) (hin : ∀ i < t.nRecs - 1, next ≤ i → (t.recs i).stop ≤ stop)
    (hlow : stop < (t.recs (t.nRecs - 1)).addr + (t.recs (t.nRecs - 1)).len)
    (ha : a < addrSpace) (t₂ : Table) (hn₂ : t₂.nRecs = next + 1)
    (hbelow : ∀ i < next, t₂.recs i = t₁.recs i) (hrec : t₂.recs next = ⟨a, (t.recs next).len⟩)
    (hf : Freed t (shortenUpper t₂ next stop) lo hi logAddr stop) :
    max a stop = max (t.recs (t.nRecs - 1)).addr stop ∧
      a + (t.recs next).len = (t.recs (t.nRecs - 1)).addr + (t.recs (t.nRecs - 1)).len := by
  have hlen := h.high next (by omega)
  obtain ⟨haddr, -, hend⟩ := shortenUpper_self next stop hrec ha (by omega)
  have hhigh := hf.ordered.high next (by rw [shortenUpper_nRecs]; omega)
  have hbound := h.high (t.nRecs - 1) (by omega)
  have hend := hend (by omega) (by omega)
  -- Above the range only the entry at `next` and the last record count.
  have hhas : ∀ x, stop ≤ x → (((shortenUpper t₂ next stop).recs next).Has x ↔
      (t.recs (t.nRecs - 1)).Has x) := by
    intro x hx
    constructor
    · intro hnew
      obtain ⟨⟨i, hi, hix⟩, -⟩ := (hf.recorded x).mp
        ⟨next, by rw [shortenUpper_nRecs]; omega, hnew⟩
      rcases Nat.lt_or_ge i next with hlt | hge
      · have hfirst := h.before hlt (by omega)
        have hstart := hl.above next (Nat.le_refl _) (by omega)
        have hcut := hl.below i hlt
        obtain ⟨-, hx2⟩ := (hl.cut i hlt x).mpr ⟨hix, .inr hx⟩
        omega
      rcases Nat.lt_or_eq_of_le (Nat.le_sub_one_of_lt hi) with hlt | rfl
      · have hix2 := hix.2
        have hstop := hin i hlt hge
        rw [h.stop_eq hhi hi] at hstop
        omega
      · exact hix
    · intro hold
      obtain ⟨i, hi, hix⟩ := (hf.recorded x).mpr ⟨⟨t.nRecs - 1, by omega, hold⟩, .inr hx⟩
      rw [shortenUpper_nRecs, hn₂] at hi
      rcases Nat.lt_or_eq_of_le (Nat.le_of_lt_succ hi) with hlt | rfl
      · rw [shortenUpper_of_ne (by omega), hbelow i hlt] at hix
        have hcut := hl.below i hlt
        have hix2 := hix.2
        omega
      · exact hix
  unfold Rec.Has at hhas
  rw [haddr] at hend
  simp only [haddr, hend] at hhas
  obtain ⟨hlow₁, -⟩ := (hhas (max (t.recs (t.nRecs - 1)).addr stop) (by omega)).mpr (by omega)
  obtain ⟨-, hup₁⟩ := (hhas ((t.recs (t.nRecs - 1)).addr + (t.recs (t.nRecs - 1)).len - 1)
    (by omega)).mpr (by omega)
  obtain ⟨hlow₂, -⟩ := (hhas (max a stop) (by omega)).mp (by omega)
  obtain ⟨-, hup₂⟩ := (hhas (a + (t.recs next).len - 1) (by omega)).mp (by omega)
  omega

theorem of_frees (h : Ordered t lo hi) (hhi : hi < addrSpace) (hn : t.nRecs ≤ nRecsMax)
    (hwrap : logAddr + logLen < addrSpace) (hlast : 0 < (t.recs (t.nRecs - 1)).len)
    (hf : Frees t lo hi logAddr logLen) : Clean t logAddr logLen ∨ OneBehind t logAddr logLen := by
  by_cases hclean : Clean t logAddr logLen
  · exact .inl hclean
  refine .inr ?_
  have hstop := add64_eq hwrap
  unfold Clean at hclean
  simp only [Classical.not_imp, hstop] at hclean
  obtain ⟨hleft, hsplit, hover, hnot⟩ := hclean
  obtain ⟨hread, hf⟩ := hf
  unfold reads at hread
  unfold OneBehind
  simp only [hstop] at hread ⊢
  generalize hsearch : search t.recs logAddr t.nRecs 0 t.nRecs = left at *
  obtain ⟨hbelow, hfound⟩ := search_all h hhi hsearch
  have hl : Lowered t (shortenLower t left logAddr).1 lo hi logAddr (logAddr + logLen)
      (shortenLower t left logAddr).2 :=
    lowered h hleft hbelow (hfound hleft) (by rwa [← h.stop_eq hhi hleft])
  rw [if_neg (by omega), if_neg hsplit, if_pos hover] at hread
  generalize hlower : shortenLower t left logAddr = lower at *
  obtain ⟨t₁, next⟩ := lower
  simp only at hread hnot hl ⊢
  have hle := hl.next_le
  -- If all records were inside of the range, then the scan would go on behind them.
  have hex : ∃ i, i < t.nRecs ∧ next ≤ i ∧ logAddr + logLen < (t.recs i).stop := by
    by_contra hall
    push Not at hall
    have hmem : t.nRecs ∈ scanReads t.recs (logAddr + logLen) (nRecsMax + 1) next :=
      mem_scanReads (by omega) hle fun i hge hlt => hall i hlt hge
    exact Nat.lt_irrefl _ (hread _ (List.mem_append_right _ (List.mem_cons_of_mem _
      (List.mem_append_left _ hmem))))
  obtain ⟨hright, hge, hout⟩ := Nat.find_spec hex
  have hmin : ∀ i < t.nRecs, next ≤ i → i < Nat.find hex →
      (t.recs i).stop ≤ logAddr + logLen := fun i hi hge hlt => by
    have := Nat.find_min hex hlt
    push Not at this
    exact this hi hge
  generalize Nat.find hex = right at *
  have hnext : next < right := by
    refine Nat.lt_of_le_of_ne hge fun heq => hnot ?_
    subst heq
    exact ⟨hright, hout⟩
  have hscan : scan t₁.recs (logAddr + logLen) (nRecsMax + 1) next = some right :=
    (scan_congr hl.same).trans (scan_eq (by omega) (by omega) hge
      (fun i hi hlt => hmin i (by omega) hi hlt) hout)
  have hend := h.stop_eq hhi hright
  rw [hend] at hout
  have hn₁ := hl.nRecs
  rcases Nat.lt_or_eq_of_le (Nat.succ_le_of_lt hright) with hmany | hone
  · have hdelete : deleteRecs t₁ next right = some ⟨t.nRecs - (right - next),
        moveBytes t₁.recs next right (t.nRecs - right)⟩ := by
      rw [deleteRecs, if_pos hnext, if_neg (by omega), hn₁]
    rw [release_removes hstop hsearch hleft hsplit hover hlower hscan hdelete] at hf
    rcases hf with hf | ⟨t', ht', hf⟩
    · cases hf
    cases ht'
    refine absurd hf (not_freed_many h hlast hnext hmany hout shortenUpper_nRecs ?_)
    rw [shortenUpper_nRecs, shortenUpper_of_ne (by dsimp only; omega)]
    dsimp only
    rw [moveBytes, if_neg (by omega), memmove, if_neg (by omega)]
    exact hl.same _ (by omega)
  · have hright : right = t.nRecs - 1 := by omega
    subst hright
    have hdelete := deleteRecs_one t₁ next (by omega)
    rw [hn₁, hl.same next (Nat.le_refl _), hl.same (t.nRecs - 1) (by omega)] at hdelete
    rw [release_removes hstop hsearch hleft hsplit hover hlower hscan hdelete] at hf
    rcases hf with hf | ⟨t', ht', hf⟩
    · cases hf
    cases ht'
    have hin : ∀ i < t.nRecs - 1, next ≤ i → (t.recs i).stop ≤ logAddr + logLen :=
      fun i hi hge => hmin i (by omega) hge hi
    have hbound := h.high next (by omega)
    refine ⟨by omega, hin, by rwa [hend], ?_⟩
    exact freed_one h hhi (by omega) hlast hl (by omega) hin hout (lowBytes_lt (by omega)) _ rfl
      (fun i hi => Function.update_of_ne (by omega) _ _) (Function.update_self _ _ _) hf

/-- **`$padr` gives back the range as long as no record is deleted**, or when the record that is to be
moved differs in one byte only. Otherwise a record is lost, or entries behind the last one are
read. -/
theorem padr_frees (h : Ordered t lo hi) (hhi : hi < addrSpace) (hn : t.nRecs ≤ nRecsMax)
    (hwrap : logAddr + logLen < addrSpace) :
    (Clean t logAddr logLen ∨ OneBehind t logAddr logLen → Frees t lo hi logAddr logLen) ∧
      (0 < (t.recs (t.nRecs - 1)).len → Frees t lo hi logAddr logLen →
        Clean t logAddr logLen ∨ OneBehind t logAddr logLen) :=
  ⟨frees_of h hhi hn hwrap, of_frees h hhi hn hwrap⟩

/-- Three ranges of ten bytes. -/
def three : Table :=
  ⟨3, fun i => if i = 0 then ⟨4096, 10⟩ else if i = 1 then ⟨4106, 10⟩ else ⟨4116, 10⟩⟩

theorem three_ordered : Ordered three 4096 8192 where
  low := by decide
  high := by decide
  next := by
    have h : ∀ i < 2, (three.recs i).addr + (three.recs i).len ≤ (three.recs (i + 1)).addr := by
      decide
    exact fun i hi => h i (Nat.lt_of_succ_lt_succ hi)

/-- A hole in the second one. -/
theorem padr_frees_hole : Frees three 4096 8192 4108 3 :=
  (padr_frees three_ordered (by decide) (by decide) (by decide)).1 (.inl (by decide))

/-- When the first one is given back the second one is there twice, and the last one is lost. -/
theorem padr_loses_last : Ordered three 4096 8192 ∧ ¬ Frees three 4096 8192 4096 10 := by
  refine ⟨three_ordered, fun h => ?_⟩
  obtain ⟨-, hrel | ⟨t', hrel, hf⟩⟩ := h
  · have hok : (release three 4096 10).map Except.isOk = some true := by decide +kernel
    rw [hrel] at hok
    cases hok
  have hlost : (release three 4096 10).map (fun r => r.toOption.map fun t =>
      (t.nRecs, t.recs 0, t.recs 1)) = some (some (2, ⟨4106, 10⟩, ⟨4106, 10⟩)) := by decide +kernel
  rw [hrel] at hlost
  have hlost : t'.nRecs = 2 ∧ t'.recs 0 = ⟨4106, 10⟩ ∧ t'.recs 1 = ⟨4106, 10⟩ := by
    simpa [Except.toOption] using hlost
  have hnext := hf.ordered.next 0 (by omega)
  rw [hlost.2.1, hlost.2.2] at hnext
  exact absurd hnext (by decide)

end Athomux.Heap
