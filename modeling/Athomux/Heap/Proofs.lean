import Mathlib.Data.List.Basic
import Athomux.Heap.Spec

/-! # What is given out -/

open Lib

namespace Athomux.Heap

variable {t t' : Table} {lo hi i left : Nat} {logAddr logLen stop : Nat}

/-! ## Records in order -/

/-- The records are in order, from `lo` up to `hi`. -/
structure Ordered (t : Table) (lo hi : Nat) : Prop where
  low : ∀ i < t.nRecs, lo ≤ (t.recs i).addr
  high : ∀ i < t.nRecs, (t.recs i).addr + (t.recs i).len ≤ hi
  next : ∀ i, i + 1 < t.nRecs → (t.recs i).addr + (t.recs i).len ≤ (t.recs (i + 1)).addr

theorem Ordered.before (h : Ordered t lo hi) {i j : Nat} (hij : i < j) (hj : j < t.nRecs) :
    (t.recs i).addr + (t.recs i).len ≤ (t.recs j).addr := by
  induction j with
  | zero => omega
  | succ j ih =>
    rcases Nat.lt_or_eq_of_le (Nat.le_of_lt_succ hij) with hlt | rfl
    · have h1 := ih hlt (by omega)
      have h2 := h.next j hj
      omega
    · exact h.next i hj

theorem Ordered.stop_eq (h : Ordered t lo hi) (hhi : hi < addrSpace) (hi' : i < t.nRecs) :
    (t.recs i).stop = (t.recs i).addr + (t.recs i).len :=
  add64_eq (lt_of_le_of_lt (h.high i hi') hhi)

/-- Some record has `x`. -/
def Recorded (t : Table) (x : Nat) : Prop := ∃ i < t.nRecs, (t.recs i).Has x

/-! ## `$gadr` -/

theorem newRec_addr (h : Ordered t lo hi) (hhi : hi < addrSpace) {rangeAddr : Nat}
    (hlo : lo = rangeAddr + stateSize) (hle : lo ≤ hi) :
    (newRec t rangeAddr logLen).addr =
      if t.nRecs = 0 then lo else (t.recs (t.nRecs - 1)).addr + (t.recs (t.nRecs - 1)).len := by
  unfold newRec
  by_cases hn : t.nRecs = 0
  · rw [if_neg (by omega), if_pos hn, hlo]
    exact add64_eq (by omega)
  · rw [if_pos (by omega), if_neg hn]
    exact h.stop_eq hhi (by omega)

theorem newRec_len (t : Table) (rangeAddr logLen : Nat) :
    (newRec t rangeAddr logLen).len = logLen := by
  unfold newRec
  split <;> rfl

theorem Ordered.addRec (h : Ordered t lo hi) {r : Rec} (hlow : lo ≤ r.addr)
    (hhigh : r.addr + r.len ≤ hi)
    (hlast : 0 < t.nRecs → (t.recs (t.nRecs - 1)).addr + (t.recs (t.nRecs - 1)).len ≤ r.addr) :
    Ordered (addRec t r) lo hi := by
  have hold : ∀ i < t.nRecs, (Heap.addRec t r).recs i = t.recs i := fun i hi =>
    Table.set_recs_of_ne (by omega) t r
  have hnew : (Heap.addRec t r).recs t.nRecs = r := t.set_recs_self _ r
  have hn : (Heap.addRec t r).nRecs = t.nRecs + 1 := rfl
  refine ⟨fun i hi => ?_, fun i hi => ?_, fun i hi => ?_⟩
  · rcases Nat.lt_or_eq_of_le (Nat.le_of_lt_succ hi) with hlt | rfl
    · rw [hold i hlt]
      exact h.low i hlt
    · rw [hnew]
      exact hlow
  · rcases Nat.lt_or_eq_of_le (Nat.le_of_lt_succ hi) with hlt | rfl
    · rw [hold i hlt]
      exact h.high i hlt
    · rw [hnew]
      exact hhigh
  · rw [hold i (by omega)]
    rcases Nat.lt_or_ge (i + 1) t.nRecs with hlt | hge
    · rw [hold (i + 1) hlt]
      exact h.next i hlt
    · have hi' : i + 1 = t.nRecs := by omega
      rw [hi', hnew]
      have := hlast (by omega)
      rwa [← hi', Nat.add_sub_cancel] at this

theorem recorded_addRec {r : Rec} {x : Nat} (hx : Recorded t x ∨ r.Has x) :
    Recorded (addRec t r) x := by
  rcases hx with ⟨i, hi, hx⟩ | hx
  · refine ⟨i, Nat.lt_succ_of_lt hi, ?_⟩
    exact (Table.set_recs_of_ne (Nat.ne_of_lt hi) t r).symm ▸ hx
  · refine ⟨t.nRecs, Nat.lt_succ_self _, ?_⟩
    exact (t.set_recs_self t.nRecs r).symm ▸ hx

/-! ## The binary search -/

/-- All records before the one that was found end at or below the address, and that one has the
address or starts at or above it. -/
theorem search_spec (h : Ordered t lo hi) (hhi : hi < addrSpace) {fuel l r : Nat}
    (hfuel : r - l ≤ fuel) (hlr : l ≤ r) (hr : r ≤ t.nRecs)
    (hl : ∀ i < l, (t.recs i).addr + (t.recs i).len ≤ logAddr)
    (hge : r < t.nRecs → logAddr ≤ (t.recs r).addr) :
    let left := search t.recs logAddr fuel l r
    left ≤ t.nRecs ∧ (∀ i < left, (t.recs i).addr + (t.recs i).len ≤ logAddr) ∧
    (left < t.nRecs → logAddr ≤ (t.recs left).addr ∨ (t.recs left).Has logAddr) := by
  induction fuel generalizing l r with
  | zero =>
    have : l = r := by omega
    subst this
    exact ⟨hr, hl, fun hlt => Or.inl (hge hlt)⟩
  | succ fuel ih =>
    simp only [search]
    split
    · rename_i hlt
      have hmid : (l + r) / 2 < r := by omega
      have hstop := h.stop_eq hhi (lt_of_lt_of_le hmid hr)
      rw [hstop]
      split
      · rename_i hhas
        refine ⟨by omega, fun i hi => ?_, fun _ => Or.inr hhas⟩
        exact (h.before hi (by omega)).trans hhas.1
      · rename_i hnot
        split
        · rename_i hbelow
          refine ih (by omega) (by omega) hr (fun i hi => ?_) hge
          rcases Nat.lt_or_eq_of_le (Nat.le_of_lt_succ hi) with hlt' | rfl
          · exact (h.before hlt' (by omega)).trans hbelow.le
          · omega
        · rename_i habove
          exact ih (by omega) (by omega) (by omega) hl fun _ => Nat.not_lt.mp habove
    · have : l = r := by omega
      subst this
      exact ⟨hr, hl, fun hlt => Or.inl (hge hlt)⟩

/-! ## `$padr` -/

/-- One record becomes smaller. -/
theorem Ordered.shrink (h : Ordered t lo hi) {r : Rec} (hlow : (t.recs left).addr ≤ r.addr)
    (hup : r.addr + r.len ≤ (t.recs left).addr + (t.recs left).len) :
    Ordered (t.set left r) lo hi := by
  refine ⟨fun i hi => ?_, fun i hi => ?_, fun i hi => ?_⟩
  · have := h.low i hi
    by_cases heq : i = left
    · subst heq
      rw [Table.set_recs_self]
      omega
    · rwa [Table.set_recs_of_ne heq]
  · have := h.high i hi
    by_cases heq : i = left
    · subst heq
      rw [Table.set_recs_self]
      omega
    · rwa [Table.set_recs_of_ne heq]
  · have := h.next i hi
    by_cases heq : i = left
    · subst heq
      rw [Table.set_recs_self, Table.set_recs_of_ne (by omega)]
      omega
    · by_cases heq' : i + 1 = left
      · subst heq'
        rw [Table.set_recs_self, Table.set_recs_of_ne heq]
        omega
      · rwa [Table.set_recs_of_ne heq, Table.set_recs_of_ne heq']

/-- What is not taken from the record is still recorded. -/
theorem recorded_shrink {r : Rec} {x : Nat} (hx : Recorded t x)
    (hr : (t.recs left).Has x → r.Has x) :
    Recorded (t.set left r) x := by
  obtain ⟨i, hi, hx⟩ := hx
  refine ⟨i, hi, ?_⟩
  by_cases heq : i = left
  · subst heq
    rw [Table.set_recs_self]
    exact hr hx
  · rwa [Table.set_recs_of_ne heq]

/-! The records of a split. -/

section

variable (t) (left logAddr stop)

theorem split_below {i : Nat} (hi : i < left) : (split t left logAddr stop).recs i = t.recs i := by
  simp only [split]
  rw [Table.set_recs_of_ne (by omega), Table.set_recs_of_ne (by omega)]
  simp only [memmove]
  rw [if_neg (by omega)]

theorem split_left : (split t left logAddr stop).recs left =
    ⟨(t.recs left).addr, logAddr - (t.recs left).addr⟩ :=
  Table.set_recs_self _ _ _

theorem split_right : (split t left logAddr stop).recs (left + 1) =
    ⟨stop, sub64 (t.recs left).len (sub64 stop (t.recs left).addr)⟩ := by
  simp only [split]
  rw [Table.set_recs_of_ne (by omega), Table.set_recs_self]

theorem split_above {i : Nat} (hi : left < i) (hn : i < t.nRecs) :
    (split t left logAddr stop).recs (i + 1) = t.recs i := by
  simp only [split]
  rw [Table.set_recs_of_ne (by omega), Table.set_recs_of_ne (by omega)]
  simp only [memmove]
  rw [if_pos (by omega)]
  congr 1
  omega

end

theorem sub64_stop {r : Rec} (hr : r.addr + r.len < addrSpace) (hlow : r.addr ≤ stop)
    (hup : stop ≤ r.addr + r.len) : sub64 r.len (sub64 stop r.addr) = r.addr + r.len - stop := by
  rw [sub64_eq hlow (by omega), sub64_eq (by omega) (by omega)]
  omega

/-- Every record of a split is one of four. -/
theorem split_cases (left : Nat) {i : Nat} (hi : i < t.nRecs + 1) :
    i < left ∨ i = left ∨ i = left + 1 ∨ ∃ k, i = k + 1 ∧ left < k ∧ k < t.nRecs := by
  rcases Nat.lt_or_ge (left + 1) i with hgt | hle
  · exact Or.inr (Or.inr (Or.inr ⟨i - 1, by omega, by omega, by omega⟩))
  · omega

theorem Ordered.split (h : Ordered t lo hi) (hhi : hi < addrSpace) (hleft : left < t.nRecs)
    (hlow : (t.recs left).addr < logAddr) (hle : logAddr ≤ stop)
    (hup : stop < (t.recs left).addr + (t.recs left).len) :
    Ordered (split t left logAddr stop) lo hi := by
  have hl := h.low left hleft
  have hh := h.high left hleft
  have hlen := sub64_stop (r := t.recs left) (by omega) (show (t.recs left).addr ≤ stop by omega)
    hup.le
  refine ⟨fun i hi => ?_, fun i hi => ?_, fun i hi => ?_⟩
  · rcases split_cases left hi with hlt | rfl | rfl | ⟨k, rfl, hlt, hk⟩
    · rw [split_below t left logAddr stop hlt]
      exact h.low i (by omega)
    · rw [split_left]
      exact hl
    · rw [split_right]
      simp only
      omega
    · rw [split_above t left logAddr stop hlt hk]
      exact h.low k hk
  · rcases split_cases left hi with hlt | rfl | rfl | ⟨k, rfl, hlt, hk⟩
    · rw [split_below t left logAddr stop hlt]
      exact h.high i (by omega)
    · rw [split_left]
      simp only
      omega
    · rw [split_right, hlen]
      simp only
      omega
    · rw [split_above t left logAddr stop hlt hk]
      exact h.high k hk
  · rcases split_cases left (Nat.lt_of_succ_lt hi) with hlt | rfl | rfl | ⟨k, rfl, hlt, hk⟩
    · rw [split_below t left logAddr stop hlt]
      rcases Nat.lt_or_eq_of_le hlt with hlt' | rfl
      · rw [split_below t left logAddr stop hlt']
        exact h.next i (by omega)
      · rw [split_left]
        exact h.next i hleft
    · rw [split_left, split_right]
      simp only
      omega
    · have hk : left + 1 < t.nRecs := Nat.lt_of_succ_lt_succ hi
      have := h.next left hk
      rw [split_right, split_above t left logAddr stop (show left < left + 1 by omega) hk, hlen]
      simp only
      omega
    · have hk' : k + 1 < t.nRecs := Nat.lt_of_succ_lt_succ hi
      rw [split_above t left logAddr stop hlt hk,
        split_above t left logAddr stop (Nat.lt_succ_of_lt hlt) hk']
      exact h.next k hk'

theorem recorded_split (h : Ordered t lo hi) (hhi : hi < addrSpace) (hleft : left < t.nRecs)
    (hlow : (t.recs left).addr < logAddr) (hle : logAddr ≤ stop)
    (hup : stop < (t.recs left).addr + (t.recs left).len) {x : Nat} (hx : Recorded t x)
    (hout : x < logAddr ∨ stop ≤ x) : Recorded (split t left logAddr stop) x := by
  have hh := h.high left hleft
  have hlen := sub64_stop (r := t.recs left) (by omega) (show (t.recs left).addr ≤ stop by omega)
    hup.le
  obtain ⟨i, hi, hx⟩ := hx
  rcases Nat.lt_trichotomy i left with hlt | rfl | hgt
  · refine ⟨i, Nat.lt_succ_of_lt hi, ?_⟩
    rw [split_below t left logAddr stop hlt]
    exact hx
  · have hx2 := hx.2
    rcases hout with hout | hout
    · refine ⟨i, Nat.lt_succ_of_lt hi, ?_⟩
      rw [split_left]
      exact ⟨hx.1, by simp only; omega⟩
    · refine ⟨i + 1, Nat.succ_lt_succ hi, ?_⟩
      rw [split_right, hlen]
      exact ⟨hout, by simp only; omega⟩
  · refine ⟨i + 1, Nat.succ_lt_succ hi, ?_⟩
    rw [split_above t left logAddr stop hgt hi]
    exact hx

/-- The range ends inside of the first record that is to be deleted or shortened from below, so
that no record is deleted. -/
def Clean (t : Table) (logAddr logLen : Nat) : Prop :=
  let stop := add64 logAddr logLen
  let left := search t.recs logAddr t.nRecs 0 t.nRecs
  let r := t.recs left
  left < t.nRecs → ¬ (r.addr < logAddr ∧ stop < r.stop) → r.addr < stop →
    let next := (shortenLower t left logAddr).2
    next < t.nRecs ∧ stop < (t.recs next).stop

/-- What a `$padr` keeps. -/
structure Kept (t t' : Table) (lo hi logAddr stop : Nat) : Prop where
  ordered : Ordered t' lo hi
  recorded : ∀ x, Recorded t x → x < logAddr ∨ stop ≤ x → Recorded t' x

theorem Kept.refl (h : Ordered t lo hi) : Kept t t lo hi logAddr stop := ⟨h, fun _ hx _ => hx⟩

theorem Kept.trans {t'' : Table} (h : Kept t t' lo hi logAddr stop)
    (h' : Kept t' t'' lo hi logAddr stop) : Kept t t'' lo hi logAddr stop :=
  ⟨h'.ordered, fun x hx hout => h'.recorded x (h.recorded x hx hout) hout⟩

theorem kept_shortenLower (h : Ordered t lo hi)
    (hup : (t.recs left).addr < logAddr → logAddr < (t.recs left).addr + (t.recs left).len ∧
      (t.recs left).addr + (t.recs left).len ≤ stop) :
    Kept t (shortenLower t left logAddr).1 lo hi logAddr stop := by
  unfold shortenLower
  simp only
  split
  · rename_i hlow
    obtain ⟨h1, h2⟩ := hup hlow
    refine ⟨h.shrink (Nat.le_refl _) (by simp only; omega), fun x hx hout => ?_⟩
    refine recorded_shrink hx fun hxl => ⟨hxl.1, ?_⟩
    have := hxl.2
    simp only
    omega
  · exact Kept.refl h

theorem shortenLower_recs (t : Table) (left logAddr : Nat) :
    (shortenLower t left logAddr).1.recs (shortenLower t left logAddr).2 =
      t.recs (shortenLower t left logAddr).2 ∧
    (shortenLower t left logAddr).1.nRecs = t.nRecs := by
  unfold shortenLower
  simp only
  split
  · exact ⟨Table.set_recs_of_ne (by simp) t _, rfl⟩
  · exact ⟨rfl, rfl⟩

theorem kept_shortenUpper (h : Ordered t lo hi) (hhi : hi < addrSpace) (hleft : left < t.nRecs)
    (hlow : logAddr ≤ (t.recs left).addr) (hup : stop < (t.recs left).addr + (t.recs left).len) :
    Kept t (shortenUpper t left stop) lo hi logAddr stop := by
  unfold shortenUpper
  simp only
  split
  · rename_i hlt
    have hlen := sub64_stop (lt_of_le_of_lt (h.high left hleft) hhi) hlt.le hup.le
    rw [hlen]
    refine ⟨h.shrink hlt.le (by simp only; omega), fun x hx hout => ?_⟩
    refine recorded_shrink hx fun hxl => ?_
    have h1 := hxl.1
    have h2 := hxl.2
    exact ⟨by simp only; omega, by simp only; omega⟩
  · exact Kept.refl h

/-- `$padr` works when no record is deleted. -/
theorem release_spec (h : Ordered t lo hi) (hhi : hi < addrSpace) (hn : t.nRecs ≤ nRecsMax)
    (hwrap : logAddr + logLen < addrSpace) (hclean : Clean t logAddr logLen) :
    release t logAddr logLen = some (.error ()) ∨
    ∃ t', release t logAddr logLen = some (.ok t') ∧ Kept t t' lo hi logAddr (logAddr + logLen) ∧
      t'.nRecs ≤ nRecsMax := by
  obtain ⟨-, hbelow, hfound⟩ := search_spec h hhi (Nat.sub_zero t.nRecs).le
    (Nat.zero_le _) (Nat.le_refl _) (fun i hi => absurd hi (Nat.not_lt_zero i))
    (fun hlt => absurd hlt (lt_irrefl _))
  unfold Clean at hclean
  unfold release
  simp only [add64_eq hwrap] at hclean ⊢
  generalize search t.recs logAddr t.nRecs 0 t.nRecs = left at *
  split
  · exact Or.inr ⟨t, rfl, Kept.refl h, hn⟩
  · rename_i hleft
    have hleft : left < t.nRecs := Nat.not_le.mp hleft
    have hstop := h.stop_eq hhi hleft
    split
    · rename_i hsplit
      rw [hstop] at hsplit
      split
      · exact Or.inl rfl
      · rename_i hfull
        refine Or.inr ⟨_, rfl, ⟨h.split hhi hleft hsplit.1 (by omega) hsplit.2, ?_⟩,
          Nat.not_le.mp hfull⟩
        exact fun x hx hout => recorded_split h hhi hleft hsplit.1 (by omega) hsplit.2 hx hout
    · rename_i hsplit
      split
      · rename_i hlt
        obtain ⟨hnext, hup⟩ := hclean hleft hsplit hlt
        rw [hstop] at hsplit
        have hlower : Kept t (shortenLower t left logAddr).1 lo hi logAddr (logAddr + logLen) :=
          kept_shortenLower h fun hlow => ⟨((hfound hleft).resolve_left (by omega)).2, by omega⟩
        obtain ⟨hrecs, hnrecs⟩ := shortenLower_recs t left logAddr
        have hlow : logAddr ≤ (t.recs (shortenLower t left logAddr).2).addr := by
          unfold shortenLower at hnext ⊢
          simp only at hnext ⊢
          split at hnext
          · rename_i hlow
            rw [if_pos hlow]
            have hafter := h.next left hnext
            have hhas := ((hfound hleft).resolve_left (by omega)).2
            simp only
            omega
          · rename_i hlow
            rw [if_neg hlow]
            exact Nat.not_lt.mp hlow
        generalize shortenLower t left logAddr = r at *
        obtain ⟨t₁, next⟩ := r
        simp only at hnext hup hlower hrecs hnrecs hlow ⊢
        -- Nothing is deleted: the scan ends where it starts.
        have hscan : scan t₁.recs (logAddr + logLen) (nRecsMax + 1) next = some next := by
          unfold scan
          rw [if_neg (by omega), hrecs, if_neg (by omega)]
        have hdelete : deleteRecs t₁ next next = some t₁ := if_neg (lt_irrefl _)
        rw [h.stop_eq hhi hnext] at hup
        rw [← hnrecs] at hnext
        rw [← hrecs] at hup hlow
        have hupper := kept_shortenUpper hlower.ordered hhi hnext hlow hup
        refine Or.inr ⟨shortenUpper t₁ next (logAddr + logLen), ?_, hlower.trans hupper, ?_⟩
        · simp only [hscan, hdelete, Option.bind_eq_bind, Option.bind_some, Option.pure_def]
        · unfold shortenUpper
          simp only
          split
          · rw [Table.set_nRecs]
            omega
          · omega
      · exact Or.inr ⟨t, rfl, Kept.refl h, hn⟩

end Athomux.Heap
