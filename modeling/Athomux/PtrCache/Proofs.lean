import Athomux.PtrCache.Spec
import Mathlib.Tactic.Cases

/-!
# What the pointer cache holds
-/

namespace Athomux

open Lib

/-! ## The bits of `pc_addr` -/

namespace PcElem

theorem buffer_zero : zero.buffer = none := rfl

theorem buffer_some {e : PcElem} (h : e.isPresent = true) :
    e.buffer = some ⟨e.pcPtr, clearBits e.pcAddr, e.pcLen⟩ := if_pos h

theorem buffer_none {e : PcElem} (h : ¬ e.isPresent = true) : e.buffer = none := if_neg h

theorem present_orPresent {x : Nat} : orPresent x / 2 % 2 = 1 := by
  unfold orPresent
  split <;> omega

theorem present_orDirty {x : Nat} {dirty : Bool} : orDirty x dirty / 2 % 2 = x / 2 % 2 := by
  unfold orDirty
  split <;> omega

theorem clearBits_orDirty {x : Nat} {dirty : Bool} :
    clearBits (orDirty x dirty) = clearBits x := by
  unfold orDirty clearBits
  split <;> omega

theorem clearBits_orPresent {x : Nat} : clearBits (orPresent x) = clearBits x := by
  unfold orPresent clearBits
  split <;> omega

theorem clearBits_eq {x : Nat} (h : x % 4 = 0) : clearBits x = x := by
  unfold clearBits
  omega

theorem buffer_orPresent {a len ptr : Nat} :
    buffer ⟨orPresent a, len, ptr⟩ = some ⟨ptr, clearBits a, len⟩ := by
  have h : isPresent ⟨orPresent a, len, ptr⟩ = true := decide_eq_true present_orPresent
  rw [buffer_some h, clearBits_orPresent]

theorem buffer_orDirty {x len ptr : Nat} {dirty : Bool} :
    buffer ⟨orDirty x dirty, len, ptr⟩ = buffer ⟨x, len, ptr⟩ := by
  have h : isPresent ⟨orDirty x dirty, len, ptr⟩ = isPresent ⟨x, len, ptr⟩ :=
    decide_eq_decide.mpr (by rw [present_orDirty])
  simp only [buffer, h, clearBits_orDirty]

theorem orDirty_mod {x : Nat} : orDirty x true % 2 = 1 := by
  unfold orDirty
  split
  · omega
  · simp_all

theorem le_orDirty {x : Nat} {dirty : Bool} (h : x % 2 = 1) : orDirty x dirty % 2 = 1 := by
  unfold orDirty
  split <;> omega

/-- The tag says which block the slot is for, when no bit of the address is taken for another. -/
theorem hit {x base : Nat} (hbase : base % 4 = 0) (h : clearDirty x = orPresent base) :
    x / 2 % 2 = 1 ∧ clearBits x = base := by
  unfold clearDirty orPresent clearBits at *
  split at h <;> omega

theorem hit_iff {x base : Nat} (hbase : base % 4 = 0) (hx : x / 2 % 2 = 1) :
    clearDirty x = orPresent base ↔ clearBits x = base := by
  unfold clearDirty orPresent clearBits
  split <;> omega

end PcElem

namespace PtrCache

variable {c : PcConfig} {s : PtrCache} {i j : Nat}

theorem hash_lt (addr : Nat) : c.hash addr < c.max := Nat.mod_lt _ c.max_pos

/-! ## The slots -/

@[simp] theorem slot_call (x : PcCall) : (s.call x).slot = s.slot := rfl

@[simp] theorem elems_call (x : PcCall) : (s.call x).elems = s.elems := rfl

@[simp] theorem slot_setWrite (w : Bool) : (s.setWrite w).slot = s.slot := rfl

@[simp] theorem elems_setWrite (w : Bool) : (s.setWrite w).elems = s.elems := rfl

@[simp] theorem slots_setWrite (w : Bool) : (s.setWrite w).slots c = s.slots c := rfl

@[simp] theorem slots_call (x : PcCall) : (s.call x).slots c = s.slots c := rfl

theorem slot_setElem (e : PcElem) :
    (s.setElem i e).slot = Function.update s.slot i e.buffer := by
  funext j
  by_cases hj : j = i
  · simp [slot, setElem, hj]
  · simp [slot, setElem, hj]

@[simp] theorem elems_setElem (e : PcElem) : (s.setElem i e).elems i = e := by simp [setElem]

theorem elems_setElem_of_ne (e : PcElem) (h : j ≠ i) : (s.setElem i e).elems j = s.elems j := by
  simp [setElem, h]

/-- A slot beside the others. -/
theorem slots_perm (hi : i < c.max) :
    (s.slots c).Perm ((s.slot i).toList ++ tableList c.max (Function.update s.slot i none)) :=
  tableList_perm hi

theorem slots_setElem (e : PcElem) (hi : i < c.max) :
    ((s.setElem i e).slots c).Perm
      (e.buffer.toList ++ tableList c.max (Function.update s.slot i none)) := by
  have h := tableList_perm (f := (s.setElem i e).slot) hi
  rw [slot_setElem, Function.update_self, Function.update_idem] at h
  unfold slots
  rw [slot_setElem]
  exact h

theorem update_none (h : s.slot i = none) : Function.update s.slot i none = s.slot := by
  rw [← h, Function.update_eq_self]

theorem slot_putElem : (s.putElem i).slot = Function.update s.slot i none := by
  unfold putElem
  rw [slot_setElem, slot_call]
  rfl

theorem slot_evict : (s.evict i).slot = Function.update s.slot i none := by
  unfold evict
  split
  · exact slot_putElem
  · rename_i h
    exact (update_none (PcElem.buffer_none h)).symm

theorem slot_evict_self : (s.evict i).slot i = none := by
  rw [slot_evict, Function.update_self]

theorem slot_evict_call (x : PcCall) : ((s.evict i).call x).slot i = none := slot_evict_self

theorem slot_setDirty (dirty : Bool) : (s.setDirty i dirty).slot = s.slot := by
  have h : (s.setDirty i dirty).slot = Function.update s.slot i
      { s.elems i with pcAddr := PcElem.orDirty (s.elems i).pcAddr dirty }.buffer :=
    slot_setElem _
  rw [h]
  exact Function.update_eq_self_iff.mpr PcElem.buffer_orDirty

theorem slot_noteMarked (dirty : Bool) : (s.noteMarked i dirty).slot = s.slot := by
  unfold noteMarked
  split
  · split <;> rfl
  · rfl

@[simp] theorem slots_setDirty (dirty : Bool) : (s.setDirty i dirty).slots c = s.slots c :=
  congrArg (tableList c.max) (slot_setDirty dirty)

@[simp] theorem slots_noteMarked (dirty : Bool) : (s.noteMarked i dirty).slots c = s.slots c :=
  congrArg (tableList c.max) (slot_noteMarked dirty)

theorem elems_noteMarked (dirty : Bool) : (s.noteMarked i dirty).elems = s.elems := by
  unfold noteMarked
  split
  · split <;> rfl
  · rfl

theorem allPut_slot {n : Nat} :
    (allPut i n s).slot j = if i ≤ j ∧ j < i + n then none else s.slot j := by
  induction n generalizing i s with
  | zero => rw [if_neg (by omega)]; rfl
  | succ n ih =>
    unfold allPut
    rw [ih, slot_evict]
    by_cases hj : j = i
    · subst hj
      rw [if_neg (by omega), if_pos (by omega), Function.update_self]
    · rw [Function.update_of_ne hj]
      by_cases hin : i + 1 ≤ j ∧ j < i + 1 + n
      · rw [if_pos hin, if_pos (by omega)]
      · rw [if_neg hin, if_neg (by omega)]

theorem pcFlush_slots (h : s.pcVersion ≠ 0) : (s.pcFlush c).slots c = [] := by
  unfold pcFlush
  rw [if_pos h]
  refine List.filterMap_eq_nil_iff.mpr fun j hj => ?_
  have hlt := List.mem_range.mp hj
  exact allPut_slot.trans (if_pos ⟨Nat.zero_le j, by omega⟩)

theorem pcPtr_of_slot {b : Buffer} (hb : s.slot i = some b) : (s.elems i).pcPtr = b.ptr := by
  unfold slot PcElem.buffer at hb
  split at hb <;> cases hb
  rfl

theorem pcLen_of_slot {b : Buffer} (hb : s.slot i = some b) : (s.elems i).pcLen = b.len := by
  unfold slot PcElem.buffer at hb
  split at hb <;> cases hb
  rfl

/-! ## What holds of every slot -/

/-- Every buffer in a slot meets `Q`, and an empty slot has no pointer. -/
structure AllSlots (Q : Buffer → Prop) (s : PtrCache) : Prop where
  holds : ∀ i b, s.slot i = some b → Q b
  absent : ∀ i, s.slot i = none → (s.elems i).pcPtr = 0

theorem elems_putElem : (s.putElem i).elems = Function.update s.elems i .zero := rfl

theorem elems_setDirty_self {dirty : Bool} : (s.setDirty i dirty).elems i =
    { s.elems i with pcAddr := PcElem.orDirty (s.elems i).pcAddr dirty } := elems_setElem _

theorem elems_setDirty_of_ne {dirty : Bool} (h : j ≠ i) :
    (s.setDirty i dirty).elems j = s.elems j := elems_setElem_of_ne _ h

theorem pcPtr_setDirty (dirty : Bool) :
    ((s.setDirty i dirty).elems j).pcPtr = (s.elems j).pcPtr := by
  by_cases hji : j = i
  · rw [hji, elems_setDirty_self]
  · rw [elems_setDirty_of_ne hji]

section AllSlots

variable {Q : Buffer → Prop}

theorem AllSlots.init : AllSlots Q init where
  holds := by
    intro i b hb
    cases PcElem.buffer_zero.symm.trans hb
  absent := fun _ _ => rfl

theorem AllSlots.putElem (h : AllSlots Q s) (i : Nat) : AllSlots Q (s.putElem i) where
  holds := by
    intro j b hb
    rw [slot_putElem] at hb
    by_cases hji : j = i
    · rw [hji, Function.update_self] at hb
      cases hb
    · rw [Function.update_of_ne hji] at hb
      exact h.holds j b hb
  absent := by
    intro j hj
    rw [slot_putElem] at hj
    rw [elems_putElem]
    by_cases hji : j = i
    · rw [hji, Function.update_self]
      rfl
    · rw [Function.update_of_ne hji] at hj ⊢
      exact h.absent j hj

theorem AllSlots.evict (h : AllSlots Q s) (i : Nat) : AllSlots Q (s.evict i) := by
  unfold PtrCache.evict
  split
  · exact h.putElem i
  · exact h

theorem AllSlots.call (h : AllSlots Q s) (x : PcCall) : AllSlots Q (s.call x) :=
  ⟨h.holds, h.absent⟩

theorem AllSlots.setWrite (h : AllSlots Q s) (w : Bool) : AllSlots Q (s.setWrite w) :=
  ⟨h.holds, h.absent⟩

theorem AllSlots.fill {e : PcElem} {b : Buffer} (h : AllSlots Q s) (i : Nat)
    (he : e.buffer = some b) (hb : Q b) : AllSlots Q (s.setElem i e) where
  holds := by
    intro j b' hj
    rw [slot_setElem] at hj
    by_cases hji : j = i
    · rw [hji, Function.update_self, he, Option.some.injEq] at hj
      rwa [← hj]
    · rw [Function.update_of_ne hji] at hj
      exact h.holds j b' hj
  absent := by
    intro j hj
    rw [slot_setElem] at hj
    by_cases hji : j = i
    · rw [hji, Function.update_self, he] at hj
      cases hj
    · rw [Function.update_of_ne hji] at hj
      rw [elems_setElem_of_ne e hji]
      exact h.absent j hj

theorem AllSlots.setDirty (h : AllSlots Q s) (i : Nat) (dirty : Bool) :
    AllSlots Q (s.setDirty i dirty) where
  holds := by
    rw [slot_setDirty]
    exact h.holds
  absent := by
    intro j hj
    rw [slot_setDirty] at hj
    rw [pcPtr_setDirty]
    exact h.absent j hj

theorem AllSlots.noteMarked (h : AllSlots Q s) (i : Nat) (dirty : Bool) :
    AllSlots Q (s.noteMarked i dirty) where
  holds := by
    rw [slot_noteMarked]
    exact h.holds
  absent := by
    rw [slot_noteMarked, elems_noteMarked]
    exact h.absent

end AllSlots

/-! ## The ledger -/

theorem entries_call (x : PcCall) : (s.call x).entries = s.entries ++ x.entry.toList := by
  simp only [entries, call, List.filterMap_append, List.filterMap_cons, List.filterMap_nil]
  cases x.entry <;> rfl

@[simp] theorem entries_setElem (e : PcElem) : (s.setElem i e).entries = s.entries := rfl

@[simp] theorem entries_setWrite (w : Bool) : (s.setWrite w).entries = s.entries := rfl

@[simp] theorem entries_setDirty (dirty : Bool) : (s.setDirty i dirty).entries = s.entries := rfl

@[simp] theorem entries_noteMarked (dirty : Bool) : (s.noteMarked i dirty).entries = s.entries := by
  unfold noteMarked
  split
  · split
    · rw [entries_call]
      exact List.append_nil _
    · rfl
  · rfl

/-! ## `_PC_GET` -/

theorem getElem_granted {a len : Nat} {r : GetReply} (h : r.granted len = true) :
    s.getElem i a len r = ((s.evict i).call (.got (getBuffer r a len))).setElem i
      ⟨PcElem.orPresent a, len, r.physAddr⟩ := by
  have hs : r.success = true := (Bool.and_eq_true_iff.mp h).1
  simp only [getElem, hs, h, if_true]

theorem getElem_refused {a len : Nat} {r : GetReply} (h : ¬ r.granted len = true) :
    s.getElem i a len r =
      if r.success then (s.evict i).call (.got (getBuffer r a len)) else s.evict i := by
  simp only [getElem, if_neg h]

/-- The slot of `addr` is for `addr` when the tag says so. -/
theorem misses_iff {addr : Nat} {b : Buffer} (hbase : c.baseAddr2 addr % 4 = 0)
    (hb : s.slot (c.hash addr) = some b) :
    s.misses c addr = true ↔ b.logAddr ≠ c.baseAddr2 addr := by
  have hp : (s.elems (c.hash addr)).isPresent = true := by
    by_contra hp
    cases (PcElem.buffer_none hp).symm.trans hb
  have hlog := (PcElem.buffer_some hp).symm.trans hb
  cases hlog
  exact decide_eq_true_iff.trans (not_congr (PcElem.hit_iff hbase (of_decide_eq_true hp)))

/-- A get that fails leaves the slot empty. -/
theorem fetch_refused {addr len : Nat} {r : GetReply} (hm : s.misses c addr = true)
    (hg : ¬ r.granted (c.baseLen (c.baseOffset addr) len) = true) :
    (s.fetch c addr len r).slot (c.hash addr) = none := by
  unfold fetch
  rw [if_pos hm, getElem_refused hg]
  split
  · exact slot_evict_call _
  · exact slot_evict_self

/-- A slot that `PC_GET` leaves filled is for the block of `addr`. -/
theorem fetch_logAddr {addr len : Nat} {r : GetReply} {b : Buffer}
    (hbase : c.baseAddr2 addr % 4 = 0)
    (hb : (s.fetch c addr len r).slot (c.hash addr) = some b) : b.logAddr = c.baseAddr2 addr := by
  by_cases hm : s.misses c addr = true
  · by_cases hg : r.granted (c.baseLen (c.baseOffset addr) len) = true
    · unfold fetch at hb
      rw [if_pos hm, getElem_granted hg, slot_setElem, Function.update_self, PcConfig.baseAddr,
        PcElem.buffer_orPresent, PcElem.clearBits_orPresent, PcElem.clearBits_eq hbase] at hb
      cases hb
      rfl
    · cases (fetch_refused hm hg).symm.trans hb
  · unfold fetch at hb
    rw [if_neg hm] at hb
    exact not_not.mp (mt (misses_iff hbase hb).mpr hm)

/-- `PC_GET` leaves a slot empty only after a get that fails. -/
theorem fetch_none {addr len : Nat} {r : GetReply} (hbase : c.baseAddr2 addr % 4 = 0)
    (hb : (s.fetch c addr len r).slot (c.hash addr) = none) :
    s.misses c addr = true ∧ r.granted (c.baseLen (c.baseOffset addr) len) = false := by
  unfold fetch at hb
  by_cases hm : s.misses c addr = true
  · refine ⟨hm, Bool.eq_false_iff.mpr fun hg => ?_⟩
    rw [if_pos hm, getElem_granted hg, slot_setElem, Function.update_self,
      PcElem.buffer_orPresent] at hb
    cases hb
  · rw [if_neg hm] at hb
    have hhit := not_not.mp (mt decide_eq_true hm)
    have hp := (PcElem.hit hbase hhit).1
    cases (PcElem.buffer_some (decide_eq_true hp)).symm.trans hb

/-- The other slots stay as they are. -/
theorem slot_fetch_of_ne {addr len : Nat} {r : GetReply} (h : j ≠ c.hash addr) :
    (s.fetch c addr len r).slot j = s.slot j := by
  have hevict : (s.evict (c.hash addr)).slot j = s.slot j := by
    rw [slot_evict, Function.update_of_ne h]
  unfold fetch
  split
  · by_cases hg : r.granted (c.baseLen (c.baseOffset addr) len) = true
    · rw [getElem_granted hg, slot_setElem, Function.update_of_ne h]
      exact hevict
    · rw [getElem_refused hg]
      split <;> exact hevict
  · rfl

theorem slot_lookUp {addr len : Nat} {dirty : Bool} {r : GetReply} :
    (s.lookUp c addr len dirty r).slot = (s.fetch c addr len r).slot := by
  unfold lookUp
  rw [slot_noteMarked, slot_setDirty]

/-! ## `_PC_ALLOC` -/

/-- The slot of a new piece after `PC_ALLOC`. -/
def allocElem (c : PcConfig) (r : CreateReply) : PcElem :=
  ⟨PcElem.orDirty (PcElem.orPresent (c.baseAddr r.logAddr)) true, r.logLen, r.physAddr⟩

/-- The buffer that `$gadrcreateget` returns. -/
def allocBuffer (r : CreateReply) : Buffer := ⟨r.physAddr, r.logAddr, min r.logLen r.physLen⟩

theorem pcAlloc_some {len : Nat} {r : CreateReply} {x : Nat × Nat × PtrCache}
    (h : s.pcAlloc c len r = some x) : r.success = true ∧
      x = (r.physAddr, PcElem.clearBits (c.baseAddr r.logAddr),
        ((((s.call (.got (allocBuffer r))).evict (c.hash r.logAddr)).setElem (c.hash r.logAddr)
          (allocElem c r)).setWrite true).noteMarked (c.hash r.logAddr) true) := by
  unfold pcAlloc at h
  dsimp only at h
  split at h
  · cases h
  · rename_i hok
    rw [Option.some.injEq] at h
    refine ⟨not_not.mp fun hs => hok (.inl hs), ?_⟩
    rw [← h, elems_noteMarked, elems_setWrite, elems_setElem, PcElem.clearBits_orDirty,
      PcElem.clearBits_orPresent]
    rfl

/-! ## The ledger and the slots -/

/-- A way to compare the ledger with the slots. A slot may remember a buffer other than the one that
has been got, as long as they are the same one for `same`. -/
structure Account (same : Buffer → Buffer → Prop)
    (P : List (Booking Buffer) → List Buffer → Prop) : Prop where
  perm : ∀ es l l', P es l → l.Perm l' → P es l'
  take : ∀ es l b b', same b b' → P es l → P (es ++ [.take b]) (b' :: l)
  give : ∀ es l b, P es (b :: l) → P (es ++ [.give b]) l

section Account

variable {same : Buffer → Buffer → Prop} {P : List (Booking Buffer) → List Buffer → Prop}
  {X : List Buffer}

theorem Account.putElem (hP : Account same P) (hi : i < c.max)
    (hpres : (s.elems i).isPresent = true) (h : P s.entries (X ++ s.slots c)) :
    P (s.putElem i).entries (X ++ (s.putElem i).slots c) := by
  have hslot : s.slot i = some _ := PcElem.buffer_some hpres
  have hperm := slots_perm (s := s) hi
  rw [hslot] at hperm
  have hcons := hP.perm _ _ _ h ((hperm.append_left X).trans List.perm_middle)
  have hgive := hP.give _ _ _ hcons
  unfold PtrCache.slots
  rw [slot_putElem]
  unfold PtrCache.putElem
  rw [entries_setElem, entries_call]
  exact hgive

theorem Account.evict (hP : Account same P) (hi : i < c.max)
    (h : P s.entries (X ++ s.slots c)) :
    P (s.evict i).entries (X ++ (s.evict i).slots c) := by
  unfold PtrCache.evict
  split
  · rename_i hpres
    exact hP.putElem hi hpres h
  · exact h

theorem Account.allPut (hP : Account same P) {n : Nat} (hn : i + n ≤ c.max)
    (h : P s.entries (s.slots c)) :
    P (allPut i n s).entries ((PtrCache.allPut i n s).slots c) := by
  induction n generalizing i s with
  | zero => exact h
  | succ n ih => exact ih (by omega) (hP.evict (X := []) (by omega) h)

theorem Account.flush (hP : Account same P) (h : P s.entries (s.slots c)) :
    P (s.pcFlush c).entries ((s.pcFlush c).slots c) := by
  unfold pcFlush
  split
  · exact hP.allPut (by omega) h
  · exact h

/-- What has been taken goes into an empty slot. -/
theorem Account.fill (hP : Account same P) {e : PcElem} {b : Buffer} (hi : i < c.max)
    (hnone : s.slot i = none) (he : e.buffer = some b)
    (h : P s.entries (b :: s.slots c)) :
    P (s.setElem i e).entries ((s.setElem i e).slots c) := by
  have hperm := slots_setElem (s := s) e hi
  rw [he, update_none hnone] at hperm
  exact hP.perm _ _ _ h hperm.symm

theorem Account.call (hP : Account same P) {b d : Buffer} {x : PcCall}
    (hx : x.entry = some (.take b)) (hb : same b d) (h : P s.entries (s.slots c)) :
    P (s.call x).entries (d :: (s.call x).slots c) := by
  rw [entries_call, hx]
  exact hP.take _ _ _ _ hb h

end Account

end PtrCache

end Athomux
