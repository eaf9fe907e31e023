import Athomux.PtrCache.Coherence
import Athomux.RingList.Spec

/-!
# What is read through the cache

A get changes nothing that is read through the cache, whatever it puts for it. A store through a
pointer that is still good changes what is read there, and nothing else.
-/

open Lib

namespace Athomux.RingList

variable {c : PcConfig} {m : Store} {i j x addr : Nat} {b : Buffer} {r : GetReply}

/-- The slots hold different bytes in different places, and only what is marked differs from the
nest. -/
structure Coherent (c : PcConfig) (m : Store) : Prop where
  bound : ∀ i b, m.cache.slot i = some b → i < c.max
  clean : ∀ i b, m.cache.slot i = some b → ¬ (m.cache.elems i).isDirty = true →
    ∀ k < b.len, m.phys (b.ptr + k) = m.nest (b.logAddr + k)
  apart : ∀ i j b d, i ≠ j → m.cache.slot i = some b → m.cache.slot j = some d →
    Apart b.logAddr b.len d.logAddr d.len ∧ Apart b.ptr b.len d.ptr d.len
  fits : ∀ i b, m.cache.slot i = some b → b.ptr + b.len ≤ addrSpace

/-! ## The view -/

theorem covers_of_find {l : List Buffer} (h : l.find? (fun b => Covers b x) = some b) :
    Covers b x := by
  have hb := List.find?_some h
  exact of_decide_eq_true hb

theorem view_of_slot (h : Coherent c m) (hb : m.cache.slot i = some b) (hx : Covers b x) :
    m.view c x = m.phys (b.ptr + (x - b.logAddr)) := by
  unfold Store.view
  cases hfind : (m.cache.slots c).find? (fun b => Covers b x) with
  | none =>
    have hmem : b ∈ m.cache.slots c := PtrCache.mem_slots.mpr ⟨i, h.bound i b hb, hb⟩
    have := List.find?_eq_none.mp hfind b hmem
    exact absurd (decide_eq_true hx) this
  | some d =>
    obtain ⟨j, -, hj⟩ := PtrCache.mem_slots.mp (List.mem_of_find?_eq_some hfind)
    have hd : Covers d x := covers_of_find hfind
    by_cases hij : i = j
    · rw [← hij, hb] at hj
      cases hj
      rfl
    · have hlog := (h.apart i j b d hij hb hj).1
      unfold Apart at hlog
      unfold Covers at hx hd
      omega

theorem view_of_none (h : ∀ i b, m.cache.slot i = some b → ¬ Covers b x) :
    m.view c x = m.nest x := by
  unfold Store.view
  cases hfind : (m.cache.slots c).find? (fun b => Covers b x) with
  | none => rfl
  | some d =>
    obtain ⟨j, -, hj⟩ := PtrCache.mem_slots.mp (List.mem_of_find?_eq_some hfind)
    exact absurd (covers_of_find hfind) (h j d hj)

/-- Two states are read in the same way when every byte is. -/
theorem view_ext {m' : Store} (h : Coherent c m)
    (hnone : ∀ x, (∀ i b, m.cache.slot i = some b → ¬ Covers b x) → m'.view c x = m.nest x)
    (hslot : ∀ i b x, m.cache.slot i = some b → Covers b x →
      m'.view c x = m.phys (b.ptr + (x - b.logAddr))) : m'.view c = m.view c := by
  funext x
  by_cases hx : ∃ i b, m.cache.slot i = some b ∧ Covers b x
  · obtain ⟨i, b, hb, hx⟩ := hx
    rw [hslot i b x hb hx, view_of_slot h hb hx]
  · have hx' : ∀ i b, m.cache.slot i = some b → ¬ Covers b x := fun i b hb hc => hx ⟨i, b, hb, hc⟩
    rw [hnone x hx', view_of_none hx']

/-! ## Calls one after the other -/

theorem after_append {t : PtrCache} (xs : List PcCall) (h : t.calls = m.cache.calls ++ xs) :
    m.after t = ⟨t, (xs.foldl effect (m.nest, m.phys)).1, (xs.foldl effect (m.nest, m.phys)).2,
      m.stores⟩ := by
  unfold Store.after
  rw [h, List.drop_left]

theorem after_after {s t : PtrCache} (hs : m.cache.calls <+: s.calls) (ht : s.calls <+: t.calls) :
    (m.after s).after t = m.after t := by
  obtain ⟨xs, hxs⟩ := hs
  obtain ⟨ys, hys⟩ := ht
  have hxy : t.calls = m.cache.calls ++ (xs ++ ys) := by rw [← hys, ← hxs, List.append_assoc]
  rw [after_append _ hxy, after_append _ hxs.symm]
  have hys' : t.calls = (Store.mk s (xs.foldl effect (m.nest, m.phys)).1
      (xs.foldl effect (m.nest, m.phys)).2 m.stores).cache.calls ++ ys := hys.symm
  rw [after_append _ hys', List.foldl_append]

/-- Nothing is called. -/
theorem after_same {t : PtrCache} (h : t.calls = m.cache.calls) : m.after t = ⟨t, m.nest, m.phys, m.stores⟩ :=
  after_append [] (by rw [h, List.append_nil])

/-! ## A put -/

theorem calls_evict (s : PtrCache) (i : Nat) : s.calls <+: (s.evict i).calls := by
  unfold PtrCache.evict
  split
  · exact ⟨_, rfl⟩
  · exact List.prefix_rfl

theorem after_evict_none (h : m.cache.slot i = none) : m.after (m.cache.evict i) = m := by
  have hp : ¬ (m.cache.elems i).isPresent = true := fun hp => by
    cases h.symm.trans (PcElem.buffer_some hp)
  unfold PtrCache.evict
  rw [if_neg hp]
  exact after_same rfl

/-- What is put is what has been read. -/
theorem nest_evict (h : Coherent c m) (hb : m.cache.slot i = some b) :
    (Covers b x → (m.after (m.cache.evict i)).nest x = m.phys (b.ptr + (x - b.logAddr))) ∧
      (¬ Covers b x → (m.after (m.cache.evict i)).nest x = m.nest x) ∧
      (m.after (m.cache.evict i)).phys = m.phys := by
  have hp : (m.cache.elems i).isPresent = true := by
    by_contra hp
    cases (PcElem.buffer_none hp).symm.trans hb
  have heq := (PcElem.buffer_some hp).symm.trans hb
  have hcalls : (m.cache.evict i).calls = m.cache.calls ++
      [.put b (if (m.cache.elems i).isDirty then .background else .none)] := by
    unfold PtrCache.evict PtrCache.putElem
    rw [if_pos hp]
    cases heq
    rfl
  rw [after_append _ hcalls]
  by_cases hd : (m.cache.elems i).isDirty = true
  · simp only [hd, if_true, List.foldl_cons, List.foldl_nil, effect]
    refine ⟨fun hx => ?_, fun hx => ?_, trivial⟩
    · obtain ⟨k, rfl⟩ := Nat.exists_eq_add_of_le hx.1
      have hk : k < (m.phys.load b.ptr b.len).length := by
        rw [ByteMem.load_length]
        have := hx.2
        omega
      rw [ByteMem.store_get _ _ _ hk, ByteMem.load_get, Nat.add_sub_cancel_left]
    · refine ByteMem.store_apart _ _ ?_
      rw [ByteMem.load_length]
      unfold Covers at hx
      omega
  · simp only [hd, Bool.false_eq_true, if_false, List.foldl_cons, List.foldl_nil, effect]
    refine ⟨fun hx => ?_, fun _ => trivial, trivial⟩
    obtain ⟨k, rfl⟩ := Nat.exists_eq_add_of_le hx.1
    rw [Nat.add_sub_cancel_left]
    exact (h.clean i b hb hd k (by have := hx.2; omega)).symm

theorem elems_evict_of_ne (s : PtrCache) (h : j ≠ i) : (s.evict i).elems j = s.elems j := by
  unfold PtrCache.evict
  split
  · rw [PtrCache.elems_putElem, Function.update_of_ne h]
  · rfl

/-- Another slot after a put. -/
theorem slot_evict_some {s : PtrCache} (h : (s.evict i).slot j = some b) :
    j ≠ i ∧ s.slot j = some b := by
  rw [PtrCache.slot_evict] at h
  by_cases hj : j = i
  · rw [hj, Function.update_self] at h
    cases h
  · rw [Function.update_of_ne hj] at h
    exact ⟨hj, h⟩

theorem coherent_evict (h : Coherent c m) (i : Nat) : Coherent c (m.after (m.cache.evict i)) where
  bound := fun j b hj => h.bound j b (slot_evict_some hj).2
  apart := fun j k b d hjk hj hk => h.apart j k b d hjk (slot_evict_some hj).2 (slot_evict_some hk).2
  fits := fun j b hj => h.fits j b (slot_evict_some hj).2
  clean := by
    intro j d hj hd k hk
    obtain ⟨hji, hj'⟩ := slot_evict_some hj
    have hd' : ¬ (m.cache.elems j).isDirty = true := by
      rw [← elems_evict_of_ne m.cache hji]
      exact hd
    cases hb : m.cache.slot i with
    | none =>
      rw [after_evict_none hb]
      exact h.clean j d hj' hd' k hk
    | some b =>
      obtain ⟨-, hout, hphys⟩ := nest_evict (x := d.logAddr + k) h hb
      have hno : ¬ Covers b (d.logAddr + k) := by
        have := (h.apart j i d b hji hj' hb).1
        unfold Apart at this
        unfold Covers
        omega
      rw [hphys, hout hno]
      exact h.clean j d hj' hd' k hk

theorem view_evict (h : Coherent c m) (i : Nat) :
    (m.after (m.cache.evict i)).view c = m.view c := by
  cases hb : m.cache.slot i with
  | none => rw [after_evict_none hb]
  | some b =>
    have h' := coherent_evict h i
    refine view_ext h (fun x hx => ?_) fun j d x hd hx => ?_
    · rw [view_of_none fun j d hj => hx j d (slot_evict_some hj).2]
      exact (nest_evict h hb).2.1 (hx i b hb)
    · by_cases hji : j = i
      · rw [hji, hb] at hd
        cases hd
        rw [view_of_none, (nest_evict h hb).1 hx]
        intro k e hk hek
        obtain ⟨hki, hk'⟩ := slot_evict_some hk
        have := (h.apart k i e b hki hk' hb).1
        unfold Apart at this
        unfold Covers at hx hek
        omega
      · have hslot : (m.after (m.cache.evict i)).cache.slot j = some d := by
          change (m.cache.evict i).slot j = some d
          rw [PtrCache.slot_evict, Function.update_of_ne hji]
          exact hd
        rw [view_of_slot h' hslot hx, (nest_evict (x := x) h hb).2.2]

end Athomux.RingList
