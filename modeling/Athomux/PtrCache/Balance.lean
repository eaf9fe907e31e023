import Athomux.PtrCache.Proofs

/-!
# What the pointer cache gets and puts

The ledger of the calls against the slots. A physical buffer is known by its address in memory.
-/

namespace Athomux

open Lib

namespace PtrCache

variable {c : PcConfig} {s : PtrCache}

/-- The calls as a ledger of physical buffers. -/
def pointers (es : List (Booking Buffer)) : List (Booking Nat) := es.map (Booking.map Buffer.ptr)

/-- Every put was of a buffer that had been got and not put, and what has been got and not put is
what the slots hold, each buffer as often. -/
def Balanced (c : PcConfig) (s : PtrCache) : Prop :=
  Ledger.Settles (pointers s.entries) ((s.slots c).map Buffer.ptr)

/-- The steps that keep the balance: a get that succeeds returns as much as was asked for, `PC_SET`
gets the start of a buffer at the offset that the address has, and nothing is freed. -/
def Keeps (c : PcConfig) (s : PtrCache) : Event → Prop
  | .get addr len _ r =>
    s.misses c addr = true → r.success = true → c.baseLen (c.baseOffset addr) len ≤ r.physLen
  | .set _ _ ptr _ own => own.ptr = c.maskPtr ptr
  | .free _ _ => False
  | _ => True

instance (c : PcConfig) (s : PtrCache) : (e : Event) → Decidable (Keeps c s e)
  | .get addr len _ r => inferInstanceAs (Decidable (s.misses c addr = true → r.success = true →
      c.baseLen (c.baseOffset addr) len ≤ r.physLen))
  | .set _ _ ptr _ own => inferInstanceAs (Decidable (own.ptr = c.maskPtr ptr))
  | .free _ _ => inferInstanceAs (Decidable False)
  | .unset _ => inferInstanceAs (Decidable True)
  | .dirty _ => inferInstanceAs (Decidable True)
  | .alloc _ _ => inferInstanceAs (Decidable True)
  | .flush => inferInstanceAs (Decidable True)

/-! ## One step -/

/-- The ledger of physical buffers is a way to compare. -/
theorem account_pointers : Account (fun b b' => b.ptr = b'.ptr)
    (fun es l => Ledger.Settles (pointers es) (l.map Buffer.ptr)) where
  perm := fun _ _ _ h hp => h.perm (hp.map _)
  take := by
    intro es l b b' hb h
    unfold pointers
    rw [List.map_append, List.map_cons (l := l), ← hb]
    exact h.take
  give := by
    intro es l b h
    unfold pointers
    rw [List.map_append]
    exact h.give

theorem Balanced.init : init.Balanced c := by
  have h : (PtrCache.init).slots c = [] :=
    List.filterMap_eq_nil_iff.mpr fun _ _ => PcElem.buffer_zero
  unfold Balanced
  rw [h]
  exact Ledger.Settles.nil

theorem Balanced.setDirty (h : s.Balanced c) (i : Nat) (dirty : Bool) :
    (s.setDirty i dirty).Balanced c := by
  unfold Balanced
  rw [entries_setDirty, slots_setDirty]
  exact h

theorem Balanced.setWrite (h : s.Balanced c) (w : Bool) : (s.setWrite w).Balanced c := h

theorem Balanced.noteMarked (h : s.Balanced c) (i : Nat) (dirty : Bool) :
    (s.noteMarked i dirty).Balanced c := by
  unfold Balanced
  rw [entries_noteMarked, slots_noteMarked]
  exact h

theorem Balanced.evict (h : s.Balanced c) (addr : Nat) : (s.evict (c.hash addr)).Balanced c :=
  account_pointers.evict (X := []) (hash_lt addr) h

theorem Balanced.getElem (h : s.Balanced c) (addr a len : Nat) (r : GetReply)
    (hr : r.success = true → len ≤ r.physLen) :
    (s.getElem (c.hash addr) a len r).Balanced c := by
  have he := h.evict addr
  by_cases hs : r.success = true
  · have hg : r.granted len = true := by simp [GetReply.granted, hs, hr hs]
    rw [getElem_granted hg]
    have hcall := account_pointers.call (x := .got (getBuffer r a len))
      (d := ⟨r.physAddr, PcElem.clearBits a, len⟩) rfl rfl he
    exact account_pointers.fill (hash_lt addr) (slot_evict_call _) PcElem.buffer_orPresent hcall
  · have hg : ¬ r.granted len = true := by simp [GetReply.granted, hs]
    rw [getElem_refused hg, if_neg hs]
    exact he

theorem Balanced.lookUp (h : s.Balanced c) {addr len : Nat} {dirty : Bool} {r : GetReply}
    (hk : Keeps c s (.get addr len dirty r)) : (s.lookUp c addr len dirty r).Balanced c := by
  refine Balanced.noteMarked (Balanced.setDirty ?_ _ _) _ _
  unfold fetch
  split
  · rename_i hmiss
    exact h.getElem addr _ _ r (hk hmiss)
  · exact h

theorem Balanced.set (h : s.Balanced c) {addr len ptr : Nat} {dirty : Bool} {own : Buffer}
    (hk : own.ptr = c.maskPtr ptr) : (s.pcSet c addr len ptr dirty own).Balanced c := by
  have he := h.evict addr
  unfold pcSet
  refine Balanced.noteMarked (Balanced.setWrite ?_ _) _ _
  have hcall := account_pointers.call (x := .handed own)
    (d := ⟨c.maskPtr ptr, PcElem.clearBits (c.baseAddr2 addr), c.baseLen (c.baseOffset addr) len⟩)
    rfl hk he
  exact account_pointers.fill (hash_lt addr) (slot_evict_call _)
    (PcElem.buffer_orDirty.trans PcElem.buffer_orPresent) hcall

theorem Balanced.dirty (h : s.Balanced c) (addr : Nat) : (s.pcDirty c addr).Balanced c := by
  unfold pcDirty
  refine Balanced.noteMarked ?_ _ _
  split
  · exact h
  · exact h.setDirty _ _

theorem Balanced.alloc (h : s.Balanced c) {len : Nat} {r : CreateReply} {x : Nat × Nat × PtrCache}
    (hx : s.pcAlloc c len r = some x) : x.2.2.Balanced c := by
  rw [(pcAlloc_some hx).2]
  have hcall := account_pointers.call (x := .got (allocBuffer r))
    (d := ⟨r.physAddr, PcElem.clearBits (c.baseAddr r.logAddr), r.logLen⟩) rfl rfl h
  have he := account_pointers.evict (X := [_]) (hash_lt (c := c) r.logAddr) hcall
  refine Balanced.noteMarked (Balanced.setWrite ?_ _) _ _
  exact account_pointers.fill (hash_lt _) slot_evict_self
    (PcElem.buffer_orDirty.trans PcElem.buffer_orPresent) he

theorem Balanced.flush (h : s.Balanced c) : (s.pcFlush c).Balanced c :=
  account_pointers.flush h

theorem Balanced.step {t : PtrCache} {e : Event} (h : s.Balanced c) (hk : Keeps c s e)
    (hstep : s.step c e = some t) : t.Balanced c := by
  cases e with
  | get addr len dirty r => cases hstep; exact h.lookUp hk
  | set addr len ptr dirty own => cases hstep; exact h.set hk
  | unset addr => cases hstep; exact h.evict addr
  | dirty addr => cases hstep; exact h.dirty addr
  | alloc len r =>
    obtain ⟨x, hx, rfl⟩ := Option.map_eq_some_iff.mp hstep
    exact h.alloc hx
  | free addr len => exact hk.elim
  | flush => cases hstep; exact h.flush

/-! ## All runs -/

/-- **What is got is put once, and nothing else is.** In a run of such steps the slots hold what has
been got and not put, and a flush puts all of it. -/
theorem gets_are_put (c : PcConfig) {s : PtrCache}
    (h : Reach (step c) (· = init) (Keeps c) s) :
    s.Balanced c ∧ (s.pcVersion ≠ 0 → Ledger.Settles (pointers (s.pcFlush c).entries) []) := by
  have hbal : s.Balanced c :=
    h.invariant (by rintro _ rfl; exact .init) (fun _ _ _ hi hk hs => hi.step hk hs)
  refine ⟨hbal, fun hv => ?_⟩
  have hflush := hbal.flush
  unfold Balanced at hflush
  rwa [pcFlush_slots hv] at hflush

/-- A buffer is got and then put when another address has its slot. -/
theorem gets_are_put_evicted :
    ∃ s, Reach (step .plain) (· = init) (Keeps .plain) s ∧
      s.Balanced .plain ∧
        (s.pcVersion ≠ 0 → Ledger.Settles (pointers (s.pcFlush .plain).entries) []) := by
  have hrun : (run (step .plain) (Keeps .plain) init
      [.get 8 8 true ⟨true, 4096, 8⟩, .get 136 8 false ⟨true, 8192, 16⟩]).isSome = true := by
    decide
  obtain ⟨s, hs⟩ := Option.isSome_iff_exists.mp hrun
  have hreach : Reach (step .plain) (· = init) (Keeps .plain) s := .of_run (.start rfl) hs
  exact ⟨s, hreach, gets_are_put .plain hreach⟩

/-- A get that returns less than was asked for is never put. -/
theorem gets_not_put :
    ¬ ∀ (c : PcConfig) (s : PtrCache), Reach (step c) (· = init) anyEvent s →
      s.Balanced c := by
  intro h
  have hrun : (run (step .plain) anyEvent init [.get 8 8 false ⟨true, 4096, 4⟩]).map
      (fun s => (Ledger.outstanding [] (pointers s.entries), s.slots .plain)) =
        some ([4096], []) := by
    decide
  obtain ⟨s, hs, heq⟩ := Option.map_eq_some_iff.mp hrun
  have hbal := (h .plain s (Reach.of_run (.start rfl) hs)).2
  rw [Prod.mk.injEq] at heq
  rw [heq.1, heq.2] at hbal
  exact absurd hbal.length_eq (by decide)

-- `PC_FREE` puts a buffer that is not held.
example : ¬ Ledger.Sound [] (pointers (init.pcFree .plain 8 8).entries) := by decide

end PtrCache

end Athomux
