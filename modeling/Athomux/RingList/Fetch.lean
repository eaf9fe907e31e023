import Athomux.RingList.View

/-!
# A get and the pointer it gives

What a get puts is in the nest afterwards, so all of it is read as before. The pointer is good until
its slot is used for something else.
-/

open Lib

namespace Athomux.RingList

variable {c : PcConfig} {m : Store} {i j x addr n : Nat} {b : Buffer} {r : GetReply}

/-- The pointer `p` for `addr` is into a buffer that is held, has the whole link, and is marked when
it is to be written to. -/
def Pinned (c : PcConfig) (m : Store) (dirty : Bool) (addr p : Nat) : Prop :=
  ∃ b, m.cache.slot (c.hash addr) = some b ∧
    (dirty = true → (m.cache.elems (c.hash addr)).isDirty = true) ∧
    b.logAddr ≤ addr ∧ addr + sizeofLink ≤ b.logAddr + b.len ∧ p = b.ptr + (addr - b.logAddr)

/-- The same for a pointer to `n` bytes. -/
def Holds (c : PcConfig) (m : Store) (dirty : Bool) (n addr p : Nat) : Prop :=
  ∃ b, m.cache.slot (c.hash addr) = some b ∧
    (dirty = true → (m.cache.elems (c.hash addr)).isDirty = true) ∧
    b.logAddr ≤ addr ∧ addr + n ≤ b.logAddr + b.len ∧ p = b.ptr + (addr - b.logAddr)

/-- A get of `addr` gives `n` bytes. -/
def Reaches (c : PcConfig) (m : Store) (n addr : Nat) (r : GetReply) : Prop :=
  let len := c.baseLen (c.baseOffset addr) c.whole
  c.baseAddr2 addr % 4 = 0 ∧
    if m.cache.misses c addr then
      r.granted len = true ∧ c.baseOffset addr + n ≤ len ∧ r.physAddr + len ≤ addrSpace ∧
        ∀ i b, i ≠ c.hash addr → m.cache.slot i = some b →
          Apart b.logAddr b.len (c.baseAddr2 addr) len ∧ Apart b.ptr b.len r.physAddr len
    else c.baseOffset addr + n ≤ (m.cache.elems (c.hash addr)).pcLen

theorem Reaches.mono {k : Nat} (h : Reaches c m n addr r) (hk : k ≤ n) : Reaches c m k addr r := by
  obtain ⟨hbase, h⟩ := h
  refine ⟨hbase, ?_⟩
  split at h
  · rename_i hm
    obtain ⟨hg, hlen, hfits, hapart⟩ := h
    rw [if_pos hm]
    exact ⟨hg, by omega, hfits, hapart⟩
  · rename_i hm
    rw [if_neg hm]
    omega

/-! ## An empty slot is filled -/

/-- What a call with a new slot leaves. -/
theorem after_call_setElem {e : PcElem} {call : PcCall} :
    m.after ((m.cache.call call).setElem i e) =
      ⟨(m.cache.call call).setElem i e, (effect (m.nest, m.phys) call).1,
        (effect (m.nest, m.phys) call).2, m.stores⟩ :=
  after_append [call] rfl

section fill

variable {e : PcElem} (h : Coherent c m) (hi : i < c.max) (hnone : m.cache.slot i = none)
  (he : e.buffer = some b) (hfits : b.ptr + b.len ≤ addrSpace)
  (hapart : ∀ j d, j ≠ i → m.cache.slot j = some d →
    Apart d.logAddr d.len b.logAddr b.len ∧ Apart d.ptr d.len b.ptr b.len)

include he in
theorem slot_fill : (m.after ((m.cache.call (.got b)).setElem i e)).cache.slot i = some b := by
  change ((m.cache.call (.got b)).setElem i e).slot i = some b
  rw [PtrCache.slot_setElem, Function.update_self, he]

include he in
theorem slot_fill_some {d : Buffer}
    (hd : (m.after ((m.cache.call (.got b)).setElem i e)).cache.slot j = some d) :
    (j = i ∧ d = b) ∨ (j ≠ i ∧ m.cache.slot j = some d) := by
  change ((m.cache.call (.got b)).setElem i e).slot j = some d at hd
  rw [PtrCache.slot_setElem] at hd
  by_cases hj : j = i
  · rw [hj, Function.update_self, he] at hd
    exact .inl ⟨hj, (Option.some.inj hd).symm⟩
  · rw [Function.update_of_ne hj] at hd
    exact .inr ⟨hj, hd⟩

theorem nest_fill : (m.after ((m.cache.call (.got b)).setElem i e)).nest = m.nest := by
  rw [after_call_setElem]
  rfl

/-- The bytes of the new buffer are those of the nest. -/
theorem phys_fill {k : Nat} (hk : k < b.len) :
    (m.after ((m.cache.call (.got b)).setElem i e)).phys (b.ptr + k) = m.nest (b.logAddr + k) := by
  rw [after_call_setElem]
  have hk' : k < (m.nest.load b.logAddr b.len).length := by rwa [ByteMem.load_length]
  simp only [effect]
  rw [ByteMem.store_get _ _ _ hk', ByteMem.load_get]

include hapart in
theorem phys_fill_other {d : Buffer} {k : Nat} (hj : j ≠ i) (hd : m.cache.slot j = some d)
    (hk : k < d.len) :
    (m.after ((m.cache.call (.got b)).setElem i e)).phys (d.ptr + k) = m.phys (d.ptr + k) := by
  rw [after_call_setElem]
  refine ByteMem.store_apart _ _ ?_
  rw [ByteMem.load_length]
  have := (hapart j d hj hd).2
  unfold Apart at this
  omega

theorem apart_comm {x n y k : Nat} (h : Apart x n y k) : Apart y k x n := Or.symm h

include h hi he hfits hapart in
theorem coherent_fill : Coherent c (m.after ((m.cache.call (.got b)).setElem i e)) where
  bound := by
    intro j d hd
    rcases slot_fill_some he hd with ⟨rfl, -⟩ | ⟨-, hd⟩
    · exact hi
    · exact h.bound j d hd
  clean := by
    intro j d hd hclean k hk
    rw [nest_fill]
    rcases slot_fill_some he hd with ⟨-, rfl⟩ | ⟨hj, hd⟩
    · exact phys_fill hk
    · rw [phys_fill_other hapart hj hd hk]
      refine h.clean j d hd (fun hdj => hclean ?_) k hk
      change (((m.cache.call (.got b)).setElem i e).elems j).isDirty = true
      rw [PtrCache.elems_setElem_of_ne e hj]
      exact hdj
  apart := by
    intro j k d d' hjk hd hd'
    rcases slot_fill_some he hd with ⟨rfl, rfl⟩ | ⟨hj, hjd⟩
    · rcases slot_fill_some he hd' with ⟨rfl, -⟩ | ⟨hk, hkd⟩
      · exact absurd rfl hjk
      · exact (hapart k d' hk hkd).imp apart_comm apart_comm
    · rcases slot_fill_some he hd' with ⟨rfl, rfl⟩ | ⟨-, hkd⟩
      · exact hapart j d hj hjd
      · exact h.apart j k d d' hjk hjd hkd
  fits := by
    intro j d hd
    rcases slot_fill_some he hd with ⟨-, rfl⟩ | ⟨-, hd⟩
    · exact hfits
    · exact h.fits j d hd

include h hi hnone he hfits hapart in
theorem view_fill : (m.after ((m.cache.call (.got b)).setElem i e)).view c = m.view c := by
  have h' := coherent_fill h hi he hfits hapart
  refine view_ext h (fun x hx => ?_) fun j d x hd hx => ?_
  · by_cases hb : Covers b x
    · obtain ⟨k, rfl⟩ := Nat.exists_eq_add_of_le hb.1
      rw [view_of_slot h' (slot_fill he) hb, Nat.add_sub_cancel_left]
      exact phys_fill (by have := hb.2; omega)
    · rw [view_of_none, nest_fill]
      intro j d hd
      rcases slot_fill_some he hd with ⟨-, rfl⟩ | ⟨-, hd⟩
      · exact hb
      · exact hx j d hd
  · have hj : j ≠ i := by
      rintro rfl
      cases hnone.symm.trans hd
    have hslot : (m.after ((m.cache.call (.got b)).setElem i e)).cache.slot j = some d := by
      change ((m.cache.call (.got b)).setElem i e).slot j = some d
      rw [PtrCache.slot_setElem, Function.update_of_ne hj]
      exact hd
    rw [view_of_slot h' hslot hx]
    exact phys_fill_other hapart hj hd (by have := hx.1; have := hx.2; omega)

end fill

/-! ## A get -/

theorem baseAddr2_add (addr : Nat) : c.baseAddr2 addr + c.baseOffset addr = addr :=
  Nat.div_add_mod' addr c.whole

theorem getBuffer_granted {len : Nat} (hbase : c.baseAddr2 addr % 4 = 0) (hg : r.granted len = true) :
    PtrCache.getBuffer r (c.baseAddr addr) len = ⟨r.physAddr, c.baseAddr2 addr, len⟩ := by
  have hlen : len ≤ r.physLen := of_decide_eq_true (Bool.and_eq_true_iff.mp hg).2
  rw [PtrCache.getBuffer, PcConfig.baseAddr, PcElem.clearBits_orPresent, PcElem.clearBits_eq hbase,
    Nat.min_eq_left hlen]

theorem fetch_missed (hm : m.cache.misses c addr = true)
    (hg : r.granted (c.baseLen (c.baseOffset addr) c.whole) = true) :
    m.cache.fetch c addr c.whole r = ((m.cache.evict (c.hash addr)).call
      (.got (PtrCache.getBuffer r (c.baseAddr addr) (c.baseLen (c.baseOffset addr) c.whole)))).setElem
        (c.hash addr) ⟨PcElem.orPresent (c.baseAddr addr),
          c.baseLen (c.baseOffset addr) c.whole, r.physAddr⟩ := by
  unfold PtrCache.fetch
  rw [if_pos hm, PtrCache.getElem_granted hg]

/-- The cache with the bytes in the slot of `addr`, and all bytes as before. -/
theorem fetch_spec (h : Coherent c m) (hf : Reaches c m n addr r) :
    Coherent c (m.after (m.cache.fetch c addr c.whole r)) ∧
      (m.after (m.cache.fetch c addr c.whole r)).view c = m.view c ∧
      ∃ b, (m.cache.fetch c addr c.whole r).slot (c.hash addr) = some b ∧
        b.logAddr = c.baseAddr2 addr ∧ c.baseOffset addr + n ≤ b.len := by
  obtain ⟨hbase, hf⟩ := hf
  by_cases hm : m.cache.misses c addr = true
  · rw [if_pos hm] at hf
    obtain ⟨hg, hlen, hfits, hapart⟩ := hf
    have hev := coherent_evict h (c.hash addr)
    have hfetch := fetch_missed hm hg
    rw [getBuffer_granted hbase hg] at hfetch
    have hbuf : PcElem.buffer ⟨PcElem.orPresent (c.baseAddr addr),
        c.baseLen (c.baseOffset addr) c.whole, r.physAddr⟩ =
          some ⟨r.physAddr, c.baseAddr2 addr, c.baseLen (c.baseOffset addr) c.whole⟩ := by
      rw [PcElem.buffer_orPresent, PcConfig.baseAddr, PcElem.clearBits_orPresent,
        PcElem.clearBits_eq hbase]
    have hafter : m.after (m.cache.fetch c addr c.whole r) =
        (m.after (m.cache.evict (c.hash addr))).after (m.cache.fetch c addr c.whole r) := by
      refine (after_after (calls_evict _ _) ?_).symm
      rw [hfetch]
      exact ⟨_, rfl⟩
    have hnone : (m.after (m.cache.evict (c.hash addr))).cache.slot (c.hash addr) = none :=
      PtrCache.slot_evict_self
    have hothers : ∀ j d, j ≠ c.hash addr →
        (m.after (m.cache.evict (c.hash addr))).cache.slot j = some d →
        Apart d.logAddr d.len (c.baseAddr2 addr) (c.baseLen (c.baseOffset addr) c.whole) ∧
          Apart d.ptr d.len r.physAddr (c.baseLen (c.baseOffset addr) c.whole) :=
      fun j d hj hd => hapart j d hj (slot_evict_some hd).2
    rw [hafter, hfetch]
    refine ⟨coherent_fill hev (PtrCache.hash_lt addr) hbuf hfits hothers, ?_,
      ⟨r.physAddr, c.baseAddr2 addr, c.baseLen (c.baseOffset addr) c.whole⟩, ?_, rfl, hlen⟩
    swap
    · rw [PtrCache.slot_setElem, Function.update_self]
      exact hbuf
    rw [← view_evict h (c.hash addr)]
    exact view_fill hev (PtrCache.hash_lt addr) hnone hbuf hfits hothers
  · rw [if_neg hm] at hf
    have hfetch : m.cache.fetch c addr c.whole r = m.cache := if_neg hm
    cases hb : (m.cache.fetch c addr c.whole r).slot (c.hash addr) with
    | none => exact absurd (PtrCache.fetch_none hbase hb).1 hm
    | some b =>
      have hlog := PtrCache.fetch_logAddr hbase hb
      rw [hfetch] at hb ⊢
      refine ⟨?_, ?_, b, rfl, hlog, ?_⟩
      · rw [after_same rfl]
        exact h
      · rw [after_same rfl]
      · rw [PtrCache.pcLen_of_slot hb] at hf
        exact hf

/-- What is held for `held` stays. -/
theorem fetch_keeps {held : Nat} (hk : Keeps c m addr held) :
    (m.cache.fetch c addr c.whole r).elems (c.hash held) = m.cache.elems (c.hash held) := by
  by_cases hm : m.cache.misses c addr = true
  · have hne := hk hm
    unfold PtrCache.fetch PtrCache.getElem
    rw [if_pos hm]
    split <;> split <;>
      simp only [PtrCache.elems_setElem_of_ne _ hne, PtrCache.elems_call, elems_evict_of_ne _ hne]
  · unfold PtrCache.fetch
    rw [if_neg hm]

theorem after_lookUp (hp : m.cache.calls <+: (m.cache.fetch c addr c.whole r).calls) (dirty : Bool) :
    m.after (m.cache.lookUp c addr c.whole dirty r) =
      ⟨m.cache.lookUp c addr c.whole dirty r, (m.after (m.cache.fetch c addr c.whole r)).nest,
        (m.after (m.cache.fetch c addr c.whole r)).phys, m.stores⟩ := by
  obtain ⟨xs, hxs⟩ := hp
  have hcalls : ∃ ys, (m.cache.lookUp c addr c.whole dirty r).calls =
      (m.cache.fetch c addr c.whole r).calls ++ ys ∧ ∀ mem, ys.foldl effect mem = mem := by
    unfold PtrCache.lookUp PtrCache.noteMarked
    split
    · split
      · exact ⟨_, rfl, fun _ => rfl⟩
      · exact ⟨[], (List.append_nil _).symm, fun _ => rfl⟩
    · exact ⟨[], (List.append_nil _).symm, fun _ => rfl⟩
  obtain ⟨ys, hys, hnone⟩ := hcalls
  rw [after_append (xs ++ ys) (by rw [hys, ← hxs, List.append_assoc]),
    after_append _ hxs.symm, List.foldl_append, hnone]

theorem calls_fetch : m.cache.calls <+: (m.cache.fetch c addr c.whole r).calls := by
  unfold PtrCache.fetch PtrCache.getElem
  split
  · refine (calls_evict _ (c.hash addr)).trans ?_
    split <;> split
    · exact ⟨_, rfl⟩
    · exact ⟨_, rfl⟩
    · exact List.prefix_rfl
    · exact List.prefix_rfl
  · exact List.prefix_rfl

/-- What a get leaves, and where it points. -/
structure Got (c : PcConfig) (m m' : Store) (addr p : Nat) (dirty : Bool) : Prop where
  coherent : Coherent c m'
  view : m'.view c = m.view c
  stores : m'.stores = m.stores
  pinned : Pinned c m' dirty addr p

theorem get_reaches (h : Coherent c m) (hf : Reaches c m n addr r) (hn : 0 < n) (dirty : Bool) :
    Coherent c (m.get c addr dirty r).2 ∧ (m.get c addr dirty r).2.view c = m.view c ∧
      Holds c (m.get c addr dirty r).2 dirty n addr (m.get c addr dirty r).1 := by
  obtain ⟨hco, hview, b, hb, hlog, hlen⟩ := fetch_spec h hf
  have hafter : (m.get c addr dirty r).2 = _ := after_lookUp calls_fetch dirty
  have hslot : (m.cache.lookUp c addr c.whole dirty r).slot =
      (m.cache.fetch c addr c.whole r).slot := PtrCache.slot_lookUp
  have hfits := hco.fits _ b hb
  refine ⟨?_, ?_, b, ?_, ?_, ?_, ?_, ?_⟩
  · rw [hafter]
    refine ⟨fun i b hb => hco.bound i b ?_, fun i b hb hd => hco.clean i b ?_ fun hd' => hd ?_,
      fun i j b d hij hb hd => hco.apart i j b d hij ?_ ?_, fun i b hb => hco.fits i b ?_⟩
    · exact hslot ▸ hb
    · exact hslot ▸ hb
    · change ((m.cache.lookUp c addr c.whole dirty r).elems i).isDirty = true
      rw [PtrCache.lookUp, PtrCache.elems_noteMarked]
      exact PtrCache.isDirty_setDirty hd'
    · exact hslot ▸ hb
    · exact hslot ▸ hd
    · exact hslot ▸ hb
  · rw [← hview, hafter]
    funext x
    unfold Store.view PtrCache.slots
    rw [hslot]
    rfl
  · change (m.cache.lookUp c addr c.whole dirty r).slot (c.hash addr) = some b
    rw [hslot, hb]
  · intro hd
    change ((m.cache.lookUp c addr c.whole dirty r).elems (c.hash addr)).isDirty = true
    rw [PtrCache.lookUp, PtrCache.elems_noteMarked, PtrCache.elems_setDirty_self, hd]
    exact decide_eq_true PcElem.orDirty_mod
  · have := baseAddr2_add (c := c) addr
    omega
  · have := baseAddr2_add (c := c) addr
    omega
  · have hptr : ((m.cache.lookUp c addr c.whole dirty r).elems (c.hash addr)).pcPtr = b.ptr :=
      PtrCache.pcPtr_of_slot (by rw [hslot, hb])
    have haddr := baseAddr2_add (c := c) addr
    change add64 ((m.cache.lookUp c addr c.whole dirty r).elems (c.hash addr)).pcPtr
      (c.baseOffset addr) = _
    rw [hptr, add64_eq (by omega)]
    omega

theorem get_spec (h : Coherent c m) (hf : Fetches c m addr r) (dirty : Bool) :
    Got c m (m.get c addr dirty r).2 addr (m.get c addr dirty r).1 dirty := by
  obtain ⟨hco, hview, hholds⟩ := get_reaches (n := sizeofLink) h hf (by decide) dirty
  exact ⟨hco, hview, rfl, hholds⟩

/-- A pointer is good after a get that puts something else. -/
theorem Holds.get {held p : Nat} {d : Bool} (h : Holds c m d n held p) (hk : Keeps c m addr held)
    (r : GetReply) (dirty : Bool) : Holds c (m.get c addr dirty r).2 d n held p := by
  obtain ⟨b, hb, hd, hlog, hlen, hp⟩ := h
  have helems := fetch_keeps (r := r) hk
  refine ⟨b, ?_, fun hdirty => ?_, hlog, hlen, hp⟩
  · change (m.cache.lookUp c addr c.whole dirty r).slot (c.hash held) = some b
    rw [PtrCache.slot_lookUp, PtrCache.slot, helems]
    exact hb
  · change ((m.cache.lookUp c addr c.whole dirty r).elems (c.hash held)).isDirty = true
    rw [PtrCache.lookUp, PtrCache.elems_noteMarked]
    refine PtrCache.isDirty_setDirty ?_
    rw [helems]
    exact hd hdirty

theorem Pinned.get {held p : Nat} {d : Bool} (h : Pinned c m d held p) (hk : Keeps c m addr held)
    (r : GetReply) (dirty : Bool) : Pinned c (m.get c addr dirty r).2 d held p :=
  Holds.get (n := sizeofLink) h hk r dirty

/-! ## Loads and stores through a pointer -/

variable {p k : Nat}

theorem Holds.phys (h : Coherent c m) {d : Bool} (hp : Holds c m d n addr p) (hk : k < n) :
    m.phys (p + k) = m.view c (addr + k) := by
  obtain ⟨b, hb, -, hlog, hlen, rfl⟩ := hp
  rw [view_of_slot h hb ⟨by omega, by omega⟩]
  congr 1
  omega

/-- A field of 8 bytes. -/
theorem Holds.peek (h : Coherent c m) {d : Bool} (hp : Holds c m d n addr p) (hk : k + 8 ≤ n) :
    m.peek (p + k) = ofBytes ((m.view c).load (addr + k) 8) := by
  refine congrArg ofBytes (List.map_congr_left fun i hi => ?_)
  have hi := List.mem_range.mp hi
  rw [Nat.add_assoc, Nat.add_assoc]
  exact hp.phys h (by omega)

theorem peek_eq (h : Coherent c m) {d : Bool} (hp : Pinned c m d addr p) :
    m.peek p = nextAt (m.view c) addr :=
  Holds.peek (n := sizeofLink) (k := 0) h hp (by decide)

theorem peek_prev_eq (h : Coherent c m) {d : Bool} (hp : Pinned c m d addr p) :
    m.peek (p + prevField) = prevAt (m.view c) addr :=
  Holds.peek (n := sizeofLink) (k := prevField) h hp (by decide)

theorem Holds.coherent_poke (h : Coherent c m) {y : Nat} (hp : Holds c m true n addr p)
    (hk : k + 8 ≤ n) : Coherent c (m.poke (p + k) y) where
  bound := h.bound
  apart := h.apart
  fits := h.fits
  clean := by
    obtain ⟨b, hb, hdirty, hlog, hlen, rfl⟩ := hp
    intro i d hd hclean q hq
    have hi : i ≠ c.hash addr := by
      rintro rfl
      exact hclean (hdirty rfl)
    have hapart := (h.apart i _ d b hi hd hb).2
    have hother : (m.poke (b.ptr + (addr - b.logAddr) + k) y).phys (d.ptr + q) =
        m.phys (d.ptr + q) := by
      refine ByteMem.store_apart _ _ ?_
      rw [toBytes_length]
      unfold Apart at hapart
      omega
    rw [hother]
    exact h.clean i d hd hclean q hq

/-- A store through a pointer that is still good is one to the bytes that it is for. -/
theorem Holds.view_poke (h : Coherent c m) {y : Nat} (hp : Holds c m true n addr p)
    (hk : k + 8 ≤ n) :
    (m.poke (p + k) y).view c = (m.view c).store (addr + k) (toBytes 8 y) := by
  have h' := hp.coherent_poke (y := y) h hk
  obtain ⟨b, hb, -, hlog, hlen, rfl⟩ := hp
  funext x
  by_cases hx : ∃ i d, m.cache.slot i = some d ∧ Covers d x
  · obtain ⟨i, d, hd, hx⟩ := hx
    rw [view_of_slot h' hd hx]
    change m.phys.store _ _ _ = _
    by_cases hin : addr + k ≤ x ∧ x < addr + k + 8
    · have hbx : Covers b x := ⟨by omega, by omega⟩
      obtain rfl : d = b := by
        by_cases hi : i = c.hash addr
        · rw [hi, hb] at hd
          exact (Option.some.inj hd).symm
        · have := (h.apart i _ d b hi hd hb).1
          unfold Covers at hx hbx
          unfold Apart at this
          omega
      obtain ⟨q, rfl⟩ := Nat.exists_eq_add_of_le hin.1
      have hq : q < (toBytes 8 y).length := by
        rw [toBytes_length]
        omega
      have hptr : d.ptr + (addr + k + q - d.logAddr) = d.ptr + (addr - d.logAddr) + k + q := by omega
      rw [hptr, ByteMem.store_get _ _ _ hq, ByteMem.store_get _ _ _ hq]
    · have hlen8 : (toBytes 8 y).length = 8 := toBytes_length 8 y
      rw [ByteMem.store_apart (m.view c) _ (by rw [hlen8]; omega), view_of_slot h hd hx]
      refine ByteMem.store_apart _ _ ?_
      rw [hlen8]
      by_cases hi : i = c.hash addr
      · rw [hi, hb] at hd
        cases hd
        have := hx.1
        omega
      · have := (h.apart i _ d b hi hd hb).2
        unfold Covers at hx
        unfold Apart at this
        omega
  · have hx' : ∀ i d, m.cache.slot i = some d → ¬ Covers d x := fun i d hd hc => hx ⟨i, d, hd, hc⟩
    rw [view_of_none (m := m.poke _ y) hx']
    change m.nest x = _
    rw [ByteMem.store_apart, view_of_none hx']
    have := hx' _ b hb
    rw [toBytes_length]
    unfold Covers at this
    omega

theorem coherent_poke (h : Coherent c m) {y : Nat} (hp : Pinned c m true addr p)
    (hk : k + 8 ≤ sizeofLink) : Coherent c (m.poke (p + k) y) :=
  Holds.coherent_poke (n := sizeofLink) h hp hk

theorem view_poke (h : Coherent c m) {y : Nat} (hp : Pinned c m true addr p)
    (hk : k + 8 ≤ sizeofLink) :
    (m.poke (p + k) y).view c = (m.view c).store (addr + k) (toBytes 8 y) :=
  Holds.view_poke (n := sizeofLink) h hp hk

end Athomux.RingList
