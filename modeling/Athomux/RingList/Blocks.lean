import Athomux.RingList.Contract

/-!
# Blocks in a ring

`PC_ALLOC` and `PC_FREE` of an element, and the fields of `struct block_t` behind its link.
-/

open Lib

namespace Athomux.RingList

variable {c : PcConfig} {m m' : Store} {i j x y addr n len : Nat} {b : Buffer} {r : GetReply}

/-! ## `PC_ALLOC` and `PC_FREE` -/

/-- `PC_ALLOC`: the pointer, the address, and the store. -/
def Store.alloc (c : PcConfig) (m : Store) (len : Nat) (r : CreateReply) :
    Option (Nat × Nat × Store) :=
  (m.cache.pcAlloc c len r).map fun x => (x.1, x.2.1, m.after x.2.2)

/-- `PC_FREE`. -/
def Store.free (c : PcConfig) (m : Store) (addr len : Nat) : Store :=
  m.after (m.cache.pcFree c addr len)

/-- The nest hands out a piece and memory for it that are not in use. -/
structure Allocates (c : PcConfig) (m : Store) (len : Nat) (r : CreateReply) : Prop where
  success : r.success = true
  room : c.baseLen 0 len ≤ r.logLen ∧ len ≤ r.logLen ∧ r.logLen ≤ r.physLen
  piece : c.baseAddr2 r.logAddr = r.logAddr ∧ r.logAddr % 4 = 0
  fits : r.physAddr + r.logLen ≤ addrSpace
  apart : ∀ i b, m.cache.slot i = some b →
    Apart b.logAddr b.len r.logAddr r.logLen ∧ Apart b.ptr b.len r.physAddr r.logLen

/-- Calls that have no effect. -/
theorem after_quiet {t : PtrCache} (ys : List PcCall) (hys : t.calls = m.cache.calls ++ ys)
    (hquiet : ∀ mem, ys.foldl effect mem = mem) : m.after t = ⟨t, m.nest, m.phys, m.stores⟩ := by
  rw [after_append ys hys, hquiet]

/-- Memory that no slot points to has become something else. -/
theorem coherent_phys {t : PtrCache} (phys : ByteMem) (h : Coherent c m) (hslot : t.slot = m.cache.slot)
    (helems : t.elems = m.cache.elems)
    (hphys : ∀ i b, m.cache.slot i = some b → ∀ k < b.len, phys (b.ptr + k) = m.phys (b.ptr + k)) :
    Coherent c ⟨t, m.nest, phys, m.stores⟩ ∧ (Store.view c ⟨t, m.nest, phys, m.stores⟩) = m.view c := by
  have hco : Coherent c ⟨t, m.nest, phys, m.stores⟩ := by
    refine ⟨fun i b hb => h.bound i b ?_, fun i b hb hd k hk => ?_,
      fun i j b d hij hb hd => h.apart i j b d hij ?_ ?_, fun i b hb => h.fits i b ?_⟩
    · exact hslot ▸ hb
    · have hb : m.cache.slot i = some b := hslot ▸ hb
      refine (hphys i b hb k hk).trans (h.clean i b hb (fun hd' => hd ?_) k hk)
      exact helems ▸ hd'
    · exact hslot ▸ hb
    · exact hslot ▸ hd
    · exact hslot ▸ hb
  refine ⟨hco, view_ext h (fun x hx => view_of_none fun i b hb => hx i b (hslot ▸ hb)) ?_⟩
  intro i b x hb hx
  rw [view_of_slot hco (show t.slot i = some b from hslot ▸ hb) hx]
  exact hphys i b hb _ (by have := hx.1; have := hx.2; omega)

/-- An empty slot gets a marked buffer. -/
theorem coherent_slot {t : PtrCache} (h : Coherent c m) (hi : i < c.max)
    (hnone : m.cache.slot i = none) (hslot : t.slot = Function.update m.cache.slot i (some b))
    (helems : ∀ j, j ≠ i → t.elems j = m.cache.elems j) (hdirty : (t.elems i).isDirty = true)
    (hfits : b.ptr + b.len ≤ addrSpace)
    (hapart : ∀ j d, m.cache.slot j = some d →
      Apart d.logAddr d.len b.logAddr b.len ∧ Apart d.ptr d.len b.ptr b.len) :
    Coherent c ⟨t, m.nest, m.phys, m.stores⟩ ∧
      ∀ x, ¬ Covers b x → Store.view c ⟨t, m.nest, m.phys, m.stores⟩ x = m.view c x := by
  have hcases : ∀ j d, t.slot j = some d → (j = i ∧ d = b) ∨ (j ≠ i ∧ m.cache.slot j = some d) := by
    intro j d hd
    rw [hslot] at hd
    by_cases hj : j = i
    · rw [hj, Function.update_self] at hd
      exact .inl ⟨hj, (Option.some.inj hd).symm⟩
    · rw [Function.update_of_ne hj] at hd
      exact .inr ⟨hj, hd⟩
  have hco : Coherent c ⟨t, m.nest, m.phys, m.stores⟩ := by
    refine ⟨fun j d hd => ?_, fun j d hd hclean k hk => ?_, fun j k d d' hjk hd hd' => ?_,
      fun j d hd => ?_⟩
    · rcases hcases j d hd with ⟨rfl, -⟩ | ⟨-, hd⟩
      · exact hi
      · exact h.bound j d hd
    · rcases hcases j d hd with ⟨rfl, -⟩ | ⟨hj, hd⟩
      · exact absurd hdirty hclean
      · refine h.clean j d hd (fun hd' => hclean ?_) k hk
        exact (helems j hj).symm ▸ hd'
    · rcases hcases j d hd with ⟨rfl, rfl⟩ | ⟨-, hjd⟩
      · rcases hcases k d' hd' with ⟨rfl, -⟩ | ⟨-, hkd⟩
        · exact absurd rfl hjk
        · exact (hapart k d' hkd).imp apart_comm apart_comm
      · rcases hcases k d' hd' with ⟨rfl, rfl⟩ | ⟨-, hkd⟩
        · exact hapart j d hjd
        · exact h.apart j k d d' hjk hjd hkd
    · rcases hcases j d hd with ⟨-, rfl⟩ | ⟨-, hd⟩
      · exact hfits
      · exact h.fits j d hd
  refine ⟨hco, fun x hx => ?_⟩
  by_cases hheld : ∃ j d, m.cache.slot j = some d ∧ Covers d x
  · obtain ⟨j, d, hd, hdx⟩ := hheld
    have hji : j ≠ i := by
      rintro rfl
      cases hnone.symm.trans hd
    have hd' : t.slot j = some d := by
      rw [hslot, Function.update_of_ne hji]
      exact hd
    rw [view_of_slot hco hd' hdx, view_of_slot h hd hdx]
  · rw [view_of_none fun j d hd hdx => hheld ⟨j, d, hd, hdx⟩, view_of_none]
    intro j d hd
    rcases hcases j d hd with ⟨-, rfl⟩ | ⟨-, hd⟩
    · exact hx
    · exact fun hdx => hheld ⟨j, d, hd, hdx⟩

/-- What `PC_ALLOC` leaves. -/
structure Allocated (c : PcConfig) (m m' : Store) (addr n p : Nat) : Prop where
  coherent : Coherent c m'
  view : ∀ x, x < addr ∨ addr + n ≤ x → m'.view c x = m.view c x
  stores : m'.stores = m.stores
  holds : Holds c m' true n addr p
  keeps : ∀ held k q d, c.hash held ≠ c.hash addr → Holds c m d k held q → Holds c m' d k held q

theorem alloc_spec {r : CreateReply} (h : Coherent c m) (ha : Allocates c m len r) :
    ∃ p t, m.alloc c len r = some (p, r.logAddr, t) ∧ Allocated c m t r.logAddr r.logLen p := by
  obtain ⟨hroom, -, hphys⟩ := ha.room
  have hmin : min r.logLen r.physLen = r.logLen := Nat.min_eq_left hphys
  have hbuf : PtrCache.allocBuffer r = ⟨r.physAddr, r.logAddr, r.logLen⟩ := by
    rw [PtrCache.allocBuffer, hmin]
  obtain ⟨x, hx⟩ : ∃ x, m.cache.pcAlloc c len r = some x := by
    unfold PtrCache.pcAlloc
    dsimp only
    rw [if_neg (by rw [ha.success]; simp; omega)]
    exact ⟨_, rfl⟩
  obtain ⟨-, rfl⟩ := PtrCache.pcAlloc_some hx
  have hclear : PcElem.clearBits (c.baseAddr r.logAddr) = r.logAddr := by
    rw [PcConfig.baseAddr, PcElem.clearBits_orPresent, ha.piece.1, PcElem.clearBits_eq ha.piece.2]
  rw [Store.alloc, hx, Option.map_some, hclear]
  refine ⟨r.physAddr, _, rfl, ?_⟩
  rw [hbuf]
  generalize hi : c.hash r.logAddr = i
  -- The memory is filled, the slot is put, and then it is used.
  have hgot : m.after (m.cache.call (.got ⟨r.physAddr, r.logAddr, r.logLen⟩)) =
      ⟨m.cache.call (.got ⟨r.physAddr, r.logAddr, r.logLen⟩), m.nest,
        m.phys.store r.physAddr (m.nest.load r.logAddr r.logLen), m.stores⟩ :=
    after_append [.got ⟨r.physAddr, r.logAddr, r.logLen⟩] rfl
  obtain ⟨hco₁, hview₁⟩ := coherent_phys (t := m.cache.call (.got ⟨r.physAddr, r.logAddr, r.logLen⟩))
    (m.phys.store r.physAddr (m.nest.load r.logAddr r.logLen)) h rfl rfl fun i b hb k hk => by
      refine ByteMem.store_apart _ _ ?_
      rw [ByteMem.load_length]
      have := (ha.apart i b hb).2
      unfold Apart at this
      omega
  rw [← hgot] at hco₁ hview₁
  have hco₂ := coherent_evict hco₁ i
  have hview₂ := view_evict hco₁ i
  have hafter := after_after (m := m) (s := m.cache.call (.got ⟨r.physAddr, r.logAddr, r.logLen⟩))
    ⟨_, rfl⟩ (calls_evict _ i)
  have hcache : (m.after (m.cache.call (.got ⟨r.physAddr, r.logAddr, r.logLen⟩))).cache =
      m.cache.call (.got ⟨r.physAddr, r.logAddr, r.logLen⟩) := rfl
  rw [hcache, hafter] at hco₂ hview₂
  rw [hview₁] at hview₂
  generalize hs₂ : (m.cache.call (.got ⟨r.physAddr, r.logAddr, r.logLen⟩)).evict i = s₂ at *
  have hcalls₂ : m.cache.calls <+: s₂.calls := by
    rw [← hs₂]
    exact (List.prefix_append m.cache.calls [.got ⟨r.physAddr, r.logAddr, r.logLen⟩]).trans
      (calls_evict (m.cache.call (.got ⟨r.physAddr, r.logAddr, r.logLen⟩)) i)
  have hslot₂ : s₂.slot = Function.update m.cache.slot i none := by
    rw [← hs₂, PtrCache.slot_evict]
    rfl
  have helems₂ : ∀ j, j ≠ i → s₂.elems j = m.cache.elems j := fun j hj => by
    rw [← hs₂, elems_evict_of_ne _ hj]
    rfl
  have hbuffer : (PtrCache.allocElem c r).buffer = some ⟨r.physAddr, r.logAddr, r.logLen⟩ := by
    rw [PtrCache.allocElem, PcElem.buffer_orDirty, PcElem.buffer_orPresent, hclear]
  have hslot₃ : (((s₂.setElem i (PtrCache.allocElem c r)).setWrite true).noteMarked i true).slot =
      Function.update s₂.slot i (some ⟨r.physAddr, r.logAddr, r.logLen⟩) := by
    rw [PtrCache.slot_noteMarked, PtrCache.slot_setWrite, PtrCache.slot_setElem, hbuffer]
  have helems₃ : ∀ j, j ≠ i →
      (((s₂.setElem i (PtrCache.allocElem c r)).setWrite true).noteMarked i true).elems j =
        s₂.elems j := fun j hj => by
    rw [PtrCache.elems_noteMarked, PtrCache.elems_setWrite, PtrCache.elems_setElem_of_ne _ hj]
  have hdirty₃ : ((((s₂.setElem i (PtrCache.allocElem c r)).setWrite true).noteMarked i true).elems
      i).isDirty = true := by
    rw [PtrCache.elems_noteMarked, PtrCache.elems_setWrite, PtrCache.elems_setElem]
    exact decide_eq_true PcElem.orDirty_mod
  have hcalls₃ : ∃ ys, (((s₂.setElem i (PtrCache.allocElem c r)).setWrite true).noteMarked i
      true).calls = s₂.calls ++ ys ∧ ∀ mem, ys.foldl effect mem = mem := by
    unfold PtrCache.noteMarked
    split
    · exact ⟨_, rfl, fun _ => rfl⟩
    · exact ⟨[], (List.append_nil _).symm, fun _ => rfl⟩
  generalize ((s₂.setElem i (PtrCache.allocElem c r)).setWrite true).noteMarked i true = t at *
  obtain ⟨ys, hys, hquiet⟩ := hcalls₃
  have hafter₃ : m.after t = ⟨t, (m.after s₂).nest, (m.after s₂).phys, m.stores⟩ := by
    rw [← after_after hcalls₂ (hys ▸ List.prefix_append _ _), after_quiet ys hys hquiet]
    rfl
  have hnone : (m.after s₂).cache.slot i = none := by
    change s₂.slot i = none
    rw [hslot₂, Function.update_self]
  obtain ⟨hco, hview⟩ := coherent_slot (t := t) hco₂ (hi ▸ PtrCache.hash_lt r.logAddr) hnone hslot₃
    helems₃ hdirty₃ ha.fits fun j d hd => by
      have hd : s₂.slot j = some d := hd
      rw [hslot₂] at hd
      by_cases hj : j = i
      · rw [hj, Function.update_self] at hd
        cases hd
      · rw [Function.update_of_ne hj] at hd
        exact ha.apart j d hd
  rw [hafter₃]
  refine ⟨hco, fun x hx => ?_, rfl, ⟨⟨r.physAddr, r.logAddr, r.logLen⟩, ?_, fun _ => ?_,
    Nat.le_refl _, Nat.le_refl _, ?_⟩, fun held k q d hne hq => ?_⟩
  · exact (hview x (by unfold Covers; dsimp only; omega)).trans (congrFun hview₂ x)
  · change t.slot (c.hash r.logAddr) = _
    rw [hi, hslot₃, Function.update_self]
  · rw [hi]
    exact hdirty₃
  · rw [Nat.sub_self, Nat.add_zero]
  · rw [hi] at hne
    obtain ⟨b, hb, hd, hrest⟩ := hq
    refine ⟨b, ?_, fun hdirty => ?_, hrest⟩
    · change t.slot (c.hash held) = some b
      rw [hslot₃, Function.update_of_ne hne, hslot₂, Function.update_of_ne hne]
      exact hb
    · change (t.elems (c.hash held)).isDirty = true
      rw [helems₃ _ hne, helems₂ _ hne]
      exact hd hdirty

/-- `PC_FREE` changes nothing that is read. -/
theorem free_spec (addr len : Nat) (h : Coherent c m) :
    Coherent c (m.free c addr len) ∧ (m.free c addr len).view c = m.view c ∧
      (m.free c addr len).stores = m.stores := by
  have hquiet : ∀ s : PtrCache, m.cache.calls <+: s.calls →
      m.after (s.call (.putDelete ⟨0, addr, len⟩)) =
        ⟨s.call (.putDelete ⟨0, addr, len⟩), (m.after s).nest, (m.after s).phys, m.stores⟩ := by
    intro s hs
    rw [← after_after hs ⟨[.putDelete ⟨0, addr, len⟩], rfl⟩]
    exact after_quiet [.putDelete ⟨0, addr, len⟩] rfl fun _ => rfl
  unfold Store.free PtrCache.pcFree
  dsimp only
  split
  · rename_i hpres
    have hevict : m.cache.putElem (c.hash addr) = m.cache.evict (c.hash addr) := by
      unfold PtrCache.evict
      rw [if_pos hpres.1]
    rw [hevict, hquiet _ (calls_evict _ _)]
    have hco := coherent_evict h (c.hash addr)
    have hview := view_evict h (c.hash addr)
    obtain ⟨hco', hview'⟩ := coherent_phys (t := (m.cache.evict (c.hash addr)).call
      (.putDelete ⟨0, addr, len⟩)) (m.after (m.cache.evict (c.hash addr))).phys hco rfl rfl
      fun _ _ _ _ _ => rfl
    exact ⟨hco', hview'.trans hview, rfl⟩
  · rw [hquiet _ List.prefix_rfl]
    have hsame : m.after m.cache = m := after_same rfl
    rw [hsame]
    obtain ⟨hco', hview'⟩ := coherent_phys (t := m.cache.call (.putDelete ⟨0, addr, len⟩)) m.phys h
      rfl rfl fun _ _ _ _ _ => rfl
    exact ⟨hco', hview', rfl⟩

/-! ## A get that hits -/

/-- A get that hits. -/
theorem reaches_of_hit {n addr : Nat} {r : GetReply} (hbase : c.baseAddr2 addr % 4 = 0)
    (hhit : m.cache.misses c addr = false)
    (hlen : c.baseOffset addr + n ≤ (m.cache.elems (c.hash addr)).pcLen) : Reaches c m n addr r := by
  refine ⟨hbase, ?_⟩
  rw [if_neg (by rw [hhit]; exact Bool.false_ne_true)]
  exact hlen

/-- A get that hits changes nothing. -/
theorem lookUp_hit {addr len : Nat} {r : GetReply} (hhit : m.cache.misses c addr = false) :
    m.cache.lookUp c addr len false r = m.cache := by
  have hfetch : m.cache.fetch c addr len r = m.cache :=
    if_neg (by rw [hhit]; exact Bool.false_ne_true)
  have hdirty : m.cache.setDirty (c.hash addr) false = m.cache := by
    have horDirty (y : Nat) : PcElem.orDirty y false = y := if_neg fun hy => Bool.false_ne_true hy.1
    unfold PtrCache.setDirty PtrCache.setElem PtrCache.setWrite
    simp only [horDirty, Function.update_eq_self, Bool.or_false]
  unfold PtrCache.lookUp PtrCache.noteMarked
  rw [hfetch, hdirty]
  split <;> rfl

theorem liGet_hit {addr : Nat} {r : GetReply} (hhit : m.cache.misses c addr = false) :
    m.liGet c addr false r = ((m.cache.elems (c.hash addr)).pcPtr, m) := by
  unfold Store.liGet
  dsimp only
  rw [lookUp_hit hhit, after_same rfl]

theorem liNext_hit {addr : Nat} {r : GetReply} (hhit : m.cache.misses c addr = false) :
    m.liNext c addr r = (m.peek (m.cache.elems (c.hash addr)).pcPtr, m) := by
  unfold Store.liNext
  dsimp only
  rw [liGet_hit hhit]

/-! ## What the macros leave alone -/

variable {rs : Rings} {l : List Nat} {start elem p q : Nat} {d : Bool} {r0 r1 r2 r3 : GetReply}

/-- A link is changed in its 16 bytes only. -/
def Beside (x e : Nat) : Prop := x < e ∨ e + sizeofLink ≤ x

theorem Connected.beside {left right : Nat} (h : Connected c m m' left right) (hl : Beside x left)
    (hr : Beside x right) : m'.view c x = m.view c x := by
  have hlen (z : Nat) : (toBytes 8 z).length = 8 := toBytes_length 8 z
  unfold Beside sizeofLink at hl hr
  rw [h.view, ByteMem.store_apart _ _ (by rw [hlen]; omega),
    ByteMem.store_apart _ _ (by rw [hlen]; omega)]

theorem Connected.holds {left right : Nat} (h : Connected c m m' left right)
    (hp : Holds c m d n addr p) : Holds c m' d n addr p := by
  unfold Holds
  rw [h.cache]
  exact hp

/-- `LI_PREPEND` changes links of the ring only, and keeps the pointer to `start`. -/
theorem prepend_frame (h : Linked c m ((start :: l : List Nat) ::ₘ rs))
    (hclean : Clean c m (.prepend start elem r1 r2 r3)) :
    (∀ x, Beside x elem → (∀ e ∈ start :: l, Beside x e) →
      (m.liPrepend c start elem r1 r2 r3).view c x = m.view c x) ∧
    ∀ d n q, m.cache.misses c start = false → Holds c m d n start q →
      Holds c (m.liPrepend c start elem r1 r2 r3) d n start q := by
  obtain ⟨hf1, hf2, hf3, hk2, hk3, hk3'⟩ := hclean
  obtain ⟨hg1, h1⟩ := h.get hf1 true
  obtain ⟨hg2, h2⟩ := h1.get hf2 true
  obtain ⟨hg3, h3⟩ := h2.get hf3 true
  have hs2 := hg1.pinned.get hk2 r2 true
  have hs3 := hs2.get hk3 r3 true
  have he3 := hg2.pinned.get hk3' r3 true
  have hmem := h2.ring.prev_mem
  rw [← peek_prev_eq h2.coherent hs2] at hmem
  have hc := connect_spec h3.coherent hg3.pinned he3
  have hc₂ := connect_spec hc.coherent (hc.pinned he3) (hc.pinned hs3)
  refine ⟨fun x hxe hx => ?_, fun d n q hmiss hq => ?_⟩
  · have h12 := (hc₂.beside hxe (hx _ List.mem_cons_self)).trans (hc.beside (hx _ hmem) hxe)
    exact h12.trans (congrFun (hg3.view.trans (hg2.view.trans hg1.view)) x)
  · have hq1 := hq.get (show Keeps c m start start from fun hm => by rw [hmiss] at hm; cases hm) r1 true
    exact hc₂.holds (hc.holds ((hq1.get hk2 r2 true).get hk3 r3 true))

/-- `LI_REMOVE` changes links of the ring only. -/
theorem remove_frame (h : Linked c m ((elem :: l : List Nat) ::ₘ rs))
    (hclean : Clean c m (.remove elem r0 r1 r2)) (hx : ∀ e ∈ elem :: l, Beside x e) :
    (m.liRemove c elem r0 r1 r2).view c x = m.view c x := by
  obtain ⟨hf0, hf1, hf2, hk⟩ := hclean
  obtain ⟨hg0, h0⟩ := h.get hf0 false
  obtain ⟨hg1, h1⟩ := h0.get hf1 true
  obtain ⟨hg2, h2⟩ := h1.get hf2 true
  have hl := hg1.pinned.get hk r2 true
  have hprev := h0.ring.prev_mem
  have hnext := h0.ring.next_mem
  rw [← peek_prev_eq h0.coherent hg0.pinned] at hprev
  rw [← peek_eq h0.coherent hg0.pinned] at hnext
  have hc := connect_spec h2.coherent hl hg2.pinned
  exact (hc.beside (hx _ hprev) (hx _ hnext)).trans
    (congrFun (hg2.view.trans (hg1.view.trans hg0.view)) x)

/-- The links are where they were when their bytes are. -/
theorem Linked.frame (h : Linked c m rs) (hco : Coherent c m')
    (hview : ∀ x ∈ rs.elems, ∀ k < sizeofLink, m'.view c (x + k) = m.view c (x + k))
    (hstores : m'.stores = m.stores) : Linked c m' rs := by
  refine ⟨hco, h.nodup, h.spaced, fun ring hring => ?_, ?_⟩
  · refine (h.rings ring hring).congr (fun x hx => ?_) fun x hx => ?_
    · refine congrArg ofBytes (ByteMem.load_congr fun k hk => ?_)
      exact hview x (mem_elems hring hx) k (by unfold sizeofLink; omega)
    · refine congrArg ofBytes (ByteMem.load_congr fun k hk => ?_)
      rw [Nat.add_assoc]
      exact hview x (mem_elems hring hx) _ (by unfold sizeofLink prevField; omega)
  · unfold Sound
    rw [hstores]
    exact h.sound

end Athomux.RingList
