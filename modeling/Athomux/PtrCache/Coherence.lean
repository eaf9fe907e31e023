import Athomux.PtrCache.Proofs

/-!
# What a pointer from the cache points to

The invariant says that the slots hold what they remember, and that what has been marked is in a
slot with the dirty bit. Each part of a step has a lemma.
-/

namespace Athomux

open Lib

/-- The bytes from `addr` on are in the buffer. -/
def Buffer.Holds (b : Buffer) (addr len : Nat) : Prop :=
  b.logAddr ≤ addr ∧ addr + len ≤ b.logAddr + b.len

namespace PtrCache

variable {c : PcConfig} {s : PtrCache} {i j addr len : Nat} {b : Buffer}
  {r : GetReply}

/-- The steps for which the cache is coherent. A block begins where no bit of its address is one of
the status bits, a get that fails is for its first byte, a hit is not for more than the slot
remembers, the connector returns memory and new pieces begin like blocks, and `pc_version` has not
come round. -/
def Coheres (c : PcConfig) (s : PtrCache) : Event → Prop
  | .get addr len _ r =>
    c.baseAddr2 addr % 4 = 0 ∧ c.baseOffset addr + len ≤ c.baseLen (c.baseOffset addr) len ∧
      (if s.misses c addr then
        r.granted (c.baseLen (c.baseOffset addr) len) = true ∨ c.baseOffset addr = 0
      else c.baseOffset addr + len ≤ (s.elems (c.hash addr)).pcLen) ∧
      (r.success = true → r.physAddr ≠ 0)
  | .set addr len ptr _ own =>
    c.baseAddr2 addr % 4 = 0 ∧
      own = ⟨c.maskPtr ptr, c.baseAddr2 addr, c.baseLen (c.baseOffset addr) len⟩ ∧ own.ptr ≠ 0
  | .dirty addr => c.baseAddr2 addr % 4 = 0
  | .alloc _ r =>
    c.baseAddr2 r.logAddr = r.logAddr ∧ r.logAddr % 4 = 0 ∧ r.logLen ≤ r.physLen ∧ r.physAddr ≠ 0
  | .flush => s.pcVersion ≠ 0
  | _ => True

/-- What holds while `X` has been got and is not in a slot yet. -/
structure Inv (c : PcConfig) (X : List Buffer) (s : PtrCache) : Prop where
  nonnull : AllSlots (·.ptr ≠ 0) s
  backs : Ledger.Backs s.entries (X ++ s.slots c)
  unwritten : ∀ b ∈ s.unwritten, ∃ i < c.max, s.slot i = some b ∧ (s.elems i).isDirty = true

/-! ## What is unwritten -/

@[simp] theorem unwritten_setElem (e : PcElem) : (s.setElem i e).unwritten = s.unwritten := rfl

@[simp] theorem unwritten_setWrite (w : Bool) : (s.setWrite w).unwritten = s.unwritten := rfl

@[simp] theorem unwritten_setDirty (dirty : Bool) :
    (s.setDirty i dirty).unwritten = s.unwritten := rfl

/-- What one more call does to what is unwritten. -/
theorem unwritten_call (x : PcCall) : (s.call x).unwritten =
    match x with
    | .marked b => b :: s.unwritten
    | .put b .background => s.unwritten.filter (· ≠ b)
    | _ => s.unwritten := by
  rw [unwritten, call, List.foldl_append]
  rfl

theorem unwritten_marked : (s.call (.marked b)).unwritten = b :: s.unwritten := unwritten_call _

theorem unwritten_background :
    (s.call (.put b .background)).unwritten = s.unwritten.filter (· ≠ b) := unwritten_call _

theorem unwritten_none : (s.call (.put b .none)).unwritten = s.unwritten := unwritten_call _

theorem unwritten_got : (s.call (.got b)).unwritten = s.unwritten := unwritten_call _

theorem unwritten_handed : (s.call (.handed b)).unwritten = s.unwritten := unwritten_call _

theorem unwritten_putDelete : (s.call (.putDelete b)).unwritten = s.unwritten := unwritten_call _

/-- What is put with its dirty bit is written. -/
theorem mem_unwritten_putElem (h : b ∈ (s.putElem i).unwritten) :
    b ∈ s.unwritten ∧ ((s.elems i).isDirty = true → (s.elems i).isPresent = true →
      s.slot i ≠ some b) := by
  unfold putElem at h
  rw [unwritten_setElem] at h
  by_cases hd : (s.elems i).isDirty = true
  · rw [if_pos hd, unwritten_background, List.mem_filter] at h
    refine ⟨h.1, fun _ hp heq => ?_⟩
    have hb := (PcElem.buffer_some hp).symm.trans heq
    exact of_decide_eq_true h.2 (Option.some.inj hb).symm
  · rw [if_neg hd, unwritten_none] at h
    exact ⟨h, fun h' => absurd h' hd⟩

/-! ## Parts of a step -/

variable {X : List Buffer}

theorem account_backs : Account (· = ·) Ledger.Backs where
  perm := fun _ _ _ h hp => h.perm hp
  take := by
    rintro es l b _ rfl h
    exact h.take
  give := fun _ _ _ h => h.give

theorem mem_slots : b ∈ s.slots c ↔ ∃ i < c.max, s.slot i = some b := mem_tableList

theorem Inv.init : Inv c [] init where
  nonnull := .init
  backs := by
    have h : (PtrCache.init).slots c = [] :=
      List.filterMap_eq_nil_iff.mpr fun _ _ => PcElem.buffer_zero
    rw [h]
    exact Ledger.Backs.nil
  unwritten := by simp [PtrCache.unwritten, PtrCache.init]

theorem Inv.putElem (h : Inv c X s) (hi : i < c.max) (hp : (s.elems i).isPresent = true) :
    Inv c X (s.putElem i) where
  nonnull := h.nonnull.putElem i
  backs := account_backs.putElem hi hp h.backs
  unwritten := by
    intro b hb
    obtain ⟨hold, hne⟩ := mem_unwritten_putElem hb
    obtain ⟨j, hj, hjb, hd⟩ := h.unwritten b hold
    have hji : j ≠ i := by
      rintro rfl
      exact hne hd hp hjb
    refine ⟨j, hj, ?_, ?_⟩
    · rw [slot_putElem, Function.update_of_ne hji]
      exact hjb
    · rw [elems_putElem, Function.update_of_ne hji]
      exact hd

theorem Inv.evict (h : Inv c X s) (hi : i < c.max) : Inv c X (s.evict i) := by
  unfold PtrCache.evict
  split
  · rename_i hp
    exact h.putElem hi hp
  · exact h

theorem Inv.allPut {n : Nat} (h : Inv c X s) (hn : i + n ≤ c.max) :
    Inv c X (PtrCache.allPut i n s) := by
  induction n generalizing i s with
  | zero => exact h
  | succ n ih => exact ih (h.evict (by omega)) (by omega)

/-- A call that is not a mark and puts nothing that a slot holds. -/
theorem Inv.call {Y : List Buffer} {x : PcCall} (h : Inv c X s)
    (hb : Ledger.Backs (s.call x).entries (Y ++ s.slots c))
    (hu : (s.call x).unwritten = s.unwritten) : Inv c Y (s.call x) where
  nonnull := h.nonnull.call x
  backs := hb
  unwritten := by
    rw [hu]
    exact h.unwritten

theorem Inv.take {x : PcCall} (h : Inv c X s) (hx : x.entry = some (.take b))
    (hu : (s.call x).unwritten = s.unwritten) : Inv c (b :: X) (s.call x) := by
  refine h.call ?_ hu
  rw [entries_call, hx]
  exact h.backs.take

/-- What is got and then forgotten. -/
theorem Inv.lose (h : Inv c X s) : Inv c X (s.call (.got b)) := by
  refine h.call ?_ unwritten_got
  rw [entries_call]
  exact h.backs.take_more

/-- What has been got goes into an empty slot. -/
theorem Inv.fill {e : PcElem} (h : Inv c (b :: X) s) (hi : i < c.max) (hnone : s.slot i = none)
    (he : e.buffer = some b) (hb : b.ptr ≠ 0) : Inv c X (s.setElem i e) where
  nonnull := h.nonnull.fill i he hb
  backs := by
    have hperm := slots_setElem (s := s) e hi
    rw [he, update_none hnone] at hperm
    exact h.backs.perm (List.perm_middle.symm.trans (hperm.symm.append_left X))
  unwritten := by
    intro b' hb'
    obtain ⟨j, hj, hjb, hd⟩ := h.unwritten b' hb'
    have hji : j ≠ i := by
      rintro rfl
      rw [hnone] at hjb
      cases hjb
    refine ⟨j, hj, ?_, ?_⟩
    · rw [slot_setElem, Function.update_of_ne hji]
      exact hjb
    · rw [elems_setElem_of_ne e hji]
      exact hd

theorem Inv.setWrite (h : Inv c X s) (w : Bool) : Inv c X (s.setWrite w) :=
  ⟨h.nonnull.setWrite w, h.backs, h.unwritten⟩

/-- No dirty bit is lost. -/
theorem isDirty_setDirty {dirty : Bool} (h : (s.elems j).isDirty = true) :
    ((s.setDirty i dirty).elems j).isDirty = true := by
  by_cases hji : j = i
  · rw [hji] at h ⊢
    rw [elems_setDirty_self]
    exact decide_eq_true (PcElem.le_orDirty (of_decide_eq_true h))
  · rw [elems_setDirty_of_ne hji]
    exact h

theorem Inv.setDirty (h : Inv c X s) (i : Nat) (dirty : Bool) : Inv c X (s.setDirty i dirty) where
  nonnull := h.nonnull.setDirty i dirty
  backs := by
    rw [slots_setDirty, entries_setDirty]
    exact h.backs
  unwritten := by
    intro b hb
    obtain ⟨j, hj, hjb, hd⟩ := h.unwritten b hb
    refine ⟨j, hj, ?_, isDirty_setDirty hd⟩
    rw [slot_setDirty]
    exact hjb

/-- What is marked is in its slot, and has the dirty bit. -/
theorem Inv.noteMarked {dirty : Bool} (h : Inv c X s) (hi : i < c.max)
    (hd : ∀ b, s.slot i = some b → dirty = true → (s.elems i).isDirty = true) :
    Inv c X (s.noteMarked i dirty) where
  nonnull := h.nonnull.noteMarked i dirty
  backs := by
    rw [slots_noteMarked, entries_noteMarked]
    exact h.backs
  unwritten := by
    rw [slot_noteMarked, elems_noteMarked]
    unfold PtrCache.noteMarked
    split
    · rename_i b hb
      split
      · rename_i hdirty
        rw [unwritten_marked]
        intro b' hb'
        rcases List.mem_cons.mp hb' with rfl | hb'
        · exact ⟨i, hi, hb, hd _ hb hdirty⟩
        · exact h.unwritten b' hb'
      · exact h.unwritten
    · exact h.unwritten

/-! ## The operations -/

theorem Inv.getElem (h : Inv c [] s) (hi : i < c.max) {a len : Nat} {r : GetReply}
    (hr : r.success = true → r.physAddr ≠ 0) : Inv c [] (s.getElem i a len r) := by
  have he := h.evict hi
  by_cases hg : r.granted len = true
  · rw [getElem_granted hg]
    have hs := Bool.and_eq_true_iff.mp hg
    have hlen : len ≤ r.physLen := of_decide_eq_true hs.2
    have htake := he.take (x := .got (getBuffer r a len)) rfl unwritten_got
    refine htake.fill hi (slot_evict_call _) ?_ (hr hs.1)
    rw [PcElem.buffer_orPresent, getBuffer, min_eq_left hlen]
  · rw [getElem_refused hg]
    split
    · exact he.lose
    · exact he

theorem Inv.fetch (h : Inv c [] s) {addr len : Nat} {r : GetReply}
    (hr : r.success = true → r.physAddr ≠ 0) : Inv c [] (s.fetch c addr len r) := by
  unfold PtrCache.fetch
  split
  · exact h.getElem (hash_lt addr) hr
  · exact h

theorem Inv.lookUp (h : Inv c [] s) {addr len : Nat} {dirty : Bool} {r : GetReply}
    (hr : r.success = true → r.physAddr ≠ 0) : Inv c [] (s.lookUp c addr len dirty r) := by
  refine Inv.noteMarked ((h.fetch hr).setDirty _ _) (hash_lt addr) ?_
  rintro b - rfl
  rw [elems_setDirty_self]
  exact decide_eq_true PcElem.orDirty_mod

theorem Inv.set (h : Inv c [] s) {addr len ptr : Nat} {dirty : Bool} {own : Buffer}
    (hk : Coheres c s (.set addr len ptr dirty own)) :
    Inv c [] (s.pcSet c addr len ptr dirty own) := by
  obtain ⟨hbase, hown, hptr⟩ := hk
  have he := (h.evict (hash_lt (c := c) addr)).take (x := .handed own) rfl unwritten_handed
  unfold pcSet
  refine Inv.noteMarked (Inv.setWrite ?_ _) (hash_lt addr) ?_
  · refine he.fill (hash_lt addr) (slot_evict_call _) ?_ hptr
    rw [PcElem.buffer_orDirty, PcConfig.baseAddr, PcElem.buffer_orPresent,
      PcElem.clearBits_eq hbase, hown]
  · rintro b - rfl
    rw [elems_setWrite, elems_setElem]
    exact decide_eq_true PcElem.orDirty_mod

theorem Inv.dirty (h : Inv c [] s) {addr : Nat} (hbase : c.baseAddr2 addr % 4 = 0) :
    Inv c [] (s.pcDirty c addr) := by
  unfold pcDirty
  refine Inv.noteMarked ?_ (hash_lt addr) ?_
  · split
    · exact h
    · exact h.setDirty _ _
  · intro b hb hany
    rw [hb] at hany
    have hlog : b.logAddr = c.baseAddr2 addr := of_decide_eq_true hany
    have hslot : s.slot (c.hash addr) = some b := by
      split at hb
      · exact hb
      · rwa [slot_setDirty] at hb
    have hhit : ¬ s.misses c addr = true := fun hm => (misses_iff hbase hslot).mp hm hlog
    rw [if_neg hhit, elems_setDirty_self]
    exact decide_eq_true PcElem.orDirty_mod

theorem Inv.alloc (h : Inv c [] s) {len : Nat} {r : CreateReply} {x : Nat × Nat × PtrCache}
    (hk : Coheres c s (.alloc len r)) (hx : s.pcAlloc c len r = some x) : Inv c [] x.2.2 := by
  obtain ⟨hwhole, hlow, hlen, hptr⟩ := hk
  rw [(pcAlloc_some hx).2]
  have he := (h.take (x := .got (allocBuffer r)) rfl unwritten_got).evict
    (hash_lt (c := c) r.logAddr)
  refine Inv.noteMarked (Inv.setWrite ?_ _) (hash_lt _) ?_
  · refine he.fill (hash_lt _) slot_evict_self ?_ hptr
    unfold allocElem allocBuffer
    rw [PcElem.buffer_orDirty, PcElem.buffer_orPresent, PcConfig.baseAddr, hwhole,
      PcElem.clearBits_orPresent, PcElem.clearBits_eq hlow, min_eq_left hlen]
  · intro b _ _
    rw [elems_setWrite, elems_setElem]
    exact decide_eq_true PcElem.orDirty_mod

/-- The put in `PC_FREE` is of no buffer in a slot, since it has no address. -/
theorem Inv.free (h : Inv c [] s) (addr len : Nat) : Inv c [] (s.pcFree c addr len) := by
  have hput : ∀ {t : PtrCache}, Inv c [] t → Inv c [] (t.call (.putDelete ⟨0, addr, len⟩)) := by
    intro t ht
    refine ht.call ?_ unwritten_putDelete
    rw [entries_call]
    exact ht.backs.give_other fun hmem => by
      obtain ⟨i, -, hi⟩ := mem_slots.mp hmem
      exact ht.nonnull.holds i _ hi rfl
  unfold pcFree
  refine hput ?_
  split
  · rename_i hp
    exact h.putElem (hash_lt addr) hp.1
  · exact h

theorem Inv.flush (h : Inv c [] s) : Inv c [] (s.pcFlush c) := by
  unfold pcFlush
  split
  · have hall := h.allPut (i := 0) (n := c.max) (by omega)
    exact ⟨⟨hall.nonnull.holds, hall.nonnull.absent⟩, hall.backs, hall.unwritten⟩
  · exact h

theorem Inv.step {t : PtrCache} {e : Event} (h : Inv c [] s) (hk : Coheres c s e)
    (hstep : s.step c e = some t) : Inv c [] t := by
  cases e with
  | get addr len dirty r => cases hstep; exact h.lookUp hk.2.2.2
  | set addr len ptr dirty own => cases hstep; exact h.set hk
  | unset addr => cases hstep; exact h.evict (hash_lt addr)
  | dirty addr => cases hstep; exact h.dirty hk
  | alloc len r =>
    obtain ⟨x, hx, rfl⟩ := Option.map_eq_some_iff.mp hstep
    exact h.alloc hk hx
  | free addr len => cases hstep; exact h.free addr len
  | flush => cases hstep; exact h.flush

/-! ## What `PC_GET` returns -/

theorem base_add_offset (addr : Nat) : c.baseAddr2 addr + c.baseOffset addr = addr :=
  Nat.div_add_mod' addr c.whole

/-- The slot of `addr` with `len` bytes from the base address on is enough. -/
theorem holds_of_base {addr len ptr n : Nat} (hn : c.baseOffset addr + len ≤ n) :
    Buffer.Holds ⟨ptr, c.baseAddr2 addr, n⟩ addr len ∧
      addr - c.baseAddr2 addr = c.baseOffset addr := by
  have h := base_add_offset (c := c) addr
  unfold Buffer.Holds
  dsimp only
  omega

/-- A slot that `PC_GET` leaves filled is for what was asked for. -/
theorem fetch_some {dirty : Bool} (h : Coheres c s (.get addr len dirty r))
    (hb : (s.fetch c addr len r).slot (c.hash addr) = some b) :
    b.Holds addr len ∧ addr - b.logAddr = c.baseOffset addr := by
  obtain ⟨hbase, hround, hlen, -⟩ := h
  have hlog := fetch_logAddr hbase hb
  have hn : c.baseOffset addr + len ≤ b.len := by
    by_cases hm : s.misses c addr = true
    · by_cases hg : r.granted (c.baseLen (c.baseOffset addr) len) = true
      · unfold fetch at hb
        rw [if_pos hm, getElem_granted hg, slot_setElem, Function.update_self, PcConfig.baseAddr,
          PcElem.buffer_orPresent] at hb
        cases hb
        exact hround
      · cases (fetch_refused hm hg).symm.trans hb
    · unfold fetch at hb
      rw [if_neg hm] at hb hlen
      rwa [pcLen_of_slot hb] at hlen
  obtain ⟨ptr, logAddr, n⟩ := b
  dsimp only at hlog hn
  rw [hlog]
  exact holds_of_base hn

/-! ## All runs -/

/-- **A pointer from the cache is into a buffer that is held, and what is modified is written.** In a
run of such steps a pointer that `PC_GET` returns is to the byte at `addr` in a buffer that has been
got and not put and has all the bytes, a get that fails returns no pointer, and a buffer that has
been marked is in its slot until it is put with `prio_background`, which a flush does. -/
theorem pointer_is_held (c : PcConfig) {s : PtrCache}
    (h : Reach (step c) (· = init) (Coheres c) s) :
    (∀ b ∈ s.unwritten, b ∈ s.slots c) ∧
      (s.pcVersion ≠ 0 → (s.pcFlush c).unwritten = []) ∧
      ∀ addr len dirty r, Coheres c s (.get addr len dirty r) →
        ((s.pcGet c addr len dirty r).1 ≠ 0 → ∃ b ∈ (s.pcGet c addr len dirty r).2.held,
          b.Holds addr len ∧ (s.pcGet c addr len dirty r).1 = add64 b.ptr (addr - b.logAddr)) ∧
        (s.misses c addr = true → r.granted (c.baseLen (c.baseOffset addr) len) = false →
          (s.pcGet c addr len dirty r).1 = 0) := by
  have hinv : Inv c [] s :=
    h.invariant (by rintro _ rfl; exact .init) (fun _ _ _ hi hk hs => hi.step hk hs)
  refine ⟨fun b hb => ?_, fun hv => ?_, fun addr len dirty r hk => ?_⟩
  · obtain ⟨i, hi, hslot, -⟩ := hinv.unwritten b hb
    exact mem_slots.mpr ⟨i, hi, hslot⟩
  · refine List.eq_nil_iff_forall_not_mem.mpr fun b hb => ?_
    obtain ⟨i, hi, hslot, -⟩ := hinv.flush.unwritten b hb
    have hmem := mem_slots.mpr ⟨i, hi, hslot⟩
    rw [pcFlush_slots hv] at hmem
    cases hmem
  · have hafter := @Inv.lookUp _ _ hinv addr len dirty r hk.2.2.2
    cases hb : (s.fetch c addr len r).slot (c.hash addr) with
    | some b =>
      have hslot : (s.lookUp c addr len dirty r).slot (c.hash addr) = some b :=
        (congrFun slot_lookUp _).trans hb
      obtain ⟨hholds, hoffset⟩ := fetch_some hk hb
      refine ⟨fun _ => ⟨b, hafter.backs.mem (mem_slots.mpr ⟨_, hash_lt addr, hslot⟩), hholds, ?_⟩,
        fun hm hg => ?_⟩
      · rw [hoffset, ← pcPtr_of_slot hslot]
        rfl
      · cases (fetch_refused hm (Bool.eq_false_iff.mp hg)).symm.trans hb
    | none =>
      obtain ⟨hm, hg⟩ := fetch_none hk.1 hb
      have hoffset : c.baseOffset addr = 0 := by
        have hlen := hk.2.2.1
        rw [if_pos hm, hg] at hlen
        exact hlen.resolve_left Bool.false_ne_true
      have hzero : (s.pcGet c addr len dirty r).1 = 0 := by
        have hptr := hafter.nonnull.absent (c.hash addr) (by rw [slot_lookUp, hb])
        change add64 ((s.lookUp c addr len dirty r).elems (c.hash addr)).pcPtr
          (c.baseOffset addr) = 0
        rw [hptr, hoffset]
        rfl
      exact ⟨fun hne => absurd hzero hne, fun _ _ => hzero⟩

instance (c : PcConfig) (s : PtrCache) : (e : Event) → Decidable (Coheres c s e)
  | .get addr len _ r => inferInstanceAs (Decidable (c.baseAddr2 addr % 4 = 0 ∧
      c.baseOffset addr + len ≤ c.baseLen (c.baseOffset addr) len ∧
        (if s.misses c addr then
          r.granted (c.baseLen (c.baseOffset addr) len) = true ∨ c.baseOffset addr = 0
        else c.baseOffset addr + len ≤ (s.elems (c.hash addr)).pcLen) ∧
        (r.success = true → r.physAddr ≠ 0)))
  | .set addr len ptr _ own => inferInstanceAs (Decidable (c.baseAddr2 addr % 4 = 0 ∧
      own = ⟨c.maskPtr ptr, c.baseAddr2 addr, c.baseLen (c.baseOffset addr) len⟩ ∧ own.ptr ≠ 0))
  | .dirty addr => inferInstanceAs (Decidable (c.baseAddr2 addr % 4 = 0))
  | .alloc _ r => inferInstanceAs (Decidable (c.baseAddr2 r.logAddr = r.logAddr ∧
      r.logAddr % 4 = 0 ∧ r.logLen ≤ r.physLen ∧ r.physAddr ≠ 0))
  | .flush => inferInstanceAs (Decidable (s.pcVersion ≠ 0))
  | .unset _ => inferInstanceAs (Decidable True)
  | .free _ _ => inferInstanceAs (Decidable True)

/-- A get for writing, a piece that is allocated, and a get that fails. -/
theorem pointer_is_held_dirty :
    ∃ s, Reach (step .plain) (· = init) (Coheres .plain) s ∧
      ((∀ b ∈ s.unwritten, b ∈ s.slots .plain) ∧
        (s.pcVersion ≠ 0 → (s.pcFlush .plain).unwritten = []) ∧
        ∀ addr len dirty r, Coheres .plain s (.get addr len dirty r) →
          ((s.pcGet .plain addr len dirty r).1 ≠ 0 →
            ∃ b ∈ (s.pcGet .plain addr len dirty r).2.held, b.Holds addr len ∧
              (s.pcGet .plain addr len dirty r).1 = add64 b.ptr (addr - b.logAddr)) ∧
          (s.misses .plain addr = true →
            r.granted (PcConfig.plain.baseLen (PcConfig.plain.baseOffset addr) len) = false →
              (s.pcGet .plain addr len dirty r).1 = 0)) := by
  have hrun : (run (step .plain) (Coheres .plain) init
      [.get 8 8 true ⟨true, 4096, 8⟩, .alloc 16 ⟨true, 64, 16, 8192, 16⟩,
        .get 128 8 false ⟨false, 0, 0⟩]).isSome = true := by
    decide
  obtain ⟨s, hs⟩ := Option.isSome_iff_exists.mp hrun
  have hreach : Reach (step .plain) (· = init) (Coheres .plain) s := .of_run (.start rfl) hs
  exact ⟨s, hreach, pointer_is_held .plain hreach⟩

/-- A hit does not compare lengths, and a get that fails inside a block returns its offset. -/
theorem pointer_not_held :
    (∃ s, run (step .plain) anyEvent init [.get 8 8 false ⟨true, 4096, 8⟩] = some s ∧
      (s.pcGet .plain 8 16 false ⟨false, 0, 0⟩).1 = 4096 ∧
      ∀ b ∈ (s.pcGet .plain 8 16 false ⟨false, 0, 0⟩).2.held, ¬ b.Holds 8 16) ∧
    (init.pcGet (.rounded 4 (by decide)) 4100 8 false ⟨false, 0, 0⟩).1 = 4 := by
  refine ⟨⟨_, rfl, by decide, ?_⟩, by decide⟩
  have hheld : ((init.pcGet .plain 8 8 false ⟨true, 4096, 8⟩).2.pcGet .plain 8 16 false
      ⟨false, 0, 0⟩).2.held = [⟨4096, 8, 8⟩] := by
    decide +kernel
  rw [hheld]
  rintro b hb ⟨-, hlen⟩
  rw [List.mem_singleton.mp hb] at hlen
  exact absurd hlen (by decide)

end PtrCache

end Athomux
