import Athomux.MapDelta.Pieces
import Athomux.RingList.Blocks

/-!
# Rings of blocks

The elements of a ring are blocks. What is done to the links leaves their fields alone.
-/

open Lib

namespace Athomux.RingList

open MapDelta

/-- `sizeof(struct block_t)`: the link, and behind it three fields. -/
def sizeofBlock : Nat := 40

def startField : Nat := 16

def lenField : Nat := 24

def offsetField : Nat := 32

/-- `start` and `len` of the block at `p`. -/
def Store.region (m : Store) (p : Nat) : Region := ⟨m.peek (p + startField), m.peek (p + lenField)⟩

/-! ## The blocks of a ring -/

/-- The fields of the block at `e`. -/
def blockAt (mem : ByteMem) (e : Nat) : BlockT :=
  ⟨⟨ofBytes (mem.load (e + startField) 8), ofBytes (mem.load (e + lenField) 8)⟩,
    ofBytes (mem.load (e + offsetField) 8)⟩

/-- The blocks of different elements have no byte in common. -/
def BlockSpaced (E : Multiset Nat) : Prop :=
  ∀ x ∈ E, x + sizeofBlock ≤ addrSpace ∧ ∀ y ∈ E, x ≠ y → Apart x sizeofBlock y sizeofBlock

/-- The ring at `hook` has the blocks `l` behind it, beside the other rings `rs`. -/
structure HasBlocks (c : PcConfig) (m : Store) (hook : Nat) (l : List (Nat × BlockT)) (rs : Rings) :
    Prop where
  linked : Linked c m ((hook :: l.map Prod.fst : List Nat) ::ₘ rs)
  blocks : BlockSpaced (Rings.elems ((hook :: l.map Prod.fst : List Nat) ::ₘ rs))
  fields : ∀ e ∈ l, blockAt (m.view c) e.1 = e.2

/-! ## A part of a block -/

/-- What the nest answers when a part is put into the ring. -/
structure PartReplies where
  alloc : CreateReply
  r1 : GetReply
  r2 : GetReply
  r3 : GetReply
  deriving DecidableEq

variable (c : PcConfig)

/-- The fields of a new block. `offset` comes from the block at `p`. -/
def Store.writePart (m : Store) (new p : Nat) (q : Region) : Store :=
  let m := (m.poke (new + startField) q.start).poke (new + lenField) q.len
  m.poke (new + offsetField) (m.peek (p + offsetField))

/-- A part of the block at `p` is put before `elem`, if it is not empty. -/
def insertPart (m : Store) (elem p : Nat) (q : Region) (R : PartReplies) : Option Store :=
  if 0 < q.len then
    (m.alloc c sizeofBlock R.alloc).map fun x =>
      (x.2.2.writePart x.1 p q).liPrepend c elem x.2.1 R.r1 R.r2 R.r3
  else some m

/-! ## The condition -/

/-- What the nest hands out is not in use by an element. -/
def Fresh (hook : Nat) (rs : Rings) (m : Store) (r : CreateReply) : Prop :=
  ∀ l, HasBlocks c m hook l rs → r.logAddr + sizeofBlock ≤ addrSpace ∧
    ∀ x ∈ Rings.elems ((hook :: l.map Prod.fst : List Nat) ::ₘ rs),
      Apart x sizeofBlock r.logAddr r.logLen

/-- The new element does not take the slot of the block, and the macro is right. -/
def PartClean (hook : Nat) (rs : Rings) (m : Store) (elem p : Nat) (q : Region) (R : PartReplies) :
    Prop :=
  0 < q.len → Allocates c m sizeofBlock R.alloc ∧ Fresh c hook rs m R.alloc ∧
    c.hash elem ≠ c.hash R.alloc.logAddr ∧
    ∀ x, m.alloc c sizeofBlock R.alloc = some x →
      (x.2.2.writePart x.1 p q).cache.misses c elem = false ∧
        Clean c (x.2.2.writePart x.1 p q) (.prepend elem x.2.1 R.r1 R.r2 R.r3)

/-! ## Fields -/

variable {c} {m m' : Store} {hook e p a x : Nat} {b : BlockT} {rs : Rings} {range q : Region}
  {l done rest : List (Nat × BlockT)}

theorem blockAt_congr {mem mem' : ByteMem}
    (h : ∀ k, startField ≤ k → k < sizeofBlock → mem' (e + k) = mem (e + k)) :
    blockAt mem' e = blockAt mem e := by
  have hload : ∀ f, startField ≤ f → f + 8 ≤ sizeofBlock →
      mem'.load (e + f) 8 = mem.load (e + f) 8 := fun f hf hle =>
    ByteMem.load_congr fun k hk => by
      rw [Nat.add_assoc]
      exact h _ (by omega) (by omega)
  unfold blockAt
  rw [hload startField (Nat.le_refl _) (by decide), hload lenField (by decide) (by decide),
    hload offsetField (by decide) (by decide)]

theorem load_lt (mem : ByteMem) (pos : Nat) : ofBytes (mem.load pos 8) < addrSpace := by
  have h := ofBytes_lt (mem.load pos 8)
  rw [ByteMem.load_length] at h
  exact h

theorem blockAt_lt (mem : ByteMem) (e : Nat) :
    (blockAt mem e).region.start < addrSpace ∧ (blockAt mem e).region.len < addrSpace ∧
      (blockAt mem e).offset < addrSpace := ⟨load_lt _ _, load_lt _ _, load_lt _ _⟩

/-- What `writePart` leaves. -/
structure Written (c : PcConfig) (m m' : Store) (a : Nat) (b : BlockT) : Prop where
  coherent : Coherent c m'
  cache : m'.cache = m.cache
  stores : m'.stores = m.stores
  view : ∀ x, x < a + startField ∨ a + sizeofBlock ≤ x → m'.view c x = m.view c x
  block : blockAt (m'.view c) a = b

theorem writePart_spec {new : Nat} (h : Coherent c m) (hnew : Holds c m true sizeofBlock a new)
    (hp : Holds c m false sizeofBlock e p) (hapart : Apart e sizeofBlock a sizeofBlock)
    (hq : q.start < addrSpace ∧ q.len < addrSpace) :
    Written c m (m.writePart new p q) a ⟨q, (blockAt (m.view c) e).offset⟩ := by
  have hlen (z : Nat) : (toBytes 8 z).length = 8 := toBytes_length 8 z
  have hload (mem : ByteMem) (pos z : Nat) (hz : z < addrSpace) :
      ofBytes ((mem.store pos (toBytes 8 z)).load pos 8) = z := by
    have hl := ByteMem.load_store mem pos (toBytes 8 z)
    rw [hlen] at hl
    rw [hl, ofBytes_toBytes hz]
  have hfar (mem : ByteMem) (pos pos' z : Nat) (hpos : pos + 8 ≤ pos' ∨ pos' + 8 ≤ pos) :
      (mem.store pos' (toBytes 8 z)).load pos 8 = mem.load pos 8 :=
    ByteMem.load_store_apart mem _ (by rw [hlen]; exact hpos)
  unfold Apart sizeofBlock at hapart
  have hco₁ := hnew.coherent_poke (k := startField) (y := q.start) h (by decide)
  have hview₁ := hnew.view_poke (k := startField) (y := q.start) h (by decide)
  have hnew₁ : Holds c (m.poke (new + startField) q.start) true sizeofBlock a new := hnew
  have hco₂ := hnew₁.coherent_poke (k := lenField) (y := q.len) hco₁ (by decide)
  have hview₂ := hnew₁.view_poke (k := lenField) (y := q.len) hco₁ (by decide)
  have hnew₂ : Holds c ((m.poke (new + startField) q.start).poke (new + lenField) q.len) true
      sizeofBlock a new := hnew
  have hp₂ : Holds c ((m.poke (new + startField) q.start).poke (new + lenField) q.len) false
      sizeofBlock e p := hp
  rw [hview₁] at hview₂
  -- The offset is read after the two stores.
  have hoffset : ((m.poke (new + startField) q.start).poke (new + lenField) q.len).peek
      (p + offsetField) = (blockAt (m.view c) e).offset := by
    rw [hp₂.peek hco₂ (by decide), hview₂, hfar _ _ _ _ (by unfold offsetField lenField; omega),
      hfar _ _ _ _ (by unfold offsetField startField; omega)]
    rfl
  have hco₃ := hnew₂.coherent_poke (k := offsetField) (y := (blockAt (m.view c) e).offset) hco₂
    (by decide)
  have hview₃ := hnew₂.view_poke (k := offsetField) (y := (blockAt (m.view c) e).offset) hco₂
    (by decide)
  rw [hview₂] at hview₃
  unfold Store.writePart
  dsimp only
  rw [hoffset]
  refine ⟨hco₃, rfl, rfl, fun x hx => ?_, ?_⟩
  · have hx : x < a + 16 ∨ a + 40 ≤ x := hx
    rw [hview₃, startField, lenField, offsetField,
      ByteMem.store_apart _ _ (by rw [hlen]; omega), ByteMem.store_apart _ _ (by rw [hlen]; omega),
      ByteMem.store_apart _ _ (by rw [hlen]; omega)]
  · rw [hview₃]
    unfold blockAt startField lenField offsetField
    rw [hload _ _ _ (load_lt _ _), hfar _ (a + 24) (a + 32) _ (by omega), hload _ _ _ hq.2,
      hfar _ (a + 16) (a + 32) _ (by omega), hfar _ (a + 16) (a + 24) _ (by omega),
      hload _ _ _ hq.1]

/-! ## Blocks beside each other -/

theorem Holds.mono {d : Bool} {k n : Nat} (h : Holds c m d n a p) (hk : k ≤ n) : Holds c m d k a p := by
  obtain ⟨b, hb, hd, hlog, hlen, hp⟩ := h
  exact ⟨b, hb, hd, hlog, by omega, hp⟩

/-- The fields of a block are not in a link. -/
theorem BlockSpaced.beside {E : Multiset Nat} {k y : Nat} (h : BlockSpaced E) (hx : x ∈ E) (hy : y ∈ E)
    (hk : startField ≤ k) (hk' : k < sizeofBlock) : Beside (x + k) y := by
  unfold Beside sizeofLink startField sizeofBlock at *
  by_cases hxy : x = y
  · omega
  · have := (h x hx).2 y hy hxy
    unfold Apart sizeofBlock at this
    omega

theorem BlockSpaced.cons {E : Multiset Nat} (h : BlockSpaced E) (ha : a + sizeofBlock ≤ addrSpace)
    (hfree : ∀ y ∈ E, Apart y sizeofBlock a sizeofBlock) : BlockSpaced (a ::ₘ E) := by
  intro x hx
  rcases Multiset.mem_cons.mp hx with rfl | hx
  · refine ⟨ha, fun y hy hne => ?_⟩
    rcases Multiset.mem_cons.mp hy with rfl | hy
    · exact absurd rfl hne
    · exact apart_comm (hfree y hy)
  · refine ⟨(h x hx).1, fun y hy hne => ?_⟩
    rcases Multiset.mem_cons.mp hy with hya | hyE
    · exact hya ▸ hfree x hx
    · exact (h x hx).2 y hyE hne

/-- The ring from one of its blocks on. -/
theorem ring_rotate (e : Nat × BlockT) :
    ((hook :: (done ++ e :: rest).map Prod.fst : List Nat) : Cycle Nat) =
      (e.1 :: (rest.map Prod.fst ++ hook :: done.map Prod.fst) : List Nat) := by
  rw [List.map_append, List.map_cons]
  exact Cycle.coe_eq_coe.mpr (List.isRotated_append (l := hook :: done.map Prod.fst))

/-! ## A part is put into the ring -/

variable {R : PartReplies}

theorem mem_blocks {e : Nat × BlockT} (he : e ∈ l) :
    e.1 ∈ Rings.elems ((hook :: l.map Prod.fst : List Nat) ::ₘ rs) :=
  mem_elems_cons.mpr (.inl (List.mem_cons_of_mem _ (List.mem_map_of_mem he)))

/-- The blocks are where they were when their bytes are. -/
theorem HasBlocks.frame (h : HasBlocks c m hook l rs) (hco : Coherent c m')
    (hview : ∀ x ∈ Rings.elems ((hook :: l.map Prod.fst : List Nat) ::ₘ rs), ∀ k < sizeofBlock,
      m'.view c (x + k) = m.view c (x + k)) (hstores : m'.stores = m.stores) :
    HasBlocks c m' hook l rs := by
  refine ⟨h.linked.frame hco (fun x hx k hk => hview x hx k ?_) hstores, h.blocks, fun e he => ?_⟩
  · unfold sizeofLink at hk
    unfold sizeofBlock
    omega
  · rw [blockAt_congr fun k _ hk => hview e.1 (mem_blocks he) k hk]
    exact h.fields e he

theorem prepend_blocks {e : Nat × BlockT} {r1 r2 r3 : GetReply}
    (h : HasBlocks c m hook (done ++ e :: rest) rs) (ha : a + sizeofBlock ≤ addrSpace)
    (hfree : ∀ x ∈ Rings.elems ((hook :: (done ++ e :: rest).map Prod.fst : List Nat) ::ₘ rs),
      Apart x sizeofBlock a sizeofBlock) (hb : blockAt (m.view c) a = b)
    (hclean : Clean c m (.prepend e.1 a r1 r2 r3)) :
    HasBlocks c (m.liPrepend c e.1 a r1 r2 r3) hook (done ++ (a, b) :: e :: rest) rs := by
  have hlinked := h.linked
  rw [ring_rotate] at hlinked
  have hring (x : Nat) (hx : x ∈ e.1 :: (rest.map Prod.fst ++ hook :: done.map Prod.fst)) :
      x ∈ Rings.elems ((hook :: (done ++ e :: rest).map Prod.fst : List Nat) ::ₘ rs) := by
    rw [ring_rotate]
    exact mem_elems_cons.mpr (.inl hx)
  have hnew : ((hook :: (done ++ (a, b) :: e :: rest).map Prod.fst : List Nat) : Cycle Nat) =
      (a :: e.1 :: (rest.map Prod.fst ++ hook :: done.map Prod.fst) : List Nat) :=
    ring_rotate (a, b)
  have helems : Rings.elems ((hook :: (done ++ (a, b) :: e :: rest).map Prod.fst : List Nat) ::ₘ rs) =
      a ::ₘ Rings.elems ((hook :: (done ++ e :: rest).map Prod.fst : List Nat) ::ₘ rs) := by
    rw [hnew, ring_rotate, elems_cons, elems_cons, ← Multiset.cons_coe, Multiset.cons_add]
  have hfree' : Rings.Free ((e.1 :: (rest.map Prod.fst ++ hook :: done.map Prod.fst) : List Nat) ::ₘ rs)
      a := by
    rw [← ring_rotate]
    unfold sizeofBlock at ha
    refine ⟨by unfold sizeofLink; omega, fun x hx => ?_⟩
    have := hfree x hx
    unfold Apart sizeofBlock at this
    unfold sizeofLink
    omega
  have hspaced := h.blocks.cons ha hfree
  have hview := (prepend_frame hlinked hclean).1
  have hblock (x : Nat)
      (hx : x ∈ a ::ₘ Rings.elems ((hook :: (done ++ e :: rest).map Prod.fst : List Nat) ::ₘ rs)) :
      blockAt ((m.liPrepend c e.1 a r1 r2 r3).view c) x = blockAt (m.view c) x := by
    refine blockAt_congr fun k hk hk' => hview _ ?_ fun y hy => ?_
    · exact hspaced.beside hx (Multiset.mem_cons_self _ _) hk hk'
    · exact hspaced.beside hx (Multiset.mem_cons_of_mem (hring y hy)) hk hk'
  refine ⟨?_, ?_, fun x hx => ?_⟩
  · rw [hnew]
    exact prepend_linked hlinked hfree' hclean
  · rw [helems]
    exact hspaced
  · rcases List.mem_append.mp hx with hx | hx
    · have hx := List.mem_append_left (e :: rest) hx
      rw [hblock x.1 (Multiset.mem_cons_of_mem (mem_blocks hx))]
      exact h.fields x hx
    · rcases List.mem_cons.mp hx with rfl | hx
      · rw [hblock a (Multiset.mem_cons_self _ _)]
        exact hb
      · have hx := List.mem_append_right done hx
        rw [hblock x.1 (Multiset.mem_cons_of_mem (mem_blocks hx))]
        exact h.fields x hx

/-- What a part leaves. `new` is the element for it. -/
theorem insertPart_spec {e : Nat × BlockT} (h : HasBlocks c m hook (done ++ e :: rest) rs)
    (hp : Holds c m false sizeofBlock e.1 p) (hclean : PartClean c hook rs m e.1 p q R)
    (hq : q.start < addrSpace ∧ q.len < addrSpace) :
    ∃ m' new, insertPart c m e.1 p q R = some m' ∧
      HasBlocks c m' hook (done ++ new ++ e :: rest) rs ∧ Holds c m' false sizeofBlock e.1 p ∧
      new.map Prod.snd = part q e.2.offset := by
  unfold insertPart part
  by_cases hpos : 0 < q.len
  · obtain ⟨halloc, hfresh, hhash, hclean⟩ := hclean hpos
    obtain ⟨hfits, hapart⟩ := hfresh _ h
    obtain ⟨ptr, t, hsome, hA⟩ := alloc_spec h.linked.coherent halloc
    obtain ⟨hmiss, hclean⟩ := hclean _ hsome
    dsimp only at hmiss hclean
    rw [if_pos hpos, if_pos hpos, hsome, Option.map_some]
    generalize R.alloc.logAddr = a at *
    have hroom := halloc.room.2.1
    have hfree : ∀ x ∈ Rings.elems ((hook :: (done ++ e :: rest).map Prod.fst : List Nat) ::ₘ rs),
        Apart x sizeofBlock a sizeofBlock := fun x hx => by
      have := hapart x hx
      unfold Apart at *
      omega
    have ht : HasBlocks c t hook (done ++ e :: rest) rs := by
      refine h.frame hA.coherent (fun x hx k hk => hA.view _ ?_) hA.stores
      have := hapart x hx
      unfold Apart at this
      omega
    have hpt : Holds c t false sizeofBlock e.1 p := hA.keeps _ _ _ _ hhash hp
    have hin : e.1 ∈ Rings.elems ((hook :: (done ++ e :: rest).map Prod.fst : List Nat) ::ₘ rs) :=
      mem_blocks (List.mem_append_right done List.mem_cons_self)
    have hW := writePart_spec ht.linked.coherent (hA.holds.mono hroom) hpt (hfree _ hin) hq
    have hoffset : (blockAt (t.view c) e.1).offset = e.2.offset :=
      congrArg BlockT.offset (ht.fields e (List.mem_append_right done List.mem_cons_self))
    rw [hoffset] at hW
    generalize t.writePart ptr p q = w at *
    have hw : HasBlocks c w hook (done ++ e :: rest) rs := by
      refine ht.frame hW.coherent (fun x hx k hk => hW.view _ ?_) hW.stores
      have := hfree x hx
      unfold Apart startField sizeofBlock at *
      omega
    have hpw : Holds c w false sizeofBlock e.1 p := by
      unfold Holds
      rw [hW.cache]
      exact hpt
    have hlinked := hw.linked
    rw [ring_rotate] at hlinked
    refine ⟨_, [(a, ⟨q, e.2.offset⟩)], rfl, ?_, ?_, rfl⟩
    · rw [List.append_assoc]
      exact prepend_blocks hw hfits hfree hW.block hclean
    · exact (prepend_frame hlinked hclean).2 _ _ _ hmiss hpw
  · rw [if_neg hpos, if_neg hpos]
    refine ⟨m, [], rfl, ?_, hp, rfl⟩
    rw [List.append_nil]
    exact h

/-! ## A block is taken out -/

theorem remove_blocks {e : Nat × BlockT} {r0 r1 r2 : GetReply}
    (h : HasBlocks c m hook (done ++ e :: rest) rs) (hclean : Clean c m (.remove e.1 r0 r1 r2)) :
    HasBlocks c ((m.liRemove c e.1 r0 r1 r2).free c e.1 sizeofBlock) hook (done ++ rest) rs := by
  have hlinked := h.linked
  rw [ring_rotate] at hlinked
  have hnew : ((hook :: (done ++ rest).map Prod.fst : List Nat) : Cycle Nat) =
      (rest.map Prod.fst ++ hook :: done.map Prod.fst : List Nat) := by
    rw [List.map_append]
    exact Cycle.coe_eq_coe.mpr (List.isRotated_append (l := hook :: done.map Prod.fst))
  have helems : Rings.elems ((hook :: (done ++ e :: rest).map Prod.fst : List Nat) ::ₘ rs) =
      e.1 ::ₘ Rings.elems ((hook :: (done ++ rest).map Prod.fst : List Nat) ::ₘ rs) := by
    rw [hnew, ring_rotate, elems_cons, elems_cons, ← Multiset.cons_coe, Multiset.cons_add]
  have hin (x : Nat) (hx : x ∈ Rings.elems ((hook :: (done ++ rest).map Prod.fst : List Nat) ::ₘ rs)) :
      x ∈ Rings.elems ((hook :: (done ++ e :: rest).map Prod.fst : List Nat) ::ₘ rs) := by
    rw [helems]
    exact Multiset.mem_cons_of_mem hx
  have hring (x : Nat) (hx : x ∈ e.1 :: (rest.map Prod.fst ++ hook :: done.map Prod.fst)) :
      x ∈ Rings.elems ((hook :: (done ++ e :: rest).map Prod.fst : List Nat) ::ₘ rs) := by
    rw [ring_rotate]
    exact mem_elems_cons.mpr (.inl hx)
  have hremoved := remove_linked hlinked hclean
  obtain ⟨hco, hview, hstores⟩ := free_spec e.1 sizeofBlock hremoved.coherent
  refine ⟨?_, fun x hx => ?_, fun x hx => ?_⟩
  · rw [hnew]
    exact hremoved.same hco hview hstores
  · exact ⟨(h.blocks x (hin x hx)).1, fun y hy => (h.blocks x (hin x hx)).2 y (hin y hy)⟩
  · have hx : x ∈ done ++ e :: rest := by
      rcases List.mem_append.mp hx with hx | hx
      · exact List.mem_append_left _ hx
      · exact List.mem_append_right _ (List.mem_cons_of_mem _ hx)
    rw [hview, blockAt_congr fun k hk hk' => remove_frame hlinked hclean fun y hy => ?_]
    · exact h.fields x hx
    · exact h.blocks.beside (mem_blocks hx) (hring y hy) hk hk'

theorem HasBlocks.get {r : GetReply} (h : HasBlocks c m hook l rs) (hr : Reaches c m sizeofBlock e r) :
    HasBlocks c (m.get c e false r).2 hook l rs ∧
      Holds c (m.get c e false r).2 false sizeofBlock e (m.get c e false r).1 := by
  obtain ⟨hco, hview, hholds⟩ := get_reaches h.linked.coherent hr (by decide) false
  exact ⟨h.frame hco (fun x _ k _ => congrFun hview _) rfl, hholds⟩

theorem HasBlocks.region {e : Nat × BlockT} (h : HasBlocks c m hook l rs) (he : e ∈ l)
    (hp : Holds c m false sizeofBlock e.1 p) : m.region p = e.2.region := by
  unfold Store.region
  rw [hp.peek h.linked.coherent (by decide), hp.peek h.linked.coherent (by decide)]
  exact congrArg BlockT.region (h.fields e he)

end Athomux.RingList
