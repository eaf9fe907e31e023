import Athomux.RingList.BlockRing

/-!
# `LI_REMOVE_ISECT`

The ring is walked once. A block that meets the range is replaced by what remains of it, while the
walk goes on.
-/

open Lib

namespace Athomux.RingList

open MapDelta

/-- What the nest answers in one turn of the loop. -/
structure TurnReplies where
  next : GetReply
  block : GetReply
  left : PartReplies
  right : PartReplies
  r0 : GetReply
  r1 : GetReply
  r2 : GetReply
  deriving DecidableEq

variable (c : PcConfig)

/-- A turn of the loop: the next element and the store. -/
def removeTurn (range : Region) (m : Store) (elem : Nat) (R : TurnReplies) : Option (Nat × Store) :=
  let n := m.liNext c elem R.next
  let g := n.2.liGet c elem false R.block
  let block := g.2.region g.1
  let i := intersect range block
  if 0 < i.len then do
    let m ← insertPart c g.2 elem g.1 (splitLeft block i.start) R.left
    let m ← insertPart c m elem g.1 (splitRight block (add64 i.start i.len)) R.right
    return (n.1, (m.liRemove c elem R.r0 R.r1 R.r2).free c elem sizeofBlock)
  else some (n.1, g.2)

/-- The loop, with the answers for as many turns as there are. -/
def removeLoop (range : Region) (hook : Nat) : List TurnReplies → Nat → Store → Option Store
  | [], elem, m => if elem = hook then some m else none
  | R :: Rs, elem, m =>
    if elem = hook then some m
    else (removeTurn c range m elem R).bind fun x => removeLoop range hook Rs x.1 x.2

/-- `LI_REMOVE_ISECT`. -/
def removeIsect (m : Store) (hook : Nat) (range : Region) (r : GetReply) (Rs : List TurnReplies) :
    Option Store :=
  let n := m.liNext c hook r
  removeLoop c range hook Rs n.1 n.2

/-! ## The condition -/

/-- The condition on a turn: the gets give the whole block, and the pointer to it stays good until
its parts are there. -/
def TurnClean (hook : Nat) (rs : Rings) (range : Region) (m : Store) (elem : Nat)
    (R : TurnReplies) : Prop :=
  let n := m.liNext c elem R.next
  let g := n.2.liGet c elem false R.block
  let block := g.2.region g.1
  let i := intersect range block
  let left := splitLeft block i.start
  let right := splitRight block (add64 i.start i.len)
  c.baseOffset elem = 0 ∧ Reaches c m sizeofBlock elem R.next ∧
    Reaches c n.2 sizeofBlock elem R.block ∧
    (0 < i.len → PartClean c hook rs g.2 elem g.1 left R.left ∧
      ∀ m₁, insertPart c g.2 elem g.1 left R.left = some m₁ →
        PartClean c hook rs m₁ elem g.1 right R.right ∧
        ∀ m₂, insertPart c m₁ elem g.1 right R.right = some m₂ →
          Clean c m₂ (.remove elem R.r0 R.r1 R.r2))

def LoopClean (hook : Nat) (rs : Rings) (range : Region) : List TurnReplies → Nat → Store → Prop
  | [], _, _ => True
  | R :: Rs, elem, m =>
    elem ≠ hook → TurnClean c hook rs range m elem R ∧
      ∀ x, removeTurn c range m elem R = some x → LoopClean hook rs range Rs x.1 x.2

/-- The condition on the whole macro. -/
def RemoveClean (hook : Nat) (rs : Rings) (range : Region) (m : Store) (r : GetReply)
    (Rs : List TurnReplies) : Prop :=
  c.baseOffset hook = 0 ∧ Fetches c m hook r ∧
    LoopClean c hook rs range Rs (m.liNext c hook r).1 (m.liNext c hook r).2

/-! ## A turn -/

variable {c} {m : Store} {hook p : Nat} {b : BlockT} {rs : Rings} {range q : Region}
  {l done rest : List (Nat × BlockT)}

/-- What is in the ring for a block afterwards. A block that is not met stays what it is. -/
def Replaces (range : Region) (e : Nat × BlockT) (new : List (Nat × BlockT)) : Prop :=
  new.map Prod.snd = pieces range e.2 ∧ (¬ 0 < (intersect range e.2.region).len → new = [e])

/-- A turn of the loop replaces its block, and goes on behind it. -/
theorem removeTurn_spec {e : Nat × BlockT} {R : TurnReplies}
    (h : HasBlocks c m hook (done ++ e :: rest) rs) (hclean : TurnClean c hook rs range m e.1 R) :
    ∃ m' new, removeTurn c range m e.1 R = some ((rest.map Prod.fst).headD hook, m') ∧
      HasBlocks c m' hook (done ++ new ++ rest) rs ∧ Replaces range e new := by
  obtain ⟨hstart, hr, hr', hclean⟩ := hclean
  have hmem : e ∈ done ++ e :: rest := List.mem_append_right done List.mem_cons_self
  have hf : Fetches c m e.1 R.next := hr.mono (by decide)
  have hnext : (m.liNext c e.1 R.next).1 = (rest.map Prod.fst).headD hook := by
    have hlinked := h.linked
    rw [ring_rotate] at hlinked
    refine ((next_linked hlinked hf).2 hstart).trans ?_
    cases rest <;> rfl
  have hn : HasBlocks c (m.liNext c e.1 R.next).2 hook (done ++ e :: rest) rs := by
    unfold Store.liNext
    dsimp only
    rw [liGet_eq h.linked.coherent hf hstart]
    exact (h.get hr).1
  unfold removeTurn
  dsimp only at hr' hclean ⊢
  rw [hnext]
  generalize (m.liNext c e.1 R.next).2 = m₁ at *
  have hf' : Fetches c m₁ e.1 R.block := hr'.mono (by decide)
  rw [liGet_eq hn.linked.coherent hf' hstart] at hclean ⊢
  obtain ⟨hg, hp⟩ := hn.get hr'
  generalize m₁.get c e.1 false R.block = g at *
  rw [hg.region hmem hp] at hclean ⊢
  by_cases hmeet : 0 < (intersect range e.2.region).len
  · obtain ⟨hleft, hclean⟩ := hclean hmeet
    have hlt : e.2.region.start < addrSpace ∧ e.2.region.len < addrSpace := by
      have := blockAt_lt (g.2.view c) e.1
      rw [hg.fields e hmem] at this
      exact ⟨this.1, this.2.1⟩
    obtain ⟨m₂, new, hsome, h₂, hp₂, hnew⟩ := insertPart_spec hg hp hleft (splitLeft_lt hlt)
    obtain ⟨hright, hclean⟩ := hclean m₂ hsome
    obtain ⟨m₃, new', hsome', h₃, -, hnew'⟩ := insertPart_spec h₂ hp₂ hright
      (splitRight_lt hlt (add64_lt _ _))
    have hremoved := remove_blocks h₃ (hclean m₃ hsome')
    rw [if_pos hmeet, hsome]
    refine ⟨(m₃.liRemove c e.1 R.r0 R.r1 R.r2).free c e.1 sizeofBlock, new ++ new', ?_, ?_, ?_,
      fun hnot => absurd hmeet hnot⟩
    · simp only [Option.bind_eq_bind, Option.bind_some, hsome']
      rfl
    · rw [← List.append_assoc]
      exact hremoved
    · unfold pieces
      dsimp only
      rw [if_pos hmeet, List.map_append, hnew, hnew']
  · rw [if_neg hmeet]
    refine ⟨g.2, [e], rfl, ?_, (pieces_one hmeet).symm, fun _ => rfl⟩
    rw [List.append_assoc]
    exact hg

/-! ## The loop -/

/-- The blocks that are behind the current element are replaced one after the other. -/
theorem removeLoop_spec {Rs : List TurnReplies} (h : HasBlocks c m hook (done ++ rest) rs)
    (hlen : rest.length ≤ Rs.length)
    (hclean : LoopClean c hook rs range Rs ((rest.map Prod.fst).headD hook) m) :
    ∃ m' news, removeLoop c range hook Rs ((rest.map Prod.fst).headD hook) m = some m' ∧
      HasBlocks c m' hook (done ++ news.flatten) rs ∧ List.Forall₂ (Replaces range) rest news := by
  induction rest generalizing done m Rs with
  | nil =>
    refine ⟨m, [], ?_, h, .nil⟩
    cases Rs <;> exact if_pos rfl
  | cons e rest ih =>
    obtain ⟨R, Rs, rfl⟩ := List.exists_cons_of_length_pos (Nat.zero_lt_of_lt hlen)
    have hne : e.1 ≠ hook := fun heq => by
      have hnodup := h.linked.nodup_ring
      rw [List.map_append, List.map_cons, heq] at hnodup
      exact (List.nodup_cons.mp hnodup).1 (List.mem_append_right _ List.mem_cons_self)
    obtain ⟨hturn, hloop⟩ := hclean hne
    obtain ⟨m₁, new, hsome, h₁, hnew⟩ := removeTurn_spec h hturn
    obtain ⟨m', news, hrest, h', hnews⟩ := ih h₁ (Nat.le_of_succ_le_succ hlen) (hloop _ hsome)
    refine ⟨m', new :: news, ?_, ?_, .cons hnew hnews⟩
    · unfold removeLoop
      rw [List.map_cons, List.headD_cons, if_neg hne, hsome, Option.bind_some]
      exact hrest
    · rw [List.flatten_cons, ← List.append_assoc]
      exact h'

theorem replaces_snd {news : List (List (Nat × BlockT))} (h : List.Forall₂ (Replaces range) l news) :
    news.flatten.map Prod.snd = (l.map Prod.snd).flatMap (pieces range) := by
  induction h with
  | nil => rfl
  | cons hnew _ ih =>
    rw [List.flatten_cons, List.map_append, List.map_cons, List.flatMap_cons, hnew.1, ih]

/-- The ring is well formed afterwards, and every block is replaced in its place. -/
theorem removeIsect_spec {r : GetReply} {Rs : List TurnReplies} (h : HasBlocks c m hook l rs)
    (hlen : l.length ≤ Rs.length) (hclean : RemoveClean c hook rs range m r Rs) :
    ∃ m' news, removeIsect c m hook range r Rs = some m' ∧
      HasBlocks c m' hook news.flatten rs ∧ List.Forall₂ (Replaces range) l news := by
  obtain ⟨hstart, hf, hclean⟩ := hclean
  have hnext : (m.liNext c hook r).1 = (l.map Prod.fst).headD hook := by
    refine ((next_linked h.linked hf).2 hstart).trans ?_
    cases l <;> rfl
  have hn : HasBlocks c (m.liNext c hook r).2 hook ([] ++ l) rs := by
    unfold Store.liNext
    dsimp only
    rw [liGet_eq h.linked.coherent hf hstart]
    have hg := get_spec h.linked.coherent hf false
    exact h.frame hg.coherent (fun x _ k _ => congrFun hg.view _) hg.stores
  rw [hnext] at hclean
  obtain ⟨m', news, hsome, h', hnews⟩ := removeLoop_spec hn hlen hclean
  refine ⟨m', news, ?_, h', hnews⟩
  unfold removeIsect
  dsimp only
  rw [hnext]
  exact hsome

theorem replaces_covers {news : List (List (Nat × BlockT))}
    (h : List.Forall₂ (Replaces range) l news) (hr : range.stop ≤ addrSpace)
    (hl : ∀ e ∈ l, e.2.region.stop ≤ addrSpace) :
    covers (news.flatten.map Prod.snd) =
        (covers (l.map Prod.snd)).filter (fun p => ¬ range.Has p.1) ↔
      ∀ e ∈ l, Ends range e.2 := by
  rw [replaces_snd h, pieces_covers hr (List.forall_mem_map.mpr hl)]
  exact List.forall_mem_map

/-! ## When every get hits -/

/-- Two elements whose blocks are held are linked when the fields say so. -/
theorem Holds.links {x y p q : Nat} (h : Coherent c m) (hx : Holds c m true sizeofBlock x p)
    (hy : Holds c m true sizeofBlock y q) (hpeek : m.peek p = y ∧ m.peek (q + prevField) = x) :
    nextAt (m.view c) x = y ∧ prevAt (m.view c) y = x := by
  have hpx : Pinned c m true x p := hx.mono (by decide)
  have hpy : Pinned c m true y q := hy.mono (by decide)
  exact ⟨(peek_eq h hpx).symm.trans hpeek.1, (peek_prev_eq h hpy).symm.trans hpeek.2⟩

/-- The fields of a block that is held. -/
theorem Holds.blockAt {x p : Nat} (h : Coherent c m) (hx : Holds c m true sizeofBlock x p)
    (hpeek : (m.region p, m.peek (p + offsetField)) = (b.region, b.offset)) :
    blockAt (m.view c) x = b := by
  obtain ⟨hregion, hoffset⟩ := Prod.mk.inj hpeek
  unfold RingList.blockAt
  rw [← hx.peek (k := startField) h (by decide), ← hx.peek (k := lenField) h (by decide),
    ← hx.peek (k := offsetField) h (by decide)]
  exact congrArg₂ BlockT.mk hregion hoffset

/-- The next element, when the whole block is held. -/
theorem nextAt_held {addr next : Nat} (h : Coherent c m)
    (hslot : m.cache.slot (c.hash addr) = some ⟨p, addr, sizeofBlock⟩) (hpeek : m.peek p = next) :
    nextAt (m.view c) addr = next := by
  have hp : Pinned c m false addr p :=
    ⟨_, hslot, fun hd => absurd hd Bool.false_ne_true, Nat.le_refl _,
      Nat.add_le_add_left (show sizeofLink ≤ sizeofBlock by decide) _, by rw [Nat.sub_self, Nat.add_zero]⟩
  exact (peek_eq h hp).symm.trans hpeek

/-- What is handed out is not in use when it is beside all that the links lead to. -/
theorem fresh_of_next {a : CreateReply} {E : List Nat} (hroom : a.logAddr + sizeofBlock ≤ addrSpace)
    (hhook : hook ∈ E) (hnext : ∀ x ∈ E, nextAt (m.view c) x ∈ E)
    (hapart : ∀ x ∈ E, x + sizeofBlock ≤ a.logAddr ∨ a.logAddr + a.logLen ≤ x) :
    Fresh c hook 0 m a := by
  intro l h
  refine ⟨hroom, fun x hx => hapart x ?_⟩
  rw [elems_cons] at hx
  rcases Multiset.mem_add.mp hx with hx | hx
  · exact (h.linked.rings _ (Multiset.mem_cons_self _ _)).of_next hhook hnext x hx
  · exact absurd hx (Multiset.notMem_zero x)

theorem allocates_of {a : CreateReply} {len : Nat} (h : Coherent c m)
    (hroom : a.success = true ∧ c.baseLen 0 len ≤ a.logLen ∧ len ≤ a.logLen ∧ a.logLen ≤ a.physLen)
    (hpiece : c.baseAddr2 a.logAddr = a.logAddr ∧ a.logAddr % 4 = 0)
    (hfits : a.physAddr + a.logLen ≤ addrSpace)
    (hslots : ∀ i < c.max, ∀ b ∈ m.cache.slot i,
      (b.logAddr + b.len ≤ a.logAddr ∨ a.logAddr + a.logLen ≤ b.logAddr) ∧
        (b.ptr + b.len ≤ a.physAddr ∨ a.physAddr + a.logLen ≤ b.ptr)) : Allocates c m len a :=
  ⟨hroom.1, hroom.2, hpiece, hfits, fun i b hb => hslots i (h.bound i b hb) b hb⟩

/-- All three gets of the macro hit. -/
theorem prepend_hits {start elem : Nat} {r1 r2 r3 : GetReply}
    (h : let s := m.get c start true r1
      let e := s.2.get c elem true r2
      let prev := e.2.peek (s.1 + prevField)
      (m.cache.misses c start, s.2.cache.misses c elem, e.2.cache.misses c prev) =
          (false, false, false) ∧
        (c.baseAddr2 start % 4, c.baseAddr2 elem % 4, c.baseAddr2 prev % 4) = (0, 0, 0) ∧
        c.baseOffset start + sizeofLink ≤ (m.cache.elems (c.hash start)).pcLen ∧
        c.baseOffset elem + sizeofLink ≤ (s.2.cache.elems (c.hash elem)).pcLen ∧
        c.baseOffset prev + sizeofLink ≤ (e.2.cache.elems (c.hash prev)).pcLen) :
    Clean c m (.prepend start elem r1 r2 r3) := by
  dsimp only at h
  obtain ⟨hmiss, hbase, hstart, helem, hprev⟩ := h
  simp only [Prod.mk.injEq] at hmiss hbase
  refine ⟨fetches_of_hit hbase.1 hmiss.1 hstart, fetches_of_hit hbase.2.1 hmiss.2.1 helem,
    fetches_of_hit hbase.2.2 hmiss.2.2 hprev, fun hm => ?_, fun hm => ?_, fun hm => ?_⟩
  · cases hmiss.2.1.symm.trans hm
  · cases hmiss.2.2.symm.trans hm
  · cases hmiss.2.2.symm.trans hm

/-- All three gets of `LI_REMOVE` hit. -/
theorem remove_hits {elem : Nat} {r0 r1 r2 : GetReply}
    (h : let e := m.get c elem false r0
      let left := e.2.peek (e.1 + prevField)
      let right := e.2.peek e.1
      let l := e.2.get c left true r1
      (m.cache.misses c elem, e.2.cache.misses c left, l.2.cache.misses c right) =
          (false, false, false) ∧
        (c.baseAddr2 elem % 4, c.baseAddr2 left % 4, c.baseAddr2 right % 4) = (0, 0, 0) ∧
        c.baseOffset elem + sizeofLink ≤ (m.cache.elems (c.hash elem)).pcLen ∧
        c.baseOffset left + sizeofLink ≤ (e.2.cache.elems (c.hash left)).pcLen ∧
        c.baseOffset right + sizeofLink ≤ (l.2.cache.elems (c.hash right)).pcLen) :
    Clean c m (.remove elem r0 r1 r2) := by
  dsimp only at h
  obtain ⟨hmiss, hbase, helem, hleft, hright⟩ := h
  simp only [Prod.mk.injEq] at hmiss hbase
  refine ⟨fetches_of_hit hbase.1 hmiss.1 helem, fetches_of_hit hbase.2.1 hmiss.2.1 hleft,
    fetches_of_hit hbase.2.2 hmiss.2.2 hright, fun hm => ?_⟩
  cases hmiss.2.2.symm.trans hm

/-! ## One block -/

/-- `use PC MD_PC [1024]`. -/
def mdPc : PcConfig := ⟨8, 1, 1024, Nat.succ_pos 7, Nat.one_pos, Nat.succ_pos 1023⟩

/-- A ring at 64 with one block at 128. Both are in the cache. -/
def oneBlock (b : BlockT) : Store where
  cache := { PtrCache.init with elems := fun i =>
    if i = 8 then ⟨67, 40, 1000⟩ else if i = 16 then ⟨131, 40, 1100⟩ else .zero }
  nest := fun _ => 0
  phys := [(1000, 128), (1008, 128), (1100, 64), (1108, 64), (1116, b.region.start),
    (1124, b.region.len), (1132, b.offset)].foldl (fun mem x => ByteMem.store mem x.1 (toBytes 8 x.2))
      fun _ => 0
  stores := []

theorem hook_buffer : PcElem.buffer ⟨67, 40, 1000⟩ = some ⟨1000, 64, 40⟩ := by decide

theorem elem_buffer : PcElem.buffer ⟨131, 40, 1100⟩ = some ⟨1100, 128, 40⟩ := by decide

theorem oneBlock_slot {i : Nat} {d : Buffer} (hd : (oneBlock b).cache.slot i = some d) :
    i = 8 ∧ d = ⟨1000, 64, 40⟩ ∨ i = 16 ∧ d = ⟨1100, 128, 40⟩ := by
  unfold PtrCache.slot oneBlock at hd
  dsimp only at hd
  split at hd
  · rename_i hi
    cases hook_buffer.symm.trans hd
    exact .inl ⟨hi, rfl⟩
  · split at hd
    · rename_i hi
      cases elem_buffer.symm.trans hd
      exact .inr ⟨hi, rfl⟩
    · have hzero : PcElem.zero.buffer = none := by decide
      cases hzero.symm.trans hd

theorem oneBlock_dirty :
    ((oneBlock b).cache.elems 8).isDirty = true ∧ ((oneBlock b).cache.elems 16).isDirty = true :=
  ⟨decide_eq_true (p := 67 % 2 = 1) rfl, decide_eq_true (p := 131 % 2 = 1) rfl⟩

theorem oneBlock_coherent : Coherent mdPc (oneBlock b) where
  bound := fun i d hd => by
    rcases oneBlock_slot hd with ⟨rfl, -⟩ | ⟨rfl, -⟩ <;> decide
  clean := fun i d hd hclean => by
    rcases oneBlock_slot hd with ⟨rfl, -⟩ | ⟨rfl, -⟩
    · exact absurd oneBlock_dirty.1 hclean
    · exact absurd oneBlock_dirty.2 hclean
  apart := fun i j d d' hij hd hd' => by
    rcases oneBlock_slot hd with ⟨rfl, rfl⟩ | ⟨rfl, rfl⟩ <;>
      rcases oneBlock_slot hd' with ⟨rfl, rfl⟩ | ⟨rfl, rfl⟩
    · exact absurd rfl hij
    · exact ⟨by unfold Apart; decide, by unfold Apart; decide⟩
    · exact ⟨by unfold Apart; decide, by unfold Apart; decide⟩
    · exact absurd rfl hij
  fits := fun i d hd => by
    rcases oneBlock_slot hd with ⟨-, rfl⟩ | ⟨-, rfl⟩ <;> decide

theorem oneBlock_hook : Holds mdPc (oneBlock b) true sizeofBlock 64 1000 :=
  ⟨⟨1000, 64, 40⟩, hook_buffer, fun _ => oneBlock_dirty.1, by decide, by decide, by decide⟩

theorem oneBlock_elem : Holds mdPc (oneBlock b) true sizeofBlock 128 1100 :=
  ⟨⟨1100, 128, 40⟩, elem_buffer, fun _ => oneBlock_dirty.2, by decide, by decide, by decide⟩

/-- It is a ring with this block when the fields are read back. -/
theorem oneBlock_blocks
    (hpeek : [1000, 1008, 1100, 1108, 1116, 1124, 1132].map (oneBlock b).peek =
      [128, 128, 64, 64, b.region.start, b.region.len, b.offset]) :
    HasBlocks mdPc (oneBlock b) 64 [(128, b)] 0 := by
  simp only [List.map_cons, List.map_nil, List.cons.injEq, and_true] at hpeek
  obtain ⟨hnext, hprev, hnext', hprev', hs, hl, ho⟩ := hpeek
  have helems : Rings.elems (([64, 128] : List Nat) ::ₘ 0) = {64, 128} := rfl
  have hco := oneBlock_coherent (b := b)
  refine ⟨⟨hco, ?_, ?_, fun ring hring => ?_, ?_⟩, ?_, fun e he => ?_⟩
  · exact helems ▸ (by decide)
  · change Spaced (Rings.elems (([64, 128] : List Nat) ::ₘ 0))
    rw [helems]
    unfold Spaced Apart
    decide
  · obtain rfl := (Multiset.mem_cons.mp hring).resolve_right (Multiset.notMem_zero _)
    rw [LinkedRing.cons_iff]
    exact List.isChain_cons_cons.mpr ⟨Holds.links hco oneBlock_hook oneBlock_elem ⟨hnext, hprev'⟩,
      List.isChain_cons_cons.mpr ⟨Holds.links hco oneBlock_elem oneBlock_hook ⟨hnext', hprev⟩,
        List.isChain_singleton _⟩⟩
  · exact fun w hw => absurd hw List.not_mem_nil
  · change BlockSpaced (Rings.elems (([64, 128] : List Nat) ::ₘ 0))
    rw [helems]
    unfold BlockSpaced Apart
    decide
  · obtain rfl := List.mem_singleton.mp he
    exact Holds.blockAt hco oneBlock_elem (congrArg₂ Prod.mk (congrArg₂ Region.mk hs hl) ho)

theorem oneBlock_hits : (oneBlock b).cache.misses mdPc 64 = false ∧
    (oneBlock b).cache.misses mdPc 128 = false := by
  have hhook : PcElem.clearDirty 67 = mdPc.baseAddr 64 := by decide
  have helem : PcElem.clearDirty 131 = mdPc.baseAddr 128 := by decide
  exact ⟨decide_eq_false (not_not_intro hhook), decide_eq_false (not_not_intro helem)⟩

theorem oneBlock_reaches (r : GetReply) : Reaches mdPc (oneBlock b) sizeofBlock 64 r ∧
    Reaches mdPc (oneBlock b) sizeofBlock 128 r :=
  ⟨reaches_of_hit (by decide) oneBlock_hits.1 (Nat.le_refl 40),
    reaches_of_hit (by decide) oneBlock_hits.2 (Nat.le_refl 40)⟩

/-- The condition when the block is not met. -/
theorem oneBlock_clean {R : TurnReplies} (r : GetReply)
    (hpeek : (oneBlock b).peek 1000 = 128) (hregion : (oneBlock b).region 1100 = b.region)
    (hmeet : ¬0 < (intersect range b.region).len) :
    RemoveClean mdPc 64 0 range (oneBlock b) r [R] := by
  refine ⟨rfl, (oneBlock_reaches r).1.mono (by decide), ?_⟩
  rw [liNext_hit oneBlock_hits.1]
  have hpeek' : (oneBlock b).peek ((oneBlock b).cache.elems (mdPc.hash 64)).pcPtr = 128 := hpeek
  rw [hpeek']
  refine fun _ => ⟨?_, fun _ _ => trivial⟩
  unfold TurnClean
  rw [liNext_hit oneBlock_hits.2]
  dsimp only
  rw [liGet_hit oneBlock_hits.2]
  have hregion' : (oneBlock b).region ((oneBlock b).cache.elems (mdPc.hash 128)).pcPtr = b.region :=
    hregion
  rw [hregion']
  exact ⟨rfl, (oneBlock_reaches _).2, (oneBlock_reaches _).2, fun hlt => absurd hlt hmeet⟩

/-- Answers that are not asked for. -/
def quiet : GetReply := ⟨true, 0, 0⟩

def quietPart : PartReplies := ⟨⟨true, 0, 0, 0, 0⟩, quiet, quiet, quiet⟩

def quietTurn : TurnReplies := ⟨quiet, quiet, quietPart, quietPart, quiet, quiet, quiet⟩

def topBlock : BlockT := ⟨⟨18446744073709543424, 8192⟩, 4096⟩

def topRange : Region := ⟨18446744073709543424, 4096⟩

/-! ## Two blocks -/

def longBlock : BlockT := ⟨⟨0, 12288⟩, 65536⟩

def nextBlock : BlockT := ⟨⟨16384, 4096⟩, 32768⟩

/-- In the middle of the first block. -/
def midRange : Region := ⟨4096, 4096⟩

/-- A ring at 64 with these blocks at 128 and 192. All of them are in the cache. -/
def twoBlocks : Store where
  cache := { PtrCache.init with elems := fun i =>
    if i = 8 then ⟨67, 40, 1000⟩ else if i = 16 then ⟨131, 40, 1100⟩
    else if i = 24 then ⟨195, 40, 1200⟩ else .zero }
  nest := fun _ => 0
  phys := [(1000, 128), (1008, 192), (1100, 192), (1108, 64), (1116, 0), (1124, 12288),
    (1132, 65536), (1200, 64), (1208, 128), (1216, 16384), (1224, 4096), (1232, 32768)].foldl
      (fun mem x => ByteMem.store mem x.1 (toBytes 8 x.2)) fun _ => 0
  stores := []

def twoSlots : List (Nat × Buffer) :=
  [(8, ⟨1000, 64, 40⟩), (16, ⟨1100, 128, 40⟩), (24, ⟨1200, 192, 40⟩)]

theorem twoBlocks_slot {i : Nat} {d : Buffer} (hd : twoBlocks.cache.slot i = some d) :
    (i, d) ∈ twoSlots := by
  unfold PtrCache.slot twoBlocks at hd
  dsimp only at hd
  split at hd
  · rename_i hi
    cases hook_buffer.symm.trans hd
    simp [twoSlots, hi]
  · split at hd
    · rename_i hi
      cases elem_buffer.symm.trans hd
      simp [twoSlots, hi]
    · split at hd
      · rename_i hi
        have hbuffer : PcElem.buffer ⟨195, 40, 1200⟩ = some ⟨1200, 192, 40⟩ := by decide
        cases hbuffer.symm.trans hd
        simp [twoSlots, hi]
      · have hzero : PcElem.zero.buffer = none := by decide
        cases hzero.symm.trans hd

theorem twoBlocks_coherent : Coherent mdPc twoBlocks where
  bound := fun i d hd => by
    have hslots : ∀ e ∈ twoSlots, e.1 < mdPc.max := by decide
    exact hslots _ (twoBlocks_slot hd)
  clean := fun i d hd hclean => by
    have hslots : ∀ e ∈ twoSlots, (twoBlocks.cache.elems e.1).isDirty = true := by decide
    exact absurd (hslots _ (twoBlocks_slot hd)) hclean
  apart := fun i j d d' hij hd hd' => by
    have hslots : ∀ e ∈ twoSlots, ∀ e' ∈ twoSlots, e.1 ≠ e'.1 →
        (e.2.logAddr + e.2.len ≤ e'.2.logAddr ∨ e'.2.logAddr + e'.2.len ≤ e.2.logAddr) ∧
          (e.2.ptr + e.2.len ≤ e'.2.ptr ∨ e'.2.ptr + e'.2.len ≤ e.2.ptr) := by decide
    exact hslots _ (twoBlocks_slot hd) _ (twoBlocks_slot hd') hij
  fits := fun i d hd => by
    have hslots : ∀ e ∈ twoSlots, e.2.ptr + e.2.len ≤ addrSpace := by decide
    exact hslots _ (twoBlocks_slot hd)

theorem twoBlocks_blocks :
    HasBlocks mdPc twoBlocks 64 [(128, longBlock), (192, nextBlock)] 0 := by
  have helems : Rings.elems (([64, 128, 192] : List Nat) ::ₘ 0) = {64, 128, 192} := rfl
  have hhook : Holds mdPc twoBlocks true sizeofBlock 64 1000 :=
    ⟨⟨1000, 64, 40⟩, by decide, fun _ => by decide, by decide, by decide, by decide⟩
  have hlong : Holds mdPc twoBlocks true sizeofBlock 128 1100 :=
    ⟨⟨1100, 128, 40⟩, by decide, fun _ => by decide, by decide, by decide, by decide⟩
  have hshort : Holds mdPc twoBlocks true sizeofBlock 192 1200 :=
    ⟨⟨1200, 192, 40⟩, by decide, fun _ => by decide, by decide, by decide, by decide⟩
  have hco := twoBlocks_coherent
  refine ⟨⟨hco, ?_, ?_, fun ring hring => ?_, ?_⟩, ?_, ?_⟩
  · exact helems ▸ (by decide)
  · change Spaced (Rings.elems (([64, 128, 192] : List Nat) ::ₘ 0))
    rw [helems]
    unfold Spaced Apart
    decide
  · obtain rfl := (Multiset.mem_cons.mp hring).resolve_right (Multiset.notMem_zero _)
    rw [LinkedRing.cons_iff]
    exact List.isChain_cons_cons.mpr ⟨Holds.links hco hhook hlong (by decide),
      List.isChain_cons_cons.mpr ⟨Holds.links hco hlong hshort (by decide),
        List.isChain_cons_cons.mpr ⟨Holds.links hco hshort hhook (by decide),
          List.isChain_singleton _⟩⟩⟩
  · exact fun w hw => absurd hw List.not_mem_nil
  · change BlockSpaced (Rings.elems (([64, 128, 192] : List Nat) ::ₘ 0))
    rw [helems]
    unfold BlockSpaced Apart
    decide
  · rw [List.forall_mem_cons, List.forall_mem_singleton]
    exact ⟨Holds.blockAt hco hlong (by decide), Holds.blockAt hco hshort (by decide)⟩

def quietWith (addr ptr : Nat) : PartReplies := ⟨⟨true, addr, 40, ptr, 40⟩, quiet, quiet, quiet⟩

def splitTurn : TurnReplies :=
  ⟨quiet, quiet, quietWith 256 1300, quietWith 320 1400, quiet, quiet, quiet⟩

/-- With the left part of the first block. -/
def leftPut : Store :=
  (insertPart mdPc twoBlocks 128 1100 ⟨0, 4096⟩ splitTurn.left).getD twoBlocks

/-- And with the right one. -/
def bothPut : Store :=
  (insertPart mdPc leftPut 128 1100 ⟨8192, 4096⟩ splitTurn.right).getD leftPut

/-- And without the block itself. -/
def splitDone : Store :=
  (bothPut.liRemove mdPc 128 quiet quiet quiet).free mdPc 128 sizeofBlock

set_option maxRecDepth 16000 in
theorem left_clean : PartClean mdPc 64 0 twoBlocks 128 1100 ⟨0, 4096⟩ splitTurn.left := by
  refine fun _ => ⟨allocates_of twoBlocks_coherent (by decide) (by decide) (by decide)
    (by decide), ?_, by decide, fun x hx => ?_⟩
  · have h1 : nextAt (twoBlocks.view mdPc) 64 = 128 :=
      nextAt_held twoBlocks_coherent (p := 1000) (by decide) (by decide)
    have h2 : nextAt (twoBlocks.view mdPc) 128 = 192 :=
      nextAt_held twoBlocks_coherent (p := 1100) (by decide) (by decide)
    have h3 : nextAt (twoBlocks.view mdPc) 192 = 64 :=
      nextAt_held twoBlocks_coherent (p := 1200) (by decide) (by decide)
    refine fresh_of_next (E := [64, 128, 192]) (by decide) (by decide) ?_ (by decide)
    simp [h1, h2, h3]
  · have hx : x = (twoBlocks.alloc mdPc sizeofBlock splitTurn.left.alloc).getD (0, 0, twoBlocks) := by
      rw [hx]
      rfl
    subst hx
    exact ⟨by decide, prepend_hits (by decide)⟩

theorem leftPut_eq :
    insertPart mdPc twoBlocks 128 1100 ⟨0, 4096⟩ splitTurn.left = some leftPut := by
  have hsome : (insertPart mdPc twoBlocks 128 1100 ⟨0, 4096⟩ splitTurn.left).isSome = true := by decide
  obtain ⟨m, hm⟩ := Option.isSome_iff_exists.mp hsome
  rw [leftPut, hm, Option.getD_some]

theorem leftPut_coherent : Coherent mdPc leftPut := by
  have hp : Holds mdPc twoBlocks false sizeofBlock 128 1100 :=
    ⟨⟨1100, 128, 40⟩, by decide, fun hd => absurd hd Bool.false_ne_true, by decide, by decide, by decide⟩
  have hblocks : HasBlocks mdPc twoBlocks 64 ([] ++ (128, longBlock) :: [(192, nextBlock)]) 0 :=
    twoBlocks_blocks
  obtain ⟨m, new, hm, h, -⟩ := insertPart_spec hblocks hp left_clean ⟨by decide, by decide⟩
  obtain rfl := Option.some.inj (hm.symm.trans leftPut_eq)
  exact h.linked.coherent

set_option maxRecDepth 16000 in
theorem right_clean : PartClean mdPc 64 0 leftPut 128 1100 ⟨8192, 4096⟩ splitTurn.right := by
  refine fun _ => ⟨allocates_of leftPut_coherent (by decide) (by decide) (by decide)
    (by decide), ?_, by decide, fun x hx => ?_⟩
  · have h1 : nextAt (leftPut.view mdPc) 64 = 256 :=
      nextAt_held leftPut_coherent (p := 1000) (by decide) (by decide)
    have h2 : nextAt (leftPut.view mdPc) 256 = 128 :=
      nextAt_held leftPut_coherent (p := 1300) (by decide) (by decide)
    have h3 : nextAt (leftPut.view mdPc) 128 = 192 :=
      nextAt_held leftPut_coherent (p := 1100) (by decide) (by decide)
    have h4 : nextAt (leftPut.view mdPc) 192 = 64 :=
      nextAt_held leftPut_coherent (p := 1200) (by decide) (by decide)
    refine fresh_of_next (E := [64, 256, 128, 192]) (by decide) (by decide) ?_ (by decide)
    simp [h1, h2, h3, h4]
  · have hx : x = (leftPut.alloc mdPc sizeofBlock splitTurn.right.alloc).getD (0, 0, leftPut) := by
      rw [hx]
      rfl
    subst hx
    exact ⟨by decide, prepend_hits (by decide)⟩

theorem bothPut_eq :
    insertPart mdPc leftPut 128 1100 ⟨8192, 4096⟩ splitTurn.right = some bothPut := by
  have hsome : (insertPart mdPc leftPut 128 1100 ⟨8192, 4096⟩ splitTurn.right).isSome = true := by
    decide
  obtain ⟨m, hm⟩ := Option.isSome_iff_exists.mp hsome
  rw [bothPut, hm, Option.getD_some]

/-- The pointer to the first block, and what it is. -/
theorem long_got : (twoBlocks.liNext mdPc 128 quiet).2 = twoBlocks ∧
    twoBlocks.liGet mdPc 128 false quiet = (1100, twoBlocks) ∧
    twoBlocks.region 1100 = longBlock.region := by
  have hhit : twoBlocks.cache.misses mdPc 128 = false := by decide
  exact ⟨congrArg Prod.snd (liNext_hit hhit), liGet_hit hhit, by decide⟩

theorem split_clean : TurnClean mdPc 64 0 midRange twoBlocks 128 splitTurn := by
  obtain ⟨hnext, hget, hregion⟩ := long_got
  have hnext' : (twoBlocks.liNext mdPc 128 splitTurn.next).2 = twoBlocks := hnext
  have hget' : twoBlocks.liGet mdPc 128 false splitTurn.block = (1100, twoBlocks) := hget
  have hreach : Reaches mdPc twoBlocks sizeofBlock 128 quiet :=
    reaches_of_hit (by decide) (by decide) (by decide)
  unfold TurnClean
  dsimp only
  rw [hnext', hget', hregion]
  refine ⟨by decide, hreach, hreach, fun _ => ⟨left_clean, fun m₁ h₁ => ?_⟩⟩
  obtain rfl := Option.some.inj (leftPut_eq.symm.trans h₁)
  refine ⟨right_clean, fun m₂ h₂ => ?_⟩
  obtain rfl := Option.some.inj (bothPut_eq.symm.trans h₂)
  exact remove_hits (by decide)

theorem split_turn : removeTurn mdPc midRange twoBlocks 128 splitTurn = some (192, splitDone) := by
  obtain ⟨hnext, hget, hregion⟩ := long_got
  have hnext' : twoBlocks.liNext mdPc 128 splitTurn.next = (192, twoBlocks) :=
    Prod.ext (by decide) hnext
  have hget' : twoBlocks.liGet mdPc 128 false splitTurn.block = (1100, twoBlocks) := hget
  unfold removeTurn
  dsimp only
  rw [hnext', hget', hregion, if_pos (by decide)]
  change ((insertPart mdPc twoBlocks 128 1100 ⟨0, 4096⟩ splitTurn.left).bind fun m =>
    (insertPart mdPc m 128 1100 ⟨8192, 4096⟩ splitTurn.right).bind fun m => _) = _
  rw [leftPut_eq, Option.bind_some, bothPut_eq]
  rfl

set_option maxRecDepth 16000 in
/-- The second block is not met. -/
theorem rest_clean : TurnClean mdPc 64 0 midRange splitDone 192 quietTurn := by
  have hhit : splitDone.cache.misses mdPc 192 = false := by decide
  have hreach : Reaches mdPc splitDone sizeofBlock 192 quiet :=
    reaches_of_hit (by decide) hhit (by decide)
  unfold TurnClean
  dsimp only
  rw [liNext_hit hhit, liGet_hit hhit]
  have hregion : splitDone.region (splitDone.cache.elems (mdPc.hash 192)).pcPtr = nextBlock.region := by
    decide
  rw [hregion]
  exact ⟨by decide, hreach, hreach, fun hlt => absurd hlt (by decide)⟩

theorem twoBlocks_clean : RemoveClean mdPc 64 0 midRange twoBlocks quiet [splitTurn, quietTurn] := by
  have hhook : twoBlocks.liNext mdPc 64 quiet = (128, twoBlocks) :=
    (liNext_hit (by decide)).trans (Prod.ext (by decide) rfl)
  refine ⟨rfl, fetches_of_hit (by decide) (by decide) (by decide), ?_⟩
  rw [hhook]
  refine fun _ => ⟨split_clean, fun x hx => ?_⟩
  obtain rfl := Option.some.inj (split_turn.symm.trans hx)
  exact fun _ => ⟨rest_clean, fun _ _ => trivial⟩

/-! ## The macro -/

/-- **The range is taken out of the blocks of the ring.** The ring is well formed afterwards, every
block is replaced in its place by what remains of it, and the blocks cover what they covered outside
of the range if and only if no block that is met goes up to the highest address, nor the range. -/
theorem remove_isect (c : PcConfig) (m : Store) (hook : Nat) (l : List (Nat × BlockT)) (rs : Rings)
    (range : Region) (r : GetReply) (Rs : List TurnReplies) (h : HasBlocks c m hook l rs)
    (hr : range.stop ≤ addrSpace) (hl : ∀ e ∈ l, e.2.region.stop ≤ addrSpace)
    (hlen : l.length ≤ Rs.length) (hclean : RemoveClean c hook rs range m r Rs) :
    ∃ m' news, removeIsect c m hook range r Rs = some m' ∧
      HasBlocks c m' hook news.flatten rs ∧ List.Forall₂ (Replaces range) l news ∧
      (covers (news.flatten.map Prod.snd) =
          (covers (l.map Prod.snd)).filter (fun p => ¬ range.Has p.1) ↔
        ∀ e ∈ l, Ends range e.2) := by
  obtain ⟨m', news, hsome, h', hnews⟩ := removeIsect_spec h hlen hclean
  exact ⟨m', news, hsome, h', hnews, replaces_covers hnews hr hl⟩

/-- The first block is split, and the second one stays. -/
theorem remove_isect_split :
    ∃ m' news, removeIsect mdPc twoBlocks 64 midRange quiet [splitTurn, quietTurn] = some m' ∧
      HasBlocks mdPc m' 64 (List.flatten news) 0 ∧
      (List.flatten news).map Prod.snd = [⟨⟨0, 4096⟩, 65536⟩, ⟨⟨8192, 4096⟩, 65536⟩, nextBlock] ∧
      covers ((List.flatten news).map Prod.snd) =
        (covers [longBlock, nextBlock]).filter (fun p => ¬ midRange.Has p.1) := by
  obtain ⟨m', news, hsome, h', hnews, hcovers⟩ := remove_isect mdPc twoBlocks 64
    [(128, longBlock), (192, nextBlock)] 0 midRange quiet [splitTurn, quietTurn] twoBlocks_blocks
    (by decide) (by decide) (by decide) twoBlocks_clean
  exact ⟨m', news, hsome, h', (replaces_snd hnews).trans (by decide), hcovers.mpr (by decide)⟩

/-- The end of a block that goes up to the highest address wraps around, so nothing seems to meet
it. -/
theorem top_remains :
    HasBlocks mdPc (oneBlock topBlock) 64 [(128, topBlock)] 0 ∧
      RemoveClean mdPc 64 0 topRange (oneBlock topBlock) quiet [quietTurn] ∧
      ∃ m' news, removeIsect mdPc (oneBlock topBlock) 64 topRange quiet [quietTurn] = some m' ∧
        HasBlocks mdPc m' 64 (List.flatten news) 0 ∧
        covers ((List.flatten news).map Prod.snd) ≠
          (covers [topBlock]).filter (fun p => ¬ topRange.Has p.1) := by
  have hblocks : HasBlocks mdPc (oneBlock topBlock) 64 [(128, topBlock)] 0 :=
    oneBlock_blocks (by decide)
  have hclean : RemoveClean mdPc 64 0 topRange (oneBlock topBlock) quiet [quietTurn] :=
    oneBlock_clean _ (by decide) (by decide) (by decide)
  obtain ⟨m', news, hsome, h', hnews⟩ := removeIsect_spec hblocks (by decide) hclean
  refine ⟨hblocks, hclean, m', news, hsome, h', fun heq => ?_⟩
  have hends := (replaces_covers hnews (by decide) (by decide)).mp heq
  exact absurd hends (by decide)

end Athomux.RingList
