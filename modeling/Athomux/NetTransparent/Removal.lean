import Athomux.Lib.Elimination

/-!
# The network transparent view

The part of `#strategy_nettransparent` that takes the net bricks out of the graph. The bricks and the
connections are in ring lists, here in the order from the hook on.
-/

namespace Athomux.NetTransparent

open Lib

/-- `struct g_brick_t`. -/
structure GBrick where
  addr : Nat
  name : String
  bparam : String
  deriving DecidableEq, Repr

/-- `struct g_conn_t`. `netBaddr` is the net brick that the connection stands for, or 0. -/
structure GConn where
  cparam : String
  srcName : String
  srcAddr : Nat
  dstName : String
  dstAddr : Nat
  netBaddr : Nat
  deriving DecidableEq, Repr

/-- The connection list, and the temporary lists of `rewire_rb`. -/
structure Sorted where
  lc : List GConn
  lin : List GConn
  lout : List GConn
  deriving DecidableEq, Repr

/-- What goes out of `baddr` is moved to `lout`. What comes in is moved to `lin` after that, also when
it is in `lout` already. -/
def moveConns (baddr : Nat) : List GConn → Sorted
  | [] => ⟨[], [], []⟩
  | c :: cs =>
    let s := moveConns baddr cs
    if c.dstAddr = baddr then { s with lin := c :: s.lin }
    else if c.srcAddr = baddr then { s with lout := c :: s.lout }
    else { s with lc := c :: s.lc }

/-- A replacement for two connections. -/
def joined (src dst : GConn) : GConn where
  cparam := ""
  srcName := src.srcName
  srcAddr := src.srcAddr
  dstName := dst.dstName
  dstAddr := dst.dstAddr
  netBaddr := src.dstAddr

def rewireRb (baddr : Nat) (conns : List GConn) : List GConn :=
  let s := moveConns baddr conns
  s.lc ++ s.lin.flatMap fun src => s.lout.map fun dst => joined src dst

/-- A remote or mirror brick. -/
def GBrick.isNet (b : GBrick) : Prop := b.name = "remote" ∨ b.name = "mirror"

instance (b : GBrick) : Decidable b.isNet := inferInstanceAs (Decidable (_ ∨ _))

def removeRb : List GBrick → List GConn → List GBrick × List GConn
  | [], conns => ([], conns)
  | b :: bs, conns =>
    if b.isNet then removeRb bs (rewireRb b.addr conns)
    else
      let r := removeRb bs conns
      (b :: r.1, r.2)

/-! ## The graph -/

/-- There is a connection from output `p` to input `q`. -/
def Edge (conns : List GConn) (p q : Nat × String) : Prop :=
  ∃ c ∈ conns, (c.srcAddr, c.srcName) = p ∧ (c.dstAddr, c.dstName) = q

/-- The addresses of the net bricks. -/
def netAddrs (bricks : List GBrick) : Set Nat := { a | ∃ b ∈ bricks, b.isNet ∧ b.addr = a }

/-- No net brick is left, nor a connection with one. The other connections are kept, and two other
bricks are connected exactly if they were so, at least through net bricks. -/
structure Transparent (bricks : List GBrick) (conns : List GConn)
    (view : List GBrick × List GConn) : Prop where
  members : ∀ b, b ∈ view.1 ↔ b ∈ bricks ∧ ¬ b.isNet
  ends : ∀ c ∈ view.2, c.srcAddr ∉ netAddrs bricks ∧ c.dstAddr ∉ netAddrs bricks
  kept : ∀ c ∈ conns, c.srcAddr ∉ netAddrs bricks → c.dstAddr ∉ netAddrs bricks → c ∈ view.2
  edges : ∀ p q : Nat × String, p.1 ∉ netAddrs bricks → q.1 ∉ netAddrs bricks →
    (Edge view.2 p q ↔ Through (netAddrs bricks) (Edge conns) p q)

/-- No other brick can be reached, through net bricks, from a cycle of net bricks. -/
def NoCycleLeadsOut (bricks : List GBrick) (conns : List GConn) : Prop :=
  ¬ ∃ b ∈ netAddrs bricks, Cyclic (netAddrs bricks) (Edge conns) b ∧
    ∃ o q, q.1 ∉ netAddrs bricks ∧ Through (netAddrs bricks) (Edge conns) (b, o) q

end Athomux.NetTransparent

/-!
## The net bricks are taken out

A connection from a net brick to itself is both incoming and outgoing, but is only kept as an
incoming one. What is made of it comes from a brick that is not there any more.
-/

open Lib

namespace Athomux.NetTransparent

variable {baddr : Nat} {c : GConn} {conns : List GConn} {b : GBrick} {bricks : List GBrick}
  {p q : Nat × String} {R : Set Nat}

/-! ## One net brick -/

theorem moveConns_cons (baddr : Nat) (c : GConn) (cs : List GConn) : moveConns baddr (c :: cs) =
    let s := moveConns baddr cs
    if c.dstAddr = baddr then { s with lin := c :: s.lin }
    else if c.srcAddr = baddr then { s with lout := c :: s.lout }
    else { s with lc := c :: s.lc } := rfl

theorem mem_lc : c ∈ (moveConns baddr conns).lc ↔
    c ∈ conns ∧ c.srcAddr ≠ baddr ∧ c.dstAddr ≠ baddr := by
  induction conns with
  | nil => simp [moveConns]
  | cons d ds ih =>
    rw [moveConns_cons]
    simp only
    split_ifs with hd hs
    · rw [ih, List.mem_cons]
      refine ⟨fun h => ⟨.inr h.1, h.2⟩, ?_⟩
      rintro ⟨rfl | h, h'⟩
      · exact absurd hd h'.2
      · exact ⟨h, h'⟩
    · rw [ih, List.mem_cons]
      refine ⟨fun h => ⟨.inr h.1, h.2⟩, ?_⟩
      rintro ⟨rfl | h, h'⟩
      · exact absurd hs h'.1
      · exact ⟨h, h'⟩
    · rw [List.mem_cons, List.mem_cons, ih]
      constructor
      · rintro (rfl | h)
        · exact ⟨.inl rfl, hs, hd⟩
        · exact ⟨.inr h.1, h.2⟩
      · rintro ⟨rfl | h, h'⟩
        · exact .inl rfl
        · exact .inr ⟨h, h'⟩

theorem lin_eq : (moveConns baddr conns).lin = conns.filter fun c => c.dstAddr = baddr := by
  induction conns with
  | nil => rfl
  | cons d ds ih =>
    rw [moveConns_cons]
    simp only [List.filter_cons, decide_eq_true_eq]
    split_ifs <;> simp only [ih]

theorem lout_eq : (moveConns baddr conns).lout =
    conns.filter fun c => c.dstAddr ≠ baddr ∧ c.srcAddr = baddr := by
  induction conns with
  | nil => rfl
  | cons d ds ih =>
    rw [moveConns_cons]
    simp only [List.filter_cons, decide_eq_true_eq]
    by_cases hd : d.dstAddr = baddr
    · simp only [hd, if_true, ne_eq, not_true_eq_false, false_and, if_false, ih]
    · by_cases hs : d.srcAddr = baddr
      · simp only [hd, hs, if_true, ne_eq, not_false_eq_true, and_self, if_false, ih]
      · simp only [hd, hs, ne_eq, and_false, if_false, ih]

theorem mem_rewireRb : c ∈ rewireRb baddr conns ↔
    (c ∈ conns ∧ c.srcAddr ≠ baddr ∧ c.dstAddr ≠ baddr) ∨
      ∃ src ∈ conns, ∃ dst ∈ conns, src.dstAddr = baddr ∧ dst.srcAddr = baddr ∧
        dst.dstAddr ≠ baddr ∧ c = joined src dst := by
  unfold rewireRb
  simp only [List.mem_append, mem_lc, List.mem_flatMap, List.mem_map, lin_eq, lout_eq,
    List.mem_filter, decide_eq_true_eq]
  refine or_congr_right ⟨?_, ?_⟩
  · rintro ⟨src, ⟨hsrc, hin⟩, dst, ⟨hdst, hne, hout⟩, rfl⟩
    exact ⟨src, hsrc, dst, hdst, hin, hout, hne, rfl⟩
  · rintro ⟨src, hsrc, dst, hdst, hin, hout, hne, rfl⟩
    exact ⟨src, ⟨hsrc, hin⟩, dst, ⟨hdst, hne, hout⟩, rfl⟩

theorem takenOut_rewireRb : TakenOut baddr (Edge conns) (Edge (rewireRb baddr conns)) := by
  intro p q
  constructor
  · rintro ⟨c, hc, rfl, rfl⟩
    rcases mem_rewireRb.mp hc with ⟨hc, hs, hd⟩ | ⟨src, hsrc, dst, hdst, hin, hout, hne, rfl⟩
    · exact .inl ⟨⟨c, hc, rfl, rfl⟩, hs, hd⟩
    · refine .inr ⟨hne, src.dstName, dst.srcName, ⟨src, hsrc, rfl, ?_⟩, ⟨dst, hdst, ?_, rfl⟩⟩
      · rw [hin]
      · rw [hout]
  · rintro (⟨⟨c, hc, rfl, rfl⟩, hs, hd⟩ | ⟨hne, i, o, ⟨src, hsrc, rfl, hin⟩, ⟨dst, hdst, hout, rfl⟩⟩)
    · exact ⟨c, mem_rewireRb.mpr (.inl ⟨hc, hs, hd⟩), rfl, rfl⟩
    · obtain ⟨hin, -⟩ := Prod.mk.inj hin
      obtain ⟨hout, -⟩ := Prod.mk.inj hout
      exact ⟨joined src dst, mem_rewireRb.mpr (.inr ⟨src, hsrc, dst, hdst, hin, hout, hne, rfl⟩),
        rfl, rfl⟩

/-! ## All net bricks -/

theorem netAddrs_cons_net (h : b.isNet) :
    netAddrs (b :: bricks) = insert b.addr (netAddrs bricks) := by
  ext a
  constructor
  · rintro ⟨d, hd, hnet, rfl⟩
    rcases List.mem_cons.mp hd with rfl | hd
    · exact .inl rfl
    · exact .inr ⟨d, hd, hnet, rfl⟩
  · rintro (rfl | ⟨d, hd, hnet, rfl⟩)
    · exact ⟨b, List.mem_cons_self, h, rfl⟩
    · exact ⟨d, List.mem_cons_of_mem _ hd, hnet, rfl⟩

theorem netAddrs_cons (h : ¬ b.isNet) : netAddrs (b :: bricks) = netAddrs bricks := by
  ext a
  constructor
  · rintro ⟨d, hd, hnet, rfl⟩
    rcases List.mem_cons.mp hd with rfl | hd
    · exact absurd hnet h
    · exact ⟨d, hd, hnet, rfl⟩
  · rintro ⟨d, hd, hnet, rfl⟩
    exact ⟨d, List.mem_cons_of_mem _ hd, hnet, rfl⟩

/-- What is left of `E`, brick after brick. -/
theorem eliminated_removeRb {E : Nat × String → Nat × String → Prop}
    (hdistinct : (bricks.map GBrick.addr).Nodup) (hR : ∀ b ∈ bricks, b.isNet → b.addr ∉ R)
    (h : Eliminated R E (Edge conns)) :
    Eliminated (netAddrs bricks ∪ R) E (Edge (removeRb bricks conns).2) := by
  induction bricks generalizing conns R with
  | nil =>
    have hnil : netAddrs [] = ∅ := Set.eq_empty_of_forall_notMem fun a ⟨b, hb, _⟩ => by cases hb
    rw [hnil, Set.empty_union]
    exact h
  | cons b bs ih =>
    obtain ⟨hb, hdistinct⟩ := List.nodup_cons.mp hdistinct
    unfold removeRb
    by_cases hnet : b.isNet
    · rw [if_pos hnet, netAddrs_cons_net hnet, Set.insert_union, ← Set.union_insert]
      refine ih hdistinct (fun d hd hdnet => ?_)
        (h.takeOut (hR b List.mem_cons_self hnet) takenOut_rewireRb)
      refine Eliminated.notMem_insert (hR d (List.mem_cons_of_mem _ hd) hdnet) fun heq => hb ?_
      rw [← heq]
      exact List.mem_map_of_mem hd
    · rw [if_neg hnet, netAddrs_cons hnet]
      exact ih hdistinct (fun d hd => hR d (List.mem_cons_of_mem _ hd)) h

theorem removeRb_bricks : (removeRb bricks conns).1 = bricks.filter fun b => ¬ b.isNet := by
  induction bricks generalizing conns with
  | nil => rfl
  | cons b bs ih =>
    unfold removeRb
    by_cases hnet : b.isNet
    · rw [if_pos hnet, List.filter_cons_of_neg (by simpa using hnet), ih]
    · rw [if_neg hnet, List.filter_cons_of_pos (by simpa using hnet)]
      exact congrArg (b :: ·) ih

theorem removeRb_kept (hc : c ∈ conns) (hs : c.srcAddr ∉ netAddrs bricks)
    (hd : c.dstAddr ∉ netAddrs bricks) : c ∈ (removeRb bricks conns).2 := by
  induction bricks generalizing conns with
  | nil => exact hc
  | cons b bs ih =>
    unfold removeRb
    by_cases hnet : b.isNet
    · rw [netAddrs_cons_net hnet] at hs hd
      rw [if_pos hnet]
      refine ih (mem_rewireRb.mpr (.inl ⟨hc, fun h => hs (.inl h), fun h => hd (.inl h)⟩))
        (fun h => hs (.inr h)) fun h => hd (.inr h)
    · rw [netAddrs_cons hnet] at hs hd
      rw [if_neg hnet]
      exact ih hc hs hd

/-- **The view is the graph without its net bricks** exactly if no cycle of net bricks leads to another
brick. -/
theorem view_transparent (bricks : List GBrick) (conns : List GConn)
    (hdistinct : (bricks.map GBrick.addr).Nodup) :
    Transparent bricks conns (removeRb bricks conns) ↔ NoCycleLeadsOut bricks conns := by
  have h : Eliminated (netAddrs bricks) (Edge conns) (Edge (removeRb bricks conns).2) := by
    have := eliminated_removeRb hdistinct (fun _ _ _ => Set.notMem_empty _)
      (Eliminated.start (E := Edge conns))
    rwa [Set.union_empty] at this
  have hleft : NoCycleLeadsOut bricks conns ↔
      ∀ c ∈ (removeRb bricks conns).2, c.srcAddr ∉ netAddrs bricks := by
    unfold NoCycleLeadsOut
    rw [← h.leftover_iff]
    constructor
    · exact fun hno c hc hs => hno ⟨_, _, hs, c, hc, rfl, rfl⟩
    · rintro hno ⟨p, q, hp, c, hc, rfl, rfl⟩
      exact hno c hc hp
  rw [hleft]
  refine ⟨fun ht c hc => (ht.ends c hc).1, fun hsrc => ?_⟩
  refine ⟨fun b => ?_, fun c hc => ⟨hsrc c hc, h.target _ _ ⟨c, hc, rfl, rfl⟩⟩,
    fun c hc hs hd => removeRb_kept hc hs hd, fun p q hp hq => ?_⟩
  · rw [removeRb_bricks, List.mem_filter, decide_eq_true_eq]
  · exact (h.kept p q hp).trans ⟨fun h => h.2, fun h => ⟨hq, h⟩⟩

/-- A brick with one net brick between it and another one. -/
theorem view_transparent_chain :
    Transparent [⟨1, "a", ""⟩, ⟨2, "remote", ""⟩, ⟨3, "b", ""⟩]
        [⟨"", "out", 1, "in", 2, 0⟩, ⟨"", "out", 2, "in", 3, 0⟩]
        (removeRb [⟨1, "a", ""⟩, ⟨2, "remote", ""⟩, ⟨3, "b", ""⟩]
          [⟨"", "out", 1, "in", 2, 0⟩, ⟨"", "out", 2, "in", 3, 0⟩]) ↔
      NoCycleLeadsOut [⟨1, "a", ""⟩, ⟨2, "remote", ""⟩, ⟨3, "b", ""⟩]
        [⟨"", "out", 1, "in", 2, 0⟩, ⟨"", "out", 2, "in", 3, 0⟩] :=
  view_transparent _ _ (by decide)

/-- A net brick is connected with itself and with another brick. -/
theorem view_not_transparent :
    ¬ Transparent [⟨1, "remote", ""⟩, ⟨2, "a", ""⟩]
        [⟨"", "out", 1, "in", 1, 0⟩, ⟨"", "out", 1, "in", 2, 0⟩]
        (removeRb [⟨1, "remote", ""⟩, ⟨2, "a", ""⟩]
          [⟨"", "out", 1, "in", 1, 0⟩, ⟨"", "out", 1, "in", 2, 0⟩]) := by
  intro h
  have hc : (⟨"", "out", 1, "in", 2, 1⟩ : GConn) ∈ (removeRb [⟨1, "remote", ""⟩, ⟨2, "a", ""⟩]
      [⟨"", "out", 1, "in", 1, 0⟩, ⟨"", "out", 1, "in", 2, 0⟩]).2 := by decide
  exact (h.ends _ hc).1 ⟨⟨1, "remote", ""⟩, List.mem_cons_self, .inl rfl, rfl⟩

end Athomux.NetTransparent
