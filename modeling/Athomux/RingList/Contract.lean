import Athomux.Lib.Run
import Athomux.RingList.Refine

/-! # Rings over a run -/

open Lib

namespace Athomux.RingList

variable {c : PcConfig} {m m' : Store} {rs rs' : Rings} {addr p : Nat} {l : List Nat} {op : Op}
  {r r0 r1 r2 r3 : GetReply}

/-- At the start of a piece `LI_GET` gives what `PC_GET` gives. -/
theorem liGet_eq {elem : Nat} (h : Coherent c m) (hf : Fetches c m elem r)
    (hstart : c.baseOffset elem = 0) (dirty : Bool) : m.liGet c elem dirty r = m.get c elem dirty r := by
  obtain ⟨hco, -, -, b, hb, -, hlog, hlen, -⟩ := get_spec h hf dirty
  have hfits := hco.fits _ b hb
  have hptr : ((m.cache.lookUp c elem c.whole dirty r).elems (c.hash elem)).pcPtr = b.ptr :=
    PtrCache.pcPtr_of_slot hb
  have hzero : add64 ((m.cache.lookUp c elem c.whole dirty r).elems (c.hash elem)).pcPtr 0 =
      ((m.cache.lookUp c elem c.whole dirty r).elems (c.hash elem)).pcPtr := by
    unfold sizeofLink at hlen
    rw [hptr, add64_eq (by omega), Nat.add_zero]
  unfold Store.liGet Store.get PtrCache.pcGet
  dsimp only
  rw [hstart, hzero]

theorem Linked.get (h : Linked c m rs) (hf : Fetches c m addr r) (dirty : Bool) :
    Got c m (m.get c addr dirty r).2 addr (m.get c addr dirty r).1 dirty ∧
      Linked c (m.get c addr dirty r).2 rs := by
  have hg := get_spec h.coherent hf dirty
  exact ⟨hg, h.same hg.coherent hg.view hg.stores⟩

/-! ## The macros -/

theorem init_linked {start : Nat} (h : Linked c m rs) (hfree : rs.Free start)
    (hf : Fetches c m start r) : Linked c (m.liInit c start r) (([start] : List Nat) ::ₘ rs) := by
  obtain ⟨hg, hs⟩ := h.get hf true
  exact linked_init hs hfree hg.pinned

theorem append_linked {start elem : Nat} (h : Linked c m ((start :: l : List Nat) ::ₘ rs))
    (hfree : Rings.Free ((start :: l : List Nat) ::ₘ rs) elem)
    (hclean : Clean c m (.append start elem r1 r2 r3)) :
    Linked c (m.liAppend c start elem r1 r2 r3) ((start :: elem :: l : List Nat) ::ₘ rs) := by
  obtain ⟨hf1, hf2, hf3, hk2, hk3, hk3'⟩ := hclean
  obtain ⟨hg1, h1⟩ := h.get hf1 true
  obtain ⟨hg2, h2⟩ := h1.get hf2 true
  obtain ⟨hg3, h3⟩ := h2.get hf3 true
  have hs2 := hg1.pinned.get hk2 r2 true
  have hs3 := hs2.get hk3 r3 true
  have he3 := hg2.pinned.get hk3' r3 true
  have hnext := (congrArg (nextAt · start) hg3.view).trans (peek_eq h2.coherent hs2).symm
  exact linked_append h3 hfree hs3 he3 hnext hg3.pinned

theorem prepend_linked {start elem : Nat} (h : Linked c m ((start :: l : List Nat) ::ₘ rs))
    (hfree : Rings.Free ((start :: l : List Nat) ::ₘ rs) elem)
    (hclean : Clean c m (.prepend start elem r1 r2 r3)) :
    Linked c (m.liPrepend c start elem r1 r2 r3) ((elem :: start :: l : List Nat) ::ₘ rs) := by
  obtain ⟨hf1, hf2, hf3, hk2, hk3, hk3'⟩ := hclean
  obtain ⟨hg1, h1⟩ := h.get hf1 true
  obtain ⟨hg2, h2⟩ := h1.get hf2 true
  obtain ⟨hg3, h3⟩ := h2.get hf3 true
  have hs2 := hg1.pinned.get hk2 r2 true
  have hs3 := hs2.get hk3 r3 true
  have he3 := hg2.pinned.get hk3' r3 true
  have hprev := (congrArg (prevAt · start) hg3.view).trans (peek_prev_eq h2.coherent hs2).symm
  exact linked_prepend h3 hfree hs3 he3 hprev hg3.pinned

theorem remove_linked {elem : Nat} (h : Linked c m ((elem :: l : List Nat) ::ₘ rs))
    (hclean : Clean c m (.remove elem r0 r1 r2)) :
    Linked c (m.liRemove c elem r0 r1 r2) ((l : Cycle Nat) ::ₘ rs) := by
  obtain ⟨hf0, hf1, hf2, hk⟩ := hclean
  obtain ⟨hg0, h0⟩ := h.get hf0 false
  obtain ⟨hg1, h1⟩ := h0.get hf1 true
  obtain ⟨hg2, h2⟩ := h1.get hf2 true
  have hl := hg1.pinned.get hk r2 true
  have hview := hg2.view.trans hg1.view
  have hleft := (congrArg (prevAt · elem) hview).trans (peek_prev_eq h0.coherent hg0.pinned).symm
  have hright := (congrArg (nextAt · elem) hview).trans (peek_eq h0.coherent hg0.pinned).symm
  exact linked_remove h2 hleft hright hl hg2.pinned

/-- `LI_NEXT` gives the element behind. -/
theorem next_linked {elem : Nat} (h : Linked c m ((elem :: l : List Nat) ::ₘ rs))
    (hf : Fetches c m elem r) :
    Linked c (m.liNext c elem r).2 ((elem :: l : List Nat) ::ₘ rs) ∧
      (c.baseOffset elem = 0 → (m.liNext c elem r).1 = (l ++ [elem]).head (by simp)) := by
  obtain ⟨hg, hm⟩ := h.get hf false
  refine ⟨hm, fun hstart => ?_⟩
  unfold Store.liNext
  dsimp only
  rw [liGet_eq h.coherent hf hstart]
  exact (peek_eq hm.coherent hg.pinned).trans hm.ring.next_head

/-! ## `PC_FLUSH` -/

theorem calls_allPut {s : PtrCache} {i n : Nat} : s.calls <+: (PtrCache.allPut i n s).calls := by
  induction n generalizing i s with
  | zero => exact List.prefix_rfl
  | succ n ih => exact (calls_evict s i).trans ih

theorem allPut_spec {i n : Nat} (h : Coherent c m) :
    Coherent c (m.after (PtrCache.allPut i n m.cache)) ∧
      (m.after (PtrCache.allPut i n m.cache)).view c = m.view c := by
  induction n generalizing i m with
  | zero =>
    rw [PtrCache.allPut, after_same rfl]
    exact ⟨h, rfl⟩
  | succ n ih =>
    obtain ⟨hco, hview⟩ := ih (i := i + 1) (coherent_evict h i)
    have hafter := after_after (m := m) (t := PtrCache.allPut (i + 1) n (m.cache.evict i))
      (calls_evict m.cache i) calls_allPut
    rw [PtrCache.allPut, ← hafter]
    exact ⟨hco, hview.trans (view_evict h i)⟩

/-- All of it is in the nest then. -/
theorem flush_spec (h : Coherent c m) (hv : m.cache.pcVersion ≠ 0) :
    Coherent c (m.flush c) ∧ (m.flush c).view c = m.view c ∧ (m.flush c).nest = m.view c := by
  obtain ⟨hco, hview⟩ := allPut_spec (i := 0) (n := c.max) h
  have hflush : m.flush c = ⟨m.cache.pcFlush c, (m.after (PtrCache.allPut 0 c.max m.cache)).nest,
      (m.after (PtrCache.allPut 0 c.max m.cache)).phys, m.stores⟩ := by
    have hcalls : (m.cache.pcFlush c).calls = (PtrCache.allPut 0 c.max m.cache).calls := by
      unfold PtrCache.pcFlush
      rw [if_pos hv]
    unfold Store.flush Store.after
    rw [hcalls]
  have hslots : (m.flush c).cache.slot = (PtrCache.allPut 0 c.max m.cache).slot := by
    change (m.cache.pcFlush c).slot = _
    unfold PtrCache.pcFlush
    rw [if_pos hv]
    rfl
  have hnone (i : Nat) (b : Buffer) : (m.flush c).cache.slot i ≠ some b := by
    intro hb
    rw [hslots] at hb
    have hlt := hco.bound i b hb
    rw [PtrCache.allPut_slot, if_pos ⟨Nat.zero_le i, by omega⟩] at hb
    cases hb
  have hnest : (m.flush c).view c = (m.flush c).nest :=
    funext fun x => view_of_none fun i b hb => absurd hb (hnone i b)
  have hsame : (m.flush c).view c = m.view c := by
    rw [← hview, hflush]
    funext x
    unfold Store.view PtrCache.slots
    rw [hflush] at hslots
    rw [hslots]
    rfl
  refine ⟨⟨fun i b hb => absurd hb (hnone i b), fun i b hb => absurd hb (hnone i b),
    fun i _ b _ _ hb => absurd hb (hnone i b), fun i b hb => absurd hb (hnone i b)⟩, hsame,
    hnest.symm.trans hsame⟩

/-! ## Runs -/

theorem step_linked (h : Linked c m rs) (hring : RingStep rs op rs') (hclean : Clean c m op) :
    Linked c (m.exec c op) rs' := by
  cases hring with
  | init hfree => exact init_linked h hfree hclean
  | append hfree => exact append_linked h hfree hclean
  | prepend hfree => exact prepend_linked h hfree hclean
  | remove => exact remove_linked h hclean
  | next => exact (next_linked h hclean).1
  | flush =>
    obtain ⟨hco, hview, -⟩ := flush_spec h.coherent hclean
    exact h.same hco hview rfl

theorem initial_linked {s : Store × Rings} (h : initial s) : Linked c s.1 s.2 := by
  obtain ⟨hcache, hstores, hrs⟩ := h
  have hnone (i : Nat) (b : Buffer) : s.1.cache.slot i ≠ some b := by
    rw [hcache]
    intro hb
    have hzero : PcElem.zero.buffer = none := by decide
    cases hzero.symm.trans hb
  refine ⟨⟨fun i b hb => absurd hb (hnone i b), fun i b hb => absurd hb (hnone i b),
    fun i _ b _ _ hb => absurd hb (hnone i b), fun i b hb => absurd hb (hnone i b)⟩, ?_, ?_, ?_, ?_⟩
  · rw [hrs]
    exact Multiset.nodup_zero
  · rw [hrs]
    exact fun x hx => absurd hx (Multiset.notMem_zero x)
  · rw [hrs]
    exact fun x hx => absurd hx (Multiset.notMem_zero x)
  · unfold Sound
    rw [hstores]
    exact fun w hw => absurd hw List.not_mem_nil

/-- **The rings that are read back through the cache are the rings of the lists**, as long as no get
puts what is still in use. They are in the nest after a flush, and every store to a link was through
a buffer that was held, had the whole link and was marked. -/
theorem rings_are_kept (c : PcConfig) (s : Store × Rings)
    (h : Reach (step c) initial (Fits c) s) :
    (∀ ring ∈ s.2, LinkedRing (nextAt (s.1.view c)) (prevAt (s.1.view c)) ring) ∧
      (s.1.cache.pcVersion ≠ 0 → ∀ ring ∈ s.2,
        LinkedRing (nextAt (s.1.flush c).nest) (prevAt (s.1.flush c).nest) ring) ∧
      (∀ elem l r, ((elem :: l : List Nat) : Cycle Nat) ∈ s.2 → Fetches c s.1 elem r →
        c.baseOffset elem = 0 → (s.1.liNext c elem r).1 = (l ++ [elem]).headD 0) ∧
      ∀ w ∈ s.1.stores, w.Sound c := by
  have hl : Linked c s.1 s.2 := by
    refine Reach.invariant (I := fun s => Linked c s.1 s.2) (fun s hs => initial_linked hs) ?_ h
    intro s e t hl hok hst
    cases hst
    exact step_linked hl hok.1 hok.2
  refine ⟨hl.rings, fun hv => ?_, fun elem l r hmem hf hstart => ?_, hl.sound⟩
  · rw [(flush_spec hl.coherent hv).2.2]
    exact hl.rings
  · obtain ⟨rest, hrest⟩ := Multiset.exists_cons_of_mem hmem
    rw [hrest] at hl
    rw [(next_linked hl hf).2 hstart]
    cases l <;> rfl

/-- `use PC name [max] aligned(16) round`. -/
def links (max : Nat) (h : 0 < max) : PcConfig := ⟨16, 16, max, Nat.succ_pos 15, Nat.succ_pos 15, h⟩

def fresh : Store := ⟨.init, fun _ => 0, fun _ => 0, []⟩

def reply (ptr : Nat) : GetReply := ⟨true, ptr, 16⟩

theorem fresh_fetches : Fetches (links 4 (by decide)) fresh 16 (reply 1000) := by
  refine ⟨by decide, ?_⟩
  rw [if_pos (by decide)]
  refine ⟨by decide, by decide, by decide, fun i b _ hb => ?_⟩
  have hzero : PcElem.zero.buffer = none := by decide
  cases hzero.symm.trans hb

theorem fresh_free (e : Nat) (he : e + sizeofLink ≤ addrSpace) : Rings.Free 0 e :=
  ⟨he, fun x hx => absurd hx (Multiset.notMem_zero x)⟩

/-- Only the slots that the cache has can be in the way of a get that misses. -/
theorem fetches_of_miss (h : Coherent c m) (haddr : c.baseAddr2 addr % 4 = 0)
    (hmiss : m.cache.misses c addr = true)
    (hgot : r.granted (c.baseLen (c.baseOffset addr) c.whole) = true ∧
      c.baseOffset addr + sizeofLink ≤ c.baseLen (c.baseOffset addr) c.whole ∧
      r.physAddr + c.baseLen (c.baseOffset addr) c.whole ≤ addrSpace)
    (hslots : ∀ i < c.max, i ≠ c.hash addr → ∀ b ∈ m.cache.slot i,
      (b.logAddr + b.len ≤ c.baseAddr2 addr ∨
        c.baseAddr2 addr + c.baseLen (c.baseOffset addr) c.whole ≤ b.logAddr) ∧
      (b.ptr + b.len ≤ r.physAddr ∨
        r.physAddr + c.baseLen (c.baseOffset addr) c.whole ≤ b.ptr)) : Fetches c m addr r := by
  refine ⟨haddr, ?_⟩
  rw [if_pos hmiss]
  exact ⟨hgot.1, hgot.2.1, hgot.2.2, fun i b hi hb => hslots i (h.bound i b hb) hi b hb⟩

theorem fetches_of_hit (haddr : c.baseAddr2 addr % 4 = 0) (hmiss : m.cache.misses c addr = false)
    (hlen : c.baseOffset addr + sizeofLink ≤ (m.cache.elems (c.hash addr)).pcLen) :
    Fetches c m addr r := by
  refine ⟨haddr, ?_⟩
  rw [if_neg (by rw [hmiss]; decide)]
  exact hlen

theorem free_single {e : Nat} (he : e + sizeofLink ≤ addrSpace)
    (h : ∀ x ∈ l, x + sizeofLink ≤ e ∨ e + sizeofLink ≤ x) :
    Rings.Free ((l : Cycle Nat) ::ₘ 0) e := by
  refine ⟨he, fun x hx => h x ?_⟩
  simpa [Rings.elems] using hx

def four : PcConfig := links 4 (Nat.succ_pos 3)

/-- A ring of one element, and one more behind it. -/
def one : Store := fresh.exec four (.init 16 (reply 1000))

def two : Store := one.exec four (.append 16 32 (reply 1100) (reply 1200) (reply 1300))

/-- After a flush a third one is put in front, so that every get misses. -/
def flushed : Store := two.exec four .flush

def three : Store := flushed.exec four (.prepend 16 48 (reply 1400) (reply 1500) (reply 1600))

theorem two_clean (h : Coherent four one) :
    Clean four one (.append 16 32 (reply 1100) (reply 1200) (reply 1300)) := by
  have hf1 : Fetches four one 16 (reply 1100) := fetches_of_hit (by decide) (by decide) (by decide)
  have h1 := (get_spec h hf1 true).coherent
  have hf2 : Fetches four (one.get four 16 true (reply 1100)).2 32 (reply 1200) :=
    fetches_of_miss h1 (by decide) (by decide) (by decide) (by decide)
  refine ⟨hf1, hf2, fetches_of_hit (by decide) (by decide) (by decide), fun _ => by decide, ?_, ?_⟩
  -- The element behind the first one is the first one.
  · intro hmiss
    exact absurd hmiss (by decide)
  · intro hmiss
    exact absurd hmiss (by decide)

theorem three_clean (h : Coherent four flushed) :
    Clean four flushed (.prepend 16 48 (reply 1400) (reply 1500) (reply 1600)) := by
  have hf1 : Fetches four flushed 16 (reply 1400) :=
    fetches_of_miss h (by decide) (by decide) (by decide) (by decide)
  have h1 := (get_spec h hf1 true).coherent
  have hf2 : Fetches four (flushed.get four 16 true (reply 1400)).2 48 (reply 1500) :=
    fetches_of_miss h1 (by decide) (by decide) (by decide) (by decide)
  have h2 := (get_spec h1 hf2 true).coherent
  exact ⟨hf1, hf2, fetches_of_miss h2 (by decide) (by decide) (by decide) (by decide),
    fun _ => by decide, fun _ => by decide, fun _ => by decide⟩

/-- Three elements, each in a slot of its own. -/
theorem rings_are_kept_three :
    (∀ ring ∈ (([48, 16, 32] : List Nat) ::ₘ 0 : Rings),
      LinkedRing (nextAt (three.view four)) (prevAt (three.view four)) ring) ∧
      three.stores.length = 10 ∧ ∀ w ∈ three.stores, w.Sound four := by
  have h0 : Reach (step four) initial (Fits four) (fresh, 0) := .start ⟨rfl, rfl, rfl⟩
  have hone : Fits four (fresh, 0) (.init 16 (reply 1000), ([16] : List Nat) ::ₘ 0) :=
    ⟨.init (fresh_free 16 (by decide)), fresh_fetches⟩
  have l1 : Linked four one (([16] : List Nat) ::ₘ 0) :=
    step_linked (initial_linked (s := (fresh, 0)) ⟨rfl, rfl, rfl⟩) hone.1 hone.2
  have htwo : Fits four (one, ([16] : List Nat) ::ₘ 0)
      (.append 16 32 (reply 1100) (reply 1200) (reply 1300), ([16, 32] : List Nat) ::ₘ 0) :=
    ⟨.append (free_single (by decide) (by decide)), two_clean l1.coherent⟩
  have l2 : Linked four two (([16, 32] : List Nat) ::ₘ 0) := step_linked l1 htwo.1 htwo.2
  have hflush : Fits four (two, ([16, 32] : List Nat) ::ₘ 0)
      (.flush, ([16, 32] : List Nat) ::ₘ 0) :=
    ⟨.flush, (by decide : two.cache.pcVersion ≠ 0)⟩
  have l3 : Linked four flushed (([16, 32] : List Nat) ::ₘ 0) := step_linked l2 hflush.1 hflush.2
  have hthree : Fits four (flushed, ([16, 32] : List Nat) ::ₘ 0)
      (.prepend 16 48 (reply 1400) (reply 1500) (reply 1600), ([48, 16, 32] : List Nat) ::ₘ 0) :=
    ⟨.prepend (free_single (by decide) (by decide)), three_clean l3.coherent⟩
  have hreach := (((h0.next hone rfl).next htwo rfl).next hflush rfl).next hthree rfl
  obtain ⟨hrings, -, -, hsound⟩ := rings_are_kept four _ hreach
  exact ⟨hrings, by decide, hsound⟩

/-- One slot, and two elements. -/
def lost : Store :=
  (fresh.exec (links 1 Nat.one_pos) (.init 16 (reply 1000))).exec (links 1 Nat.one_pos)
    (.append 16 32 (reply 1100) (reply 1200) (reply 1300))

/-- The store to the links of the first one. -/
def lostAccess : Access := (lost.stores[3]?).getD ⟨.init, 0, 0⟩

/-- `LI_APPEND` writes to a buffer that the get of the new element has put. -/
theorem rings_are_lost :
    Reach (step (links 1 (by decide))) initial (fun s e => RingStep s.2 e.1 e.2)
        (lost, ([16, 32] : List Nat) ::ₘ 0) ∧
      ¬ LinkedRing (nextAt (lost.view (links 1 (by decide))))
        (prevAt (lost.view (links 1 (by decide)))) ([16, 32] : List Nat) ∧
      ∃ w ∈ lost.stores, ¬ w.Sound (links 1 (by decide)) := by
  refine ⟨?_, fun h => ?_, ?_⟩
  · have hfirst : Reach (step (links 1 (by decide))) initial (fun s e => RingStep s.2 e.1 e.2)
        (fresh.exec (links 1 (by decide)) (.init 16 (reply 1000)), ([16] : List Nat) ::ₘ 0) :=
      .next (e := (.init 16 (reply 1000), ([16] : List Nat) ::ₘ 0))
        (.start (s := (fresh, 0)) ⟨rfl, rfl, rfl⟩) (.init (fresh_free 16 (by decide))) rfl
    have hfree : Rings.Free (([16] : List Nat) ::ₘ 0) 32 := by
      refine ⟨by decide, fun x hx => ?_⟩
      have hx16 : x = 16 := by simpa [Rings.elems] using hx
      rw [hx16]
      decide
    have hring : RingStep (([16] : List Nat) ::ₘ 0)
        (.append 16 32 (reply 1100) (reply 1200) (reply 1300)) (([16, 32] : List Nat) ::ₘ 0) :=
      .append hfree
    exact .next (e := (.append 16 32 (reply 1100) (reply 1200) (reply 1300),
      ([16, 32] : List Nat) ::ₘ 0)) hfirst hring rfl
  · have hnext : nextAt (lost.view (links 1 (by decide))) 16 = 16 := by decide +kernel
    have hhead := h.next_head
    rw [hnext] at hhead
    exact absurd hhead (by decide)
  · refine ⟨lostAccess, List.mem_of_getElem? (i := 3) rfl, ?_⟩
    rintro ⟨i, hi, b, hb, -, -, -, hptr⟩
    obtain rfl : i = 0 := Nat.lt_one_iff.mp hi
    have hslot : lostAccess.cache.slot 0 = some ⟨1300, 16, 16⟩ := by decide +kernel
    cases hslot.symm.trans hb
    have hlost : lostAccess.ptr = 1000 ∧ lostAccess.elem = 16 := by decide +kernel
    rw [hlost.1, hlost.2] at hptr
    exact absurd hptr (by decide)

end Athomux.RingList
