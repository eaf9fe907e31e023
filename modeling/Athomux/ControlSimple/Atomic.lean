import Athomux.ControlSimple.Spec
import Mathlib.Tactic.Common

/-!
# What a failed initialisation leaves

The parameter is freed but not forgotten, and the header of a new member of a dynamic array is lost.
-/

open Lib

namespace Athomux.ControlSimple

namespace Sys

variable {s t u : Sys} {r : Request} {k : Nat} {lc : LoadConn} {c : ConnPtr} {old : Bool} {index : Int}

/-! ## What is prepared -/

theorem freeMember_spec {n i : Nat} (hn : n ≤ lc.count) (h : s.freeMember lc n = some i) :
    i < lc.count ∧ (s.brick.conn (.static (lc.startIndex + i))).cParam = none := by
  induction n with
  | zero => cases h
  | succ n ih =>
    rw [freeMember] at h
    split_ifs at h with hnone
    · cases h
      exact ⟨by omega, Option.isNone_iff_eq_none.mp hnone⟩
    · exact ih (by omega) h

/-- The headers that the request can be about: those in the brick, and those that are linked. -/
def Known (b : Brick) (c : ConnPtr) : Prop := (∃ i, c = .static i) ∨ c ∈ b.connectors

theorem getConn_known {b : Brick} (h : b.getConn lc index = some c) : Known b c := by
  unfold Brick.getConn at h
  split_ifs at h
  · exact Or.inr (List.mem_of_find?_eq_some h)
  · exact Or.inl ⟨_, (Option.some.inj h).symm⟩

/-- The connector is a new header, a member without a parameter, or as it was. -/
theorem pickConn_cases (h : s.pickConn lc index = some (c, t)) :
    (lc.count = 0 ∧ c = .dynamic s.heap.next ∧
      t = { s with
        heap := s.heap.malloc
        counter := s.counter + 1
        brick := s.brick.set c { Conn.zero with cIndex := s.counter } }) ∨
    (∃ i : Nat, i < lc.count ∧ c = .static (lc.startIndex + i) ∧ (s.brick.conn c).cParam = none ∧
      t = { s with brick := s.brick.set c { s.brick.conn c with cIndex := i } }) ∨
    (t = s ∧ s.brick.getConn lc index = some c) := by
  unfold pickConn at h
  by_cases hindex : index < 0
  · rw [if_pos hindex, newConn] at h
    split_ifs at h with hcount
    · cases h
      exact Or.inl ⟨hcount, rfl, rfl⟩
    · obtain ⟨i, hi, h⟩ := Option.map_eq_some_iff.mp h
      cases h
      obtain ⟨hlt, hnone⟩ := freeMember_spec (Nat.le_refl _) hi
      exact Or.inr (Or.inl ⟨i, hlt, rfl, hnone, rfl⟩)
  · rw [if_neg hindex] at h
    cases hget : s.brick.getConn lc index with
    | none => rw [hget] at h; cases h
    | some d =>
      rw [hget] at h
      simp only at h
      split_ifs at h
      cases h
      exact Or.inr (Or.inr ⟨rfl, rfl⟩)

theorem prepare_ready (h : s.prepare r = .ready t k lc c old) :
    s.brick.findLoadConn r.name = some k ∧ s.brick.loader.conn[k]? = some lc ∧
      ∃ s₁, s.pickConn lc r.index = some (c, s₁) ∧ s₁.setUp k lc c r.space = .ready t k lc c old := by
  have hready : ∀ {s₁ : Sys} {k' lc' c'}, s₁.setUp k' lc' c' r.space = .ready t k lc c old →
      k' = k ∧ lc' = lc ∧ c' = c := by
    intro s₁ k' lc' c' hset
    unfold setUp at hset
    split_ifs at hset <;> cases hset <;> exact ⟨rfl, rfl, rfl⟩
  unfold prepare at h
  cases hk : s.brick.findLoadConn r.name with
  | none => rw [hk] at h; cases h
  | some k' =>
    rw [hk] at h
    simp only at h
    cases hlc : s.brick.loader.conn[k']? with
    | none => rw [hlc] at h; cases h
    | some lc' =>
      rw [hlc] at h
      simp only at h
      cases hpick : s.pickConn lc' r.index with
      | none => rw [hpick] at h; cases h
      | some e =>
        obtain ⟨c', s₁⟩ := e
        rw [hpick] at h
        simp only at h
        obtain ⟨rfl, rfl, rfl⟩ := hready h
        exact ⟨rfl, hlc, s₁, hpick, h⟩

theorem setUp_refused {space : Bool} (h : s.setUp k lc c space = .refused t) : t = s := by
  unfold setUp at h
  split_ifs at h
  · cases h
    rfl

theorem prepare_refused (h : s.prepare r = .refused t) :
    t = s ∨ ∃ k lc c, s.brick.findLoadConn r.name = some k ∧ s.brick.loader.conn[k]? = some lc ∧
      s.pickConn lc r.index = some (c, t) := by
  unfold prepare at h
  cases hk : s.brick.findLoadConn r.name with
  | none => rw [hk] at h; cases h; exact Or.inl rfl
  | some k =>
    rw [hk] at h
    simp only at h
    cases hlc : s.brick.loader.conn[k]? with
    | none => rw [hlc] at h; cases h; exact Or.inl rfl
    | some lc =>
      rw [hlc] at h
      simp only at h
      cases hpick : s.pickConn lc r.index with
      | none => rw [hpick] at h; cases h; exact Or.inl rfl
      | some e =>
        obtain ⟨c, s₁⟩ := e
        rw [hpick] at h
        obtain rfl := setUp_refused h
        exact Or.inr ⟨k, lc, c, rfl, hlc, hpick⟩

/-- The parameter is stored. -/
def store (s : Sys) (c : ConnPtr) : Sys :=
  { s with
    heap := s.heap.malloc
    brick := s.brick.set c { s.brick.conn c with cParam := some s.heap.next } }

theorem store_self (s : Sys) (c : ConnPtr) :
    (s.store c).brick.conn c = { s.brick.conn c with cParam := some s.heap.next } :=
  Brick.set_self _ _ _

/-- The connector keeps a parameter, or gets one. It is created where it has not been. -/
theorem setUp_ready (h : s.setUp k lc c r.space = .ready t k lc c old) :
    ∃ s₂, ((s₂ = s ∧ (s.brick.conn c).cParam ≠ none) ∨
        (s₂ = s.store c ∧ (s.brick.conn c).cParam = none)) ∧
      old = (s.brick.conn c).belonging ∧
      t = if (s.brick.conn c).belonging then s₂
        else s₂.createConn c k lc (s.brick.conn c).cIndex := by
  unfold setUp at h
  cases hparam : (s.brick.conn c).cParam with
  | some q =>
    rw [hparam] at h
    cases h
    exact ⟨s, Or.inl ⟨rfl, Option.some_ne_none q⟩, rfl, rfl⟩
  | none =>
    rw [hparam] at h
    cases hspace : r.space with
    | false => rw [hspace] at h; cases h
    | true =>
      rw [hspace] at h
      refine ⟨s.store c, Or.inr ⟨rfl, rfl⟩, ?_⟩
      have hself := store_self s c
      cases h
      change ((s.store c).brick.conn c).belonging = _ ∧
        (if ((s.store c).brick.conn c).belonging = true then s.store c
          else (s.store c).createConn c k lc ((s.store c).brick.conn c).cIndex) = _
      rw [hself]
      exact ⟨rfl, rfl⟩

theorem createConn_self (s : Sys) (c : ConnPtr) (k : Nat) (lc : LoadConn) (index : Int) :
    ((s.createConn c k lc index).brick.conn c) =
      { s.brick.conn c with
        belonging := true
        loadConn := some k
        cIndex := index
        inst := if lc.count = 0 then .own s.heap.next else .inside } := by
  unfold createConn
  split_ifs <;> exact Brick.set_self _ _ _

theorem createConn_connectors (s : Sys) (c : ConnPtr) (k : Nat) (lc : LoadConn) (index : Int) :
    (s.createConn c k lc index).brick.connectors = s.brick.connectors := by
  unfold createConn
  split_ifs <;> rfl

theorem createConn_heap (s : Sys) (c : ConnPtr) (k : Nat) (lc : LoadConn) (index : Int) :
    (s.createConn c k lc index).heap = if lc.count = 0 then s.heap.malloc else s.heap := by
  unfold createConn
  split_ifs <;> rfl

/-! ## What is undone -/

theorem undo_spec (h : t.undo lc c = some u) :
    u.brick = t.brick ∧ ∃ heap,
      (if lc.count = 0 then freeInst t.heap (t.brick.conn c).inst else some t.heap) = some heap ∧
        freeParam heap (t.brick.conn c).cParam = some u.heap := by
  obtain ⟨heap, hheap, h⟩ := Option.bind_eq_some_iff.mp h
  obtain ⟨heap', hheap', rfl⟩ := Option.map_eq_some_iff.mp h
  exact ⟨rfl, heap, hheap, hheap'⟩

theorem live_of_freeInst {h h' : Heap} {i : Inst} {q : Nat} (hf : freeInst h i = some h')
    (hq : h'.live q = true) : h.live q = true := by
  cases i with
  | null => cases hf; exact hq
  | inside => cases hf
  | own p => exact (Heap.live_of_free hf hq).1

/-- Nothing that has been there is changed. -/
structure Unchanged (s u : Sys) : Prop where
  connectors : u.brick.connectors = s.brick.connectors
  instantiated : ∀ c, Known s.brick c →
    ((u.brick.conn c).cParam = none ↔ (s.brick.conn c).cParam = none)
  allocations : ∀ p, u.heap.live p = s.heap.live p

/-- A parameter that the connector has had is freed. -/
theorem not_unchanged_of_param {q : Nat} (hq : (s.brick.conn c).cParam = some q)
    (ht : t = if (s.brick.conn c).belonging then s
      else s.createConn c k lc (s.brick.conn c).cIndex)
    (hu : t.undo lc c = some u) : ¬Unchanged s u := by
  obtain ⟨-, heap, hheap, hparam⟩ := undo_spec hu
  have htq : (t.brick.conn c).cParam = some q := by
    rw [ht]
    split_ifs
    · exact hq
    · rw [createConn_self]
      exact hq
  rw [htq] at hparam
  intro h
  have hlive := (Heap.free_eq_some hparam).1
  have hnot : s.heap.live q = false := by
    rw [← h.allocations q]
    exact Heap.free_self hparam
  refine absurd ?_ (Bool.eq_false_iff.mp hnot)
  by_cases hold : (s.brick.conn c).belonging = true
  · rw [if_pos hold] at ht
    subst ht
    split_ifs at hheap
    · exact live_of_freeInst hheap hlive
    · cases hheap
      exact hlive
  · rw [if_neg hold] at ht
    rw [ht, createConn_heap, createConn_self] at hheap
    split_ifs at hheap with hcount
    · -- the new instance has been freed before
      obtain ⟨hmalloc, hne⟩ := Heap.live_of_free hheap hlive
      rw [Heap.malloc_live, Bool.or_eq_true, decide_eq_true_iff] at hmalloc
      exact hmalloc.resolve_left hne
    · cases hheap
      exact hlive

/-- A connector that has had none gets one, and keeps it. -/
theorem not_unchanged_of_known {s₁ : Sys} (hc : Known s.brick c)
    (hnone : (s.brick.conn c).cParam = none)
    (ht : t = if (s₁.brick.conn c).belonging then s₁.store c
      else (s₁.store c).createConn c k lc (s₁.brick.conn c).cIndex)
    (hu : t.undo lc c = some u) : ¬Unchanged s u := by
  obtain ⟨hbrick, -⟩ := undo_spec hu
  intro h
  have hsome := (h.instantiated c hc).mpr hnone
  rw [hbrick, ht] at hsome
  split_ifs at hsome
  · rw [store_self] at hsome
    cases hsome
  · rw [createConn_self, store_self] at hsome
    cases hsome

/-- The header of a new member is lost. -/
theorem not_unchanged_of_new {s₁ : Sys} (hcount : lc.count = 0) (hheap : s₁.heap = s.heap.malloc)
    (hconn : (s₁.brick.conn c).belonging = false)
    (ht : t = if (s₁.brick.conn c).belonging then s₁.store c
      else (s₁.store c).createConn c k lc (s₁.brick.conn c).cIndex)
    (hu : t.undo lc c = some u) : ¬Unchanged s u := by
  obtain ⟨-, heap, hfirst, hparam⟩ := undo_spec hu
  rw [hconn, if_neg Bool.false_ne_true] at ht
  have hinst : (t.brick.conn c).inst = .own (s₁.store c).heap.next := by
    rw [ht, createConn_self]
    exact if_pos hcount
  have hstored : (t.brick.conn c).cParam = some s₁.heap.next := by
    rw [ht, createConn_self, store_self]
  rw [hstored] at hparam
  rw [hinst, ht, createConn_heap, if_pos hcount, if_pos hcount] at hfirst
  have hnext : s₁.heap.next = s.heap.next + 1 := by rw [hheap]; rfl
  have hlost : s.heap.next ≠ s₁.heap.next := by omega
  have hlost' : s.heap.next ≠ (s₁.store c).heap.next := by
    have : (s₁.store c).heap.next = s₁.heap.next + 1 := rfl
    omega
  intro h
  have hlive := h.allocations s.heap.next
  rw [Heap.free_other hparam hlost, Heap.free_other hfirst hlost', s.heap.beyond _ (Nat.le_refl _)]
    at hlive
  have hmalloc : (s₁.store c).heap.malloc.live s.heap.next = true := by
    refine Heap.malloc_mono (Heap.malloc_mono ?_)
    rw [hheap]
    exact Heap.malloc_self
  rw [hmalloc] at hlive
  cases hlive

/-- **A failed initialisation is never undone**: it leaves a connector with a parameter that has been
freed, has freed the parameter of the brick, or has lost a header. -/
theorem never_unchanged (h : s.prepare r = .ready t k lc c old) :
    ¬∃ u, s.instconn r false = some (u, none) ∧ Unchanged s u := by
  rintro ⟨u, hinst, hsame⟩
  have hu : t.undo lc c = some u := by
    unfold instconn at hinst
    rw [h] at hinst
    obtain ⟨v, hv, heq⟩ := Option.map_eq_some_iff.mp hinst
    cases heq
    exact hv
  obtain ⟨-, -, s₁, hpick, hset⟩ := prepare_ready h
  obtain ⟨s₂, hs₂, -, ht⟩ := setUp_ready hset
  obtain ⟨hcount, rfl, rfl⟩ | ⟨i, -, rfl, hnone, rfl⟩ | ⟨rfl, hget⟩ := pickConn_cases hpick
  · have hzero : ((s.brick.set (.dynamic s.heap.next)
        { Conn.zero with cIndex := s.counter }).conn (.dynamic s.heap.next)) =
          { Conn.zero with cIndex := s.counter } := Brick.set_self _ _ _
    obtain ⟨rfl, hparam⟩ | ⟨rfl, -⟩ := hs₂
    · rw [hzero] at hparam
      exact hparam rfl
    · exact not_unchanged_of_new hcount rfl (by rw [hzero]; rfl) ht hu hsame
  · obtain ⟨rfl, hparam⟩ | ⟨rfl, -⟩ := hs₂
    · refine hparam ?_
      rw [Brick.set_self]
      exact hnone
    · exact not_unchanged_of_known (Or.inl ⟨_, rfl⟩) hnone ht hu hsame
  · obtain ⟨rfl, hparam⟩ | ⟨rfl, hnone⟩ := hs₂
    · obtain ⟨q, hq⟩ := Option.ne_none_iff_exists'.mp hparam
      exact not_unchanged_of_param hq ht hu hsame
    · exact not_unchanged_of_known (getConn_known hget) hnone ht hu hsame

end Sys

/-! ## A brick with one input -/

/-- A brick with a single connector. -/
def Loader.single (lc : LoadConn) : Loader where
  conn := [lc]
  apart := fun k k' _ _ hk _ hk' => by
    obtain ⟨hlt, -⟩ := List.getElem?_eq_some_iff.mp hk'
    rw [List.length_singleton] at hlt
    omega

def oneInput : Sys :=
  Sys.newBrick (Heap.empty 1) 10000 (.single ⟨"in".toList, [], false, true, 0, 1, 1⟩)

def inputRequest : Sys.Request := ⟨"in".toList, 0, true⟩

theorem never_unchanged_input :
    ¬∃ u, oneInput.instconn inputRequest false = some (u, none) ∧ Sys.Unchanged oneInput u :=
  Sys.never_unchanged (r := inputRequest) rfl

/-- The input cannot be instantiated any more, and its parameter is freed again with the brick. -/
theorem input_not_as_before :
    ∃ u, oneInput.instconn inputRequest false = some (u, none) ∧ ¬Sys.Unchanged oneInput u ∧
      u.instconn inputRequest true = some (u, none) ∧ u.deleteBrick = none ∧
      oneInput.deleteBrick ≠ none := by
  refine ⟨_, rfl, fun h => ?_, rfl, rfl, fun h => (by cases h)⟩
  have hsame := h.instantiated (.static 0) (Or.inl ⟨0, rfl⟩)
  cases hsame.mpr rfl

end Athomux.ControlSimple
