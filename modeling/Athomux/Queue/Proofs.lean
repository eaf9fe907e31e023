import Mathlib.Data.List.Nodup
import Mathlib.Tactic.SplitIfs
import Athomux.Queue.Spec

/-! # The queue keeps its packets in order -/

open Lib

namespace Athomux.Queue

/-! ## The invariant -/

structure Inv (s : Sys) : Prop where
  startNonneg : 0 ≤ s.status.availStart
  startLt : s.status.availStart < queueBufsize
  lenNonneg : 0 ≤ s.status.availLen
  lenLe : s.status.availLen ≤ queueBufsize
  fifo : s.created = s.consumed ++ queued s.status
  nodup : s.created.Nodup

theorem inv_init {s : Sys} (h : Init s) : Inv s := by
  obtain ⟨hstart, hlen, -, hcreated, hconsumed⟩ := h
  exact {
    startNonneg := by omega
    startLt := by rw [hstart]; decide
    lenNonneg := by omega
    lenLe := by rw [hlen]; decide
    fifo := by simp [hcreated, hconsumed, queued, hlen]
    nodup := by simp [hcreated] }

/-- The invariant speaks about the status and the two sequences only. -/
theorem Inv.of_eq {s t : Sys} (h : Inv s) (hst : t.status = s.status)
    (hcr : t.created = s.created) (hco : t.consumed = s.consumed) : Inv t := by
  obtain ⟨h1, h2, h3, h4, h5, h6⟩ := h
  exact ⟨hst ▸ h1, hst ▸ h2, hst ▸ h3, hst ▸ h4, by rw [hcr, hco, hst]; exact h5, hcr ▸ h6⟩

theorem Inv.goto {s : Sys} (h : Inv s) (c : Nat) (pc : Pc) : Inv (s.goto c pc) :=
  h.of_eq rfl rfl rfl

/-! ## Slots -/

theorem writerStart_eq {st : Status} (hs : 0 ≤ st.availStart) (hl : 0 ≤ st.availLen) :
    writerStart st = ((st.availStart.toNat + st.availLen.toNat) % queueBufsize : Nat) := by
  obtain ⟨a, ha⟩ := Int.eq_ofNat_of_zero_le hs
  obtain ⟨n, hn⟩ := Int.eq_ofNat_of_zero_le hl
  rw [writerStart, ha, hn, ← Int.natCast_add, ← Int.ofNat_tmod]
  rfl

theorem delete_availStart {st : Status} (hs : 0 ≤ st.availStart) :
    (delete st).availStart = ((st.availStart.toNat + 1) % queueBufsize : Nat) := by
  obtain ⟨a, ha⟩ := Int.eq_ofNat_of_zero_le hs
  simp only [delete, ha]
  exact (Int.ofNat_tmod (a + 1) queueBufsize).symm

/-- Taking the packet at the head away. -/
theorem queued_delete {st : Status} (hs : 0 ≤ st.availStart)
    (hlt : st.availStart < queueBufsize) (hl : 0 < st.availLen) :
    queued st = st.buffer st.availStart :: queued (delete st) := by
  obtain ⟨a, ha⟩ := Int.eq_ofNat_of_zero_le hs
  have hpop := ring_pop (fun i => st.buffer i) queueBufsize st.availStart.toNat
    st.availLen.toNat 1 (by omega)
  have hlen : (delete st).availLen.toNat = st.availLen.toNat - 1 := by simp only [delete]; omega
  rw [queued, hpop, queued, delete_availStart hs, hlen, Int.toNat_natCast]
  have hhead : ring (fun i => st.buffer i) queueBufsize st.availStart.toNat 1 =
      [st.buffer st.availStart] := by
    rw [ring_of_le _ (by omega)]
    simp [ha]
  rw [hhead]
  rfl

/-- A packet more at the write position. -/
theorem queued_create {st : Status} (hs : 0 ≤ st.availStart) (hl : 0 ≤ st.availLen) :
    queued (create st) = queued st ++ [st.buffer (writerStart st)] := by
  have hlen : (create st).availLen.toNat = st.availLen.toNat + 1 := by simp only [create]; omega
  rw [queued, hlen, ring_add, writerStart_eq hs hl]
  rfl

/-- The write position is outside of what is queued as long as there is room. -/
theorem queued_fill {st : Status} (p : Packet) (hs : 0 ≤ st.availStart) (hl : 0 ≤ st.availLen)
    (hroom : st.availLen < queueBufsize) : queued (fill st p) = queued st := by
  apply ring_congr
  intro i hi
  simp only [fill] at hi ⊢
  rw [Function.update_of_ne]
  rw [writerStart_eq hs hl]
  intro heq
  have := ring_index_inj (by omega) (by omega) (Int.natCast_inj.mp heq)
  omega

/-! ## What `$gadr` answers -/

theorem readerBlock_granted {st : Status} {a : GadrArgs} {p : Packet}
    (h : readerBlock st a = .granted p) :
    p = st.buffer st.availStart ∧ a.logLen ≤ p.logLen ∧ (p.logLen ≤ a.tryLen ∨ a.tryLen = 0) := by
  unfold readerBlock at h
  simp only at h
  split_ifs at h with hfit
  cases h
  exact ⟨rfl, hfit⟩

theorem readerGadr_granted {st : Status} {a : GadrArgs} {p : Packet}
    (h : readerGadr st a = .granted p ∨ readerWoken st a = .granted p) :
    st.availLen ≠ 0 ∧ readerBlock st a = .granted p := by
  rcases h with h | h
  · unfold readerGadr at h
    split_ifs at h with _ hlen
    exact ⟨hlen, h⟩
  · unfold readerWoken at h
    split_ifs at h with hlen
    exact ⟨hlen, h⟩

theorem writerGadr_fill {st : Status} {action : Action} {reader : Bool}
    (h : writerGadr st action reader = .fill) : st.availLen ≠ queueBufsize := by
  unfold writerGadr at h
  split_ifs at h with _ hlen
  exact hlen

theorem writerWoken_fill {st : Status} (h : writerWoken st = .fill) :
    st.availLen ≠ queueBufsize := by
  unfold writerWoken at h
  split_ifs at h with hlen
  exact hlen

/-! ## One step -/

theorem Inv.readerAnswer {s : Sys} (h : Inv s) (c : Nat) (a : GadrArgs) (r : GadrAnswer) :
    Inv (s.readerAnswer c a r) := by
  cases r <;> exact h.goto c _

theorem Inv.writerAnswer {s : Sys} (h : Inv s) (c : Nat) (mem : Option (Nat × Nat))
    {r : WriterAnswer} (hr : r = .fill → s.status.availLen ≠ queueBufsize) :
    Inv (s.writerAnswer c mem r) := by
  cases r with
  | refused => exact h.goto c _
  | wait => exact h.goto c _
  | fill =>
    have hroom := hr rfl
    cases mem with
    | none => exact h.goto c _
    | some m =>
      have hlenLe := h.lenLe
      exact { h with
        fifo := by
          simp only [Sys.writerAnswer]
          rw [queued_fill _ h.startNonneg h.lenNonneg (by omega)]
          exact h.fifo }

theorem Inv.consume {s : Sys} (h : Inv s) (c : Nat) {p : Packet} (hpos : 0 < s.status.availLen)
    (hp : s.status.buffer s.status.availStart = p) : Inv (s.consume c p) := by
  have hstart : (s.consume c p).status.availStart = _ := delete_availStart h.startNonneg
  have hlen : (s.consume c p).status.availLen = s.status.availLen - 1 := rfl
  have hlenLe := h.lenLe
  have hmod : (s.status.availStart.toNat + 1) % queueBufsize < queueBufsize :=
    Nat.mod_lt _ (by decide)
  exact {
    startNonneg := by omega
    startLt := by omega
    lenNonneg := by omega
    lenLe := by omega
    fifo := by
      simp only [Sys.consume, Sys.goto]
      rw [h.fifo, queued_delete h.startNonneg h.startLt hpos, hp, List.append_assoc]
      rfl
    nodup := h.nodup }

theorem Inv.create {s : Sys} (h : Inv s) (c : Nat) {p : Packet}
    (hroom : s.status.availLen < queueBufsize) (hp : s.status.buffer (writerStart s.status) = p)
    (hnew : p ∉ s.created) : Inv (s.create c p) := by
  have hlen : (s.create c p).status.availLen = s.status.availLen + 1 := rfl
  have hnonneg := h.lenNonneg
  exact {
    startNonneg := h.startNonneg
    startLt := h.startLt
    lenNonneg := by omega
    lenLe := by omega
    fifo := by
      simp only [Sys.create, Sys.goto]
      rw [queued_create h.startNonneg h.lenNonneg, hp, h.fifo, List.append_assoc]
    nodup := by
      simp only [Sys.create, Sys.goto, ← List.concat_eq_append]
      exact h.nodup.concat hnew }

theorem inv_step {s t : Sys} {e : Nat × Event} (h : Inv s) (hok : LockedCheck s e)
    (hs : step s e = some t) : Inv t := by
  obtain ⟨c, e⟩ := e
  cases e with
  | readerGadr a lockOk =>
    simp only [step] at hs
    split at hs <;> simp only [Option.some.injEq, reduceCtorEq] at hs
    rw [← hs]
    exact h.readerAnswer c a _
  | readerWoken lockOk =>
    simp only [step] at hs
    split at hs <;> simp only [Option.some.injEq, reduceCtorEq] at hs
    rw [← hs]
    exact h.readerAnswer c _ _
  | readerDelete p =>
    simp only [step] at hs
    split at hs <;> simp only [Option.some.injEq, reduceCtorEq] at hs
    rw [← hs]
    split
    · exact h.goto c _
    · exact h
  | readerDeleteLocked lockOk memOk =>
    simp only [step] at hs
    split at hs <;> simp only [Option.some.injEq, reduceCtorEq] at hs
    rename_i p hpc
    rw [← hs]
    split
    · rename_i hboth
      obtain ⟨rfl, rfl⟩ := hboth
      simp only [LockedCheck, hpc, Deletable] at hok
      obtain ⟨hpos, hp⟩ := hok
      exact h.consume c hpos hp
    · exact h.goto c _
  | writerGadr action reader lockOk mem =>
    simp only [step] at hs
    split at hs <;> simp only [Option.some.injEq, reduceCtorEq] at hs
    rw [← hs]
    apply h.writerAnswer
    intro hfill
    split at hfill
    · exact writerGadr_fill hfill
    · cases hfill
  | writerWoken lockOk mem =>
    simp only [step] at hs
    split at hs <;> simp only [Option.some.injEq, reduceCtorEq] at hs
    rw [← hs]
    apply h.writerAnswer
    intro hfill
    split at hfill
    · exact writerWoken_fill hfill
    · cases hfill
  | writerCreate p =>
    simp only [step] at hs
    split at hs <;> simp only [Option.some.injEq, reduceCtorEq] at hs
    rw [← hs]
    split
    · exact h.goto c _
    · exact h
  | writerCreateLocked lockOk =>
    simp only [step] at hs
    split at hs <;> simp only [Option.some.injEq, reduceCtorEq] at hs
    rename_i p hpc
    rw [← hs]
    split
    · rename_i hlock
      obtain rfl : lockOk = true := hlock
      simp only [LockedCheck, hpc, Creatable] at hok
      obtain ⟨hroom, hp, hnew⟩ := hok
      exact h.create c hroom hp hnew
    · exact h.goto c _

/-! ## Whole runs -/

/-- **The queue hands on every packet once and in order.** In every run in which
`$delete` and `$create` find in the lock what they checked before it, the bounds
hold, what was created is what was consumed and then what is queued, each packet
once, and `$gadr` of the reader answers with the packet at the head. -/
theorem queue_fifo {s : Sys} (h : Reach step Init LockedCheck s) :
    (0 ≤ s.status.availStart ∧ s.status.availStart < 20) ∧
    (0 ≤ s.status.availLen ∧ s.status.availLen ≤ 20) ∧
    s.created = s.consumed ++ queued s.status ∧ s.created.Nodup ∧
    (∀ a p, readerGadr s.status a = .granted p ∨ readerWoken s.status a = .granted p →
      (queued s.status).head? = some p) := by
  have hinv : Inv s := h.invariant (fun _ => inv_init) (fun _ _ _ => inv_step)
  refine ⟨⟨hinv.startNonneg, hinv.startLt⟩, ⟨hinv.lenNonneg, hinv.lenLe⟩, hinv.fifo, hinv.nodup, ?_⟩
  intro a p hg
  obtain ⟨hne, hblock⟩ := readerGadr_granted hg
  have hnonneg := hinv.lenNonneg
  rw [queued_delete hinv.startNonneg hinv.startLt (by omega), (readerBlock_granted hblock).1]
  rfl

def fresh : Sys where
  status := ⟨0, 0, fun _ => ⟨0, 0, 0⟩⟩
  pc := fun _ => .idle
  made := 0
  created := []
  consumed := []

theorem fresh_init : Init fresh := ⟨rfl, rfl, fun _ => rfl, rfl, rfl⟩

/-- Two packets through the queue. The second one is created while the first one is taken out. -/
theorem queue_fifo_two_packets :
    ∃ s : Sys, s.created = [⟨64, 8, 0⟩, ⟨96, 16, 1⟩] ∧ s.consumed = [⟨64, 8, 0⟩] ∧
      s.status.availLen = 1 ∧ s.created = s.consumed ++ queued s.status := by
  have hrun : (run step LockedCheck fresh [
      (0, .writerGadr .try false true (some (64, 8))),
      (0, .writerCreate ⟨64, 8, 0⟩), (0, .writerCreateLocked true),
      (2, .writerGadr .try false true (some (96, 16))),
      (1, .readerGadr ⟨4, 0, .ask, true⟩ true),
      (2, .writerCreate ⟨96, 16, 1⟩), (1, .readerDelete ⟨64, 8, 0⟩),
      (2, .writerCreateLocked true), (1, .readerDeleteLocked true true)]).map
      (fun s => (s.created, s.consumed, s.status.availLen)) =
      some ([⟨64, 8, 0⟩, ⟨96, 16, 1⟩], [⟨64, 8, 0⟩], 1) := by decide
  obtain ⟨s, hs, heq⟩ := Option.map_eq_some_iff.mp hrun
  simp only [Prod.mk.injEq] at heq
  exact ⟨s, heq.1, heq.2.1, heq.2.2, (queue_fifo ((Reach.start fresh_init).of_run hs)).2.2.1⟩

def fillUp : List (Nat × Event) :=
  (List.range 20).flatMap fun i => [
    (0, .writerGadr .try false true (some (64 + i, 8))),
    (0, .writerCreate ⟨64 + i, 8, i⟩), (0, .writerCreateLocked true)]

/-- On a full queue the write position is the head, so `$create` of the oldest
packet passes. On an empty one the head is the write position, so `$delete` of the
packet that the writer is about to fill in passes. -/
theorem queue_bounds_broken :
    (∃ s, Reach step Init anyEvent s ∧ s.status.availLen = 21) ∧
    (∃ s, Reach step Init anyEvent s ∧ s.status.availLen = -1 ∧ s.created = [] ∧
      s.consumed = [⟨64, 8, 0⟩]) := by
  constructor
  · have hrun : (run step anyEvent fresh (fillUp ++ [
        (0, .writerCreate ⟨64, 8, 0⟩), (0, .writerCreateLocked true)])).map
        (fun s => s.status.availLen) = some 21 := by decide +kernel
    obtain ⟨s, hs, heq⟩ := Option.map_eq_some_iff.mp hrun
    exact ⟨s, (Reach.start fresh_init).of_run hs, heq⟩
  · have hrun : (run step anyEvent fresh [
        (0, .writerGadr .try false true (some (64, 8))),
        (1, .readerDelete ⟨64, 8, 0⟩), (1, .readerDeleteLocked true true)]).map
        (fun s => (s.status.availLen, s.created, s.consumed)) =
          some (-1, [], [⟨64, 8, 0⟩]) := by decide
    obtain ⟨s, hs, heq⟩ := Option.map_eq_some_iff.mp hrun
    simp only [Prod.mk.injEq] at heq
    exact ⟨s, (Reach.start fresh_init).of_run hs, heq.1, heq.2.1, heq.2.2⟩

end Athomux.Queue
