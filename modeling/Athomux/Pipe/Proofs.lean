import Mathlib.Tactic.SplitIfs
import Athomux.Pipe.Spec

/-! # The pipe is a byte queue -/

open Lib

namespace Athomux.Pipe

/-! ## What `$gadr` answers -/

theorem grantedLen_le (a : GadrArgs) (n : Nat) : grantedLen a n ≤ n := by
  unfold grantedLen; split <;> omega

theorem le_grantedLen (a : GadrArgs) (n : Nat) (h : a.logLen ≤ n) : a.logLen ≤ grantedLen a n := by
  unfold grantedLen; split <;> omega

/-- A grant starts at the side's position, stays in its block and is long enough. -/
def Fits (bufStart : Nat) (side : Side) (a : GadrArgs) (addr len : Nat) : Prop :=
  addr = add64 bufStart side.pos ∧ len ≤ side.blockAvail ∧ a.logLen ≤ len

theorem grant_fits {bufStart : Nat} {side : Side} {a : GadrArgs} {addr len : Nat}
    (hlen : a.logLen ≤ side.blockAvail) (h : grant bufStart side a = .granted addr len) :
    Fits bufStart side a addr len := by
  simp only [grant, GadrAnswer.granted.injEq] at h
  obtain ⟨rfl, rfl⟩ := h
  exact ⟨rfl, grantedLen_le a _, le_grantedLen a _ hlen⟩

theorem gadr_fits {bufStart : Nat} {side : Side} {a : GadrArgs} {addr len : Nat}
    (h : gadr bufStart side a = .granted addr len) : Fits bufStart side a addr len := by
  unfold gadr at h
  split_ifs at h with _ hlt
  exact grant_fits (by omega) h

theorem gadrWoken_fits {bufStart : Nat} {side : Side} {a : GadrArgs} {addr len : Nat}
    (h : gadrWoken bufStart side a = .granted addr len) : Fits bufStart side a addr len := by
  unfold gadrWoken at h
  split_ifs at h with hlt
  exact grant_fits (by omega) h

/-! ## The invariant -/

structure Inv (s : Sys) : Prop where
  lenPos : 0 < s.status.bufLen
  fits : s.status.bufStart + s.status.bufLen ≤ addrSpace
  half : s.status.bufLen ≤ 2 ^ 63
  startLt : s.status.availStart < s.status.bufLen
  lenLe : s.status.availLen ≤ s.status.bufLen
  readerIn : s.readerGrant.len ≤ s.status.availLen
  readerEnd : s.status.availStart + s.readerGrant.len ≤ s.status.bufLen
  readerAt : s.readerGrant.len ≠ 0 → s.readerGrant.addr = s.status.bufStart + s.status.availStart
  writerIn : s.writerGrant.len + s.status.availLen ≤ s.status.bufLen
  writerEnd : writerStart s.status + s.writerGrant.len ≤ s.status.bufLen
  writerAt : s.writerGrant.len ≠ 0 →
    s.writerGrant.addr = s.status.bufStart + writerStart s.status
  readerChecked : ∀ n, s.readerPc = .checked n → n ≤ s.readerGrant.len
  writerChecked : ∀ n, s.writerPc = .checked n → n ≤ s.writerGrant.len
  fifo : s.committed = s.released ++
    ring (fun i => s.mem (s.status.bufStart + i)) s.status.bufLen s.status.availStart
      s.status.availLen

theorem Inv.writerStart_eq {s : Sys} (h : Inv s) :
    writerStart s.status = (s.status.availStart + s.status.availLen) % s.status.bufLen := by
  have := h.startLt
  have := h.lenLe
  have := h.half
  rw [writerStart, add64_eq (by unfold addrSpace; omega)]

theorem Inv.writerStart_lt {s : Sys} (h : Inv s) : writerStart s.status < s.status.bufLen :=
  Nat.mod_lt _ h.lenPos

theorem Inv.bufLen_lt {s : Sys} (h : Inv s) : s.status.bufLen < addrSpace := by
  have := h.half
  unfold addrSpace
  omega

theorem inv_init {s : Sys} (h : Init s) : Inv s := by
  obtain ⟨hpos, hfits, hhalf, hstart, hlen, hr, hw, hrg, hwg, hc, hrel⟩ := h
  have hws : writerStart s.status = 0 := by
    simp [writerStart, hstart, hlen, add64]
  exact {
    lenPos := hpos, fits := hfits, half := hhalf
    startLt := by omega
    lenLe := by omega
    readerIn := by omega
    readerEnd := by omega
    readerAt := fun hne => absurd hrg hne
    writerIn := by omega
    writerEnd := by omega
    writerAt := fun hne => absurd hwg hne
    readerChecked := by simp [hr]
    writerChecked := by simp [hw]
    fifo := by simp [hc, hrel, hlen] }

/-! ## One step -/

theorem Inv.reader_granted {s : Sys} (h : Inv s) {a : GadrArgs} {addr len : Nat}
    (hf : Fits s.status.bufStart (readerSide s.status) a addr len) :
    Inv { s with readerPc := .idle, readerGrant := ⟨addr, len⟩ } := by
  have hstart := h.startLt
  have hbuf := h.bufLen_lt
  have hfits := h.fits
  obtain ⟨haddr, hlen, -⟩ := hf
  simp only [readerSide, sub64_eq hstart.le hbuf] at haddr hlen
  rw [add64_eq (by omega)] at haddr
  exact { h with
    readerIn := by simp only; omega
    readerEnd := by simp only; omega
    readerAt := fun _ => haddr
    readerChecked := by simp }

theorem Inv.writer_granted {s : Sys} (h : Inv s) {a : GadrArgs} {addr len : Nat}
    (hf : Fits s.status.bufStart (writerSide s.status) a addr len) :
    Inv { s with writerPc := .idle, writerGrant := ⟨addr, len⟩ } := by
  have hws := h.writerStart_lt
  have hbuf := h.bufLen_lt
  have hfits := h.fits
  have hlenLe := h.lenLe
  obtain ⟨haddr, hlen, -⟩ := hf
  simp only [writerSide, sub64_eq hws.le hbuf, sub64_eq hlenLe hbuf] at haddr hlen
  rw [add64_eq (by omega)] at haddr
  exact { h with
    writerIn := by simp only; omega
    writerEnd := by simp only; omega
    writerAt := fun _ => haddr
    writerChecked := by simp }

theorem Inv.readerAnswer {s : Sys} (h : Inv s) {a : GadrArgs} {r : GadrAnswer}
    (hr : ∀ addr len, r = .granted addr len →
      Fits s.status.bufStart (readerSide s.status) a addr len) : Inv (s.readerAnswer a r) := by
  cases r with
  | granted addr len => exact h.reader_granted (hr addr len rfl)
  | refused => exact { h with readerChecked := by simp [Sys.readerAnswer] }
  | wait => exact { h with readerChecked := by simp [Sys.readerAnswer] }

theorem Inv.writerAnswer {s : Sys} (h : Inv s) {a : GadrArgs} {r : GadrAnswer}
    (hr : ∀ addr len, r = .granted addr len →
      Fits s.status.bufStart (writerSide s.status) a addr len) : Inv (s.writerAnswer a r) := by
  cases r with
  | granted addr len => exact h.writer_granted (hr addr len rfl)
  | refused => exact { h with writerChecked := by simp [Sys.writerAnswer] }
  | wait => exact { h with writerChecked := by simp [Sys.writerAnswer] }

/-- A contiguous block of the buffer, read as bytes and as part of the ring. -/
theorem bytesAt_eq_ring (mem : Nat → UInt8) (cap : Nat) {base start n : Nat} (h : start + n ≤ cap) :
    bytesAt mem (base + start) n = ring (fun i => mem (base + i)) cap start n := by
  rw [ring_of_le _ h]
  simp only [bytesAt, Nat.add_assoc]

/-- Releasing at the head leaves the write position where it is. -/
theorem Inv.writerStart_delete {s : Sys} (h : Inv s) {n : Nat} (hn : n ≤ s.status.availLen) :
    writerStart (delete s.status n) = writerStart s.status := by
  have hstart := h.startLt
  have hlenLe := h.lenLe
  have hhalf := h.half
  have hbuf := h.bufLen_lt
  have hlt := Nat.mod_lt (s.status.availStart + n) h.lenPos
  unfold addrSpace at hbuf
  simp only [writerStart, delete]
  rw [add64_eq (a := s.status.availStart) (b := n) (by unfold addrSpace; omega),
    sub64_eq hn (by unfold addrSpace; omega), add64_eq (by unfold addrSpace; omega),
    add64_eq (by unfold addrSpace; omega), Nat.mod_add_mod]
  congr 1
  omega

theorem Inv.release {s : Sys} (h : Inv s) {n : Nat} (hn : n ≤ s.readerGrant.len) :
    Inv (s.release n) := by
  have hpos := h.lenPos
  have hhalf := h.half
  have hstart := h.startLt
  have hlenLe := h.lenLe
  have hin := h.readerIn
  have hend := h.readerEnd
  have hbuf := h.bufLen_lt
  have hsum : add64 s.status.availStart n = s.status.availStart + n :=
    add64_eq (by unfold addrSpace; omega)
  have hsub : sub64 s.status.availLen n = s.status.availLen - n := sub64_eq (by omega) (by omega)
  have hws : writerStart (s.release n).status = writerStart s.status :=
    h.writerStart_delete (by omega)
  have hstart' : (s.release n).status.availStart = (s.status.availStart + n) % s.status.bufLen := by
    simp only [Sys.release, delete, hsum]
  have hlen' : (s.release n).status.availLen = s.status.availLen - n := by
    simp only [Sys.release, delete, hsub]
  -- The head wraps to 0 exactly when the whole grant up to the buffer's end is released.
  have hwrap : (s.status.availStart + n) % s.status.bufLen = s.status.availStart + n ∨
      ((s.status.availStart + n) % s.status.bufLen = 0 ∧ s.readerGrant.len - n = 0) := by
    rcases Nat.lt_or_ge (s.status.availStart + n) s.status.bufLen with hlt | hge
    · exact Or.inl (Nat.mod_eq_of_lt hlt)
    · have heq : s.status.availStart + n = s.status.bufLen := by omega
      exact Or.inr ⟨by rw [heq, Nat.mod_self], by omega⟩
  exact {
    lenPos := hpos, fits := h.fits, half := hhalf
    startLt := by rw [hstart']; exact Nat.mod_lt _ hpos
    lenLe := by rw [hlen']; simp only [Sys.release, delete]; omega
    readerIn := by rw [hlen']; simp only [Sys.release, Grant.use]; omega
    readerEnd := by rw [hstart']; simp only [Sys.release, delete, Grant.use]; omega
    readerAt := by
      simp only [Sys.release, Grant.use]
      intro hne
      rw [h.readerAt (by omega)]
      simp only [delete, hsum]
      omega
    writerIn := by
      rw [hlen']
      have := h.writerIn
      simp only [Sys.release, delete]
      omega
    writerEnd := by rw [hws]; exact h.writerEnd
    writerAt := by rw [hws]; exact h.writerAt
    readerChecked := by simp [Sys.release]
    writerChecked := h.writerChecked
    fifo := by
      rw [hstart', hlen']
      simp only [Sys.release, delete]
      rw [h.fifo, List.append_assoc, bytesAt_eq_ring s.mem s.status.bufLen (by omega),
        ← ring_pop _ _ _ _ _ (by omega)] }

theorem Inv.commit {s : Sys} (h : Inv s) {n : Nat} (hn : n ≤ s.writerGrant.len) :
    Inv (s.commit n) := by
  have hpos := h.lenPos
  have hhalf := h.half
  have hstart := h.startLt
  have hin := h.writerIn
  have hend := h.writerEnd
  have hsum : add64 s.status.availLen n = s.status.availLen + n :=
    add64_eq (by unfold addrSpace; omega)
  have hlen' : (s.commit n).status.availLen = s.status.availLen + n := by
    simp only [Sys.commit, create, hsum]
  have hws : writerStart (s.commit n).status = (writerStart s.status + n) % s.status.bufLen := by
    rw [h.writerStart_eq, Nat.mod_add_mod]
    simp only [writerStart, Sys.commit, create, hsum]
    rw [add64_eq (by unfold addrSpace; omega), Nat.add_assoc]
  have hwrap : (writerStart s.status + n) % s.status.bufLen = writerStart s.status + n ∨
      ((writerStart s.status + n) % s.status.bufLen = 0 ∧ s.writerGrant.len - n = 0) := by
    rcases Nat.lt_or_ge (writerStart s.status + n) s.status.bufLen with hlt | hge
    · exact Or.inl (Nat.mod_eq_of_lt hlt)
    · have heq : writerStart s.status + n = s.status.bufLen := by omega
      exact Or.inr ⟨by rw [heq, Nat.mod_self], by omega⟩
  exact {
    lenPos := hpos, fits := h.fits, half := hhalf, startLt := hstart
    lenLe := by rw [hlen']; simp only [Sys.commit, create]; omega
    readerIn := by
      rw [hlen']
      have := h.readerIn
      simp only [Sys.commit]
      omega
    readerEnd := h.readerEnd
    readerAt := h.readerAt
    writerIn := by rw [hlen']; simp only [Sys.commit, create, Grant.use]; omega
    writerEnd := by rw [hws]; simp only [Sys.commit, create, Grant.use]; omega
    writerAt := by
      rw [hws]
      simp only [Sys.commit, create, Grant.use]
      intro hne
      rw [h.writerAt (by omega)]
      omega
    readerChecked := h.readerChecked
    writerChecked := by simp [Sys.commit]
    fifo := by
      rw [hlen']
      simp only [Sys.commit, create]
      rw [h.fifo, List.append_assoc, bytesAt_eq_ring s.mem s.status.bufLen (by omega),
        h.writerStart_eq, ring_start_mod, ← ring_add] }

/-- A store into the writer's region leaves the filled bytes alone. -/
theorem Inv.not_filled {s : Sys} (h : Inv s) {addr : Nat} (hw : s.writerGrant.Has addr) :
    ¬ Filled s.status addr := by
  rintro ⟨i, hi, rfl⟩
  obtain ⟨hlo, hhi⟩ := hw
  have hin := h.writerIn
  have hend := h.writerEnd
  have haddr := h.writerAt (by omega)
  rw [haddr] at hlo hhi
  -- The address is the `j`-th of the writer's region, so two offsets share one cell.
  obtain ⟨j, hj⟩ : ∃ j, (s.status.availStart + i) % s.status.bufLen = writerStart s.status + j :=
    ⟨_, (Nat.add_sub_cancel' (by omega)).symm⟩
  have hjlt : j < s.writerGrant.len := by omega
  have hcell : (s.status.availStart + i) % s.status.bufLen =
      (s.status.availStart + (s.status.availLen + j)) % s.status.bufLen := by
    rw [← Nat.add_assoc, ← Nat.mod_add_mod (s.status.availStart + s.status.availLen),
      ← h.writerStart_eq, ← hj, Nat.mod_mod]
  have := ring_index_inj (by omega) (by omega) hcell
  omega

theorem Inv.store {s : Sys} (h : Inv s) {addr : Nat} (byte : UInt8)
    (hw : s.writerGrant.Has addr) : Inv { s with mem := Function.update s.mem addr byte } := by
  have hnot := h.not_filled hw
  refine { h with fifo := ?_ }
  simp only
  rw [h.fifo]
  congr 1
  apply ring_congr
  intro i hi
  rw [Function.update_of_ne]
  intro heq
  exact hnot ⟨i, hi, heq.symm⟩

theorem inv_step {s t : Sys} {e : Event} (h : Inv s) (hok : Protocol s e)
    (hs : step s e = some t) : Inv t := by
  cases e with
  | readerGadr a lockOk =>
    simp only [step] at hs
    split at hs <;> simp only [Option.some.injEq, reduceCtorEq] at hs
    rw [← hs]
    apply h.readerAnswer
    intro addr len hr
    split at hr
    · exact gadr_fits hr
    · simp at hr
  | readerWoken lockOk =>
    simp only [step] at hs
    split at hs <;> simp only [Option.some.injEq, reduceCtorEq] at hs
    rw [← hs]
    apply h.readerAnswer
    intro addr len hr
    split at hr
    · exact gadrWoken_fits hr
    · simp at hr
  | readerDelete logAddr logLen =>
    simp only [step] at hs
    split at hs <;> simp only [Option.some.injEq, reduceCtorEq] at hs
    split at hs
    · rw [← hs]
      exact { h with readerChecked := by rintro n ⟨⟩; exact hok }
    · rw [← hs]; exact h
  | readerDeleteLocked lockOk =>
    simp only [step] at hs
    split at hs <;> simp only [Option.some.injEq, reduceCtorEq] at hs
    rename_i n hpc
    split at hs
    · rw [← hs]; exact h.release (h.readerChecked n hpc)
    · rw [← hs]; exact { h with readerChecked := by simp }
  | writerGadr a lockOk =>
    simp only [step] at hs
    split at hs <;> simp only [Option.some.injEq, reduceCtorEq] at hs
    rw [← hs]
    apply h.writerAnswer
    intro addr len hr
    split at hr
    · exact gadr_fits hr
    · simp at hr
  | writerWoken lockOk =>
    simp only [step] at hs
    split at hs <;> simp only [Option.some.injEq, reduceCtorEq] at hs
    rw [← hs]
    apply h.writerAnswer
    intro addr len hr
    split at hr
    · exact gadrWoken_fits hr
    · simp at hr
  | writerCreate logAddr logLen =>
    simp only [step] at hs
    split at hs <;> simp only [Option.some.injEq, reduceCtorEq] at hs
    split at hs
    · rw [← hs]
      exact { h with writerChecked := by rintro n ⟨⟩; exact hok }
    · rw [← hs]; exact h
  | writerCreateLocked lockOk =>
    simp only [step] at hs
    split at hs <;> simp only [Option.some.injEq, reduceCtorEq] at hs
    rename_i n hpc
    split at hs
    · rw [← hs]; exact h.commit (h.writerChecked n hpc)
    · rw [← hs]; exact { h with writerChecked := by simp }
  | writerStore addr byte =>
    simp only [step, Option.some.injEq] at hs
    rw [← hs]
    exact h.store byte hok

/-! ## Whole runs -/

theorem Inv.filled_of_reader {s : Sys} (h : Inv s) {addr : Nat} (hr : s.readerGrant.Has addr) :
    Filled s.status addr := by
  obtain ⟨hlo, hhi⟩ := hr
  have hin := h.readerIn
  have hend := h.readerEnd
  have haddr := h.readerAt (by omega)
  rw [haddr] at hlo hhi
  refine ⟨addr - (s.status.bufStart + s.status.availStart), by omega, ?_⟩
  rw [Nat.mod_eq_of_lt (by omega)]
  omega

/-- **The pipe is a byte queue.** In every state of every run in which both clients
keep to what they were granted, the bounds hold, the reader's region is filled,
the writer's is not, a grant is never shorter than the request, and what the
reader released is what the writer committed first. -/
theorem pipe_fifo {s : Sys} (h : Reach step Init Protocol s) :
    s.status.availStart < s.status.bufLen ∧ s.status.availLen ≤ s.status.bufLen ∧
    (∀ addr, s.readerGrant.Has addr → Filled s.status addr) ∧
    (∀ addr, s.writerGrant.Has addr → ¬ Filled s.status addr) ∧
    (∀ a addr len side, side = readerSide s.status ∨ side = writerSide s.status →
      gadr s.status.bufStart side a = .granted addr len ∨
        gadrWoken s.status.bufStart side a = .granted addr len → a.logLen ≤ len) ∧
    s.released <+: s.committed := by
  have hinv : Inv s := h.invariant (fun _ => inv_init) (fun _ _ _ => inv_step)
  refine ⟨hinv.startLt, hinv.lenLe, fun _ => hinv.filled_of_reader, fun _ => hinv.not_filled,
    ?_, ⟨_, hinv.fifo.symm⟩⟩
  rintro a addr len side - (hg | hg)
  · exact (gadr_fits hg).2.2
  · exact (gadrWoken_fits hg).2.2

/-- Two bytes committed, one released. -/
theorem pipe_fifo_two_bytes :
    ∃ s : Sys, s.committed = [7, 9] ∧ s.released = [7] ∧ s.released <+: s.committed := by
  let empty : Sys := {
    status := ⟨16, 4, 0, 0⟩, mem := fun _ => 0, readerPc := .idle, writerPc := .idle
    readerGrant := ⟨0, 0⟩, writerGrant := ⟨0, 0⟩, committed := [], released := [] }
  have hempty : Reach step Init Protocol empty := .start (by simp [Init, empty, addrSpace])
  have hrun : (run step Protocol empty [
      .writerGadr ⟨2, 2, .try, false⟩ true, .writerStore 16 7, .writerStore 17 9,
      .writerCreate 16 2, .writerCreateLocked true,
      .readerGadr ⟨1, 0, .ask, true⟩ true, .readerDelete 16 1, .readerDeleteLocked true]).map
      (fun s => (s.committed, s.released)) = some ([7, 9], [7]) := by decide
  obtain ⟨s, hs, heq⟩ := Option.map_eq_some_iff.mp hrun
  simp only [Prod.mk.injEq] at heq
  exact ⟨s, heq.1, heq.2, (pipe_fifo (hempty.of_run hs)).2.2.2.2.2⟩

end Athomux.Pipe
