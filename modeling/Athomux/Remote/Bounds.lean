import Athomux.Remote.Spec

/-!
# What is read of a packet

The parser should read inside of the packet only, and should hand out nothing else. When it does is
said of every packet, whatever its bytes are and whatever lies behind it.
-/

namespace Athomux.Remote

open Lib

variable {p : Packet} {type : UInt8}

/-! ## The property -/

def Inside (p : Packet) (r : Region) : Prop := r.stop ≤ p.len

/-- The text ends inside of the packet, its final zero included. -/
def TextInside (p : Packet) (start : Nat) : Prop :=
  ∃ stop, TextEnds p.mem start stop ∧ stop < p.len

structure Bounded (p : Packet) (type : UInt8) : Prop where
  header : ∀ r ∈ (checkHeader p type).reads, Inside p r
  argsRead : (checkHeader p type).success → ∀ r ∈ (extractArgs p).reads, Inside p r
  args : (checkHeader p type).success → (extractArgs p).success →
    Inside p (extractArgs p).value.args ∧
      ∀ c ∈ [(extractArgs p).value.conn1, (extractArgs p).value.conn2,
        (extractArgs p).value.resConn], ∀ r ∈ c, Inside p r
  paramRead : (checkHeader p type).success → ∀ r ∈ (extractParam p).reads, Inside p r
  param : (checkHeader p type).success → (extractParam p).success →
    TextInside p (extractParam p).value
  dataRead : (checkHeader p type).success → ∀ r ∈ (extractData p).reads, Inside p r
  data : (checkHeader p type).success → (extractData p).success → Inside p (extractData p).value

/-- The packet goes up to the flags, and the lengths and the text that it holds are its own. -/
structure WellSized (p : Packet) : Prop where
  flags : sizeofHeader + 147 ≤ p.len
  text : p.dataPos ≤ p.len → ∃ x, sizeofHeader + sizeofRpcArgs ≤ x ∧ x < p.len ∧ p.mem x = 0
  sum : add64 p.dataPos p.dataLen ≤ p.len → p.dataPos + p.dataLen < addrSpace

/-! ## One function at a time -/

theorem header_inside (h : sizeofHeader ≤ p.len) {r : Region} (hr : r.stop ≤ sizeofHeader) :
    Inside p r :=
  Nat.le_trans hr h

/-- The flags are read before the length is checked. -/
theorem flags_inside : (∀ r ∈ (extractArgs p).reads, Inside p r) ↔ sizeofHeader + 147 ≤ p.len := by
  unfold extractArgs Inside Region.stop
  constructor
  · intro h
    exact h ⟨sizeofHeader + resConn.valid, 1⟩ (by simp)
  · intro h r hr
    simp only [List.map_cons, List.map_nil, List.mem_cons, List.not_mem_nil, or_false] at hr
    rcases hr with rfl | rfl | rfl <;> simp only [conn1, conn2, resConn] <;> omega

theorem conn_inside (h : sizeofHeader + sizeofRpcArgs ≤ p.len) {f : ConnField}
    (hf : f.info + sizeofConn ≤ sizeofRpcArgs) {r : Region} (hr : r ∈ extractConn p f) :
    Inside p r := by
  unfold extractConn at hr
  split at hr
  · cases hr
    unfold Inside Region.stop
    simp only
    omega
  · cases hr

theorem args_inside (h : (extractArgs p).success = true) :
    Inside p (extractArgs p).value.args ∧
      ∀ c ∈ [(extractArgs p).value.conn1, (extractArgs p).value.conn2,
        (extractArgs p).value.resConn], ∀ r ∈ c, Inside p r := by
  unfold extractArgs at h
  simp only [Nat.not_lt, decide_eq_true_eq] at h
  have hargs : sizeofHeader + sizeofArgs ≤ sizeofHeader + sizeofRpcArgs := by decide
  refine ⟨Nat.le_trans hargs h, ?_⟩
  intro c hc r hr
  simp only [extractArgs, List.mem_cons, List.not_mem_nil, or_false] at hc
  rcases hc with rfl | rfl | rfl
  · exact conn_inside h (by decide) hr
  · exact conn_inside h (by decide) hr
  · exact conn_inside h (by decide) hr

/-- Nothing but a zero in the packet ends the text there. -/
theorem text_inside {start : Nat} :
    TextInside p start ↔ ∃ x, start ≤ x ∧ x < p.len ∧ p.mem x = 0 := by
  constructor
  · rintro ⟨stop, hends, hlt⟩
    exact ⟨stop, hends.1, hlt, hends.2.1⟩
  · rintro ⟨x, hx, hlt, hzero⟩
    obtain ⟨stop, hends, hle⟩ := exists_textEnds hx hzero
    exact ⟨stop, hends, by omega⟩

/-- The length is compared with a sum that wraps. -/
theorem data_inside (h : (extractData p).success = true) :
    Inside p (extractData p).value ↔ p.dataPos + p.dataLen < addrSpace := by
  unfold extractData at h
  simp only [Nat.not_lt, decide_eq_true_eq] at h
  constructor
  · intro hle
    exact Nat.lt_of_le_of_lt hle p.fits
  · intro hlt
    rwa [add64_eq hlt] at h

/-! ## All of them -/

/-- **Bounds.** Of the packets that `get_packet` hands out, the parser keeps to those that are not
for it, and to those whose lengths and text are as they should be. -/
theorem parser_bounds (p : Packet) (type : UInt8) : (getPacket p = true → Bounded p type) ↔
    (getPacket p = true → (checkHeader p type).success = true → WellSized p) := by
  refine imp_congr_right fun hget => ?_
  unfold getPacket at hget
  simp only [Nat.not_lt, decide_eq_true_eq] at hget
  constructor
  · intro h hok
    refine ⟨flags_inside.mp (h.argsRead hok), ?_, ?_⟩
    · intro hle
      refine text_inside.mp (h.param hok ?_)
      simpa [extractParam] using hle
    · intro hle
      have hdata : (extractData p).success = true := by simpa [extractData] using hle
      exact (data_inside hdata).mp (h.data hok hdata)
  · intro h
    have hread : ∀ r ∈ [(⟨0, 4⟩ : Region), ⟨4, 1⟩, ⟨5, 1⟩, ⟨8, 8⟩, ⟨16, 8⟩], Inside p r := by
      intro r hr
      refine header_inside hget ?_
      revert r
      decide
    refine ⟨?_, fun hok => flags_inside.mpr (h hok).flags, fun _ => args_inside, ?_, ?_, ?_, ?_⟩
    · intro r hr
      refine hread r ?_
      simp only [checkHeader, List.mem_cons, List.not_mem_nil, or_false] at hr ⊢
      tauto
    · intro _ r hr
      refine hread r ?_
      simp only [extractParam, List.mem_cons, List.not_mem_nil, or_false] at hr ⊢
      tauto
    · intro hok hparam
      refine text_inside.mpr ((h hok).text ?_)
      simpa [extractParam] using hparam
    · intro _ r hr
      refine hread r ?_
      simp only [extractData, List.mem_cons, List.not_mem_nil, or_false] at hr ⊢
      tauto
    · intro hok hdata
      refine (data_inside hdata).mpr ((h hok).sum ?_)
      simpa [extractData] using hdata

/-- A packet that is just long enough, without a parameter: its text is what lies behind it. -/
def noParam : Packet where
  paddr := 0
  len := 248
  mem := fun i =>
    if i < 8 then [65, 82, 80, 67, 1, 1, 0, 0].getD i 0
    else if i < 24 then 0
    else if i < 300 then 1
    else 0
  fits := by decide

theorem text_leaves_packet : getPacket noParam = true ∧
    (checkHeader noParam rpcReq).success = true ∧ (extractArgs noParam).success = true ∧
    (extractParam noParam).success = true ∧ TextEnds noParam.mem (extractParam noParam).value 300 ∧
    ¬ Bounded noParam rpcReq := by
  have hends : TextEnds noParam.mem (extractParam noParam).value 300 := by
    refine ⟨by decide, by decide, ?_⟩
    intro x hx hlt
    have hlow : 248 ≤ x := hx
    unfold noParam
    simp only
    rw [if_neg (by omega), if_neg (by omega), if_pos hlt]
    decide
  refine ⟨by decide, by decide, by decide, by decide, hends, ?_⟩
  intro h
  obtain ⟨stop, hstop, hlt⟩ := h.param (by decide) (by decide)
  rw [← hends.unique hstop] at hlt
  exact absurd hlt (by decide)

end Athomux.Remote
