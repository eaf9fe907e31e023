import Athomux.Remote.Spec

/-!
# What goes into a packet comes out of it

Each function writes its own part of the packet, and keeps the others.
-/

namespace Athomux.Remote

open Lib

variable {p q r : Packet} {type : UInt8} {a : Args} {param data : List UInt8} {lo hi : Nat}

/-! ## The packet -/

/-- `send_rsp` has no parameter. -/
def insertOptParam (p : Packet) : Option (List UInt8) → Bool × Packet
  | some param => insertParam p param
  | none => (true, p)

/-- Data is only inserted when there is some. -/
def insertOptData (p : Packet) : Option (List UInt8) → Bool × Packet
  | some data => insertData p data
  | none => (true, p)

/-- What `send_req` and `send_rsp` build in a packet of `new_packet`. -/
def build (p : Packet) (type : UInt8) (a : Args) (param data : Option (List UInt8)) :
    Option Packet :=
  let r := insertOptParam (insertArgs (setHeader p type) a) param
  if r.1 then
    let r := insertOptData r.2 data
    if r.1 then some r.2 else none
  else none

/-- The connector infos that are carried for the operation. -/
def carried (a : Args) : Args :=
  { a with
    conn1 := if takesConn1 a.opCode then a.conn1 else none
    conn2 := if takesConn2 a.opCode then a.conn2 else none
    resConn := if takesResConn a.opCode then a.resConn else none }

/-- The same values: the pointers point to the same, and all the rest is the same. -/
structure SameArgs (a b : Args) : Prop where
  plain : ∀ i, i < 112 ∨ 136 ≤ i → a.plain[i]? = b.plain[i]?
  conn1 : a.conn1 = b.conn1
  conn2 : a.conn2 = b.conn2
  resConn : a.resConn = b.resConn

/-! ## Parts that are kept -/

def AgreeOn (q p : Packet) (lo hi : Nat) : Prop := ∀ x, lo ≤ x → x < hi → q.mem x = p.mem x

theorem AgreeOn.trans (h : AgreeOn r q lo hi) (h' : AgreeOn q p lo hi) : AgreeOn r p lo hi :=
  fun x hlo hhi => (h x hlo hhi).trans (h' x hlo hhi)

theorem AgreeOn.mono (h : AgreeOn q p lo hi) {lo' hi' : Nat} (hlo : lo ≤ lo') (hhi : hi' ≤ hi) :
    AgreeOn q p lo' hi' :=
  fun x hx hx' => h x (Nat.le_trans hlo hx) (Nat.lt_of_lt_of_le hx' hhi)

theorem AgreeOn.load (h : AgreeOn q p lo hi) {pos n : Nat} (hpos : lo ≤ pos) (hn : pos + n ≤ hi) :
    q.mem.load pos n = p.mem.load pos n :=
  ByteMem.load_congr fun _ _ => h _ (by omega) (by omega)

theorem AgreeOn.num (h : AgreeOn q p lo hi) {pos n : Nat} (hpos : lo ≤ pos) (hn : pos + n ≤ hi) :
    q.num pos n = p.num pos n :=
  congrArg ofBytes (h.load hpos hn)

theorem agree_store (lo hi : Nat) (p : Packet) {pos : Nat} {bytes : List UInt8}
    (h : hi ≤ pos ∨ pos + bytes.length ≤ lo) : AgreeOn (p.store pos bytes) p lo hi :=
  fun _ _ _ => ByteMem.store_apart p.mem bytes (by omega)

@[simp] theorem store_len (p : Packet) (pos : Nat) (bytes : List UInt8) :
    (p.store pos bytes).len = p.len := by
  unfold Packet.store
  rfl

theorem load_of_store (p : Packet) (pos : Nat) (bytes : List UInt8) :
    (p.store pos bytes).mem.load pos bytes.length = bytes :=
  ByteMem.load_store p.mem pos bytes

theorem num_of_store (p : Packet) (pos : Nat) {n x : Nat} (hx : x < 256 ^ n) :
    (p.store pos (toBytes n x)).num pos n = x := by
  have h := load_of_store p pos (toBytes n x)
  rw [toBytes_length] at h
  rw [Packet.num, h, ofBytes_toBytes hx]

theorem byte_of_store (p : Packet) (pos : Nat) (b : UInt8) : (p.store pos [b]).mem pos = b :=
  ByteMem.store_get p.mem pos [b] (i := 0) Nat.zero_lt_one

/-! ## The header -/

theorem setHeader_ok (p : Packet) (type : UInt8) :
    (checkHeader (setHeader p type) type).success = true ∧ (setHeader p type).paramLen = 0 ∧
      (setHeader p type).dataLen = 0 := by
  unfold checkHeader setHeader Packet.paramLen Packet.dataLen
  refine ⟨?_, ?_, ?_⟩
  · rw [decide_eq_true_eq]
    refine ⟨?_, ?_, ?_⟩
    · rw [(agree_store 0 4 _ (by simp)).num (by simp) (by simp),
        (agree_store 0 4 _ (by simp)).num (by simp) (by simp),
        (agree_store 0 4 _ (by simp)).num (by simp) (by simp),
        (agree_store 0 4 _ (by simp)).num (by simp) (by simp)]
      exact num_of_store _ _ (by decide)
    · rw [agree_store 4 5 _ (by simp) 4 (by simp) (by simp),
        agree_store 4 5 _ (by simp) 4 (by simp) (by simp),
        agree_store 4 5 _ (by simp) 4 (by simp) (by simp)]
      exact byte_of_store _ _ _
    · rw [agree_store 5 6 _ (by simp) 5 (by simp) (by simp),
        agree_store 5 6 _ (by simp) 5 (by simp) (by simp)]
      exact byte_of_store _ _ _
  · rw [(agree_store 8 16 _ (by simp)).num (by simp) (by simp)]
    exact num_of_store _ _ (by decide)
  · exact num_of_store _ _ (by decide)

theorem AgreeOn.checkHeader (h : AgreeOn q p 0 8) (type : UInt8) :
    (checkHeader q type).success = (checkHeader p type).success := by
  unfold Remote.checkHeader
  simp only
  rw [h.num (Nat.le_refl 0) (by simp), h 4 (by simp) (by simp), h 5 (by simp) (by simp)]

/-! ## The arguments -/

theorem setPointer_agree (lo hi : Nat) (p : Packet) (f : ConnField)
    (h : hi ≤ sizeofHeader + f.pointer ∨ sizeofHeader + f.pointer + 8 ≤ lo) :
    AgreeOn (setPointer p f) p lo hi := by
  apply agree_store
  rw [toBytes_length]
  exact h

theorem setPointers_agree (lo hi : Nat) (p : Packet) (h : hi ≤ 136 ∨ 160 ≤ lo) :
    AgreeOn (setPointers p) p lo hi := by
  have h1 := setPointer_agree lo hi p conn1
  have h2 := setPointer_agree lo hi (setPointer p conn1) conn2
  have h3 := setPointer_agree lo hi (setPointer (setPointer p conn1) conn2) resConn
  simp only [conn1, conn2, resConn, sizeofHeader] at h1 h2 h3
  exact ((h3 (by omega)).trans (h2 (by omega))).trans (h1 (by omega))

/-- A connector info lies apart from the part of the packet. -/
def ConnField.Apart (f : ConnField) (lo hi : Nat) : Prop :=
  (hi ≤ sizeofHeader + f.valid ∨ sizeofHeader + f.valid < lo) ∧
    (hi ≤ sizeofHeader + f.info ∨ sizeofHeader + f.info + sizeofConn ≤ lo)

instance (f : ConnField) (lo hi : Nat) : Decidable (f.Apart lo hi) :=
  inferInstanceAs (Decidable (_ ∧ _))

theorem insertConn_agree (p : Packet) {f : ConnField} (takes : Bool) (c : Option ConnInfo)
    (h : f.Apart lo hi) : AgreeOn (insertConn p f takes c) p lo hi := by
  have hflag : ∀ (q : Packet) (b : UInt8), AgreeOn (q.store (sizeofHeader + f.valid) [b]) q lo hi :=
    fun q b => agree_store _ _ q (by simp only [List.length_singleton]; have := h.1; omega)
  unfold insertConn
  split
  · rename_i c
    split
    · refine (hflag _ 1).trans (agree_store _ _ p ?_)
      rw [c.length_eq]
      exact h.2
    · exact hflag p 0
  · exact hflag p 0

/-- What is taken out for one of the pointers. -/
theorem connInfo_insertConn (p : Packet) {f : ConnField} (hf : f.valid < f.info)
    (takes : Bool) (c : Option ConnInfo) :
    connInfo (insertConn p f takes c) f = if takes then c else none := by
  have hnone : ∀ q : Packet, connInfo (q.store (sizeofHeader + f.valid) [0]) f = none := by
    intro q
    unfold connInfo extractConn
    rw [byte_of_store, if_neg (by decide), Option.map_none]
  unfold insertConn
  cases c with
  | none =>
    simp only [hnone, ite_self]
  | some c =>
    cases takes with
    | false => exact hnone p
    | true =>
      simp only [if_true]
      unfold connInfo extractConn
      rw [byte_of_store, if_pos rfl, Option.map_some]
      congr 1
      have hload : ((p.store (sizeofHeader + f.info) c.bytes).store (sizeofHeader + f.valid)
          [1]).mem.load (sizeofHeader + f.info) sizeofConn = c.bytes := by
        rw [← c.length_eq, (agree_store _ _ _ (Or.inr ?_)).load (Nat.le_refl _) (Nat.le_refl _)]
        · exact load_of_store p _ c.bytes
        · simp only [List.length_singleton]
          omega
      cases c
      simp only at hload
      simp only [hload]

theorem connInfo_congr {f : ConnField}
    (hvalid : AgreeOn q p (sizeofHeader + f.valid) (sizeofHeader + f.valid + 1))
    (hinfo : AgreeOn q p (sizeofHeader + f.info) (sizeofHeader + f.info + sizeofConn)) :
    connInfo q f = connInfo p f := by
  unfold connInfo extractConn
  rw [hvalid _ (Nat.le_refl _) (Nat.lt_succ_self _)]
  split
  · simp only [Option.map_some, hinfo.load (Nat.le_refl _) (Nat.le_refl _)]
  · rfl

/-- Another pointer is inserted. -/
theorem connInfo_insertConn_ne (p : Packet) {f g : ConnField} (takes : Bool) (c : Option ConnInfo)
    (hvalid : g.Apart (sizeofHeader + f.valid) (sizeofHeader + f.valid + 1))
    (hinfo : g.Apart (sizeofHeader + f.info) (sizeofHeader + f.info + sizeofConn)) :
    connInfo (insertConn p g takes c) f = connInfo p f :=
  connInfo_congr (insertConn_agree p takes c hvalid) (insertConn_agree p takes c hinfo)

theorem insertArgs_agree (p : Packet) (a : Args) (h : hi ≤ 24 ∨ 248 ≤ lo) :
    AgreeOn (insertArgs p a) p lo hi := by
  unfold insertArgs
  refine (insertConn_agree _ _ _ ?_).trans ((insertConn_agree _ _ _ ?_).trans
    ((insertConn_agree _ _ _ ?_).trans (agree_store _ _ p ?_)))
  · simp only [ConnField.Apart, resConn, sizeofHeader, sizeofConn]
    omega
  · simp only [ConnField.Apart, conn2, sizeofHeader, sizeofConn]
    omega
  · simp only [ConnField.Apart, conn1, sizeofHeader, sizeofConn]
    omega
  · rw [a.length_eq]
    simp only [sizeofHeader, sizeofArgs]
    omega

theorem insertConn_len (p : Packet) (f : ConnField) (takes : Bool) (c : Option ConnInfo) :
    (insertConn p f takes c).len = p.len := by
  unfold insertConn
  split
  · split
    · rw [store_len, store_len]
    · exact store_len _ _ _
  · exact store_len _ _ _

theorem insertArgs_len (p : Packet) (a : Args) : (insertArgs p a).len = p.len := by
  unfold insertArgs
  rw [insertConn_len, insertConn_len, insertConn_len, store_len]

theorem insertArgs_plain (p : Packet) (a : Args) :
    (insertArgs p a).mem.load sizeofHeader sizeofArgs = a.plain := by
  have hkeep : AgreeOn (insertArgs p a) (p.store sizeofHeader a.plain) 24 168 := by
    unfold insertArgs
    refine (insertConn_agree _ _ _ ?_).trans ((insertConn_agree _ _ _ ?_).trans
      (insertConn_agree _ _ _ ?_)) <;> decide
  rw [hkeep.load (by decide) (by decide), ← a.length_eq]
  exact load_of_store p _ a.plain

theorem insertArgs_conns (p : Packet) (a : Args) :
    connInfo (insertArgs p a) conn1 = (carried a).conn1 ∧
      connInfo (insertArgs p a) conn2 = (carried a).conn2 ∧
      connInfo (insertArgs p a) resConn = (carried a).resConn := by
  unfold insertArgs carried
  refine ⟨?_, ?_, ?_⟩
  · rw [connInfo_insertConn_ne _ _ _ (by decide) (by decide),
      connInfo_insertConn_ne _ _ _ (by decide) (by decide)]
    exact connInfo_insertConn _ (by decide) _ _
  · rw [connInfo_insertConn_ne _ _ _ (by decide) (by decide)]
    exact connInfo_insertConn _ (by decide) _ _
  · exact connInfo_insertConn _ (by decide) _ _

/-- What `extract_args` hands out only depends on the part of the arguments. -/
theorem sameArgs_of_agree (h : AgreeOn q (insertArgs p a) 24 248) :
    SameArgs (argsOf q) (carried a) := by
  have hplain : ∀ i, i < 112 ∨ 136 ≤ i → (argsOf q).plain[i]? = a.plain[i]? := by
    intro i hi
    by_cases hlt : i < sizeofArgs
    · rw [← insertArgs_plain p a]
      unfold argsOf
      simp only
      rw [List.getElem?_eq_getElem (by rwa [ByteMem.load_length]),
        List.getElem?_eq_getElem (by rwa [ByteMem.load_length]), ByteMem.load_get, ByteMem.load_get]
      simp only [sizeofArgs] at hlt
      simp only [sizeofHeader]
      rw [setPointers_agree (24 + i) (24 + i + 1) q (by omega) _ (by omega) (by omega),
        h _ (by omega) (by omega)]
    · rw [List.getElem?_eq_none (by rw [(argsOf q).length_eq]; omega),
        List.getElem?_eq_none (by rw [a.length_eq]; omega)]
  have hconn : ∀ f : ConnField, f = conn1 ∨ f = conn2 ∨ f = resConn →
      connInfo (setPointers q) f = connInfo (insertArgs p a) f := by
    intro f hf
    have hkeep := (setPointers_agree 160 248 q (by simp)).trans
      (h.mono (show 24 ≤ 160 by simp) (Nat.le_refl _))
    refine connInfo_congr (hkeep.mono ?_ ?_) (hkeep.mono ?_ ?_) <;>
      rcases hf with rfl | rfl | rfl <;> decide
  obtain ⟨h1, h2, h3⟩ := insertArgs_conns p a
  exact ⟨hplain, (hconn conn1 (by simp)).trans h1, (hconn conn2 (by simp)).trans h2,
    (hconn resConn (by simp)).trans h3⟩

/-! ## The parameter and the data -/

/-- What `insert_param` does when it succeeds. -/
theorem insertParam_ok (hfit : param.length + 1 + p.len < addrSpace)
    (hroom : sizeofHeader + sizeofRpcArgs ≤ p.len) (h : insertParam p param = (true, q)) :
    248 + param.length + 1 ≤ p.len ∧ q.len = p.len ∧ q.paramLen = param.length + 1 ∧
      q.mem.load 248 (param.length + 1) = param ++ [0] ∧ AgreeOn q p 0 8 ∧ AgreeOn q p 16 248 := by
  unfold insertParam at h
  have hsum : sizeofHeader + sizeofRpcArgs + (param.length + 1) < addrSpace := by omega
  simp only [add64_eq hsum] at h
  split at h
  · cases h
  · rename_i hle
    cases h
    simp only [sizeofHeader, sizeofRpcArgs] at hle hroom
    have hlen : (param ++ [(0 : UInt8)]).length = param.length + 1 := by simp
    refine ⟨by omega, rfl, ?_, ?_, ?_, ?_⟩
    · unfold Packet.paramLen
      rw [(agree_store 8 16 _ (Or.inl (by decide))).num (by simp) (by simp)]
      refine num_of_store p 8 ?_
      have hpow : (256 : Nat) ^ 8 = addrSpace := by decide
      omega
    · rw [← hlen]
      exact load_of_store _ _ _
    · exact (agree_store _ _ _ (Or.inl (by decide))).trans (agree_store _ _ p (Or.inl (by decide)))
    · refine (agree_store _ _ _ (Or.inl (by decide))).trans (agree_store _ _ p (Or.inr ?_))
      rw [toBytes_length]

/-- What `insert_data` does when it succeeds. -/
theorem insertData_ok (hfit : data.length + p.len < addrSpace) (hpos : p.dataPos ≤ p.len)
    (hargs : 248 ≤ p.dataPos) (h : insertData p data = (true, q)) :
    p.dataPos + data.length ≤ p.len ∧ q.len = p.len ∧ q.dataLen = data.length ∧
      q.mem.load p.dataPos data.length = data ∧ AgreeOn q p 0 16 ∧ AgreeOn q p 24 p.dataPos := by
  have hsum : p.dataPos + data.length < addrSpace := by
    rw [Nat.add_comm]
    exact Nat.lt_of_le_of_lt (Nat.add_le_add_left hpos _) hfit
  unfold insertData at h
  rw [add64_eq hsum] at h
  split at h
  · cases h
  · rename_i hle
    cases h
    have hpos' : (p.store 16 (toBytes 8 data.length)).dataPos = p.dataPos := by
      unfold Packet.dataPos Packet.paramLen
      rw [(agree_store 8 16 p (Or.inl (Nat.le_refl _))).num (by simp) (by simp)]
    rw [hpos']
    refine ⟨Nat.not_lt.mp hle, by rw [store_len, store_len], ?_,
      load_of_store (p.store 16 (toBytes 8 data.length)) p.dataPos data, ?_, ?_⟩
    · unfold Packet.dataLen
      have hbehind : 24 ≤ p.dataPos := Nat.le_trans (by decide) hargs
      rw [(agree_store 16 24 _ (Or.inl hbehind)).num (by simp) (by simp)]
      refine num_of_store p 16 ?_
      have hpow : (256 : Nat) ^ 8 = addrSpace := by decide
      rw [hpow]
      exact Nat.lt_of_le_of_lt (Nat.le_add_right _ _) hfit
    · have hbehind : 16 ≤ p.dataPos := Nat.le_trans (by decide) hargs
      exact (agree_store _ _ _ (Or.inl hbehind)).trans (agree_store _ _ p (Or.inl (Nat.le_refl _)))
    · refine (agree_store _ _ _ (Or.inl (Nat.le_refl _))).trans (agree_store _ _ p (Or.inr ?_))
      rw [toBytes_length]

/-! ## The whole packet -/

/-- What holds behind `insert_param`, or without it. -/
structure ParamIn (p1 p2 : Packet) (param : Option (List UInt8)) : Prop where
  len : p2.len = p1.len
  room : 248 + p2.paramLen ≤ p1.len
  dataLen : p2.dataLen = 0
  header : AgreeOn p2 p1 0 8
  args : AgreeOn p2 p1 24 248
  text : ∀ t ∈ param, p2.paramLen = t.length + 1 ∧ p2.mem.load 248 (t.length + 1) = t ++ [0]

theorem dataPos_of_room (h : 248 + p.paramLen ≤ p.len) : p.dataPos = 248 + p.paramLen :=
  add64_eq (Nat.lt_of_le_of_lt h p.fits)

theorem paramIn_insertParam (hfit : param.length + 1 + p.len < addrSpace)
    (hroom : sizeofHeader + sizeofRpcArgs ≤ p.len) (hzero : p.dataLen = 0)
    (h : insertParam p param = (true, q)) : ParamIn p q (some param) := by
  obtain ⟨hle, hlen, hparam, htext, hhead, hrest⟩ := insertParam_ok hfit hroom h
  refine ⟨hlen, by rw [hparam]; omega, ?_, hhead, hrest.mono (by simp) (Nat.le_refl _), ?_⟩
  · rw [← hzero]
    exact hrest.num (Nat.le_refl _) (by simp)
  · rintro t ⟨⟩
    exact ⟨hparam, htext⟩

theorem paramIn_none (hroom : sizeofHeader + sizeofRpcArgs ≤ p.len) (hzero : p.paramLen = 0)
    (hzero' : p.dataLen = 0) : ParamIn p p none := by
  refine ⟨rfl, ?_, hzero', fun _ _ _ => rfl, fun _ _ _ => rfl, ?_⟩
  · rw [hzero]
    exact hroom
  · rintro t ⟨⟩

/-- What holds behind `insert_data`, or without it. -/
structure DataIn (p2 q : Packet) (data : Option (List UInt8)) : Prop where
  len : q.len = p2.len
  room : p2.dataPos + q.dataLen ≤ p2.len
  header : AgreeOn q p2 0 16
  rest : AgreeOn q p2 24 p2.dataPos
  data : q.mem.load p2.dataPos q.dataLen = data.getD []

theorem dataIn_insertData (hfit : data.length + p.len < addrSpace) (hpos : p.dataPos ≤ p.len)
    (hargs : 248 ≤ p.dataPos) (h : insertData p data = (true, q)) : DataIn p q (some data) := by
  obtain ⟨hle, hlen, hdata, hload, hhead, hrest⟩ := insertData_ok hfit hpos hargs h
  exact ⟨hlen, (Nat.add_le_add_left (Nat.le_of_eq hdata) _).trans hle, hhead, hrest,
    (congrArg (q.mem.load p.dataPos) hdata).trans hload⟩

theorem dataIn_none (hpos : p.dataPos ≤ p.len) (hzero : p.dataLen = 0) : DataIn p p none := by
  refine ⟨rfl, ?_, fun _ _ _ => rfl, fun _ _ _ => rfl, ?_⟩
  · simp only [hzero, Nat.add_zero]
    exact hpos
  · rw [hzero]
    rfl

/-- Both ends agree on the packet. -/
structure RoundTrip (q : Packet) (type : UInt8) (a : Args) (param data : Option (List UInt8)) :
    Prop where
  header : (checkHeader q type).success = true
  argsOk : (extractArgs q).success = true
  args : SameArgs (argsOf q) (carried a)
  param : ∀ t ∈ param, (extractParam (setPointers q)).success = true ∧
    TextEnds (setPointers q).mem (extractParam (setPointers q)).value
      ((extractParam (setPointers q)).value + t.length) ∧
    (setPointers q).mem.load (extractParam (setPointers q)).value t.length = t
  dataOk : (extractData (setPointers q)).success = true
  data : (setPointers q).mem.load (extractData (setPointers q)).value.start
    (extractData (setPointers q)).value.len = data.getD []
  /-- The header, the arguments, the parameter and the data. -/
  apart : [⟨0, sizeofHeader⟩, ⟨sizeofHeader, sizeofRpcArgs⟩,
    ⟨(extractParam (setPointers q)).value, (setPointers q).paramLen⟩,
    (extractData (setPointers q)).value].Pairwise Region.Apart

theorem text_of_load {mem : ByteMem} {pos : Nat} (hzero : (0 : UInt8) ∉ param)
    (h : mem.load pos (param.length + 1) = param ++ [0]) :
    TextEnds mem pos (pos + param.length) ∧ mem.load pos param.length = param := by
  have hget : ∀ i (hi : i < (param ++ [(0 : UInt8)]).length),
      mem (pos + i) = (param ++ [(0 : UInt8)])[i] := by
    intro i hi
    have hlen : i < param.length + 1 := by simpa using hi
    rw [← ByteMem.load_get mem pos (param.length + 1) (by rwa [ByteMem.load_length])]
    simp only [h]
  refine ⟨⟨Nat.le_add_right _ _, ?_, ?_⟩, ?_⟩
  · rw [hget param.length (by simp), List.getElem_append_right (Nat.le_refl _)]
    simp
  · intro x hx hlt hx0
    have hi : x - pos < param.length := by omega
    have hxi := hget (x - pos) (by simp; omega)
    rw [Nat.add_sub_cancel' hx, hx0, List.getElem_append_left hi] at hxi
    exact hzero (hxi ▸ List.getElem_mem hi)
  · apply List.ext_getElem
    · exact ByteMem.load_length _ _ _
    · intro i hi hi'
      rw [ByteMem.load_get, hget i (by simp; omega), List.getElem_append_left hi']

theorem round_trip_of_parts {p1 p2 : Packet} {param data : Option (List UInt8)}
    (hroom : sizeofHeader + sizeofRpcArgs ≤ p1.len) (hzero : ∀ t ∈ param, (0 : UInt8) ∉ t)
    (hp1 : p1 = insertArgs (setHeader p type) a) (hp2 : ParamIn p1 p2 param)
    (hq : DataIn p2 q data) : RoundTrip q type a param data := by
  have hpos : p2.dataPos = 248 + p2.paramLen :=
    dataPos_of_room (by rw [hp2.len]; exact hp2.room)
  have hlow := setPointers_agree 0 136 q (Or.inl (Nat.le_refl _))
  have hkeep := fun hi => setPointers_agree 160 hi q (Or.inr (Nat.le_refl _))
  have hparamLen : (setPointers q).paramLen = p2.paramLen :=
    (hlow.num (by simp) (by simp)).trans (hq.header.num (by simp) (by simp))
  have hdataLen : (setPointers q).dataLen = q.dataLen := hlow.num (by simp) (by simp)
  have hdataPos : (setPointers q).dataPos = p2.dataPos := by
    unfold Packet.dataPos
    rw [hparamLen]
  have hlen : (setPointers q).len = p2.len := hq.len
  refine ⟨?_, ?_, ?_, ?_, ?_, ?_, ?_⟩
  · rw [(hq.header.mono (Nat.le_refl _) (by simp)).checkHeader, hp2.header.checkHeader, hp1,
      (insertArgs_agree _ a (Or.inl (by simp))).checkHeader]
    exact (setHeader_ok p type).1
  · unfold extractArgs
    simp only [Nat.not_lt, decide_eq_true_eq]
    rw [hq.len, hp2.len]
    exact hroom
  · refine sameArgs_of_agree (p := setHeader p type) ?_
    rw [← hp1]
    exact (hq.rest.mono (Nat.le_refl _) (by rw [hpos]; exact Nat.le_add_right _ _)).trans hp2.args
  · intro t ht
    obtain ⟨hn, htext⟩ := hp2.text t ht
    have hload : (setPointers q).mem.load 248 (t.length + 1) = t ++ [0] := by
      rw [(hkeep (248 + (t.length + 1))).load (by simp) (Nat.le_refl _),
        hq.rest.load (by simp) (by rw [hpos, hn]), htext]
    refine ⟨?_, text_of_load (hzero t ht) hload⟩
    unfold extractParam
    simp only [Nat.not_lt, decide_eq_true_eq]
    rw [hdataPos, hlen]
    exact Nat.le_trans (Nat.le_add_right _ _) hq.room
  · unfold extractData
    simp only [Nat.not_lt, decide_eq_true_eq]
    rw [hdataPos, hdataLen, hlen, add64_eq (Nat.lt_of_le_of_lt hq.room p2.fits)]
    exact hq.room
  · unfold extractData
    simp only
    rw [hdataPos, hdataLen, (hkeep (p2.dataPos + q.dataLen)).load (by rw [hpos]; omega)
      (Nat.le_refl _), hq.data]
  · unfold extractData extractParam
    simp only [List.pairwise_cons, List.mem_cons, List.not_mem_nil, or_false, forall_eq_or_imp,
      forall_eq, List.Pairwise.nil, and_true, Region.apart_iff, Region.stop, hdataPos, hparamLen,
      hdataLen, sizeofHeader, sizeofRpcArgs, hpos, false_imp_iff, implies_true]
    omega

theorem build_eq_some {param data : Option (List UInt8)} (h : build p type a param data = some q) :
    ∃ p2, insertOptParam (insertArgs (setHeader p type) a) param = (true, p2) ∧
      insertOptData p2 data = (true, q) := by
  unfold build at h
  simp only at h
  split at h
  · rename_i hfirst
    split at h
    · rename_i hlast
      cases h
      exact ⟨_, Prod.ext hfirst rfl, Prod.ext hlast rfl⟩
    · cases h
  · cases h

/-- A packet of `new_packet` has room for the header and the arguments, and is apart from the
parameter and from the data in the address space. -/
theorem parts_of_build {param data : Option (List UInt8)}
    (hroom : sizeofHeader + sizeofRpcArgs ≤ p.len)
    (hparam : ∀ t ∈ param, t.length + 1 + p.len < addrSpace)
    (hdata : ∀ d ∈ data, d.length + p.len < addrSpace)
    (h : build p type a param data = some q) : ∃ p1 p2, p1 = insertArgs (setHeader p type) a ∧
      sizeofHeader + sizeofRpcArgs ≤ p1.len ∧ ParamIn p1 p2 param ∧ DataIn p2 q data := by
  obtain ⟨p1, hp1⟩ : ∃ p1, p1 = insertArgs (setHeader p type) a := ⟨_, rfl⟩
  have hlen : p1.len = p.len := by
    rw [hp1, insertArgs_len]
    simp only [setHeader, store_len]
  have hhead : AgreeOn p1 (setHeader p type) 0 24 := by
    rw [hp1]
    exact insertArgs_agree _ a (Or.inl (Nat.le_refl _))
  have hparamLen : p1.paramLen = 0 :=
    (hhead.num (by simp) (by simp)).trans (setHeader_ok p type).2.1
  have hdataLen : p1.dataLen = 0 :=
    (hhead.num (by simp) (by simp)).trans (setHeader_ok p type).2.2
  rw [← hlen] at hroom hparam hdata
  obtain ⟨p2, hfirst, hlast⟩ := build_eq_some h
  rw [← hp1] at hfirst
  have hp2 : ParamIn p1 p2 param := by
    cases param with
    | none =>
      cases hfirst
      exact paramIn_none hroom hparamLen hdataLen
    | some param => exact paramIn_insertParam (hparam param rfl) hroom hdataLen hfirst
  have hpos : p2.dataPos = 248 + p2.paramLen :=
    dataPos_of_room (by rw [hp2.len]; exact hp2.room)
  have hle : p2.dataPos ≤ p2.len := by
    rw [hpos, hp2.len]
    exact hp2.room
  refine ⟨p1, p2, hp1, hroom, hp2, ?_⟩
  cases data with
  | none =>
    cases hlast
    exact dataIn_none hle hp2.dataLen
  | some data =>
    refine dataIn_insertData ?_ hle (by rw [hpos]; exact Nat.le_add_right _ _) hlast
    rw [hp2.len]
    exact hdata data rfl

/-- **The round trip.** What comes out is what has gone in, for all that the functions accept, but
for the connectors that the operation does not take. -/
theorem args_round_trip (p : Packet) (type : UInt8) (a : Args) (param data : Option (List UInt8))
    (hroom : sizeofHeader + sizeofRpcArgs ≤ p.len)
    (hparam : ∀ t ∈ param, t.length + 1 + p.len < addrSpace)
    (htext : ∀ t ∈ param, (0 : UInt8) ∉ t)
    (hdata : ∀ d ∈ data, d.length + p.len < addrSpace)
    (h : build p type a param data = some q) : RoundTrip q type a param data := by
  obtain ⟨p1, p2, hp1, hroom1, hp2, hq⟩ := parts_of_build hroom hparam hdata h
  exact round_trip_of_parts hroom1 htext hp1 hp2 hq

/-- Arguments with two connectors, the rest zero. -/
def connArgs (op : UInt8) : Args where
  plain := List.replicate 82 0 ++ op :: List.replicate 61 0
  length_eq := by simp [sizeofArgs]
  conn1 := some ⟨List.replicate 24 1, by simp [sizeofConn]⟩
  conn2 := some ⟨List.replicate 24 2, by simp [sizeofConn]⟩
  resConn := none

theorem opCode_connArgs (op : UInt8) : (connArgs op).opCode = op.toNat := by
  unfold Args.opCode connArgs
  rw [List.getD_eq_getElem?_getD, List.getElem?_append_right (by simp)]
  simp

def freshPacket : Packet := ⟨4096, 253, fun _ => 0, by decide⟩

/-- `$connect`, with a text of one letter and three bytes of data. -/
theorem args_round_trip_connect : ∃ q,
    build freshPacket rpcReq (connArgs 16) (some [65]) (some [1, 2, 3]) = some q ∧
      RoundTrip q rpcReq (connArgs 16) (some [65]) (some [1, 2, 3]) := by
  have hsome : (build freshPacket rpcReq (connArgs 16) (some [65]) (some [1, 2, 3])).isSome := by
    decide
  obtain ⟨q, hq⟩ := Option.isSome_iff_exists.mp hsome
  refine ⟨q, hq, args_round_trip freshPacket rpcReq (connArgs 16) _ _ (by decide) ?_ ?_ ?_ hq⟩
  · rintro t ⟨⟩
    decide
  · rintro t ⟨⟩
    decide
  · rintro d ⟨⟩
    decide

/-- `$trans` does not carry the connectors that are there. -/
theorem trans_drops_conn : ∃ q,
    build freshPacket rpcReq (connArgs 1) (some [65]) (some [1, 2, 3]) = some q ∧
      (extractArgs q).success = true ∧ (argsOf q).conn1 = none ∧
      (connArgs 1).conn1 = some ⟨List.replicate 24 1, by simp [sizeofConn]⟩ ∧
      ¬ SameArgs (argsOf q) (connArgs 1) := by
  have hsome : (build freshPacket rpcReq (connArgs 1) (some [65]) (some [1, 2, 3])).isSome := by
    decide
  obtain ⟨q, hq⟩ := Option.isSome_iff_exists.mp hsome
  obtain ⟨p1, p2, hp1, hroom, hp2, hdata⟩ := parts_of_build (by decide)
    (by rintro t ⟨⟩; decide) (by rintro d ⟨⟩; decide) hq
  have htrip := round_trip_of_parts hroom (by rintro t ⟨⟩; decide) hp1 hp2 hdata
  have hnone : (argsOf q).conn1 = none := by
    rw [htrip.args.conn1]
    simp only [carried, opCode_connArgs]
    rfl
  refine ⟨q, hq, htrip.argsOk, hnone, rfl, ?_⟩
  intro h
  have heq := hnone.symm.trans h.conn1
  cases heq

end Athomux.Remote
