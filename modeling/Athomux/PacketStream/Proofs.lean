import Mathlib.Data.List.Basic
import Athomux.PacketStream.Spec

/-! # Reading what was written -/

open Lib

namespace Athomux.PacketStream

variable {s t : Sys} {a : GadrArgs} {w w' : Writer} {got bytes : List UInt8} {k start length bufLen : Nat}

/-! ## Frames -/

def frameBytes (f : Frame) : List UInt8 := header f.padding f.packet.length ++ f.packet

def framesBytes (l : List Frame) : List UInt8 := l.flatMap frameBytes

/-- What `$padr` may be called with. -/
def Valid (f : Frame) : Prop := f.padding.length = 4 ∧ f.packet ≠ [] ∧ f.packet.length < addrSpace

theorem header_length {padding : List UInt8} (h : padding.length = 4) (n : Nat) :
    (header padding n).length = headerSize := by
  simp [header, headerSize, h]

theorem headerId_header (padding : List UInt8) (n : Nat) :
    headerId (header padding n) = identification := by
  have htake : (header padding n).take 4 = toBytes 4 identification := by
    simp [header]
  rw [headerId, htake]
  exact ofBytes_toBytes (by decide)

theorem headerLength_header {padding : List UInt8} (h : padding.length = 4) {n : Nat}
    (hn : n < addrSpace) : headerLength (header padding n) = n := by
  have hdrop : (header padding n).drop 8 = toBytes 8 n := by
    rw [header, List.drop_left' (by simp [h])]
  rw [headerLength, hdrop]
  exact ofBytes_toBytes (by rw [show 256 ^ 8 = addrSpace by decide]; exact hn)

/-- The first frame of a stream is known from its first bytes. -/
theorem frames_split {l : List Frame} (hvalid : ∀ f ∈ l, Valid f) {hd tl : List UInt8}
    (hlen : hd.length = headerSize) (h : hd ++ tl = framesBytes l) :
    ∃ f l', l = f :: l' ∧ hd = header f.padding f.packet.length ∧ tl = f.packet ++ framesBytes l' := by
  cases l with
  | nil =>
    have := congrArg List.length h
    simp [framesBytes, hlen, headerSize] at this
  | cons f l' =>
    refine ⟨f, l', rfl, ?_⟩
    rw [framesBytes, List.flatMap_cons, frameBytes, List.append_assoc] at h
    have hf := header_length (hvalid f List.mem_cons_self).1 f.packet.length
    exact List.append_inj h (hlen.trans hf.symm)

/-! ## The writer -/

/-- The bytes that are still to be sent. -/
def Writer.rest : Writer → List UInt8
  | .idle => []
  | .header rest packet => rest ++ packet
  | .fetch sum packet => packet.drop sum
  | .data rest sum bufLen packet => rest ++ packet.drop (sum + bufLen)

/-- There is something to do. -/
def Writer.Busy : Writer → Prop
  | .idle => True
  | .header rest _ => 0 < rest.length
  | .fetch sum packet => sum < packet.length
  | .data rest _ _ _ => 0 < rest.length

theorem loop_rest (sum : Nat) (packet : Packet) : (Writer.loop sum packet).rest = packet.drop sum := by
  unfold Writer.loop
  split
  · rfl
  · rw [Writer.rest, List.drop_of_length_le (by omega)]

theorem loop_busy (sum : Nat) (packet : Packet) : (Writer.loop sum packet).Busy := by
  unfold Writer.loop
  split
  · assumption
  · trivial

theorem accept_spec (h : w.accept k = some (bytes, w')) :
    w.rest = bytes ++ w'.rest ∧ 0 < bytes.length ∧ w'.Busy := by
  cases w with
  | idle => cases h
  | fetch sum packet => cases h
  | header rest packet =>
    simp only [Writer.accept] at h
    split at h
    · rename_i hk
      simp only [Option.some.injEq, Prod.mk.injEq] at h
      obtain ⟨rfl, rfl⟩ := h
      split
      · simp only [Writer.rest, Writer.Busy, List.length_take, List.length_drop]
        rw [← List.append_assoc, List.take_append_drop]
        exact ⟨rfl, by omega, by omega⟩
      · rw [List.take_of_length_le (by omega), Writer.next, loop_rest]
        exact ⟨rfl, by omega, loop_busy 0 packet⟩
    · cases h
  | data rest sum bufLen packet =>
    simp only [Writer.accept] at h
    split at h
    · rename_i hk
      simp only [Option.some.injEq, Prod.mk.injEq] at h
      obtain ⟨rfl, rfl⟩ := h
      split
      · simp only [Writer.rest, Writer.Busy, List.length_take, List.length_drop]
        rw [← List.append_assoc, List.take_append_drop]
        exact ⟨rfl, by omega, by omega⟩
      · rw [List.take_of_length_le (by omega), Writer.next, loop_rest]
        exact ⟨rfl, by omega, loop_busy (sum + bufLen) packet⟩
    · cases h

theorem buffer_spec (h : w.buffer bufLen = some w') : w'.rest = w.rest ∧ w'.Busy := by
  cases w with
  | fetch sum packet =>
    simp only [Writer.buffer] at h
    split at h
    · cases h
      simp only [Writer.rest, Writer.Busy, List.length_take, List.length_drop]
      rw [← List.drop_drop, List.take_append_drop]
      exact ⟨rfl, by omega⟩
    · cases h
  | idle | header _ _ | data _ _ _ _ => cases h

/-! ## The reader -/

@[simp] theorem region_length (mem : Nat → UInt8) (start len : Nat) :
    (region mem start len).length = len := by
  simp [region]

/-- Bytes that are put behind a region belong to it then. -/
theorem region_memcpy (mem : Nat → UInt8) (start len : Nat) (got : List UInt8) :
    region (memcpy mem (start + len) (fun i => got.getD i 0) got.length) start (len + got.length) =
      region mem start len ++ got := by
  have hold : (List.range len).map (fun i =>
      memcpy mem (start + len) (fun i => got.getD i 0) got.length (start + i)) =
      (List.range len).map fun i => mem (start + i) := by
    refine List.map_congr_left fun i hi => ?_
    have := List.mem_range.mp hi
    simp only [memcpy]
    rw [if_neg (by omega)]
  have hnew : (List.range got.length).map (fun i =>
      memcpy mem (start + len) (fun i => got.getD i 0) got.length (start + (len + i))) = got := by
    refine List.ext_getElem (by simp) fun i h1 h2 => ?_
    simp only [List.getElem_map, List.getElem_range, memcpy]
    rw [if_pos (by omega), show start + (len + i) - (start + len) = i by omega,
      List.getD_eq_getElem?_getD, List.getElem?_eq_getElem h2, Option.getD_some]
  rw [region, List.range_add, List.map_append, List.map_map, hold]
  exact congrArg (_ ++ ·) hnew

/-- The packet that was fetched and not yet answered. -/
def Sys.pending (s : Sys) : List Packet := if s.fresh then [s.avail] else []

/-- The bytes in the device and those that are still to be sent. -/
def Sys.onTheWay (s : Sys) : List UInt8 := s.stream ++ s.writer.rest

/-- The frames that were not yet fetched. -/
def Sys.unread (s : Sys) : List UInt8 := framesBytes (s.written.drop s.fetched)

/-- The bytes of the unread frames are in the reader or on the way. -/
def Flow (s : Sys) : Prop :=
  match s.reader with
  | .idle => s.onTheWay = s.unread
  | .header got _ => s.fresh = false ∧ s.availLen = 0 ∧ got.length < headerSize ∧
    got ++ s.onTheWay = s.unread
  | .fetch length _ => s.fresh = false ∧ length < addrSpace ∧ s.availLen < length ∧
    ∃ padding, padding.length = 4 ∧ header padding length ++ (s.avail ++ s.onTheWay) = s.unread
  | .data got length bufLen _ => s.fresh = false ∧ length < addrSpace ∧
    s.availLen + bufLen ≤ length ∧ got.length < bufLen ∧
    ∃ padding, padding.length = 4 ∧
      header padding length ++ (s.avail ++ (got ++ s.onTheWay)) = s.unread
  | .error => False

structure Inv (s : Sys) : Prop where
  valid : ∀ f ∈ s.written, Valid f
  busy : s.writer.Busy
  count : s.fetched ≤ s.written.length
  fresh : s.fresh = true → 0 < s.availLen
  answers : s.answers ++ s.pending = (s.written.take s.fetched).map Frame.packet
  flow : Flow s

/-- A reader that is about to return. -/
structure Returns (s : Sys) : Prop where
  valid : ∀ f ∈ s.written, Valid f
  busy : s.writer.Busy
  count : s.fetched ≤ s.written.length
  fresh : s.fresh = true → 0 < s.availLen
  answers : s.answers ++ s.pending = (s.written.take s.fetched).map Frame.packet
  flow : s.onTheWay = s.unread

theorem Returns.answer (h : Returns s) (a : GadrArgs) : Inv (s.answer a) := by
  unfold Sys.answer
  split
  · refine ⟨h.valid, h.busy, h.count, by simp, ?_, h.flow⟩
    have := h.answers
    unfold Sys.pending at this ⊢
    simp only [Bool.false_eq_true, if_false, List.append_nil]
    split
    · rename_i hfresh
      rwa [if_pos hfresh] at this
    · rename_i hfresh
      rwa [if_neg hfresh, List.append_nil] at this
  · exact ⟨h.valid, h.busy, h.count, h.fresh, h.answers, h.flow⟩

/-- A reader at the head of its loop over a packet. -/
structure Loops (s : Sys) (length : Nat) : Prop where
  valid : ∀ f ∈ s.written, Valid f
  busy : s.writer.Busy
  count : s.fetched ≤ s.written.length
  fresh : s.fresh = false
  answers : s.answers = (s.written.take s.fetched).map Frame.packet
  lt : length < addrSpace
  le : s.availLen ≤ length
  flow : ∃ padding, padding.length = 4 ∧ header padding length ++ (s.avail ++ s.onTheWay) = s.unread

theorem unread_cons {f : Frame} {l : List Frame} (h : s.written.drop s.fetched = f :: l) :
    s.written.drop (s.fetched + 1) = l ∧ s.fetched < s.written.length ∧
    (s.written.take (s.fetched + 1)).map Frame.packet =
      (s.written.take s.fetched).map Frame.packet ++ [f.packet] := by
  have hlt : s.fetched < s.written.length := by
    by_contra hge
    rw [List.drop_of_length_le (Nat.not_lt.mp hge)] at h
    cases h
  rw [List.drop_eq_getElem_cons hlt, List.cons.injEq] at h
  refine ⟨h.2, hlt, ?_⟩
  rw [List.take_succ_eq_append_getElem hlt, List.map_append, h.1]
  rfl

theorem Loops.loop (h : Loops s length) (a : GadrArgs) : Inv (s.loop length a) := by
  obtain ⟨padding, hpad, hflow⟩ := h.flow
  unfold Sys.loop
  split
  · rename_i hlt
    refine ⟨h.valid, h.busy, h.count, fun hf => absurd (h.fresh.symm.trans hf) (by decide), ?_,
      h.fresh, h.lt, hlt, padding, hpad, hflow⟩
    have hpending : s.pending = [] := by rw [Sys.pending, h.fresh]; rfl
    change s.answers ++ s.pending = _
    rw [hpending, List.append_nil]
    exact h.answers
  · rename_i hge
    have hlen : s.availLen = length := by have := h.le; omega
    have hvalid : ∀ f ∈ s.written.drop s.fetched, Valid f := fun f hf =>
      h.valid f (List.mem_of_mem_drop hf)
    obtain ⟨f, l, hl, hhead, hrest⟩ := frames_split hvalid (header_length hpad length) hflow
    have hf := hvalid f (hl ▸ List.mem_cons_self)
    obtain ⟨hdrop, hlt, htake⟩ := unread_cons hl
    -- The header says how long the packet is.
    have hlength : length = f.packet.length := by
      rw [← headerLength_header hpad h.lt, hhead, headerLength_header hf.1 hf.2.2]
    have havail : s.avail = f.packet ∧ s.onTheWay = framesBytes l :=
      List.append_inj hrest (by rw [Sys.avail, region_length]; omega)
    have hpos : 0 < f.packet.length := List.length_pos_of_ne_nil hf.2.1
    have hfetched : s.availLen > 0 := by omega
    suffices hreturns : Returns { s with fresh := 0 < s.availLen, fetched := s.fetched + 1 } from
      hreturns.answer a
    refine ⟨h.valid, h.busy, Nat.succ_le_of_lt hlt, fun _ => hfetched, ?_, ?_⟩
    · have hpending : Sys.pending { s with
          fresh := 0 < s.availLen, fetched := s.fetched + 1 } = [s.avail] := by
        unfold Sys.pending
        rw [if_pos (by simpa using hfetched)]
        rfl
      rw [hpending]
      simp only
      rw [htake, h.answers, havail.1]
    · change s.onTheWay = framesBytes (s.written.drop (s.fetched + 1))
      rw [hdrop]
      exact havail.2

theorem Inv.pending_nil (h : Inv s) (hfresh : s.fresh = false) :
    s.answers = (s.written.take s.fetched).map Frame.packet := by
  have := h.answers
  rwa [Sys.pending, hfresh, if_neg (by decide), List.append_nil] at this

theorem Inv.gadr (h : Inv s) (hidle : s.reader = .idle) (a : GadrArgs) : Inv (s.gadr a) := by
  have hflow := h.flow
  rw [Flow, hidle] at hflow
  unfold Sys.gadr
  split
  · rename_i hwait
    have hfresh : s.fresh = false := by
      cases hf : s.fresh with
      | false => rfl
      | true => exact absurd (h.fresh hf) (by omega)
    exact ⟨h.valid, h.busy, h.count, h.fresh, h.answers, hfresh, hwait.2.1, by decide, hflow⟩
  · exact Returns.answer ⟨h.valid, h.busy, h.count, h.fresh, h.answers, hflow⟩ a

theorem onTheWay_deliver (s : Sys) (k : Nat) :
    s.onTheWay = s.stream.take k ++ Sys.onTheWay { s with stream := s.stream.drop k } := by
  simp only [Sys.onTheWay]
  rw [← List.append_assoc, List.take_append_drop]

theorem Inv.deliver (h : Inv s) (hs : s.deliver k start = some t) : Inv t := by
  have hflow := h.flow
  have htake := onTheWay_deliver s k
  unfold Sys.deliver at hs
  unfold Flow at hflow
  cases hreader : s.reader with
  | idle | fetch _ _ | error =>
    rw [hreader] at hs
    cases hs
  | header got a =>
    rw [hreader] at hs hflow
    simp only at hs hflow
    obtain ⟨hfresh, hempty, hlt, hflow⟩ := hflow
    rw [htake, ← List.append_assoc] at hflow
    have hanswers := h.pending_nil hfresh
    split at hs
    · rename_i hk
      have hgot : (got ++ s.stream.take k).length = got.length + k := by
        rw [List.length_append, List.length_take, min_eq_left hk.2.1]
      split at hs
      · rename_i hmore
        cases hs
        exact ⟨h.valid, h.busy, h.count, h.fresh, h.answers, hfresh, hempty, by omega, hflow⟩
      · rename_i hfull
        cases hs
        have hvalid : ∀ f ∈ s.written.drop s.fetched, Valid f := fun f hf =>
          h.valid f (List.mem_of_mem_drop hf)
        obtain ⟨f, l, hl, hhead, hrest⟩ := frames_split hvalid (by omega) hflow
        have hf := hvalid f (hl ▸ List.mem_cons_self)
        unfold Sys.gotHeader
        rw [hhead, headerId_header, headerLength_header hf.1 hf.2.2, if_neg (by simp)]
        suffices hloops : Loops { s with
            stream := s.stream.drop k, availStart := start, availLen := 0 } f.packet.length from
          hloops.loop a
        refine ⟨h.valid, h.busy, h.count, hfresh, hanswers, hf.2.2, Nat.zero_le _, f.padding, hf.1, ?_⟩
        rw [← hhead]
        exact hflow
    · cases hs
  | data got length bufLen a =>
    rw [hreader] at hs hflow
    simp only at hs hflow
    obtain ⟨hfresh, hsize, hle, hlt, padding, hpad, hflow⟩ := hflow
    rw [htake, ← List.append_assoc got] at hflow
    have hanswers := h.pending_nil hfresh
    split at hs
    · rename_i hk
      have hgot : (got ++ s.stream.take k).length = got.length + k := by
        rw [List.length_append, List.length_take, min_eq_left hk.2.1]
      split at hs
      · rename_i hmore
        cases hs
        exact ⟨h.valid, h.busy, h.count, h.fresh, h.answers, hfresh, hsize, hle, by omega, padding,
          hpad, hflow⟩
      · rename_i hfull
        cases hs
        have hbuf : bufLen = (got ++ s.stream.take k).length := by omega
        suffices hloops : Loops { s with
            stream := s.stream.drop k
            mem := memcpy s.mem (s.availStart + s.availLen)
              (fun i => (got ++ s.stream.take k).getD i 0) bufLen
            availLen := s.availLen + bufLen } length from
          hloops.loop a
        refine ⟨h.valid, h.busy, h.count, hfresh, hanswers, hsize, hle, padding, hpad, ?_⟩
        have hregion := region_memcpy s.mem s.availStart s.availLen (got ++ s.stream.take k)
        rw [← hbuf] at hregion
        unfold Sys.avail
        simp only
        rw [hregion, List.append_assoc]
        exact hflow
    · cases hs

/-! ## Steps -/

theorem framesBytes_append (l l' : List Frame) :
    framesBytes (l ++ l') = framesBytes l ++ framesBytes l' :=
  List.flatMap_append

/-- What the writer does changes neither what is on the way nor what is unread, or it adds the
same bytes to both. -/
theorem Inv.writer (h : Inv s) {writer : Writer} {stream : List UInt8} {new : List Frame}
    (hbusy : writer.Busy) (hnew : ∀ f ∈ new, Valid f)
    (hway : stream ++ writer.rest = s.onTheWay ++ framesBytes new) :
    Inv { s with writer := writer, stream := stream, written := s.written ++ new } := by
  have hunread : framesBytes ((s.written ++ new).drop s.fetched) = s.unread ++ framesBytes new := by
    rw [List.drop_append_of_le_length h.count, framesBytes_append]
    rfl
  refine ⟨?_, hbusy, ?_, h.fresh, ?_, ?_⟩
  · exact List.forall_mem_append.mpr ⟨h.valid, hnew⟩
  · rw [List.length_append]
    exact h.count.trans (Nat.le_add_right _ _)
  · rw [List.take_append_of_le_length h.count]
    exact h.answers
  · have hflow := h.flow
    unfold Flow at hflow ⊢
    simp only [Sys.onTheWay, Sys.unread] at hflow hway hunread ⊢
    rw [hway, hunread]
    cases hreader : s.reader with
    | idle =>
      rw [hreader] at hflow
      simp only at hflow ⊢
      rw [hflow]
    | header got a =>
      rw [hreader] at hflow
      obtain ⟨h1, h2, h3, hflow⟩ := hflow
      refine ⟨h1, h2, h3, ?_⟩
      rw [← hflow]
      simp only [List.append_assoc]
    | fetch length a =>
      rw [hreader] at hflow
      obtain ⟨h1, h2, h3, padding, hpad, hflow⟩ := hflow
      refine ⟨h1, h2, h3, padding, hpad, ?_⟩
      rw [← hflow]
      simp only [List.append_assoc]
      rfl
    | data got length bufLen a =>
      rw [hreader] at hflow
      obtain ⟨h1, h2, h3, h4, padding, hpad, hflow⟩ := hflow
      refine ⟨h1, h2, h3, h4, padding, hpad, ?_⟩
      rw [← hflow]
      simp only [List.append_assoc]
      rfl
    | error =>
      rw [hreader] at hflow
      exact hflow

end Athomux.PacketStream
