import Athomux.PacketStream.Proofs

/-! # Whole runs of the packet stream -/

open Lib

namespace Athomux.PacketStream

variable {s t : Sys}

/-! ## Every step -/

/-- The reader deletes the whole of a packet that it got. -/
def Client (s : Sys) : Event → Prop
  | .delete logAddr logLen => logAddr = s.availStart → s.fresh = false ∧ s.availLen ≤ logLen
  | _ => True

instance (s : Sys) (e : Event) : Decidable (Client s e) := by
  unfold Client
  split <;> infer_instance

theorem Inv.readBuffer (h : Inv s) {bufLen : Nat} (hs : step s (.readBuffer bufLen) = some t) :
    Inv t := by
  have hflow := h.flow
  unfold Flow at hflow
  simp only [step] at hs
  cases hreader : s.reader with
  | idle | header _ _ | data _ _ _ _ | error =>
    rw [hreader] at hs
    cases hs
  | fetch length a =>
    rw [hreader] at hs hflow
    simp only at hs
    obtain ⟨hfresh, hsize, hlt, padding, hpad, hflow⟩ := hflow
    split at hs
    · rename_i hbuf
      cases hs
      exact ⟨h.valid, h.busy, h.count, h.fresh, h.answers, hfresh, hsize, hbuf.2, hbuf.1, padding,
        hpad, hflow⟩
    · cases hs

theorem Inv.delete (h : Inv s) (hidle : s.reader = .idle) {logAddr logLen : Nat}
    (hok : logAddr = s.availStart → s.fresh = false ∧ s.availLen ≤ logLen) :
    Inv (s.delete logAddr logLen) := by
  unfold Sys.delete
  split
  · exact h
  · rename_i haddr
    obtain ⟨hfresh, hlen⟩ := hok (not_not.mp haddr)
    have hflow := h.flow
    unfold Flow at hflow
    rw [hidle] at hflow
    have hanswers := h.pending_nil hfresh
    refine ⟨h.valid, h.busy, h.count, fun hf => absurd (hfresh.symm.trans hf) (by decide), ?_, ?_⟩
    · unfold Sys.pending
      simp only
      rw [hfresh, if_neg (by decide), List.append_nil]
      exact hanswers
    · unfold Flow
      simp only
      rw [hidle]
      exact hflow

theorem inv_step {e : Event} (h : Inv s) (hok : Client s e) (hs : step s e = some t) : Inv t := by
  cases e with
  | padr f =>
    simp only [step] at hs
    split at hs
    · rename_i hpadr
      obtain ⟨hidle, hvalid⟩ := hpadr
      cases hs
      have hrest : s.onTheWay = s.stream := by
        rw [Sys.onTheWay, hidle, Writer.rest, List.append_nil]
      refine h.writer ?_ (List.forall_mem_singleton.mpr hvalid) ?_
      · change 0 < (header f.padding f.packet.length).length
        rw [header_length hvalid.1]
        decide
      · rw [hrest, framesBytes, List.flatMap_singleton]
        rfl
    · cases hs
  | accept k =>
    simp only [step, Option.map_eq_some_iff] at hs
    obtain ⟨⟨bytes, writer⟩, haccept, rfl⟩ := hs
    obtain ⟨hrest, -, hbusy⟩ := accept_spec haccept
    have hinv : Inv { s with
        writer := writer, stream := s.stream ++ bytes, written := s.written ++ [] } := by
      refine h.writer hbusy (by simp) ?_
      simp only [Sys.onTheWay, framesBytes, List.flatMap_nil, List.append_nil, hrest,
        List.append_assoc]
    rwa [List.append_nil] at hinv
  | buffer bufLen =>
    simp only [step, Option.map_eq_some_iff] at hs
    obtain ⟨writer, hbuffer, rfl⟩ := hs
    obtain ⟨hrest, hbusy⟩ := buffer_spec hbuffer
    have hinv : Inv { s with
        writer := writer, stream := s.stream, written := s.written ++ [] } := by
      refine h.writer hbusy (by simp) ?_
      simp only [Sys.onTheWay, framesBytes, List.flatMap_nil, List.append_nil, hrest]
    rwa [List.append_nil] at hinv
  | gadr a =>
    simp only [step] at hs
    split at hs
    · rename_i hidle
      cases hs
      exact h.gadr hidle a
    · cases hs
  | deliver k start => exact h.deliver hs
  | readBuffer bufLen => exact h.readBuffer hs
  | delete logAddr logLen =>
    simp only [step] at hs
    split at hs
    · rename_i hidle
      cases hs
      exact h.delete hidle hok
    · cases hs

theorem inv_init (h : Init s) : Inv s := by
  obtain ⟨hwriter, hstream, hreader, -, -, hfresh, hanswers, hwritten, hfetched⟩ := h
  refine ⟨by simp [hwritten], by rw [hwriter]; trivial, by omega, by simp [hfresh], ?_, ?_⟩
  · simp [Sys.pending, hfresh, hanswers, hwritten]
  · simp [Flow, hreader, Sys.onTheWay, Sys.unread, hstream, hwriter, hwritten, Writer.rest,
      framesBytes]

/-! ## No packet is kept back -/

/-- The steps within a `$padr` or a `$gadr`. -/
def Inner (_ : Sys) : Event → Prop
  | .accept _ | .buffer _ | .deliver _ _ | .readBuffer _ => True
  | _ => False

def Writer.fetches : Writer → Nat
  | .fetch _ _ => 1
  | _ => 0

def Reader.fetches : Reader → Nat
  | .fetch _ _ => 1
  | _ => 0

theorem Writer.fetches_le (w : Writer) : w.fetches ≤ 1 := by
  cases w <;> simp [Writer.fetches]

theorem Reader.fetches_le (r : Reader) : r.fetches ≤ 1 := by
  cases r <;> simp [Reader.fetches]

/-- How much is left to do with what was written. -/
def work (s : Sys) : Nat :=
  4 * s.writer.rest.length + 2 * s.stream.length + s.writer.fetches + s.reader.fetches

/-- The reader leaves the writer alone, and takes only what it is delivered. -/
structure Frames (s t : Sys) : Prop where
  writer : t.writer = s.writer
  stream : t.stream = s.stream
  written : t.written = s.written

theorem frames_answer (s : Sys) (a : GadrArgs) : Frames s (s.answer a) := by
  unfold Sys.answer
  split <;> exact ⟨rfl, rfl, rfl⟩

theorem frames_loop (s : Sys) (length : Nat) (a : GadrArgs) : Frames s (s.loop length a) := by
  unfold Sys.loop
  split
  · exact ⟨rfl, rfl, rfl⟩
  · obtain ⟨h1, h2, h3⟩ := frames_answer
      { s with fresh := 0 < s.availLen, fetched := s.fetched + 1 } a
    exact ⟨h1, h2, h3⟩

theorem frames_gotHeader (s : Sys) (got : List UInt8) (a : GadrArgs) (start : Nat) :
    Frames s (s.gotHeader got a start) := by
  unfold Sys.gotHeader
  split
  · exact ⟨rfl, rfl, rfl⟩
  · obtain ⟨h1, h2, h3⟩ := frames_loop { s with availStart := start, availLen := 0 }
      (headerLength got) a
    exact ⟨h1, h2, h3⟩

theorem deliver_frames {k start : Nat} (hs : s.deliver k start = some t) :
    0 < k ∧ k ≤ s.stream.length ∧ Frames { s with stream := s.stream.drop k } t := by
  unfold Sys.deliver at hs
  cases hreader : s.reader with
  | idle | fetch _ _ | error =>
    rw [hreader] at hs
    cases hs
  | header got a =>
    rw [hreader] at hs
    simp only at hs
    split at hs
    · rename_i hk
      refine ⟨hk.1, hk.2.1, ?_⟩
      split at hs
      · cases hs
        exact ⟨rfl, rfl, rfl⟩
      · cases hs
        exact frames_gotHeader _ _ _ _
    · cases hs
  | data got length bufLen a =>
    rw [hreader] at hs
    simp only at hs
    split at hs
    · rename_i hk
      refine ⟨hk.1, hk.2.1, ?_⟩
      split at hs
      · cases hs
        exact ⟨rfl, rfl, rfl⟩
      · cases hs
        obtain ⟨h1, h2, h3⟩ := frames_loop { s with
          stream := s.stream.drop k
          mem := memcpy s.mem (s.availStart + s.availLen)
            (fun i => (got ++ s.stream.take k).getD i 0) bufLen
          availLen := s.availLen + bufLen } length a
        exact ⟨h1, h2, h3⟩
    · cases hs

/-- There is less left after every inner step, and nothing is added. -/
theorem inner_step {e : Event} (hinner : Inner s e) (hs : step s e = some t) :
    work t < work s ∧ t.written = s.written := by
  cases e with
  | accept k =>
    simp only [step, Option.map_eq_some_iff] at hs
    obtain ⟨⟨bytes, writer⟩, haccept, rfl⟩ := hs
    obtain ⟨hrest, hpos, -⟩ := accept_spec haccept
    have hle := writer.fetches_le
    refine ⟨?_, rfl⟩
    simp only [work, hrest, List.length_append]
    omega
  | buffer bufLen =>
    simp only [step, Option.map_eq_some_iff] at hs
    obtain ⟨writer, hbuffer, rfl⟩ := hs
    obtain ⟨hrest, -⟩ := buffer_spec hbuffer
    refine ⟨?_, rfl⟩
    cases hwriter : s.writer with
    | fetch sum packet =>
      rw [hwriter] at hbuffer hrest
      simp only [Writer.buffer] at hbuffer
      split at hbuffer
      · cases hbuffer
        simp only [work, hwriter, hrest, Writer.fetches]
        omega
      · cases hbuffer
    | idle | header _ _ | data _ _ _ _ =>
      rw [hwriter] at hbuffer
      cases hbuffer
  | deliver k start =>
    obtain ⟨hpos, hle, hwriter, hstream, hwritten⟩ := deliver_frames hs
    have hfetches := t.reader.fetches_le
    refine ⟨?_, hwritten⟩
    simp only [work, hwriter, hstream, List.length_drop]
    omega
  | readBuffer bufLen =>
    simp only [step] at hs
    cases hreader : s.reader with
    | fetch length a =>
      rw [hreader] at hs
      simp only at hs
      split at hs
      · cases hs
        refine ⟨?_, rfl⟩
        simp only [work, hreader, Reader.fetches]
        omega
      · cases hs
    | idle | header _ _ | data _ _ _ _ | error =>
      rw [hreader] at hs
      cases hs
  | padr _ | gadr _ | delete _ _ => exact absurd hinner id

/-- Nothing can be done before the next call, or before the next packet is written. -/
def Settled (s : Sys) : Prop := s.writer = .idle ∧ (s.reader = .idle ∨ s.stream = [])

theorem inner_enabled (h : Inv s) (hgo : ¬ Settled s) :
    ∃ e t, Inner s e ∧ step s e = some t := by
  suffices ∃ e, Inner s e ∧ (step s e).isSome by
    obtain ⟨e, hinner, hs⟩ := this
    exact ⟨e, (step s e).get hs, hinner, (Option.some_get hs).symm⟩
  have hbusy := h.busy
  cases hwriter : s.writer with
  | header rest packet =>
    rw [hwriter] at hbusy
    have haccept : 0 < 1 ∧ 1 ≤ rest.length := ⟨Nat.one_pos, hbusy⟩
    refine ⟨.accept 1, trivial, ?_⟩
    simp only [step, hwriter, Writer.accept, if_pos haccept, Option.map_some]
    rfl
  | data rest sum bufLen packet =>
    rw [hwriter] at hbusy
    have haccept : 0 < 1 ∧ 1 ≤ rest.length := ⟨Nat.one_pos, hbusy⟩
    refine ⟨.accept 1, trivial, ?_⟩
    simp only [step, hwriter, Writer.accept, if_pos haccept, Option.map_some]
    rfl
  | fetch sum packet =>
    rw [hwriter] at hbusy
    have hbuffer : 0 < 1 ∧ sum + 1 ≤ packet.length := ⟨Nat.one_pos, hbusy⟩
    refine ⟨.buffer 1, trivial, ?_⟩
    simp only [step, hwriter, Writer.buffer, if_pos hbuffer, Option.map_some]
    rfl
  | idle =>
    have hreads : s.reader ≠ .idle ∧ s.stream ≠ [] := by
      constructor
      · exact fun hidle => hgo ⟨hwriter, Or.inl hidle⟩
      · exact fun hnil => hgo ⟨hwriter, Or.inr hnil⟩
    have hpos : 1 ≤ s.stream.length := List.length_pos_of_ne_nil hreads.2
    have hflow := h.flow
    unfold Flow at hflow
    cases hreader : s.reader with
    | idle => exact absurd hreader hreads.1
    | error =>
      rw [hreader] at hflow
      exact absurd hflow id
    | header got a =>
      rw [hreader] at hflow
      have hk : 0 < 1 ∧ 1 ≤ s.stream.length ∧ got.length + 1 ≤ headerSize :=
        ⟨Nat.one_pos, hpos, hflow.2.2.1⟩
      refine ⟨.deliver 1 0, trivial, ?_⟩
      simp only [step, Sys.deliver, hreader, if_pos hk]
      rfl
    | fetch length a =>
      rw [hreader] at hflow
      have hk : 0 < 1 ∧ s.availLen + 1 ≤ length := ⟨Nat.one_pos, hflow.2.2.1⟩
      refine ⟨.readBuffer 1, trivial, ?_⟩
      simp only [step, hreader, if_pos hk]
      rfl
    | data got length bufLen a =>
      rw [hreader] at hflow
      have hk : 0 < 1 ∧ 1 ≤ s.stream.length ∧ got.length + 1 ≤ bufLen :=
        ⟨Nat.one_pos, hpos, hflow.2.2.2.1⟩
      refine ⟨.deliver 1 0, trivial, ?_⟩
      simp only [step, Sys.deliver, hreader, if_pos hk]
      rfl

theorem inner_client {e : Event} (h : Inner s e) : Client s e := by
  cases e with
  | accept _ | buffer _ | deliver _ _ | readBuffer _ => trivial
  | padr _ | gadr _ | delete _ _ => exact absurd h id

/-- The inner steps come to an end. -/
theorem settles (h : Inv s) :
    ∃ t, Reach step (· = s) Inner t ∧ Inv t ∧ t.written = s.written ∧ Settled t := by
  induction hw : work s using Nat.strongRecOn generalizing s with
  | ind n ih =>
    have hstart : Reach step (· = s) Inner s := .start rfl
    by_cases hsettled : Settled s
    · exact ⟨s, hstart, h, rfl, hsettled⟩
    · obtain ⟨e, u, hinner, hs⟩ := inner_enabled h hsettled
      obtain ⟨hless, hwritten⟩ := inner_step hinner hs
      obtain ⟨t, hreach, hinv, hwritten', ht⟩ :=
        ih (work u) (hw ▸ hless) (inv_step h (inner_client hinner) hs) rfl
      exact ⟨t, (hstart.next hinner hs).trans hreach, hinv, hwritten'.trans hwritten, ht⟩

/-! ## Whole runs -/

/-- All frames that were written. -/
def Sys.packets (s : Sys) : List Packet := s.written.map Frame.packet

theorem Inv.all (h : Inv s) (hunread : s.unread = []) : s.answers ++ s.pending = s.packets := by
  have hdrop : s.written.drop s.fetched = [] := by
    cases hl : s.written.drop s.fetched with
    | nil => rfl
    | cons f l =>
      have hlen := congrArg List.length hunread
      have hf := h.valid f (List.mem_of_mem_drop (hl ▸ List.mem_cons_self))
      rw [Sys.unread, hl, framesBytes, List.flatMap_cons, frameBytes, List.length_append,
        List.length_append, header_length hf.1, headerSize, List.length_nil] at hlen
      omega
  rw [h.answers, List.take_of_length_le (List.drop_eq_nil_iff.mp hdrop)]
  rfl

/-- A reader that still waits when nothing is on the way has got everything. -/
theorem Inv.waits (h : Inv s) (hway : s.onTheWay = []) (hreader : s.reader ≠ .idle) :
    s.answers = s.packets := by
  have hflow := h.flow
  have hvalid : ∀ f ∈ s.written.drop s.fetched, Valid f := fun f hf =>
    h.valid f (List.mem_of_mem_drop hf)
  unfold Flow at hflow
  rw [hway] at hflow
  have hdone : s.fresh = false → s.unread = [] → s.answers = s.packets := by
    intro hfresh hunread
    have := h.all hunread
    rwa [Sys.pending, hfresh, if_neg (by decide), List.append_nil] at this
  cases hr : s.reader with
  | idle => exact absurd hr hreader
  | error =>
    rw [hr] at hflow
    exact absurd hflow id
  | header got a =>
    rw [hr] at hflow
    obtain ⟨hfresh, -, hlt, hflow⟩ := hflow
    rw [List.append_nil] at hflow
    refine hdone hfresh ?_
    cases hl : s.written.drop s.fetched with
    | nil => rw [Sys.unread, hl, framesBytes, List.flatMap_nil]
    | cons f l =>
      have hlen := congrArg List.length hflow
      have hf := hvalid f (hl ▸ List.mem_cons_self)
      rw [Sys.unread, hl, framesBytes, List.flatMap_cons, frameBytes, List.length_append,
        List.length_append, header_length hf.1] at hlen
      omega
  | fetch length a =>
    rw [hr] at hflow
    obtain ⟨-, hsize, hlt, padding, hpad, hflow⟩ := hflow
    obtain ⟨f, l, hl, hhead, hrest⟩ := frames_split hvalid (header_length hpad length) hflow
    have hf := hvalid f (hl ▸ List.mem_cons_self)
    have hlength : length = f.packet.length := by
      rw [← headerLength_header hpad hsize, hhead, headerLength_header hf.1 hf.2.2]
    have hlen := congrArg List.length hrest
    rw [List.append_nil, Sys.avail, region_length, List.length_append] at hlen
    omega
  | data got length bufLen a =>
    rw [hr] at hflow
    obtain ⟨-, hsize, hle, hlt, padding, hpad, hflow⟩ := hflow
    obtain ⟨f, l, hl, hhead, hrest⟩ := frames_split hvalid (header_length hpad length) hflow
    have hf := hvalid f (hl ▸ List.mem_cons_self)
    have hlength : length = f.packet.length := by
      rw [← headerLength_header hpad hsize, hhead, headerLength_header hf.1 hf.2.2]
    have hlen := congrArg List.length hrest
    rw [List.append_nil, List.length_append, Sys.avail, region_length, List.length_append] at hlen
    omega

/-- What was read is what was written, in the same order, and when nothing is on the way it is all
of it. -/
structure RoundTrip (s : Sys) : Prop where
  noError : s.reader ≠ .error
  inOrder : s.answers ++ s.pending <+: s.packets
  complete : s.onTheWay = [] → s.reader = .idle → s.answers ++ s.pending = s.packets

theorem Inv.roundTrip (h : Inv s) : RoundTrip s where
  noError herror := by
    have hflow := h.flow
    rw [Flow, herror] at hflow
    exact hflow
  inOrder := by
    rw [h.answers]
    exact (List.take_prefix _ _).map _
  complete hway hidle := by
    have hflow := h.flow
    rw [Flow, hidle] at hflow
    exact h.all (hflow.symm.trans hway)

/-- **Packets are read as they were written**, wherever the device cuts the bytes. The bytes of
what was written arrive after finitely many of them, and then a `$gadr` still waits only if
it has read everything. -/
theorem packet_round_trip (h : Reach step Init Client s) :
    RoundTrip s ∧ ∃ t, Reach step (· = s) Inner t ∧ t.packets = s.packets ∧ RoundTrip t ∧
      Settled t ∧ (t.reader = .idle ∨ t.answers = t.packets) := by
  have hinv : Inv s := h.invariant (fun _ => inv_init) fun _ _ _ => inv_step
  refine ⟨hinv.roundTrip, ?_⟩
  obtain ⟨t, hreach, hinv', hwritten, hsettled⟩ := settles hinv
  refine ⟨t, hreach, congrArg (List.map Frame.packet) hwritten, hinv'.roundTrip, hsettled, ?_⟩
  rcases hsettled with ⟨hwriter, hidle | hnil⟩
  · exact Or.inl hidle
  · by_cases hidle : t.reader = .idle
    · exact Or.inl hidle
    · refine Or.inr (hinv'.waits ?_ hidle)
      rw [Sys.onTheWay, hnil, hwriter]
      rfl

/-- After the `init` section. -/
def beginning : Sys := ⟨.idle, [], .idle, 0, 0, fun _ => 0, false, [], [], 0⟩

theorem beginning_init : Init beginning := by
  simp [Init, beginning]

def anyLength : GadrArgs := ⟨1, 0, true⟩

/-- Two packets are on the way at once. The device cuts the first header after three bytes, and
the bytes of the first packet one after the other. -/
theorem packet_round_trip_cut : ∃ s : Sys, s.answers = [[1, 2], [3]] ∧ RoundTrip s ∧
    ∃ t, Reach step (· = s) Inner t ∧ t.packets = s.packets ∧ RoundTrip t ∧
      Settled t ∧ (t.reader = .idle ∨ t.answers = t.packets) := by
  have hrun : (run step Client beginning [.gadr anyLength, .padr ⟨[7, 7, 7, 7], [1, 2]⟩,
      .accept 3, .deliver 2 0, .accept 13, .buffer 1, .accept 1, .deliver 14 100,
      .buffer 1, .readBuffer 2, .accept 1, .padr ⟨[0, 0, 0, 0], [3]⟩, .accept 16, .deliver 1 0,
      .deliver 1 0, .delete 100 2, .gadr anyLength, .deliver 16 200, .readBuffer 1, .buffer 1,
      .accept 1, .deliver 1 0]).map Sys.answers = some [[1, 2], [3]] := by
    decide +kernel
  obtain ⟨s, hs, heq⟩ := Option.map_eq_some_iff.mp hrun
  exact ⟨s, heq, packet_round_trip ((Reach.start beginning_init).of_run hs)⟩

end Athomux.PacketStream
