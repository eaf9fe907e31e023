import Athomux.AdaptStrmr.Spec

/-!
# The stream keeps the bytes of the device in their order
-/

open Lib

namespace Athomux.AdaptStrmr

variable {s t : Stream}

/-- What every operation keeps. -/
structure Stream.Kept (s : Stream) : Prop where
  order : s.InOrder
  inside : s.availStart + s.availLen < addrSpace

theorem start_kept : start.Kept where
  order := rfl
  inside := Nat.zero_lt_of_lt (add64_lt 0 0)

theorem available_length (s : Stream) : s.available.length = s.availLen := ByteMem.load_length _ _ _

/-- Where what is there ends. -/
theorem Stream.Kept.stop_eq (h : s.Kept) : add64 s.availStart s.availLen = s.availStart + s.availLen :=
  add64_eq h.inside

/-- The bytes that are there can be read. -/
theorem Stream.Kept.exposes (h : s.Kept) {n : Nat} (hn : n ≤ s.availLen) :
    Range.Exposes ⟨true, s.availStart, n⟩ s where
  start := rfl
  inside := hn
  bytes := by
    rw [← h.order, List.drop_left' rfl, Stream.available, ByteMem.load_take _ hn]

/-! ## Space for the bytes -/

theorem moved_eq {availStart : Nat} {offs : Int} (hlow : 0 ≤ availStart + offs)
    (hhigh : availStart + offs < (addrSpace : Int)) :
    (moved availStart offs : Int) = availStart + offs := by
  rw [moved, Int.emod_eq_of_lt hlow hhigh, Int.toNat_of_nonneg hlow]

/-- The bytes that are there are moved. -/
theorem move_kept (h : s.Kept) {offs : Int} (fill : ByteMem) (hlow : 0 ≤ s.availStart + offs)
    (hhigh : s.availStart + offs + s.availLen < (addrSpace : Int)) : (s.move offs fill).Kept := by
  have hstart := moved_eq hlow (by omega)
  have hsame : (s.move offs fill).available = s.available := by
    refine ByteMem.load_eq fun i hi => moveBytes_along _ _ ?_ ?_
    · exact ⟨Nat.le_add_right _ _, Nat.add_lt_add_left hi _⟩
    · simp only [Stream.move]
      omega
  constructor
  · rw [Stream.InOrder, hsame]
    exact h.order
  · simp only [Stream.move]
    omega

theorem create_kept (h : s.Kept) (logLen : Nat) (fill : ByteMem) : (s.create logLen fill).Kept where
  order := by
    have hsame : (s.create logLen fill).available = s.available :=
      ByteMem.load_congr fun i hi => createBytes_stay _ _ fun hin => by
        have := hin.1
        rw [h.stop_eq] at this
        simp only [Stream.create] at this hi
        omega
    rw [Stream.InOrder, hsame]
    exact h.order
  inside := h.inside

/-! ## The loop -/

theorem receive_nil (s : Stream) : s.receive [] = s := by
  have hstore : s.tmp.store (add64 s.availStart s.availLen) [] = s.tmp := by
    funext x
    exact ByteMem.store_apart _ _ (by rw [List.length_nil]; omega)
  rw [Stream.receive, hstore, List.append_nil]

/-- The bytes of a turn come behind what is there. -/
theorem receive_kept (h : s.Kept) (bytes : List UInt8)
    (hroom : s.availStart + s.availLen + bytes.length < addrSpace) :
    ((s.receive bytes).grow bytes.length).Kept ∧
      ((s.receive bytes).grow bytes.length).availLen = s.availLen + bytes.length := by
  have hlen : ((s.receive bytes).grow bytes.length).availLen = s.availLen + bytes.length :=
    add64_eq (show s.availLen + bytes.length < addrSpace by omega)
  refine ⟨⟨?_, ?_⟩, hlen⟩
  · have hnew : ((s.receive bytes).grow bytes.length).available = s.available ++ bytes := by
      rw [Stream.available, hlen, ByteMem.load_add, Stream.grow, Stream.receive, h.stop_eq,
        ByteMem.load_store, ByteMem.load_store_apart _ _ (Or.inl le_rfl), Stream.available]
    rw [Stream.InOrder, hnew, ← List.append_assoc]
    exact congrArg (· ++ bytes) h.order
  · rw [hlen, ← Nat.add_assoc]
    exact hroom

section Turns

variable {logLen plen : Nat} {turn : Turn} {turns : List Turn}

theorem fetch_nil :
    s.fetch logLen [] = if s.availLen < logLen then none else some (true, s) := rfl

theorem fetch_cons : s.fetch logLen (turn :: turns) =
    if s.availLen < logLen then
      match turn.plen with
      | none => some (false, s)
      | some plen =>
        if !turn.ok then some (false, s.receive turn.bytes)
        else if !turn.put then some (false, s.receive turn.bytes)
        else ((s.receive turn.bytes).grow plen).fetch logLen turns
    else none := rfl

theorem fetch_enough (h : ¬s.availLen < logLen) {r : Bool × Stream}
    (hrun : s.fetch logLen turns = some r) : turns = [] ∧ r = (true, s) := by
  cases turns with
  | nil =>
    rw [fetch_nil, if_neg h] at hrun
    exact ⟨rfl, (Option.some.inj hrun).symm⟩
  | cons turn turns =>
    rw [fetch_cons, if_neg h] at hrun
    exact absurd hrun (by simp)

theorem fetch_refused (h : s.availLen < logLen) (hplen : turn.plen = none) :
    s.fetch logLen (turn :: turns) = some (false, s) := by
  rw [fetch_cons, if_pos h]
  simp only [hplen]

theorem fetch_turn (h : s.availLen < logLen) (hplen : turn.plen = some plen)
    (hall : turn.ok = true ∧ turn.put = true) :
    s.fetch logLen (turn :: turns) =
      ((s.receive turn.bytes).grow plen).fetch logLen turns := by
  rw [fetch_cons, if_pos h]
  simp only [hplen, hall.1, hall.2, Bool.not_true, Bool.false_eq_true, if_false]

theorem fetch_failed (h : s.availLen < logLen) (hplen : turn.plen = some plen)
    (hnot : ¬(turn.ok = true ∧ turn.put = true)) :
    s.fetch logLen (turn :: turns) = some (false, s.receive turn.bytes) := by
  rw [fetch_cons, if_pos h]
  simp only [hplen]
  cases hok : turn.ok with
  | false => rfl
  | true =>
    cases hput : turn.put with
    | false => rfl
    | true => exact absurd ⟨hok, hput⟩ hnot

/-- By induction on the turns that are left. -/
theorem fetch_kept {ok : Bool} : ∀ (turns : List Turn) (s : Stream), s.Kept →
    (∀ turn ∈ turns, turn.Fair) →
    s.availStart + s.availLen + (turns.map fun turn => turn.bytes.length).sum < addrSpace →
    s.fetch logLen turns = some (ok, t) →
    t.Kept ∧ t.availStart = s.availStart ∧
      (ok = true → logLen ≤ t.availLen ∧ ∀ turn ∈ turns, turn.Succeeds) := by
  intro turns
  induction turns with
  | nil =>
    intro s h _ _ hrun
    by_cases hlt : s.availLen < logLen
    · rw [fetch_nil, if_pos hlt] at hrun
      exact absurd hrun (by simp)
    · obtain ⟨rfl, rfl⟩ := Prod.mk.inj (fetch_enough hlt hrun).2
      exact ⟨h, rfl, fun _ => ⟨by omega, fun _ hmem => absurd hmem (by simp)⟩⟩
  | cons turn turns ih =>
    intro s h hfair hroom hrun
    rw [List.map_cons, List.sum_cons] at hroom
    by_cases hlt : s.availLen < logLen
    · cases hplen : turn.plen with
      | none =>
        rw [fetch_refused hlt hplen] at hrun
        obtain ⟨rfl, rfl⟩ := Prod.mk.inj (Option.some.inj hrun)
        exact ⟨h, rfl, fun hok => absurd hok (by simp)⟩
      | some plen =>
        have hlen := hfair turn List.mem_cons_self plen hplen
        by_cases hall : turn.ok = true ∧ turn.put = true
        · rw [if_pos hall] at hlen
          rw [fetch_turn hlt hplen hall, ← hlen] at hrun
          obtain ⟨hkept, hgrown⟩ := receive_kept h turn.bytes (by omega)
          have hbegin : ((s.receive turn.bytes).grow turn.bytes.length).availStart = s.availStart :=
            rfl
          obtain ⟨ht, hstart, hok⟩ := ih _ hkept (fun u hu => hfair u (List.mem_cons_of_mem _ hu))
            (by rw [hgrown, hbegin]; omega) hrun
          refine ⟨ht, hstart.trans hbegin, fun hsucc => ⟨(hok hsucc).1, fun u hu => ?_⟩⟩
          rcases List.mem_cons.mp hu with rfl | hu
          · exact ⟨by rw [hplen]; rfl, hall⟩
          · exact (hok hsucc).2 u hu
        · -- The device has given nothing.
          rw [if_neg hall] at hlen
          rw [fetch_failed hlt hplen hall, List.eq_nil_of_length_eq_zero hlen, receive_nil] at hrun
          obtain ⟨rfl, rfl⟩ := Prod.mk.inj (Option.some.inj hrun)
          exact ⟨h, rfl, fun hok => absurd hok (by simp)⟩
    · exact absurd (fetch_enough hlt hrun).1 (by simp)

end Turns

/-! ## The operations -/

theorem makeSpace_kept (h : s.Kept) {x : Gadr} (hmoves : s.Wraps x.logLen → ∀ offs, x.move = some offs →
    0 ≤ s.availStart + offs ∧ s.availStart + offs + s.availLen < (addrSpace : Int)) :
    (s.makeSpace x).2.Kept ∧ (s.makeSpace x).2.availLen = s.availLen ∧
      ((s.makeSpace x).1 = true → (s.makeSpace x).2.availStart = x.begin s ∧
        (s.Wraps x.logLen → x.move.isSome ∧ x.begin s ≤ add64 (x.begin s) x.logLen)) := by
  by_cases hwraps : s.Wraps x.logLen
  · cases hmove : x.move with
    | none =>
      simp only [Stream.makeSpace, if_pos hwraps, hmove]
      exact ⟨h, trivial, fun hok => absurd hok (by simp)⟩
    | some offs =>
      obtain ⟨hlow, hhigh⟩ := hmoves hwraps offs hmove
      have hbegin : x.begin s = moved s.availStart offs := by
        rw [Gadr.begin, if_pos hwraps, hmove]
        rfl
      simp only [Stream.makeSpace, if_pos hwraps, hmove]
      refine ⟨move_kept h x.fill hlow hhigh, rfl, fun hok => ⟨hbegin.symm, fun _ => ⟨rfl, ?_⟩⟩⟩
      have hspace : ¬(s.move offs x.fill).Wraps x.logLen := by simpa using hok
      rw [hbegin]
      exact Nat.le_of_not_lt hspace
  · rw [Stream.makeSpace, if_neg hwraps]
    refine ⟨h, rfl, fun _ => ⟨?_, fun hw => absurd hw hwraps⟩⟩
    rw [Gadr.begin, if_neg hwraps]

/-- A call that waits. -/
theorem gadr_waits (h : s.Kept) {x : Gadr} (hfair : x.Fair s) {ok : Bool}
    (hspace : (s.makeSpace x).1 = true) (hcreate : x.create = true)
    (hrun : ((s.makeSpace x).2.create x.logLen x.fill).fetch x.logLen x.turns = some (ok, t)) :
    t.Kept ∧ (ok = true → Range.Exposes ⟨ok, x.logAddr, x.logLen⟩ t) := by
  obtain ⟨hkept, hlen, hbegin⟩ := makeSpace_kept h hfair.moves
  obtain ⟨hstart, hmoved⟩ := hbegin hspace
  have hfetches : x.Fetches s := ⟨hmoved, hcreate⟩
  have hroom := hfair.room hfetches
  rw [← hstart, ← hlen] at hroom
  obtain ⟨ht, hsame, hdone⟩ := fetch_kept x.turns _ (create_kept hkept x.logLen x.fill)
    (hfair.turns hfetches) hroom hrun
  refine ⟨ht, fun hok => ?_⟩
  obtain ⟨henough, hall⟩ := hdone hok
  have haddr : x.logAddr = t.availStart := by
    rw [hfair.address hfetches hall, ← hstart, hsame]
    rfl
  rw [hok, haddr]
  exact ht.exposes henough

/-- `$gadr` keeps the order, and what it returns can be read. -/
theorem gadr_kept (h : s.Kept) {x : Gadr} (hfair : x.Waits s → x.Fair s) {r : Range}
    (hrun : s.gadr x = some (r, t)) : t.Kept ∧ (r.success = true → r.Exposes t) := by
  rw [Stream.gadr] at hrun
  cases hreader : x.reader with
  | false =>
    simp only [hreader, Bool.not_false, if_true] at hrun
    obtain ⟨rfl, rfl⟩ := Prod.mk.inj (Option.some.inj hrun)
    exact ⟨h, fun hok => absurd hok (by simp)⟩
  | true =>
    simp only [hreader, Bool.not_true, Bool.false_eq_true, if_false] at hrun
    by_cases henough : x.logLen ≤ s.availLen
    · rw [if_pos henough] at hrun
      obtain ⟨rfl, rfl⟩ := Prod.mk.inj (Option.some.inj hrun)
      refine ⟨h, fun _ => h.exposes ?_⟩
      split
      · exact le_rfl
      · exact Nat.min_le_right _ _
    rw [if_neg henough] at hrun
    by_cases hwait : x.action = .wait
    · have hf := hfair ⟨hreader, Nat.lt_of_not_le henough, hwait⟩
      rw [if_pos hwait] at hrun
      cases hspace : (s.makeSpace x).1 with
      | false =>
        simp only [hspace, Bool.not_false, if_true] at hrun
        obtain ⟨rfl, rfl⟩ := Prod.mk.inj (Option.some.inj hrun)
        exact ⟨(makeSpace_kept h hf.moves).1, fun hok => absurd hok (by simp)⟩
      | true =>
        cases hcreate : x.create with
        | false =>
          simp only [hspace, hcreate, Bool.not_true, Bool.not_false, Bool.false_eq_true, if_false,
            if_true] at hrun
          obtain ⟨rfl, rfl⟩ := Prod.mk.inj (Option.some.inj hrun)
          exact ⟨(makeSpace_kept h hf.moves).1, fun hok => absurd hok (by simp)⟩
        | true =>
          simp only [hspace, hcreate, Bool.not_true, Bool.false_eq_true, if_false] at hrun
          obtain ⟨⟨ok, u⟩, hfetch, heq⟩ := Option.map_eq_some_iff.mp hrun
          obtain ⟨rfl, rfl⟩ := Prod.mk.inj heq
          exact gadr_waits h hf hspace hcreate hfetch
    · rw [if_neg hwait] at hrun
      obtain ⟨rfl, rfl⟩ := Prod.mk.inj (Option.some.inj hrun)
      exact ⟨h, fun hok => absurd hok (by simp)⟩

/-- The bytes behind the range stay. -/
theorem drop_load (x : Delete) {pos n : Nat} (h : x.logAddr + x.logLen ≤ pos) :
    (s.drop x).tmp.load pos n = s.tmp.load pos n :=
  ByteMem.load_congr fun i _ => createBytes_stay _ _ fun hin => by
    have := hin.2
    simp only [Region.stop] at this
    omega

/-- There is nothing to delete. -/
theorem delete_nothing (h : s.Kept) (hzero : s.availLen = 0) (x : Delete) :
    (s.delete x).2.Kept := by
  have hinside := h.inside
  have hempty : s.available = [] := by rw [Stream.available, hzero]; rfl
  have horder : (s.drop x).deleted = s.received := by
    have := h.order
    rw [Stream.InOrder, hempty, List.append_nil] at this
    rw [Stream.drop, hempty, List.take_nil, List.append_nil, this]
  rw [Stream.delete]
  by_cases hhole : s.availStart < x.logAddr
  · rw [if_pos hhole]
    exact h
  cases hok : x.ok with
  | false =>
    rw [if_neg hhole]
    exact h
  | true =>
    rw [hzero] at hinside
    simp only [if_neg hhole, Bool.not_true, Bool.false_eq_true, if_false, hzero, add64_eq hinside,
      Nat.add_zero]
    by_cases hstop : s.availStart ≤ add64 x.logAddr x.logLen
    · rw [if_pos hstop]
      exact ⟨(List.append_nil _).trans horder, add64_lt 0 0⟩
    · rw [if_neg hstop, if_neg (by omega)]
      have hsame : (s.drop x).available = [] := by
        rw [Stream.available, Stream.drop, hzero]
        rfl
      refine ⟨?_, h.inside⟩
      rw [Stream.InOrder, hsame, List.append_nil]
      exact horder

theorem delete_kept (h : s.Kept) {x : Delete} (hfair : x.Fair s) : (s.delete x).2.Kept := by
  rcases Nat.eq_zero_or_pos s.availLen with hzero | hpos
  · exact delete_nothing h hzero x
  have horder := h.order
  have hinside := h.inside
  rw [Stream.delete]
  by_cases hhole : s.availStart < x.logAddr
  · rw [if_pos hhole]
    exact h
  cases hok : x.ok with
  | false =>
    rw [if_neg hhole]
    exact h
  | true =>
    have hrange := hfair hpos (Nat.le_of_not_lt hhole) hok
    simp only [if_neg hhole, Bool.not_true, Bool.false_eq_true, if_false, h.stop_eq,
      add64_eq hrange]
    by_cases hall : s.availStart + s.availLen ≤ x.logAddr + x.logLen
    · rw [if_pos hall]
      have htake : s.available.take (x.logAddr + x.logLen - s.availStart) = s.available :=
        List.take_of_length_le (by rw [available_length]; omega)
      refine ⟨?_, add64_lt 0 0⟩
      simp only [Stream.InOrder, Stream.drop, htake]
      exact (List.append_nil _).trans horder
    rw [if_neg hall]
    by_cases hpart : s.availStart < x.logAddr + x.logLen
    · have hleft : sub64 s.availLen (sub64 (x.logAddr + x.logLen) s.availStart) =
          s.availLen - (x.logAddr + x.logLen - s.availStart) := by
        rw [sub64_eq hpart.le hrange, sub64_eq (by omega) (by omega)]
      have hbehind : (s.drop x).tmp.load (x.logAddr + x.logLen)
          (s.availLen - (x.logAddr + x.logLen - s.availStart)) =
            s.available.drop (x.logAddr + x.logLen - s.availStart) := by
        rw [drop_load x le_rfl, Stream.available, ByteMem.load_drop _ (by omega),
          Nat.add_sub_cancel' hpart.le]
      rw [if_pos hpart]
      refine ⟨?_, by simp only [hleft]; omega⟩
      rw [Stream.InOrder, Stream.available]
      simp only [hleft, hbehind]
      simp only [Stream.drop]
      rw [List.append_assoc, List.take_append_drop]
      exact horder
    · rw [if_neg hpart]
      have hsame : (s.drop x).available = s.available :=
        drop_load x (by simp only [Stream.drop]; omega)
      refine ⟨?_, hinside⟩
      rw [Stream.InOrder, hsame]
      simp only [Stream.drop]
      rw [Nat.sub_eq_zero_of_le (Nat.le_of_not_lt hpart), List.take_zero, List.append_nil]
      exact horder

/-! ## Runs -/

theorem step_kept (h : s.Kept) {e : Event} (hfair : Fair s e) (hstep : step s e = some t) :
    t.Kept := by
  cases e with
  | gadr x =>
    obtain ⟨⟨r, u⟩, hrun, rfl⟩ := Option.map_eq_some_iff.mp hstep
    exact (gadr_kept h hfair hrun).1
  | delete x =>
    obtain rfl := Option.some.inj hstep
    exact delete_kept h hfair

theorem reach_kept (h : Reach step (· = start) Fair s) : s.Kept :=
  h.invariant (fun _ h0 => h0 ▸ start_kept) fun _ _ _ hs hfair hstep => step_kept hs hfair hstep

/-- **The stream of the device.** In every run whose steps are fair, the bytes that were deleted and
those that are there are those of the device in their order, and each range that `$gadr` returns is
the beginning of what is there. -/
theorem stream_in_order (h : Reach step (· = start) Fair s) :
    s.InOrder ∧ ∀ x r t, Fair s (.gadr x) → s.gadr x = some (r, t) → r.success = true → r.Exposes t :=
  ⟨(reach_kept h).order, fun _ _ _ hfair hrun => (gadr_kept (reach_kept h) hfair hrun).2⟩

/-- A call that waits for bytes, at the beginning. -/
def reading (logAddr : Nat) (turn : Turn) : Gadr :=
  ⟨logAddr, 2, 2, true, .wait, none, true, [turn], fun _ => 0⟩

def given : Turn := ⟨some 2, true, [7, 8], true⟩

/-- The state behind the call. -/
def afterReading : Stream := ((start.create 2 fun _ => 0).receive [7, 8]).grow 2

theorem reading_fair : (reading 0 given).Fair start where
  moves h := absurd h (by decide)
  turns _ turn hturn plen hplen := by
    obtain rfl := List.mem_singleton.mp hturn
    obtain rfl := Option.some.inj hplen
    rfl
  room _ := by decide
  address _ _ := rfl

theorem stream_in_order_reading :
    afterReading.InOrder ∧ Range.Exposes ⟨true, 0, 2⟩ afterReading := by
  have h := stream_in_order
    (.next (.start rfl) (e := .gadr (reading 0 given)) (fun _ => reading_fair) rfl)
  exact ⟨h.1, h.2 (reading 0 given) _ _ (fun hwaits => absurd hwaits.2.1 (by decide)) rfl rfl⟩

/-- What `$gadr` has waited for is not at the address that it returns, and what a device has given
before it fails is lost. -/
theorem waiting_not_in_order :
    (∃ r, start.gadr (reading 100 given) = some (r, afterReading) ∧ r.success = true ∧
        ¬r.Exposes afterReading) ∧
      ∃ t, step start (.gadr (reading 0 ⟨some 2, false, [7], true⟩)) = some t ∧ ¬t.InOrder := by
  refine ⟨⟨⟨true, 100, 2⟩, rfl, rfl, fun h => ?_⟩, _, rfl, fun h => ?_⟩
  · exact absurd h.start (by decide)
  · exact absurd (congrArg List.length h) (by decide)

end Athomux.AdaptStrmr
