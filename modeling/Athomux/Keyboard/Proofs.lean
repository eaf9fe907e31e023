import Athomux.Keyboard.Spec

/-! # What was typed is what is read -/

open Lib

namespace Athomux.Keyboard

variable {s t : Sys} {i : Nat}

/-! ## Codes and characters -/

theorem typed_append (l l' : List UInt8) : typed (l ++ l') = typed l ++ typed l' := by
  rw [typed, List.filter_append, List.map_append]
  rfl

theorem typed_cons_release {code : UInt8} (h : isRelease code = true) (l : List UInt8) :
    typed (code :: l) = typed l := by
  rw [typed, List.filter_cons_of_neg (by simp [h])]
  rfl

theorem typed_cons_press {code : UInt8} (h : isRelease code = false) (l : List UInt8) :
    typed (code :: l) = kbdus code :: typed l := by
  rw [typed, List.filter_cons_of_pos (by simp [h])]
  rfl

/-- A byte more at the end of a buffer. -/
theorem load_update (mem : ByteMem) (n : Nat) (b : UInt8) :
    ByteMem.load (Function.update mem n b) 0 (n + 1) = mem.load 0 n ++ [b] := by
  have hold : ByteMem.load (Function.update mem n b) 0 n = mem.load 0 n :=
    ByteMem.load_congr fun i hi => Function.update_of_ne (by omega) _ _
  rw [ByteMem.load_add, hold]
  simp [ByteMem.load]

theorem load_succ (mem : ByteMem) (pos n : Nat) :
    mem.load pos (n + 1) = mem pos :: mem.load (pos + 1) n := by
  rw [Nat.add_comm, ByteMem.load_add]
  simp [ByteMem.load]

/-! ## The ring -/

/-- Both cursors are slots. -/
structure Slots (s : Sys) : Prop where
  start : s.start < queueSize
  stop : s.stop < queueSize

theorem held_lt (s : Sys) : s.held < queueSize := Nat.mod_lt _ (by decide)

theorem stop_eq (h : Slots s) : s.stop = (s.start + s.held) % queueSize := by
  obtain ⟨hstart, hstop⟩ := h
  unfold Sys.held queueSize at *
  omega

/-- A scancode at `stop` is not among those that are held. -/
theorem ring_accept (h : Slots s) (code : UInt8) {n : Nat} (hn : n ≤ s.held) :
    ring (Function.update s.queue s.stop code) queueSize s.start n =
      ring s.queue queueSize s.start n := by
  apply ring_congr
  intro j hj
  refine Function.update_of_ne ?_ _ _
  rw [stop_eq h]
  intro heq
  have := ring_index_inj (by have := held_lt s; omega) (held_lt s) heq
  omega

/-- What an accepted scancode does. -/
theorem unread_accept (h : Slots s) (code : UInt8) (tmp : Nat) (accepted : List UInt8)
    (htmp : tmp = if s.stop + 1 ≥ queueSize then 0 else s.stop + 1) (hne : tmp ≠ s.start) :
    ({ s with queue := Function.update s.queue s.stop code, stop := tmp, accepted := accepted } :
        Sys).unread = s.unread ++ [code] := by
  have hheld : (tmp + queueSize - s.start) % queueSize = s.held + 1 := by
    obtain ⟨hstart, hstop⟩ := h
    unfold Sys.held queueSize at *
    split at htmp <;> omega
  have hlast : ring (Function.update s.queue s.stop code) queueSize (s.start + s.held) 1 =
      [code] := by
    simp only [ring, List.range_one, List.map_cons, List.map_nil, Nat.add_zero]
    rw [← stop_eq h, Function.update_self]
  rw [Sys.unread, Sys.held, hheld, ring_add, ring_accept h code (Nat.le_refl _), hlast]
  rfl

/-- A full ring holds 15. -/
theorem held_full (h : Slots s)
    (hfull : (if s.stop + 1 ≥ queueSize then 0 else s.stop + 1) = s.start) : s.held = 15 := by
  obtain ⟨hstart, hstop⟩ := h
  unfold Sys.held queueSize at *
  split at hfull <;> omega

/-! ## The invariant -/

/-- The characters that the read has, or has the scancodes for. -/
def Read.pending (s : Sys) : Read → List UInt8
  | .translate _ _ tmp kbdLen physLen =>
    s.usBuffer.load 0 physLen ++ typed (s.kbdBuffer.load tmp kbdLen)
  | _ => []

/-- How far the read has come. -/
def Read.Fits (s : Sys) : Read → Prop
  | .idle => True
  | .copy logLen count tmp _ kbdLen =>
    count ≤ logLen ∧ kbdLen ≤ s.held ∧ tmp = (s.start + kbdLen) % queueSize ∧
      s.kbdBuffer.load 0 kbdLen = ring s.queue queueSize s.start kbdLen
  | .translate logLen count tmp kbdLen physLen =>
    physLen + count ≤ logLen ∧ (typed (s.kbdBuffer.load tmp kbdLen)).length ≤ count

/-- The only read under way, if any, is that of task `i`. -/
structure InvAt (s : Sys) (i : Nat) : Prop where
  slots : Slots s
  full : ∀ n ∈ s.dropped, n = 15
  limit : ∀ r ∈ s.replies, r.chars.length ≤ r.logLen
  others : ∀ j, j ≠ i → s.read j = .idle
  fits : (s.read i).Fits s
  order : typed s.accepted = s.returned ++ (s.read i).pending s ++ typed s.unread

def Inv (s : Sys) : Prop := ∃ i, InvAt s i

theorem inv_init (h : Init s) : Inv s := by
  obtain ⟨hstart, hstop, hidle, haccepted, hdropped, hreturned, hreplies⟩ := h
  refine ⟨0, ⟨?_, ?_⟩, ?_, ?_, fun j _ => hidle j, ?_, ?_⟩
  · rw [hstart]
    decide
  · rw [hstop]
    decide
  · simp [hdropped]
  · simp [hreplies]
  · rw [hidle]
    trivial
  · have hunread : s.unread = [] := by simp [Sys.unread, Sys.held, hstart, hstop, queueSize, ring]
    rw [hidle, haccepted, hreturned, hunread]
    rfl

/-- What the ring needs of a change. -/
theorem Read.fits_of {r : Read} (h : r.Fits s) (hstart : t.start = s.start)
    (hheld : s.held ≤ t.held) (hkbd : t.kbdBuffer = s.kbdBuffer)
    (hring : ∀ n ≤ s.held, ring t.queue queueSize s.start n = ring s.queue queueSize s.start n) :
    r.Fits t := by
  cases r with
  | idle => trivial
  | copy logLen count tmp kbdCount kbdLen =>
    obtain ⟨hcount, hlen, htmp, hload⟩ := h
    exact ⟨hcount, Nat.le_trans hlen hheld, by rw [hstart, htmp],
      by rw [hkbd, hstart, hring kbdLen hlen, hload]⟩
  | translate logLen count tmp kbdLen physLen =>
    obtain ⟨hcount, hlen⟩ := h
    exact ⟨hcount, by rw [hkbd]; exact hlen⟩

theorem InvAt.irq (h : InvAt s i) (data : Option UInt8) : InvAt (retract s data) i := by
  cases data with
  | none => exact h
  | some scancode =>
    by_cases hfull : (if s.stop + 1 ≥ queueSize then 0 else s.stop + 1) = s.start
    · have heq : retract s (some scancode) = { s with dropped := s.held :: s.dropped } := by
        simp only [retract, if_pos hfull]
      rw [heq]
      refine ⟨⟨h.slots.start, h.slots.stop⟩, ?_, h.limit, h.others, ?_, ?_⟩
      · exact List.forall_mem_cons.mpr ⟨held_full h.slots hfull, h.full⟩
      · exact Read.fits_of h.fits rfl (Nat.le_refl _) rfl fun _ _ => rfl
      · exact h.order
    · let tmp := if s.stop + 1 ≥ queueSize then 0 else s.stop + 1
      have heq : retract s (some scancode) =
          { s with
            queue := Function.update s.queue s.stop scancode
            stop := tmp
            accepted := s.accepted ++ [scancode] } := by
        simp only [retract, if_neg hfull, tmp]
      have hunread := unread_accept h.slots scancode tmp (s.accepted ++ [scancode]) rfl hfull
      rw [heq]
      refine ⟨⟨h.slots.start, ?_⟩, h.full, h.limit, h.others, ?_, ?_⟩
      · have := h.slots.stop
        dsimp only [tmp]
        unfold queueSize at *
        split <;> omega
      · refine Read.fits_of h.fits rfl ?_ rfl fun n hn => ring_accept h.slots scancode hn
        have hlen := congrArg List.length hunread
        rw [List.length_append, Sys.unread, Sys.unread, ring_length, ring_length] at hlen
        exact Nat.le_trans (Nat.le_add_right _ _) hlen.ge
      · change typed (s.accepted ++ [scancode]) = s.returned ++ (s.read i).pending s ++ typed _
        rw [hunread, typed_append, typed_append, ← List.append_assoc, ← h.order]

theorem InvAt.init (h : InvAt s i) (hstart : s.start = 0) (hempty : (s.read i).Empty) :
    InvAt (outputInit s) i := by
  have hunread : (outputInit s).unread = [] := by
    simp [Sys.unread, Sys.held, outputInit, hstart, queueSize, ring]
  refine ⟨⟨h.slots.start, Nat.zero_lt_succ _⟩, h.full, h.limit, h.others, ?_, ?_⟩
  · change (s.read i).Fits (outputInit s)
    have hfits := h.fits
    cases hr : s.read i with
    | idle => trivial
    | copy logLen count tmp kbdCount kbdLen =>
      rw [hr] at hfits hempty
      obtain ⟨hcount, -, htmp, -⟩ := hfits
      obtain rfl : kbdLen = 0 := hempty
      exact ⟨hcount, Nat.zero_le _, htmp, rfl⟩
    | translate logLen count tmp kbdLen physLen =>
      rw [hr] at hfits
      exact hfits
  · rw [hunread]
    change [] = [] ++ (s.read i).pending (outputInit s) ++ []
    cases hr : s.read i with
    | translate logLen count tmp kbdLen physLen =>
      rw [hr] at hempty
      obtain ⟨rfl, rfl⟩ : kbdLen = 0 ∧ physLen = 0 := hempty
      rfl
    | _ => rfl

theorem InvAt.begins (h : InvAt s i) (j logLen : Nat) (forwrite : Bool)
    (hok : forwrite = true ∨ ∀ j, s.read j = .idle) :
    Inv (gettranswait s j logLen forwrite) := by
  cases forwrite with
  | true =>
    refine ⟨i, ⟨h.slots.start, h.slots.stop⟩, h.full, ?_, h.others, ?_, ?_⟩
    · exact List.forall_mem_cons.mpr ⟨Nat.zero_le _, h.limit⟩
    · exact Read.fits_of h.fits rfl (Nat.le_refl _) rfl fun _ _ => rfl
    · exact h.order
  | false =>
    have hidle : ∀ j, s.read j = .idle := by
      rcases hok with hok | hok
      · exact absurd hok Bool.false_ne_true
      · exact hok
    have hread : (gettranswait s j logLen false).read j =
        .copy logLen (min logLen defaultTransfer) s.start defaultTransfer 0 :=
      Function.update_self _ _ _
    refine ⟨j, ⟨h.slots.start, h.slots.stop⟩, h.full, h.limit, fun k hk => ?_, ?_, ?_⟩
    · exact (Function.update_of_ne hk _ _).trans (hidle k)
    · rw [hread]
      refine ⟨Nat.min_le_left _ _, Nat.zero_le _, ?_, rfl⟩
      exact (Nat.mod_eq_of_lt h.slots.start).symm
    · have horder := h.order
      rw [hidle] at horder
      rw [hread]
      exact horder

/-! ## Turns -/

@[simp] theorem goto_read (s : Sys) (i : Nat) (r : Read) : (s.goto i r).read i = r :=
  Function.update_self _ _ _

theorem goto_others (h : InvAt s i) (r : Read) : ∀ j, j ≠ i → (s.goto i r).read j = .idle :=
  fun j hj => (Function.update_of_ne hj _ _).trans (h.others j hj)

theorem InvAt.of_read {r : Read} (hread : t.read i = r) (hslots : Slots t)
    (hfull : ∀ n ∈ t.dropped, n = 15) (hlimit : ∀ r ∈ t.replies, r.chars.length ≤ r.logLen)
    (hothers : ∀ j, j ≠ i → t.read j = .idle) (hfits : r.Fits t)
    (horder : typed t.accepted = t.returned ++ r.pending t ++ typed t.unread) : InvAt t i := by
  subst hread
  exact ⟨hslots, hfull, hlimit, hothers, hfits, horder⟩

variable {logLen count tmp kbdCount kbdLen physLen : Nat}

theorem InvAt.copies (h : InvAt s i) (hr : s.read i = .copy logLen count tmp kbdCount kbdLen)
    (hne : tmp ≠ s.stop) :
    InvAt { s.goto i (.copy logLen count (if tmp + 1 = queueSize then 0 else tmp + 1) (kbdCount - 1)
        (kbdLen + 1)) with
      kbdBuffer := Function.update s.kbdBuffer kbdLen (s.queue tmp) } i := by
  obtain ⟨hslots, hfull, hlimit, -, hfits, horder⟩ := id h
  rw [hr] at hfits horder
  obtain ⟨hcount, hlen, htmp, hload⟩ := hfits
  have hlt : kbdLen < s.held := by
    refine Nat.lt_of_le_of_ne hlen fun heq => hne ?_
    rw [htmp, heq, ← stop_eq hslots]
  refine InvAt.of_read (goto_read _ _ _) ⟨hslots.start, hslots.stop⟩ hfull hlimit
    (goto_others h _) ?_ ?_
  · refine ⟨hcount, hlt, ?_, ?_⟩
    · change (if tmp + 1 = queueSize then 0 else tmp + 1) = (s.start + (kbdLen + 1)) % queueSize
      rw [htmp]
      unfold queueSize
      split <;> omega
    · change ByteMem.load (Function.update s.kbdBuffer kbdLen (s.queue tmp)) 0 (kbdLen + 1) =
        ring s.queue queueSize s.start (kbdLen + 1)
      rw [load_update, ring_add, hload, htmp]
      simp [ring]
  · exact horder

/-- `start` moves, and the read has the scancodes. -/
theorem InvAt.releases (h : InvAt s i) (hr : s.read i = .copy logLen count tmp kbdCount kbdLen)
    (henough : (typed (s.kbdBuffer.load 0 kbdLen)).length ≤ count) :
    InvAt { s.goto i (.translate logLen count 0 kbdLen 0) with start := tmp } i := by
  obtain ⟨hslots, hfull, hlimit, -, hfits, horder⟩ := id h
  rw [hr] at hfits horder
  obtain ⟨hcount, hlen, htmp, hload⟩ := hfits
  have hheld : (s.stop + queueSize - tmp) % queueSize = s.held - kbdLen := by
    have hstop := stop_eq hslots
    have hlt := held_lt s
    obtain ⟨hstart, -⟩ := hslots
    unfold queueSize at *
    omega
  have hunread : s.unread = s.kbdBuffer.load 0 kbdLen ++
      ({ s.goto i (.translate logLen count 0 kbdLen 0) with start := tmp } : Sys).unread := by
    have hpop := ring_pop s.queue queueSize s.start s.held kbdLen hlen
    rw [← htmp, ← hload] at hpop
    rw [Sys.unread, hpop, Sys.unread, Sys.held]
    exact congrArg (fun n => _ ++ ring s.queue queueSize tmp n) hheld.symm
  refine InvAt.of_read (goto_read _ _ _) ⟨?_, hslots.stop⟩ hfull hlimit (goto_others h _) ?_ ?_
  · rw [htmp]
    exact Nat.mod_lt _ (by decide)
  · exact ⟨by omega, henough⟩
  · rw [hunread, typed_append] at horder
    change typed s.accepted = s.returned ++ typed (s.kbdBuffer.load 0 kbdLen) ++ _
    rw [List.append_assoc]
    exact horder.trans (congrArg (· ++ _) (List.append_nil _))

theorem InvAt.skips (h : InvAt s i) (hr : s.read i = .translate logLen count tmp kbdLen physLen)
    (hlen : 0 < kbdLen) (hrelease : isRelease (s.kbdBuffer tmp) = true) :
    InvAt (s.goto i (.translate logLen count (tmp + 1) (kbdLen - 1) physLen)) i := by
  obtain ⟨hslots, hfull, hlimit, -, hfits, horder⟩ := id h
  rw [hr] at hfits horder
  obtain ⟨hcount, htyped⟩ := hfits
  obtain ⟨n, rfl⟩ := Nat.exists_eq_add_one.mpr hlen
  have hload : typed (s.kbdBuffer.load tmp (n + 1)) = typed (s.kbdBuffer.load (tmp + 1) n) := by
    rw [load_succ, typed_cons_release hrelease]
  refine InvAt.of_read (goto_read _ _ _) ⟨hslots.start, hslots.stop⟩ hfull hlimit
    (goto_others h _) ?_ ?_
  · exact ⟨hcount, hload ▸ htyped⟩
  · simp only [Read.pending, hload] at horder
    exact horder

theorem InvAt.types (h : InvAt s i) (hr : s.read i = .translate logLen count tmp kbdLen physLen)
    (hlen : 0 < kbdLen) (hpos : 0 < count) (hpress : isRelease (s.kbdBuffer tmp) = false) :
    InvAt { s.goto i (.translate logLen (count - 1) (tmp + 1) (kbdLen - 1) (physLen + 1)) with
      usBuffer := Function.update s.usBuffer physLen (kbdus (s.kbdBuffer tmp)) } i := by
  obtain ⟨hslots, hfull, hlimit, -, hfits, horder⟩ := id h
  rw [hr] at hfits horder
  obtain ⟨hcount, htyped⟩ := hfits
  obtain ⟨n, rfl⟩ := Nat.exists_eq_add_one.mpr hlen
  have hload : typed (s.kbdBuffer.load tmp (n + 1)) =
      kbdus (s.kbdBuffer tmp) :: typed (s.kbdBuffer.load (tmp + 1) n) := by
    rw [load_succ, typed_cons_press hpress]
  rw [hload, List.length_cons] at htyped
  refine InvAt.of_read (goto_read _ _ _) ⟨hslots.start, hslots.stop⟩ hfull hlimit
    (goto_others h _) ?_ ?_
  · exact ⟨by omega, Nat.le_sub_of_add_le htyped⟩
  · change typed s.accepted = s.returned ++
      (ByteMem.load (Function.update s.usBuffer physLen (kbdus (s.kbdBuffer tmp))) 0 (physLen + 1) ++
        typed (s.kbdBuffer.load (tmp + 1) n)) ++ typed s.unread
    rw [horder]
    simp only [Read.pending, hload, load_update, List.append_assoc,
      List.cons_append, List.nil_append]

theorem InvAt.answers (h : InvAt s i) (hr : s.read i = .translate logLen count tmp kbdLen physLen)
    (hend : ¬ (0 < kbdLen ∧ 0 < count)) (success : Bool) :
    InvAt { s.goto i .idle with
      returned := s.returned ++ s.usBuffer.load 0 physLen
      replies := ⟨logLen, s.usBuffer.load 0 physLen, success⟩ :: s.replies } i := by
  obtain ⟨hslots, hfull, hlimit, -, hfits, horder⟩ := id h
  rw [hr] at hfits horder
  obtain ⟨hcount, htyped⟩ := hfits
  -- without room there are only releases left
  have hnone : typed (s.kbdBuffer.load tmp kbdLen) = [] := by
    rcases Nat.eq_zero_or_pos kbdLen with rfl | hpos
    · rfl
    · exact List.length_eq_zero_iff.mp (by omega)
  refine InvAt.of_read (goto_read _ _ _) ⟨hslots.start, hslots.stop⟩ hfull ?_
    (goto_others h _) ?_ ?_
  · refine List.forall_mem_cons.mpr ⟨?_, hlimit⟩
    rw [ByteMem.load_length]
    exact Nat.le_trans (Nat.le_add_right _ _) hcount
  · trivial
  · change typed s.accepted = s.returned ++ s.usBuffer.load 0 physLen ++ [] ++ typed s.unread
    rw [horder]
    simp only [Read.pending, hnone, List.append_nil, List.append_assoc]

theorem InvAt.turns (h : InvAt s i) (hok : (s.read i).Enough s)
    (ht : turn s i (s.read i) = some t) : InvAt t i := by
  cases hr : s.read i with
  | idle =>
    rw [hr] at ht
    exact absurd ht (by simp [turn])
  | copy logLen count tmp kbdCount kbdLen =>
    rw [hr, turn] at ht
    rw [hr] at hok
    split at ht
    · rename_i hmore
      cases ht
      exact h.copies hr hmore.1
    · cases ht
      refine h.releases hr (hok ?_)
      omega
  | translate logLen count tmp kbdLen physLen =>
    rw [hr, turn] at ht
    split at ht
    · rename_i hmore
      cases hrelease : isRelease (s.kbdBuffer tmp) with
      | true =>
        simp only [hrelease, if_true] at ht
        cases ht
        exact h.skips hr hmore.1 hrelease
      | false =>
        simp only [hrelease, Bool.false_eq_true, if_false] at ht
        cases ht
        exact h.types hr hmore.1 hmore.2 hrelease
    · rename_i hend
      cases ht
      exact h.answers hr hend _

/-! ## Runs -/

theorem inv_step {e : Event} (h : Inv s) (hok : Allowed s e) (ht : step s e = some t) : Inv t := by
  obtain ⟨i, h⟩ := h
  cases e with
  | irq data =>
    cases ht
    exact ⟨i, h.irq data⟩
  | init =>
    cases ht
    exact ⟨i, h.init hok.1 (hok.2 i)⟩
  | begin j logLen forwrite =>
    rw [step] at ht
    split at ht
    · cases ht
      exact h.begins j logLen forwrite hok
    · cases ht
  | turn j =>
    by_cases hj : j = i
    · subst hj
      exact ⟨j, h.turns hok ht⟩
    · rw [step, h.others j hj] at ht
      cases ht

theorem Inv.delivered (h : Inv s) : Delivered s := by
  obtain ⟨i, h⟩ := h
  refine ⟨?_, fun hidle => ?_, h.full, h.limit⟩
  · rw [h.order, List.append_assoc]
    exact List.prefix_append _ _
  · have horder := h.order
    rw [hidle i] at horder
    simpa [Read.pending] using horder

/-- In a run whose steps are allowed, what is read is what was typed. -/
theorem keys_delivered (h : Reach step Init Allowed s) : Delivered s :=
  (h.invariant (fun _ => inv_init) fun _ _ _ => inv_step).delivered

/-! ## Runs from a start -/

def boot : Sys :=
  ⟨fun _ => 0, 0, 0, fun _ => 0, fun _ => 0, fun _ => .idle, [], [], [], []⟩

theorem init_boot : Init boot := ⟨rfl, rfl, fun _ => rfl, rfl, rfl, rfl, rfl⟩

/-- A read of task 0. -/
def readKeys (logLen turns : Nat) : List Event :=
  .begin 0 logLen false :: List.replicate turns (.turn 0)

/-- Q is pressed and let go, and all is read. -/
theorem keys_delivered_q :
    ∃ s, run step anyEvent boot ([.irq (some 16), .irq (some 144)] ++ readKeys 10 6) = some s ∧
      s.returned = [113] ∧ Delivered s := by
  refine ⟨_, rfl, by decide, keys_delivered ?_⟩
  have h : Reach step Init Allowed boot := .start init_boot
  have hq := (h.next (e := Event.irq (some 16)) trivial rfl).next (e := Event.irq (some 144)) trivial rfl
  have hread := hq.next (e := Event.begin 0 10 false) (Or.inr fun _ => rfl) rfl
  have hcopy := (hread.next (e := Event.turn 0) (fun _ => by decide) rfl).next (e := Event.turn 0)
    (fun _ => by decide) rfl
  have hrelease := hcopy.next (e := Event.turn 0) (fun _ => by decide) rfl
  have htype := (hrelease.next (e := Event.turn 0) trivial rfl).next (e := Event.turn 0) trivial rfl
  exact htype.next (e := Event.turn 0) trivial rfl

/-- Q and W are pressed, and one character is read; then E, and one is read. -/
def shortReads : List Event :=
  [.irq (some 16), .irq (some 17)] ++ readKeys 1 5 ++ [.irq (some 18)] ++ readKeys 1 4

/-- Q is pressed and read. After an initialization there is a read once more. -/
def initAgain : List Event := [.irq (some 16)] ++ readKeys 1 4 ++ [.init] ++ readKeys 1 18

theorem not_delivered_of_run {events : List Event}
    (h : (run step anyEvent boot events).map (fun s => decide (s.returned <+: typed s.accepted)) =
      some false) :
    ∃ s, run step anyEvent boot events = some s ∧ Reach step Init anyEvent s ∧ ¬ Delivered s := by
  obtain ⟨s, hs, hfalse⟩ := Option.map_eq_some_iff.mp h
  refine ⟨s, hs, Reach.of_run (.start init_boot) hs, fun hd => ?_⟩
  exact absurd hd.order (of_decide_eq_false hfalse)

/-- The W is lost in the first run, and the second one has characters that nobody has typed. -/
theorem keys_lost :
    (∃ s, run step anyEvent boot shortReads = some s ∧ Reach step Init anyEvent s ∧
      ¬ Delivered s) ∧
    ∃ s, run step anyEvent boot initAgain = some s ∧ Reach step Init anyEvent s ∧
      ¬ Delivered s :=
  ⟨not_delivered_of_run (by decide), not_delivered_of_run (by decide)⟩

end Athomux.Keyboard
