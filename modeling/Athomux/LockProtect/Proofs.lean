import Athomux.LockProtect.Spec
import Mathlib.Tactic.Common

/-! # What is held after an operation, and what it is forwarded under -/

open Lib

namespace Athomux.LockProtect

variable {op : Op} {a : Args} {held held₀ : Held} {s t : State} {x : Nat}

/-! ## The ranges of `$move` -/

theorem Side.other_other (f : Side) : f.other.other = f := by
  cases f <;> rfl

theorem dstStart_eq (h : Fits .move a) : (a.dstStart : Int) = a.logAddr + a.offset := by
  have hdst := h.2 rfl
  unfold Args.dstStart
  rw [Int.emod_eq_of_lt hdst.1 (by omega), Int.toNat_of_nonneg hdst.1]

theorem srcEnd_eq (h : Fits op a) : a.srcEnd = a.logAddr + a.logLen := add64_eq h.1

theorem dstEnd_eq (h : Fits .move a) : a.dstEnd = a.dstStart + a.logLen := by
  have hdst := h.2 rfl
  have := dstStart_eq h
  exact add64_eq (by omega)

theorem side_src (h : Fits op a) : a.side .src = a.range := by
  have hend := h.1
  rw [Args.side, srcEnd_eq h, Args.srcStart, sub64_eq (by omega) hend, Nat.add_sub_cancel_left]
  rfl

theorem side_dst (h : Fits .move a) : a.side .dst = ⟨a.dstStart, a.logLen⟩ := by
  have hdst := h.2 rfl
  have := dstStart_eq h
  rw [Args.side, dstEnd_eq h, sub64_eq (by omega) (by omega), Nat.add_sub_cancel_left]

theorem whole_eq (h : Fits .move a) : a.whole = ⟨min a.logAddr a.dstStart,
    max a.logAddr a.dstStart + a.logLen - min a.logAddr a.dstStart⟩ := by
  have hend := h.1
  have hdst := h.2 rfl
  have := dstStart_eq h
  have hmax : max a.srcEnd a.dstEnd = max a.logAddr a.dstStart + a.logLen := by
    rw [srcEnd_eq h, dstEnd_eq h, Nat.add_max_add_right]
  rw [Args.whole, hmax, Args.srcStart, sub64_eq (by omega) (by omega)]

theorem touches_move : Touches .move a x ↔
    a.range.Has x ∨ (a.logAddr + a.offset ≤ x ∧ (x : Int) < a.logAddr + a.offset + a.logLen) :=
  Iff.rfl

/-- The addresses of a `$move` are the ones of its two ranges. -/
theorem touches_sides (h : Fits .move a) (f : Side) :
    Touches .move a x ↔ (a.side f).Has x ∨ (a.side f.other).Has x := by
  have hdst := dstStart_eq h
  have hsides : Touches .move a x ↔ (a.side .src).Has x ∨ (a.side .dst).Has x := by
    rw [side_src h, side_dst h, touches_move]
    simp only [Range.Has]
    omega
  cases f with
  | src => exact hsides
  | dst => exact hsides.trans or_comm

theorem touches_side (h : Fits .move a) {f : Side} (hx : (a.side f).Has x) : Touches .move a x :=
  (touches_sides h f).mpr (Or.inl hx)

theorem touches_whole (h : Fits .move a) (hover : a.Overlap) :
    Touches .move a x ↔ a.whole.Has x := by
  have hdst := dstStart_eq h
  obtain ⟨hsrc, hback⟩ := hover
  rw [dstEnd_eq h, Args.srcStart] at hsrc
  rw [srcEnd_eq h] at hback
  rw [whole_eq h, touches_move]
  simp only [Range.Has, Args.range]
  omega

theorem sides_apart (h : Fits .move a) (hover : ¬ a.Overlap) {f : Side} (hx : (a.side f).Has x) :
    ¬ (a.side f.other).Has x := by
  have happart : (a.side .src).Has x → ¬ (a.side .dst).Has x := by
    rw [side_src h, side_dst h]
    unfold Args.Overlap at hover
    rw [dstEnd_eq h, srcEnd_eq h, Args.srcStart] at hover
    simp only [Range.Has, Args.range]
    omega
  cases f with
  | src => exact happart hx
  | dst => exact fun hsrc => happart hsrc hx

/-! ## What an operation holds -/

/-- The operation holds what is in `locked`. It may have released what it touches otherwise. -/
structure Holding (held₀ : Held) (op : Op) (a : Args) (locked : Nat → Prop) (held : Held) :
    Prop where
  mine : ∀ x, locked x → held a.mandate x = some (lockType op a)
  rest : ∀ m x, ¬ (m = a.mandate ∧ locked x) →
    held m x = held₀ m x ∨ (m = a.mandate ∧ Touches op a x ∧ held m x = none)

theorem Holding.start (held₀ : Held) (op : Op) (a : Args) :
    Holding held₀ op a (fun _ => False) held₀ :=
  ⟨fun _ hx => hx.elim, fun _ _ _ => Or.inl rfl⟩

theorem Holding.congr {locked locked' : Nat → Prop} (h : Holding held₀ op a locked held)
    (heq : ∀ x, locked x ↔ locked' x) : Holding held₀ op a locked' held := by
  have : locked = locked' := funext fun x => propext (heq x)
  exact this ▸ h

theorem Holding.lock {locked : Nat → Prop} (h : Holding held₀ op a locked held) (r : Range) :
    Holding held₀ op a (fun x => locked x ∨ r.Has x)
      (held.lock a.mandate r (lockType op a)) := by
  constructor
  · intro x hx
    unfold Held.lock
    by_cases hr : r.Has x
    · exact if_pos ⟨rfl, hr⟩
    · rw [if_neg fun hc => hr hc.2]
      exact h.mine x (hx.resolve_right hr)
  · intro m x hout
    unfold Held.lock
    rw [if_neg fun hc => hout ⟨hc.1, Or.inr hc.2⟩]
    exact h.rest m x fun hc => hout ⟨hc.1, Or.inl hc.2⟩

theorem Holding.unlock {locked : Nat → Prop} (h : Holding held₀ op a locked held) {r : Range}
    (hr : ∀ x, r.Has x → Touches op a x) :
    Holding held₀ op a (fun x => locked x ∧ ¬ r.Has x) (held.unlock a.mandate r) := by
  constructor
  · rintro x ⟨hx, hnot⟩
    unfold Held.unlock
    rw [if_neg fun hc => hnot hc.2]
    exact h.mine x hx
  · intro m x hout
    unfold Held.unlock
    by_cases hin : m = a.mandate ∧ r.Has x
    · exact Or.inr ⟨hin.1, hr x hin.2, if_pos hin⟩
    · rw [if_neg hin]
      exact h.rest m x fun hc => hout ⟨hc.1, hc.2, fun hx => hin ⟨hc.1, hx⟩⟩

/-! ## The places of an operation -/

/-- The operations that lock, forward and unlock. -/
def protect : Op → Option Protect
  | .trans => some trans
  | .create => some create
  | .delete => some delete
  | _ => none

/-- The addresses that an operation has locked. -/
def locked (s : State) (x : Nat) : Prop :=
  match s.place with
  | .forward _ | .unlock _ | .getForward | .getUnlockRest | .getUnlockAll => s.orig.range.Has x
  | .moveForward | .moveUnlock => s.orig.whole.Has x
  | .moveTry f | .moveUnlockFirst f | .moveBack f => (s.orig.side f).Has x
  | .moveBoth f | .moveUnlockSecond f => (s.orig.side f).Has x ∨ (s.orig.side f.other).Has x
  | .returned =>
    (s.op = .get ∧ s.success = true ∧ s.args.range.Has x) ∨
      (s.op = .delete ∧ s.orig.range.Has x ∧ ¬ s.args.range.Has x)
  | _ => False

def Redirected : Op → Prop
  | .transwait | .putwait | .other _ => True
  | _ => False

/-- What is known of an operation at a place. -/
def At (s : State) : Prop :=
  match s.place with
  | .lock p | .forward p => protect s.op = some p ∧ s.args = s.orig
  | .unlock p => protect s.op = some p ∧ (s.op = .delete ∨ s.args.range = s.orig.range)
  | .getLock => s.op = .get ∧ s.args = s.orig ∧ s.success = false
  | .getForward => s.op = .get ∧ s.args = s.orig
  | .getUnlockRest => s.op = .get ∧ s.success = true ∧ s.args.logLen < s.orig.logLen
  | .getUnlockAll => s.op = .get ∧ s.success = false
  | .putForward => s.op = .put ∧ s.args = s.orig
  | .putUnlock => s.op = .put ∧ s.args.range = s.orig.range
  | .moveLock | .moveForward | .moveUnlock => s.op = .move ∧ s.orig.Overlap
  | .moveWait _ | .moveTry _ | .moveBoth _ | .moveUnlockSecond _ | .moveUnlockFirst _
  | .moveBack _ => s.op = .move ∧ ¬ s.orig.Overlap
  | .redirect => Redirected s.op
  | .returned | .dead => True

structure Inv (held₀ : Held) (s : State) : Prop where
  mandate : s.args.mandate = s.orig.mandate
  addr : s.args.logAddr = s.orig.logAddr
  len : s.args.logLen ≤ s.orig.logLen
  at_place : At s
  holding : Holding held₀ s.op s.orig (locked s) s.held
  put : s.op = .put → s.held =
    if s.place = .returned then held₀.unlock s.orig.mandate s.orig.range else held₀

theorem inv_begin (op : Op) (a : Args) (held₀ : Held) : Inv held₀ (begin op a held₀) := by
  have hstart := Holding.start held₀ op a
  have hfalse : ∀ x, False ↔ locked (begin op a held₀) x := by
    intro x
    cases op with
    | trans | transwait | wait | get | put | putwait | create | delete | other _ =>
      simp [locked, begin, entry]
    | move =>
      by_cases hover : a.Overlap <;> simp [locked, begin, entry, hover]
  refine ⟨rfl, rfl, le_rfl, ?_, hstart.congr hfalse, ?_⟩
  · cases op with
    | trans | transwait | wait | get | put | putwait | create | delete | other _ =>
      simp [At, begin, entry, protect, Redirected]
    | move =>
      by_cases hover : a.Overlap <;> simp [At, begin, entry, hover]
  · rintro rfl
    rfl

/-! ## One step -/

/-- An event is the answer to the call. -/
theorem step_cases {e : Event} (hs : step s e = some t) :
    (∃ r type action ok, s.call = .lock r type action ∧ e = .locked ok ∧ t = { s with
      place := s.place.locked ok
      held := if ok then s.held.lock s.args.mandate r type else s.held }) ∨
    (∃ r ok, s.call = .unlock r ∧ e = .unlocked ok ∧ t = { s with
      place := s.place.unlocked ok
      held := if ok then s.held.unlock s.args.mandate r else s.held }) ∨
    ∃ op' out, s.call = .forward op' ∧ e = .forwarded out ∧ t = { s with
      args := out.apply op' s.args
      success := out.success
      place := { s with args := out.apply op' s.args, success := out.success }.forwarded } := by
  unfold step at hs
  split at hs
  · rename_i r type action ok hcall
    exact Or.inl ⟨r, type, action, ok, hcall, rfl, (Option.some.inj hs).symm⟩
  · rename_i r ok hcall
    exact Or.inr (Or.inl ⟨r, ok, hcall, rfl, (Option.some.inj hs).symm⟩)
  · rename_i op' out hcall
    exact Or.inr (Or.inr ⟨op', out, hcall, rfl, (Option.some.inj hs).symm⟩)
  · cases hs

theorem protect_type {p : Protect} (h : protect op = some p) : p.type = lockType op a := by
  cases op with
  | trans | create | delete => cases h; rfl
  | transwait | wait | get | put | putwait | move | other _ => cases h

theorem protect_touches {p : Protect} (h : protect op = some p) :
    Touches op a x ↔ a.range.Has x := by
  cases op with
  | trans | create | delete => rfl
  | transwait | wait | get | put | putwait | move | other _ => cases h

/-- An operation other than `$put` goes on. -/
theorem Inv.goes {q : Place} {held : Held} {before : Nat → Prop} (h : Inv held₀ s)
    (hnot : s.op ≠ .put) (hat : At { s with place := q })
    (hhold : Holding held₀ s.op s.orig before held)
    (heq : ∀ x, before x ↔ locked { s with place := q } x) :
    Inv held₀ { s with place := q, held := held } :=
  ⟨h.mandate, h.addr, h.len, hat, hhold.congr heq, fun hc => absurd hc hnot⟩

theorem Inv.locks {q : Place} {r : Range} {type : LockType} {ok : Bool} (h : Inv held₀ s)
    (hnot : s.op ≠ .put) (htype : lockType s.op s.orig = type)
    (hat : ∀ ok, At { s with place := q.locked ok })
    (hgranted : ∀ x, locked s x ∨ r.Has x ↔ locked { s with place := q.locked true } x)
    (hrefused : ∀ x, locked s x ↔ locked { s with place := q.locked false } x) :
    Inv held₀ { s with
      place := q.locked ok
      held := if ok then s.held.lock s.orig.mandate r type else s.held } := by
  cases ok with
  | true => exact h.goes hnot (hat true) (htype ▸ h.holding.lock r) hgranted
  | false => exact h.goes hnot (hat false) h.holding hrefused

theorem inv_locked {r : Range} {type : LockType} {action : Action} {ok : Bool}
    (h : Inv held₀ s) (hcall : s.call = .lock r type action) :
    Inv held₀ { s with
      place := s.place.locked ok
      held := if ok then s.held.lock s.args.mandate r type else s.held } := by
  have hat := h.at_place
  rw [h.mandate]
  cases hplace : s.place with
  | lock p =>
    simp only [State.call, hplace, Call.lock.injEq] at hcall
    obtain ⟨rfl, rfl, rfl⟩ := hcall
    simp only [At, hplace] at hat
    obtain ⟨hprotect, hargs⟩ := hat
    have hput : s.op ≠ .put := fun hc => by simp [hc, protect] at hprotect
    have hget : s.op ≠ .get := fun hc => by simp [hc, protect] at hprotect
    refine h.locks hput (protect_type hprotect).symm ?_ ?_ ?_
    · intro ok
      cases ok with
      | true => exact ⟨hprotect, hargs⟩
      | false => trivial
    · simp [locked, hplace, Place.locked, hargs]
    · simp [locked, hplace, Place.locked, hget, hargs]
  | getLock =>
    simp only [State.call, hplace, Call.lock.injEq] at hcall
    obtain ⟨rfl, rfl, rfl⟩ := hcall
    simp only [At, hplace] at hat
    obtain ⟨hop, hargs, hsuccess⟩ := hat
    have htype : lockType s.op s.orig = ⟨if s.args.forwrite then .write else .read, .read⟩ := by
      rw [hop, hargs, lockType]
    refine h.locks (by simp [hop]) htype ?_ ?_ ?_
    · intro ok
      cases ok with
      | true => exact ⟨hop, hargs⟩
      | false => trivial
    · simp [locked, hplace, Place.locked, hargs]
    · simp [locked, hplace, Place.locked, hop, hsuccess]
  | moveLock | moveWait f =>
    simp only [State.call, hplace, Call.lock.injEq] at hcall
    obtain ⟨rfl, rfl, rfl⟩ := hcall
    simp only [At, hplace] at hat
    obtain ⟨hop, hover⟩ := hat
    have htype : lockType s.op s.orig = ⟨.write, .write⟩ := by
      rw [hop, lockType] <;> simp
    refine h.locks (by simp [hop]) htype ?_ ?_ ?_
    · intro ok
      cases ok with
      | true => exact ⟨hop, hover⟩
      | false => trivial
    · simp [locked, hplace, Place.locked]
    · simp [locked, hplace, Place.locked, hop]
  | moveTry f =>
    simp only [State.call, hplace, Call.lock.injEq] at hcall
    obtain ⟨rfl, rfl, rfl⟩ := hcall
    simp only [At, hplace] at hat
    obtain ⟨hop, hover⟩ := hat
    have htype : lockType s.op s.orig = ⟨.write, .write⟩ := by
      rw [hop, lockType] <;> simp
    refine h.locks (by simp [hop]) htype ?_ ?_ ?_
    · intro ok
      cases ok <;> exact ⟨hop, hover⟩
    · simp [locked, hplace, Place.locked]
    · simp [locked, hplace, Place.locked]
  | forward _ | unlock _ | getForward | getUnlockRest | getUnlockAll | putForward | putUnlock
  | moveForward | moveUnlock | moveBoth _ | moveUnlockSecond _ | moveUnlockFirst _ | moveBack _
  | redirect | returned | dead => simp [State.call, hplace] at hcall

/-- What is unlocked is part of what the operation touches. -/
theorem Inv.unlocks {q : Place} {r : Range} (h : Inv held₀ s) (hnot : s.op ≠ .put)
    (hr : ∀ x, r.Has x → Touches s.op s.orig x) (hat : At { s with place := q })
    (heq : ∀ x, locked s x ∧ ¬ r.Has x ↔ locked { s with place := q } x) :
    Inv held₀ { s with place := q, held := s.held.unlock s.orig.mandate r } :=
  h.goes hnot hat (h.holding.unlock hr) heq

theorem inv_unlocked {r : Range} (hfits : Fits s.op s.orig) (h : Inv held₀ s)
    (hcall : s.call = .unlock r) :
    Inv held₀ { s with
      place := s.place.unlocked true
      held := s.held.unlock s.args.mandate r } := by
  have hat := h.at_place
  have hlen := h.len
  have haddr := h.addr
  have hend := hfits.1
  rw [h.mandate]
  cases hplace : s.place with
  | unlock p =>
    simp only [State.call, hplace, Call.unlock.injEq] at hcall
    subst hcall
    simp only [At, hplace] at hat
    obtain ⟨hprotect, hrange⟩ := hat
    have hput : s.op ≠ .put := fun hc => by simp [hc, protect] at hprotect
    have hget : s.op ≠ .get := fun hc => by simp [hc, protect] at hprotect
    refine h.unlocks hput ?_ trivial ?_
    · intro x hx
      rw [protect_touches hprotect]
      simp only [Range.Has, Args.range] at hx ⊢
      omega
    · intro x
      rcases hrange with hdelete | hrange
      · simp [locked, hplace, Place.unlocked, hdelete]
      · simp [locked, hplace, Place.unlocked, hget, hrange]
  | getUnlockRest =>
    simp only [State.call, hplace, Call.unlock.injEq] at hcall
    subst hcall
    simp only [At, hplace] at hat
    obtain ⟨hop, hsuccess, hshort⟩ := hat
    have hrest : s.rest = ⟨s.args.logAddr + s.args.logLen, s.orig.logLen - s.args.logLen⟩ := by
      rw [State.rest, add64_eq (by omega), sub64_eq hlen (by omega)]
    refine h.unlocks (by simp [hop]) ?_ trivial ?_
    · intro x hx
      rw [hop, Touches]
      rw [hrest] at hx
      simp only [Range.Has, Args.range] at hx ⊢
      omega
    · intro x
      rw [hrest]
      simp only [locked, hplace, Place.unlocked, hop, hsuccess, Range.Has, Args.range]
      simp
      omega
  | getUnlockAll =>
    simp only [State.call, hplace, Call.unlock.injEq] at hcall
    subst hcall
    simp only [At, hplace] at hat
    obtain ⟨hop, hsuccess⟩ := hat
    refine h.unlocks (by simp [hop]) ?_ trivial ?_
    · intro x hx
      rw [hop]
      exact hx
    · simp [locked, hplace, Place.unlocked, hop, hsuccess]
  | putUnlock =>
    simp only [State.call, hplace, Call.unlock.injEq] at hcall
    subst hcall
    simp only [At, hplace] at hat
    obtain ⟨hop, hrange⟩ := hat
    have hheld := h.put hop
    rw [hplace, if_neg (by decide)] at hheld
    refine ⟨h.mandate, haddr, hlen, trivial, ?_, ?_⟩
    · have hunlock := h.holding.unlock (r := s.args.range) fun x hx => by
        rw [hop]
        change s.orig.range.Has x
        exact hrange ▸ hx
      exact hunlock.congr fun x => by simp [locked, hplace, Place.unlocked, hop]
    · intro _
      simp only [Place.unlocked, if_pos, hheld, hrange]
  | moveUnlock =>
    simp only [State.call, hplace, Call.unlock.injEq] at hcall
    subst hcall
    simp only [At, hplace] at hat
    obtain ⟨hop, hover⟩ := hat
    rw [hop] at hfits
    refine h.unlocks (by simp [hop]) ?_ trivial ?_
    · intro x hx
      rw [hop]
      exact (touches_whole hfits hover).mpr hx
    · simp [locked, hplace, Place.unlocked, hop]
  | moveUnlockSecond f =>
    simp only [State.call, hplace, Call.unlock.injEq] at hcall
    subst hcall
    simp only [At, hplace] at hat
    obtain ⟨hop, hover⟩ := hat
    rw [hop] at hfits
    refine h.unlocks (by simp [hop]) ?_ ⟨hop, hover⟩ ?_
    · intro x hx
      rw [hop]
      exact touches_side hfits hx
    · intro x
      have := sides_apart hfits hover (f := f) (x := x)
      simp only [locked, hplace, Place.unlocked]
      tauto
  | moveUnlockFirst f | moveBack f =>
    simp only [State.call, hplace, Call.unlock.injEq] at hcall
    subst hcall
    simp only [At, hplace] at hat
    obtain ⟨hop, hover⟩ := hat
    rw [hop] at hfits
    refine h.unlocks (by simp [hop]) ?_ (by simp [At, Place.unlocked, hop, hover]) ?_
    · intro x hx
      rw [hop]
      exact touches_side hfits hx
    · simp [locked, hplace, Place.unlocked, hop]
  | lock _ | forward _ | getLock | getForward | putForward | moveLock | moveForward | moveWait _
  | moveTry _ | moveBoth _ | redirect | returned | dead => simp [State.call, hplace] at hcall

/-- The argument record after the forwarded operation. -/
theorem Outcome.apply_range {out : Outcome} {op' : Op} (hne : op' ≠ .get) (a : Args) :
    (out.apply op' a).range = a.range := by
  simp [Outcome.apply, Args.range, hne]

theorem Outcome.apply_len {out : Outcome} {op' : Op} {a : Args}
    (hok : op' = .get → out.logLen ≤ a.logLen) : (out.apply op' a).logLen ≤ a.logLen := by
  unfold Outcome.apply
  split
  · exact hok ‹_›
  · exact le_rfl

theorem inv_forwarded {op' : Op} {out : Outcome} (h : Inv held₀ s) (hcall : s.call = .forward op')
    (hok : op' = .get → out.logLen ≤ s.args.logLen) :
    Inv held₀ { s with
      args := out.apply op' s.args
      success := out.success
      place := { s with args := out.apply op' s.args, success := out.success }.forwarded } := by
  have hat := h.at_place
  have hlen := (Outcome.apply_len hok).trans h.len
  have hgoes : ∀ q : Place, s.op ≠ .put →
      At { s with args := out.apply op' s.args, success := out.success, place := q } →
      (∀ x, locked s x ↔
        locked { s with args := out.apply op' s.args, success := out.success, place := q } x) →
      Inv held₀ { s with args := out.apply op' s.args, success := out.success, place := q } :=
    fun q hput hat heq => ⟨h.mandate, h.addr, hlen, hat, h.holding.congr heq,
      fun hc => absurd hc hput⟩
  unfold State.forwarded
  cases hplace : s.place with
  | forward p =>
    simp only [State.call, hplace, Call.forward.injEq] at hcall
    subst hcall
    simp only [At, hplace] at hat
    obtain ⟨hprotect, hargs⟩ := hat
    have hput : s.op ≠ .put := fun hc => by simp [hc, protect] at hprotect
    refine hgoes _ hput ⟨hprotect, ?_⟩ fun x => by simp [locked, hplace]
    by_cases hdelete : s.op = .delete
    · exact Or.inl hdelete
    · refine Or.inr ?_
      have hforward : p.forward ≠ .get := by
        rintro hc
        cases hop : s.op with
        | delete => exact hdelete hop
        | trans | create =>
          rw [hop] at hprotect
          cases hprotect
          cases hc
        | transwait | wait | get | put | putwait | move | other _ =>
          rw [hop] at hprotect
          cases hprotect
      exact (Outcome.apply_range hforward _).trans (congrArg Args.range hargs)
  | getForward =>
    simp only [State.call, hplace, Call.forward.injEq] at hcall
    subst hcall
    simp only [At, hplace] at hat
    obtain ⟨hop, hargs⟩ := hat
    have hput : s.op ≠ .put := by simp [hop]
    simp only
    split
    · rename_i hsuccess
      split
      · rename_i hshort
        exact hgoes _ hput ⟨hop, hsuccess, hshort⟩ fun x => by simp [locked, hplace]
      · rename_i hlong
        have hrange : (out.apply .get s.args).range = s.orig.range := by
          rw [Args.range, Args.range, le_antisymm hlen (not_lt.mp hlong), ← h.addr]
          rfl
        exact hgoes _ hput trivial fun x => by simp [locked, hplace, hop, hsuccess, hrange]
    · rename_i hsuccess
      exact hgoes _ hput ⟨hop, by simpa using hsuccess⟩ fun x => by simp [locked, hplace]
  | putForward =>
    simp only [State.call, hplace, Call.forward.injEq] at hcall
    subst hcall
    simp only [At, hplace] at hat
    obtain ⟨hop, hargs⟩ := hat
    have hrange : (out.apply .putwait s.args).range = s.orig.range :=
      (Outcome.apply_range (by decide) _).trans (congrArg Args.range hargs)
    have hheld := h.put hop
    rw [hplace, if_neg (by decide)] at hheld
    exact ⟨h.mandate, h.addr, hlen, ⟨hop, hrange⟩,
      h.holding.congr fun x => by simp [locked, hplace], fun _ => hheld⟩
  | moveForward | moveBoth f =>
    simp only [At, hplace] at hat
    obtain ⟨hop, hover⟩ := hat
    exact hgoes _ (by simp [hop]) ⟨hop, hover⟩ fun x => by simp [locked, hplace]
  | redirect =>
    simp only [At, hplace] at hat
    have hput : s.op ≠ .put := fun hc => by simp [hc, Redirected] at hat
    have hget : s.op ≠ .get := fun hc => by simp [hc, Redirected] at hat
    have hdelete : s.op ≠ .delete := fun hc => by simp [hc, Redirected] at hat
    exact hgoes _ hput trivial fun x => by simp [locked, hplace, hget, hdelete]
  | lock _ | unlock _ | getLock | getUnlockRest | getUnlockAll | putUnlock | moveLock | moveUnlock
  | moveWait _ | moveTry _ | moveUnlockSecond _ | moveUnlockFirst _ | moveBack _ | returned
  | dead => simp [State.call, hplace] at hcall

theorem inv_step {e : Event} (hfits : Fits s.op s.orig) (h : Inv held₀ s) (hok : Contract s e)
    (hs : step s e = some t) : Inv held₀ t ∧ t.op = s.op ∧ t.orig = s.orig := by
  obtain ⟨r, type, action, ok, hcall, rfl, rfl⟩ | ⟨r, ok, hcall, rfl, rfl⟩ |
    ⟨op', out, hcall, rfl, rfl⟩ := step_cases hs
  · exact ⟨inv_locked h hcall, rfl, rfl⟩
  · obtain rfl : ok = true := hok
    exact ⟨inv_unlocked hfits h hcall, rfl, rfl⟩
  · exact ⟨inv_forwarded h hcall fun hget => hok (hget ▸ hcall), rfl, rfl⟩

theorem inv_reach (hfits : Fits op a) (h : Reach step (· = begin op a held₀) Contract s) :
    Inv held₀ s ∧ s.op = op ∧ s.orig = a := by
  have hinit : ∀ s, s = begin op a held₀ → Inv held₀ s ∧ s.op = op ∧ s.orig = a := by
    rintro s rfl
    exact ⟨inv_begin op a held₀, rfl, rfl⟩
  refine h.invariant hinit ?_
  rintro s e t ⟨hinv, rfl, rfl⟩ hok hs
  exact inv_step hfits hinv hok hs

/-! ## The balance -/

/-- The operation that is called is forwarded, and is covered by a lock. What a `$put` is given
was held before. -/
structure Covered (held₀ : Held) (s : State) (op' : Op) : Prop where
  same : s.op ≠ .delete → op' = s.op.sync
  held : ∀ x, Touches s.op s.orig x → (s.op = .put → held₀ s.orig.mandate x ≠ none) →
    s.held s.orig.mandate x ≠ none

/-- Where nothing was held before under the mandate of the operation, only the range of a
successful `$get` is held now. Everything else is as it was, and the range of a `$put` is not held
any more. -/
def Balanced (held₀ : Held) (s : State) : Prop :=
  ∀ m x, (m = s.orig.mandate → Touches s.op s.orig x →
    s.op = .put ∨ (s.op ≠ .delete ∧ held₀ m x = none)) → s.held m x = s.after held₀ m x

theorem Inv.covered {op' : Op} (hfits : Fits s.op s.orig) (h : Inv held₀ s)
    (hcall : s.call = .forward op') : Covered held₀ s op' := by
  have hat := h.at_place
  have hmine := h.holding.mine
  have hcovers : (∀ x, Touches s.op s.orig x → locked s x) →
      ∀ x, Touches s.op s.orig x → (s.op = .put → held₀ s.orig.mandate x ≠ none) →
        s.held s.orig.mandate x ≠ none := by
    intro hall x hx _
    rw [hmine x (hall x hx)]
    exact Option.some_ne_none _
  cases hplace : s.place with
  | forward p =>
    simp only [State.call, hplace, Call.forward.injEq] at hcall
    subst hcall
    simp only [At, hplace] at hat
    refine ⟨fun hdelete => ?_, hcovers fun x hx => ?_⟩
    · cases hop : s.op with
      | delete => exact absurd hop hdelete
      | trans | create =>
        rw [hop] at hat
        cases hat.1
        rfl
      | transwait | wait | get | put | putwait | move | other _ =>
        rw [hop] at hat
        cases hat.1
    · simp only [locked, hplace]
      exact (protect_touches hat.1).mp hx
  | getForward =>
    simp only [State.call, hplace, Call.forward.injEq] at hcall
    subst hcall
    simp only [At, hplace] at hat
    refine ⟨fun _ => by rw [hat.1]; rfl, hcovers fun x hx => ?_⟩
    simp only [locked, hplace]
    rwa [hat.1] at hx
  | putForward =>
    simp only [State.call, hplace, Call.forward.injEq] at hcall
    subst hcall
    simp only [At, hplace] at hat
    refine ⟨fun _ => by rw [hat.1]; rfl, fun x _ hheld => ?_⟩
    rw [h.put hat.1, hplace, if_neg (by decide)]
    exact hheld hat.1
  | moveForward =>
    simp only [State.call, hplace, Call.forward.injEq] at hcall
    subst hcall
    simp only [At, hplace] at hat
    refine ⟨fun _ => by rw [hat.1]; rfl, hcovers fun x hx => ?_⟩
    simp only [locked, hplace]
    rw [hat.1] at hx hfits
    exact (touches_whole hfits hat.2).mp hx
  | moveBoth f =>
    simp only [State.call, hplace, Call.forward.injEq] at hcall
    subst hcall
    simp only [At, hplace] at hat
    refine ⟨fun _ => by rw [hat.1]; rfl, hcovers fun x hx => ?_⟩
    simp only [locked, hplace]
    rw [hat.1] at hx hfits
    exact (touches_sides hfits f).mp hx
  | redirect =>
    simp only [State.call, hplace, Call.forward.injEq] at hcall
    subst hcall
    simp only [At, hplace] at hat
    cases hop : s.op with
    | transwait | putwait | other _ =>
      exact ⟨fun _ => by rw [hop]; rfl, fun x hx => by rw [hop] at hx; exact hx.elim⟩
    | trans | wait | get | put | create | delete | move =>
      rw [hop] at hat
      exact hat.elim
  | lock _ | unlock _ | getLock | getUnlockRest | getUnlockAll | putUnlock | moveLock | moveUnlock
  | moveWait _ | moveTry _ | moveUnlockSecond _ | moveUnlockFirst _ | moveBack _ | returned
  | dead => simp [State.call, hplace] at hcall

/-- What the operation has not locked, and was free, is as it was before. -/
theorem Inv.keeps (h : Inv held₀ s) {m : Nat} (hout : ¬ (m = s.orig.mandate ∧ locked s x))
    (hfree : m = s.orig.mandate → Touches s.op s.orig x → held₀ m x = none) :
    s.held m x = held₀ m x := by
  rcases h.holding.rest m x hout with heq | ⟨hm, htouch, hnone⟩
  · exact heq
  · rw [hnone, hfree hm htouch]

theorem Inv.balanced (h : Inv held₀ s) (hreturned : s.place = .returned) : Balanced held₀ s := by
  intro m x hfree
  by_cases hput : s.op = .put
  · rw [h.put hput, if_pos hreturned, State.after, hput]
  · have hnone : m = s.orig.mandate → Touches s.op s.orig x → held₀ m x = none :=
      fun hm hx => ((hfree hm hx).resolve_left hput).2
    have hkeeps := fun hout => h.keeps (m := m) (x := x) hout hnone
    simp only [locked, hreturned] at hkeeps
    cases hop : s.op with
    | put => exact absurd hop hput
    | get =>
      simp only [State.after, hop]
      split
      · rename_i hsuccess
        unfold Held.lock
        split
        · rename_i hin
          have hmine := h.holding.mine x (by simp [locked, hreturned, hop, hsuccess, hin.2])
          rw [hin.1, hmine, hop]
        · rename_i hout
          exact hkeeps fun hc => hout ⟨hc.1, by simpa [hop, hsuccess] using hc.2⟩
      · rename_i hfailed
        exact hkeeps (by simp [hop, hfailed])
    | delete =>
      simp only [State.after, hop]
      refine hkeeps ?_
      rintro ⟨hm, hlocked⟩
      rw [hop] at hfree hlocked
      rcases hlocked with ⟨hc, -⟩ | ⟨-, hx, -⟩
      · cases hc
      · rcases hfree hm hx with hc | ⟨hc, -⟩
        · cases hc
        · exact hc rfl
    | trans | transwait | wait | putwait | create | move | other _ =>
      simp only [State.after, hop]
      exact hkeeps (by simp [hop])

/-- **An operation is forwarded under its lock, and leaves the locks as they were**, whether it
succeeds or not. -/
theorem protect_balance (hfits : Fits op a)
    (h : Reach step (· = begin op a held₀) Contract s) :
    (∀ op', s.call = .forward op' → Covered held₀ s op') ∧
      (s.place = .returned → Balanced held₀ s) := by
  obtain ⟨hinv, rfl, rfl⟩ := inv_reach hfits h
  exact ⟨fun _ hcall => hinv.covered hfits hcall, hinv.balanced⟩

/-- Nothing is held. -/
def free : Held := fun _ _ => none

/-- A `$move` from 0 to 100, in one way or in two. -/
def moveArgs : Args := ⟨0, 0, 10, 100, 200, false⟩

/-- The destination is locked by somebody else at first. -/
theorem protect_balance_move : ∃ s t : State,
    s.call = .forward .move ∧ Covered free s .move ∧ t.place = .returned ∧ Balanced free t := by
  have hfits : Fits .move moveArgs := ⟨by decide, fun _ => by decide⟩
  have hcall : (run step Contract (begin .move moveArgs free) [.locked true, .locked false,
      .unlocked true, .locked true, .locked true]).map State.call = some (.forward .move) := by
    decide +kernel
  have hplace : (run step Contract (begin .move moveArgs free) [.locked true, .locked false,
      .unlocked true, .locked true, .locked true, .forwarded ⟨true, 10, 100⟩, .unlocked true,
      .unlocked true]).map State.place = some .returned := by
    decide +kernel
  obtain ⟨s, hs, hcall⟩ := Option.map_eq_some_iff.mp hcall
  obtain ⟨t, ht, hplace⟩ := Option.map_eq_some_iff.mp hplace
  exact ⟨s, t, hcall, (protect_balance hfits (reach_run hs)).1 _ hcall, hplace,
    (protect_balance hfits (reach_run ht)).2 hplace⟩

/-- `$trans` is forwarded as `$transwait`, and `$delete` as `$get`. A `$move` by 200 is not covered,
nor one whose source ends at the end of the address space. And a `$trans` of the range of a `$get`
releases it. -/
theorem protect_broken :
    (∃ s, Reach step (· = begin .trans moveArgs free) Contract s ∧
      s.call = .forward .transwait) ∧
    (∃ s, Reach step (· = begin .delete moveArgs free) Contract s ∧ s.call = .forward .get) ∧
    (∃ s, Reach step (· = begin .move moveArgs free) Contract s ∧ s.call = .forward .move ∧
      s.held 0 200 = none) ∧
    (∃ s, Reach step (· = begin .move ⟨0, 2 ^ 63, 2 ^ 63, -2 ^ 63, -2 ^ 63, false⟩ free) Contract s ∧
      s.call = .forward .move ∧ s.held 0 (2 ^ 63) = none) ∧
    ∃ s t, Reach step (· = begin .get moveArgs free) Contract s ∧ s.place = .returned ∧
      s.held 0 0 ≠ none ∧ Reach step (· = begin .trans moveArgs s.held) Contract t ∧
      t.place = .returned ∧ t.held 0 0 = none := by
  refine ⟨?_, ?_, ?_, ?_, ?_⟩
  · have hrun : (run step Contract (begin .trans moveArgs free) [.locked true]).map State.call =
        some (.forward .transwait) := by
      decide +kernel
    obtain ⟨s, hs, hcall⟩ := Option.map_eq_some_iff.mp hrun
    exact ⟨s, reach_run hs, hcall⟩
  · have hrun : (run step Contract (begin .delete moveArgs free) [.locked true]).map State.call =
        some (.forward .get) := by
      decide +kernel
    obtain ⟨s, hs, hcall⟩ := Option.map_eq_some_iff.mp hrun
    exact ⟨s, reach_run hs, hcall⟩
  · have hrun : (run step Contract (begin .move moveArgs free) [.locked true, .locked true]).map
        (fun s => (s.call, s.held 0 200)) = some (.forward .move, none) := by
      decide +kernel
    obtain ⟨s, hs, heq⟩ := Option.map_eq_some_iff.mp hrun
    exact ⟨s, reach_run hs, congrArg Prod.fst heq, congrArg Prod.snd heq⟩
  · have hrun : (run step Contract
        (begin .move ⟨0, 2 ^ 63, 2 ^ 63, -2 ^ 63, -2 ^ 63, false⟩ free) [.locked true]).map
        (fun s => (s.call, s.held 0 (2 ^ 63))) = some (.forward .move, none) := by
      decide +kernel
    obtain ⟨s, hs, heq⟩ := Option.map_eq_some_iff.mp hrun
    exact ⟨s, reach_run hs, congrArg Prod.fst heq, congrArg Prod.snd heq⟩
  · have hget : (run step Contract (begin .get moveArgs free)
        [.locked true, .forwarded ⟨true, 10, 0⟩]).map (fun s => (s.place, s.held 0 0)) =
        some (.returned, some ⟨.read, .read⟩) := by
      decide +kernel
    obtain ⟨s, hs, heq⟩ := Option.map_eq_some_iff.mp hget
    have hrun : (run step Contract (begin .trans moveArgs s.held)
        [.locked true, .forwarded ⟨true, 10, 0⟩, .unlocked true]).map
        (fun t => (t.place, t.held 0 0)) = some (.returned, none) := by
      simp [run, begin, entry, step, State.call, Contract, trans, Place.locked, Place.unlocked,
        State.forwarded, Outcome.apply, Held.unlock, moveArgs, Args.range, Range.Has]
    obtain ⟨t, ht, heq'⟩ := Option.map_eq_some_iff.mp hrun
    refine ⟨s, t, reach_run hs, congrArg Prod.fst heq, ?_, reach_run ht,
      congrArg Prod.fst heq', congrArg Prod.snd heq'⟩
    have hheld : s.held 0 0 = some ⟨.read, .read⟩ := congrArg Prod.snd heq
    rw [hheld]
    decide

end Athomux.LockProtect
