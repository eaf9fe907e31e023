import Athomux.Nest.Window

/-!
# A window of the input

`map_select` puts its output at a fixed place in the address space of `:<in`.
-/

namespace Athomux.MapSelect

/-- How an operation says what it works on. -/
inductive Group
  | address | move | lock | range | missing
  deriving DecidableEq

def group : OutputOp → Group
  | .gadr | .padr | .gadrcreate | .deletepadr | .gadrcreatetranswaitpadr | .gadrtranswaitdeletepadr
  | .gadrgettranswait | .putdeletepadr | .gadrcreateget | .putpadr => .address
  | .move => .move
  | .lock | .unlock => .lock
  | .trans | .wait | .get | .put | .create | .delete | .transwait | .gettranswait | .transwaitput
  | .putwait | .createget | .putdelete => .range
  | .outputInit | .instbrick | .deinstbrick | .instconn | .deinstconn | .connect | .disconnect
  | .getconn | .findconn => .missing

/-- `end > len || end < start`. -/
def OutOfRange (w : Window) (start len : BitVec 64) : Prop := w.size < start + len ∨ start + len < start

instance (w : Window) (start len : BitVec 64) : Decidable (OutOfRange w start len) :=
  inferInstanceAs (Decidable (_ ∨ _))

def shift (w : Window) (a : OutputArgs) : OutputArgs := { a with logAddr := a.logAddr + w.base }

def unshift (w : Window) (a : OutputArgs) : OutputArgs := { a with logAddr := a.logAddr - w.base }

def shiftTry (w : Window) (a : OutputArgs) : OutputArgs :=
  { a with tryAddr := a.tryAddr + w.base, logAddr := a.logAddr + w.base }

def unshiftTry (w : Window) (a : OutputArgs) : OutputArgs :=
  { a with tryAddr := a.tryAddr - w.base, logAddr := a.logAddr - w.base }

/-- `:>out`. An operation that is not there at all does nothing, and `$output_init` succeeds. -/
def out {m : Type → Type} [Monad m] (w : Window) (nest : Ops m) : Ops m := fun o a =>
  match group o with
  | .address => pure a
  | .move =>
    if OutOfRange w a.logAddr a.logLen then pure a
    else if OutOfRange w (a.logAddr + a.offset) a.logLen then pure a
    else do
      let a ← nest o (shift w a)
      pure (unshift w a)
  | .lock =>
    if OutOfRange w a.tryAddr a.tryLen then pure a
    else do
      let a ← nest o (shiftTry w a)
      pure (unshiftTry w a)
  | .range =>
    if OutOfRange w a.logAddr a.logLen then pure a
    else do
      let a ← nest o (shift w a)
      pure (unshift w a)
  | .missing => pure { a with success := a.success || o == .outputInit }

/-! ## What is forwarded -/

/-- The request is forwarded. -/
def Forwards (w : Window) (o : OutputOp) (a : OutputArgs) : Prop :=
  match group o with
  | .move => ¬ OutOfRange w a.logAddr a.logLen ∧ ¬ OutOfRange w (a.logAddr + a.offset) a.logLen
  | .lock => ¬ OutOfRange w a.tryAddr a.tryLen
  | .range => ¬ OutOfRange w a.logAddr a.logLen
  | .address | .missing => False

/-- The condition on a request that is forwarded: the regions of a `$move` for all offsets, and the
range inside a try range, have room in the window, and nothing goes over the end of the addresses. -/
def HasRoom (w : Window) (o : OutputOp) (a : OutputArgs) : Prop :=
  match group o with
  | .move => w.Room a.logAddr a.logLen.toNat ∧ w.Room (a.logAddr + a.offset) a.targetLen
  | .lock => w.Room a.logAddr a.logLen.toNat ∧ w.Room a.tryAddr a.tryLen.toNat
  | .range => w.Room a.logAddr a.logLen.toNat
  | .address | .missing => True

/-- What the caller finds in `logAddr` and `tryAddr` is what `:<in` has left there, counted from the
window, and it is what the caller has put there if `:<in` has left it alone. -/
structure Restored (w : Window) (o : OutputOp) (a reply result : OutputArgs) : Prop where
  log : result.logAddr + w.base = reply.logAddr
  unchanged : reply.logAddr = a.logAddr + w.base → result.logAddr = a.logAddr
  tried : group o = .lock → result.tryAddr + w.base = reply.tryAddr ∧
    (reply.tryAddr = a.tryAddr + w.base → result.tryAddr = a.tryAddr)
  plain : group o ≠ .lock → result.tryAddr = reply.tryAddr

end Athomux.MapSelect

/-! ## Nothing but the window is touched -/

namespace Athomux.MapSelect

variable {w : Window} {o : OutputOp} {a : OutputArgs} {σ : Type} {nest : Ops (StateM σ)} {s : σ}

/-- The arguments that are forwarded. -/
def passed (w : Window) (o : OutputOp) (a : OutputArgs) : OutputArgs :=
  if group o = .lock then shiftTry w a else shift w a

theorem forwarded_of_forwards (h : Forwards w o a) :
    forwarded (out w) nest o a s = [(o, passed w o a)] := by
  unfold Forwards at h
  unfold forwarded out passed
  cases hg : group o with
  | address | missing =>
    rw [hg] at h
    exact h.elim
  | move =>
    rw [hg] at h
    simp only [if_neg h.1, if_neg h.2]
    rfl
  | lock | range =>
    rw [hg] at h
    simp only [if_neg h]
    rfl

theorem forwarded_of_not_forwards (h : ¬ Forwards w o a) : forwarded (out w) nest o a s = [] := by
  unfold Forwards at h
  unfold forwarded out
  cases hg : group o with
  | address | missing => rfl
  | move =>
    rw [hg] at h
    by_cases hsrc : OutOfRange w a.logAddr a.logLen
    · simp only [if_pos hsrc]
      rfl
    · have hdst : OutOfRange w (a.logAddr + a.offset) a.logLen :=
        not_not.mp fun hdst => h ⟨hsrc, hdst⟩
      simp only [if_neg hsrc, if_pos hdst]
      rfl
  | lock | range =>
    rw [hg] at h
    simp only [if_pos (not_not.mp h)]
    rfl

theorem span_shift {x : BitVec 64} {n : Nat} : span (x + w.base) n ⊆ w.addrs ↔ w.Room x n :=
  Window.span_subset.trans Window.holds_add_base

theorem touched_subset (h : Forwards w o a) : touched o (passed w o a) ⊆ w.addrs ↔ HasRoom w o a := by
  have hmove : span (a.logAddr + w.base) a.logLen.toNat ∪ moveTargets (shift w a) ⊆ w.addrs ↔
      w.Room a.logAddr a.logLen.toNat ∧ w.Room (a.logAddr + a.offset) a.targetLen := by
    have haddr : (shift w a).logAddr + (shift w a).offset = a.logAddr + a.offset + w.base := by
      unfold shift
      rw [BitVec.add_assoc, BitVec.add_comm w.base, ← BitVec.add_assoc]
    rw [Set.union_subset_iff, moveTargets_eq, haddr]
    exact and_congr span_shift span_shift
  have hlock : span (a.logAddr + w.base) a.logLen.toNat ∪ span (a.tryAddr + w.base) a.tryLen.toNat ⊆
      w.addrs ↔ w.Room a.logAddr a.logLen.toNat ∧ w.Room a.tryAddr a.tryLen.toNat :=
    Set.union_subset_iff.trans (and_congr span_shift span_shift)
  cases o with
  | gadr | padr | gadrcreate | deletepadr | gadrcreatetranswaitpadr | gadrtranswaitdeletepadr
  | gadrgettranswait | putdeletepadr | gadrcreateget | putpadr | outputInit | instbrick | deinstbrick
  | instconn | deinstconn | connect | disconnect | getconn | findconn => exact h.elim
  | move => exact hmove
  | lock | unlock => exact hlock
  | _ => exact span_shift

theorem inside_iff : (∀ c ∈ forwarded (out w) nest o a s, touched c.1 c.2 ⊆ w.addrs) ↔
    (Forwards w o a → HasRoom w o a) := by
  by_cases h : Forwards w o a
  · rw [forwarded_of_forwards h, List.forall_mem_singleton, touched_subset h]
    exact ⟨fun hroom _ => hroom, fun hroom => hroom h⟩
  · rw [forwarded_of_not_forwards h]
    exact iff_of_true (List.forall_mem_nil _) fun hf => absurd hf h

/-! ## The arguments afterwards -/

theorem out_eq (h : Forwards w o a) : (out w nest o a s).1 =
    (if group o = .lock then unshiftTry w else unshift w) (nest o (passed w o a) s).1 := by
  unfold Forwards at h
  unfold out passed
  cases hg : group o with
  | address | missing =>
    rw [hg] at h
    exact h.elim
  | move =>
    rw [hg] at h
    simp only [if_neg h.1, if_neg h.2]
    rfl
  | lock | range =>
    rw [hg] at h
    simp only [if_neg h]
    rfl

theorem restored (h : Forwards w o a) :
    Restored w o a (nest o (passed w o a) s).1 (out w nest o a s).1 := by
  rw [out_eq h]
  have hback {x y : BitVec 64} (hxy : y = x + w.base) : y - w.base = x := by
    rw [hxy, BitVec.add_sub_cancel]
  by_cases hg : group o = .lock
  · rw [if_pos hg]
    exact ⟨BitVec.sub_add_cancel _ _, hback, fun _ => ⟨BitVec.sub_add_cancel _ _, hback⟩,
      fun hno => absurd hg hno⟩
  · rw [if_neg hg]
    exact ⟨BitVec.sub_add_cancel _ _, hback, fun hlock => absurd hlock hg, fun _ => rfl⟩

/-- **The window.** -/
theorem select_window (w : Window) (nest : Ops (StateM σ)) (o : OutputOp) (a : OutputArgs) (s : σ) :
    (∀ c ∈ forwarded (out w) nest o a s, touched c.1 c.2 ⊆ w.addrs ∧
      Restored w o a (nest c.1 c.2 s).1 (out w nest o a s).1) ↔
      (Forwards w o a → HasRoom w o a) := by
  rw [← @inside_iff w o a σ nest s]
  refine ⟨fun h c hc => (h c hc).1, fun h c hc => ⟨h c hc, ?_⟩⟩
  by_cases hf : Forwards w o a
  · rw [forwarded_of_forwards hf] at hc
    rcases List.mem_singleton.mp hc with rfl
    exact restored hf
  · rw [forwarded_of_not_forwards hf] at hc
    cases hc

/-- A `$move` that may go up to 64 KiB away, while only the least distance is looked at. -/
def farMove : OutputArgs :=
  ⟨0, 0x100, 0, 0, 0x100, 0x10000, 0, false, false, false, .read, .normal, false, false, .wait,
    false, 0, 0⟩

theorem select_window_fails : ¬ ∀ (w : Window) (nest : Ops (StateM Unit)) (o : OutputOp)
    (a : OutputArgs), ∀ c ∈ forwarded (out w) nest o a (), touched c.1 c.2 ⊆ w.addrs ∧
      Restored w o a (nest c.1 c.2 ()).1 (out w nest o a ()).1 := by
  intro h
  have hforward : Forwards ⟨0xF0000, 0x1A00⟩ .move farMove := ⟨by decide, by decide⟩
  have hinside := @inside_iff ⟨0xF0000, 0x1A00⟩ .move farMove Unit (fun _ a => pure a) ()
  have hroom := hinside.mp (fun c hc => (h _ _ _ _ c hc).1) hforward
  exact absurd hroom.2 (by decide)

end Athomux.MapSelect
