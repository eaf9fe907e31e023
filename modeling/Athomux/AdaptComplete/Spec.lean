import Athomux.Args

/-!
# Completing shorter requests

`#adapt_complete2` calls `:<in` again for what is missing, with the same arguments moved on by what
came back. An operation that fails may return without a change of its arguments: `@success` is
guaranteed to be `FALSE` when an operation is called, and the caller has to clear it.
-/

namespace Athomux.AdaptComplete

/-- What a call of `:<in` does. -/
inductive Reply
  /-- It transfers `len` bytes, sets `@success` and `@phys_len`. -/
  | done (len : Nat)
  /-- It fails and leaves `@success` as it is, and something in `@phys_len` or not. -/
  | fail (physLen : Option Nat)
  /-- It fails and sets `@success` to `FALSE`. -/
  | clear
  deriving DecidableEq

/-- The bytes that are transferred. -/
def Reply.moved : Reply → Nat
  | .done len => len
  | .fail _ => 0
  | .clear => 0

/-- The length that a call returns. -/
def Reply.returned : Reply → Option Nat
  | .done len => some len
  | .fail physLen => physLen
  | .clear => none

/-- The fields of `struct args` that `$trans` reads or sets. `@success` is `FALSE`. -/
structure Request where
  logAddr : Nat
  logLen : Nat
  physAddr : Nat
  physLen : Nat

/-- A call that was made, with what it has transferred. -/
structure Call where
  logAddr : Nat
  physAddr : Nat
  moved : Nat
  deriving DecidableEq

/-- `targs` and `sum`, and the calls so far. -/
structure State where
  logAddr : Nat
  logLen : Nat
  physAddr : Nat
  physLen : Nat
  success : Bool
  sum : Nat
  calls : List Call
  deriving DecidableEq

def Request.start (req : Request) : State :=
  ⟨req.logAddr, req.logLen, req.physAddr, req.physLen, false, 0, []⟩

/-- The call of `:<in` with `targs`. -/
def State.call (s : State) (reply : Reply) : State :=
  let calls := s.calls ++ [⟨s.logAddr, s.physAddr, reply.moved⟩]
  match reply with
  | .done len => { s with success := true, physLen := len, calls := calls }
  | .fail (some len) => { s with physLen := len, calls := calls }
  | .fail none => { s with calls := calls }
  | .clear => { s with success := false, calls := calls }

/-- The rest of the body of the loop. -/
def State.advance (s : State) : State :=
  { s with
    sum := add64 s.sum s.physLen
    logAddr := add64 s.logAddr s.physLen
    physAddr := add64 s.physAddr s.physLen
    logLen := sub64 s.logLen s.physLen }

/-- One turn of the loop, `none` when it ends. -/
def Request.turn (req : Request) (s : State) (reply : Reply) : Option State :=
  if s.sum < req.logLen then
    if (s.call reply).success then some (s.call reply).advance else none
  else none

/-- The state before turn `n`. -/
def Request.before (req : Request) (replies : Nat → Reply) : Nat → Option State
  | 0 => some req.start
  | n + 1 => (req.before replies n).bind fun s => req.turn s (replies n)

/-- `@success` and `@phys_len` at the end, and the calls. -/
structure Result where
  success : Bool
  physLen : Nat
  calls : List Call
  deriving DecidableEq

/-- Behind the loop, which ended in `s` or in the call with this reply. -/
def Request.leave (req : Request) (s : State) (reply : Reply) : Result :=
  ⟨decide (s.sum = req.logLen), s.sum,
    if s.sum < req.logLen then (s.call reply).calls else s.calls⟩

/-- `$trans` ends with this result. -/
def Request.Ends (req : Request) (replies : Nat → Reply) (r : Result) : Prop :=
  ∃ n s, req.before replies n = some s ∧ req.turn s (replies n) = none ∧ r = req.leave s (replies n)

/-- A call returns at most the length that it is called with. -/
def Request.Bounded (req : Request) (replies : Nat → Reply) : Prop :=
  ∀ n s len, req.before replies n = some s → s.sum < req.logLen →
    (replies n).returned = some len → len ≤ s.logLen

/-! ## What a request is for -/

/-- Each call goes on where the ones before it have come to. -/
def Contiguous (logAddr physAddr : Nat) : List Call → Prop
  | [] => True
  | c :: cs => c.logAddr = logAddr ∧ c.physAddr = physAddr ∧
      Contiguous (add64 logAddr c.moved) (add64 physAddr c.moved) cs

def total (calls : List Call) : Nat := (calls.map Call.moved).sum

/-- The loop ends, the pieces are contiguous, `@phys_len` is what was transferred, and `@success`
tells whether that is all. -/
def Request.Completes (req : Request) (replies : Nat → Reply) : Prop :=
  ∃ r, req.Ends replies r ∧ Contiguous req.logAddr req.physAddr r.calls ∧
    r.physLen = total r.calls ∧ (r.success = true ↔ total r.calls = req.logLen)

/-! ## The devices that it works with -/

/-- What is in `@phys_len` behind call `n`. -/
def left (physLen : Nat) (replies : Nat → Reply) : Nat → Nat
  | 0 => physLen
  | n + 1 => (replies n).returned.getD (left physLen replies n)

/-- The bytes that the first `n` calls transfer. -/
def movedBy (replies : Nat → Reply) : Nat → Nat
  | 0 => 0
  | n + 1 => movedBy replies n + (replies n).moved

/-- Call `n` succeeds, or fails behind another one with nothing in `@phys_len`. -/
def Request.Fine (req : Request) (replies : Nat → Reply) (n : Nat) : Prop :=
  match replies n with
  | .done _ => True
  | .fail _ => n ≠ 0 ∧ left req.physLen replies (n + 1) = 0
  | .clear => False

/-- The failure of call `n` is noticed. -/
def Noticed (replies : Nat → Reply) (n : Nat) : Prop :=
  match replies n with
  | .done _ => False
  | .fail _ => n = 0
  | .clear => True

/-- After some fine calls all is transferred, or the next call fails and is noticed. -/
def Request.Finite (req : Request) (replies : Nat → Reply) : Prop :=
  ∃ n, (∀ k < n, req.Fine replies k) ∧ (movedBy replies n = req.logLen ∨ Noticed replies n)

end Athomux.AdaptComplete
