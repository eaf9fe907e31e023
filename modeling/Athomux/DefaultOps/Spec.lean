import Athomux.Args

/-!
# The default combined operations

What `lib.c` puts for the combined operations that a brick does not have: `missing__transwait` and the
others. The brick has the elementary operations, and all the rest are the defaults.
-/

namespace Athomux

inductive Opcode
  | gadr | padr | create | delete | get | put | trans | wait
  | transwait | gettranswait | transwaitput | putwait | createget | gadrcreate | gadrcreateget
  | gadrgettranswait | putpadr | putdelete | deletepadr | putdeletepadr | gadrtranswaitdeletepadr
  | gadrcreatetranswaitpadr
  deriving DecidableEq, Repr

namespace DefaultOps

/-- The fields of `struct args` that the defaults read or write. -/
structure Args where
  logLen : Nat
  tryLen : Nat
  physLen : Nat
  forwrite : Bool
  clear : Bool
  melt : Bool
  direction : Direction
  prio : Prio
  reader : Bool
  exclu : Bool
  action : Action
  success : Bool
  version : Version
  opCode : Opcode

/-- How an operation of the brick ends. One that fails returns with `success` as it was, or clears
it. -/
inductive Outcome
  | ok
  | unset
  | cleared
  deriving DecidableEq, Repr

/-- What `success` is afterwards. -/
def Outcome.report (o : Outcome) (success : Bool) : Bool :=
  match o with
  | .ok => true
  | .unset => success
  | .cleared => false

/-- What an operation of the brick leaves in the arguments. -/
structure Reply where
  outcome : Outcome
  version : Version
  physLen : Nat
  logLen : Nat

def Reply.ok (r : Reply) : Bool := r.outcome = .ok

/-- `version < vers_newest`. -/
def Reply.stale (r : Reply) : Bool := r.version ≠ .newest

/-- A call of an operation of the brick, with the arguments it gets. -/
structure Call where
  op : Opcode
  args : Args
  ok : Bool

structure Exec where
  args : Args
  calls : List Call

namespace Exec

def set (s : Exec) (f : Args → Args) : Exec := { s with args := f s.args }

def log (s : Exec) : List (Opcode × Bool) := s.calls.map fun c => (c.op, c.ok)

end Exec

/-! ## The operations

The `n`-th call of the brick is answered by `r n`.
-/

variable (r : Nat → Reply)

/-- `on->output.ops[..][op]` of the brick. -/
def call (op : Opcode) (s : Exec) : Exec :=
  let reply := r s.calls.length
  { args := { s.args with
      success := reply.outcome.report s.args.success
      version := reply.version
      physLen := reply.physLen
      logLen := reply.logLen }
    calls := s.calls ++ [⟨op, s.args, reply.ok⟩] }

/-- `op_code` is set before. -/
def enter (op : Opcode) (f : Exec → Exec) (s : Exec) : Exec := f (s.set fun a => { a with opCode := op })

def elem (op : Opcode) : Exec → Exec := enter op (call r op)

/-- `second` is for the case that `first` has succeeded. -/
def andThen (first : Exec → Exec) (prepare : Args → Args) (second : Exec → Exec) (s : Exec) : Exec :=
  let s := first s
  if s.args.success then second (s.set prepare) else s

def transwait : Exec → Exec :=
  andThen (elem r .trans) (fun a => { a with success := false, action := .wait }) (elem r .wait)

def gettranswait (s : Exec) : Exec :=
  let s := elem r .get s
  if s.args.success ∧ s.args.version ≠ .newest then
    let s := enter .transwait (transwait r)
      (s.set fun a => { a with success := false, direction := .read })
    if s.args.success then s
    else (call r .put (s.set fun a => { a with prio := .none })).set fun a => { a with success := false }
  else s

def transwaitput (s : Exec) : Exec :=
  let s := enter .transwait (transwait r) (s.set fun a => { a with direction := .write })
  let res := s.args.success
  let s := elem r .put (s.set fun a => { a with success := false })
  s.set fun a => { a with success := a.success && res }

/-- `success` is not reset before the second call. -/
def putwait : Exec → Exec := andThen (elem r .put) id (elem r .wait)

def createget : Exec → Exec :=
  andThen (elem r .create) (fun a => { a with success := false, forwrite := true }) (elem r .get)

def gadrcreate (s : Exec) : Exec :=
  andThen (elem r .gadr) (fun a => { a with success := false }) (elem r .create)
    (s.set fun a => { a with reader := false })

def gadrcreateget (s : Exec) : Exec :=
  andThen (elem r .gadr) (fun a => { a with success := false }) (enter .createget (createget r))
    (s.set fun a => { a with reader := false })

def gadrgettranswait (s : Exec) : Exec :=
  andThen (elem r .gadr) (fun a => { a with success := false })
    (enter .gettranswait (gettranswait r)) (s.set fun a => { a with reader := true })

def putpadr (s : Exec) : Exec :=
  andThen (elem r .put) (fun a => { a with success := false, reader := false }) (elem r .padr)
    (s.set fun a => { a with prio := .background })

def putdelete (s : Exec) : Exec :=
  andThen (elem r .put) (fun a => { a with success := false }) (elem r .delete)
    (s.set fun a => { a with prio := .none })

def deletepadr : Exec → Exec :=
  andThen (elem r .delete) (fun a => { a with success := false }) (elem r .padr)

def putdeletepadr : Exec → Exec :=
  andThen (enter .putdelete (putdelete r)) (fun a => { a with success := false }) (elem r .padr)

/-- What the last two operations begin with. -/
def exclusive (a : Args) : Args :=
  { a with logLen := a.physLen, tryLen := a.physLen, reader := true, exclu := true }

/-- `$transwait`, and what is for the case that all has been transferred. -/
def transferAll (rest : Exec → Exec) (s : Exec) : Exec :=
  let s := enter .transwait (transwait r)
    (s.set fun a => { a with success := false, direction := .read })
  if s.args.success ∧ s.args.physLen = s.args.logLen then
    rest (s.set fun a => { a with success := false, logLen := a.physLen })
  else s

def gadrtranswaitdeletepadr (s : Exec) : Exec :=
  andThen (elem r .gadr) id
    (transferAll r (andThen (elem r .delete) (fun a => { a with success := false }) (elem r .padr)))
    (s.set exclusive)

def gadrcreatetranswaitpadr (s : Exec) : Exec :=
  andThen
    (andThen (elem r .gadr) (fun a => { a with success := false, clear := false, melt := true })
      (elem r .create))
    id (transferAll r (elem r .padr)) (s.set exclusive)

def ops : Opcode → Exec → Exec
  | .transwait => transwait r
  | .gettranswait => gettranswait r
  | .transwaitput => transwaitput r
  | .putwait => putwait r
  | .createget => createget r
  | .gadrcreate => gadrcreate r
  | .gadrcreateget => gadrcreateget r
  | .gadrgettranswait => gadrgettranswait r
  | .putpadr => putpadr r
  | .putdelete => putdelete r
  | .deletepadr => deletepadr r
  | .putdeletepadr => putdeletepadr r
  | .gadrtranswaitdeletepadr => gadrtranswaitdeletepadr r
  | .gadrcreatetranswaitpadr => gadrcreatetranswaitpadr r
  | op => call r op

/-- A caller resets `success` before the call. -/
def exec (op : Opcode) (a : Args) : Exec := ops r op ⟨{ a with success := false, opCode := op }, []⟩

/-! ## What they should do -/

/-- The elementary operations, in order. What has been got is transferred if it is not the newest. -/
def steps : Opcode → List Opcode
  | .transwait => [.trans, .wait]
  | .gettranswait => if (r 0).stale then [.get, .trans, .wait] else [.get]
  | .transwaitput => [.trans, .wait, .put]
  | .putwait => [.put, .wait]
  | .createget => [.create, .get]
  | .gadrcreate => [.gadr, .create]
  | .gadrcreateget => [.gadr, .create, .get]
  | .gadrgettranswait => if (r 1).stale then [.gadr, .get, .trans, .wait] else [.gadr, .get]
  | .putpadr => [.put, .padr]
  | .putdelete => [.put, .delete]
  | .deletepadr => [.delete, .padr]
  | .putdeletepadr => [.put, .delete, .padr]
  | .gadrtranswaitdeletepadr => [.gadr, .trans, .wait, .delete, .padr]
  | .gadrcreatetranswaitpadr => [.gadr, .create, .trans, .wait, .padr]
  | op => [op]

inductive Resource
  | address
  | block
  | buffer

/-- What an operation that succeeds acquires or releases. -/
def gain : Resource → Opcode → Int
  | .address, .gadr | .block, .create | .buffer, .get => 1
  | .address, .padr | .block, .delete | .buffer, .put => -1
  | _, _ => 0

/-- What is left behind. -/
def left (k : Resource) (log : List (Opcode × Bool)) : Int :=
  ((log.filter (·.2)).map fun c => gain k c.1).sum

def Clean (log : List (Opcode × Bool)) : Prop :=
  left .address log ≤ 0 ∧ left .block log ≤ 0 ∧ left .buffer log ≤ 0

instance (log : List (Opcode × Bool)) : Decidable (Clean log) :=
  inferInstanceAs (Decidable (_ ∧ _ ∧ _))

/-- Success is reported exactly when each elementary operation has been called and has reported
success, and what fails leaves nothing behind. -/
def Right (success : Bool) (log : List (Opcode × Bool)) (steps : List Opcode) : Prop :=
  (success = true ↔ log = steps.map fun op => (op, true)) ∧ (success = false → Clean log)

instance (success : Bool) (log : List (Opcode × Bool)) (steps : List Opcode) :
    Decidable (Right success log steps) :=
  inferInstanceAs (Decidable (_ ∧ _))

/-- The replies of the brick for which an operation does as it should. -/
def Supported : Opcode → Prop
  | .putwait => (r 0).ok → (r 1).outcome ≠ .unset
  | .gettranswait => (r 0).ok → (r 0).stale →
      ((r 1).ok = false → (r 2).ok) ∧ ((r 1).ok → (r 2).ok = false → (r 3).ok)
  | .createget | .gadrcreate => (r 0).ok → (r 1).ok
  | .gadrcreateget => (r 0).ok → (r 1).ok ∧ (r 2).ok
  | .gadrgettranswait => (r 0).ok → (r 1).ok ∧ ((r 1).stale → (r 2).ok ∧ (r 3).ok)
  | .gadrtranswaitdeletepadr => (r 0).ok → (r 1).ok ∧ (r 2).ok ∧ (r 2).physLen = (r 2).logLen ∧
      (r 3).ok ∧ (r 4).ok
  | .gadrcreatetranswaitpadr => (r 0).ok → (r 1).ok ∧ (r 2).ok ∧ (r 3).ok ∧
      (r 3).physLen = (r 3).logLen ∧ (r 4).ok
  | _ => True

end DefaultOps

end Athomux
