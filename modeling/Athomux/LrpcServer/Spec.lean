import Athomux.Lib.Regions
import Athomux.Args

/-!
# The LRPC server of the kernel

`athomux_lrpc_handler` of `#lrpc_linux_server` copies the record of a call, and what the record
points at, into one page, calls the brick, and copies back.
-/

open Lib

namespace Athomux.LrpcServer

def pageSize : Nat := 4096

def pageShift : Nat := 12

/-- `sizeof(struct args)` with pointers of 64 bits. -/
def argsSize : Nat := 144

/-- `sizeof(struct conn_info)`. -/
def connSize : Nat := 24

/-- `LRPC_LINUX_SERVER_MAXCONN`. -/
def maxConn : Nat := 256

/-- The operations that the handler tells from the others. -/
inductive Op
  | trans
  | transwait
  | instconn
  | getconn
  | findconn
  | other (code : Nat)
  deriving DecidableEq, Repr

/-- `struct args`. The handler passes `rest` on, and `0` is no pointer. -/
structure Args (ρ : Type) where
  op : Op
  direction : Direction
  logLen : Nat
  physAddr : Nat
  physLen : Nat
  conn1 : Nat
  conn2 : Nat
  resConn : Nat
  connLen : Int
  rest : ρ

/-- What the brick sets in the record and in the copies. -/
structure Results (ρ κ : Type) where
  logLen : Nat
  physAddr : Nat
  physLen : Nat
  connLen : Int
  rest : ρ
  conn1 : κ
  resConn : List Nat
  buffer : List Nat

/-- An operation of the brick, with the copies of both connectors, the parameter and the buffer. -/
abbrev Brick (ρ κ : Type) :=
  Args ρ → Option κ → Option κ → List Nat → List Nat → Results ρ κ

structure Instance (ρ κ : Type) where
  id : Nat
  connect : Option (Brick ρ κ)

/-- The characters before the NUL. -/
structure CString where
  chars : List Nat
  ended : 0 ∉ chars

/-- The copies from and to the caller that fail. -/
structure Faults where
  args : Bool
  backup : Bool
  conn1 : Bool
  conn2 : Bool
  outBuffer : Bool
  outConn1 : Bool
  outResConn : Bool
  outArgs : Bool

/-- A call, with what the memory of the caller has and what the kernel answers. `buffer` is what can
be read from `@phys_addr` on, and a `param` that cannot be read is `none`. A free page at address 0
is none. -/
structure Call (ρ κ : Type) where
  id : Nat
  instances : Nat → Option (Instance ρ κ)
  uArgs : Nat
  argsOk : Bool
  uParam : Nat
  paramOk : Bool
  args : Args ρ
  conn1 : κ
  conn2 : κ
  param : Option CString
  buffer : List Nat
  bufferOk : Bool
  page : Nat
  pages : Nat → Nat
  faults : Faults

inductive Ret
  | ok
  | einval
  | enomem
  | efault
  deriving DecidableEq, Repr

/-- What a call has done: the pages with their orders, the copies in the kernel, the parameter as it
is there, what the brick got and answered, and what was copied back. -/
structure Outcome (ρ κ : Type) where
  ret : Ret
  obtained : List (Nat × Nat) := []
  freed : List (Nat × Nat) := []
  copies : List Region := []
  param : Option (List Nat) := none
  passed : Option (Args ρ) := none
  results : Option (Results ρ κ) := none
  outArgs : Option (Args ρ) := none
  outConn1 : Option κ := none
  outResConn : Option (List Nat) := none
  outBuffer : Option (List Nat) := none

variable {ρ κ : Type}

/-! ## Copying in -/

/-- Where something has been put: the pointer, the next free place, and the copy. -/
structure Placed where
  ptr : Nat
  pos : Nat
  copies : List Region

/-- `@conn1` and `@conn2`. The cast is of `page` alone, so that the place counts in structures. -/
def copyConn (page pos ptr : Nat) (fault : Bool) : Placed :=
  let k := page + pos * connSize
  if ptr = 0 then ⟨0, pos, []⟩
  else if fault then ⟨0, pos, [⟨k, connSize⟩]⟩
  else ⟨k, pos + connSize, [⟨k, connSize⟩]⟩

/-- `__strncpy_from_user`: the length without the NUL, and the bytes. -/
def strncpyFromUser (s : CString) (count : Nat) : Nat × List Nat :=
  if s.chars.length < count then (s.chars.length, s.chars ++ [0])
  else (count, s.chars.take count)

/-- The record in the kernel, the parameter and `res_conn_len`. -/
structure Copied (ρ : Type) where
  args : Args ρ
  param : List Nat
  resConnLen : Nat

/-- `@res_conn` and `@conn_len`. The place behind the parameter is cleared, and counted as above. -/
def placeRes (page pos : Nat) (args : Args ρ) (param : List Nat) : List Region × Copied ρ :=
  let len := pageSize - pos
  let k := page + pos * connSize
  if args.resConn = 0 then ([], ⟨args, param, 0⟩)
  else if len = 0 then ([], ⟨{ args with resConn := 0, connLen := 0 }, param, len⟩)
  else ([⟨k, len⟩], ⟨{ args with resConn := k, connLen := min args.connLen len }, param, len⟩)

/-- The copies, and what there is for the call if the handler does not leave for `ret_EFAULT`. -/
def copyIn (c : Call ρ κ) : List Region × Option (Copied ρ) :=
  let kArgs : Region := ⟨c.page, argsSize⟩
  let backup : Region := ⟨c.page + argsSize, argsSize⟩
  if c.faults.args then ([kArgs], none)
  else if c.faults.backup then ([kArgs, backup], none)
  else
    let x := copyConn c.page (2 * argsSize) c.args.conn1 c.faults.conn1
    let y := copyConn c.page x.pos c.args.conn2 c.faults.conn2
    match c.param with
    | none => (kArgs :: backup :: (x.copies ++ y.copies), none)
    | some s =>
      let p := strncpyFromUser s (pageSize - y.pos)
      let z := placeRes c.page (y.pos + p.1) { c.args with conn1 := x.ptr, conn2 := y.ptr } p.2
      (kArgs :: backup :: (x.copies ++ y.copies ++ ⟨c.page + y.pos, p.2.length⟩ :: z.1), some z.2)

/-! ## The buffer -/

/-- The values of an `unsigned int`. -/
def uintRange : Nat := 4294967296

/-- The number of the highest bit that is set, of an `int`. -/
def fls (n : Nat) : Nat :=
  let n := n % uintRange
  if n = 0 then 0 else Nat.log2 n + 1

/-- `1UL << (buf_order + PAGE_SHIFT)`, of which the shift of the processor takes 6 bits. -/
def orderLen (order : Nat) : Nat := 1 <<< ((order + pageShift) % uintRange % 64)

/-- The loop, after the first try: the buffer, its order and `loglen`. It ends before order 0. -/
def tryOrders (pages : Nat → Nat) : Nat → Option (Nat × Nat × Nat)
  | 0 => none
  | order + 1 =>
    if pages (order + 1) ≠ 0 then some (pages (order + 1), order + 1, orderLen (order + 1))
    else tryOrders pages order

/-- Below order 0 is the largest unsigned number. -/
def orderBelow (order : Nat) : Nat := if order = 0 then uintRange - 1 else order - 1

def getBuffer (pages : Nat → Nat) (order loglen : Nat) : Option (Nat × Nat × Nat) :=
  if pages order ≠ 0 then some (pages order, order, loglen)
  else tryOrders pages (orderBelow order)

/-- The operation moves data. -/
def Buffered (args : Args ρ) : Prop :=
  (args.op = .trans ∨ args.op = .transwait) ∧ args.logLen ≠ 0 ∧ args.direction ≠ .stop

instance (args : Args ρ) : Decidable (Buffered args) := inferInstanceAs (Decidable (_ ∧ _))

/-- `loglen` before the loop. -/
def firstLen (args : Args ρ) : Nat := min args.logLen (addrSpace - 1)

def firstOrder (args : Args ρ) : Nat := fls ((firstLen args - 1) / pageSize)

/-- `free_pages`, which has nothing to do at address 0. -/
def freePages (buf order : Nat) : List (Nat × Nat) := if buf = 0 then [] else [(buf, order)]

/-! ## The call and copying back -/

def copyOut {α : Type} (fault : Bool) (x : α) : Option α := if fault then none else some x

/-- What the brick has set. -/
def answered (args : Args ρ) (r : Results ρ κ) : Args ρ :=
  { args with
    logLen := r.logLen
    physAddr := r.physAddr
    physLen := r.physLen
    connLen := r.connLen
    rest := r.rest }

/-- `@phys_addr`, for the caller. -/
def backPhys (own args : Args ρ) (buf : Nat) : Args ρ :=
  if buf ≠ 0 then { args with logLen := own.logLen, physAddr := own.physAddr } else args

/-- `@conn1` and `@conn2`, for the caller. -/
def backConns (own args : Args ρ) : Args ρ :=
  { args with conn1 := if args.conn1 ≠ 0 then own.conn1 else args.conn1, conn2 := own.conn2 }

/-- There is something to copy to `@res_conn`. -/
def HasConns (args : Args ρ) : Prop :=
  args.resConn ≠ 0 ∧ (args.op = .getconn ∨ args.op = .findconn) ∧ 0 < args.connLen

instance (args : Args ρ) : Decidable (HasConns args) := inferInstanceAs (Decidable (_ ∧ _))

/-- A `@conn_len` that is too large is cut. -/
def cutConns (args : Args ρ) (resConnLen : Nat) : Args ρ :=
  if HasConns args then { args with connLen := min args.connLen resConnLen } else args

/-- `@res_conn`, for the caller. -/
def backRes (own args : Args ρ) : Args ρ :=
  if args.resConn ≠ 0 then { args with resConn := own.resConn } else args

/-- From the answer of the brick to the end. `buf` is 0 without a buffer. -/
def finish (c : Call ρ κ) (k : Copied ρ) (r : Results ρ κ) (buf order loglen : Nat)
    (o : Outcome ρ κ) : Outcome ρ κ :=
  let args := backPhys c.args (answered k.args r) buf
  let conns := cutConns (backConns c.args args) k.resConnLen
  { o with
    ret := .ok
    freed := freePages buf order ++ [(c.page, 0)]
    passed := some k.args
    results := some r
    outArgs := copyOut c.faults.outArgs (backRes c.args conns)
    outConn1 :=
      if args.conn1 ≠ 0 ∧ args.op = .instconn then copyOut c.faults.outConn1 r.conn1 else none
    outResConn :=
      if HasConns args then copyOut c.faults.outResConn (r.resConn.take conns.connLen.toNat)
      else none
    outBuffer :=
      if buf ≠ 0 ∧ args.direction = .read then
        copyOut c.faults.outBuffer (r.buffer.take (min loglen r.physLen))
      else none }

/-- The call of the brick, with the copies that it can read. -/
def callBrick (c : Call ρ κ) (k : Copied ρ) (buf order loglen : Nat) (o : Outcome ρ κ) : Outcome ρ κ :=
  match (c.instances c.id).bind Instance.connect with
  | none => { o with ret := .efault, freed := freePages buf order ++ [(c.page, 0)] }
  | some brick =>
    let r := brick k.args (if k.args.conn1 ≠ 0 then some c.conn1 else none)
      (if k.args.conn2 ≠ 0 then some c.conn2 else none) k.param (c.buffer.take loglen)
    finish c k r buf order loglen o

/-- A call with a buffer for `@phys_addr`. -/
def callBuffered (c : Call ρ κ) (k : Copied ρ) (o : Outcome ρ κ) : Outcome ρ κ :=
  match getBuffer c.pages (firstOrder c.args) (firstLen c.args) with
  | none => { o with ret := .enomem, freed := [(c.page, 0)] }
  | some (buf, order, loglen) =>
    let o := { o with obtained := [(buf, order), (c.page, 0)] }
    -- `__copy_from_user` may copy a part.
    let len := min loglen c.buffer.length
    if c.bufferOk = false ∨ len = 0 then
      { o with ret := .efault, freed := freePages buf order ++ [(c.page, 0)] }
    else
      callBrick c { k with args := { k.args with logLen := len, physAddr := buf } } buf order len o

/-- What there is when the copies have been made. -/
def entered (c : Call ρ κ) : Outcome ρ κ where
  ret := .ok
  obtained := [(c.page, 0)]
  copies := (copyIn c).1
  param := (copyIn c).2.map Copied.param

/-- `athomux_lrpc_handler` from the page on. -/
def handlePage (c : Call ρ κ) : Outcome ρ κ :=
  match (copyIn c).2 with
  | none => { entered c with ret := .efault, freed := [(c.page, 0)] }
  | some k =>
    if Buffered c.args then callBuffered c k (entered c) else callBrick c k 0 0 0 (entered c)

/-- The checks before the page. -/
def checked (c : Call ρ κ) : Ret :=
  if maxConn ≤ c.id then .einval
  else match c.instances c.id with
    | none => .einval
    | some brick =>
      if brick.id ≠ c.id then .einval
      else if c.uArgs = 0 ∨ !c.argsOk then .efault
      else if c.uParam ≠ 0 ∧ !c.paramOk then .efault
      else if c.page = 0 then .enomem
      else .ok

def handler (c : Call ρ κ) : Outcome ρ κ :=
  if checked c = .ok then handlePage c else { ret := checked c }

/-! ## What the marshalling is for -/

/-- The record that the caller is to get: its own pointers, and what the brick has set. -/
def returned (args : Args ρ) (r : Results ρ κ) (buffered : Bool) : Args ρ :=
  { args with
    logLen := if buffered then args.logLen else r.logLen
    physAddr := if buffered then args.physAddr else r.physAddr
    physLen := r.physLen
    connLen := r.connLen
    rest := r.rest }

/-- The caller gets what the brick has answered. -/
def Returns (c : Call ρ κ) (o : Outcome ρ κ) : Prop :=
  ∀ p r, o.passed = some p → o.results = some r →
    o.outArgs = some (returned c.args r (decide (Buffered c.args))) ∧
      (c.args.conn1 ≠ 0 → c.args.op = .instconn → o.outConn1 = some r.conn1) ∧
      (c.args.resConn ≠ 0 → c.args.op = .getconn ∨ c.args.op = .findconn → 0 < r.connLen →
        o.outResConn = some (r.resConn.take r.connLen.toNat)) ∧
      (Buffered c.args → c.args.direction = .read →
        o.outBuffer = some (r.buffer.take (min p.logLen r.physLen)))

/-- The copies lie in the page beside each other, the parameter ends, the caller gets its answer, and
the pages are given back. -/
structure Marshalled (c : Call ρ κ) (o : Outcome ρ κ) : Prop where
  inside : ∀ q ∈ o.copies, c.page ≤ q.start ∧ q.stop ≤ c.page + pageSize
  apart : o.copies.Pairwise Region.Apart
  ends : ∀ s, o.param = some s → 0 ∈ s
  returns : Returns c o
  freed : o.freed.Perm o.obtained

/-! ## The condition -/

/-- What is left of the page behind the two records. -/
def stringRoom : Nat := pageSize - 2 * argsSize

/-- One of the orders that are tried has pages. -/
def HasBuffer (c : Call ρ κ) : Prop :=
  c.pages (firstOrder c.args) ≠ 0 ∨
    ∃ order, 0 < order ∧ order ≤ orderBelow (firstOrder c.args) ∧ c.pages order ≠ 0

/-- Nothing is in the way of the call, once the parameter is there. -/
def Called (c : Call ρ κ) : Prop :=
  ((c.instances c.id).bind Instance.connect).isSome = true ∧
    (Buffered c.args → HasBuffer c ∧ c.bufferOk = true ∧ c.buffer ≠ [])

/-- There are no connectors and no array, and the parameter is short. -/
def HasRoom (c : Call ρ κ) : Prop :=
  c.args.conn1 = 0 ∧ c.args.conn2 = 0 ∧
    ∀ s, c.param = some s → s.chars.length < stringRoom ∧ c.args.resConn = 0

/-- The copies to the caller do not fail. -/
def CopiesOut (c : Call ρ κ) : Prop :=
  c.faults.outArgs = false ∧
    (Buffered c.args → c.args.direction = .read → c.faults.outBuffer = false)

/-- What goes into the page has room there, if the handler comes to it, and what goes back is
copied. -/
def Fits (c : Call ρ κ) : Prop :=
  checked c = .ok → c.faults.args = false → c.faults.backup = false →
    HasRoom c ∧ (c.param.isSome = true → Called c → CopiesOut c)

end Athomux.LrpcServer
