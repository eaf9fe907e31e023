import Athomux.StratText.Reader
import Athomux.Lib.Run
import Mathlib.Tactic.Common

/-!
# Scanning a strategy text

The scanners of `strat.c`. A position is the text from there on, so the terminator is read at the end of
the list. There is no result where a position would come behind it, or where a character is looked up
that has no place in its table.
-/

namespace Athomux.Strat

open NetConnect (Text)
open StratText (nameSize snameSize scanHex isSpace)

/-- The character at a position. -/
def peek (t : Text) : Char := t.headD '\x00'

/-! ## Blanks and lines -/

/-- `skip_blanks`. -/
def skipBlanks (t : Text) : Text := t.dropWhile (· == ' ')

/-- `skip_line`. -/
def skipLine : Text → Text
  | [] => []
  | c :: t => if c = '\n' then t else skipLine t

theorem skipBlanks_suffix (t : Text) : skipBlanks t <:+ t := List.dropWhile_suffix _

theorem skipLine_suffix (t : Text) : skipLine t <:+ t := by
  induction t with
  | nil => exact List.suffix_rfl
  | cons c t ih =>
    rw [skipLine]
    split_ifs
    · exact List.suffix_cons c t
    · exact ih.trans (List.suffix_cons c t)

theorem skipLine_lt (c : Char) (t : Text) : (skipLine (c :: t)).length < (c :: t).length := by
  rw [skipLine]
  split_ifs
  · exact Nat.lt_succ_self _
  · exact Nat.lt_succ_of_le (skipLine_suffix t).length_le

/-! ## Keywords -/

/-- The first of the words that the text begins with. -/
def matching (search : List Text) (t : Text) : Option Nat := search.findIdx? (·.isPrefixOf t)

/-- `scan_multi`: the number of the word that has been found, and the position behind it. -/
def scanMulti (search : List Text) (t : Text) : Option Nat × Text :=
  match _h : skipBlanks t with
  | [] => (none, [])
  | c :: t' =>
    match matching search (c :: t') with
    | some i => (some i, skipBlanks ((c :: t').drop (search.getD i []).length))
    | none => scanMulti search (skipLine (c :: t'))
termination_by t.length
decreasing_by
  have hline := skipLine_lt c t'
  have hblanks := (skipBlanks_suffix t).length_le
  rw [_h] at hblanks
  omega

/-- `scan_single`. -/
def scanSingle (search t : Text) : Option Text :=
  match scanMulti [search] t with
  | (some _, t) => some t
  | (none, _) => none

/-! ## Tables -/

/-- `(unsigned)c`, for a signed character. -/
def unsignedOf (c : Char) : Nat := if c.toNat < 128 then c.toNat else 2 ^ 32 - 256 + c.toNat

/-- `table[(unsigned)c]`. -/
def lookUp (table : Char → Bool) (c : Char) : Option Bool :=
  if unsignedOf c < 256 then some (table c) else none

def isDigit (c : Char) : Bool := decide ('0' ≤ c) && decide (c ≤ '9')

/-- `id_table`. -/
def idTable (c : Char) : Bool :=
  decide ('a' ≤ c) && decide (c ≤ 'z') || decide ('A' ≤ c) && decide (c ≤ 'Z') || isDigit c || c == '_'

/-- `hex_table`. -/
def hexTable (c : Char) : Bool :=
  isDigit c || decide ('a' ≤ c) && decide (c ≤ 'f') || decide ('A' ≤ c) && decide (c ≤ 'F') || c == 'x'

/-- `op_table`. -/
def opTable (c : Char) : Bool := ['=', ':', '/', '+', '-'].contains c

/-- The loop over a table: what has been passed, and what is left. -/
def span (table : Char → Bool) (inTable : Bool) : Text → Option (Text × Text)
  | [] => some ([], [])
  | c :: t =>
    (lookUp table c).bind fun found =>
      if found = inTable then (span table inTable t).map fun (s, rest) => (c :: s, rest)
      else some ([], c :: t)

/-- `SCAN_BODY`: what has been found, and the position behind it. -/
def scanBody (table : Char → Bool) (inTable : Bool) (t : Text) : Option (Text × Text) :=
  span table inTable (skipBlanks t)

/-- `scan_table`. -/
def scanTable (table : Char → Bool) (t : Text) : Option (Text × Text) := scanBody table true t

/-- `scan_not_table`. -/
def scanNotTable (table : Char → Bool) (t : Text) : Option (Text × Text) := scanBody table false t

/-- `SCAN_BODY2`. What is too long is not copied, and the position stays. -/
def scanBody2 (table : Char → Bool) (inTable : Bool) (reslen : Nat) (t : Text) :
    Option (Option Text × Text) :=
  (scanBody table inTable t).map fun (s, rest) => if reslen ≤ s.length then (none, t) else (some s, rest)

/-- `scan_table_copy`. -/
def scanTableCopy (table : Char → Bool) (reslen : Nat) (t : Text) : Option (Option Text × Text) :=
  scanBody2 table true reslen t

/-- `scan_not_table_copy`. -/
def scanNotTableCopy (table : Char → Bool) (reslen : Nat) (t : Text) : Option (Option Text × Text) :=
  scanBody2 table false reslen t

/-! ## Operators and connectors -/

/-- `scan_op`. The first character is passed, whatever it is. -/
def scanOp : Text → Option (Char × Text)
  | [] => none
  | c :: t =>
    (lookUp opTable c).map fun known =>
      let res := if known then c else '?'
      if peek t = '=' then (res, t.drop 1)
      else if res ≠ '=' then ('?', t)
      else (res, t)

/-- `struct conn_info`. -/
structure ConnInfo where
  addr : Nat
  index : Int
  name : Text
  deriving DecidableEq, Repr

/-- The digits in front. -/
def decDigits (t : Text) : Text := t.takeWhile isDigit

def decValue (t : Text) : Nat := (decDigits t).foldl (fun acc c => 10 * acc + (c.toNat - 48)) 0

/-- What `strtol` gives for a number, as an `int`: it stops at the ends of a `long`, and of that the
lowest 32 bits are kept. -/
def toInt (i : Int) : Int := (max (-2 ^ 63) (min i (2 ^ 63 - 1))).bmod (2 ^ 32)

/-- `sscanf` with `%d`. -/
def scanInt (t : Text) : Option Int :=
  match t.dropWhile isSpace with
  | '-' :: t => if decDigits t = [] then none else some (toInt (-(decValue t : Int)))
  | '+' :: t => if decDigits t = [] then none else some (toInt (decValue t))
  | t => if decDigits t = [] then none else some (toInt (decValue t))

/-- `while(**str && *(*str)++ != ']')`. -/
def skipIndex : Text → Text
  | [] => []
  | c :: t => if c = ']' then t else skipIndex t

/-- The end of `scan_connstr`. -/
def endConnstr (count : Nat) (conn : ConnInfo) (t : Text) : Bool × ConnInfo × Text :=
  let t := if peek t = ',' then t.drop 1 else t
  (!(t.isEmpty && decide (count = 0)), conn, t)

/-- `scan_connstr`. -/
def scanConnstr (conn : ConnInfo) (t : Text) : Option (Bool × ConnInfo × Text) :=
  (scanTableCopy idTable snameSize (skipBlanks t)).map fun (name, t) =>
    let conn := { conn with name := name.getD conn.name }
    let count := (name.getD []).length
    match t with
    | '[' :: t =>
      match scanInt t with
      | none => (false, conn, t)
      | some i => endConnstr count { conn with index := i } (skipIndex t)
    | t => endConnstr count { conn with index := 0 } t

/-- `scan_connstraddr`. -/
def scanConnstraddr (conn : ConnInfo) (t : Text) : Option (Bool × ConnInfo × Text) :=
  let t := skipBlanks t
  let conn := { conn with addr := (scanHex t).getD conn.addr }
  (scanTable hexTable t).bind fun (_, t) =>
    match t with
    | ':' :: t => scanConnstr conn t
    | t => some (false, conn, t)

end Athomux.Strat

/-!
## The interpreter of `adapt_strat`

`$trans` with `direct_write`, one scanner or one call of the strategy at a time. The event is the success
of the call, or that there is memory for the parameter.
-/

open Lib

namespace Athomux.Strat

open NetConnect (Text)
open StratText (nameSize)

/-- `strat_keywords`. -/
def stratKeywords : List Text := ["brick".toList, "input".toList, "output".toList, "connect".toList]

def bParamKeyword : Text := "b_param".toList

/-- Where the interpreter is. -/
inductive Pc
  | top
  | brickOp
  | brickName (op : Char)
  | brickDo (op : Char)
  | bParam
  | bParamOp
  | instbrick (param : Text)
  | deinstbrick
  | connOp
  | connStr (op : Char)
  | connDo (op : Char)
  | connectStr
  | connectOp
  | disconnect
  | connecting
  | connectDo
  | skip
  | done (success : Bool)
  deriving DecidableEq, Repr

/-- What is called on the input `strat`, or on the brick itself. -/
inductive Call
  | instbrick (name param : Text)
  | deinstbrick (name : Text)
  | instconn (conn1 : ConnInfo) (constr destr : Bool)
  | deinstconn (conn1 : ConnInfo)
  | connect (conn1 conn2 : ConnInfo)
  | disconnect (conn1 : ConnInfo)
  deriving DecidableEq, Repr

structure Interp where
  pc : Pc
  buf : Text
  name : Text
  conn1 : ConnInfo
  conn2 : ConnInfo
  calls : List Call
  deriving DecidableEq, Repr

namespace Interp

variable (s : Interp)

/-- `$trans` at an address. -/
def start (logAddr : Nat) (name buf : Text) : Interp := ⟨.top, buf, name, ⟨logAddr, 0, []⟩, ⟨0, 0, []⟩, []⟩

/-- On to `pc`, at a position. -/
def goto (pc : Pc) (buf : Text) : Interp := { s with pc, buf }

/-- A call, and on to `pc` when it succeeds. -/
def callThen (c : Call) (success : Bool) (pc : Pc) : Interp :=
  { s with calls := s.calls ++ [c], pc := if success then pc else .done false }

/-- One scanner or one call. -/
def step (s : Interp) (answer : Bool) : Option Interp :=
  match s.pc with
  | .top =>
    match scanMulti stratKeywords s.buf with
    | (some 0, t) => some (s.goto .brickOp t)
    | (some 1, t) => some (s.goto .connOp t)
    | (some 2, t) => some (s.goto .connOp t)
    | (some _, t) => some (s.goto .connectStr t)
    | (none, t) => some (s.goto (.done true) t)
  | .brickOp => (scanOp s.buf).map fun (op, t) => s.goto (.brickName op) t
  | .brickName op =>
    (scanTableCopy idTable nameSize s.buf).map fun (name, t) =>
      { s.goto (.brickDo op) t with name := name.getD s.name }
  | .brickDo op =>
    if op = ':' then some (s.goto .bParam (skipLine s.buf))
    else if op = '/' then some (s.goto .deinstbrick s.buf)
    else some (s.goto .top (skipLine s.buf))
  | .bParam =>
    match scanSingle bParamKeyword s.buf with
    | some t => some (s.goto .bParamOp t)
    | none => some (s.goto (.instbrick []) s.buf)
  | .bParamOp =>
    (scanOp (skipBlanks s.buf)).map fun (op, t) =>
      if op = ':' then
        let tmp := skipBlanks t
        if answer then s.goto (.instbrick (tmp.takeWhile (· ≠ '\n'))) (skipLine tmp)
        else s.goto (.done false) (skipLine tmp)
      else s.goto (.instbrick []) t
  | .instbrick param => some (s.callThen (.instbrick s.name param) answer .top)
  | .deinstbrick => some (s.callThen (.deinstbrick s.name) answer (.done true))
  | .connOp => (scanOp s.buf).map fun (op, t) => s.goto (.connStr op) t
  | .connStr op =>
    (scanConnstr s.conn1 s.buf).map fun (ok, conn1, t) =>
      { s.goto (if ok then .connDo op else .done false) t with conn1 }
  | .connDo op =>
    if op = ':' ∨ op = '+' ∨ op = '-' ∨ op = '^' then
      some (s.callThen (.instconn s.conn1 (op == '+' || op == '^') (op == '-' || op == '^')) answer .skip)
    else if op = '/' then some (s.callThen (.deinstconn s.conn1) answer .skip)
    else some (s.goto .skip s.buf)
  | .connectStr =>
    (scanConnstr s.conn1 s.buf).map fun (ok, conn1, t) =>
      { s.goto (if ok then .connectOp else .done false) t with conn1 }
  | .connectOp =>
    (scanOp s.buf).map fun (op, t) =>
      s.goto (if op = '/' then .disconnect else if op = ':' then .connecting else .skip) t
  | .disconnect => some (s.callThen (.disconnect s.conn1) answer .skip)
  | .connecting =>
    (scanConnstraddr s.conn2 s.buf).map fun (ok, conn2, t) =>
      { s.goto (if ok then .connectDo else .skip) t with conn2 }
  | .connectDo => some (s.callThen (.connect s.conn1 s.conn2) answer .connecting)
  | .skip => some (s.goto .top (skipLine s.buf))
  | .done _ => none

end Interp

end Athomux.Strat
