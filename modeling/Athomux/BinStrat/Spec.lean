import Athomux.Args
import Mathlib.Data.List.Basic

/-!
# `binstrat`: a brick as text and as a record

A brick read from a strategy nest is text. `convert_brick` writes it into a
buffer as a `struct brick_rec` with lists of attributes, connectors and targets
behind it. A record is nested here where the source follows a pointer into the
buffer. What a conversion stores into the buffer is listed beside its result.
-/

namespace Athomux.BinStrat

/-- A C string from a place in it on, up to its terminator. -/
abbrev Text := List Char

/-! ## The tables of `strat.c`

A character from 128 on is negative as a `char`, and what is read then lies in front of the array.
The tables have 0 for it here, and each scanner says which characters it looks up. -/

def idTable (c : Char) : Bool := c.isAlphanum || c == '_'

def wsTable (c : Char) : Bool := c == ' ' || c == '\t' || c == '\n'

def blTable (c : Char) : Bool := c == ' ' || c == '\t'

/-! ## The records -/

/-- `enum strat_action_t`. -/
inductive StratAction
  | read
  | create
  | destroy
  | init
  | shutdown
  | reinit
  deriving DecidableEq, Repr

def StratAction.code : StratAction → BitVec 16
  | .read => 0
  | .create => 1
  | .destroy => 2
  | .init => 3
  | .shutdown => 4
  | .reinit => 5

structure AttrRec where
  name : Text
  value : Text
  deriving DecidableEq

structure ConnTargetRec where
  brickAddr : BitVec 64
  name : Text
  deriving DecidableEq

structure ConnRec where
  flags : BitVec 16
  name : Text
  attr : List AttrRec
  target : List ConnTargetRec
  deriving DecidableEq

structure BrickRec where
  flags : BitVec 16
  name : Text
  attr : List AttrRec
  conn : List ConnRec
  deriving DecidableEq

def maskBrickActive : BitVec 16 := 0x08

def maskConnType : BitVec 16 := 0x08

def maskConnActive : BitVec 16 := 0x10

def ConnRec.isInput (conn : ConnRec) : Bool := conn.flags &&& 0x08 == 0

def ConnRec.isActive (conn : ConnRec) : Bool := conn.flags &&& 0x10 != 0

/-! ## Scanning the text -/

/-- The characters that `while (table[*text]) text++;` looks up. The terminator is no
character here, and always inside. -/
def runLooks (table : Char → Bool) : Text → List Char
  | [] => []
  | c :: text => c :: if table c then runLooks table text else []

def skipWhitespace (text : Text) : Text := text.dropWhile wsTable

def skipEndOfLine (text : Text) : Option Text :=
  match text.dropWhile blTable with
  | '\n' :: rest => some ('\n' :: rest)
  | _ => none

def skipRestOfLine : Text → Text
  | [] => []
  | c :: text =>
    if c == '\x00' then c :: text else if c == '\n' then text else skipRestOfLine text

def opAction : Char → Option StratAction
  | '=' => some .read
  | ':' => some .create
  | '/' => some .destroy
  | '+' => some .init
  | '-' => some .shutdown
  | '^' => some .reinit
  | _ => none

def convertOp : Text → Option (StratAction × Text)
  | [] => none
  | c :: text =>
    match opAction c with
    | none => none
    | some a =>
      match text with
      | '=' :: rest => some (a, rest)
      | _ => if a = .read then some (a, text) else none

def opLooks (text : Text) : List Char := text.take 1

/-- A blank in the pattern stands for any number of white characters. -/
def skipStr : Text → Text → Option Text
  | text, [] => some text
  | text, ' ' :: pat => skipStr (skipWhitespace text) pat
  | [], _ :: _ => none
  | t :: text, c :: pat => if c == t then skipStr text pat else none

def strLooks : Text → Text → List Char
  | _, [] => []
  | text, ' ' :: pat => runLooks wsTable text ++ strLooks (skipWhitespace text) pat
  | [], _ :: _ => []
  | t :: text, c :: pat => if c == t then strLooks text pat else []

/-- `skip_word` with a word to match. -/
def skipWord : Text → Text → Option Text
  | t :: text, m :: word => if idTable t && t == m then skipWord text word else none
  | [], _ :: _ => none
  | t :: text, [] => if idTable t then none else some (t :: text)
  | [], [] => some []

def wordLooks : Text → Text → List Char
  | t :: text, m :: word => t :: if idTable t && t == m then wordLooks text word else []
  | text, _ => text.take 1

/-- `skip_word` with `NULL`. -/
def skipAnyWord : Text → Option Text
  | [] => none
  | t :: text => if idTable t then some (text.dropWhile idTable) else none

/-- `*text - hexsub[*text]`. -/
def hexDigit (c : Char) : Option Nat :=
  if '0' ≤ c ∧ c ≤ '9' then some (c.toNat - 48)
  else if 'a' ≤ c ∧ c ≤ 'f' then some (c.toNat - 87)
  else if 'A' ≤ c ∧ c ≤ 'F' then some (c.toNat - 55)
  else none

def logaddrLoop (laddr : BitVec 64) : Text → Option (BitVec 64 × Text)
  | [] => some (laddr, [])
  | c :: text =>
    match hexDigit c with
    | none => some (laddr, c :: text)
    | some d =>
      if 2 ^ 63 ≤ laddr.toNat then none else logaddrLoop (laddr * 0x10 + BitVec.ofNat 64 d) text

/-- The characters that the loop looks up in `hexsub`. -/
def loopLooks (laddr : BitVec 64) : Text → List Char
  | [] => []
  | c :: text => c ::
    match hexDigit c with
    | none => []
    | some d =>
      if 2 ^ 63 ≤ laddr.toNat then [] else loopLooks (laddr * 0x10 + BitVec.ofNat 64 d) text

/-- What `convert_logaddr` does to the text before it looks for a digit. -/
def skipHexPrefix : Text → Text
  | '0' :: 'x' :: text => text
  | '0' :: 'X' :: text => text
  | text => text

def convertLogaddr (text : Text) : Option (BitVec 64 × Text) :=
  match skipHexPrefix text with
  | [] => none
  | c :: text => if (hexDigit c).isNone then none else logaddrLoop 0 (c :: text)

def logaddrLooks (text : Text) : List Char := loopLooks 0 (skipHexPrefix text)

/-! ## Conversions into the buffer -/

/-- `*textbuf`, `*binbuf` and `*binbuf_size`. -/
structure Cursor where
  text : Text
  bin : Nat
  size : Nat
  deriving DecidableEq

/-- `len` bytes stored from `addr` on. -/
structure Store where
  addr : Nat
  len : Nat
  deriving DecidableEq, Repr

/-- What a `convert_` function leaves: the value and the cursors it assigns when it
returns `TRUE`, `none` for `FALSE`, and all its stores. The cursors in its body are
copies, and a `FALSE` leaves the caller's as they are. `looks` has the characters that
are looked up in a table. -/
structure Conv (α : Type) where
  run : Cursor → Option (α × Cursor) × List Store
  looks : Cursor → List Char

namespace Conv

variable {α β : Type}

protected def pure (a : α) : Conv α := ⟨fun c => (some (a, c), []), fun _ => []⟩

protected def bind (m : Conv α) (f : α → Conv β) : Conv β where
  run c :=
    match m.run c with
    | (none, stores) => (none, stores)
    | (some (a, c'), stores) => (((f a).run c').1, stores ++ ((f a).run c').2)
  looks c := m.looks c ++ ((m.run c).1.elim [] fun r => (f r.1).looks r.2)

instance : Monad Conv where
  pure := Conv.pure
  bind := Conv.bind

/-- `return FALSE`. -/
def fail : Conv α := ⟨fun _ => (none, []), fun _ => []⟩

/-- A store of a field. -/
def store (addr len : Nat) : Conv Unit := ⟨fun c => (some ((), c), [⟨addr, len⟩]), fun _ => []⟩

/-- A function that moves the text cursor only, and the characters it looks up. -/
def onText (f : Text → Option (α × Text)) (looks : Text → List Char) : Conv α where
  run c := ((f c.text).map fun r => (r.1, { c with text := r.2 }), [])
  looks c := looks c.text

/-- A scan whose failure makes the caller fail. -/
def expect (f : Text → Option Text) (looks : Text → List Char) : Conv Unit :=
  onText (fun t => (f t).map ((), ·)) looks

/-- A scan that may find nothing. -/
def accept (f : Text → Option Text) (looks : Text → List Char) : Conv Bool :=
  onText (fun t => some (match f t with | none => (false, t) | some t' => (true, t'))) looks

/-- A scan that always succeeds. -/
def scan (f : Text → Text) (looks : Text → List Char) : Conv Unit :=
  onText (fun t => some ((), f t)) looks

/-- For what is not looked up in a table. -/
def noLooks (_ : Text) : List Char := []

/-- `if (*text != ch) return FALSE; text++;` -/
def expectChar (ch : Char) : Conv Unit :=
  expect (fun t => if t.head? = some ch then some t.tail else none) noLooks

/-- `*text`, with 0 for the end. -/
def peek : Conv Char := ⟨fun c => (some (c.text.headD '\x00', c), []), fun _ => []⟩

/-- `table[*text]` -/
def lookUp : Conv Char := ⟨peek.run, fun c => c.text.take 1⟩

/-- `bin`. -/
def here : Conv Nat := ⟨fun c => (some (c.bin, c), []), fun _ => []⟩

/-- The cursors as they are. -/
def cursors : Conv Cursor := ⟨fun c => (some (c, c), []), fun _ => []⟩

/-- `bin = *binbuf; bin_size_remainder = *binbuf_size;` -/
def resetBin (bin size : Nat) : Conv Unit := ⟨fun c =>
  (some ((), { c with bin := bin, size := size }), []), fun _ => []⟩

/-- The room for a record before what is stored behind it: `bin = *binbuf + n`. The size
is left alone. -/
def skipBin (n : Nat) : Conv Unit :=
  ⟨fun c => (some ((), { c with bin := c.bin + n }), []), fun _ => []⟩

/-- `bin_size - n`, in the width of a `size_t`. -/
def chargeSize (n : Nat) : Conv Unit :=
  ⟨fun c => (some ((), { c with size := sub64 c.size n }), []), fun _ => []⟩

/-- A call in a condition: on `FALSE` the cursors are as before. -/
def attempt (m : Conv α) : Conv (Option α) where
  run c :=
    match m.run c with
    | (none, stores) => (some (none, c), stores)
    | (some (a, c'), stores) => (some (some a, c'), stores)
  looks := m.looks

end Conv

open Conv

/-- The loop of `convert_word`. -/
def wordLoop : Text → Nat → Nat → Option (Text × Cursor) × List Store
  | [], bin, size => (some ([], ⟨[], bin, size⟩), [])
  | t :: text, bin, size =>
    if idTable t then
      if size = 0 then (none, [])
      else
        let r := wordLoop text (bin + 1) (size - 1)
        (r.1.map fun w => (t :: w.1, w.2), ⟨bin, 1⟩ :: r.2)
    else (some ([], ⟨t :: text, bin, size⟩), [])

/-- The characters that the loop of `convert_word` looks up. -/
def wordLoopLooks : Text → Nat → List Char
  | [], _ => []
  | t :: text, size => t :: if idTable t ∧ size ≠ 0 then wordLoopLooks text (size - 1) else []

def readWord : Conv Text :=
  ⟨fun c => wordLoop c.text c.bin c.size, fun c => wordLoopLooks c.text c.size⟩

/-- `if (bin_size-- == 0) return FALSE; *bin++ = '\0';` -/
def putTerminator : Conv Unit := ⟨fun c =>
  if c.size = 0 then (none, [])
  else (some ((), { c with bin := c.bin + 1, size := c.size - 1 }), [⟨c.bin, 1⟩]), fun _ => []⟩

def convertWord : Conv Text := do
  if !idTable (← lookUp) then fail
  let word ← readWord
  putTerminator
  return word

/-- `**textbuf > ' '` -/
def printable (c : Char) : Bool := 0x20 < c.toNat && c.toNat < 0x80

/-- The loop of `convert_string`. -/
def stringLoop : Text → Nat → Nat → Option (Text × Cursor) × List Store
  | [], bin, size => (some ([], ⟨[], bin, size⟩), [])
  | t :: text, bin, size =>
    if printable t then
      if size ≤ 1 then (none, [])
      else
        let r := stringLoop text (bin + 1) (size - 1)
        (r.1.map fun w => (t :: w.1, w.2), ⟨bin, 1⟩ :: r.2)
    else (some ([], ⟨t :: text, bin, size⟩), [])

def readString : Conv Text := ⟨fun c => stringLoop c.text c.bin c.size, fun _ => []⟩

/-- The terminator is stored without a look at the size. -/
def convertString : Conv Text := do
  let value ← readString
  store (← here) 1
  skipBin 1
  chargeSize 1
  return value

/-- Every word of the identifier is written over the one before it. -/
def composedLoop (bin size : Nat) : Nat → Text → Conv Text
  | 0, word => return word
  | fuel + 1, word => do
    if (← peek) == '.' then
      scan List.tail noLooks
      resetBin bin size
      let word ← convertWord
      composedLoop bin size fuel word
    else return word

def convertComposedIdentifier : Conv Text := do
  let c ← cursors
  let word ← convertWord
  composedLoop c.bin c.size c.text.length word

def sizeofAttrRec : Nat := 24

def sizeofConnTargetRec : Nat := 24

def sizeofConnRec : Nat := 40

def sizeofBrickRec : Nat := 32

def convertAttr : Conv AttrRec := do
  let attr ← here
  skipBin sizeofAttrRec
  scan skipWhitespace (runLooks wsTable)
  expect (skipWord · "attr".toList) (wordLooks · "attr".toList)
  scan skipWhitespace (runLooks wsTable)
  store (attr + 8) 8
  let name ← convertComposedIdentifier
  let _ ← onText convertOp opLooks
  store (attr + 16) 8
  let value ← convertString
  expect skipEndOfLine (runLooks blTable)
  store attr 8
  return ⟨name, value⟩

def convertConnTarget : Conv ConnTargetRec := do
  let target ← here
  skipBin sizeofConnTargetRec
  store (target + 8) 8
  let brickAddr ← onText convertLogaddr logaddrLooks
  expectChar ':'
  store (target + 16) 8
  let name ← convertWord
  store target 8
  return ⟨brickAddr, name⟩

/-- `while (convert(&text, &bin, &bin_size))`: the records and where they lie. -/
def whileConvert {α : Type} (m : Conv α) : Nat → Conv (List (Nat × α))
  | 0 => return []
  | fuel + 1 => do
    let place ← here
    match ← attempt m with
    | none => return []
    | some a => return (place, a) :: (← whileConvert m fuel)

/-- A list of records behind the field `head`: the field, the records, and the last record's
`NULL`, or `NULL` in the field when there is none. -/
def convertList {α : Type} (m : Conv α) (head : Nat) : Conv (List α) := do
  store head 8
  let recs ← whileConvert m ((← cursors).text.length + 1)
  match recs.getLast? with
  | none => store head 8
  | some r => store r.1 8
  return recs.map Prod.snd

/-- The targets after the first one. Only an output may have them. -/
def moreTargets (isInput : Bool) : Nat → Conv (List (Nat × ConnTargetRec))
  | 0 => return []
  | fuel + 1 => do
    if (← peek) == ',' then
      if isInput then fail
      scan List.tail noLooks
      let place ← here
      let target ← convertConnTarget
      return (place, target) :: (← moreTargets isInput fuel)
    else return []

/-- The rest of a `connect` line behind its operator, and the field for the targets. -/
def convertTargets (isInput : Bool) (head : Nat) : Conv (List ConnTargetRec) := do
  store head 8
  let first ← here
  match ← attempt convertConnTarget with
  | none =>
    store head 8
    return []
  | some target => do
    let more ← moreTargets isInput (← cursors).text.length
    store (((first, target) :: more).getLast (List.cons_ne_nil _ _)).1 8
    return target :: more.map Prod.snd

/-- `(` in front of something that is not initialized, and the flags then. -/
def openMark (flagsAt : Nat) (mask : BitVec 16) : Conv (BitVec 16) := do
  store flagsAt 2
  scan skipWhitespace (runLooks wsTable)
  if (← peek) == '(' then
    store flagsAt 2
    scan List.tail noLooks
    return mask &&& ~~~mask
  else return mask

/-- The `)` that belongs to it. -/
def closeMark (flags mask : BitVec 16) : Conv Unit :=
  if flags &&& mask == 0 then expectChar ')' else return ()

/-- The keyword of a connector, in parentheses or not. -/
def connKind (conn : Nat) : Conv (BitVec 16) := do
  let flags ← openMark (conn + 8) maskConnActive
  if ← accept (skipWord · "output".toList) (wordLooks · "output".toList) then
    store (conn + 8) 2
    closeMark (flags ||| maskConnType) maskConnActive
    return flags ||| maskConnType
  else
    expect (skipWord · "input".toList) (wordLooks · "input".toList)
    closeMark flags maskConnActive
    return flags

/-- The line with the connection, when there is one. -/
def connConnect (conn : Nat) (flags : BitVec 16) : Conv (BitVec 16 × List ConnTargetRec) := do
  store (conn + 32) 8
  if ← accept (skipWord · "connect".toList) (wordLooks · "connect".toList) then
    scan skipWhitespace (runLooks wsTable)
    expect skipAnyWord (runLooks idTable)
    let action ← onText convertOp opLooks
    let flags := flags ||| action.code <<< 4
    store (conn + 8) 2
    scan skipWhitespace (runLooks wsTable)
    let target ← convertTargets (flags &&& 0x08 == 0) (conn + 32)
    return (flags, target)
  else return (flags, [])

def convertConn : Conv ConnRec := do
  let conn ← here
  skipBin sizeofConnRec
  chargeSize sizeofConnRec
  let flags ← connKind conn
  scan skipWhitespace (runLooks wsTable)
  let action ← onText convertOp opLooks
  let flags := flags ||| action.code
  store (conn + 8) 2
  store (conn + 16) 8
  let name ← convertComposedIdentifier
  let _ ← accept (skipStr · " \x7b ".toList) (strLooks · " \x7b ".toList)
  if ← accept (skipWord · "c_param".toList) (wordLooks · "c_param".toList) then scan skipRestOfLine noLooks
  let attr ← convertList convertAttr (conn + 24)
  scan skipWhitespace (runLooks wsTable)
  let (flags, target) ← connConnect conn flags
  expect (skipStr · " \x7d ".toList) (strLooks · " \x7d ".toList)
  store conn 8
  return ⟨flags, name, attr, target⟩

def convertBrick : Conv BrickRec := do
  let brick ← here
  skipBin sizeofBrickRec
  let flags ← openMark brick maskBrickActive
  expect (skipWord · "brick".toList) (wordLooks · "brick".toList)
  closeMark flags maskBrickActive
  scan skipWhitespace (runLooks wsTable)
  let action ← onText convertOp opLooks
  let flags := flags ||| action.code
  store brick 2
  store (brick + 8) 8
  let name ← convertWord
  expect (skipStr · " \x7b ".toList) (strLooks · " \x7b ".toList)
  if ← accept (skipWord · "b_param".toList) (wordLooks · "b_param".toList) then scan skipRestOfLine noLooks
  let attr ← convertList convertAttr (brick + 16)
  let conn ← convertList convertConn (brick + 24)
  expect (skipStr · " \x7d ".toList) (strLooks · " \x7d ".toList)
  return ⟨flags, name, attr, conn⟩

/-- Every table look-up is inside its table. Nothing is known of what is read outside. -/
def Conv.Tabled {α : Type} (m : Conv α) (c : Cursor) : Prop := ∀ ch ∈ m.looks c, ch.toNat < 0x80

instance {α : Type} (m : Conv α) (c : Cursor) : Decidable (m.Tabled c) :=
  List.decidableBAll _ _

/-! ## The record as text -/

/-- What stands in a format string, with the argument of `%s` or `%L`. -/
inductive Item
  | lit (s : Text)
  | str (s : Text)
  | addr (a : BitVec 64)

/-- `snprintf` with `%llX`. -/
def hexUpper (a : BitVec 64) : Text := (Nat.toDigits 16 a.toNat).map Char.toUpper

/-- The loops of `athvsnprintf` over one item: what it writes and the `bufsize` left. -/
def putItem (bufsize : Int) : Item → Text × Int
  | .lit s => (s.take bufsize.toNat, bufsize - (s.take bufsize.toNat).length)
  | .str s => putString bufsize s
  | .addr a =>
    -- the pointer moves over the terminator of a number that is cut short
    let written := ((hexUpper a).take (bufsize.toNat - 1) ++ ['\x00']).take (hexUpper a).length
    (written, bufsize - written.length)
where
  /-- `while (*s && paddr_plen-- > 0 && bufsize-- > 1)` -/
  putString (bufsize : Int) : Text → Text × Int
    | [] => ([], bufsize)
    | c :: s =>
      if 1 < bufsize then (c :: (putString (bufsize - 1) s).1, (putString (bufsize - 1) s).2)
      else ([], bufsize - 1)

/-- What `athvsnprintf` has written up to the place that it returns. -/
def putItems (bufsize : Int) : List Item → Text
  | [] => []
  | item :: items =>
    if 0 < bufsize then (putItem bufsize item).1 ++ putItems (putItem bufsize item).2 items else []

def athsnprintf (bufsize : Int) (items : List Item) : Text := putItems (bufsize - 1) items

/-- The text so far and `*textbuf_len`. -/
structure Printer where
  text : Text
  len : Int

def Printer.put (p : Printer) (items : List Item) : Printer :=
  ⟨p.text ++ athsnprintf p.len items, p.len - (athsnprintf p.len items).length⟩

/-- A piece that is stored as a whole or ends the conversion. -/
def Printer.putWhole (p : Printer) (s : Text) (need : Nat) : Option Printer :=
  if p.len < need then none else some ⟨p.text ++ s, p.len - need⟩

def brickAttrLine (brick : BrickRec) (attr : AttrRec) : List Item :=
  [.lit "attr ".toList, .str brick.name, .lit ".".toList, .str attr.name, .lit "=".toList,
    .str attr.value, .lit " \x7b\n".toList]

def connLine (conn : ConnRec) : List Item :=
  let kind := if conn.isInput then "input".toList else "output".toList
  if conn.isActive then
    [.lit "  ".toList, .str kind, .lit "==".toList, .str conn.name, .lit " \x7b\n".toList]
  else
    [.lit "  (".toList, .str kind, .lit ")==".toList, .str conn.name, .lit " \x7b\n".toList]

def connAttrLine (brick : BrickRec) (conn : ConnRec) (attr : AttrRec) : List Item :=
  [.lit "    attr ".toList, .str brick.name, .lit ".".toList, .str conn.name, .lit ".".toList,
    .str attr.name, .lit "=".toList, .str attr.value, .lit "\n".toList]

def firstTarget (conn : ConnRec) (target : ConnTargetRec) : List Item :=
  [.lit "    connect ".toList, .str conn.name, .lit "==".toList, .addr target.brickAddr,
    .lit ":".toList, .str target.name]

def nextTarget (target : ConnTargetRec) : List Item :=
  [.lit ",".toList, .addr target.brickAddr, .lit ":".toList, .str target.name]

def Printer.putConnect (p : Printer) (conn : ConnRec) : Option Printer :=
  match conn.target with
  | [] => some p
  | target :: more =>
    ((more.map nextTarget).foldl Printer.put (p.put (firstTarget conn target))).putWhole "\n".toList 1

def Printer.putConn (brick : BrickRec) (p : Printer) (conn : ConnRec) : Option Printer := do
  let p := (conn.attr.map (connAttrLine brick conn)).foldl Printer.put (p.put (connLine conn))
  (← p.putConnect conn).putWhole "  \x7d\n".toList 4

def brickToString (len : Int) (brick : BrickRec) : Option Text := do
  let p := Printer.put ⟨[], len⟩ [.lit "brick==".toList, .str brick.name, .lit " \x7b\n".toList]
  let p := (brick.attr.map (brickAttrLine brick)).foldl Printer.put p
  let p ← brick.conn.foldlM (Printer.putConn brick) p
  let p ← p.putWhole "\x7d\n".toList 3
  return p.text

end Athomux.BinStrat
