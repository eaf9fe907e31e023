import Athomux.BinStrat.Spec

/-!
# The layout that a text asks for

A text alone says how far behind the start of its record a conversion stores,
and where the conversion stands when it accepts the text. The size of the buffer
plays no part here.
-/

namespace Athomux.BinStrat

/-- Where an accepted text leaves a conversion: `*binbuf` from the start of the record on, the
bytes in front of it that were never charged to `*binbuf_size`, and the rest of the text. -/
structure Landing where
  off : Nat
  extra : Nat
  rest : Text
  deriving DecidableEq

/-- The end of the farthest store from the start of the record on, 0 when there is none, and where
the conversion lands when the text is accepted. -/
structure Shape where
  reach : Nat
  next : Option Landing
  deriving DecidableEq

namespace Shape

def andThen (s : Shape) (f : Landing → Shape) : Shape :=
  match s.next with
  | none => s
  | some l =>
    ⟨max s.reach (f l).reach, (f l).next.map fun l' => { l' with extra := l.extra + l'.extra }⟩

def addExtra (n : Nat) (s : Shape) : Shape :=
  ⟨s.reach, s.next.map fun l => { l with extra := l.extra + n }⟩

/-- The shape of a record that starts at `off`. -/
def shift (off : Nat) (s : Shape) : Shape :=
  ⟨if s.reach = 0 then 0 else off + s.reach, s.next.map fun l => { l with off := off + l.off }⟩

/-- A scan of the text. -/
def scan (off : Nat) (text : Option Text) : Shape := ⟨0, text.map fun t => ⟨off, 0, t⟩⟩

/-- A store up to `reach`. -/
def field (reach off : Nat) (text : Text) : Shape := ⟨reach, some ⟨off, 0, text⟩⟩

/-- A word with its terminator. -/
def word (off : Nat) (text : Text) : Shape :=
  match text.takeWhile idTable with
  | [] => ⟨0, none⟩
  | w => field (off + w.length + 1) (off + w.length + 1) (text.dropWhile idTable)

/-- A string with its terminator. -/
def string (off : Nat) (text : Text) : Shape :=
  let n := (text.takeWhile printable).length
  field (off + n + 1) (off + n + 1) (text.dropWhile printable)

/-- Words that are all written at `off`. -/
def composed (off : Nat) : Nat → Text → Shape
  | 0, text => word off text
  | fuel + 1, text =>
    (word off text).andThen fun l =>
      if l.rest.headD '\x00' = '.' then composed off fuel l.rest.tail
      else field 0 l.off l.rest

/-- What is left of a shape when the size counts exactly the bytes up to `room`: a word that does not
fit is given up in time. -/
def clipTo (room : Nat) (s : Shape) : Shape := if s.reach ≤ room then s else ⟨0, none⟩

/-- Records one behind the other. -/
def list (record : Text → Shape) : Nat → Nat → Text → Shape
  | 0, off, text => field 0 off text
  | fuel + 1, off, text =>
    match ((record text).shift off).next with
    | none => field ((record text).shift off).reach off text
    | some _ => ((record text).shift off).andThen fun l => list record fuel l.off l.rest

end Shape

open Shape

def attrShape (text : Text) : Shape :=
  ((scan sizeofAttrRec (skipWord (skipWhitespace text) "attr".toList)).andThen fun l =>
    (field 16 l.off (skipWhitespace l.rest)).andThen fun l =>
    (composed l.off l.rest.length l.rest).andThen fun l =>
    (scan l.off ((convertOp l.rest).map Prod.snd)).andThen fun l =>
    (field 24 l.off l.rest).andThen fun l =>
    (string l.off l.rest).andThen fun l =>
    (scan l.off (skipEndOfLine l.rest)).andThen fun l =>
    field 8 l.off l.rest).addExtra sizeofAttrRec

/-- The text behind an expected character. -/
def behind (c : Char) (text : Text) : Option Text :=
  if text.head? = some c then some text.tail else none

def targetShape (text : Text) : Shape :=
  ((field 16 sizeofConnTargetRec text).andThen fun l =>
    (scan l.off ((convertLogaddr l.rest).map Prod.snd)).andThen fun l =>
    (scan l.off (behind ':' l.rest)).andThen fun l =>
    (field 24 l.off l.rest).andThen fun l =>
    (word l.off l.rest).andThen fun l =>
    field 8 l.off l.rest).addExtra sizeofConnTargetRec

/-- The targets behind a first one. -/
def moreTargetsShape (isInput : Bool) : Nat → Nat → Text → Shape
  | 0, off, text => field 0 off text
  | fuel + 1, off, text =>
    if text.headD '\x00' = ',' then
      if isInput then ⟨0, none⟩
      else
        ((targetShape text.tail).shift off).andThen fun l => moreTargetsShape isInput fuel l.off l.rest
    else field 0 off text

def targetsShape (isInput : Bool) (off : Nat) (text : Text) : Shape :=
  match ((targetShape text).shift off).next with
  | none => field ((targetShape text).shift off).reach off text
  | some _ => ((targetShape text).shift off).andThen fun l =>
      moreTargetsShape isInput l.rest.length l.off l.rest

/-- The keyword of a connector: whether it is an input, and the rest. -/
def kindScan (text : Text) : Option (Bool × Text) :=
  let text := skipWhitespace text
  let inner := if text.headD '\x00' = '(' then text.tail else text
  let kind := match skipWord inner "output".toList with
    | some rest => some (false, rest)
    | none => (skipWord inner "input".toList).map (true, ·)
  kind.bind fun k =>
    if text.headD '\x00' = '(' then (behind ')' k.2).map (k.1, ·) else some k

def afterParam (param text : Text) : Text :=
  match skipWord text param with
  | none => text
  | some rest => skipRestOfLine rest

def connectShape (isInput : Bool) (off : Nat) (text : Text) : Shape :=
  match skipWord text "connect".toList with
  | none => field 0 off text
  | some rest =>
    (scan off (skipAnyWord (skipWhitespace rest))).andThen fun l =>
    (scan l.off ((convertOp l.rest).map Prod.snd)).andThen fun l =>
    targetsShape isInput l.off (skipWhitespace l.rest)

/-- A connector. `clip` is the view that the conversion has of the room for the name. -/
def connShape (clip : Shape → Shape) (text : Text) : Shape :=
  match kindScan text with
  | none => ⟨10, none⟩
  | some (isInput, rest) =>
    (field 10 sizeofConnRec rest).andThen fun l =>
    (scan l.off ((convertOp (skipWhitespace l.rest)).map Prod.snd)).andThen fun l =>
    (field 24 l.off l.rest).andThen fun l =>
    (clip (composed l.off l.rest.length l.rest)).andThen fun l =>
    (field 32 l.off (afterParam "c_param".toList ((skipStr l.rest " \x7b ".toList).getD l.rest))).andThen
      fun l =>
    (list attrShape (l.rest.length + 1) l.off l.rest).andThen fun l =>
    (field 40 l.off (skipWhitespace l.rest)).andThen fun l =>
    (connectShape isInput l.off l.rest).andThen fun l =>
    (scan l.off (skipStr l.rest " \x7d ".toList)).andThen fun l =>
    field 8 l.off l.rest

def markScan (word text : Text) : Option Text :=
  let text := skipWhitespace text
  if text.headD '\x00' = '(' then (skipWord text.tail word).bind (behind ')') else skipWord text word

def brickShape (text : Text) : Shape :=
  ((field 2 sizeofBrickRec text).andThen fun l =>
    (scan l.off (markScan "brick".toList l.rest)).andThen fun l =>
    (scan l.off ((convertOp (skipWhitespace l.rest)).map Prod.snd)).andThen fun l =>
    (field 16 l.off l.rest).andThen fun l =>
    (word l.off l.rest).andThen fun l =>
    (scan l.off (skipStr l.rest " \x7b ".toList)).andThen fun l =>
    (field 24 l.off (afterParam "b_param".toList l.rest)).andThen fun l =>
    (list attrShape (l.rest.length + 1) l.off l.rest).andThen fun l =>
    (field 32 l.off l.rest).andThen fun l =>
    (list (connShape id) (l.rest.length + 1) l.off l.rest).andThen fun l =>
    scan l.off (skipStr l.rest " \x7d ".toList)).addExtra sizeofBrickRec

end Athomux.BinStrat
