import Athomux.NetConnect.Params
import Athomux.Args

/-!
# Reading the text of a brick

The parser in `binfo` of `#strategy_netconnect`, `#strategy_nettransparent` and `#strategy_merge`.
A position is the text from there on. What is read does not depend on the bricks behind the
connections, so it is taken apart from the recursion.
-/

namespace Athomux.StratText

open NetConnect (Text)

/-- `strstr`. -/
def strstr (pat : Text) : Text → Option Text
  | [] => none
  | c :: s => if pat.isPrefixOf (c :: s) then some (c :: s) else strstr pat s

/-- `strncpy` of what is in front of `q`, into a field of `size` bytes. The difference is compared as
an unsigned number. -/
def copy (size : Nat) (p q : Text) : Text :=
  p.take (if q.length ≤ p.length then min (p.length - q.length) (size - 1) else size - 1)

def nameSize : Nat := 24

def snameSize : Nat := 8

def paramSize : Nat := 256

/-! ## Numbers -/

def hexValue (c : Char) : Option Nat :=
  if '0' ≤ c ∧ c ≤ '9' then some (c.toNat - 48)
  else if 'a' ≤ c ∧ c ≤ 'f' then some (c.toNat - 87)
  else if 'A' ≤ c ∧ c ≤ 'F' then some (c.toNat - 55)
  else none

/-- The digits in front, and their number. -/
def hexDigits (acc : Nat) : Text → Nat
  | [] => acc
  | c :: s =>
    match hexValue c with
    | some v => hexDigits (16 * acc + v) s
    | none => acc

def isSpace (c : Char) : Bool := c = ' ' ∨ (9 ≤ c.toNat ∧ c.toNat ≤ 13)

def hexNumber (s : Text) : Option Nat :=
  match s with
  | '0' :: 'x' :: s | '0' :: 'X' :: s => some (min (hexDigits 0 s) (addrSpace - 1))
  | c :: s => (hexValue c).map fun v => min (hexDigits v s) (addrSpace - 1)
  | [] => none

/-- `sscanf` with `%llx`. -/
def scanHex (s : Text) : Option Nat :=
  match s.dropWhile isSpace with
  | '-' :: s => (hexNumber s).map fun v => sub64 0 v
  | '+' :: s => hexNumber s
  | s => hexNumber s

/-! ## Parts of a text -/

/-- The name in front of the next brace. -/
def readName (size : Nat) (cur : Text) : Option (Text × Text) :=
  (strstr " \x7b".toList cur).map fun endpos => (copy size cur endpos, endpos.drop 2)

/-- The value behind the next equals sign. -/
def readValue (cur : Text) : Option (Text × Text) :=
  (strstr "=".toList cur).bind fun tmp =>
    (strstr "\n".toList (tmp.drop 1)).map fun endpos =>
      (copy paramSize (tmp.drop 1) endpos, endpos.drop 1)

structure BrickText where
  name : Text
  bparam : Text
  /-- `curpos` behind them. -/
  rest : Text
  deriving DecidableEq, Repr

def readBrickName (buf : Text) : Option (Text × Text) :=
  match strstr "brick=".toList buf with
  | some tmp => readName nameSize (tmp.drop 6)
  | none => some ([], buf)

def readBParam (cur : Text) : Option (Text × Text) :=
  match strstr "b_param ".toList cur with
  | some tmp => readValue tmp
  | none => some ([], cur)

def readBrick (buf : Text) : Option BrickText :=
  (readBrickName buf).bind fun name =>
    (readBParam name.2).map fun bparam => ⟨name.1, bparam.1, bparam.2⟩

structure Dest where
  addr : Nat
  name : Text
  deriving DecidableEq, Repr

/-- The next comma, or the end of the line where there is none in front of the brace. -/
def itemEnd (cend endn cur : Text) : Text :=
  match strstr ",".toList cur with
  | some endi => if endi.length < cend.length then endn else endi
  | none => endn

/-- The destinations in front of the end of the line, and whether all checks have passed. -/
def readDests (tmp endn cend : Text) : Nat → Text → Text → List Dest × Bool
  | 0, _, _ => ([], false)
  | fuel + 1, cur, endi =>
    if endn.length < cur.length then
      match strstr ":".toList cur with
      | none => ([], false)
      | some endpos =>
        if tmp.length ≤ endi.length ∨ 20 ≤ cur.length - endpos.length then ([], false)
        else
          match scanHex (cur.take (cur.length - endpos.length)) with
          | none => ([], false)
          | some addr =>
            let name := copy snameSize (endpos.drop 1) endi
            let cur := endi.drop 1
            let r := readDests tmp endn cend fuel cur (itemEnd cend endn cur)
            (⟨addr, name⟩ :: r.1, r.2)
    else ([], true)

def readCParam (cur cend : Text) : Option (Text × Text) :=
  match strstr "c_param ".toList cur with
  | some tmp => if cend.length < tmp.length then readValue tmp else some ([], cur)
  | none => some ([], cur)

def readConnect (cur cend : Text) : List Dest × Bool :=
  match strstr "connect ".toList cur with
  | some tmp =>
    if cend.length < tmp.length then
      match strstr "=".toList tmp with
      | none => ([], false)
      | some tmp =>
        let cur := tmp.drop 1
        match strstr "\n".toList cur with
        | none => ([], false)
        | some endn =>
          if tmp.length ≤ cend.length ∨ endn.length ≤ cend.length then ([], false)
          else readDests tmp endn cend (cur.length + 1) cur (itemEnd cend endn cur)
    else ([], true)
  | none => ([], true)

structure OutConn where
  srcName : Text
  cparam : Text
  dst : Dest
  deriving DecidableEq, Repr

/-- The connections of all outputs, and whether all checks have passed. -/
def readOutputs : Nat → Text → List OutConn × Bool
  | 0, _ => ([], false)
  | fuel + 1, cur =>
    match strstr "output=".toList cur with
    | none => ([], true)
    | some tmp =>
      match readName snameSize (tmp.drop 7) with
      | none => ([], false)
      | some (srcName, cur) =>
        match strstr "\x7d".toList cur with
        | none => ([], false)
        | some cend =>
          match readCParam cur cend with
          | none => ([], false)
          | some (cparam, cur) =>
            let dests := readConnect cur cend
            let conns := dests.1.map fun dst => ⟨srcName, cparam, dst⟩
            if dests.2 then
              let r := readOutputs fuel cend
              (conns ++ r.1, r.2)
            else (conns, false)

def readConns (b : BrickText) : List OutConn × Bool := readOutputs (b.rest.length + 1) b.rest

/-! ## The loops end -/

variable {pat s t cur endi endn cend tmp : Text} {fuel fuel' : Nat}

theorem strstr_suffix (h : strstr pat s = some t) : t <:+ s := by
  induction s with
  | nil => cases h
  | cons c s ih =>
    rw [strstr] at h
    split at h
    · rw [← Option.some.inj h]
    · exact (ih h).trans (List.suffix_cons c s)

theorem strstr_ne_nil (h : strstr pat s = some t) : t ≠ [] := by
  induction s with
  | nil => cases h
  | cons c s ih =>
    rw [strstr] at h
    split at h
    · rw [← Option.some.inj h]
      exact List.cons_ne_nil c s
    · exact ih h

theorem itemEnd_length (hne : endn ≠ []) (hcur : endn.length < cur.length) :
    ((itemEnd cend endn cur).drop 1).length < cur.length := by
  have hlt : ∀ l : Text, l ≠ [] → (l.drop 1).length < l.length := fun l hl => by
    rw [List.length_drop]
    exact Nat.sub_lt (List.length_pos_iff.mpr hl) Nat.one_pos
  unfold itemEnd
  split
  · rename_i e he
    split
    · exact (hlt endn hne).trans hcur
    · exact Nat.lt_of_lt_of_le (hlt e (strstr_ne_nil he)) (strstr_suffix he).length_le
  · exact (hlt endn hne).trans hcur

theorem readDests_fuel (hne : endn ≠ []) (h : cur.length < fuel) (h' : cur.length < fuel') :
    readDests tmp endn cend fuel cur (itemEnd cend endn cur) =
      readDests tmp endn cend fuel' cur (itemEnd cend endn cur) := by
  induction fuel generalizing fuel' cur with
  | zero => cases h
  | succ fuel ih =>
    obtain ⟨f, rfl⟩ : ∃ f, fuel' = f + 1 := ⟨fuel' - 1, by omega⟩
    rw [readDests, readDests]
    by_cases hcur : endn.length < cur.length
    · have hlen : ((itemEnd cend endn cur).drop 1).length < cur.length := itemEnd_length hne hcur
      have hrest : readDests tmp endn cend fuel ((itemEnd cend endn cur).drop 1)
          (itemEnd cend endn ((itemEnd cend endn cur).drop 1)) =
        readDests tmp endn cend f ((itemEnd cend endn cur).drop 1)
          (itemEnd cend endn ((itemEnd cend endn cur).drop 1)) := ih (by omega) (by omega)
      simp only [hcur, if_true, hrest]
    · simp only [hcur, if_false]

theorem readName_length {size : Nat} {name : Text × Text} (h : readName size s = some name) :
    name.2.length ≤ s.length := by
  obtain ⟨e, he, rfl⟩ := Option.map_eq_some_iff.mp h
  exact (List.drop_suffix 2 e).length_le.trans (strstr_suffix he).length_le

theorem readOutputs_fuel (h : cur.length < fuel) (h' : cur.length < fuel') :
    readOutputs fuel cur = readOutputs fuel' cur := by
  induction fuel generalizing fuel' cur with
  | zero => cases h
  | succ fuel ih =>
    obtain ⟨f, rfl⟩ : ∃ f, fuel' = f + 1 := ⟨fuel' - 1, by omega⟩
    rw [readOutputs, readOutputs]
    cases hout : strstr "output=".toList cur with
    | none => rfl
    | some tmp =>
      have htmp := (strstr_suffix hout).length_le
      have hpos := List.length_pos_iff.mpr (strstr_ne_nil hout)
      cases hname : readName snameSize (tmp.drop 7) with
      | none => simp only [hname]
      | some name =>
        have hlen := readName_length hname
        rw [List.length_drop] at hlen
        cases hend : strstr "\x7d".toList name.2 with
        | none => simp only [hname, hend]
        | some cend =>
          have hcend := (strstr_suffix hend).length_le
          have hrest : readOutputs fuel cend = readOutputs f cend := ih (by omega) (by omega)
          simp only [hname, hend, hrest]

end Athomux.StratText

/-!
## Printing a brick

`$trans` of the strategy bricks, with the connections that begin at the brick.
-/

namespace Athomux.StratText

open NetConnect (Text)

/-- `%llx`. -/
def hexText (n : Nat) : Text := Nat.toDigits 16 n

/-- A line that is left out where there is no parameter. -/
def paramLine (start name param : Text) : Text :=
  if param = [] then [] else start ++ name ++ "=".toList ++ param ++ "\n".toList

def printConn (c : OutConn) : Text :=
  "  output=".toList ++ c.srcName ++ " \x7b\n".toList ++
    paramLine "    c_param ".toList c.srcName c.cparam ++
    "    connect ".toList ++ c.srcName ++ "=".toList ++ hexText c.dst.addr ++ ":".toList ++
    c.dst.name ++ "\n".toList ++ "  \x7d\n".toList

def printBrick (name bparam : Text) (conns : List OutConn) : Text :=
  "brick=".toList ++ name ++ " \x7b\n".toList ++ paramLine "  b_param ".toList name bparam ++
    conns.flatMap printConn ++ "\x7d\n".toList

/-- Each check is for a part in front, and the last one is for the final null byte. -/
def fitText (len : Nat) (text : Text) : Option Text :=
  if text.length < len then some text else none

end Athomux.StratText
