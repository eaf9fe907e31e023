import Athomux.NetConnect.Params
import Mathlib.Data.Char

/-!
# `athvsnprintf`

A format is read piece by piece: a plain character, or a conversion with its arguments. Each piece is
written as far as there is room.
-/

namespace Athomux.AthStdio

open NetConnect (Text)

def nul : Char := '\x00'

/-! ## Arguments -/

/-- What `va_arg` gives: a word, and the string that it points to where it is taken for a pointer. -/
structure Arg where
  word : BitVec 64
  str : Text

/-- The arguments, one after the other. -/
abbrev Args := Nat → Arg

/-- `va_arg`. -/
def Args.next (args : Args) : Args := fun i => args (i + 1)

/-- `int`, and `index_t`. -/
def Arg.int (a : Arg) : Int := (a.word.setWidth 32).toInt

/-- `char`. -/
def Arg.char (a : Arg) : Char := Char.ofNat (a.word.toNat % 256)

/-! ## Numbers -/

/-- What `snprintf` makes of a number. -/
structure Numeral where
  text : Text
  noNul : nul ∉ text

theorem digitChar_ne_nul : ∀ d : Fin 16, Nat.digitChar d ≠ nul ∧ (Nat.digitChar d).toUpper ≠ nul := by
  decide

/-- Every digit is one of these. -/
theorem mem_toDigits {base : Nat} (hbase : 1 < base) (n : Nat) :
    ∀ c ∈ Nat.toDigits base n, ∃ d < base, c = Nat.digitChar d := by
  induction n using Nat.strong_induction_on with
  | _ n ih =>
    intro c hc
    by_cases hlt : n < base
    · rw [Nat.toDigits_of_lt_base hlt] at hc
      exact ⟨n, hlt, List.mem_singleton.mp hc⟩
    · rw [Nat.toDigits_of_base_le hbase (Nat.le_of_not_lt hlt), List.mem_append] at hc
      rcases hc with hc | hc
      · exact ih (n / base) (Nat.div_lt_self (by omega) hbase) c hc
      · exact ⟨n % base, Nat.mod_lt _ (by omega), List.mem_singleton.mp hc⟩

/-- `%d`. -/
def decimal (i : Int) : Numeral where
  text := if i < 0 then '-' :: Nat.toDigits 10 i.natAbs else Nat.toDigits 10 i.natAbs
  noNul := by
    have hdigits : nul ∉ Nat.toDigits 10 i.natAbs := fun h => by
      obtain ⟨d, hd, heq⟩ := mem_toDigits (by decide) _ _ h
      exact (digitChar_ne_nul ⟨d, by omega⟩).1 heq.symm
    split_ifs
    · rw [List.mem_cons]
      exact not_or_intro (by decide) hdigits
    · exact hdigits

/-- `%x`, for all widths. -/
def hex (n : Nat) : Numeral where
  text := Nat.toDigits 16 n
  noNul := fun h => by
    obtain ⟨d, hd, heq⟩ := mem_toDigits (by decide) _ _ h
    exact (digitChar_ne_nul ⟨d, hd⟩).1 heq.symm

/-- `%X`. -/
def hexUpper (n : Nat) : Numeral where
  text := (Nat.toDigits 16 n).map Char.toUpper
  noNul := fun h => by
    obtain ⟨c, hc, heq⟩ := List.mem_map.mp h
    obtain ⟨d, hd, rfl⟩ := mem_toDigits (by decide) _ _ hc
    exact (digitChar_ne_nul ⟨d, hd⟩).2 heq

/-! ## Pieces -/

inductive Piece
  | put (c : Char)
  /-- `%s` and `%S`. -/
  | text (s : Text) (plen : Nat)
  /-- A character out of a table. -/
  | entry (table : Text) (n : Int)
  /-- `%o` and `%O`. -/
  | word (s : Text)
  | number (d : Numeral)

/-- The tables. -/
def tableOf : Char → Option Text
  | 'b' => some ['f', 't']
  | 'B' => some ['F', 'T']
  | 'y' => some ['n', 'y']
  | 'Y' => some ['N', 'Y']
  | 'k' => some ['-', 'r', 'w', '?']
  | 'K' => some ['-', 'R', 'W', '?']
  | 'a' => some ['a', 't', 'w']
  | 'A' => some ['A', 'T', 'W']
  | 'd' => some ['r', 'w']
  | 'D' => some ['R', 'W']
  | 'r' => some ['-', 'b', 'n', 'u']
  | 'R' => some ['-', 'B', 'N', 'U']
  | 'v' => some ['?', 'o', 'n']
  | 'V' => some ['?', 'O', 'N']
  | _ => none

def numberOf (a : Arg) : Char → Option Numeral
  | 'i' => some (decimal a.int)
  | 'm' => some (decimal a.int)
  | 'x' => some (hex (a.word.setWidth 32).toNat)
  | 'X' => some (hexUpper (a.word.setWidth 32).toNat)
  | 'l' => some (hex a.word.toNat)
  | 'L' => some (hexUpper a.word.toNat)
  | 'p' => some (hex a.word.toNat)
  | 'P' => some (hexUpper a.word.toNat)
  | _ => none

/-- `ch_success_types` and `ch_success_types_upper`. -/
def successOf (n : Int) : Char → Text
  | 'o' => if n = 0 then "fail".toList else "succ".toList
  | _ => if n = 0 then "FAIL".toList else "SUCC".toList

/-- The `switch`, up to what is written. -/
def readPiece (conv : Char) (args : Args) : Option (Piece × Args) :=
  match conv with
  | '%' => some (.put '%', args)
  | 'c' => some (.put (args 0).char, args.next)
  | 'S' => some (.text (args 1).str (args 0).word.toNat, args.next.next)
  | 's' => some (.text (args 0).str 0xffffffffffffffff, args.next)
  | 'o' => some (.word (successOf (args 0).int 'o'), args.next)
  | 'O' => some (.word (successOf (args 0).int 'O'), args.next)
  | _ =>
    match tableOf conv with
    | some table => some (.entry table (args 0).int, args.next)
    | none => (numberOf (args 0) conv).map fun d => (.number d, args.next)

/-! ## The buffer -/

/-- The buffer, cut at `wtbuf`. -/
structure Buf where
  before : Text
  behind : Text
  deriving DecidableEq, Repr

namespace Buf

variable (b : Buf)

/-- Characters are stored from `wtbuf` on. There is no result where they do not fit. -/
def place (s : Text) : Option Buf :=
  if s.length ≤ b.behind.length then some { b with behind := s ++ b.behind.drop s.length } else none

/-- `wtbuf += n`. -/
def advance (n : Nat) : Buf := ⟨b.before ++ b.behind.take n, b.behind.drop n⟩

/-- `*wtbuf++ = c`. -/
def put (c : Char) : Option Buf := (b.place [c]).map (·.advance 1)

end Buf

/-- The loop of `%s` and `%S`. -/
def copyText : Text → Nat → Buf → Nat → Option (Buf × Nat)
  | [], _, b, room => some (b, room)
  | _ :: _, 0, b, room => some (b, room)
  | c :: s, plen + 1, b, room =>
    if 1 < room then (b.put c).bind fun b => copyText s plen b (room - 1) else some (b, room - 1)

/-- The loop of `%o` and `%O`. -/
def copyWord : Text → Buf → Nat → Option (Buf × Nat)
  | [], b, room => some (b, room)
  | c :: s, b, room =>
    if 0 < room then (b.put c).bind fun b => copyWord s b (room - 1) else some (b, room)

/-- `snprintf`, and what is done with its result. -/
def printNumber (d : Numeral) (b : Buf) (room : Nat) : Option (Buf × Nat) :=
  (b.place (d.text.take (room - 1) ++ [nul])).map fun b =>
    let n := if room < d.text.length then room else d.text.length
    (b.advance n, room - n)

/-- The index into a table of `size` characters. -/
def tableIndex (size : Nat) (n : Int) : Nat := if n < 0 ∨ (size : Int) < n then size else n.toNat

/-- What is written. There is no result where a table is read outside. -/
def writePiece (p : Piece) (b : Buf) (room : Nat) : Option (Buf × Nat) :=
  match p with
  | .put c => (b.put c).map fun b => (b, room - 1)
  | .text s plen => copyText s plen b room
  | .entry table n =>
    table[tableIndex table.length n]?.bind fun c => (b.put c).map fun b => (b, room - 1)
  | .word s => copyWord s b room
  | .number d => printNumber d b room

/-! ## The format -/

/-- The outer loop. -/
def printAll : Text → Args → Buf → Nat → Option Buf
  | [], _, b, _ => b.place [nul]
  | f :: fmt, args, b, room =>
    if room = 0 then b.place [nul]
    else if f ≠ '%' then
      (writePiece (.put f) b room).bind fun (b, room) => printAll fmt args b room
    else
      match fmt with
      | [] => (writePiece (.put '%') b room).bind fun (b, _) => b.place [nul]
      | conv :: rest =>
        match readPiece conv args with
        | some (p, args) => (writePiece p b room).bind fun (b, room) => printAll rest args b room
        -- the character behind the sign is a plain one then
        | none => (writePiece (.put '%') b room).bind fun (b, room) => printAll (conv :: rest) args b room

/-- `athvsnprintf`. The pointer that is returned is where the buffer is cut. -/
def athvsnprintf (buf fmt : Text) (args : Args) : Option Buf :=
  printAll fmt args ⟨[], buf⟩ (buf.length - 1)

end Athomux.AthStdio
