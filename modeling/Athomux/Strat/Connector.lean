import Athomux.Strat.Inside

/-!
# `parse_connector`

The parts of a `connect` line: a name, an index in brackets, an action and a target. The bracket is
looked for as far behind the name as the name is long.
-/

namespace Athomux.Strat

open NetConnect (Text)

/-! ## The code -/

/-- What the loop over the name accepts. -/
def isNameChar (c : Char) : Bool := decide ('a' ≤ c) && decide (c ≤ 'z') || c == '_'

/-- `atoi`. -/
def atoi (t : Text) : Int := (scanInt t).getD 0

/-- What is returned: `res_name`, `res_index`, `res_op`, `res_other`, `reslen_other`, and the result. -/
structure Parsed where
  name : Text
  index : Int
  op : Option Char
  other : Text
  lenOther : Nat
  result : Nat
  deriving DecidableEq, Repr

/-- The end of the function, with the target and all behind it in `found`. The two texts are copied with
`copy_str`. -/
def finish (buf : Text) (lenName lenOther : Nat) (name : Text) (index : Int) (op : Option Char)
    (found : Text) : Parsed :=
  let other := found.takeWhile (· ≠ '\n')
  ⟨name.take (lenName - 1), index, op, other.take (lenOther - 1), other.length,
    buf.length - (found.length - other.length)⟩

/-- A sign, and the blanks behind it. -/
def skipSign (found : Text) : Text := skipBlanks (if peek found = '=' then found.drop 1 else found)

/-- From the action to the target. There is no result where a character behind the terminator is read. -/
def readTarget (found : Text) : Option (Option (Option Char × Text)) :=
  match skipBlanks found with
  | [] => none
  | op :: found =>
    let found := skipSign found
    some (if found = [] then none else some (if op = ':' ∨ op = '/' then some op else none, found))

/-- `found[pos]`. -/
def charAt (t : Text) (pos : Nat) : Option Char := (t ++ ['\x00'])[pos]?

/-- The index in brackets, and the position behind it. -/
def readIndex (pos : Nat) (found : Text) : Option (Int × Text) :=
  (charAt found pos).map fun c =>
    if c = '[' then (atoi (found.drop 1), skipIndex (found.drop 1)) else (0, found)

def connectKeyword : Text := "connect".toList

/-- `parse_connector`. Where it returns -1 there is nothing to read. -/
def parseConnector (lenName lenOther : Nat) (buf : Text) : Option (Option Parsed) :=
  match scanSingle connectKeyword buf with
  | none => some none
  | some found =>
    let name := found.takeWhile isNameChar
    (readIndex name.length (found.drop name.length)).bind fun (index, found) =>
      (readTarget found).map fun r =>
        r.map fun (op, found) => finish buf lenName lenOther name index op found

/-! ## The form -/

/-- The parts of a text of the form, with the target at the beginning of `rest`. -/
structure Parts where
  name : Text
  index : Option Text
  action : Option Char
  rest : Text

/-- `\[([0-9]+)\]`. -/
def indexPart : Text → Option (Text × Text)
  | '[' :: t =>
    match t.dropWhile isDigit with
    | ']' :: rest => if decDigits t = [] then none else some (decDigits t, rest)
    | _ => none
  | _ => none

/-- ` *([:/=])?= *`. The sign of a query is no action. -/
def actionPart (t : Text) : Option (Option Char × Text) :=
  match skipBlanks t with
  | [] => none
  | c :: t =>
    if peek t = '=' ∧ (c = ':' ∨ c = '/' ∨ c = '=') then
      some (if c = '=' then none else some c, skipBlanks (t.drop 1))
    else if c = '=' then some (none, skipBlanks t)
    else none

/-- `(\w+)(\[([0-9]+)\])? *([:/=])?= *(.*)`, what the comment has behind the keyword. -/
def connectorForm (t : Text) : Option Parts :=
  if t.takeWhile idTable = [] then none
  else
    match indexPart (t.dropWhile idTable) with
    | some (digits, t') =>
      (actionPart t').map fun (action, rest) => ⟨t.takeWhile idTable, some digits, action, rest⟩
    | none =>
      (actionPart (t.dropWhile idTable)).map fun (action, rest) =>
        ⟨t.takeWhile idTable, none, action, rest⟩

/-- What is expected: the parts of a text of the form, and -1 for every other text. -/
def expected (lenName lenOther : Nat) (buf : Text) : Option Parsed :=
  (scanSingle connectKeyword buf).bind fun t =>
    (connectorForm t).map fun p =>
      finish buf lenName lenOther p.name ((p.index.map fun d => (decValue d : Int)).getD 0) p.action p.rest

/-! ## When it is met -/

/-- Behind blanks there is a single character, or a single one and `=`, and blanks up to the end. -/
def EndsBehindOp (t : Text) : Prop := ∃ c rest, skipBlanks t = c :: rest ∧ skipSign rest = []

/-- The text behind the keyword. The bracket is there, as far behind the name as the name is long, exactly
when there is an index, and the index is an `int`. -/
def Parses (t : Text) : Prop :=
  let pos := (t.takeWhile isNameChar).length
  let behind := t.drop pos
  pos ≤ behind.length ∧
    match connectorForm t with
    | some p =>
      (∀ c ∈ p.name, isNameChar c = true) ∧ (behind[pos]? = some '[' ↔ p.index.isSome) ∧
        (∀ digits ∈ p.index, decValue digits < 2 ^ 31) ∧ p.rest ≠ []
    | none => EndsBehindOp (if behind[pos]? = some '[' then skipIndex (behind.drop 1) else behind)

/-! ## The parts of the code -/

variable {t w : Text} {a : Option Char}

theorem readIndex_inside {pos : Nat} {found : Text} (h : pos ≤ found.length) :
    readIndex pos found = some (if found[pos]? = some '[' then
      (atoi (found.drop 1), skipIndex (found.drop 1)) else (0, found)) := by
  unfold readIndex charAt
  obtain hlt | rfl := Nat.lt_or_eq_of_le h
  · rw [List.getElem?_append_left hlt, List.getElem?_eq_getElem hlt]
    simp only [Option.map_some, Option.some.injEq]
  · rw [List.getElem?_concat_length, List.getElem?_eq_none (Nat.le_refl _)]
    rfl

theorem readIndex_behind {pos : Nat} {found : Text} (h : found.length < pos) :
    readIndex pos found = none := by
  unfold readIndex charAt
  rw [List.getElem?_eq_none (by rw [List.length_append, List.length_singleton]; omega)]
  rfl

/-- The two agree on what is an action, unless the target is empty. -/
theorem readTarget_of_action (h : actionPart t = some (a, w)) :
    readTarget t = some (if w = [] then none else some (a, w)) := by
  unfold actionPart at h
  unfold readTarget
  cases hblanks : skipBlanks t with
  | nil => rw [hblanks] at h; cases h
  | cons c t' =>
    rw [hblanks] at h
    simp only at h ⊢
    have hopen : ¬(c = '=' ∧ (c = ':' ∨ c = '/')) := by
      rintro ⟨rfl, h | h⟩ <;> exact absurd h (by decide)
    by_cases hsign : peek t' = '='
    · have hskip : skipSign t' = skipBlanks (t'.drop 1) := by
        unfold skipSign
        rw [if_pos hsign]
      rw [hskip]
      by_cases hc : c = '='
      · rw [if_pos ⟨hsign, Or.inr (Or.inr hc)⟩, if_pos hc] at h
        cases h
        rw [if_neg fun h => hopen ⟨hc, h⟩]
      · rw [if_neg hc, if_neg hc] at h
        split_ifs at h with hop
        cases h
        have hcolon : c = ':' ∨ c = '/' := hop.2.imp_right fun h => h.resolve_right hc
        rw [if_pos hcolon]
    · have hskip : skipSign t' = skipBlanks t' := by
        unfold skipSign
        rw [if_neg hsign]
      rw [hskip]
      rw [if_neg fun hop => hsign hop.1] at h
      split_ifs at h with hc
      cases h
      rw [if_neg fun h => hopen ⟨hc, h⟩]

theorem readTarget_eq_none : readTarget t = some none ↔ EndsBehindOp t := by
  unfold readTarget EndsBehindOp
  cases hblanks : skipBlanks t with
  | nil => exact ⟨fun h => (nomatch h), fun ⟨_, _, h, _⟩ => (nomatch h)⟩
  | cons c t' =>
    simp only
    constructor
    · intro h
      refine ⟨c, t', rfl, ?_⟩
      by_contra hne
      rw [if_neg hne] at h
      cases h
    · rintro ⟨c', rest, heq, hnil⟩
      cases heq
      rw [if_pos hnil]

theorem skipSign_suffix (t : Text) : skipSign t <:+ t := by
  refine (skipBlanks_suffix _).trans ?_
  split_ifs
  · exact List.drop_suffix 1 t
  · exact List.suffix_rfl

theorem readTarget_shorter {op : Option Char} (h : readTarget t = some (some (op, w))) :
    w <:+ t ∧ w.length < t.length := by
  have hsuffix := skipBlanks_suffix t
  unfold readTarget at h
  cases hblanks : skipBlanks t with
  | nil => rw [hblanks] at h; cases h
  | cons c t' =>
    rw [hblanks] at h hsuffix
    simp only at h
    have hw : w = skipSign t' := by
      by_cases hnil : skipSign t' = []
      · rw [if_pos hnil] at h
        cases h
      · rw [if_neg hnil] at h
        cases h
        rfl
    have hrest : w <:+ t' := hw ▸ skipSign_suffix t'
    refine ⟨hrest.trans ((List.suffix_cons c t').trans hsuffix), ?_⟩
    have := hrest.length_le
    have := hsuffix.length_le
    rw [List.length_cons] at this
    omega

/-! ## The parts of the form -/

theorem blanks_append (t : Text) : ∃ blanks, t = blanks ++ skipBlanks t ∧ ∀ c ∈ blanks, c = ' ' :=
  ⟨t.takeWhile (· == ' '), List.takeWhile_append_dropWhile.symm,
    fun _ hc => by
      have hblank := List.mem_takeWhile_imp hc
      exact beq_iff_eq.mp hblank⟩

theorem peek_sign (h : peek t = '=') : t = '=' :: t.drop 1 := by
  cases t with
  | nil => exact absurd h (by decide)
  | cons c t => exact congrArg (· :: t) h

theorem actionPart_append (h : actionPart t = some (a, w)) :
    ∃ front, t = front ++ w ∧ front ≠ [] ∧ ∀ c ∈ front, c ∈ [' ', ':', '/', '='] := by
  obtain ⟨blanks, ht, hblanks⟩ := blanks_append t
  unfold actionPart at h
  cases hskip : skipBlanks t with
  | nil => rw [hskip] at h; cases h
  | cons c t' =>
    rw [hskip] at h ht
    simp only at h
    have hblank : ∀ d ∈ blanks, d ∈ [' ', ':', '/', '='] := fun d hd => by
      rw [hblanks d hd]
      decide
    by_cases hop : peek t' = '=' ∧ (c = ':' ∨ c = '/' ∨ c = '=')
    · rw [if_pos hop] at h
      cases h
      obtain ⟨blanks', ht', hblanks'⟩ := blanks_append (t'.drop 1)
      refine ⟨blanks ++ c :: '=' :: blanks', ?_, by simp, fun d hd => ?_⟩
      · conv_lhs => rw [ht, peek_sign hop.1, ht']
        simp
      · simp only [List.mem_append, List.mem_cons] at hd
        obtain hd | rfl | rfl | hd := hd
        · exact hblank d hd
        · obtain rfl | rfl | rfl := hop.2 <;> decide
        · decide
        · rw [hblanks' d hd]
          decide
    · rw [if_neg hop] at h
      split_ifs at h with hc
      cases h
      obtain ⟨blanks', ht', hblanks'⟩ := blanks_append t'
      refine ⟨blanks ++ c :: blanks', ?_, by simp, fun d hd => ?_⟩
      · conv_lhs => rw [ht, ht']
        simp
      · simp only [List.mem_append, List.mem_cons] at hd
        obtain hd | rfl | hd := hd
        · exact hblank d hd
        · rw [hc]
          decide
        · rw [hblanks' d hd]
          decide

theorem indexPart_append {digits : Text} (h : indexPart t = some (digits, w)) :
    t = '[' :: (digits ++ ']' :: w) ∧ digits ≠ [] ∧ ∀ c ∈ digits, isDigit c = true := by
  unfold indexPart at h
  split at h
  · rename_i t'
    split at h
    · rename_i rest hdrop
      split_ifs at h with hnil
      cases h
      refine ⟨?_, hnil, fun c hc => List.mem_takeWhile_imp hc⟩
      rw [← hdrop]
      exact congrArg ('[' :: ·) (List.takeWhile_append_dropWhile).symm
    · cases h
  · cases h

theorem skipIndex_append {front : Text} (h : ∀ c ∈ front, c ≠ ']') (w : Text) :
    skipIndex (front ++ w) = skipIndex w := by
  induction front with
  | nil => rfl
  | cons c front ih =>
    rw [List.cons_append, skipIndex, if_neg (h c List.mem_cons_self)]
    exact ih fun d hd => h d (List.mem_cons_of_mem c hd)

theorem digit_ne {c d : Char} (hc : isDigit c = true) (hd : isDigit d = false) : c ≠ d :=
  fun h => by rw [h, hd] at hc; cases hc

theorem digit_not_space {c : Char} (hc : isDigit c = true) : StratText.isSpace c = false := by
  unfold isDigit at hc
  rw [Bool.and_eq_true, decide_eq_true_iff, decide_eq_true_iff] at hc
  have hlow : 48 ≤ c.toNat := hc.1
  refine decide_eq_false fun h => ?_
  obtain rfl | h := h
  · exact absurd hlow (by decide)
  · omega

theorem toInt_eq_iff (n : Nat) : toInt n = n ↔ n < 2 ^ 31 := by
  have hmax : max (-2 ^ 63) (min (n : Int) (2 ^ 63 - 1)) = ((min n (2 ^ 63 - 1) : Nat) : Int) := by
    omega
  unfold toInt
  rw [hmax, Int.bmod_def]
  split <;> omega

/-- The index, as the code reads it. -/
theorem readIndex_digits {digits : Text} (hne : digits ≠ []) (hdigits : ∀ c ∈ digits, isDigit c = true) :
    atoi (digits ++ ']' :: w) = toInt (decValue digits) ∧ skipIndex (digits ++ ']' :: w) = w := by
  constructor
  · obtain ⟨c, ds, rfl⟩ := List.exists_cons_of_ne_nil hne
    have hc := hdigits c List.mem_cons_self
    have htake : decDigits (c :: ds ++ ']' :: w) = c :: ds := by
      unfold decDigits
      rw [List.takeWhile_append_of_pos hdigits, List.takeWhile_cons, if_neg (by decide), List.append_nil]
    have hvalue : decValue (c :: ds ++ ']' :: w) = decValue (c :: ds) := by
      unfold decValue
      rw [htake, decDigits, List.takeWhile_eq_self_iff.mpr hdigits]
    unfold atoi scanInt
    rw [List.cons_append, List.dropWhile_cons, if_neg (by rw [digit_not_space hc]; decide)]
    rw [List.cons_append] at htake hvalue
    split
    · rename_i heq
      exact absurd (List.cons.inj heq).1 (digit_ne hc (by decide))
    · rename_i heq
      exact absurd (List.cons.inj heq).1 (digit_ne hc (by decide))
    · rw [htake, if_neg (List.cons_ne_nil c ds), hvalue]
      rfl
  · rw [skipIndex_append fun c hc => digit_ne (hdigits c hc) (by decide)]
    rfl

theorem form_some {p : Parts} (h : connectorForm t = some p) :
    p.name = t.takeWhile idTable ∧
      ((∃ digits t', p.index = some digits ∧ indexPart (t.dropWhile idTable) = some (digits, t') ∧
          actionPart t' = some (p.action, p.rest)) ∨
        (p.index = none ∧ actionPart (t.dropWhile idTable) = some (p.action, p.rest))) := by
  unfold connectorForm at h
  split_ifs at h
  split at h
  · rename_i digits t' hindex
    obtain ⟨⟨action, rest⟩, haction, rfl⟩ := Option.map_eq_some_iff.mp h
    exact ⟨rfl, Or.inl ⟨digits, t', rfl, hindex, haction⟩⟩
  · obtain ⟨⟨action, rest⟩, haction, rfl⟩ := Option.map_eq_some_iff.mp h
    exact ⟨rfl, Or.inr ⟨rfl, haction⟩⟩

theorem idTable_of_nameChar {c : Char} (h : isNameChar c = true) : idTable c = true := by
  unfold isNameChar at h
  unfold idTable
  simp only [Bool.or_eq_true] at h ⊢
  obtain h | h := h
  · exact Or.inl (Or.inl (Or.inl h))
  · exact Or.inr h

/-- A name that the code accepts as a whole. -/
theorem name_eq_iff (t : Text) :
    t.takeWhile isNameChar = t.takeWhile idTable ↔ ∀ c ∈ t.takeWhile idTable, isNameChar c = true := by
  constructor
  · intro h c hc
    rw [← h] at hc
    exact List.mem_takeWhile_imp hc
  · intro h
    induction t with
    | nil => rfl
    | cons c t ih =>
      rw [List.takeWhile_cons, List.takeWhile_cons]
      rw [List.takeWhile_cons] at h
      by_cases hc : idTable c = true
      · rw [if_pos hc] at h
        rw [if_pos hc, if_pos (h c List.mem_cons_self), ih fun d hd => h d (List.mem_cons_of_mem c hd)]
      · rw [if_neg hc, if_neg (mt idTable_of_nameChar hc)]

/-! ## The whole function -/

section

variable {buf : Text} {p : Parts} {lenName lenOther : Nat}

/-- What is read behind the name, for a bracket that is found. -/
def behindIndex (pos : Nat) (behind : Text) : Int × Text :=
  if behind[pos]? = some '[' then (atoi (behind.drop 1), skipIndex (behind.drop 1)) else (0, behind)

theorem behindIndex_suffix (pos : Nat) (behind : Text) : (behindIndex pos behind).2 <:+ behind := by
  unfold behindIndex
  split_ifs
  · exact (skipIndex_suffix _).trans (List.drop_suffix 1 behind)
  · exact List.suffix_rfl

theorem form_suffix (hform : connectorForm t = some p) : p.rest <:+ t := by
  have hdrop : t.dropWhile idTable <:+ t := List.dropWhile_suffix _
  obtain ⟨-, ⟨digits, t', -, hpart, haction⟩ | ⟨-, haction⟩⟩ := form_some hform
  · obtain ⟨front, rfl, -⟩ := actionPart_append haction
    have hindex : front ++ p.rest <:+ t.dropWhile idTable := by
      rw [(indexPart_append hpart).1]
      exact (List.suffix_cons _ _).trans ((List.suffix_append _ _).trans (List.suffix_cons _ _))
    exact (List.suffix_append _ _).trans (hindex.trans hdrop)
  · obtain ⟨front, hfront, -⟩ := actionPart_append haction
    exact (hfront ▸ List.suffix_append front p.rest).trans hdrop

theorem parseConnector_inside (hscan : scanSingle connectKeyword buf = some t) {name behind : Text}
    (hname : t.takeWhile isNameChar = name) (hbehind : t.drop name.length = behind)
    (hpos : name.length ≤ behind.length) :
    parseConnector lenName lenOther buf =
      (readTarget (behindIndex name.length behind).2).map fun r => r.map fun (op, found) =>
        finish buf lenName lenOther name (behindIndex name.length behind).1 op found := by
  unfold parseConnector
  rw [hscan]
  simp only
  rw [hname, hbehind, readIndex_inside hpos]
  rfl

theorem parseConnector_behind (hscan : scanSingle connectKeyword buf = some t) {name behind : Text}
    (hname : t.takeWhile isNameChar = name) (hbehind : t.drop name.length = behind)
    (hpos : behind.length < name.length) : parseConnector lenName lenOther buf = none := by
  unfold parseConnector
  rw [hscan]
  simp only
  rw [hname, hbehind, readIndex_behind hpos]
  rfl

theorem expected_form (hscan : scanSingle connectKeyword buf = some t)
    (hform : connectorForm t = some p) :
    expected lenName lenOther buf = some (finish buf lenName lenOther p.name
      ((p.index.map fun d => (decValue d : Int)).getD 0) p.action p.rest) := by
  unfold expected
  rw [hscan, Option.bind_some, hform]
  rfl

/-- Where the target begins can be told from its length and the result. -/
theorem length_of_finish {name name' w' : Text} {index index' : Int} {op op' : Option Char}
    (hw : w.length ≤ buf.length) (hw' : w'.length ≤ buf.length)
    (h : finish buf lenName lenOther name index op w = finish buf lenName lenOther name' index' op' w') :
    w.length = w'.length := by
  have hlen : (w.takeWhile (· ≠ '\n')).length = (w'.takeWhile (· ≠ '\n')).length :=
    congrArg Parsed.lenOther h
  have hresult : buf.length - (w.length - (w.takeWhile (· ≠ '\n')).length) =
      buf.length - (w'.length - (w'.takeWhile (· ≠ '\n')).length) := congrArg Parsed.result h
  have hle := (List.takeWhile_prefix (· ≠ '\n') (l := w)).length_le
  have hle' := (List.takeWhile_prefix (· ≠ '\n') (l := w')).length_le
  omega

/-- What is behind the name of a text of the form. -/
theorem drop_name (t : Text) : t.drop (t.takeWhile idTable).length = t.dropWhile idTable := by
  have happend := List.takeWhile_append_dropWhile (p := idTable) (l := t)
  calc t.drop (t.takeWhile idTable).length
      = (t.takeWhile idTable ++ t.dropWhile idTable).drop (t.takeWhile idTable).length := by
        rw [happend]
    _ = t.dropWhile idTable := List.drop_left

/-- The bracket is found where it is to be found. -/
theorem behindIndex_of_form (hform : connectorForm t = some p) {pos : Nat}
    (hbracket : (t.dropWhile idTable)[pos]? = some '[' ↔ p.index.isSome) :
    (behindIndex pos (t.dropWhile idTable)).1 =
        (p.index.map fun d => toInt (decValue d)).getD 0 ∧
      actionPart (behindIndex pos (t.dropWhile idTable)).2 = some (p.action, p.rest) := by
  unfold behindIndex
  obtain ⟨-, ⟨digits, t', hindex, hpart, haction⟩ | ⟨hindex, haction⟩⟩ := form_some hform
  · rw [if_pos (hbracket.mpr (by rw [hindex]; rfl)), hindex]
    obtain ⟨heq, hne, hdigits⟩ := indexPart_append hpart
    obtain ⟨hatoi, hskip⟩ := readIndex_digits (w := t') hne hdigits
    rw [heq]
    exact ⟨hatoi, hskip.symm ▸ haction⟩
  · rw [if_neg fun h => (by have := hbracket.mp h; rw [hindex] at this; cases this), hindex]
    exact ⟨rfl, haction⟩

theorem parsed_of_parses (hscan : scanSingle connectKeyword buf = some t)
    (hform : connectorForm t = some p) (hparses : Parses t) :
    parseConnector lenName lenOther buf = some (expected lenName lenOther buf) := by
  obtain ⟨hpos, hmatch⟩ := hparses
  rw [hform] at hmatch
  obtain ⟨hchars, hbracket, hsmall, hrest⟩ := hmatch
  have hpname := (form_some hform).1
  have hname : t.takeWhile isNameChar = p.name := by
    rw [hpname] at hchars ⊢
    exact (name_eq_iff t).mpr hchars
  have hbehind : t.drop p.name.length = t.dropWhile idTable := by rw [hpname, drop_name]
  rw [hname, hbehind] at hbracket hpos
  obtain ⟨hindex, haction⟩ := behindIndex_of_form hform hbracket
  have hint : (p.index.map fun d => toInt (decValue d)) = p.index.map fun d => (decValue d : Int) :=
    Option.map_congr fun digits hdigits => (toInt_eq_iff _).mpr (hsmall digits hdigits)
  rw [parseConnector_inside hscan hname hbehind hpos, hindex, hint, readTarget_of_action haction,
    if_neg hrest, expected_form hscan hform]
  rfl

/-- The bracket of an index is taken for an action where it is not found. -/
theorem readTarget_bracket {digits : Text} {op : Option Char} {t' : Text} (hne : digits ≠ [])
    (hdigits : ∀ c ∈ digits, isDigit c = true)
    (h : readTarget ('[' :: (digits ++ ']' :: t')) = some (some (op, w))) : t'.length < w.length := by
  obtain ⟨c, ds, rfl⟩ := List.exists_cons_of_ne_nil hne
  have hc := hdigits c List.mem_cons_self
  rw [List.cons_append] at h
  have hsign : skipSign (c :: (ds ++ ']' :: t')) = c :: (ds ++ ']' :: t') := by
    have hpeek : peek (c :: (ds ++ ']' :: t')) ≠ '=' := digit_ne hc (by decide)
    unfold skipSign skipBlanks
    rw [if_neg hpeek, List.dropWhile_cons, if_neg (by rw [beq_iff_eq]; exact digit_ne hc (by decide))]
  have hblanks : skipBlanks ('[' :: c :: (ds ++ ']' :: t')) = '[' :: c :: (ds ++ ']' :: t') := rfl
  unfold readTarget at h
  rw [hblanks] at h
  simp only at h
  rw [hsign, if_neg (List.cons_ne_nil c _)] at h
  cases h
  simp only [List.length_cons, List.length_append]
  omega

/-- A bracket in the target is taken for an index. -/
theorem readTarget_late {op : Option Char} {target : Text} (haction : actionPart t = some (a, target))
    (h : readTarget (skipIndex (t.drop 1)) = some (some (op, w))) : w.length < target.length := by
  obtain ⟨front, rfl, hne, hfront⟩ := actionPart_append haction
  obtain ⟨c, front, rfl⟩ := List.exists_cons_of_ne_nil hne
  have hskip : skipIndex ((c :: front ++ target).drop 1) = skipIndex target := by
    refine skipIndex_append (fun d hd heq => ?_) target
    have hmem := hfront d (List.mem_cons_of_mem c hd)
    rw [heq] at hmem
    exact absurd hmem (by decide)
  rw [hskip] at h
  exact (readTarget_shorter h).2.trans_le (skipIndex_suffix target).length_le

theorem parses_of_parsed (hscan : scanSingle connectKeyword buf = some t)
    (hform : connectorForm t = some p)
    (h : ∀ lenName lenOther, parseConnector lenName lenOther buf = some (expected lenName lenOther buf)) :
    Parses t := by
  have ht : t <:+ buf := (scanSingle_suffix hscan).1
  -- both texts are copied as a whole
  have hall := h (t.length + 1) (t.length + 1)
  obtain hpos | hpos := Nat.lt_or_ge (t.drop (t.takeWhile isNameChar).length).length
    (t.takeWhile isNameChar).length
  · rw [parseConnector_behind hscan rfl rfl hpos] at hall
    cases hall
  rw [parseConnector_inside hscan rfl rfl hpos, expected_form hscan hform] at hall
  obtain ⟨r, hread, hr⟩ := Option.map_eq_some_iff.mp hall
  obtain ⟨⟨op, w⟩, rfl, hfinish⟩ := Option.map_eq_some_iff.mp hr
  obtain ⟨hpname, hparts⟩ := form_some hform
  have hnumber : (behindIndex (t.takeWhile isNameChar).length
        (t.drop (t.takeWhile isNameChar).length)).1 =
      (p.index.map fun d => (decValue d : Int)).getD 0 := congrArg Parsed.index hfinish
  have hname : t.takeWhile isNameChar = p.name := by
    have htake : (t.takeWhile isNameChar).take t.length = p.name.take t.length :=
      congrArg Parsed.name hfinish
    rw [hpname] at htake ⊢
    rwa [List.take_of_length_le (List.takeWhile_prefix _).length_le,
      List.take_of_length_le (List.takeWhile_prefix _).length_le] at htake
  have hbehind : t.drop p.name.length = t.dropWhile idTable := by rw [hpname, drop_name]
  rw [hname, hbehind] at hpos hread hnumber
  have hdrop : t.dropWhile idTable <:+ t := List.dropWhile_suffix _
  have hlen : w.length = p.rest.length := by
    refine length_of_finish ?_ ((form_suffix hform).trans ht).length_le hfinish
    have hw := (readTarget_shorter hread).1.trans (behindIndex_suffix _ _)
    exact (hw.trans (hdrop.trans ht)).length_le
  have hbracket : (t.dropWhile idTable)[p.name.length]? = some '[' ↔ p.index.isSome := by
    obtain ⟨digits, t', hindex, hpart, haction⟩ | ⟨hindex, haction⟩ := hparts
    · obtain ⟨heq, hne, hdigits⟩ := indexPart_append hpart
      refine ⟨fun _ => by rw [hindex]; rfl, fun _ => ?_⟩
      by_contra hnot
      unfold behindIndex at hread
      rw [if_neg hnot, heq] at hread
      have hlong := readTarget_bracket hne hdigits hread
      obtain ⟨front, hfront, -⟩ := actionPart_append haction
      rw [hlen, hfront, List.length_append] at hlong
      omega
    · refine ⟨fun hfound => ?_, fun hsome => by rw [hindex] at hsome; cases hsome⟩
      unfold behindIndex at hread
      rw [if_pos hfound] at hread
      exact absurd hlen (readTarget_late haction hread).ne
  unfold Parses
  simp only
  rw [hname, hbehind, hform]
  obtain ⟨hvalue, haction⟩ := behindIndex_of_form hform hbracket
  refine ⟨hpos, ?_, hbracket, fun digits hdigits => ?_, fun hnil => ?_⟩
  · rw [hpname]
    exact (name_eq_iff t).mp (hname.trans hpname)
  · have hindex := hvalue.symm.trans hnumber
    rw [Option.mem_def.mp hdigits] at hindex
    exact (toInt_eq_iff _).mp hindex
  · rw [readTarget_of_action haction, if_pos hnil] at hread
    cases hread

/-- A text that is not of the form. -/
theorem refused_iff (hscan : scanSingle connectKeyword buf = some t) (hform : connectorForm t = none) :
    parseConnector lenName lenOther buf = some (expected lenName lenOther buf) ↔ Parses t := by
  have hexpected : expected lenName lenOther buf = none := by
    unfold expected
    rw [hscan, Option.bind_some, hform]
    rfl
  unfold Parses
  simp only
  rw [hexpected, hform]
  obtain hpos | hpos := Nat.lt_or_ge (t.drop (t.takeWhile isNameChar).length).length
    (t.takeWhile isNameChar).length
  · rw [parseConnector_behind hscan rfl rfl hpos]
    exact ⟨fun h => (nomatch h), fun h => absurd h.1 (Nat.not_le_of_lt hpos)⟩
  · rw [parseConnector_inside hscan rfl rfl hpos]
    have htext : (behindIndex (t.takeWhile isNameChar).length
          (t.drop (t.takeWhile isNameChar).length)).2 =
        if (t.drop (t.takeWhile isNameChar).length)[(t.takeWhile isNameChar).length]? = some '[' then
          skipIndex ((t.drop (t.takeWhile isNameChar).length).drop 1)
        else t.drop (t.takeWhile isNameChar).length := by
      unfold behindIndex
      split_ifs <;> rfl
    rw [← htext, ← readTarget_eq_none]
    constructor
    · intro h
      obtain ⟨r, hread, hr⟩ := Option.map_eq_some_iff.mp h
      refine ⟨hpos, ?_⟩
      rw [hread, Option.map_eq_none_iff.mp hr]
    · rintro ⟨-, hread⟩
      rw [hread]
      rfl

/-- **The parts of a `connect` line are returned, and every other text is refused, exactly when** there is
no such line, or the name has letters that the code knows, a bracket stands as far behind the name as the
name is long if and only if there is an index, the index is an `int`, and there is a target. -/
theorem parses_iff (buf : Text) :
    (∀ lenName lenOther, parseConnector lenName lenOther buf = some (expected lenName lenOther buf)) ↔
      ∀ t, scanSingle connectKeyword buf = some t → Parses t := by
  constructor
  · intro h t hscan
    cases hform : connectorForm t with
    | some p => exact parses_of_parsed hscan hform h
    | none => exact (refused_iff hscan hform).mp (h 0 0)
  · intro h lenName lenOther
    cases hscan : scanSingle connectKeyword buf with
    | none =>
      unfold parseConnector expected
      rw [hscan]
      rfl
    | some t =>
      cases hform : connectorForm t with
      | some p => exact parsed_of_parses hscan hform (h t hscan)
      | none => exact (refused_iff hscan hform).mpr (h t hscan)

end

/-! ## A line with an index -/

def indexLine : Text := "connect a[1]:=b".toList

theorem scanSingle_indexLine : scanSingle connectKeyword indexLine = some "a[1]:=b".toList := by
  unfold scanSingle
  rw [scanMulti]
  rfl

/-- The index is not seen, so the target begins with it. -/
theorem index_not_seen :
    parseConnector 8 8 indexLine = some (some ⟨['a'], 0, none, "1]:=b".toList, 5, 15⟩) ∧
      expected 8 8 indexLine = some ⟨['a'], 1, some ':', ['b'], 1, 15⟩ := by
  unfold parseConnector expected
  rw [scanSingle_indexLine]
  exact ⟨rfl, rfl⟩

end Athomux.Strat
