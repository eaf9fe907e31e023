import Athomux.BinStrat.Contract
import Mathlib.Data.List.DropRight

/-!
# The flags of a connector

`MASK_CONN_ACTIVE` is the lowest of the bits that hold the action of the targets. What the text
says is compared with what the two macros read from the finished record, so an accepted text is
followed here without its buffer.
-/

namespace Athomux.BinStrat

open Conv

variable {α β : Type}

/-- `GET_CONN_TARGET_ACTION`. -/
def ConnRec.targetAction (conn : ConnRec) : BitVec 16 := conn.flags >>> 4 &&& 0x07

/-- The actions whose lowest bit is set: create, init and reinit. -/
def StratAction.lowBit (action : StratAction) : Bool := action.code &&& 1 != 0

/-! ## What the text says -/

def skipComposedLoop : Nat → Text → Option Text
  | 0, text => some text
  | fuel + 1, text =>
    if text.headD '\x00' = '.' then (skipAnyWord text.tail).bind (skipComposedLoop fuel) else some text

def skipComposed (text : Text) : Option Text := (skipAnyWord text).bind (skipComposedLoop text.length)

/-- The text behind an attribute. -/
def skipAttr (text : Text) : Option Text := do
  let text ← skipWord (skipWhitespace text) "attr".toList
  let text ← skipComposed (skipWhitespace text)
  let (_, text) ← convertOp text
  skipEndOfLine (text.dropWhile printable)

def skipAttrs : Nat → Text → Text
  | 0, text => text
  | fuel + 1, text =>
    match skipAttr text with
    | none => text
    | some rest => skipAttrs fuel rest

/-- The text behind a target. -/
def skipTarget (text : Text) : Option Text := do
  let (_, text) ← convertLogaddr text
  let text ← behind ':' text
  skipAnyWord text

/-- The line with the connection: its action, and whether a target stands behind it. -/
structure ConnectLine where
  action : StratAction
  target : Bool
  deriving DecidableEq

def readConnect (text : Text) : Option ConnectLine := do
  let text ← skipWord text "connect".toList
  let text ← skipAnyWord (skipWhitespace text)
  let (action, text) ← convertOp text
  return ⟨action, (skipTarget (skipWhitespace text)).isSome⟩

/-- The place behind the attributes. -/
def connBody (text : Text) : Option Text := do
  let (_, text) ← kindScan text
  let (_, text) ← convertOp (skipWhitespace text)
  let text ← skipComposed text
  let text := afterParam "c_param".toList ((skipStr text " \x7b ".toList).getD text)
  return skipWhitespace (skipAttrs (text.length + 1) text)

def writtenActive (text : Text) : Bool := (skipWhitespace text).headD '\x00' != '('

def writtenConnect (text : Text) : Option ConnectLine := (connBody text).bind readConnect

/-- The macros read from the record what the text says. -/
def FlagsAgree (text : Text) (conn : ConnRec) : Prop :=
  conn.isActive = writtenActive text ∧
    ∀ _target ∈ conn.target, ∃ line, writtenConnect text = some line ∧
      conn.targetAction = line.action.code

/-- A connection with targets has one of create, init and reinit exactly in an active connector, and a
connection without targets has one of them in an active connector only. -/
def BitShared (text : Text) : Prop :=
  ∀ line, writtenConnect text = some line →
    if line.target then line.action.lowBit = writtenActive text
    else line.action.lowBit = true → writtenActive text = true

/-! ## Following an accepted text -/

/-- What a conversion of `text` yields when it succeeds, in any buffer. -/
def Yields (m : Conv α) (text : Text) (P : α → Text → Prop) : Prop :=
  ∀ bin size r, (m.run ⟨text, bin, size⟩).1 = some r → P r.1 r.2.text

namespace Yields

variable {m : Conv α} {text : Text} {P : α → Text → Prop} {Q : β → Text → Prop}
  {q : Text → List Char}

theorem mono {R : α → Text → Prop} (h : Yields m text P) (hPR : ∀ a t, P a t → R a t) :
    Yields m text R :=
  fun bin size r hr => hPR _ _ (h bin size r hr)

theorem pure {a : α} (h : P a text) : Yields (Pure.pure a : Conv α) text P := by
  rintro bin size r hr
  cases hr
  exact h

theorem bind {f : α → Conv β} (hm : Yields m text P)
    (hf : ∀ a rest, P a rest → Yields (f a) rest Q) : Yields (m >>= f) text Q := by
  intro bin size r hr
  rw [bind_fst] at hr
  obtain ⟨⟨a, ⟨rest, bin', size'⟩⟩, h1, h2⟩ := Option.bind_eq_some_iff.mp hr
  exact hf a rest (hm bin size _ h1) bin' size' r h2

/-- A step that leaves the text alone. -/
theorem still {f : α → Conv β} (hm : ∀ bin size r, (m.run ⟨text, bin, size⟩).1 = some r →
    r.2.text = text) (hf : ∀ a, Yields (f a) text Q) : Yields (m >>= f) text Q := by
  refine bind (P := fun _ t => t = text) hm ?_
  rintro a rest rfl
  exact hf a

theorem store {addr len : Nat} {f : Unit → Conv β} (hf : Yields (f ()) text Q) :
    Yields (Conv.store addr len >>= f) text Q :=
  still (fun _ _ _ h => by cases h; rfl) fun _ => hf

theorem here {f : Nat → Conv β} (hf : ∀ place, Yields (f place) text Q) :
    Yields (Conv.here >>= f) text Q :=
  still (fun _ _ _ h => by cases h; rfl) hf

theorem skipBin {n : Nat} {f : Unit → Conv β} (hf : Yields (f ()) text Q) :
    Yields (Conv.skipBin n >>= f) text Q :=
  still (fun _ _ _ h => by cases h; rfl) fun _ => hf

theorem chargeSize {n : Nat} {f : Unit → Conv β} (hf : Yields (f ()) text Q) :
    Yields (Conv.chargeSize n >>= f) text Q :=
  still (fun _ _ _ h => by cases h; rfl) fun _ => hf

theorem resetBin {n k : Nat} {f : Unit → Conv β} (hf : Yields (f ()) text Q) :
    Yields (Conv.resetBin n k >>= f) text Q :=
  still (fun _ _ _ h => by cases h; rfl) fun _ => hf

theorem cursors {f : Cursor → Conv β} (hf : ∀ bin size, Yields (f ⟨text, bin, size⟩) text Q) :
    Yields (Conv.cursors >>= f) text Q := by
  refine bind (P := fun c t => t = text ∧ c.text = text) (fun _ _ _ h => by cases h; exact ⟨rfl, rfl⟩) ?_
  rintro ⟨_, bin, size⟩ _ ⟨rfl, rfl⟩
  exact hf bin size

theorem peek {f : Char → Conv β} (hf : Yields (f (text.headD '\x00')) text Q) :
    Yields (Conv.peek >>= f) text Q := by
  refine bind (P := fun c t => t = text ∧ c = text.headD '\x00') (fun _ _ _ h => by cases h; exact ⟨rfl, rfl⟩) ?_
  rintro _ _ ⟨rfl, rfl⟩
  exact hf

theorem scan {p : Text → Text} {f : Unit → Conv β} (hf : Yields (f ()) (p text) Q) :
    Yields (Conv.scan p q >>= f) text Q := by
  refine bind (P := fun _ t => t = p text) (fun _ _ _ h => by cases h; rfl) ?_
  rintro _ _ rfl
  exact hf

theorem onText {p : Text → Option (α × Text)} :
    Yields (Conv.onText p q) text fun a rest => p text = some (a, rest) := by
  intro bin size r hr
  obtain ⟨r', h, rfl⟩ := Option.map_eq_some_iff.mp hr
  exact h

theorem expect {p : Text → Option Text} :
    Yields (Conv.expect p q) text fun _ rest => p text = some rest := by
  refine onText.mono fun _ rest h => ?_
  obtain ⟨t, ht, heq⟩ := Option.map_eq_some_iff.mp h
  cases heq
  exact ht

theorem accept {p : Text → Option Text} {f : Bool → Conv β}
    (hsome : ∀ rest, p text = some rest → Yields (f true) rest Q)
    (hnone : p text = none → Yields (f false) text Q) : Yields (Conv.accept p q >>= f) text Q := by
  cases hp : p text with
  | none =>
    refine bind (P := fun b t => b = false ∧ t = text) ?_ ?_
    · refine onText.mono fun b t h => ?_
      simp only [hp] at h
      cases h
      exact ⟨rfl, rfl⟩
    · rintro _ _ ⟨rfl, rfl⟩
      exact hnone hp
  | some rest =>
    refine bind (P := fun b t => b = true ∧ t = rest) ?_ ?_
    · refine onText.mono fun b t h => ?_
      simp only [hp] at h
      cases h
      exact ⟨rfl, rfl⟩
    · rintro _ _ ⟨rfl, rfl⟩
      exact hsome _ hp

/-- A scan that makes no difference but for its place. -/
theorem either {p : Text → Option Text} {f : Bool → Conv β}
    (hf : ∀ b, Yields (f b) ((p text).getD text) Q) : Yields (Conv.accept p q >>= f) text Q := by
  refine accept (fun rest hrest => ?_) fun hnone => ?_
  · have := hf true
    rwa [hrest] at this
  · have := hf false
    rwa [hnone] at this

/-- `if (skip_word(&text, "...")) skip_rest_of_line(&text);` -/
theorem param {param : Text} {f : Unit → Conv β} (hf : Yields (f ()) (afterParam param text) Q) :
    Yields (Conv.accept (skipWord · param) (wordLooks · param) >>= fun found =>
      if found = true then Conv.scan skipRestOfLine noLooks >>= f else f ()) text Q := by
  unfold afterParam at hf
  refine accept (fun rest hrest => ?_) fun hnone => ?_
  · rw [hrest] at hf
    exact scan hf
  · rwa [hnone] at hf

/-- A call in a condition. -/
theorem attempt {f : Option α → Conv β} (hm : Yields m text P)
    (hsome : ∀ a rest, P a rest → Yields (f (some a)) rest Q)
    (hnone : Yields (f none) text Q) : Yields (Conv.attempt m >>= f) text Q := by
  intro bin size r hr
  rw [bind_fst] at hr
  obtain ⟨⟨o, c'⟩, h1, h2⟩ := Option.bind_eq_some_iff.mp hr
  rcases hrun : m.run ⟨text, bin, size⟩ with ⟨_ | ⟨a, c⟩, stores⟩
  · simp only [Conv.attempt, hrun] at h1
    cases h1
    exact hnone _ _ _ h2
  · simp only [Conv.attempt, hrun] at h1
    cases h1
    exact hsome _ _ (hm bin size _ (by rw [hrun])) _ _ _ h2

end Yields

/-! ## Names, attributes and targets -/

theorem skipAnyWord_eq {text : Text} (h : text.takeWhile idTable ≠ []) :
    skipAnyWord text = some (text.dropWhile idTable) := by
  cases text with
  | nil => exact absurd rfl h
  | cons c text =>
    cases hc : idTable c with
    | false => simp [hc] at h
    | true => simp [skipAnyWord, hc]

theorem convertWord_yields (text : Text) :
    Yields convertWord text fun _ rest => skipAnyWord text = some rest := by
  intro bin size r hr
  by_cases hword : text.takeWhile idTable = []
  · rw [convertWord_stop hword] at hr
    cases hr
  · rw [(convertWord_run hword bin size).2] at hr
    split at hr
    · cases hr
      exact skipAnyWord_eq hword
    · cases hr

theorem composedLoop_yields (bin size : Nat) : ∀ (fuel : Nat) (word text : Text),
    Yields (composedLoop bin size fuel word) text fun _ rest =>
      skipComposedLoop fuel text = some rest
  | 0, _, _ => .pure rfl
  | fuel + 1, word, text => by
    unfold composedLoop skipComposedLoop
    refine .peek ?_
    by_cases hdot : text.headD '\x00' = '.'
    · simp only [hdot, beq_self_eq_true, if_true]
      refine .scan (.resetBin (.bind (convertWord_yields _) fun word rest hrest => ?_))
      rw [hrest]
      exact composedLoop_yields bin size fuel word rest
    · have hne : ¬ (text.headD '\x00' == '.') = true := by simpa using hdot
      simp only [hne, hdot, if_false]
      exact .pure rfl

theorem composedIdentifier_yields (text : Text) :
    Yields convertComposedIdentifier text fun _ rest => skipComposed text = some rest := by
  unfold convertComposedIdentifier skipComposed
  refine .cursors fun bin size => .bind (convertWord_yields _) fun word rest hrest => ?_
  rw [hrest]
  exact composedLoop_yields bin size text.length word rest

theorem stringLoop_rest (text : Text) : ∀ {bin size : Nat} {r : Text × Cursor},
    (stringLoop text bin size).1 = some r → r.2.text = text.dropWhile printable := by
  induction text with
  | nil =>
    intro bin size r h
    cases h
    rfl
  | cons c text ih =>
    intro bin size r h
    unfold stringLoop at h
    cases hc : printable c with
    | false =>
      simp only [hc, Bool.false_eq_true, if_false, Option.some.injEq] at h
      subst h
      simp [hc]
    | true =>
      simp only [hc, if_true] at h
      split at h
      · cases h
      · obtain ⟨r', hr', rfl⟩ := Option.map_eq_some_iff.mp h
        simpa [hc] using ih hr'

theorem convertString_yields (text : Text) :
    Yields convertString text fun _ rest => rest = text.dropWhile printable := by
  refine .bind (P := fun _ rest => rest = text.dropWhile printable) ?_ ?_
  · exact fun bin size r hr => stringLoop_rest text hr
  · rintro value rest rfl
    exact .here fun _ => .store (.skipBin (.chargeSize (.pure rfl)))

theorem convertAttr_yields (text : Text) :
    Yields convertAttr text fun _ rest => skipAttr text = some rest := by
  unfold convertAttr skipAttr
  refine .here fun _ => .skipBin (.scan (.bind .expect fun _ t1 h1 => .scan (.store ?_)))
  refine .bind (composedIdentifier_yields _) fun _ t2 h2 => .bind .onText fun action t3 h3 => .store ?_
  refine .bind (convertString_yields _) fun _ t4 h4 => .bind .expect fun _ t5 h5 => .store (.pure ?_)
  subst h4
  simp only [h1, h2, h3, h5, Option.bind_eq_bind, Option.bind_some]

theorem attrs_yields : ∀ (fuel : Nat) (text : Text),
    Yields (whileConvert convertAttr fuel) text fun _ rest =>
      rest = skipAttrs fuel text ∨ (skipAttr rest).isSome
  | 0, _ => .pure (Or.inl rfl)
  | fuel + 1, text => by
    unfold whileConvert skipAttrs
    refine .here fun place => .attempt (convertAttr_yields text) ?_ ?_
    · intro attr rest hrest
      refine .bind (attrs_yields fuel rest) fun recs t ht => .pure ?_
      rwa [hrest]
    · -- an attribute that is given up for its size is still in front of the cursor
      refine .pure ?_
      cases h : skipAttr text with
      | none => exact Or.inl rfl
      | some rest => exact Or.inr rfl

theorem convertTarget_yields (text : Text) :
    Yields convertConnTarget text fun _ rest => skipTarget text = some rest := by
  unfold convertConnTarget skipTarget
  refine .here fun _ => .skipBin (.store (.bind .onText fun addr t1 h1 => .bind .expect fun _ t2 h2 => ?_))
  refine .store (.bind (convertWord_yields _) fun _ t3 h3 => .store (.pure ?_))
  have h2' : behind ':' t1 = some t2 := h2
  simp only [h1, h2', h3, Option.bind_eq_bind, Option.bind_some]

theorem attrList_yields (head : Nat) (text : Text) :
    Yields (convertList convertAttr head) text fun _ rest =>
      rest = skipAttrs (text.length + 1) text ∨ (skipAttr rest).isSome := by
  unfold convertList
  refine .store (.cursors fun bin size => ?_)
  refine .bind (attrs_yields (text.length + 1) text) fun recs rest hrest => ?_
  cases hlast : recs.getLast? with
  | none => exact .store (.pure hrest)
  | some r => exact .store (.pure hrest)

/-- Targets are read where one stands, or none is read and the text is left alone. -/
theorem convertTargets_yields (isInput : Bool) (head : Nat) (text : Text) :
    Yields (convertTargets isInput head) text fun target rest =>
      if target = [] then rest = text else (skipTarget text).isSome := by
  unfold convertTargets
  refine .store (.here fun first => .attempt (convertTarget_yields text) ?_ ?_)
  · intro target rest hrest
    refine .cursors fun bin size => .bind (P := fun _ _ => True) (fun _ _ _ _ => trivial) ?_
    intro more t _
    refine .store (.pure ?_)
    simp [hrest]
  · exact .store (.pure (by simp))

/-! ## The keyword and the connection -/

/-- The flags behind the keyword. -/
def kindFlags (active isInput : Bool) : BitVec 16 :=
  (if active then maskConnActive else 0) ||| (if isInput then 0 else maskConnType)

theorem openMark_yields (flagsAt : Nat) (text : Text) :
    Yields (openMark flagsAt maskConnActive) text fun flags rest =>
      flags = (if writtenActive text then maskConnActive else 0) ∧
        rest = if writtenActive text then skipWhitespace text else (skipWhitespace text).tail := by
  unfold openMark writtenActive
  refine .store (.scan (.peek ?_))
  by_cases hp : (skipWhitespace text).headD '\x00' = '('
  · simp only [hp, beq_self_eq_true, if_true, bne_self_eq_false, Bool.false_eq_true, if_false]
    exact .store (.scan (.pure ⟨rfl, rfl⟩))
  · have hne : ((skipWhitespace text).headD '\x00' == '(') = false := by simpa using hp
    simp only [hne, bne, Bool.not_false, if_true, Bool.false_eq_true, if_false]
    exact .pure ⟨rfl, rfl⟩

theorem closeMark_yields (flags : BitVec 16) (text : Text) :
    Yields (closeMark flags maskConnActive) text fun _ rest =>
      (if flags &&& maskConnActive == 0 then behind ')' text else some text) = some rest := by
  unfold closeMark
  split
  · exact .expect
  · exact .pure rfl

/-- The keyword itself: whether it is `input`, and the rest. -/
def keyword (inner : Text) : Option (Bool × Text) :=
  match skipWord inner "output".toList with
  | some rest => some (false, rest)
  | none => (skipWord inner "input".toList).map (true, ·)

theorem kindScan_eq (text : Text) :
    kindScan text =
      (keyword (if writtenActive text then skipWhitespace text else (skipWhitespace text).tail)).bind
        fun k => if writtenActive text then some k else (behind ')' k.2).map (k.1, ·) := by
  unfold kindScan keyword writtenActive
  by_cases hp : (skipWhitespace text).headD '\x00' = '('
  · cases hout : skipWord (skipWhitespace text).tail "output".toList <;>
      simp only [hp, hout, bne_self_eq_false, Bool.false_eq_true, if_false, if_true]
  · have hne : ((skipWhitespace text).headD '\x00' != '(') = true := by simpa using hp
    cases hout : skipWord (skipWhitespace text) "output".toList <;>
      simp only [hne, hp, hout, if_true, if_false]

/-- The parenthesis behind the keyword, for the flags that `connKind` has by then. -/
theorem closeKind_yields (active isInput : Bool) (text : Text) :
    Yields (closeMark (kindFlags active isInput) maskConnActive) text fun _ rest =>
      (if active then some text else behind ')' text) = some rest := by
  refine (closeMark_yields _ _).mono fun _ rest h => ?_
  cases active <;> cases isInput <;> exact h

theorem connKind_yields (conn : Nat) (text : Text) :
    Yields (connKind conn) text fun flags rest =>
      ∃ isInput, kindScan text = some (isInput, rest) ∧
        flags = kindFlags (writtenActive text) isInput := by
  have hscan {isInput : Bool} {k : Text} {rest : Text}
      (hkey : keyword (if writtenActive text then skipWhitespace text else (skipWhitespace text).tail) =
        some (isInput, k))
      (hclose : (if writtenActive text then some k else behind ')' k) = some rest) :
      kindScan text = some (isInput, rest) := by
    rw [kindScan_eq, hkey, Option.bind_some]
    cases hw : writtenActive text <;> simp_all
  unfold connKind
  refine .bind (openMark_yields _ text) ?_
  rintro _ _ ⟨rfl, rfl⟩
  refine .accept (fun k hout => .store ?_) fun hout => ?_
  · refine .bind (P := fun _ rest => (if writtenActive text then some k else behind ')' k) = some rest)
      (closeKind_yields _ false k) fun _ rest hrest => .pure ⟨false, ?_, rfl⟩
    exact hscan (by rw [keyword, hout]) hrest
  · refine .bind .expect fun _ k hin => ?_
    have hflags : (if writtenActive text then maskConnActive else 0) =
        kindFlags (writtenActive text) true := by
      cases writtenActive text <;> rfl
    rw [hflags]
    refine .bind (closeKind_yields _ true k) fun _ rest hrest => .pure ⟨true, ?_, rfl⟩
    exact hscan (by rw [keyword, hout, hin]; rfl) hrest

/-- The line with the connection: it is missing, or its action is in the flags and it has targets, or
it has none and a target that is written there is still in front of the cursor. -/
theorem connConnect_yields (conn : Nat) (flags : BitVec 16) (text : Text) :
    Yields (connConnect conn flags) text fun r rest =>
      (readConnect text = none ∧ r = (flags, []) ∧ rest = text) ∨
        ∃ line, readConnect text = some line ∧ r.1 = flags ||| line.action.code <<< 4 ∧
          (r.2 ≠ [] → line.target = true) ∧
          (r.2 = [] → line.target = true → (skipTarget rest).isSome) := by
  unfold connConnect readConnect
  refine .store (.accept (fun t1 h1 => .scan ?_) fun h1 => ?_)
  · refine .bind .expect fun _ t2 h2 => .bind .onText fun action t3 h3 => .store (.scan ?_)
    refine .bind (convertTargets_yields _ _ _) fun target rest htarget => .pure (Or.inr ?_)
    refine ⟨⟨action, (skipTarget (skipWhitespace t3)).isSome⟩, ?_, rfl, fun hne => ?_, fun hnil h => ?_⟩
    · simp only [h1, h2, h3, Option.bind_eq_bind, Option.bind_some]
      rfl
    · rwa [if_neg hne] at htarget
    · rw [if_pos hnil] at htarget
      rwa [htarget]
  · refine .pure (Or.inl ⟨?_, rfl, rfl⟩)
    simp only [h1, Option.bind_eq_bind, Option.bind_none]

/-! ## What the end of a connector rules out -/

theorem close_head {text rest : Text} (h : skipStr text " \x7d ".toList = some rest) :
    (skipWhitespace text).headD '\x00' = '}' := by
  by_contra hne
  rw [skipStr_close_none hne] at h
  cases h

theorem skipWord_head {m : Char} {text word : Text} (h : (skipWord text (m :: word)).isSome) :
    text.headD '\x00' = m := by
  cases text with
  | nil => cases h
  | cons c text =>
    unfold skipWord at h
    split at h
    · rename_i hc
      simp only [Bool.and_eq_true, beq_iff_eq] at hc
      exact hc.2
    · cases h

theorem attr_head {text : Text} (h : (skipAttr text).isSome) :
    (skipWhitespace text).headD '\x00' = 'a' := by
  obtain ⟨rest, hrest⟩ := Option.isSome_iff_exists.mp h
  obtain ⟨t, ht, -⟩ := Option.bind_eq_some_iff.mp hrest
  exact skipWord_head (Option.isSome_of_eq_some ht)

theorem hexPrefix_head {c : Char} {text rest : Text} (h : skipHexPrefix text = c :: rest)
    (hc : (hexDigit c).isSome) : (hexDigit (text.headD '\x00')).isSome := by
  unfold skipHexPrefix at h
  split at h
  · exact (by decide : (hexDigit '0').isSome)
  · exact (by decide : (hexDigit '0').isSome)
  · subst h
    exact hc

theorem target_head {text : Text} (h : (skipTarget text).isSome) :
    (hexDigit (text.headD '\x00')).isSome := by
  obtain ⟨rest, hrest⟩ := Option.isSome_iff_exists.mp h
  obtain ⟨r, hr, -⟩ := Option.bind_eq_some_iff.mp hrest
  unfold convertLogaddr at hr
  split at hr
  · cases hr
  · rename_i c t hbody
    cases hc : hexDigit c with
    | none => simp [hc] at hr
    | some d => exact hexPrefix_head hbody (by simp [hc])

theorem hexDigit_not_ws {c : Char} (h : (hexDigit c).isSome) : wsTable c = false := by
  by_contra hc
  simp only [wsTable, Bool.not_eq_false, Bool.or_eq_true, beq_iff_eq, or_assoc] at hc
  rcases hc with rfl | rfl | rfl
  · exact absurd h (by decide)
  · exact absurd h (by decide)
  · exact absurd h (by decide)

/-- A target is no end of a connector. -/
theorem target_not_close {text : Text} (h : (skipTarget text).isSome) :
    (skipWhitespace text).headD '\x00' ≠ '}' := by
  have hhex := target_head h
  cases text with
  | nil => exact absurd hhex (by decide)
  | cons c text =>
    have hws := hexDigit_not_ws hhex
    simp only [List.headD_cons] at hws hhex
    simp only [skipWhitespace, List.dropWhile_cons, hws, Bool.false_eq_true, if_false, List.headD_cons]
    intro hc
    rw [hc] at hhex
    exact absurd hhex (by decide)

/-- An attribute is no connection. -/
theorem attr_not_connect {text : Text} (h : (skipAttr text).isSome) :
    readConnect (skipWhitespace text) = none := by
  by_contra hne
  obtain ⟨line, hline⟩ := Option.ne_none_iff_exists'.mp hne
  obtain ⟨t, ht, -⟩ := Option.bind_eq_some_iff.mp hline
  have hc : (skipWhitespace text).headD '\x00' = 'c' := skipWord_head (Option.isSome_of_eq_some ht)
  rw [attr_head h] at hc
  exact absurd hc (by decide)

/-! ## The connector -/

/-- The flags of an accepted connector, and whether it has targets. -/
theorem convertConn_yields (text : Text) :
    Yields convertConn text fun conn _ =>
      ∃ (isInput : Bool) (action : StratAction),
        (writtenConnect text = none ∧ conn.target = [] ∧
          conn.flags = kindFlags (writtenActive text) isInput ||| action.code) ∨
        ∃ line, writtenConnect text = some line ∧ (conn.target ≠ [] ↔ line.target = true) ∧
          conn.flags = kindFlags (writtenActive text) isInput ||| action.code |||
            line.action.code <<< 4 := by
  unfold convertConn
  refine .here fun place => .skipBin (.chargeSize (.bind (connKind_yields place text) ?_))
  rintro _ t1 ⟨isInput, h1, rfl⟩
  refine .scan (.bind .onText fun action t2 h2 => .store (.store ?_))
  refine .bind (composedIdentifier_yields t2) fun name t3 h3 => ?_
  have hbody : connBody text = some (skipWhitespace (skipAttrs
      ((afterParam "c_param".toList ((skipStr t3 " \x7b ".toList).getD t3)).length + 1)
      (afterParam "c_param".toList ((skipStr t3 " \x7b ".toList).getD t3)))) := by
    simp only [connBody, h1, h2, h3, Option.bind_eq_bind, Option.bind_some]
    rfl
  refine .either fun _ => .param (.bind (attrList_yields _ _) fun attr t6 h6 => .scan ?_)
  refine .bind (connConnect_yields place _ _) ?_
  rintro ⟨flags, target⟩ t7 h7
  refine .bind .expect fun _ t8 h8 => .store (.pure ⟨isInput, action, ?_⟩)
  have hclose := close_head h8
  rcases h6 with rfl | hattr
  · rw [writtenConnect, hbody, Option.bind_some]
    rcases h7 with ⟨hnone, heq, -⟩ | ⟨line, hline, rfl, hsome, hnil⟩
    · cases heq
      exact Or.inl ⟨hnone, rfl, rfl⟩
    · refine Or.inr ⟨line, hline, ⟨hsome, fun htarget hempty => ?_⟩, rfl⟩
      exact target_not_close (hnil hempty htarget) hclose
  · -- an attribute that was given up stands where the end must be
    have hread := attr_not_connect hattr
    rcases h7 with ⟨-, -, rfl⟩ | ⟨line, hline, -⟩
    · have hws : skipWhitespace (skipWhitespace t6) = skipWhitespace t6 :=
        List.dropWhile_idempotent _ _
      rw [hws, attr_head hattr] at hclose
      exact absurd hclose (by decide)
    · rw [hread] at hline
      cases hline

/-! ## The two macros -/

section Macros

variable {conn : ConnRec} {active isInput : Bool} {action : StratAction}

theorem isActive_unconnected (h : conn.flags = kindFlags active isInput ||| action.code) :
    conn.isActive = active := by
  unfold ConnRec.isActive
  rw [h]
  cases active <;> cases isInput <;> cases action <;> rfl

theorem isActive_connected {target : StratAction}
    (h : conn.flags = kindFlags active isInput ||| action.code ||| target.code <<< 4) :
    conn.isActive = (active || target.lowBit) := by
  unfold ConnRec.isActive
  rw [h]
  cases active <;> cases isInput <;> cases action <;> cases target <;> rfl

theorem targetAction_connected {target : StratAction}
    (h : conn.flags = kindFlags active isInput ||| action.code ||| target.code <<< 4) :
    conn.targetAction = if active then target.code ||| 1 else target.code := by
  unfold ConnRec.targetAction
  rw [h]
  cases active <;> cases isInput <;> cases action <;> cases target <;> rfl

theorem code_or_one (action : StratAction) : action.code ||| 1 = action.code ↔ action.lowBit = true := by
  cases action <;> decide

end Macros

/-- **The macros read from an accepted connector what its text says exactly when the
lowest bit of the action of its targets suits the activity that it shares the bit with.** No character
from 128 on is looked up in a table on either side. -/
theorem convertConn_flags_iff {c c' : Cursor} {conn : ConnRec}
    (h : (convertConn.run c).1 = some (conn, c')) :
    (convertConn.Tabled c ∧ FlagsAgree c.text conn) ↔ convertConn.Tabled c ∧ BitShared c.text := by
  refine and_congr_right fun _ => ?_
  obtain ⟨isInput, action, hcase⟩ := convertConn_yields c.text c.bin c.size _ h
  unfold FlagsAgree BitShared
  rcases hcase with ⟨hnone, htarget, hflags⟩ | ⟨line, hline, htarget, hflags⟩
  · simp only at htarget hflags
    simp [hnone, htarget, isActive_unconnected hflags]
  · simp only at htarget hflags
    rw [isActive_connected hflags, targetAction_connected hflags, hline]
    simp only [Option.some.injEq, exists_eq_left', forall_eq']
    cases ht : line.target with
    | false =>
      have hempty : conn.target = [] := by
        by_contra hne
        rw [htarget.mp hne] at ht
        cases ht
      simp only [hempty, List.not_mem_nil, false_imp_iff, implies_true, and_true,
        Bool.false_eq_true, if_false]
      cases writtenActive c.text <;> cases line.action.lowBit <;> simp
    | true =>
      obtain ⟨target, htmem⟩ := List.exists_mem_of_ne_nil _ (htarget.mpr ht)
      have hall (p : Prop) : (∀ _target ∈ conn.target, p) ↔ p :=
        ⟨fun hp => hp target htmem, fun hp _ _ => hp⟩
      rw [hall]
      simp only [if_true]
      have hcode := code_or_one line.action
      cases writtenActive c.text with
      | false => simp
      | true => simpa using hcode

theorem convertConn_flags_inactive :
    (convertConn.Tabled ⟨"(input)==a \x7b connect a==1:b \x7d".toList, 0, 100⟩ ∧
      FlagsAgree "(input)==a \x7b connect a==1:b \x7d".toList ⟨0, "a".toList, [], [⟨1, "b".toList⟩]⟩) ↔
      convertConn.Tabled ⟨"(input)==a \x7b connect a==1:b \x7d".toList, 0, 100⟩ ∧
        BitShared "(input)==a \x7b connect a==1:b \x7d".toList :=
  @convertConn_flags_iff ⟨"(input)==a \x7b connect a==1:b \x7d".toList, 0, 100⟩ ⟨[], 68, 56⟩ _
    (by decide +kernel)

/-- An active connector whose connection is only read: the action of its target reads as
`STRAT_CREATE`. -/
theorem active_target_created :
    (convertConn.run ⟨"input==a \x7b connect a==1:b \x7d".toList, 0, 100⟩).1 =
        some (⟨0x10, "a".toList, [], [⟨1, "b".toList⟩]⟩, ⟨[], 68, 56⟩) ∧
      writtenConnect "input==a \x7b connect a==1:b \x7d".toList = some ⟨.read, true⟩ ∧
      ¬FlagsAgree "input==a \x7b connect a==1:b \x7d".toList
        ⟨0x10, "a".toList, [], [⟨1, "b".toList⟩]⟩ := by
  have hread : writtenConnect "input==a \x7b connect a==1:b \x7d".toList = some ⟨.read, true⟩ := by
    decide +kernel
  refine ⟨by decide +kernel, hread, fun h => ?_⟩
  obtain ⟨line, hline, haction⟩ := h.2 ⟨1, "b".toList⟩ (by simp)
  rw [hread] at hline
  cases hline
  exact absurd haction (by decide)

end Athomux.BinStrat
