import Athomux.BinStrat.Print

/-!
# Reading a printed brick back

The parser is followed over the text that the printer makes, with one judgement
for a conversion of a text in a buffer that has enough room.
-/

namespace Athomux.BinStrat

open Conv

/-! ## A judgement about conversions -/

section Judgement

variable {α β : Type}

/-- With room for `need` bytes the conversion of `text` has the outcome `Q`, the value and the
rest of the text or a failure, and takes no more of the size than that. -/
def Meets (m : Conv α) (text : Text) (need : Nat) (Q : Option (α × Text) → Prop) : Prop :=
  ∀ bin size, need ≤ size → size < addrSpace →
    Q ((m.run ⟨text, bin, size⟩).1.map fun r => (r.1, r.2.text)) ∧
      ∀ r, (m.run ⟨text, bin, size⟩).1 = some r → size ≤ r.2.size + need ∧ r.2.size < addrSpace

/-- The outcome of a success with `P` for the value and the rest. -/
def Done (P : α → Text → Prop) (o : Option (α × Text)) : Prop := ∃ a rest, o = some (a, rest) ∧ P a rest

/-- The outcome of a failure. -/
def Refused (o : Option (α × Text)) : Prop := o = none

theorem Done.mono {P R : α → Text → Prop} {o : Option (α × Text)} (h : Done P o)
    (hPR : ∀ a rest, P a rest → R a rest) : Done R o := by
  obtain ⟨a, rest, ho, hP⟩ := h
  exact ⟨a, rest, ho, hPR a rest hP⟩

theorem bind_fst (m : Conv α) (f : α → Conv β) (c : Cursor) :
    ((m >>= f).run c).1 = (m.run c).1.bind fun r => ((f r.1).run r.2).1 := by
  show ((Conv.bind m f).run c).1 = _
  rcases h : m.run c with ⟨_ | ⟨a, c'⟩, stores⟩ <;> simp [Conv.bind, h]

namespace Meets

variable {m : Conv α} {f : α → Conv β} {text : Text} {n k : Nat}
  {P : α → Text → Prop} {Q R : Option (β × Text) → Prop}

theorem mono {Q R : Option (α × Text) → Prop} (h : Meets m text n Q) (hnk : n ≤ k)
    (hQR : ∀ o, Q o → R o) : Meets m text k R := by
  intro bin size hneed hlt
  obtain ⟨hQ, hs⟩ := h bin size (by omega) hlt
  refine ⟨hQR _ hQ, fun r hr => ?_⟩
  have := hs r hr
  omega

theorem bind (hm : Meets m text n (Done P))
    (hf : ∀ a rest, P a rest → Meets (f a) rest k Q) : Meets (m >>= f) text (n + k) Q := by
  intro bin size hneed hlt
  obtain ⟨⟨a, rest, h1, hP⟩, hs⟩ := hm bin size (by omega) hlt
  obtain ⟨⟨a', ⟨rest', bin1, size1⟩⟩, h2, h3⟩ := Option.map_eq_some_iff.mp h1
  obtain ⟨rfl, rfl⟩ := Prod.mk.inj h3
  obtain ⟨hle, hlt1⟩ : size ≤ size1 + n ∧ size1 < addrSpace := hs _ h2
  obtain ⟨hQ, ht⟩ := hf _ _ hP bin1 size1 (by omega) hlt1
  rw [bind_fst, h2]
  refine ⟨hQ, fun r hr => ?_⟩
  have := ht r hr
  omega

/-- What a success with a known outcome does to the cursors. -/
theorem run {a : α} {rest : Text} (hm : Meets m text n (Done fun x t => x = a ∧ t = rest))
    {bin size : Nat} (hneed : n ≤ size) (hlt : size < addrSpace) :
    ∃ bin' size', (m.run ⟨text, bin, size⟩).1 = some (a, ⟨rest, bin', size'⟩) ∧
      size ≤ size' + n ∧ size' < addrSpace := by
  obtain ⟨⟨x, t, h1, hx, ht⟩, hs⟩ := hm bin size hneed hlt
  obtain ⟨⟨x', ⟨t', bin', size'⟩⟩, h2, h3⟩ := Option.map_eq_some_iff.mp h1
  obtain ⟨hx', ht'⟩ := Prod.mk.inj h3
  refine ⟨bin', size', ?_, hs _ h2⟩
  rw [h2, ← hx, ← ht, ← hx', ← ht']

theorem bind_refused (hm : Meets m text n Refused) (hQ : Q none) : Meets (m >>= f) text n Q := by
  intro bin size hneed hlt
  have h := (hm bin size hneed hlt).1
  rw [Refused, Option.map_eq_none_iff] at h
  rw [bind_fst, h]
  exact ⟨hQ, fun r hr => by cases hr⟩

/-- A step that leaves the size alone. -/
theorem step {a : α} {rest : Text} {shift : Nat → Nat}
    (hm : ∀ bin size, (m.run ⟨text, bin, size⟩).1 = some (a, ⟨rest, shift bin, size⟩))
    (hf : Meets (f a) rest n Q) : Meets (m >>= f) text n Q := by
  intro bin size hneed hlt
  rw [bind_fst, hm]
  exact hf _ _ hneed hlt

theorem here {f : Nat → Conv β} (hf : ∀ place, Meets (f place) text n Q) :
    Meets (Conv.here >>= f) text n Q := by
  intro bin size hneed hlt
  rw [bind_fst]
  exact hf bin bin size hneed hlt

theorem cursors {f : Cursor → Conv β} (hf : ∀ bin size, Meets (f ⟨text, bin, size⟩) text n Q) :
    Meets (Conv.cursors >>= f) text n Q := by
  intro bin size hneed hlt
  rw [bind_fst]
  exact hf bin size bin size hneed hlt

theorem pure {a : α} {Q : Option (α × Text) → Prop} (h : Q (some (a, text))) :
    Meets (Pure.pure a : Conv α) text 0 Q := by
  refine fun bin size _ hlt => ⟨h, fun r hr => ?_⟩
  cases hr
  exact ⟨Nat.le_refl _, hlt⟩

theorem fail {Q : Option (α × Text) → Prop} (h : Q none) :
    Meets (Conv.fail : Conv α) text 0 Q :=
  fun _ _ _ _ => ⟨h, fun r hr => by cases hr⟩

section Steps

variable {g : Unit → Conv β} {q : Text → List Char}

theorem store {addr len : Nat} (h : Meets (g ()) text n Q) :
    Meets (Conv.store addr len >>= g) text n Q :=
  step (fun _ _ => rfl) h

theorem skipBin {len : Nat} (h : Meets (g ()) text n Q) : Meets (Conv.skipBin len >>= g) text n Q :=
  @step _ _ _ _ _ _ _ _ _ (· + len) (fun _ _ => rfl) h

theorem scan {s : Text → Text} (h : Meets (g ()) (s text) n Q) :
    Meets (Conv.scan s q >>= g) text n Q :=
  step (fun _ _ => rfl) h

theorem expect {s : Text → Option Text} {rest : Text} (hs : s text = some rest)
    (h : Meets (g ()) rest n Q) : Meets (Conv.expect s q >>= g) text n Q :=
  @step _ _ _ _ _ _ _ _ _ id (fun bin size => by simp [Conv.expect, Conv.onText, hs]) h

theorem expect_none {s : Text → Option Text} (hs : s text = none) (hQ : Q none) :
    Meets (Conv.expect s q >>= g) text n Q :=
  bind_refused (fun bin size _ _ => by simp [Conv.expect, Conv.onText, hs, Refused]) hQ

theorem onText {s : Text → Option (α × Text)} {a : α} {rest : Text} (hs : s text = some (a, rest))
    (h : Meets (f a) rest n Q) : Meets (Conv.onText s q >>= f) text n Q :=
  @step _ _ _ _ _ _ _ _ _ id (fun bin size => by simp [Conv.onText, hs]) h

theorem peek {f : Char → Conv β} (h : Meets (f (text.headD '\x00')) text n Q) :
    Meets (Conv.peek >>= f) text n Q :=
  step (fun _ _ => rfl) h

theorem lookUp {f : Char → Conv β} (h : Meets (f (text.headD '\x00')) text n Q) :
    Meets (Conv.lookUp >>= f) text n Q :=
  step (fun _ _ => rfl) h

theorem accept {f : Bool → Conv β} {s : Text → Option Text} {rest : Text}
    (hs : s text = some rest) (h : Meets (f true) rest n Q) :
    Meets (Conv.accept s q >>= f) text n Q :=
  @step _ _ _ _ _ _ _ _ _ id (fun bin size => by simp [Conv.accept, Conv.onText, hs]) h

theorem accept_none {f : Bool → Conv β} {s : Text → Option Text}
    (hs : s text = none) (h : Meets (f false) text n Q) :
    Meets (Conv.accept s q >>= f) text n Q :=
  @step _ _ _ _ _ _ _ _ _ id (fun bin size => by simp [Conv.accept, Conv.onText, hs]) h

/-- The size is charged by what the room pays for. -/
theorem chargeSize {len : Nat} (h : Meets (g ()) text n Q) :
    Meets (Conv.chargeSize len >>= g) text (len + n) Q := by
  intro bin size hneed hlt
  have hsub : sub64 size len = size - len := sub64_eq (by omega) hlt
  obtain ⟨hQ, hs⟩ := h bin (size - len) (by omega) (by omega)
  rw [bind_fst]
  simp only [Conv.chargeSize, Option.bind_some, hsub]
  refine ⟨hQ, fun r hr => ?_⟩
  have := hs r hr
  omega

end Steps

theorem attempt {P : α → Text → Prop} (hm : Meets m text n (Done P)) :
    Meets (Conv.attempt m) text n (Done fun o rest => ∃ a, o = some a ∧ P a rest) := by
  intro bin size hneed hlt
  obtain ⟨⟨a, rest, h1, hP⟩, hs⟩ := hm bin size hneed hlt
  obtain ⟨⟨a', c'⟩, h2, h3⟩ := Option.map_eq_some_iff.mp h1
  obtain ⟨rfl, rfl⟩ := Prod.mk.inj h3
  have hrun : ((Conv.attempt m).run ⟨text, bin, size⟩).1 = some (some a', c') := by
    rcases hmc : m.run ⟨text, bin, size⟩ with ⟨o, stores⟩
    rw [hmc] at h2
    cases h2
    simp [Conv.attempt, hmc]
  rw [hrun]
  refine ⟨⟨some a', c'.text, rfl, a', rfl, hP⟩, fun r hr => ?_⟩
  cases hr
  exact hs _ h2

theorem attempt_refused (hm : Meets m text n Refused) :
    Meets (Conv.attempt m) text n (Done fun o rest => o = none ∧ rest = text) := by
  intro bin size hneed hlt
  have h := (hm bin size hneed hlt).1
  rw [Refused, Option.map_eq_none_iff] at h
  have hrun : ((Conv.attempt m).run ⟨text, bin, size⟩).1 = some (none, ⟨text, bin, size⟩) := by
    rcases hmc : m.run ⟨text, bin, size⟩ with ⟨o, stores⟩
    rw [hmc] at h
    cases h
    simp [Conv.attempt, hmc]
  rw [hrun]
  refine ⟨⟨none, text, rfl, rfl, rfl⟩, fun r hr => ?_⟩
  cases hr
  exact ⟨by simp, hlt⟩

end Meets

end Judgement

/-! ## Words and strings -/

/-- The text does not go on with a character of the table. -/
def Stops (table : Char → Bool) (rest : Text) : Prop := table (rest.headD '\x00') = false

/-- A legal identifier. -/
def IsWord (w : Text) : Prop := w ≠ [] ∧ ∀ c ∈ w, idTable c = true

theorem wordLoop_eq {w rest : Text} (hw : ∀ c ∈ w, idTable c = true) (hrest : Stops idTable rest) :
    ∀ {bin size : Nat}, w.length ≤ size →
      (wordLoop (w ++ rest) bin size).1 = some (w, ⟨rest, bin + w.length, size - w.length⟩) := by
  induction w with
  | nil =>
    intro bin size _
    cases rest with
    | nil => simp [wordLoop]
    | cons c rest =>
      have : idTable c = false := hrest
      simp [wordLoop, this]
  | cons c w ih =>
    intro bin size hsize
    have hsize' : w.length + 1 ≤ size := hsize
    have hc : idTable c = true := hw c List.mem_cons_self
    have hpos : size ≠ 0 := by omega
    have := @ih (fun d hd => hw d (List.mem_cons_of_mem _ hd)) (bin + 1) (size - 1) (by omega)
    simp only [List.cons_append, wordLoop, hc, if_true, hpos, if_false, this, Option.map_some,
      List.length_cons, Option.some.injEq, Prod.mk.injEq, Cursor.mk.injEq, true_and]
    omega

theorem convertWord_meets {w rest : Text} (hw : IsWord w) (hrest : Stops idTable rest) :
    Meets convertWord (w ++ rest) (w.length + 1) (Done fun a t => a = w ∧ t = rest) := by
  obtain ⟨c, w', rfl⟩ := List.exists_cons_of_ne_nil hw.1
  have hc : idTable c = true := hw.2 c List.mem_cons_self
  unfold convertWord
  refine .lookUp ?_
  simp only [List.cons_append, List.headD_cons, hc, Bool.not_true, Bool.false_eq_true, if_false]
  intro bin size hneed hlt
  have hneed' : w'.length + 1 + 1 ≤ size := hneed
  have hloop := @wordLoop_eq _ _ hw.2 hrest bin size (by simp; omega)
  have hpos : size - (w'.length + 1) ≠ 0 := by omega
  simp only [List.cons_append, List.length_cons] at hloop
  simp only [bind_fst, readWord, hloop, Option.bind_some, putTerminator, hpos, if_false]
  refine ⟨⟨_, _, rfl, rfl, rfl⟩, fun r hr => ?_⟩
  cases hr
  simp only [List.length_cons]
  omega

theorem stringLoop_eq {v rest : Text} (hv : ∀ c ∈ v, printable c = true)
    (hrest : Stops printable rest) : ∀ {bin size : Nat}, v.length + 1 ≤ size →
      (stringLoop (v ++ rest) bin size).1 = some (v, ⟨rest, bin + v.length, size - v.length⟩) := by
  induction v with
  | nil =>
    intro bin size _
    cases rest with
    | nil => simp [stringLoop]
    | cons c rest =>
      have : printable c = false := hrest
      simp [stringLoop, this]
  | cons c v ih =>
    intro bin size hsize
    have hsize' : v.length + 1 + 1 ≤ size := hsize
    have hc : printable c = true := hv c List.mem_cons_self
    have hroom : ¬ size ≤ 1 := by omega
    have := @ih (fun d hd => hv d (List.mem_cons_of_mem _ hd)) (bin + 1) (size - 1) (by omega)
    simp only [List.cons_append, stringLoop, hc, if_true, hroom, if_false, this, Option.map_some,
      List.length_cons, Option.some.injEq, Prod.mk.injEq, Cursor.mk.injEq, true_and]
    omega

theorem convertString_meets {v rest : Text} (hv : ∀ c ∈ v, printable c = true)
    (hrest : Stops printable rest) :
    Meets convertString (v ++ rest) (v.length + 1) (Done fun a t => a = v ∧ t = rest) := by
  intro bin size hneed hlt
  have hloop := @stringLoop_eq _ _ hv hrest bin _ hneed
  have hsub : sub64 (size - v.length) 1 = size - v.length - 1 := sub64_eq (by omega) (by omega)
  unfold convertString
  simp only [bind_fst, readString, hloop, Option.bind_some, here, store, skipBin, chargeSize, hsub]
  refine ⟨⟨_, _, rfl, rfl, rfl⟩, fun r hr => ?_⟩
  cases hr
  simp only
  omega

/-- The words of a composed identifier, from the second one on. -/
def dotted (words : List Text) : Text := words.flatMap fun w => '.' :: w

/-- The room for the strings of the words, each with its terminator. -/
def wordsRoom (words : List Text) : Nat := (words.map fun w => w.length + 1).sum

theorem stops_dotted {words : List Text} {rest : Text} (h : Stops idTable rest) :
    Stops idTable (dotted words ++ rest) := by
  cases words with
  | nil => exact h
  | cons w words => exact (by decide : idTable '.' = false)

theorem composedLoop_eq {rest : Text} (hrest : Stops idTable rest)
    (hdot : rest.headD '\x00' ≠ '.') {bin0 size0 n : Nat} (hn : n ≤ size0) (hlt0 : size0 < addrSpace)
    (words : List Text) : ∀ {fuel : Nat} {word : Text}, (∀ w ∈ words, IsWord w) →
    words.length ≤ fuel → wordsRoom words ≤ n → ∀ {bin size : Nat}, size0 ≤ size + n →
    size < addrSpace → ∃ bin' size',
      ((composedLoop bin0 size0 fuel word).run ⟨dotted words ++ rest, bin, size⟩).1 =
        some (words.getLastD word, ⟨rest, bin', size'⟩) ∧ size0 ≤ size' + n ∧ size' < addrSpace := by
  induction words with
  | nil =>
    intro fuel word _ _ _ bin size hle hlt
    refine ⟨bin, size, ?_, hle, hlt⟩
    cases fuel with
    | zero => rfl
    | succ fuel =>
      have hne : ¬ (rest.headD '\x00' == '.') = true := by simpa using hdot
      simp only [composedLoop, bind_fst, Conv.peek, Option.bind_some, dotted, List.flatMap_nil,
        List.nil_append, hne]
      rfl
  | cons w words ih =>
    intro fuel word hwords hfuel hroom bin size hle hlt
    obtain ⟨fuel, rfl⟩ := Nat.exists_eq_succ_of_ne_zero (by simp at hfuel; omega : fuel ≠ 0)
    have hroom' : w.length + 1 + wordsRoom words ≤ n := by simpa [wordsRoom] using hroom
    obtain ⟨bin1, size1, h2, hle1, hlt1⟩ := (convertWord_meets (hwords w List.mem_cons_self)
      (stops_dotted hrest)).run (by omega : w.length + 1 ≤ size0) hlt0
    obtain ⟨bin', size', h4, h5⟩ := ih
      (fun v hv => hwords v (List.mem_cons_of_mem _ hv)) (by simpa using hfuel) (by omega)
      (by omega) hlt1
    refine ⟨bin', size', ?_, h5⟩
    have htext : dotted (w :: words) ++ rest = '.' :: (w ++ (dotted words ++ rest)) := by
      simp [dotted]
    simp only [composedLoop, htext, bind_fst, Conv.peek, Option.bind_some, List.headD_cons,
      beq_self_eq_true, if_true, Conv.scan, Conv.onText, Option.map_some, List.tail_cons, resetBin,
      List.getLastD_cons]
    rw [h2]
    exact h4

theorem convertComposedIdentifier_meets {word : Text} {words : List Text} {rest : Text}
    (hword : IsWord word) (hwords : ∀ w ∈ words, IsWord w) (hrest : Stops idTable rest)
    (hdot : rest.headD '\x00' ≠ '.') :
    Meets convertComposedIdentifier (word ++ (dotted words ++ rest)) (wordsRoom (word :: words))
      (Done fun a t => a = words.getLastD word ∧ t = rest) := by
  intro bin size hneed hlt
  have hneed' : word.length + 1 + wordsRoom words ≤ size := by simpa [wordsRoom] using hneed
  obtain ⟨bin1, size1, h2, hle1, hlt1⟩ := (convertWord_meets hword (stops_dotted hrest)).run
    (by omega : word.length + 1 ≤ size) hlt
  have hfuel : words.length ≤ (word ++ (dotted words ++ rest)).length := by
    have : words.length ≤ (dotted words).length := by
      clear * -
      induction words with
      | nil => simp
      | cons w words ih => simp [dotted] at ih ⊢; omega
    simp
    omega
  obtain ⟨bin', size', h4, h5, h6⟩ := composedLoop_eq hrest hdot hneed hlt words
    hwords hfuel (by simp [wordsRoom])
    (by simp [wordsRoom]; omega) hlt1
  have hrun : (convertComposedIdentifier.run ⟨word ++ (dotted words ++ rest), bin, size⟩).1 =
      some (words.getLastD word, ⟨rest, bin', size'⟩) := by
    unfold convertComposedIdentifier
    simp only [bind_fst, cursors, Option.bind_some]
    rw [h2]
    exact h4
  rw [hrun]
  refine ⟨⟨_, _, rfl, rfl, rfl⟩, fun r hr => ?_⟩
  cases hr
  exact ⟨h5, h6⟩

/-! ## Scans of printed text -/

theorem skipWhitespace_append {ws rest : Text} (h : ∀ c ∈ ws, wsTable c = true) :
    skipWhitespace (ws ++ rest) = skipWhitespace rest := by
  induction ws with
  | nil => rfl
  | cons c ws ih =>
    have hc : wsTable c = true := h c List.mem_cons_self
    have := ih fun d hd => h d (List.mem_cons_of_mem _ hd)
    simpa [skipWhitespace, hc] using this

theorem skipWhitespace_of_stops {text : Text} (h : Stops wsTable text) :
    skipWhitespace text = text := by
  cases text with
  | nil => rfl
  | cons c text =>
    have : wsTable c = false := h
    simp [skipWhitespace, this]

theorem skipWhitespace_idem (text : Text) : skipWhitespace (skipWhitespace text) = skipWhitespace text := by
  induction text with
  | nil => rfl
  | cons c text ih =>
    cases hc : wsTable c with
    | true => simpa [skipWhitespace, hc] using ih
    | false => simp [skipWhitespace, hc]

theorem idTable_not_ws {c : Char} (h : idTable c = true) : wsTable c = false := by
  simp only [wsTable, Bool.or_eq_false_iff, beq_eq_false_iff_ne]
  refine ⟨⟨?_, ?_⟩, ?_⟩ <;> rintro rfl <;> revert h <;> decide

theorem IsWord.stops_ws {w rest : Text} (hw : IsWord w) : Stops wsTable (w ++ rest) := by
  obtain ⟨c, w', rfl⟩ := List.exists_cons_of_ne_nil hw.1
  exact idTable_not_ws (hw.2 c List.mem_cons_self)

theorem skipWord_append {w rest : Text} (hw : ∀ c ∈ w, idTable c = true)
    (hrest : Stops idTable rest) : skipWord (w ++ rest) w = some rest := by
  induction w with
  | nil =>
    cases rest with
    | nil => rfl
    | cons c rest =>
      have : idTable c = false := hrest
      simp [skipWord, this]
  | cons c w ih =>
    have hc : idTable c = true := hw c List.mem_cons_self
    have := ih fun d hd => hw d (List.mem_cons_of_mem _ hd)
    simpa [skipWord, hc] using this

theorem skipWord_none {text w : Text} {m : Char} (h : text.headD '\x00' ≠ m) :
    skipWord text (m :: w) = none := by
  cases text with
  | nil => rfl
  | cons c text =>
    have hc : c ≠ m := h
    simp [skipWord, hc]

theorem skipAnyWord_append {w rest : Text} (hw : IsWord w) (hrest : Stops idTable rest) :
    skipAnyWord (w ++ rest) = some rest := by
  have hdrop : (w ++ rest).dropWhile idTable = rest := by
    rw [List.dropWhile_append_of_pos hw.2]
    cases rest with
    | nil => rfl
    | cons c rest =>
      have : idTable c = false := hrest
      simp [this]
  obtain ⟨c, w', rfl⟩ := List.exists_cons_of_ne_nil hw.1
  have hc : idTable c = true := hw.2 c List.mem_cons_self
  simpa [skipAnyWord, hc] using hdrop

/-- What `convert_op` leaves of a value that begins with the second half of an operator. -/
def stripEq : Text → Text
  | '=' :: v => v
  | v => v

theorem stripEq_cons {c : Char} {v : Text} (h : c ≠ '=') : stripEq (c :: v) = c :: v := by
  unfold stripEq
  split
  · rename_i heq
    exact absurd (List.cons.inj heq).1 h
  · rfl

theorem convertOp_eq (text : Text) : convertOp ('=' :: text) = some (.read, stripEq text) := by
  cases text with
  | nil => rfl
  | cons c text =>
    by_cases hc : c = '='
    · subst hc
      rfl
    · rw [stripEq_cons hc]
      simp only [convertOp, opAction, if_true]
      split
      · rename_i heq
        exact absurd (List.cons.inj heq).1 hc
      · rfl

theorem stripEq_append {v rest : Text} (h : rest.headD '\x00' ≠ '=') :
    stripEq (v ++ rest) = stripEq v ++ rest := by
  cases v with
  | nil =>
    cases rest with
    | nil => rfl
    | cons c rest =>
      exact stripEq_cons h
  | cons c v =>
    by_cases hc : c = '='
    · subst hc
      rfl
    · rw [List.cons_append, stripEq_cons hc, stripEq_cons hc, List.cons_append]

theorem stripEq_suffix (v : Text) : stripEq v <:+ v := by
  cases v with
  | nil => exact List.suffix_refl _
  | cons c v =>
    by_cases hc : c = '='
    · subst hc
      exact List.suffix_cons _ _
    · exact ⟨[], stripEq_cons hc⟩

theorem mem_of_mem_stripEq {v : Text} {c : Char} (h : c ∈ stripEq v) : c ∈ v :=
  (stripEq_suffix v).mem h

theorem length_stripEq_le (v : Text) : (stripEq v).length ≤ v.length :=
  (stripEq_suffix v).length_le

/-! ## Attributes -/

def attrText (word : Text) (words : List Text) (v : Text) : Text :=
  "attr ".toList ++ (word ++ (dotted words ++ '=' :: v))

theorem convertAttr_meets {text word v rest : Text} {words : List Text}
    {Q : Option (AttrRec × Text) → Prop}
    (htext : skipWhitespace text = attrText word words v ++ rest) (hword : IsWord word)
    (hwords : ∀ w ∈ words, IsWord w) (hv : ∀ c ∈ v, printable c = true)
    (hrest : Stops printable rest) (heq : rest.headD '\x00' ≠ '=')
    (hQ : match skipEndOfLine rest with
      | some t => Q (some (⟨words.getLastD word, stripEq v⟩, t))
      | none => Q none) :
    Meets convertAttr text (wordsRoom (word :: words) + (v.length + 1)) Q := by
  have hws : skipWhitespace (' ' :: (word ++ (dotted words ++ '=' :: v) ++ rest)) =
      word ++ (dotted words ++ ('=' :: (v ++ rest))) := by
    have := skipWhitespace_of_stops
      (hword.stops_ws : Stops wsTable (word ++ (dotted words ++ ('=' :: (v ++ rest)))))
    simpa [skipWhitespace, wsTable] using this
  have hattr : skipWord (attrText word words v ++ rest) "attr".toList =
      some (' ' :: (word ++ (dotted words ++ '=' :: v) ++ rest)) :=
    skipWord_append (w := "attr".toList) (List.all_eq_true.mp rfl) (by decide : idTable ' ' = false)
  unfold convertAttr
  refine .here fun place => .skipBin (.scan ?_)
  rw [htext]
  refine .expect hattr (.scan ?_)
  rw [hws]
  refine .store (.bind (convertComposedIdentifier_meets hword hwords
    (by decide : idTable '=' = false) (by decide : '=' ≠ '.')) ?_)
  rintro _ _ ⟨rfl, rfl⟩
  refine .onText (convertOp_eq _) (.store ?_)
  rw [stripEq_append heq]
  have hstr := convertString_meets (v := stripEq v) (fun c hc => hv c (mem_of_mem_stripEq hc)) hrest
  refine (Meets.bind (n := v.length + 1) (k := 0) (hstr.mono ?_ fun _ h => h) ?_)
  · have := length_stripEq_le v
    omega
  rintro value t ⟨hvalue, ht⟩
  rw [hvalue, ht]
  cases heol : skipEndOfLine rest with
  | none =>
    rw [heol] at hQ
    exact .expect_none heol hQ
  | some t =>
    rw [heol] at hQ
    exact .expect heol (.store (.pure hQ))

/-! ## Lists of records -/

section Lists

variable {α γ : Type} {m : Conv α} {f : γ → Text} {g : γ → α} {cost : γ → Nat} {tail : Text}
  {n0 : Nat}

theorem length_skipWhitespace_le (text : Text) : (skipWhitespace text).length ≤ text.length := by
  unfold skipWhitespace
  exact (List.dropWhile_sublist _).length_le

theorem length_skipWhitespace_append {text rest : Text} (h : skipWhitespace text ≠ []) :
    (skipWhitespace (text ++ rest)).length = (skipWhitespace text).length + rest.length := by
  induction text with
  | nil => exact absurd rfl h
  | cons c text ih =>
    cases hc : wsTable c with
    | true =>
      have := ih (by simpa [skipWhitespace, hc] using h)
      simpa [skipWhitespace, hc] using this
    | false =>
      simp [skipWhitespace, hc]
      omega

theorem length_le_text (xs : List γ) (hf : ∀ x ∈ xs, skipWhitespace (f x) ≠ []) :
    xs.length ≤ (skipWhitespace (xs.flatMap f ++ tail)).length := by
  cases xs with
  | nil => simp
  | cons x xs =>
    have hrest : xs.length ≤ (xs.flatMap f).length := by
      have hxs : ∀ y ∈ xs, skipWhitespace (f y) ≠ [] := fun y hy => hf y (List.mem_cons_of_mem _ hy)
      clear hf
      induction xs with
      | nil => simp
      | cons y ys ih =>
        have hy : 1 ≤ (skipWhitespace (f y)).length :=
          List.length_pos_of_ne_nil (hxs y List.mem_cons_self)
        have := length_skipWhitespace_le (f y)
        have := ih fun z hz => hxs z (List.mem_cons_of_mem _ hz)
        simp only [List.flatMap_cons, List.length_append, List.length_cons]
        omega
    have hx := hf x List.mem_cons_self
    have hpos : 1 ≤ (skipWhitespace (f x)).length := List.length_pos_of_ne_nil hx
    rw [List.flatMap_cons, List.append_assoc, length_skipWhitespace_append hx, List.length_append,
      List.length_cons]
    omega

theorem whileConvert_meets
    (hend : ∀ T, skipWhitespace T = skipWhitespace tail → Meets m T n0 Refused) (xs : List γ) :
    ∀ {fuel : Nat} {T : Text},
    (∀ x ∈ xs, ∀ T rest, skipWhitespace T = skipWhitespace (f x ++ rest) →
      Meets m T (cost x) (Done fun a t => a = g x ∧ skipWhitespace t = skipWhitespace rest)) →
    xs.length < fuel → skipWhitespace T = skipWhitespace (xs.flatMap f ++ tail) →
    Meets (whileConvert m fuel) T ((xs.map cost).sum + n0) (Done fun recs t =>
      recs.map Prod.snd = xs.map g ∧ skipWhitespace t = skipWhitespace tail) := by
  induction xs with
  | nil =>
    intro fuel T _ hfuel hT
    obtain ⟨fuel, rfl⟩ := Nat.exists_eq_succ_of_ne_zero (Nat.pos_iff_ne_zero.mp hfuel)
    unfold whileConvert
    refine .here fun place => ?_
    refine (Meets.bind (.attempt_refused (hend T hT)) (k := 0) ?_).mono (by simp) fun _ h => h
    rintro o t ⟨rfl, rfl⟩
    exact .pure ⟨_, _, rfl, rfl, hT⟩
  | cons x xs ih =>
    intro fuel T hstep hfuel hT
    obtain ⟨fuel, rfl⟩ := Nat.exists_eq_succ_of_ne_zero (by omega : fuel ≠ 0)
    have hx := hstep x List.mem_cons_self T (xs.flatMap f ++ tail) (by simpa using hT)
    unfold whileConvert
    refine .here fun place => ?_
    refine (Meets.bind (.attempt hx) (k := (xs.map cost).sum + n0) ?_).mono (by simp; omega)
      fun _ h => h
    rintro o t ⟨a, rfl, rfl, ht⟩
    refine (Meets.bind (ih (fun y hy => hstep y (List.mem_cons_of_mem _ hy))
      (by simpa using hfuel) ht) (k := 0) ?_).mono (by simp) fun _ h => h
    rintro recs t' ⟨hrecs, ht'⟩
    exact .pure ⟨_, _, rfl, by simp [hrecs], ht'⟩

theorem convertList_meets {head : Nat} {T : Text}
    (hend : ∀ T, skipWhitespace T = skipWhitespace tail → Meets m T n0 Refused) (xs : List γ)
    (hstep : ∀ x ∈ xs, ∀ T rest, skipWhitespace T = skipWhitespace (f x ++ rest) →
      Meets m T (cost x) (Done fun a t => a = g x ∧ skipWhitespace t = skipWhitespace rest))
    (hf : ∀ x ∈ xs, skipWhitespace (f x) ≠ [])
    (hT : skipWhitespace T = skipWhitespace (xs.flatMap f ++ tail)) :
    Meets (convertList m head) T ((xs.map cost).sum + n0) (Done fun as t =>
      as = xs.map g ∧ skipWhitespace t = skipWhitespace tail) := by
  have hfuel : xs.length < T.length + 1 := by
    have h1 := @length_le_text _ _ tail xs hf
    have h2 := length_skipWhitespace_le T
    rw [hT] at h2
    omega
  unfold convertList
  refine .store (.cursors fun bin size => ?_)
  refine (Meets.bind (whileConvert_meets hend xs hstep hfuel hT) (k := 0) ?_).mono (Nat.le_refl _)
    fun _ h => h
  rintro recs t ⟨hrecs, ht⟩
  -- the last `NULL` goes into the field or into the last record
  split <;> exact .store (.pure ⟨_, _, rfl, hrecs, ht⟩)

end Lists

/-! ## Targets -/

theorem hexDigit_upper {d : Nat} (h : d < 16) : hexDigit (Nat.digitChar d).toUpper = some d := by
  have : ∀ d : Fin 16, hexDigit (Nat.digitChar d).toUpper = some d.val := by decide
  exact this ⟨d, h⟩

theorem logaddrLoop_digits (n : Nat) : ∀ {rest : Text}, n < 2 ^ 64 →
    logaddrLoop 0 ((Nat.toDigits 16 n).map Char.toUpper ++ rest) =
      logaddrLoop (BitVec.ofNat 64 n) rest := by
  induction n using Nat.strong_induction_on with
  | _ n ih =>
    intro rest hn
    by_cases hlt : n < 16
    · simp [Nat.toDigits_of_lt_base hlt, logaddrLoop, hexDigit_upper hlt]
    · have hrec := @ih (n / 16) (by omega) ((Nat.digitChar (n % 16)).toUpper :: rest) (by omega)
      have hsmall : ¬ 2 ^ 63 ≤ (BitVec.ofNat 64 (n / 16)).toNat := by
        rw [BitVec.toNat_ofNat]
        omega
      have hval : BitVec.ofNat 64 (n / 16) * 0x10 + BitVec.ofNat 64 (n % 16) = BitVec.ofNat 64 n := by
        apply BitVec.eq_of_toNat_eq
        have h16 : BitVec.toNat (0x10 : BitVec 64) = 16 := rfl
        simp only [BitVec.toNat_add, BitVec.toNat_mul, BitVec.toNat_ofNat, h16]
        omega
      rw [Nat.toDigits_of_base_le (by decide) (by omega), List.map_append, List.append_assoc]
      simp only [List.map_cons, List.map_nil, List.singleton_append]
      rw [hrec, logaddrLoop, hexDigit_upper (Nat.mod_lt _ (by decide))]
      simp only [hsmall, if_false, hval]

theorem hexUpper_isHex (a : BitVec 64) : ∀ c ∈ hexUpper a, (hexDigit c).isSome := by
  have : ∀ n : Nat, ∀ c ∈ (Nat.toDigits 16 n).map Char.toUpper, (hexDigit c).isSome := by
    intro n
    induction n using Nat.strong_induction_on with
    | _ n ih =>
      intro c hc
      by_cases hlt : n < 16
      · rw [Nat.toDigits_of_lt_base hlt] at hc
        cases List.mem_singleton.mp hc
        rw [hexDigit_upper hlt]
        rfl
      · rw [Nat.toDigits_of_base_le (by decide) (by omega), List.map_append, List.mem_append] at hc
        rcases hc with hc | hc
        · exact ih (n / 16) (by omega) c hc
        · cases List.mem_singleton.mp hc
          rw [hexDigit_upper (Nat.mod_lt _ (by decide))]
          rfl
  exact this a.toNat

theorem skipHexPrefix_eq {c : Char} {text : Text} (h : text.headD '\x00' ≠ 'x')
    (h' : text.headD '\x00' ≠ 'X') : skipHexPrefix (c :: text) = c :: text := by
  unfold skipHexPrefix
  split
  · rename_i heq
    cases (List.cons.inj heq).2
    exact absurd rfl h
  · rename_i heq
    cases (List.cons.inj heq).2
    exact absurd rfl h'
  · rfl

theorem convertLogaddr_eq (a : BitVec 64) (rest : Text) :
    convertLogaddr (hexUpper a ++ ':' :: rest) = some (a, ':' :: rest) := by
  have hloop : logaddrLoop 0 (hexUpper a ++ ':' :: rest) = some (a, ':' :: rest) := by
    rw [hexUpper, logaddrLoop_digits _ a.isLt, BitVec.ofNat_toNat, BitVec.setWidth_eq, logaddrLoop]
    simp [hexDigit]
  have hhex := hexUpper_isHex a
  have hne : hexUpper a ≠ [] := by simp [hexUpper]
  obtain ⟨c, ds, hds⟩ := List.exists_cons_of_ne_nil hne
  rw [hds] at hhex hloop ⊢
  have hc : (hexDigit c).isNone = false := by
    simpa using hhex c List.mem_cons_self
  have hnext : ∀ x, (hexDigit x).isNone → x ≠ ':' → (ds ++ ':' :: rest).headD '\x00' ≠ x := by
    intro x hx hcolon
    cases ds with
    | nil => exact fun h => hcolon h.symm
    | cons d ds =>
      rintro rfl
      have := hhex d (by simp)
      simp only [List.cons_append, List.headD_cons] at hx
      rw [Option.isNone_iff_eq_none] at hx
      simp [hx] at this
  unfold convertLogaddr
  rw [List.cons_append, skipHexPrefix_eq (hnext 'x' (by decide) (by decide))
    (hnext 'X' (by decide) (by decide))]
  simp only [hc]
  exact hloop

def targetText (target : ConnTargetRec) : Text := hexUpper target.brickAddr ++ ':' :: target.name

theorem convertConnTarget_meets {target : ConnTargetRec} {rest : Text} (hname : IsWord target.name)
    (hrest : Stops idTable rest) :
    Meets convertConnTarget (targetText target ++ rest) (target.name.length + 1)
      (Done fun a t => a = target ∧ t = rest) := by
  have haddr : convertLogaddr (targetText target ++ rest) =
      some (target.brickAddr, ':' :: (target.name ++ rest)) := by
    simpa [targetText] using convertLogaddr_eq target.brickAddr (target.name ++ rest)
  unfold convertConnTarget
  refine .here fun place => .skipBin (.store (.onText haddr ?_))
  refine .expect rfl (.store ?_)
  refine (Meets.bind (convertWord_meets hname hrest) (k := 0) ?_).mono (Nat.le_refl _) fun _ h => h
  rintro name t ⟨hn, ht⟩
  rw [hn, ht]
  exact .store (.pure ⟨_, _, rfl, rfl, rfl⟩)

theorem targetText_stops_ws (target : ConnTargetRec) (rest : Text) :
    Stops wsTable (targetText target ++ rest) := by
  have hhex := hexUpper_isHex target.brickAddr
  obtain ⟨c, ds, hds⟩ := List.exists_cons_of_ne_nil (by simp [hexUpper] : hexUpper target.brickAddr ≠ [])
  have hc := hhex c (by rw [hds]; exact List.mem_cons_self)
  unfold targetText
  rw [hds]
  show wsTable c = false
  simp only [wsTable, Bool.or_eq_false_iff, beq_eq_false_iff_ne]
  refine ⟨⟨?_, ?_⟩, ?_⟩ <;> rintro rfl <;> revert hc <;> decide

def targetsRoom (targets : List ConnTargetRec) : Nat := (targets.map fun t => t.name.length + 1).sum

/-- The targets after the first, each behind a comma. -/
def moreText (more : List ConnTargetRec) : Text := more.flatMap fun t => ',' :: targetText t

theorem stops_moreText {more : List ConnTargetRec} {rest : Text} (h : Stops idTable rest) :
    Stops idTable (moreText more ++ rest) := by
  cases more with
  | nil => exact h
  | cons t more => exact (by decide : idTable ',' = false)

theorem moreTargets_none {isInput : Bool} {fuel : Nat} {text : Text} (h : text.headD '\x00' ≠ ',') :
    Meets (moreTargets isInput fuel) text 0 (Done fun recs t => recs = [] ∧ t = text) := by
  cases fuel with
  | zero => exact .pure ⟨_, _, rfl, rfl, rfl⟩
  | succ fuel =>
    unfold moreTargets
    refine .peek ?_
    have hne : ¬ (text.headD '\x00' == ',') = true := by simpa using h
    simp only [hne]
    exact .pure ⟨_, _, rfl, rfl, rfl⟩

theorem moreTargets_meets {rest : Text} (hrest : Stops idTable rest)
    (hcomma : rest.headD '\x00' ≠ ',') (more : List ConnTargetRec) : ∀ {fuel : Nat},
    (∀ t ∈ more, IsWord t.name) → more.length ≤ fuel →
    Meets (moreTargets false fuel) (moreText more ++ rest) (targetsRoom more) (Done fun recs t =>
      recs.map Prod.snd = more ∧ t = rest) := by
  induction more with
  | nil =>
    intro fuel _ _
    refine (moreTargets_none hcomma).mono (Nat.le_refl _) fun o ho => ho.mono ?_
    rintro recs t ⟨rfl, rfl⟩
    exact ⟨rfl, rfl⟩
  | cons target more ih =>
    intro fuel hnames hfuel
    obtain ⟨fuel, rfl⟩ := Nat.exists_eq_succ_of_ne_zero (by simp at hfuel; omega : fuel ≠ 0)
    have htext : moreText (target :: more) ++ rest = ',' :: (targetText target ++ (moreText more ++ rest)) := by
      simp [moreText]
    have htarget := convertConnTarget_meets (hnames target List.mem_cons_self)
      (@stops_moreText more _ hrest)
    rw [htext]
    unfold moreTargets
    refine .peek ?_
    simp only [List.headD_cons, beq_self_eq_true, if_true, Bool.false_eq_true, if_false]
    refine .scan (.here fun place => ?_)
    refine (Meets.bind htarget (k := targetsRoom more) ?_).mono (by simp [targetsRoom]) fun _ h => h
    rintro a t ⟨ha, ht⟩
    rw [ha, ht]
    refine (Meets.bind (ih (fun t ht => hnames t (List.mem_cons_of_mem _ ht)) (by simpa using hfuel))
      (k := 0) ?_).mono (Nat.le_refl _) fun _ h => h
    rintro recs t' ⟨hrecs, ht'⟩
    exact .pure ⟨_, _, rfl, by simp [hrecs], ht'⟩

theorem moreTargets_refused {text : Text} {fuel : Nat} (h : text.headD '\x00' = ',') :
    Meets (moreTargets true (fuel + 1)) text 0 Refused := by
  unfold moreTargets
  refine .peek ?_
  simp only [h, beq_self_eq_true, if_true]
  exact .bind_refused (.fail rfl) rfl

theorem convertTargets_meets {head : Nat} {target : ConnTargetRec} {more : List ConnTargetRec}
    {isInput : Bool} {rest : Text} (hnames : ∀ t ∈ target :: more, IsWord t.name)
    (hrest : Stops idTable rest) (hcomma : rest.headD '\x00' ≠ ',')
    (hin : isInput = true → more = []) :
    Meets (convertTargets isInput head) (targetText target ++ (moreText more ++ rest))
      (targetsRoom (target :: more)) (Done fun a t => a = target :: more ∧ t = rest) := by
  have htarget := convertConnTarget_meets (hnames target List.mem_cons_self)
    (@stops_moreText more _ hrest)
  have hmore : more.length ≤ (moreText more ++ rest).length := by
    have : more.length ≤ (moreText more).length := by
      clear * -
      induction more with
      | nil => simp
      | cons t more ih => simp [moreText] at ih ⊢; omega
    rw [List.length_append]
    omega
  unfold convertTargets
  refine .store (.here fun place => ?_)
  refine (Meets.bind (.attempt htarget) (k := targetsRoom more) ?_).mono (by simp [targetsRoom])
    fun _ h => h
  rintro o t ⟨a, rfl, ha, ht⟩
  rw [ha, ht]
  refine .cursors fun bin size => ?_
  have hmeets : Meets (moreTargets isInput (moreText more ++ rest).length) (moreText more ++ rest)
      (targetsRoom more) (Done fun recs t => recs.map Prod.snd = more ∧ t = rest) := by
    cases isInput with
    | false =>
      exact moreTargets_meets hrest hcomma more
        (fun t ht => hnames t (List.mem_cons_of_mem _ ht)) hmore
    | true =>
      obtain rfl := hin rfl
      refine (moreTargets_none hcomma).mono (Nat.le_refl _) fun o ho => ho.mono ?_
      rintro recs t ⟨rfl, rfl⟩
      exact ⟨rfl, rfl⟩
  refine (Meets.bind hmeets (k := 0) ?_).mono (Nat.le_refl _) fun _ h => h
  rintro recs t' ⟨hrecs, ht'⟩
  exact .store (.pure ⟨_, _, rfl, by rw [hrecs], ht'⟩)

/-- An input with a second target. -/
theorem convertTargets_refused {head : Nat} {target next : ConnTargetRec}
    {more : List ConnTargetRec} {rest : Text} (hname : IsWord target.name) :
    Meets (convertTargets true head) (targetText target ++ (moreText (next :: more) ++ rest))
      (target.name.length + 1) Refused := by
  have htarget := @convertConnTarget_meets _ (moreText (next :: more) ++ rest) hname
    (by decide : idTable ',' = false)
  unfold convertTargets
  refine .store (.here fun place => ?_)
  refine (Meets.bind (.attempt htarget) (k := 0) ?_).mono (Nat.le_refl _) fun _ h => h
  rintro o t ⟨a, rfl, ha, ht⟩
  rw [ha, ht]
  refine .cursors fun bin size => ?_
  exact .bind_refused (moreTargets_refused rfl) rfl

/-! ## Connectors -/

/-- A keyword, in parentheses when it stands for something that is not active. -/
def marked (active : Bool) (word : Text) : Text := if active then word else '(' :: (word ++ [')'])

theorem openMark_plain {place : Nat} {mask : BitVec 16} {T : Text}
    (h : (skipWhitespace T).headD '\x00' ≠ '(') :
    Meets (openMark place mask) T 0 (Done fun flags t => flags = mask ∧ t = skipWhitespace T) := by
  unfold openMark
  refine .store (.scan (.peek ?_))
  have hne : ¬ ((skipWhitespace T).headD '\x00' == '(') = true := by simpa using h
  simp only [hne]
  exact .pure ⟨_, _, rfl, rfl, rfl⟩

theorem openMark_meets {place : Nat} {mask : BitVec 16} {active : Bool} {word T rest : Text}
    (hword : IsWord word) (hT : skipWhitespace T = marked active word ++ rest) :
    Meets (openMark place mask) T 0 (Done fun flags t => flags = (if active then mask else 0) ∧
      t = word ++ (if active then rest else ')' :: rest)) := by
  cases active with
  | true =>
    have hne : (skipWhitespace T).headD '\x00' ≠ '(' := by
      obtain ⟨c, w', rfl⟩ := List.exists_cons_of_ne_nil hword.1
      have hc := hword.2 c List.mem_cons_self
      rw [hT]
      rintro rfl
      exact absurd hc (by decide)
    have := @openMark_plain place mask _ hne
    rw [hT] at this
    exact this
  | false =>
    unfold openMark
    refine .store (.scan (.peek ?_))
    rw [hT]
    simp only [marked, Bool.false_eq_true, if_false, List.cons_append, List.headD_cons,
      beq_self_eq_true, if_true]
    refine .store (.scan (.pure ⟨_, _, rfl, by simp, by simp⟩))

theorem closeMark_meets {flags mask : BitVec 16} {active : Bool} {rest : Text}
    (h : (flags &&& mask == 0) = !active) :
    Meets (closeMark flags mask) (if active then rest else ')' :: rest) 0
      (Done fun _ t => t = rest) := by
  unfold closeMark
  rw [h]
  cases active with
  | true => exact .pure ⟨_, _, rfl, rfl⟩
  | false =>
    simp only [Bool.not_false, if_true, Bool.false_eq_true, if_false]
    intro bin size _ hlt
    simp only [expectChar, expect, onText, List.head?_cons, if_true, Option.map_some,
      List.tail_cons]
    refine ⟨⟨_, _, rfl, rfl⟩, fun r hr => ?_⟩
    cases hr
    exact ⟨by simp, hlt⟩

/-- What is left of the flags of a connector in its text. -/
def ConnRec.shownFlags (conn : ConnRec) : BitVec 16 :=
  (if conn.isActive then maskConnActive else 0) ||| (if conn.isInput then 0 else maskConnType)

def ConnRec.kindText (conn : ConnRec) : Text :=
  if conn.isInput then "input".toList else "output".toList

theorem connKind_meets {place : Nat} {conn : ConnRec} {T rest : Text}
    (hT : skipWhitespace T = marked conn.isActive conn.kindText ++ rest)
    (hrest : Stops idTable rest) :
    Meets (connKind place) T 0 (Done fun flags t => flags = conn.shownFlags ∧ t = rest) := by
  have hstop : Stops idTable (if conn.isActive then rest else ')' :: rest) := by
    cases conn.isActive with
    | true => exact hrest
    | false => exact (by decide : idTable ')' = false)
  have hkind : IsWord conn.kindText := by
    unfold ConnRec.kindText
    split <;> exact ⟨by decide, List.all_eq_true.mp rfl⟩
  unfold connKind
  refine (Meets.bind (openMark_meets hkind hT) (k := 0) ?_).mono (Nat.le_refl _) fun _ h => h
  rintro flags t ⟨hflags, ht⟩
  rw [hflags, ht]
  unfold ConnRec.kindText ConnRec.shownFlags
  cases hi : conn.isInput with
  | true =>
    have hno : skipWord ("input".toList ++ (if conn.isActive then rest else ')' :: rest))
        "output".toList = none := skipWord_none (by decide : 'i' ≠ 'o')
    have hyes : skipWord ("input".toList ++ (if conn.isActive then rest else ')' :: rest))
        "input".toList = some _ := skipWord_append (w := "input".toList) (List.all_eq_true.mp rfl) hstop
    refine .accept_none hno (.expect hyes ?_)
    refine (Meets.bind (closeMark_meets ?_) (k := 0) ?_).mono (Nat.le_refl _) fun _ h => h
    · cases conn.isActive <;> decide
    · rintro _ t' ht'
      exact .pure ⟨_, _, rfl, by cases conn.isActive <;> decide, ht'⟩
  | false =>
    have hyes : skipWord ("output".toList ++ (if conn.isActive then rest else ')' :: rest))
        "output".toList = some _ := skipWord_append (w := "output".toList) (List.all_eq_true.mp rfl) hstop
    refine .accept hyes (.store ?_)
    refine (Meets.bind (closeMark_meets ?_) (k := 0) ?_).mono (Nat.le_refl _) fun _ h => h
    · cases conn.isActive <;> decide
    · rintro _ t' ht'
      exact .pure ⟨_, _, rfl, by cases conn.isActive <;> decide, ht'⟩

/-- The connection of a connector and its closing line. -/
def ConnRec.tailText (conn : ConnRec) : Text := connectText conn ++ "  \x7d\n".toList

/-- What stands between the braces of a connector, and the closing one. -/
def ConnRec.bodyText (brick : BrickRec) (conn : ConnRec) : Text :=
  conn.attr.flatMap (fun a => itemsText (connAttrLine brick conn a)) ++ conn.tailText

theorem connText_eq (brick : BrickRec) (conn : ConnRec) (rest : Text) :
    connText brick conn ++ rest = "  ".toList ++ (marked conn.isActive conn.kindText ++
      ("==".toList ++ (conn.name ++ (" \x7b\n".toList ++ (conn.bodyText brick ++ rest))))) := by
  unfold connText ConnRec.bodyText ConnRec.tailText connLine marked ConnRec.kindText
  cases conn.isActive <;> cases conn.isInput <;> simp [itemsText, Item.text]

theorem connAttrLine_text (brick : BrickRec) (conn : ConnRec) (attr : AttrRec) (rest : Text) :
    itemsText (connAttrLine brick conn attr) ++ rest =
      "    ".toList ++ (attrText brick.name [conn.name, attr.name] attr.value ++ '\n' :: rest) := by
  simp [itemsText, Item.text, connAttrLine, attrText, dotted]

theorem connectText_cons {conn : ConnRec} {target : ConnTargetRec} {more : List ConnTargetRec}
    (h : conn.target = target :: more) (rest : Text) :
    connectText conn ++ rest = "    ".toList ++ ("connect".toList ++ (' ' :: (conn.name ++ ('=' :: '=' ::
      (targetText target ++ (moreText more ++ '\n' :: rest)))))) := by
  have hmore : (more.flatMap fun t => itemsText (nextTarget t)) = moreText more := by
    unfold moreText
    congr 1
    funext t
    simp [itemsText, Item.text, nextTarget, targetText]
  simp only [connectText, h, hmore]
  simp [itemsText, Item.text, firstTarget, targetText]

theorem skipStr_close {text rest : Text} (h : skipWhitespace text = '}' :: rest) :
    skipStr text " \x7d ".toList = some (skipWhitespace rest) := by
  have hcons : skipStr text " \x7d ".toList = skipStr (skipWhitespace text) "\x7d ".toList := rfl
  rw [hcons, h]
  rfl

theorem skipStr_close_none {text : Text} (h : (skipWhitespace text).headD '\x00' ≠ '}') :
    skipStr text " \x7d ".toList = none := by
  have hcons : skipStr text " \x7d ".toList = skipStr (skipWhitespace text) "\x7d ".toList := rfl
  rw [hcons]
  cases ht : skipWhitespace text with
  | nil => rfl
  | cons c t =>
    rw [ht] at h
    have hc : ¬ (('}' == c) = true) := fun he => h (eq_of_beq he).symm
    exact if_neg hc

theorem skipStr_open (text : Text) : skipStr (" \x7b\n".toList ++ text) " \x7b ".toList =
    some (skipWhitespace text) := rfl

theorem tailText_skip (conn : ConnRec) (rest : Text) :
    skipWhitespace (conn.tailText ++ rest) = match conn.target with
      | [] => '}' :: '\n' :: rest
      | target :: more => "connect".toList ++ (' ' :: (conn.name ++ ('=' :: '=' ::
          (targetText target ++ (moreText more ++ '\n' :: ("  \x7d\n".toList ++ rest)))))) := by
  unfold ConnRec.tailText
  cases h : conn.target with
  | nil => simp [connectText, h, skipWhitespace, wsTable]
  | cons target more =>
    rw [List.append_assoc, connectText_cons h, skipWhitespace_append (List.all_eq_true.mp rfl)]
    exact skipWhitespace_of_stops (by decide : wsTable 'c' = false)

theorem convertAttr_refused {T : Text} (h : (skipWhitespace T).headD '\x00' ≠ 'a') :
    Meets convertAttr T 0 Refused := by
  unfold convertAttr
  exact .here fun place => .skipBin (.scan (.expect_none (skipWord_none h) rfl))

/-- A connector that its text can be read back from: an input has one target at most. -/
def ConnRec.Readable (conn : ConnRec) : Prop := conn.isInput = true → conn.target.length ≤ 1

instance (conn : ConnRec) : Decidable conn.Readable :=
  inferInstanceAs (Decidable (conn.isInput = true → conn.target.length ≤ 1))

/-- All names are legal identifiers. -/
structure ConnRec.Named (conn : ConnRec) : Prop where
  name : IsWord conn.name
  attr : ∀ a ∈ conn.attr, IsWord a.name
  target : ∀ t ∈ conn.target, IsWord t.name

/-- The `connect` line up to the first target. -/
theorem connConnect_line {place n : Nat} {conn : ConnRec} {flags : BitVec 16} {rest : Text}
    {target : ConnTargetRec} {more : List ConnTargetRec}
    {Q : Option ((BitVec 16 × List ConnTargetRec) × Text) → Prop} (hname : IsWord conn.name)
    (hflags : (flags &&& 0x08 == 0) = conn.isInput) (ht : conn.target = target :: more)
    (h : Meets (do
        let target ← convertTargets conn.isInput (place + 32)
        return (flags, target))
      (targetText target ++ (moreText more ++ '\n' :: ("  \x7d\n".toList ++ rest))) n Q) :
    Meets (connConnect place flags) (skipWhitespace (conn.tailText ++ rest)) n Q := by
  have hconnect : skipWord ("connect".toList ++ (' ' :: (conn.name ++ ('=' :: '=' ::
      (targetText target ++ (moreText more ++ '\n' :: ("  \x7d\n".toList ++ rest)))))))
      "connect".toList = some _ :=
    skipWord_append (w := "connect".toList) (List.all_eq_true.mp rfl) (by decide : idTable ' ' = false)
  have hws : skipWhitespace (' ' :: (conn.name ++ ('=' :: '=' ::
      (targetText target ++ (moreText more ++ '\n' :: ("  \x7d\n".toList ++ rest)))))) =
      conn.name ++ ('=' :: '=' ::
      (targetText target ++ (moreText more ++ '\n' :: ("  \x7d\n".toList ++ rest)))) :=
    (@skipWhitespace_append [' '] _ (List.all_eq_true.mp rfl)).trans
      (skipWhitespace_of_stops hname.stops_ws)
  have hkeep : flags ||| StratAction.read.code <<< 4 = flags := by simp [StratAction.code]
  rw [tailText_skip, ht]
  unfold connConnect
  refine .store (.accept hconnect (.scan ?_))
  rw [hws]
  refine .expect (skipAnyWord_append hname (by decide : idTable '=' = false)) ?_
  refine .onText (convertOp_eq _) (.store (.scan ?_))
  simp only [stripEq, skipWhitespace_of_stops (targetText_stops_ws _ _), hkeep, hflags]
  exact h

theorem connConnect_meets {place : Nat} {conn : ConnRec} {flags : BitVec 16} {rest : Text}
    (hnamed : conn.Named) (hflags : (flags &&& 0x08 == 0) = conn.isInput)
    (hread : conn.Readable) :
    Meets (connConnect place flags) (skipWhitespace (conn.tailText ++ rest)) (targetsRoom conn.target)
      (Done fun a t => a = (flags, conn.target) ∧ skipWhitespace t = '}' :: '\n' :: rest) := by
  cases ht : conn.target with
  | nil =>
    rw [tailText_skip, ht]
    unfold connConnect
    refine .store (.accept_none (skipWord_none (by decide : '}' ≠ 'c')) ?_)
    exact .pure ⟨_, _, rfl, rfl, rfl⟩
  | cons target more =>
    have hmore : conn.isInput = true → more = [] := by
      intro hin
      have := hread hin
      rw [ht] at this
      exact List.length_eq_zero_iff.mp (by simpa using this)
    refine connConnect_line hnamed.name hflags ht ?_
    refine (Meets.bind (@convertTargets_meets _ _ _ _ ('\n' :: ("  \x7d\n".toList ++ rest))
      (ht ▸ hnamed.target) (by decide : idTable '\n' = false) (by decide : '\n' ≠ ',') hmore)
      (k := 0) ?_).mono (Nat.le_refl _) fun _ h => h
    rintro targets t ⟨htargets, hrest⟩
    rw [htargets, hrest]
    exact .pure ⟨_, _, rfl, rfl, by simp [skipWhitespace, wsTable]⟩

/-- An input with more than one target stops the conversion at its first comma. -/
theorem connConnect_refused {place : Nat} {conn : ConnRec} {flags : BitVec 16} {rest : Text}
    (hnamed : conn.Named) (hflags : (flags &&& 0x08 == 0) = conn.isInput)
    (hread : ¬ conn.Readable) :
    Meets (connConnect place flags) (skipWhitespace (conn.tailText ++ rest))
      (targetsRoom conn.target) Refused := by
  have hin : conn.isInput = true := by
    by_contra h
    exact hread fun h' => absurd h' h
  obtain ⟨target, next, more, ht⟩ : ∃ target next more, conn.target = target :: next :: more := by
    have hlen : ¬ conn.target.length ≤ 1 := fun h => hread fun _ => h
    match h : conn.target with
    | [] | [_] => simp [h] at hlen
    | target :: next :: more => exact ⟨_, _, _, rfl⟩
  have htarget : IsWord target.name := hnamed.target target (by rw [ht]; exact List.mem_cons_self)
  refine connConnect_line hnamed.name hflags ht ?_
  rw [hin, ht]
  refine .bind_refused ((convertTargets_refused htarget).mono ?_ fun _ h => h) rfl
  simp [targetsRoom]

/-- The connector that the text of one stands for. -/
def ConnRec.shown (conn : ConnRec) : ConnRec :=
  ⟨conn.shownFlags, conn.name, conn.attr.map fun a => ⟨a.name, stripEq a.value⟩, conn.target⟩

/-- The room for an attribute of a connector: every word of its name passes through the buffer. -/
def connAttrRoom (brick : BrickRec) (conn : ConnRec) (attr : AttrRec) : Nat :=
  wordsRoom [brick.name, conn.name, attr.name] + (attr.value.length + 1)

/-- The room in the buffer that is enough for a connector. -/
def ConnRec.room (brick : BrickRec) (conn : ConnRec) : Nat :=
  sizeofConnRec + (conn.name.length + 1) + (conn.attr.map (connAttrRoom brick conn)).sum +
    targetsRoom conn.target

/-- All attribute values are made of printable characters. -/
def ConnRec.Printable (conn : ConnRec) : Prop :=
  ∀ a ∈ conn.attr, ∀ c ∈ a.value, printable c = true

theorem shownFlags_isInput (conn : ConnRec) :
    ((conn.shownFlags ||| StratAction.read.code) &&& 0x08 == 0) = conn.isInput := by
  unfold ConnRec.shownFlags
  cases conn.isActive <;> cases conn.isInput <;> decide

theorem shownFlags_read (conn : ConnRec) :
    conn.shownFlags ||| StratAction.read.code = conn.shownFlags := by
  simp [StratAction.code]

/-- Every body begins with an attribute, the connection or the closing brace. -/
theorem bodyText_no_param (brick : BrickRec) (conn : ConnRec) (rest : Text) :
    skipWord (skipWhitespace (conn.bodyText brick ++ rest)) "c_param".toList = none := by
  unfold ConnRec.bodyText
  rw [List.append_assoc]
  cases conn.attr with
  | nil =>
    rw [List.flatMap_nil, List.nil_append, tailText_skip]
    split
    · exact skipWord_none (by decide : '}' ≠ 'c')
    · simp [skipWord, idTable]
  | cons a as =>
    rw [List.flatMap_cons, List.append_assoc, connAttrLine_text,
      skipWhitespace_append (List.all_eq_true.mp rfl)]
    have hstop : Stops wsTable (attrText brick.name [conn.name, a.name] a.value ++
        '\n' :: ((as.flatMap fun a => itemsText (connAttrLine brick conn a)) ++
          (conn.tailText ++ rest))) := (by decide : wsTable 'a' = false)
    rw [skipWhitespace_of_stops hstop]
    exact skipWord_none (by decide : 'a' ≠ 'c')

theorem connAttrs_meets {brick : BrickRec} {conn : ConnRec} {T rest : Text} {head : Nat}
    (hbrick : IsWord brick.name) (hnamed : conn.Named) (hprint : conn.Printable)
    (hT : skipWhitespace T = skipWhitespace (conn.bodyText brick ++ rest)) :
    Meets (convertList convertAttr head) T ((conn.attr.map (connAttrRoom brick conn)).sum + 0)
      (Done fun as t => as = conn.shown.attr ∧
        skipWhitespace t = skipWhitespace (conn.tailText ++ rest)) := by
  refine convertList_meets (f := fun a => itemsText (connAttrLine brick conn a)) ?_ conn.attr ?_ ?_ ?_
  · intro T hend
    refine convertAttr_refused ?_
    rw [hend, tailText_skip]
    split
    · exact (by decide : '}' ≠ 'a')
    · exact (by decide : 'c' ≠ 'a')
  · intro a ha T rest hline
    have htext : skipWhitespace T =
        attrText brick.name [conn.name, a.name] a.value ++ '\n' :: rest := by
      rw [hline, connAttrLine_text, skipWhitespace_append (List.all_eq_true.mp rfl)]
      exact skipWhitespace_of_stops (by decide : wsTable 'a' = false)
    refine convertAttr_meets htext hbrick ?_ (hprint a ha) (by decide : printable '\n' = false)
      (by decide : '\n' ≠ '=') ?_
    · intro w hw
      rcases List.mem_cons.mp hw with rfl | hw
      · exact hnamed.name
      · rcases List.mem_singleton.mp hw with rfl
        exact hnamed.attr a ha
    · exact ⟨_, _, rfl, rfl, by simp [skipWhitespace, wsTable]⟩
  · intro a ha
    have := connAttrLine_text brick conn a []
    rw [List.append_nil] at this
    rw [this, skipWhitespace_append (List.all_eq_true.mp rfl)]
    exact List.cons_ne_nil _ _
  · rw [hT]
    unfold ConnRec.bodyText
    rw [List.append_assoc]

/-- A connector is read up to its `connect` line. -/
theorem convertConn_head {brick : BrickRec} {conn : ConnRec} {T rest : Text} {n : Nat}
    {Q : Option (ConnRec × Text) → Prop} (hbrick : IsWord brick.name) (hnamed : conn.Named)
    (hprint : conn.Printable) (hT : skipWhitespace T = skipWhitespace (connText brick conn ++ rest))
    (h : ∀ place, Meets (do
        let (flags, target) ← connConnect place conn.shownFlags
        expect (skipStr · " \x7d ".toList) (strLooks · " \x7d ".toList)
        store place 8
        return ⟨flags, conn.name, conn.shown.attr, target⟩)
      (skipWhitespace (conn.tailText ++ rest)) n Q) :
    Meets convertConn T (sizeofConnRec + (conn.name.length + 1) +
      (conn.attr.map (connAttrRoom brick conn)).sum + n) Q := by
  have hhead : skipWhitespace T = marked conn.isActive conn.kindText ++
      ('=' :: '=' :: (conn.name ++ (" \x7b\n".toList ++ (conn.bodyText brick ++ rest)))) := by
    rw [hT, connText_eq, skipWhitespace_append (List.all_eq_true.mp rfl)]
    refine skipWhitespace_of_stops ?_
    unfold marked ConnRec.kindText
    cases conn.isActive <;> cases conn.isInput <;> rfl
  have hname : skipWhitespace ('=' :: '=' :: (conn.name ++ (" \x7b\n".toList ++
      (conn.bodyText brick ++ rest)))) = _ := skipWhitespace_of_stops (by rfl)
  have hword := @convertComposedIdentifier_meets _ []
    (" \x7b\n".toList ++ (conn.bodyText brick ++ rest)) hnamed.name (by simp)
    (by decide : idTable ' ' = false) (by decide : ' ' ≠ '.')
  have hroom : sizeofConnRec + (conn.name.length + 1) +
      (conn.attr.map (connAttrRoom brick conn)).sum + n =
      sizeofConnRec + (0 + (wordsRoom [conn.name] +
        ((conn.attr.map (connAttrRoom brick conn)).sum + 0 + n))) := by
    simp [wordsRoom]
    omega
  rw [hroom]
  unfold convertConn
  refine .here fun place => .skipBin (.chargeSize ?_)
  refine .bind (connKind_meets hhead (by rfl)) ?_
  rintro flags t ⟨hflags, ht⟩
  rw [hflags, ht]
  refine .scan ?_
  rw [hname]
  refine .onText (convertOp_eq _) (.store (.store ?_))
  rw [shownFlags_read]
  refine .bind hword ?_
  rintro name t' ⟨hn, ht'⟩
  rw [hn, ht']
  refine .accept (skipStr_open _) (.accept_none (bodyText_no_param brick conn rest) ?_)
  refine .bind (connAttrs_meets hbrick hnamed hprint (skipWhitespace_idem _)) ?_
  rintro attr t'' ⟨ha, ht''⟩
  refine .scan ?_
  rw [ha, ht'']
  exact h place

theorem convertConn_meets {brick : BrickRec} {conn : ConnRec} {T rest : Text}
    (hbrick : IsWord brick.name) (hnamed : conn.Named) (hprint : conn.Printable)
    (hread : conn.Readable) (hT : skipWhitespace T = skipWhitespace (connText brick conn ++ rest)) :
    Meets convertConn T (conn.room brick) (Done fun a t => a = conn.shown ∧
      skipWhitespace t = skipWhitespace rest) := by
  refine convertConn_head hbrick hnamed hprint hT fun place => ?_
  have hflags := shownFlags_isInput conn
  rw [shownFlags_read] at hflags
  refine (Meets.bind (connConnect_meets hnamed hflags hread) (k := 0) ?_).mono (Nat.le_refl _)
    fun _ h => h
  rintro a t ⟨ha, ht⟩
  rw [ha]
  refine .expect (skipStr_close ht) (.store (.pure ⟨_, _, rfl, rfl, ?_⟩))
  rw [skipWhitespace_idem]
  simp [skipWhitespace, wsTable]

theorem convertConn_refused {brick : BrickRec} {conn : ConnRec} {T rest : Text}
    (hbrick : IsWord brick.name) (hnamed : conn.Named) (hprint : conn.Printable)
    (hread : ¬ conn.Readable) (hT : skipWhitespace T = skipWhitespace (connText brick conn ++ rest)) :
    Meets convertConn T (conn.room brick) Refused := by
  refine convertConn_head hbrick hnamed hprint hT fun place => ?_
  have hflags := shownFlags_isInput conn
  rw [shownFlags_read] at hflags
  exact .bind_refused (connConnect_refused hnamed hflags hread) rfl

/-- A text that does not begin like a connector. -/
theorem convertConn_refused_head {T : Text} (hi : (skipWhitespace T).headD '\x00' ≠ 'i')
    (ho : (skipWhitespace T).headD '\x00' ≠ 'o') (hp : (skipWhitespace T).headD '\x00' ≠ '(') :
    Meets convertConn T sizeofConnRec Refused := by
  have hkind (place : Nat) : Meets (connKind place) T 0 Refused := by
    unfold connKind
    refine (Meets.bind (openMark_plain hp) (k := 0) ?_).mono (Nat.le_refl _) fun _ h => h
    rintro flags t ⟨-, ht⟩
    rw [ht]
    exact .accept_none (skipWord_none ho) (.expect_none (skipWord_none hi) rfl)
  unfold convertConn
  exact .here fun place => .skipBin
    ((Meets.chargeSize (n := 0) (.bind_refused (Q := Refused) (hkind place) rfl)).mono (Nat.le_refl _)
      fun _ h => h)

/-! ## Bricks -/

structure BrickRec.Named (brick : BrickRec) : Prop where
  name : IsWord brick.name
  attr : ∀ a ∈ brick.attr, IsWord a.name
  conn : ∀ conn ∈ brick.conn, conn.Named

/-- The room in the buffer that is enough for a brick. -/
def BrickRec.room (brick : BrickRec) : Nat :=
  (brick.name.length + 1) +
    (brick.attr.map fun a => wordsRoom [brick.name, a.name] + (a.value.length + 1)).sum +
    (brick.conn.map (ConnRec.room brick)).sum + sizeofConnRec

/-- The brick that its text stands for. -/
def BrickRec.shown (brick : BrickRec) : BrickRec :=
  ⟨maskBrickActive, brick.name, [], brick.conn.map ConnRec.shown⟩

theorem connText_head (brick : BrickRec) (conn : ConnRec) (rest : Text) :
    ∃ c, (skipWhitespace (connText brick conn ++ rest)).headD '\x00' = c ∧
      (c = 'i' ∨ c = 'o' ∨ c = '(') := by
  rw [connText_eq, skipWhitespace_append (List.all_eq_true.mp rfl)]
  unfold marked ConnRec.kindText
  cases conn.isActive <;> cases conn.isInput
  · exact ⟨'(', rfl, by decide⟩
  · exact ⟨'(', rfl, by decide⟩
  · exact ⟨'o', rfl, by decide⟩
  · exact ⟨'i', rfl, by decide⟩

/-- The connectors up to one that cannot be read, or all of them. -/
theorem convertConns_meets {brick : BrickRec} {head : Nat} {T tail : Text} {n : Nat}
    (conns : List ConnRec) (hbrick : IsWord brick.name) (hnamed : ∀ conn ∈ conns, conn.Named)
    (hprint : ∀ conn ∈ conns, conn.Printable) (hread : ∀ conn ∈ conns, conn.Readable)
    (hend : ∀ T, skipWhitespace T = skipWhitespace tail → Meets convertConn T n Refused)
    (hT : skipWhitespace T = skipWhitespace (conns.flatMap (connText brick) ++ tail)) :
    Meets (convertList convertConn head) T ((conns.map (ConnRec.room brick)).sum + n)
      (Done fun cs t => cs = conns.map ConnRec.shown ∧ skipWhitespace t = skipWhitespace tail) := by
  refine convertList_meets hend conns ?_ ?_ hT
  · intro conn hc T rest hconn
    exact convertConn_meets hbrick (hnamed conn hc) (hprint conn hc) (hread conn hc) hconn
  · intro conn _ hnil
    obtain ⟨c, hc, h⟩ := connText_head brick conn []
    rw [List.append_nil, hnil] at hc
    subst hc
    revert h
    decide

/-- What stands between the braces of a brick, and the closing one. -/
def BrickRec.bodyText (brick : BrickRec) : Text :=
  brick.attr.flatMap (fun a => itemsText (brickAttrLine brick a)) ++
    (brick.conn.flatMap (connText brick) ++ "\x7d\n".toList)

theorem brickText_eq (brick : BrickRec) : brickText brick =
    "brick".toList ++ ('=' :: '=' :: (brick.name ++ (" \x7b\n".toList ++ brick.bodyText))) := by
  simp [brickText, BrickRec.bodyText, itemsText, Item.text]

theorem brickAttrLine_text (brick : BrickRec) (attr : AttrRec) (rest : Text) :
    itemsText (brickAttrLine brick attr) ++ rest =
      attrText brick.name [attr.name] attr.value ++ (" \x7b\n".toList ++ rest) := by
  simp [itemsText, Item.text, brickAttrLine, attrText, dotted]

theorem brickBody_no_param (brick : BrickRec) :
    skipWord (skipWhitespace brick.bodyText) "b_param".toList = none := by
  refine skipWord_none ?_
  unfold BrickRec.bodyText
  cases brick.attr with
  | nil =>
    rw [List.flatMap_nil, List.nil_append]
    cases brick.conn with
    | nil => exact (by decide : '}' ≠ 'b')
    | cons conn conns =>
      obtain ⟨c, hc, h⟩ := connText_head brick conn (conns.flatMap (connText brick) ++ "\x7d\n".toList)
      rw [List.flatMap_cons, List.append_assoc, hc]
      rcases h with rfl | rfl | rfl <;> decide
  | cons a as =>
    rw [List.flatMap_cons, List.append_assoc, brickAttrLine_text]
    exact (by decide : 'a' ≠ 'b')

/-- A brick is read up to its first attribute or connector. -/
theorem convertBrick_head {brick : BrickRec} {n : Nat} {Q : Option (BrickRec × Text) → Prop}
    (hname : IsWord brick.name)
    (h : ∀ place, Meets (do
        let attr ← convertList convertAttr (place + 16)
        let conn ← convertList convertConn (place + 24)
        expect (skipStr · " \x7d ".toList) (strLooks · " \x7d ".toList)
        return ⟨maskBrickActive, brick.name, attr, conn⟩) (skipWhitespace brick.bodyText) n Q) :
    Meets convertBrick (brickText brick) ((brick.name.length + 1) + n) Q := by
  have hmark : skipWhitespace (brickText brick) = marked true "brick".toList ++
      ('=' :: '=' :: (brick.name ++ (" \x7b\n".toList ++ brick.bodyText))) := by
    rw [brickText_eq]
    exact skipWhitespace_of_stops (by rfl)
  have hword : skipWord ("brick".toList ++
      ('=' :: '=' :: (brick.name ++ (" \x7b\n".toList ++ brick.bodyText)))) "brick".toList = some _ :=
    skipWord_append (w := "brick".toList) (List.all_eq_true.mp rfl) (by rfl)
  have hws : skipWhitespace ('=' :: '=' :: (brick.name ++ (" \x7b\n".toList ++ brick.bodyText))) = _ :=
    skipWhitespace_of_stops (by rfl)
  have hconv := @convertWord_meets _ (" \x7b\n".toList ++ brick.bodyText) hname
    (by decide : idTable ' ' = false)
  unfold convertBrick
  refine .here fun place => .skipBin ?_
  refine (Meets.bind (openMark_meets ⟨by decide, List.all_eq_true.mp rfl⟩ hmark)
    (k := (brick.name.length + 1) + n) ?_).mono (by omega) fun _ h => h
  rintro flags t ⟨hflags, ht⟩
  rw [hflags, ht]
  refine .expect hword ?_
  refine (Meets.bind (@closeMark_meets _ _ true _ (by decide))
    (k := (brick.name.length + 1) + n) ?_).mono (by omega) fun _ h => h
  rintro _ t' ht'
  rw [ht']
  refine .scan ?_
  rw [hws]
  refine .onText (convertOp_eq _) (.store (.store (.bind hconv ?_)))
  rintro name t'' ⟨hn, ht''⟩
  rw [hn, ht'']
  exact .expect (skipStr_open _) (.accept_none (brickBody_no_param brick) (h place))

theorem bodyText_of_nil {brick : BrickRec} (hattr : brick.attr = []) :
    brick.bodyText = brick.conn.flatMap (connText brick) ++ "\x7d\n".toList := by
  simp [BrickRec.bodyText, hattr]

theorem bodyText_head_of_nil {brick : BrickRec} (hattr : brick.attr = []) :
    (skipWhitespace brick.bodyText).headD '\x00' ≠ 'a' := by
  rw [bodyText_of_nil hattr]
  cases brick.conn with
  | nil => exact (by decide : '}' ≠ 'a')
  | cons conn conns =>
    obtain ⟨c, hc, h⟩ := connText_head brick conn (conns.flatMap (connText brick) ++ "\x7d\n".toList)
    rw [List.flatMap_cons, List.append_assoc, hc]
    rcases h with rfl | rfl | rfl <;> decide

theorem convertBrick_meets {brick : BrickRec} (hnamed : brick.Named)
    (hprint : ∀ conn ∈ brick.conn, conn.Printable) (hattr : brick.attr = [])
    (hread : ∀ conn ∈ brick.conn, conn.Readable) :
    Meets convertBrick (brickText brick) brick.room (Done fun a t => a = brick.shown ∧ t = []) := by
  have hbody := bodyText_of_nil hattr
  have hroom : brick.room = (brick.name.length + 1) +
      ((([] : List AttrRec).map fun _ => 0).sum + 0 +
        ((brick.conn.map (ConnRec.room brick)).sum + sizeofConnRec + 0)) := by
    simp [BrickRec.room, hattr]
    omega
  rw [hroom]
  refine convertBrick_head hnamed.name fun place => ?_
  refine .bind (@convertList_meets _ _ _ (fun _ => []) id _ brick.bodyText _ _ _ ?_ [] (by simp)
    (by simp) (by simpa using skipWhitespace_idem _)) ?_
  · exact fun T hT => convertAttr_refused (hT ▸ bodyText_head_of_nil hattr)
  rintro attr t ⟨ha, ht⟩
  rw [ha]
  refine .bind (@convertConns_meets _ _ _ "\x7d\n".toList _ brick.conn hnamed.name hnamed.conn
    hprint hread ?_ (ht.trans (congrArg skipWhitespace hbody))) ?_
  · intro T hT
    refine convertConn_refused_head ?_ ?_ ?_ <;> rw [hT] <;> decide
  rintro conns t' ⟨hc, ht'⟩
  rw [hc]
  exact .expect (@skipStr_close _ ['\n'] ht') (.pure ⟨_, _, rfl, rfl, rfl⟩)

/-- A brick with an attribute, or with a connector that cannot be read. -/
theorem convertBrick_refused {brick : BrickRec} (hnamed : brick.Named)
    (hprint : ∀ conn ∈ brick.conn, conn.Printable)
    (hprinta : ∀ a ∈ brick.attr, ∀ c ∈ a.value, printable c = true)
    (h : ¬ (brick.attr = [] ∧ ∀ conn ∈ brick.conn, conn.Readable)) :
    Meets convertBrick (brickText brick) brick.room Refused := by
  cases hattr : brick.attr with
  | cons a as =>
    have hbody : skipWhitespace brick.bodyText = attrText brick.name [a.name] a.value ++
        (" \x7b\n".toList ++ ((as.flatMap fun a => itemsText (brickAttrLine brick a)) ++
          (brick.conn.flatMap (connText brick) ++ "\x7d\n".toList))) := by
      unfold BrickRec.bodyText
      rw [hattr, List.flatMap_cons, List.append_assoc, brickAttrLine_text]
      exact skipWhitespace_of_stops (by decide : wsTable 'a' = false)
    have hroom : (brick.name.length + 1) +
        (((([] : List AttrRec).map fun _ => 0).sum +
          (wordsRoom [brick.name, a.name] + (a.value.length + 1))) +
        ((([] : List ConnRec).map (ConnRec.room brick)).sum + sizeofConnRec + 0)) ≤ brick.room := by
      simp [BrickRec.room, hattr]
      omega
    refine (convertBrick_head hnamed.name fun place => ?_).mono hroom fun _ h => h
    refine .bind (@convertList_meets _ _ _ (fun _ => []) id _ brick.bodyText _ _ _ ?_ []
      (by simp) (by simp) (by simpa using skipWhitespace_idem _)) ?_
    · -- the brace that is printed behind the value ends the conversion of the line
      intro T hT
      refine convertAttr_meets (hT.trans hbody) hnamed.name ?_ (hprinta a (by simp [hattr]))
        (by decide : printable ' ' = false) (by decide : ' ' ≠ '=') rfl
      intro w hw
      rcases List.mem_singleton.mp hw with rfl
      exact hnamed.attr a (by simp [hattr])
    rintro attr t ⟨-, ht⟩
    refine .bind (@convertConns_meets _ _ _ brick.bodyText _ [] hnamed.name (by simp) (by simp)
      (by simp) ?_ (by simpa using ht)) ?_
    · intro T hT
      have hhead : (skipWhitespace T).headD '\x00' = 'a' := by
        rw [hT, hbody]
        rfl
      exact convertConn_refused_head (by rw [hhead]; decide) (by rw [hhead]; decide)
        (by rw [hhead]; decide)
    rintro conns t' ⟨-, ht'⟩
    refine .expect_none (skipStr_close_none ?_) rfl
    rw [ht', hbody]
    exact (by decide : 'a' ≠ '}')
  | nil =>
    have hbad : ¬ ∀ conn ∈ brick.conn, conn.Readable := fun hall => h ⟨hattr, hall⟩
    obtain ⟨bad, hfind⟩ : ∃ bad, brick.conn.find? (fun c => !decide c.Readable) = some bad := by
      rw [← Option.isSome_iff_exists, List.find?_isSome]
      simpa using hbad
    obtain ⟨hnot, good, more, hconn, hgood⟩ := List.find?_eq_some_iff_append.mp hfind
    have hnot' : ¬ bad.Readable := by simpa using hnot
    have hgood' : ∀ conn ∈ good, conn.Readable := fun conn hc => by simpa using hgood conn hc
    have hmem : bad ∈ brick.conn := by simp [hconn]
    have hbody : brick.bodyText = good.flatMap (connText brick) ++
        (connText brick bad ++ (more.flatMap (connText brick) ++ "\x7d\n".toList)) := by
      simp [BrickRec.bodyText, hattr, hconn]
    have hroom : (brick.name.length + 1) + ((([] : List AttrRec).map fun _ => 0).sum + 0 +
        ((good.map (ConnRec.room brick)).sum + bad.room brick + 0)) ≤ brick.room := by
      simp only [BrickRec.room, hconn, List.map_append, List.map_cons, List.sum_append,
        List.sum_cons, List.map_nil, List.sum_nil]
      omega
    refine (convertBrick_head hnamed.name fun place => ?_).mono hroom fun _ h => h
    refine .bind (@convertList_meets _ _ _ (fun _ => []) id _ brick.bodyText _ _ _ ?_ []
      (by simp) (by simp) (by simpa using skipWhitespace_idem _)) ?_
    · exact fun T hT => convertAttr_refused (hT ▸ bodyText_head_of_nil hattr)
    rintro attr t ⟨-, ht⟩
    refine .bind (convertConns_meets good hnamed.name
      (fun c hc => hnamed.conn c (by simp [hconn, hc])) (fun c hc => hprint c (by simp [hconn, hc]))
      hgood' (fun T hT => convertConn_refused hnamed.name (hnamed.conn bad hmem) (hprint bad hmem)
        hnot' hT) (ht.trans (congrArg skipWhitespace hbody))) ?_
    rintro conns t' ⟨-, ht'⟩
    refine .expect_none (skipStr_close_none ?_) rfl
    obtain ⟨c, hc, hhead⟩ := connText_head brick bad (more.flatMap (connText brick) ++ "\x7d\n".toList)
    rw [ht', hc]
    rcases hhead with rfl | rfl | rfl <;> decide

/-! ## What a conversion can return -/

section Returns

variable {α β : Type}

/-- Whatever the text is, what the conversion returns meets `P`. -/
def Returns (m : Conv α) (P : α → Prop) : Prop := ∀ c a c', (m.run c).1 = some (a, c') → P a

theorem Returns.bind {m : Conv α} {f : α → Conv β} {P : α → Prop} {R : β → Prop}
    (hm : Returns m P) (hf : ∀ a, P a → Returns (f a) R) : Returns (m >>= f) R := by
  intro c b c' h
  rw [bind_fst, Option.bind_eq_some_iff] at h
  obtain ⟨⟨a, c1⟩, h1, h2⟩ := h
  exact hf a (hm _ _ _ h1) _ _ _ h2

theorem Returns.any (m : Conv α) : Returns m fun _ => True := fun _ _ _ _ => trivial

theorem Returns.pure {a : α} {P : α → Prop} (h : P a) : Returns (Pure.pure a : Conv α) P := by
  rintro c b c' hb
  cases hb
  exact h

theorem Returns.step {m : Conv α} {f : α → Conv β} {R : β → Prop}
    (hf : ∀ a, Returns (f a) R) : Returns (m >>= f) R :=
  .bind (.any m) fun a _ => hf a

theorem Returns.attempt {m : Conv α} {P : α → Prop} (hm : Returns m P) :
    Returns (attempt m) fun o => ∀ a, o = some a → P a := by
  intro c o c' h a ho
  subst ho
  rcases hmc : m.run c with ⟨_ | ⟨b, c1⟩, stores⟩
  · simp [Conv.attempt, hmc] at h
  · simp only [Conv.attempt, hmc, Option.some.injEq, Prod.mk.injEq] at h
    exact hm c a c1 (by rw [hmc, h.1])

theorem whileConvert_returns {m : Conv α} {P : α → Prop} (hm : Returns m P) :
    ∀ fuel, Returns (whileConvert m fuel) fun recs => ∀ r ∈ recs, P r.2
  | 0 => .pure (by simp)
  | fuel + 1 => by
    unfold whileConvert
    refine .step fun place => .bind hm.attempt fun o ho => ?_
    cases o with
    | none => exact .pure (by simp)
    | some a =>
      refine .bind (whileConvert_returns hm fuel) fun recs hrecs => .pure ?_
      intro r hr
      rcases List.mem_cons.mp hr with rfl | hr
      · exact ho a rfl
      · exact hrecs r hr

theorem convertList_returns {m : Conv α} {P : α → Prop} (hm : Returns m P) (head : Nat) :
    Returns (convertList m head) fun as => ∀ a ∈ as, P a := by
  unfold convertList
  refine .step fun _ => .step fun c => .bind (whileConvert_returns hm _) fun recs hrecs => ?_
  have hall : ∀ a ∈ recs.map Prod.snd, P a := by
    intro a ha
    obtain ⟨r, hr, rfl⟩ := List.mem_map.mp ha
    exact hrecs r hr
  split <;> exact .step fun _ => .pure hall

end Returns

theorem stringLoop_printable (text : Text) : ∀ {bin size : Nat} {v : Text} {c : Cursor},
    (stringLoop text bin size).1 = some (v, c) → ∀ x ∈ v, printable x = true := by
  induction text with
  | nil =>
    intro bin size v c h
    cases h
    simp
  | cons t text ih =>
    intro bin size v c h
    unfold stringLoop at h
    split at h
    · rename_i ht
      split at h
      · cases h
      · obtain ⟨⟨v', c'⟩, h1, h2⟩ := Option.map_eq_some_iff.mp h
        cases h2
        intro x hx
        rcases List.mem_cons.mp hx with rfl | hx
        · exact ht
        · exact ih h1 x hx
    · cases h
      simp

theorem convertAttr_returns : Returns convertAttr fun a => ∀ x ∈ a.value, printable x = true := by
  have hread : Returns readString fun v => ∀ x ∈ v, printable x = true :=
    fun c v c' h => stringLoop_printable c.text h
  have hstring : Returns convertString fun v => ∀ x ∈ v, printable x = true := by
    unfold convertString
    exact .bind hread fun v hv => .step fun _ => .step fun _ => .step fun _ => .step fun _ => .pure hv
  unfold convertAttr
  refine .step fun _ => .step fun _ => .step fun _ => .step fun _ => .step fun _ => .step fun _ =>
    .step fun _ => .step fun _ => .step fun _ => .bind hstring fun v hv => ?_
  exact .step fun _ => .step fun _ => .pure hv

theorem convertConn_returns : Returns convertConn ConnRec.Printable := by
  have htail (place : Nat) (flags : BitVec 16) (name : Text) : Returns (do
      let attr ← convertList convertAttr (place + 24)
      scan skipWhitespace (runLooks wsTable)
      let (flags, target) ← connConnect place flags
      expect (skipStr · " \x7d ".toList) (strLooks · " \x7d ".toList)
      store place 8
      return (⟨flags, name, attr, target⟩ : ConnRec)) ConnRec.Printable :=
    .bind (convertList_returns convertAttr_returns _) fun attr hattr => .step fun _ =>
      .step fun _ => .step fun _ => .step fun _ => .pure hattr
  unfold convertConn
  refine .step fun place => .step fun _ => .step fun _ => .step fun flags => .step fun _ =>
    .step fun action => .step fun _ => .step fun _ => .step fun name => .step fun _ => .step fun b => ?_
  cases b with
  | true => exact .step fun _ => htail place _ name
  | false => exact htail place _ name

theorem convertBrick_returns : Returns convertBrick fun brick =>
    (∀ a ∈ brick.attr, ∀ x ∈ a.value, printable x = true) ∧
      ∀ conn ∈ brick.conn, conn.Printable := by
  have htail (place : Nat) (flags : BitVec 16) (name : Text) : Returns (do
      let attr ← convertList convertAttr (place + 16)
      let conn ← convertList convertConn (place + 24)
      expect (skipStr · " \x7d ".toList) (strLooks · " \x7d ".toList)
      return (⟨flags, name, attr, conn⟩ : BrickRec)) fun brick =>
        (∀ a ∈ brick.attr, ∀ x ∈ a.value, printable x = true) ∧
          ∀ conn ∈ brick.conn, conn.Printable :=
    .bind (convertList_returns convertAttr_returns _) fun attr hattr =>
      .bind (convertList_returns convertConn_returns _) fun conn hconn =>
        .step fun _ => .pure ⟨hattr, hconn⟩
  unfold convertBrick
  refine .step fun place => .step fun _ => .step fun flags => .step fun _ => .step fun _ =>
    .step fun _ => .step fun action => .step fun _ => .step fun _ => .step fun name =>
      .step fun _ => .step fun b => ?_
  cases b with
  | true => exact .step fun _ => htail place _ name
  | false => exact htail place _ name

/-! ## The round trip -/

/-- What the text of a connector keeps. -/
def ConnRec.Kept (conn : ConnRec) : Prop :=
  conn.flags ∈ [0, maskConnType, maskConnActive, maskConnActive ||| maskConnType] ∧
    (∀ a ∈ conn.attr, (∀ c ∈ a.value, printable c = true) ∧ a.value.headD '\x00' ≠ '=') ∧
    conn.Readable

instance (conn : ConnRec) : Decidable conn.Kept :=
  -- over the characters of the value, not over all there are
  haveI (v : Text) : Decidable (∀ c ∈ v, printable c = true) :=
    decidable_of_iff (v.all printable = true) List.all_eq_true
  inferInstanceAs (Decidable (_ ∧ (∀ a ∈ conn.attr, (∀ c ∈ a.value, printable c = true) ∧
    a.value.headD '\x00' ≠ '=') ∧ conn.Readable))

/-- What the text of a brick keeps: it is read from an active brick without attributes of its own,
and says nothing about actions. -/
def BrickRec.Kept (brick : BrickRec) : Prop :=
  brick.flags = maskBrickActive ∧ brick.attr = [] ∧ ∀ conn ∈ brick.conn, conn.Kept

instance (brick : BrickRec) : Decidable brick.Kept :=
  inferInstanceAs (Decidable (brick.flags = maskBrickActive ∧ brick.attr = [] ∧
    ∀ conn ∈ brick.conn, conn.Kept))

theorem stripEq_eq_self_iff (v : Text) : stripEq v = v ↔ v.headD '\x00' ≠ '=' := by
  unfold stripEq
  split
  · rename_i v
    refine ⟨fun h => ?_, fun h => absurd rfl h⟩
    have := congrArg List.length h
    simp at this
  · rename_i hne
    refine ⟨fun _ => ?_, fun _ => rfl⟩
    cases v with
    | nil => decide
    | cons c v =>
      intro hc
      exact hne v (by rw [show c = '=' from hc])

theorem shownFlags_eq_iff (conn : ConnRec) : conn.shownFlags = conn.flags ↔
    conn.flags ∈ [0, maskConnType, maskConnActive, maskConnActive ||| maskConnType] := by
  constructor
  · intro h
    rw [← h]
    unfold ConnRec.shownFlags
    cases conn.isActive <;> cases conn.isInput <;> decide
  · intro h
    unfold ConnRec.shownFlags ConnRec.isActive ConnRec.isInput
    simp only [List.mem_cons, List.not_mem_nil, or_false] at h
    rcases h with h | h | h | h <;> rw [h] <;> decide

theorem map_eq_self_iff {α : Type} {f : α → α} {l : List α} : l.map f = l ↔ ∀ a ∈ l, f a = a := by
  have := List.map_inj_left (l := l) (f := f) (g := id)
  rwa [List.map_id] at this

theorem shown_eq_iff {conn : ConnRec} (hprint : conn.Printable) (hread : conn.Readable) :
    conn.shown = conn ↔ conn.Kept := by
  have hattr : conn.attr.map (fun a => (⟨a.name, stripEq a.value⟩ : AttrRec)) = conn.attr ↔
      ∀ a ∈ conn.attr, (∀ c ∈ a.value, printable c = true) ∧ a.value.headD '\x00' ≠ '=' := by
    rw [map_eq_self_iff]
    refine forall₂_congr fun a ha => ?_
    rw [← stripEq_eq_self_iff]
    constructor
    · exact fun h => ⟨hprint a ha, congrArg AttrRec.value h⟩
    · rintro ⟨-, h⟩
      rw [h]
  unfold ConnRec.Kept
  rw [← hattr, ← shownFlags_eq_iff]
  constructor
  · exact fun h => ⟨congrArg ConnRec.flags h, congrArg ConnRec.attr h, hread⟩
  · rintro ⟨hf, ha, -⟩
    unfold ConnRec.shown
    rw [hf, ha]

/-- **A brick that is printed and read back is the same brick exactly when its text keeps all of
it.** A brick attribute ends the reading at the brace behind it. -/
theorem brick_round_trip {brick : BrickRec} (hnamed : brick.Named) {len : Int} {text : Text}
    (hprint : brickToString len brick = some text) {bin size : Nat} (hroom : brick.room ≤ size)
    (hsize : size < addrSpace) :
    (convertBrick.run ⟨text, bin, size⟩).1.map Prod.fst = some brick ↔ brick.Kept := by
  rw [brickToString_eq hprint]
  by_cases hall : (∀ a ∈ brick.attr, ∀ x ∈ a.value, printable x = true) ∧
      ∀ conn ∈ brick.conn, conn.Printable
  · by_cases hread : brick.attr = [] ∧ ∀ conn ∈ brick.conn, conn.Readable
    · obtain ⟨bin', size', hrun, -⟩ :=
        (convertBrick_meets hnamed hall.2 hread.1 hread.2).run hroom hsize
      rw [hrun, Option.map_some, Option.some.injEq]
      have hconn : brick.conn.map ConnRec.shown = brick.conn ↔ ∀ conn ∈ brick.conn, conn.Kept := by
        rw [map_eq_self_iff]
        exact forall₂_congr fun conn hc => shown_eq_iff (hall.2 conn hc) (hread.2 conn hc)
      unfold BrickRec.Kept
      rw [← hconn]
      constructor
      · exact fun h => ⟨(congrArg BrickRec.flags h).symm, hread.1, congrArg BrickRec.conn h⟩
      · rintro ⟨hf, ha, hc⟩
        show brick.shown = brick
        unfold BrickRec.shown
        rw [hc, ← hf, ← ha]
    · have hnone := (convertBrick_refused hnamed hall.2 hall.1 hread bin size hroom hsize).1
      rw [Refused, Option.map_eq_none_iff] at hnone
      rw [hnone]
      refine ⟨fun h => (Option.some_ne_none _ h.symm).elim, fun h => ?_⟩
      exact (hread ⟨h.2.1, fun conn hc => (h.2.2 conn hc).2.2⟩).elim
  · -- the reader returns printable values only
    constructor
    · intro h
      obtain ⟨⟨b, c'⟩, hrun, hb⟩ := Option.map_eq_some_iff.mp h
      have := convertBrick_returns _ _ _ hrun
      rw [show b = brick from hb] at this
      exact (hall this).elim
    · rintro ⟨-, ha, hc⟩
      refine (hall ⟨?_, fun conn hconn a hmem => ((hc conn hconn).2.1 a hmem).1⟩).elim
      rw [ha]
      simp

/-- A brick with an active input and an output that nobody has initialized. -/
def twoConns : BrickRec :=
  ⟨maskBrickActive, "queue".toList, [],
    [⟨maskConnActive, "in".toList, [⟨"size".toList, "12".toList⟩], [⟨0x1000, "out".toList⟩]⟩,
      ⟨maskConnType, "out".toList, [], [⟨0x2000, "in".toList⟩, ⟨0xABC0, "aux".toList⟩]⟩]⟩

instance (w : Text) : Decidable (IsWord w) :=
  decidable_of_iff (w ≠ [] ∧ w.all idTable = true) (and_congr_right' List.all_eq_true)

theorem twoConns_named : twoConns.Named :=
  ⟨by decide, by decide, List.forall_mem_cons.mpr ⟨⟨by decide, by decide, by decide⟩,
    List.forall_mem_cons.mpr ⟨⟨by decide, by decide, by decide⟩, List.forall_mem_nil _⟩⟩⟩

theorem brick_round_trip_two_conns :
    (convertBrick.run ⟨brickText twoConns, 0, 500⟩).1.map Prod.fst = some twoConns :=
  (@brick_round_trip _ twoConns_named 300 _ (by decide +kernel) _ _ (by decide) (by decide)).mpr
    (by decide)

/-- A brick with one attribute. -/
def oneAttr : BrickRec := ⟨maskBrickActive, "q".toList, [⟨"a".toList, "1".toList⟩], []⟩

theorem oneAttr_named : oneAttr.Named :=
  ⟨by decide, by decide, List.forall_mem_nil _⟩

theorem brick_round_trip_fails : ¬ ∀ (brick : BrickRec) (len : Int) (text : Text), brick.Named →
    brickToString len brick = some text → ∀ bin size, brick.room ≤ size → size < addrSpace →
      (convertBrick.run ⟨text, bin, size⟩).1.map Prod.fst = some brick := by
  intro h
  have := h oneAttr 300 (brickText oneAttr) oneAttr_named (by decide +kernel) 0 500 (by decide)
    (by decide)
  revert this
  decide +kernel

end Athomux.BinStrat
