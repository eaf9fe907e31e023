import Athomux.Params.Inside

/-!
# Which option is found

Strings of options as the header describes them, with the options at their places. Both searches take
the first option whose name the name begins with.
-/

namespace Athomux.Params

open NetConnect (Text isDelim isNid isQuote skipDelims)

/-! ## Well-formed strings -/

/-- The value as it is written. -/
inductive Value
  | none
  | plain (v : Text)
  | quoted (quote : Char) (v : Text)
  deriving DecidableEq, Repr

namespace Value

def text : Value → Text
  | none => []
  | plain v => '=' :: v
  | quoted q v => '=' :: q :: (v ++ [q])

/-- Without quotes there are no blanks in it, and it is not empty. -/
def Proper : Value → Prop
  | none => True
  | plain v => v ≠ [] ∧ (∀ c ∈ v, isDelim c = false) ∧ ∀ c, v.head? = some c → isQuote c = false
  | quoted q v => isQuote q = true ∧ q ∉ v

def content : Value → Text
  | none => []
  | plain v => v
  | quoted _ v => v

end Value

/-- An option. -/
structure Item where
  name : Text
  value : Value
  named : name ≠ []
  nameChars : ∀ c ∈ name, isNid c = false
  proper : value.Proper

def Item.text (i : Item) : Text := i.name ++ i.value.text

/-- There is a blank between two options. -/
def Separated : List (Item × Text) → Prop
  | [] => True
  | e :: l => (∀ c ∈ e.2, isDelim c = true) ∧ (l ≠ [] → e.2 ≠ []) ∧ Separated l

/-- The options, each with the blanks behind it. -/
def render : List (Item × Text) → Text
  | [] => []
  | e :: l => e.1.text ++ (e.2 ++ render l)

/-- A well-formed parameter string. -/
structure ParamString where
  lead : Text
  items : List (Item × Text)
  blank : ∀ c ∈ lead, isDelim c = true
  separated : Separated items

def ParamString.text (s : ParamString) : Text := s.lead ++ render s.items

/-! ## Their options -/

/-- The options with their places. -/
def placed : Nat → List (Item × Text) → List (Nat × Item)
  | _, [] => []
  | p, e :: l => (p, e.1) :: placed (p + e.1.text.length + e.2.length) l

/-- The place of the value of an option. -/
def valuePlace (e : Nat × Item) : Option Nat :=
  match e.2.value with
  | .none => none
  | .plain _ => some (e.1 + e.2.name.length + 1)
  | .quoted _ _ => some (e.1 + e.2.name.length + 2)

/-- The first option of exactly this name. -/
def ParamString.first (s : ParamString) (name : Text) : Option (Nat × Item) :=
  (placed s.lead.length s.items).find? fun e => e.2.name = name

/-- The first option whose name this name begins with. -/
def ParamString.begun (s : ParamString) (name : Text) : Option (Nat × Item) :=
  (placed s.lead.length s.items).find? fun e => e.2.name.isPrefixOf name

def valued (e : Nat × Item) : Bool := e.2.value ≠ .none

def valueLen (e : Nat × Item) : Nat := e.2.value.content.length

/-- What `param_getopt` is to store. An empty value counts as none. -/
def answer : Option (Nat × Item) → Answer
  | none => ⟨false, none, 0⟩
  | some e => ⟨true, if 0 < valueLen e then valuePlace e else none, valueLen e⟩

/-- What `param_check` is to store: it reports the option in the form that the call asks for, which
is with a value where there is a pointer for it. -/
def report (val valLen : Bool) : Option (Nat × Item) → Answer
  | none => ⟨false, none, 0⟩
  | some e =>
    if valued e = val then
      ⟨true, if val then valuePlace e else none, if val && valLen then valueLen e else 0⟩
    else ⟨false, none, 0⟩

/-! ## The scanner on an option -/

section
variable {s t tail name : Text} {i : Item} {p q : Nat}

theorem skipDelims_append {u : Text} (hu : ∀ c ∈ u, isDelim c = true) (t : Text) :
    skipDelims (u ++ t) = skipDelims t := List.dropWhile_append_of_pos hu

theorem skipDelims_cons {c : Char} (hc : isDelim c = false) (t : Text) :
    skipDelims (c :: t) = c :: t := List.dropWhile_cons_of_neg (by rw [hc]; exact Bool.false_ne_true)

theorem isDelim_of_isNid {c : Char} (h : isNid c = false) : isDelim c = false := by
  unfold isNid at h
  simp only [decide_eq_false_iff_not, not_or, Bool.not_eq_true] at h
  exact h.1

theorem skipDelims_name (i : Item) (t : Text) : skipDelims (i.name ++ t) = i.name ++ t := by
  obtain ⟨c, n, hname⟩ := List.exists_cons_of_ne_nil i.named
  have hc : isNid c = false := i.nameChars c (by rw [hname]; exact List.mem_cons_self)
  rw [hname]
  exact skipDelims_cons (isDelim_of_isNid hc) _

theorem skipDelims_render (l : List (Item × Text)) : skipDelims (render l) = render l := by
  cases l with
  | nil => rfl
  | cons e l =>
    rw [render, Item.text, List.append_assoc]
    exact skipDelims_name e.1 _

/-- An option ends at a blank, or with the string. -/
def Ended (tail : Text) : Prop := ∀ c, tail.head? = some c → isDelim c = true

theorem ended_tail {e : Item × Text} {l : List (Item × Text)} (h : Separated (e :: l)) :
    Ended (e.2 ++ render l) := by
  intro c hc
  cases hsep : e.2 with
  | nil =>
    have hl : l = [] := by
      by_contra hl
      exact h.2.1 hl hsep
    rw [hsep, hl] at hc
    cases hc
  | cons d r =>
    rw [hsep] at hc
    obtain rfl := Option.some.inj hc
    exact h.1 d (by rw [hsep]; exact List.mem_cons_self)

theorem takeWhile_ended (h : Ended tail) {f : Char → Bool} (hf : ∀ c, isDelim c = true → f c = false) :
    tail.takeWhile f = [] ∧ tail.dropWhile f = tail := by
  cases tail with
  | nil => exact ⟨rfl, rfl⟩
  | cons c t =>
    have hc := hf c (h c rfl)
    rw [List.takeWhile_cons, List.dropWhile_cons, hc]
    exact ⟨rfl, rfl⟩

/-- The text from the value on, where `tail` is behind the option. -/
def Value.onward (tail : Text) : Value → Option Text
  | none => Option.none
  | plain v => some (v ++ tail)
  | quoted q v => some (q :: (v ++ q :: tail))

theorem nameOf_item (hskip : skipDelims t = i.name ++ (i.value.text ++ tail)) (htail : Ended tail) :
    nameOf t = i.name ∧ gapOf t = skipDelims (i.value.text ++ tail) := by
  have hstop : ∀ w : Text, (∀ c, w.head? = some c → isNid c = true) →
      w.takeWhile (fun c => !isNid c) = [] ∧ w.dropWhile (fun c => !isNid c) = w := by
    intro w hw
    cases w with
    | nil => exact ⟨rfl, rfl⟩
    | cons c w =>
      rw [List.takeWhile_cons, List.dropWhile_cons, hw c rfl]
      exact ⟨rfl, rfl⟩
  have hnid : ∀ c, (i.value.text ++ tail).head? = some c → isNid c = true := by
    intro c hc
    cases hv : i.value with
    | none =>
      rw [hv] at hc
      have hd := htail c hc
      unfold isNid
      simp [hd]
    | plain v => rw [hv] at hc; obtain rfl := Option.some.inj hc; rfl
    | quoted q v => rw [hv] at hc; obtain rfl := Option.some.inj hc; rfl
  have hname : ∀ c ∈ i.name, (!isNid c) = true := fun c hc => by rw [i.nameChars c hc]; rfl
  unfold nameOf gapOf
  rw [hskip, List.takeWhile_append_of_pos hname, List.dropWhile_append_of_pos hname,
    (hstop _ hnid).1, (hstop _ hnid).2, List.append_nil]
  exact ⟨rfl, rfl⟩

theorem valueAt_item (hskip : skipDelims t = i.name ++ (i.value.text ++ tail)) (htail : Ended tail)
    (hnext : (skipDelims tail).head? ≠ some '=') : valueAt t = i.value.onward tail := by
  have hgap := (nameOf_item hskip htail).2
  have hproper := i.proper
  unfold valueAt
  rw [hgap]
  cases hv : i.value with
  | none =>
    rw [Value.text, List.nil_append, Value.onward]
    cases hs : skipDelims tail with
    | nil => rfl
    | cons c r =>
      rw [hs] at hnext
      exact if_neg fun hc => hnext (by rw [hc]; rfl)
  | plain v =>
    rw [hv] at hproper
    obtain ⟨c, r, rfl⟩ := List.exists_cons_of_ne_nil hproper.1
    have hc := hproper.2.1 c List.mem_cons_self
    change some (skipDelims (c :: (r ++ tail))) = _
    rw [skipDelims_cons hc]
    rfl
  | quoted q v =>
    rw [hv] at hproper
    have hq : isDelim q = false := by
      have hquote := hproper.1
      unfold isQuote at hquote
      unfold isDelim
      simp only [decide_eq_true_eq] at hquote
      simp only [decide_eq_false_iff_not]
      rintro (rfl | rfl | rfl | rfl) <;> revert hquote <;> decide
    change some (skipDelims (q :: (v ++ [q] ++ tail))) = _
    rw [skipDelims_cons hq, List.append_assoc]
    rfl

/-- A value of an option is closed, and ends where the option does. -/
theorem onward_ended (hproper : i.value.Proper) (htail : Ended tail) {v : Text}
    (hv : i.value.onward tail = some v) :
    openValue v = false ∧ valueText v = i.value.content ∧ valueEnd v = tail := by
  have hstop := takeWhile_ended htail (f := fun d => !isDelim d) fun c hc => by rw [hc]; rfl
  cases hval : i.value with
  | none => rw [hval] at hv; cases hv
  | plain w =>
    rw [hval] at hv hproper
    obtain rfl := Option.some.inj hv
    obtain ⟨c, r, rfl⟩ := List.exists_cons_of_ne_nil hproper.1
    have hquote := hproper.2.2 c rfl
    have hplain : ∀ d ∈ c :: r, (!isDelim d) = true := fun d hd => by rw [hproper.2.1 d hd]; rfl
    have htake : (c :: r ++ tail).takeWhile (fun d => !isDelim d) = c :: r ++ _ :=
      List.takeWhile_append_of_pos hplain
    have hdrop : (c :: r ++ tail).dropWhile (fun d => !isDelim d) = _ :=
      List.dropWhile_append_of_pos hplain
    rw [hstop.1, List.append_nil] at htake
    rw [hstop.2] at hdrop
    rw [List.cons_append] at htake hdrop ⊢
    rw [openValue, valueText, valueEnd, hquote]
    exact ⟨rfl, htake, hdrop⟩
  | quoted q w =>
    rw [hval] at hv hproper
    obtain rfl := Option.some.inj hv
    have hne : ∀ d ∈ w, decide (d ≠ q) = true := fun d hd => by
      rw [decide_eq_true_eq]
      rintro rfl
      exact hproper.2 hd
    rw [openValue, valueText, valueEnd, hproper.1, List.takeWhile_append_of_pos hne,
      List.dropWhile_append_of_pos hne, List.takeWhile_cons_of_neg (by simp),
      List.dropWhile_cons_of_neg (by simp)]
    refine ⟨?_, List.append_nil w, rfl⟩
    simp

theorem rest_inj (hp : rest s p = .ok t) (hq : rest s q = .ok t) : p = q := by
  obtain ⟨hp, hpt⟩ := rest_eq_ok.mp hp
  obtain ⟨hq, hqt⟩ := rest_eq_ok.mp hq
  have hlen := congrArg List.length (hpt.trans hqt.symm)
  rw [List.length_drop, List.length_drop] at hlen
  omega

/-- What is stored about an option that is at `q`. -/
structure Stored (q : Nat) (i : Item) (o : Opt) : Prop where
  val : o.val = valuePlace (q, i)
  valLen : o.valLen = valueLen (q, i)

/-- `next_opt` on an option of a well-formed string. -/
theorem nextOpt_item (name : Text)
    (hskip : skipDelims t = i.name ++ (i.value.text ++ tail)) (htail : Ended tail)
    (hnext : (skipDelims tail).head? ≠ some '=') (hq : rest s q = .ok (skipDelims t)) :
    unclosed t = false ∧ begins name t = i.name.isPrefixOf name ∧ behind t = skipDelims tail ∧
      ∀ o, OptRead s t p o → Stored q i o := by
  have hname := (nameOf_item hskip htail).1
  have hvalue := valueAt_item hskip htail hnext
  have hbegins : begins name t = i.name.isPrefixOf name := by
    unfold begins
    rw [hname]
    simp only [ne_eq, i.named, not_false_eq_true, true_and, Bool.decide_eq_true]
  unfold unclosed behind
  rw [hskip] at hq
  have hafter : rest s (q + i.name.length) = .ok (i.value.text ++ tail) := rest_add hq
  cases hval : i.value with
  | none =>
    rw [hvalue, hval]
    refine ⟨rfl, hbegins, ?_, fun o ho => ?_⟩
    · have hgap := (nameOf_item hskip htail).2
      rw [hval] at hgap
      exact hgap
    · rw [hval] at hvalue
      obtain ⟨hnone, hzero⟩ := ho.valueless hvalue
      exact ⟨by rw [hnone, valuePlace, hval], by rw [hzero, valueLen, hval]; rfl⟩
  | plain v =>
    have honward : i.value.onward tail = some (v ++ tail) := by rw [hval]; rfl
    obtain ⟨hopen, htext, hend⟩ := onward_ended i.proper htail honward
    rw [hvalue, honward]
    refine ⟨hopen, hbegins, by simp only [hend], fun o ho => ?_⟩
    obtain ⟨w, hw, hrest, hlen⟩ := ho.valued _ (hvalue.trans honward)
    have hproper := i.proper
    rw [hval] at hproper hafter
    obtain ⟨c, r, rfl⟩ := List.exists_cons_of_ne_nil hproper.1
    have hinner : inner (c :: r ++ tail) = c :: r ++ tail := by
      rw [List.cons_append, inner, hproper.2.2 c rfl]
      rfl
    rw [hinner] at hrest
    refine ⟨?_, by rw [hlen, htext, valueLen]⟩
    rw [hw, rest_inj hrest (rest_tail hafter), valuePlace, hval]
  | quoted quote v =>
    have honward : i.value.onward tail = some (quote :: (v ++ quote :: tail)) := by rw [hval]; rfl
    obtain ⟨hopen, htext, hend⟩ := onward_ended i.proper htail honward
    rw [hvalue, honward]
    refine ⟨hopen, hbegins, by simp only [hend], fun o ho => ?_⟩
    obtain ⟨w, hw, hrest, hlen⟩ := ho.valued _ (hvalue.trans honward)
    have hproper := i.proper
    rw [hval] at hproper hafter
    have hassoc : v ++ quote :: tail = v ++ [quote] ++ tail := by
      rw [List.append_assoc, List.singleton_append]
    rw [inner, hproper.1, if_pos rfl, hassoc] at hrest
    refine ⟨?_, by rw [hlen, htext, valueLen]⟩
    rw [hw, rest_inj hrest (rest_tail (rest_tail hafter)), valuePlace, hval]

theorem render_head (l : List (Item × Text)) : (render l).head? ≠ some '=' := by
  cases l with
  | nil => simp [render]
  | cons e l =>
    obtain ⟨c, n, hname⟩ := List.exists_cons_of_ne_nil e.1.named
    have hc : isNid c = false := e.1.nameChars c (by rw [hname]; exact List.mem_cons_self)
    rw [render, Item.text, hname]
    intro h
    obtain rfl := Option.some.inj h
    exact absurd hc (by decide)

/-- The result of the loop. -/
def Found (e : Option (Nat × Item)) (r : Option Opt) : Prop :=
  match e with
  | none => r = none
  | some e => ∃ o, r = some o ∧ Stored e.1 e.2 o

theorem findOpt_render {l : List (Item × Text)} {fuel : Nat} (hl : Separated l)
    (hp : rest s p = .ok t) (hskip : skipDelims t = render l) (hq : rest s q = .ok (render l))
    (hfuel : t.length < fuel) :
    ∃ r, findOpt s name fuel p = .ok r ∧
      Found ((placed q l).find? fun e => e.2.name.isPrefixOf name) r := by
  induction l generalizing p q t fuel with
  | nil =>
    obtain ⟨f, rfl⟩ : ∃ f, fuel = f + 1 := ⟨fuel - 1, by omega⟩
    by_cases ht : t = []
    · subst ht
      exact ⟨none, findOpt_nil f hp, rfl⟩
    · have hgap : gapOf t = [] := by unfold gapOf; rw [hskip]; rfl
      have hvalue : valueAt t = none := by unfold valueAt; rw [hgap]
      have hstep := findOpt_step name f hp ht
      have hopen : unclosed t = false := by rw [unclosed, hvalue]; rfl
      rw [hopen] at hstep
      obtain ⟨o, hread, hfind⟩ := hstep
      have hbegins : begins name t = false := by
        unfold begins nameOf
        rw [hskip]
        rfl
      have hbehind : behind t = [] := by unfold behind; rw [hvalue]; exact hgap
      have hrest := hread.next
      rw [hbehind] at hrest
      rw [hbegins] at hfind
      have hpos := List.length_pos_iff.mpr ht
      obtain ⟨g, rfl⟩ : ∃ g, f = g + 1 := ⟨f - 1, by omega⟩
      exact ⟨none, hfind.trans (findOpt_nil g hrest), rfl⟩
  | cons e l ih =>
    obtain ⟨f, rfl⟩ : ∃ f, fuel = f + 1 := ⟨fuel - 1, by omega⟩
    have htail := ended_tail hl
    have hafter : skipDelims (e.2 ++ render l) = render l := by
      rw [skipDelims_append hl.1, skipDelims_render]
    have hhead : (skipDelims (e.2 ++ render l)).head? ≠ some '=' := by
      rw [hafter]
      exact render_head l
    have htext : skipDelims t = e.1.name ++ (e.1.value.text ++ (e.2 ++ render l)) := by
      rw [hskip, render, Item.text, List.append_assoc]
    have ht : t ≠ [] := by
      rintro rfl
      have hlen := congrArg List.length htext
      have hpos := List.length_pos_iff.mpr e.1.named
      rw [List.length_append] at hlen
      simp only [skipDelims, List.dropWhile_nil, List.length_nil] at hlen
      omega
    rw [← hskip] at hq
    obtain ⟨hopen, hbegins, hbehind, hstored⟩ :=
      nextOpt_item name htext htail hhead hq
    have hstep := findOpt_step name f hp ht
    rw [hopen] at hstep
    obtain ⟨o, hread, hfind⟩ := hstep
    rw [hbegins] at hfind
    rw [placed, List.find?_cons]
    cases hb : e.1.name.isPrefixOf name with
    | true =>
      rw [hb] at hfind
      exact ⟨some o, hfind, o, rfl, hstored o hread⟩
    | false =>
      rw [hb] at hfind
      have hrest := hread.next
      have hlt := behind_length ht
      rw [hbehind, hafter] at hrest
      rw [hbehind, hafter] at hlt
      have hplace : rest s (q + e.1.text.length + e.2.length) = .ok (render l) := by
        refine rest_add (rest_add ?_)
        rw [hq, htext, Item.text, List.append_assoc]
      have hfuel' : (render l).length < f := by omega
      obtain ⟨r, hr, hfound⟩ := ih hl.2.2 hrest (skipDelims_render l) hplace hfuel'
      exact ⟨r, hfind.trans hr, hfound⟩

end

/-! ## The searches -/

variable (s : ParamString) (name : Text)

theorem findOpt_text :
    ∃ r, findOpt s.text name (s.text.length + 1) 0 = .ok r ∧ Found (s.begun name) r := by
  have hskip : skipDelims s.text = render s.items := by
    rw [ParamString.text, skipDelims_append s.blank, skipDelims_render]
  have hplace : rest s.text s.lead.length = .ok (render s.items) := by
    rw [rest_eq_ok, ParamString.text, List.drop_left, List.length_append]
    exact ⟨Nat.le_add_right _ _, rfl⟩
  exact findOpt_render s.separated (rest_zero _) hskip hplace (Nat.lt_succ_self _)

theorem paramGetopt_eq : paramGetopt s.text name = .ok (answer (s.begun name)) := by
  obtain ⟨r, hr, hfound⟩ := findOpt_text s name
  unfold paramGetopt
  rw [hr]
  cases hb : s.begun name with
  | none =>
    rw [hb] at hfound
    obtain rfl : r = none := hfound
    rfl
  | some e =>
    rw [hb] at hfound
    obtain ⟨o, rfl, hstored⟩ := hfound
    simp only [bind, Except.bind, pure, Except.pure, hstored.val, hstored.valLen]
    rfl

theorem valuePlace_isNone (e : Nat × Item) : (valuePlace e).isNone = !valued e := by
  unfold valuePlace valued
  cases e.2.value <;> rfl

/-- What `param_check` stores about the option that it takes. -/
def checked (val valLen : Bool) : Option (Nat × Item) → Answer
  | none => ⟨false, none, 0⟩
  | some e => if valued e = val ∧ valLen = val then report val valLen (some e) else ⟨false, none, 0⟩

theorem paramCheck_eq (val valLen : Bool) :
    paramCheck s.text name val valLen = .ok (checked val valLen (s.begun name)) := by
  obtain ⟨r, hr, hfound⟩ := findOpt_text s name
  unfold paramCheck
  rw [hr]
  cases hb : s.begun name with
  | none =>
    rw [hb] at hfound
    obtain rfl : r = none := hfound
    rfl
  | some e =>
    rw [hb] at hfound
    obtain ⟨o, rfl, hstored⟩ := hfound
    simp only [bind, Except.bind, pure, Except.pure, hstored.val, hstored.valLen, valuePlace_isNone]
    rw [checked, report]
    cases valued e <;> cases val <;> cases valLen <;> rfl

/-! ## The claim about names -/

theorem first_none (h : s.begun name = none) : s.first name = none := by
  unfold ParamString.begun ParamString.first at *
  rw [List.find?_eq_none] at h ⊢
  intro e he hname
  simp only [decide_eq_true_eq] at hname
  refine h e he ?_
  rw [hname]
  exact List.isPrefixOf_iff_prefix.mpr (List.prefix_refl name)

/-- An option with exactly the name is found before the ones behind it. -/
theorem first_of_begun {e : Nat × Item} (h : s.begun name = some e) (he : e.2.name = name) :
    s.first name = some e := by
  obtain ⟨hpre, l₁, l₂, hsplit, hbefore⟩ := List.find?_eq_some_iff_append.mp h
  refine List.find?_eq_some_iff_append.mpr ⟨by simpa using he, l₁, l₂, hsplit, fun d hd => ?_⟩
  have hnot := hbefore d hd
  simp only [Bool.not_eq_true', decide_eq_false_iff_not] at hnot ⊢
  rintro hname
  rw [hname, List.isPrefixOf_iff_prefix.mpr (List.prefix_refl name)] at hnot
  cases hnot

/-! Two options have different places. -/

theorem le_of_placed {l : List (Item × Text)} {p : Nat} {e : Nat × Item} (h : e ∈ placed p l) :
    p ≤ e.1 := by
  induction l generalizing p with
  | nil => cases h
  | cons d l ih =>
    cases h with
    | head => exact Nat.le_refl p
    | tail _ h => exact (Nat.le_add_right _ _).trans ((Nat.le_add_right _ _).trans (ih h))

theorem valuePlace_inside {e : Nat × Item} {x : Nat} (h : valuePlace e = some x) :
    e.1 < x ∧ x < e.1 + e.2.text.length := by
  have hproper := e.2.proper
  unfold valuePlace at h
  unfold Item.text
  rw [List.length_append]
  cases hv : e.2.value with
  | none => rw [hv] at h; cases h
  | plain v =>
    rw [hv] at h hproper
    obtain rfl := Option.some.inj h
    have hpos := List.length_pos_iff.mpr hproper.1
    rw [Value.text, List.length_cons]
    omega
  | quoted q v =>
    rw [hv] at h
    obtain rfl := Option.some.inj h
    rw [Value.text, List.length_cons, List.length_cons, List.length_append, List.length_singleton]
    omega

theorem valuePlace_inj {l : List (Item × Text)} {p x : Nat} {e f : Nat × Item}
    (he : e ∈ placed p l) (hf : f ∈ placed p l) (hex : valuePlace e = some x)
    (hfx : valuePlace f = some x) : e = f := by
  induction l generalizing p with
  | nil => cases he
  | cons d l ih =>
    have hbehind : ∀ g, g ∈ placed (p + d.1.text.length + d.2.length) l → valuePlace g = some x →
        valuePlace (p, d.1) ≠ some x := by
      intro g hg hgx hdx
      have hg' := (valuePlace_inside hgx).1
      have hd' := (valuePlace_inside hdx).2
      have hle := le_of_placed hg
      simp only at hd'
      omega
    cases he with
    | head =>
      cases hf with
      | head => rfl
      | tail _ hf => exact absurd hex (hbehind f hf hfx)
    | tail _ he =>
      cases hf with
      | head => exact absurd hfx (hbehind e he hex)
      | tail _ hf => exact ih he hf

theorem valuePlace_of_len {e : Nat × Item} (h : 0 < valueLen e) : ∃ x, valuePlace e = some x := by
  unfold valueLen at h
  unfold valuePlace
  cases hv : e.2.value with
  | none => rw [hv] at h; exact absurd h (Nat.lt_irrefl 0)
  | plain v => exact ⟨_, rfl⟩
  | quoted q v => exact ⟨_, rfl⟩

theorem valuePlace_of_valued {e : Nat × Item} (h : valued e = true) :
    ∃ x, valuePlace e = some x := by
  rw [← Option.isSome_iff_exists, ← Option.not_isNone, valuePlace_isNone, h]
  rfl

/-- The option that the code takes has exactly the name, or neither that one nor the first with the
name has a value to be returned. -/
def GetFits : Prop :=
  ∀ e, s.begun name = some e → e.2.name = name ∨
    (valueLen e = 0 ∧ ∃ f, s.first name = some f ∧ valueLen f = 0)

theorem paramGetopt_iff :
    paramGetopt s.text name = .ok (answer (s.first name)) ↔ GetFits s name := by
  rw [paramGetopt_eq, Except.ok.injEq]
  unfold GetFits
  cases hb : s.begun name with
  | none =>
    rw [first_none s name hb]
    exact ⟨fun _ e he => (by cases he), fun _ => rfl⟩
  | some e =>
    constructor
    · rintro h _ ⟨⟩
      cases hf : s.first name with
      | none => rw [hf] at h; cases h
      | some f =>
        rw [hf, answer, answer] at h
        obtain ⟨-, hval, hlen⟩ := Answer.mk.injEq .. ▸ h
        by_cases hpos : 0 < valueLen e
        · rw [if_pos hpos, if_pos (hlen ▸ hpos)] at hval
          obtain ⟨x, hx⟩ := valuePlace_of_len hpos
          have hef := valuePlace_inj (List.mem_of_find?_eq_some hb) (List.mem_of_find?_eq_some hf)
            hx (hval.symm.trans hx)
          have hname := List.find?_some hf
          left
          rw [hef]
          simpa using hname
        · exact Or.inr ⟨by omega, f, rfl, by omega⟩
    · intro h
      obtain hname | ⟨he, f, hf, hf'⟩ := h e rfl
      · rw [first_of_begun s name hb hname]
      · rw [hf, answer, answer, he, hf']
        rfl

/-- The code takes an option in the form that is asked for exactly where the first with the name has
it, and with a value it is this one. Both pointers are given or none. -/
def CheckFits (val valLen : Bool) : Prop :=
  (∀ f, s.first name = some f → valued f = val →
    valLen = val ∧ ∀ e, s.begun name = some e → valued e = val ∧ (val = true → e.2.name = name)) ∧
  ((∀ f, s.first name = some f → valued f ≠ val) →
    ∀ e, s.begun name = some e → valued e = val → valLen ≠ val)

theorem paramCheck_iff (val valLen : Bool) :
    paramCheck s.text name val valLen = .ok (report val valLen (s.first name)) ↔
      CheckFits s name val valLen := by
  rw [paramCheck_eq, Except.ok.injEq]
  unfold CheckFits
  cases hb : s.begun name with
  | none =>
    rw [first_none s name hb]
    exact ⟨fun _ => ⟨fun _ h => (by cases h), fun _ _ h => (by cases h)⟩, fun _ => rfl⟩
  | some e =>
    cases hf : s.first name with
    | none =>
      rw [report, checked]
      by_cases h : valued e = val ∧ valLen = val
      · rw [if_pos h, report, if_pos h.1]
        refine ⟨fun h' => (by cases h'), fun h' => ?_⟩
        exact absurd h.2 (h'.2 (fun _ h' => (by cases h')) e rfl h.1)
      · rw [if_neg h]
        refine ⟨fun _ => ⟨fun _ h' => (by cases h'), ?_⟩, fun _ => rfl⟩
        rintro - _ ⟨⟩ hval hlen
        exact h ⟨hval, hlen⟩
    | some f =>
      by_cases hform : valued f = val
      · rw [report, if_pos hform, checked]
        have hlast : ¬∀ g, some f = some g → valued g ≠ val := fun h => h f rfl hform
        by_cases h : valued e = val ∧ valLen = val
        · rw [if_pos h, report, if_pos h.1]
          refine ⟨fun heq => ⟨?_, fun h' => absurd h' hlast⟩, fun hfits => ?_⟩
          · rintro _ ⟨⟩ -
            refine ⟨h.2, ?_⟩
            rintro _ ⟨⟩
            refine ⟨h.1, fun hval => ?_⟩
            obtain ⟨-, hplace, -⟩ := Answer.mk.injEq .. ▸ heq
            rw [if_pos hval, if_pos hval] at hplace
            obtain ⟨x, hx⟩ := valuePlace_of_valued (h.1.trans hval)
            have hef := valuePlace_inj (List.mem_of_find?_eq_some hb)
              (List.mem_of_find?_eq_some hf) hx (hplace ▸ hx)
            have hname := List.find?_some hf
            rw [hef]
            simpa using hname
          · cases val with
            | false => rfl
            | true =>
              have hname := ((hfits.1 f rfl hform).2 e rfl).2 rfl
              have hef := hf.symm.trans (first_of_begun s name hb hname)
              rw [Option.some.inj hef]
        · rw [if_neg h]
          refine ⟨fun heq => (by cases heq), fun hfits => ?_⟩
          obtain ⟨hlen, he⟩ := hfits.1 f rfl hform
          exact absurd ⟨(he e rfl).1, hlen⟩ h
      · rw [report, if_neg hform, checked]
        by_cases h : valued e = val ∧ valLen = val
        · rw [if_pos h, report, if_pos h.1]
          refine ⟨fun heq => (by cases heq), fun hfits => ?_⟩
          refine absurd h.2 (hfits.2 ?_ e rfl h.1)
          rintro _ ⟨⟩
          exact hform
        · rw [if_neg h]
          refine ⟨fun _ => ⟨?_, ?_⟩, fun _ => rfl⟩
          · rintro _ ⟨⟩ hval
            exact absurd hval hform
          · rintro - _ ⟨⟩ hval hlen
            exact h ⟨hval, hlen⟩

/-- **Options are found by their names except behind shorter ones**: what both searches report, and
the value that they return, is right exactly where the first option whose name the name begins with is
as good as the first one that has it. -/
theorem lookup_iff :
    (paramGetopt s.text name = .ok (answer (s.first name)) ↔ GetFits s name) ∧
      ∀ val valLen, paramCheck s.text name val valLen = .ok (report val valLen (s.first name)) ↔
        CheckFits s name val valLen :=
  ⟨paramGetopt_iff s name, paramCheck_iff s name⟩

/-- A single option, whose name is the beginning of another one. -/
def shortName : ParamString where
  lead := []
  items := [(⟨"s".toList, .plain "1".toList, List.cons_ne_nil _ _, fun c hc => by
    rw [List.eq_of_mem_singleton hc]; rfl, List.cons_ne_nil _ _, fun c hc => by
    rw [List.eq_of_mem_singleton hc]; rfl, fun c hc => by rw [← Option.some.inj hc]; rfl⟩, [])]
  blank := fun _ h => (nomatch h)
  separated := ⟨fun _ h => (nomatch h), fun h => absurd rfl h, trivial⟩

/-- Both searches for `sid` find it, although there is no option of this name. -/
theorem short_name_found :
    shortName.first "sid".toList = none ∧
      paramGetopt shortName.text "sid".toList ≠ .ok (answer (shortName.first "sid".toList)) ∧
      paramCheck shortName.text "sid".toList true true ≠
        .ok (report true true (shortName.first "sid".toList)) := by
  refine ⟨rfl, fun h => ?_, fun h => ?_⟩
  · cases h
  · cases h

end Athomux.Params
