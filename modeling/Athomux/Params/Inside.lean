import Athomux.NetConnect.Params
import Mathlib.Data.List.TakeWhile
import Mathlib.Tactic.Common

/-!
# The option scanner

`param_scanner.c` with its positions in the string. The NUL is the end of the string, and what is
read behind it is a fault.
-/

namespace Athomux.Params

open NetConnect (Text isDelim isNid isQuote)

inductive Fault
  | past | fuel
  deriving DecidableEq, Repr

/-- The string from `p` on. -/
def rest (s : Text) (p : Nat) : Except Fault Text :=
  if p ≤ s.length then .ok (s.drop p) else .error .past

/-- `excl_len`. -/
def exclLen (toc : Char → Bool) : Text → Nat
  | [] => 0
  | c :: start => if toc c then 0 else exclLen toc start + 1

/-- `incl_len`. -/
def inclLen (toc : Char → Bool) : Text → Nat
  | [] => 0
  | c :: start => if toc c then inclLen toc start + 1 else 0

/-- What `next_opt` stores, and the number of bytes it has read. -/
structure Opt where
  name : Nat
  nameLen : Nat
  val : Option Nat
  valLen : Nat
  read : Nat
  deriving DecidableEq, Repr

structure Val where
  val : Nat
  valLen : Nat
  /-- The position behind it. -/
  p : Nat
  deriving DecidableEq, Repr

/-- The value that begins at `p`. The second quote is not looked at. -/
def optVal (s : Text) (p : Nat) : Except Fault Val := do
  match ← rest s p with
  | [] => return ⟨p, 0, p⟩
  | c :: q =>
    if isQuote c then
      let len := exclLen (· = c) q
      return ⟨p + 1, len, p + 1 + (len + 1)⟩
    else
      let len := exclLen isDelim (c :: q)
      return ⟨p, len, p + len⟩

/-- `next_opt`. -/
def nextOpt (s : Text) (start : Nat) : Except Fault Opt := do
  let name := start + inclLen isDelim (← rest s start)
  let nameLen := exclLen isNid (← rest s name)
  let p := name + nameLen
  let p := p + inclLen isDelim (← rest s p)
  if (← rest s p).head? = some '=' then
    let p := p + 1
    let p := p + inclLen isDelim (← rest s p)
    let v ← optVal s p
    let p := v.p + inclLen isDelim (← rest s v.p)
    return ⟨name, nameLen, some v.val, v.valLen, p - start⟩
  else
    return ⟨name, nameLen, none, 0, p - start⟩

/-- The test of both loops: `strncmp` with the length of the option that has been read. -/
def isNamed (s name : Text) (o : Opt) : Bool :=
  0 < o.nameLen ∧ ((s.drop o.name).take o.nameLen).isPrefixOf name

/-- The loop of `param_getopt` and `param_check`, up to the option that passes the test. -/
def findOpt (s name : Text) : Nat → Nat → Except Fault (Option Opt)
  | 0, _ => .error .fuel
  | fuel + 1, p => do
    match ← rest s p with
    | [] => return none
    | _ :: _ =>
      let o ← nextOpt s p
      if isNamed s name o then return some o else findOpt s name fuel (p + o.read)

/-- What `param_getopt` stores. -/
structure Answer where
  found : Bool
  val : Option Nat
  valLen : Nat
  deriving DecidableEq, Repr

def paramGetopt (param name : Text) : Except Fault Answer := do
  match ← findOpt param name (param.length + 1) 0 with
  | none => return ⟨false, none, 0⟩
  | some o => return ⟨true, if 0 < o.valLen then o.val else none, o.valLen⟩

/-- `param_check`, for the pointers `val` and `val_len` that are given. -/
def paramCheck (param name : Text) (val valLen : Bool) : Except Fault Answer := do
  match ← findOpt param name (param.length + 1) 0 with
  | none => return ⟨false, none, 0⟩
  | some o =>
    if o.val.isNone ≠ !val then return ⟨false, none, 0⟩
    else if val && valLen then return ⟨true, o.val, o.valLen⟩
    else return ⟨!val && !valLen, none, 0⟩

end Athomux.Params

/-!
## Where the scanner reads

An option takes the text up to the next option. Its value is open when it begins with a quote that
does not come again; then there is nothing behind it, not even the end of the string.
-/

namespace Athomux.Params

open NetConnect (Text isDelim isNid isQuote skipDelims)

/-! ## Options -/

def nameOf (t : Text) : Text := (skipDelims t).takeWhile fun c => !isNid c

/-- The text behind the name of the first option. -/
def gapOf (t : Text) : Text := skipDelims ((skipDelims t).dropWhile fun c => !isNid c)

/-- The text from the value of the first option on. -/
def valueAt (t : Text) : Option Text :=
  match gapOf t with
  | [] => none
  | c :: q => if c = '=' then some (skipDelims q) else none

/-- A value without the quote in front of it. -/
def inner : Text → Text
  | [] => []
  | c :: q => if isQuote c then q else c :: q

def valueText : Text → Text
  | [] => []
  | c :: q => if isQuote c then q.takeWhile (· ≠ c) else (c :: q).takeWhile fun d => !isDelim d

def valueEnd : Text → Text
  | [] => []
  | c :: q =>
    if isQuote c then (q.dropWhile (· ≠ c)).tail else (c :: q).dropWhile fun d => !isDelim d

def openValue : Text → Bool
  | [] => false
  | c :: q => isQuote c && !q.contains c

/-- The value of the first option is open. -/
def unclosed (t : Text) : Bool := (valueAt t).any openValue

/-- The text behind the first option. -/
def behind (t : Text) : Text :=
  match valueAt t with
  | none => gapOf t
  | some v => skipDelims (valueEnd v)

theorem valueAt_none {t : Text} (h : valueAt t = none) : (gapOf t).head? ≠ some '=' := by
  unfold valueAt at h
  cases hg : gapOf t with
  | nil => simp
  | cons c q =>
    rw [hg] at h
    simp only at h
    split_ifs at h with hc
    simpa using hc

theorem valueAt_some {t v : Text} (h : valueAt t = some v) :
    ∃ q, gapOf t = '=' :: q ∧ v = skipDelims q := by
  unfold valueAt at h
  cases hg : gapOf t with
  | nil => rw [hg] at h; cases h
  | cons c q =>
    rw [hg] at h
    simp only at h
    split_ifs at h with hc
    exact ⟨q, by rw [hc], (Option.some.inj h).symm⟩

theorem dropWhile_eq_nil_iff {c : Char} {q : Text} :
    q.dropWhile (· ≠ c) = [] ↔ q.contains c = false := by
  rw [List.dropWhile_eq_nil_iff, ← Bool.not_eq_true, List.contains_iff_mem]
  constructor
  · intro h hmem
    simpa using h c hmem
  · intro h d hd
    simp only [ne_eq, decide_eq_true_eq]
    rintro rfl
    exact h hd

theorem optValue_eq (name v : Text) :
    NetConnect.optValue name v =
      if openValue v then none else some ⟨name, valueText v, skipDelims (valueEnd v)⟩ := by
  cases v with
  | nil => rfl
  | cons c q =>
    rw [NetConnect.optValue, openValue, valueText, valueEnd]
    cases hc : isQuote c with
    | false => rfl
    | true =>
      simp only [if_true, Bool.true_and]
      cases hq : q.dropWhile (· ≠ c) with
      | nil => rw [dropWhile_eq_nil_iff.mp hq]; rfl
      | cons d r =>
        have hcont : q.contains c = true := by
          by_contra hn
          have := dropWhile_eq_nil_iff.mpr (Bool.not_eq_true _ ▸ hn)
          rw [hq] at this
          cases this
        rw [hcont]
        rfl

/-- The scanner on texts. -/
theorem nextOpt_text (t : Text) :
    NetConnect.nextOpt t =
      if unclosed t then none
      else some ⟨nameOf t, ((valueAt t).map valueText).getD [], behind t⟩ := by
  unfold NetConnect.nextOpt unclosed behind nameOf valueAt gapOf
  simp only
  cases skipDelims ((skipDelims t).dropWhile fun c => !isNid c) with
  | nil => rfl
  | cons c q =>
    by_cases hc : c = '='
    · simp only [if_pos hc, Option.any_some, Option.map_some, Option.getD_some]
      exact optValue_eq _ _
    · simp only [if_neg hc]
      rfl

theorem behind_length {t : Text} (ht : t ≠ []) : (behind t).length < t.length := by
  cases hopen : unclosed t with
  | false =>
    have htext := nextOpt_text t
    rw [hopen] at htext
    exact NetConnect.nextOpt_length ht htext
  | true =>
    have hpos := List.length_pos_iff.mpr ht
    unfold unclosed behind at *
    cases hv : valueAt t with
    | none => rw [hv] at hopen; cases hopen
    | some v =>
      rw [hv] at hopen
      cases v with
      | nil => cases hopen
      | cons c q =>
        rw [Option.any_some, openValue, Bool.and_eq_true, Bool.not_eq_true'] at hopen
        have hnil := dropWhile_eq_nil_iff.mpr hopen.2
        simp only [valueEnd]
        rw [if_pos hopen.1, hnil]
        exact hpos

/-! ## Positions -/

section
variable {s t name : Text} {p : Nat}

theorem rest_eq_ok : rest s p = .ok t ↔ p ≤ s.length ∧ s.drop p = t := by
  unfold rest
  by_cases h : p ≤ s.length
  · rw [if_pos h, Except.ok.injEq]
    exact ⟨fun h' => ⟨h, h'⟩, fun h' => h'.2⟩
  · rw [if_neg h]
    exact ⟨fun h' => (by cases h'), fun h' => absurd h'.1 h⟩

theorem rest_add {u : Text} (h : rest s p = .ok (u ++ t)) : rest s (p + u.length) = .ok t := by
  obtain ⟨hp, hdrop⟩ := rest_eq_ok.mp h
  have hlen := congrArg List.length hdrop
  rw [List.length_drop, List.length_append] at hlen
  rw [rest_eq_ok, ← List.drop_drop, hdrop, List.drop_left]
  exact ⟨by omega, rfl⟩

theorem rest_tail {c : Char} (h : rest s p = .ok (c :: t)) : rest s (p + 1) = .ok t :=
  rest_add (u := [c]) h

theorem rest_behind (h : rest s p = .ok []) : rest s (p + 1) = .error .past := by
  obtain ⟨hp, hdrop⟩ := rest_eq_ok.mp h
  have hlen := congrArg List.length hdrop
  rw [List.length_drop, List.length_nil] at hlen
  exact if_neg (by omega)

theorem inclLen_eq (toc : Char → Bool) (t : Text) : inclLen toc t = (t.takeWhile toc).length := by
  induction t with
  | nil => rfl
  | cons c t ih =>
    rw [inclLen, ih, List.takeWhile_cons]
    split_ifs <;> rfl

theorem exclLen_eq (toc : Char → Bool) (t : Text) :
    exclLen toc t = (t.takeWhile fun c => !toc c).length := by
  induction t with
  | nil => rfl
  | cons c t ih =>
    rw [exclLen, ih, List.takeWhile_cons]
    cases toc c <;> rfl

theorem rest_incl (toc : Char → Bool) (h : rest s p = .ok t) :
    rest s (p + inclLen toc t) = .ok (t.dropWhile toc) := by
  rw [inclLen_eq]
  exact rest_add (by rw [List.takeWhile_append_dropWhile, h])

theorem rest_excl (toc : Char → Bool) (h : rest s p = .ok t) :
    rest s (p + exclLen toc t) = .ok (t.dropWhile fun c => !toc c) := by
  rw [exclLen_eq]
  exact rest_add (by rw [List.takeWhile_append_dropWhile, h])

/-! ## One option -/

structure ValRead (s v : Text) (p : Nat) (w : Val) : Prop where
  le : p ≤ w.p
  val : rest s w.val = .ok (inner v)
  valLen : w.valLen = (valueText v).length
  next : rest s w.p = if openValue v then .error .past else .ok (valueEnd v)

theorem optVal_spec {v : Text} (h : rest s p = .ok v) : ∃ w, optVal s p = .ok w ∧ ValRead s v p w := by
  cases v with
  | nil =>
    refine ⟨⟨p, 0, p⟩, ?_, Nat.le_refl p, h, rfl, h⟩
    rw [optVal, h]
    rfl
  | cons c q =>
    cases hc : isQuote c with
    | false =>
      refine ⟨⟨p, exclLen isDelim (c :: q), p + exclLen isDelim (c :: q)⟩, ?_,
        Nat.le_add_right _ _, ?_, ?_, ?_⟩
      · rw [optVal, h]
        simp only [bind, Except.bind, hc]
        rfl
      · rw [inner, hc]
        exact h
      · rw [valueText, hc]
        exact exclLen_eq _ _
      · rw [openValue, valueEnd, hc]
        exact rest_excl isDelim h
    | true =>
      have hq := rest_tail h
      have hend := rest_excl (fun d => d = c) hq
      have hne : (fun d => !decide (d = c)) = fun d => decide (d ≠ c) := by
        funext d
        simp
      rw [hne] at hend
      refine ⟨⟨p + 1, exclLen (· = c) q, p + 1 + (exclLen (· = c) q + 1)⟩, ?_,
        by simp only; omega, ?_, ?_, ?_⟩
      · rw [optVal, h]
        simp only [bind, Except.bind, hc]
        rfl
      · rw [inner, hc]
        exact hq
      · rw [valueText, hc, if_pos rfl, exclLen_eq, hne]
      · rw [openValue, valueEnd, hc, Bool.true_and, if_pos rfl, ← Nat.add_assoc]
        cases hcont : q.contains c with
        | false =>
          rw [dropWhile_eq_nil_iff.mpr hcont] at hend
          exact rest_behind hend
        | true =>
          cases hd : q.dropWhile (· ≠ c) with
          | nil => rw [dropWhile_eq_nil_iff.mp hd] at hcont; cases hcont
          | cons d r =>
            rw [hd] at hend
            exact rest_tail hend

/-- What `next_opt` says about the option at the beginning of `t`. -/
structure OptRead (s t : Text) (p : Nat) (o : Opt) : Prop where
  name : (s.drop o.name).take o.nameLen = nameOf t
  nameLen : o.nameLen = (nameOf t).length
  valueless : valueAt t = none → o.val = none ∧ o.valLen = 0
  valued : ∀ v, valueAt t = some v →
    ∃ q, o.val = some q ∧ rest s q = .ok (inner v) ∧ o.valLen = (valueText v).length
  next : rest s (p + o.read) = .ok (behind t)

theorem nextOpt_spec (h : rest s p = .ok t) :
    if unclosed t then nextOpt s p = .error .past
    else ∃ o, nextOpt s p = .ok o ∧ OptRead s t p o := by
  have hname := rest_incl isDelim h
  have hgap := rest_excl isNid hname
  have hval := rest_incl isDelim hgap
  have hgapOf : ((t.dropWhile isDelim).dropWhile fun c => !isNid c).dropWhile isDelim = gapOf t := rfl
  rw [hgapOf] at hval
  have hlen : exclLen isNid (t.dropWhile isDelim) = (nameOf t).length := exclLen_eq _ _
  have htake : (s.drop (p + inclLen isDelim t)).take (exclLen isNid (t.dropWhile isDelim)) =
      nameOf t := by
    rw [(rest_eq_ok.mp hname).2, hlen]
    exact (List.prefix_iff_eq_take.mp (List.takeWhile_prefix _)).symm
  unfold nextOpt
  simp only [h, hname, hgap, hval, bind, Except.bind, pure, Except.pure]
  cases hv : valueAt t with
  | none =>
    have hopen : unclosed t = false := by rw [unclosed, hv]; rfl
    simp only [hopen, if_neg (valueAt_none hv)]
    refine ⟨_, rfl, htake, hlen, fun _ => ⟨rfl, rfl⟩, fun v hv' => ?_, ?_⟩
    · rw [hv] at hv'
      cases hv'
    · unfold behind
      rw [hv]
      simp only
      rw [← hval]
      congr 1
      omega
  | some v =>
    obtain ⟨q, hq, rfl⟩ := valueAt_some hv
    rw [hq] at hval
    have hskip := rest_incl isDelim (rest_tail hval)
    obtain ⟨w, hw, hread⟩ := optVal_spec hskip
    have hopen : unclosed t = openValue (skipDelims q) := by rw [unclosed, hv]; rfl
    have hnext := hread.next
    simp only [hq, List.head?_cons, if_true, rest_tail hval]
    rw [hopen]
    unfold skipDelims at *
    simp only [hw]
    cases hov : openValue (q.dropWhile isDelim) with
    | true =>
      rw [hov] at hnext
      simp only [hnext, if_true]
    | false =>
      rw [hov] at hnext
      simp only [Bool.false_eq_true, if_false] at hnext ⊢
      simp only [hnext]
      refine ⟨_, rfl, htake, hlen, fun hv' => ?_, fun v hv' => ?_, ?_⟩
      · rw [hv] at hv'
        cases hv'
      · rw [hv] at hv'
        obtain rfl := Option.some.inj hv'
        exact ⟨_, rfl, hread.val, hread.valLen⟩
      · have hle := hread.le
        have hlast := rest_incl isDelim hnext
        unfold behind
        rw [hv]
        simp only
        unfold skipDelims
        rw [← hlast]
        congr 1
        omega

/-! ## The loop -/

/-- The scanner takes this option for the one of the name. -/
def begins (name t : Text) : Bool := nameOf t ≠ [] ∧ (nameOf t).isPrefixOf name

theorem OptRead.isNamed {o : Opt} (h : OptRead s t p o) : isNamed s name o = begins name t := by
  unfold Params.isNamed begins
  rw [h.name, h.nameLen, decide_eq_decide]
  exact and_congr_left' List.length_pos_iff

theorem findOpt_nil (fuel : Nat) (h : rest s p = .ok []) : findOpt s name (fuel + 1) p = .ok none := by
  rw [findOpt, h]
  rfl

theorem findOpt_step (name : Text) (fuel : Nat) (h : rest s p = .ok t) (ht : t ≠ []) :
    if unclosed t then findOpt s name (fuel + 1) p = .error .past
    else ∃ o, OptRead s t p o ∧
      findOpt s name (fuel + 1) p =
        if begins name t then .ok (some o) else findOpt s name fuel (p + o.read) := by
  have hopt := nextOpt_spec h
  obtain ⟨c, q, rfl⟩ := List.exists_cons_of_ne_nil ht
  rw [findOpt, h]
  cases hopen : unclosed (c :: q) with
  | true =>
    rw [hopen, if_pos rfl] at hopt
    rw [if_pos rfl]
    simp only [bind, Except.bind, hopt]
  | false =>
    rw [hopen] at hopt
    obtain ⟨o, ho, hread⟩ := hopt
    refine ⟨o, hread, ?_⟩
    simp only [bind, Except.bind, ho, hread.isNamed]
    rfl

/-- The scanner comes to the option at the beginning of `u`. -/
inductive Comes (name : Text) : Text → Text → Prop
  | here (t : Text) : Comes name t t
  | next {t u : Text} : begins name t = false → Comes name (behind t) u → Comes name t u

/-- No value is open up to the option that is looked for. -/
def Closed (name t : Text) : Prop := ∀ u, Comes name t u → unclosed u = false

theorem closed_nil : Closed name [] := by
  intro u hu
  generalize ht : ([] : Text) = t at hu
  induction hu with
  | here => rw [← ht]; rfl
  | next _ _ ih => exact ih (by rw [← ht]; rfl)

theorem closed_step :
    Closed name t ↔ unclosed t = false ∧ (begins name t = false → Closed name (behind t)) := by
  constructor
  · exact fun h => ⟨h t (.here t), fun hb u hu => h u (.next hb hu)⟩
  · rintro ⟨hopen, hnext⟩ u hu
    cases hu with
    | here => exact hopen
    | next hb hu => exact hnext hb u hu

theorem findOpt_closed (name : Text) {fuel : Nat} (h : rest s p = .ok t) (hfuel : t.length < fuel) :
    (Closed name t → ∃ r, findOpt s name fuel p = .ok r) ∧
      (¬Closed name t → findOpt s name fuel p = .error .past) := by
  induction fuel generalizing p t with
  | zero => exact absurd hfuel (Nat.not_lt_zero _)
  | succ fuel ih =>
    by_cases ht : t = []
    · subst ht
      exact ⟨fun _ => ⟨none, findOpt_nil fuel h⟩, fun hn => absurd closed_nil hn⟩
    · have hstep := findOpt_step name fuel h ht
      rw [closed_step]
      cases hopen : unclosed t with
      | true =>
        rw [hopen] at hstep
        exact ⟨fun hc => (by cases hc.1), fun _ => hstep⟩
      | false =>
        rw [hopen] at hstep
        obtain ⟨o, hread, hfind⟩ := hstep
        rw [hfind]
        cases hb : begins name t with
        | true => exact ⟨fun _ => ⟨_, rfl⟩, fun hn => absurd ⟨rfl, fun h' => (by cases h')⟩ hn⟩
        | false =>
          have hlt := behind_length ht
          obtain ⟨hok, hpast⟩ := ih hread.next (by omega)
          exact ⟨fun hc => hok (hc.2 rfl), fun hn => hpast fun hc => hn ⟨rfl, fun _ => hc⟩⟩

end

/-! ## The claim about every string -/

/-- The code comes to its end, and all that it reads is inside the string. -/
def Inside {α : Type} (r : Except Fault α) : Prop := ∃ a, r = .ok a

theorem rest_zero (s : Text) : rest s 0 = .ok s := if_pos (Nat.zero_le _)

theorem findOpt_inside_iff (param name : Text) :
    Inside (findOpt param name (param.length + 1) 0) ↔ Closed name param := by
  obtain ⟨hok, hpast⟩ := findOpt_closed name (rest_zero param) (Nat.lt_succ_self _)
  refine ⟨fun ⟨r, hr⟩ => ?_, hok⟩
  by_contra hn
  rw [hpast hn] at hr
  cases hr

theorem inside_bind_iff {α β : Type} {r : Except Fault α} {f : α → Except Fault β}
    (hf : ∀ a, Inside (f a)) : Inside (r >>= f) ↔ Inside r := by
  cases r with
  | error e => exact ⟨fun ⟨_, h⟩ => (by cases h), fun ⟨_, h⟩ => (by cases h)⟩
  | ok a => exact ⟨fun _ => ⟨a, rfl⟩, fun _ => hf a⟩

theorem paramGetopt_inside_iff (param name : Text) :
    Inside (paramGetopt param name) ↔ Closed name param := by
  rw [← findOpt_inside_iff]
  refine inside_bind_iff fun r => ?_
  cases r with
  | none => exact ⟨_, rfl⟩
  | some o => exact ⟨_, rfl⟩

theorem paramCheck_inside_iff (param name : Text) (val valLen : Bool) :
    Inside (paramCheck param name val valLen) ↔ Closed name param := by
  rw [← findOpt_inside_iff]
  refine inside_bind_iff fun r => ?_
  cases r with
  | none => exact ⟨_, rfl⟩
  | some o =>
    simp only
    split_ifs <;> exact ⟨_, rfl⟩

theorem nextOpt_inside_iff (u t : Text) :
    Inside (nextOpt (u ++ t) u.length) ↔ unclosed t = false := by
  have hrest : rest (u ++ t) u.length = .ok t := by
    rw [rest_eq_ok, List.drop_left, List.length_append]
    exact ⟨Nat.le_add_right _ _, rfl⟩
  have hspec := nextOpt_spec hrest
  cases hopen : unclosed t with
  | true =>
    rw [hopen, if_pos rfl] at hspec
    rw [hspec]
    exact ⟨fun ⟨_, h⟩ => (by cases h), fun h => (by cases h)⟩
  | false =>
    rw [hopen] at hspec
    obtain ⟨o, ho, -⟩ := hspec
    exact ⟨fun _ => rfl, fun _ => ⟨o, ho⟩⟩

/-- The loop comes to its end, whatever it reads. -/
theorem findOpt_ends (param name : Text) :
    findOpt param name (param.length + 1) 0 ≠ .error .fuel := by
  obtain ⟨hok, hpast⟩ := findOpt_closed name (rest_zero param) (Nat.lt_succ_self _)
  intro hfuel
  by_cases hc : Closed name param
  · obtain ⟨r, hr⟩ := hok hc
    rw [hr] at hfuel
    cases hfuel
  · rw [hpast hc] at hfuel
    cases hfuel

/-- **The scanner stays in the string exactly while values are closed**: `next_opt` where the value of
its option is, and the two searches where the values of all options are that they come to. The loop
ends for every string. -/
theorem reads_inside_iff (param name : Text) :
    (∀ u t, param = u ++ t → (Inside (nextOpt param u.length) ↔ unclosed t = false)) ∧
      (Inside (paramGetopt param name) ↔ Closed name param) ∧
      (∀ val valLen, Inside (paramCheck param name val valLen) ↔ Closed name param) ∧
      findOpt param name (param.length + 1) 0 ≠ .error .fuel := by
  refine ⟨?_, paramGetopt_inside_iff param name, paramCheck_inside_iff param name,
    findOpt_ends param name⟩
  rintro u t rfl
  exact nextOpt_inside_iff u t

/-- The quote is never closed, so the end of the string is skipped as if it was the second one. -/
theorem open_quote_read_past :
    ¬Inside (nextOpt "a='b".toList 0) ∧ ¬Inside (paramGetopt "a='b".toList "c".toList) ∧
      ¬Inside (paramCheck "a='b".toList "a".toList true true) := by
  refine ⟨?_, ?_, ?_⟩ <;> rintro ⟨r, hr⟩ <;> cases hr

end Athomux.Params
