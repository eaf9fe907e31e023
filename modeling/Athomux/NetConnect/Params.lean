import Mathlib.Data.List.Infix

/-!
# Parameter strings

`param_scanner.c`: options with values, separated by blanks. There is no result where the scanner
would read behind the end of the string.
-/

namespace Athomux.NetConnect

abbrev Text := List Char

/-- `param_delimchars`. -/
def isDelim (c : Char) : Bool := c = '\t' ∨ c = '\r' ∨ c = '\n' ∨ c = ' '

/-- `param_nidchars`. -/
def isNid (c : Char) : Bool := isDelim c ∨ c = '='

/-- A single or a double quote. -/
def isQuote (c : Char) : Bool := c.toNat = 34 ∨ c.toNat = 39

/-- One option: its name, its value, and what is behind it. -/
structure Opt where
  name : Text
  val : Text
  rest : Text
  deriving DecidableEq, Repr

def skipDelims (p : Text) : Text := p.dropWhile isDelim

/-- The value at `p`, up to its quote or the next blank. -/
def optValue (name p : Text) : Option Opt :=
  match p with
  | [] => some ⟨name, [], []⟩
  | c :: q =>
    if isQuote c then
      match q.dropWhile (· ≠ c) with
      | [] => none
      | _ :: r => some ⟨name, q.takeWhile (· ≠ c), skipDelims r⟩
    else
      some ⟨name, (c :: q).takeWhile fun d => !isDelim d,
        skipDelims ((c :: q).dropWhile fun d => !isDelim d)⟩

def nextOpt (p : Text) : Option Opt :=
  let p := skipDelims p
  let name := p.takeWhile fun c => !isNid c
  match skipDelims (p.dropWhile fun c => !isNid c) with
  | [] => some ⟨name, [], []⟩
  | c :: q => if c = '=' then optValue name (skipDelims q) else some ⟨name, [], c :: q⟩

/-- `param_getopt`: the value of the first option whose name `name` begins with. -/
def paramGetopt : Nat → Text → Text → Option (Option Text)
  | 0, _, _ => none
  | _ + 1, [], _ => some none
  | fuel + 1, c :: p, name =>
    (nextOpt (c :: p)).bind fun o =>
      if o.name ≠ [] ∧ o.name <+: name then some (some o.val) else paramGetopt fuel o.rest name

/-- `getoptval` with a buffer of 256 bytes. There is no result when a check fails. -/
def getoptval (param name : Text) : Option Text :=
  match paramGetopt (param.length + 1) param name with
  | some (some val) => if 1 ≤ val.length ∧ val.length < 256 then some val else none
  | _ => none

/-! ## The scanner stops -/

theorem skipDelims_length (p : Text) : (skipDelims p).length ≤ p.length :=
  (List.dropWhile_suffix _).length_le

theorem optValue_length {name p : Text} {o : Opt} (h : optValue name p = some o) :
    o.rest.length ≤ p.length := by
  unfold optValue at h
  split at h
  · rw [← Option.some.inj h]
  · rename_i c q
    split at h
    · split at h
      · cases h
      · rename_i d r hq
        rw [← Option.some.inj h]
        have hr : (d :: r).length ≤ q.length := hq ▸ (List.dropWhile_suffix _).length_le
        have := skipDelims_length r
        simp only [List.length_cons] at hr ⊢
        omega
    · rw [← Option.some.inj h]
      exact (skipDelims_length _).trans (List.dropWhile_suffix _).length_le

/-- Every option takes at least one character. -/
theorem nextOpt_length {p : Text} {o : Opt} (hp : p ≠ []) (h : nextOpt p = some o) :
    o.rest.length < p.length := by
  have hpos : 0 < p.length := List.length_pos_iff.mpr hp
  have hskip := skipDelims_length p
  unfold nextOpt at h
  simp only at h
  split at h
  · rw [← Option.some.inj h]
    exact hpos
  · rename_i c q hq
    have hdrop : ((skipDelims p).dropWhile fun c => !isNid c).length ≤ (skipDelims p).length :=
      (List.dropWhile_suffix _).length_le
    have hcq : (c :: q).length ≤ ((skipDelims p).dropWhile fun c => !isNid c).length :=
      hq ▸ skipDelims_length _
    rw [List.length_cons] at hcq
    split at h
    · have := optValue_length h
      have := skipDelims_length q
      omega
    · rename_i hc
      rw [← Option.some.inj h, List.length_cons]
      by_contra hge
      -- nothing has been skipped, so the first character is no blank, and ends a name
      have hlen : (skipDelims p).length = p.length := by omega
      have hskip' : skipDelims p = p := (List.dropWhile_suffix _).eq_of_length hlen
      have hname : (p.dropWhile fun c => !isNid c) = p := by
        rw [← hskip']
        exact (List.dropWhile_suffix _).eq_of_length (by omega)
      have hcons : skipDelims (p.dropWhile fun c => !isNid c) = c :: q := by rw [← hq, hskip']
      rw [hname, hskip'] at hcons
      subst hcons
      have hdelim : isDelim c = false := by
        by_contra hd
        have hshort := congrArg List.length hskip'
        rw [skipDelims, List.dropWhile_cons_of_pos (by simpa using hd)] at hshort
        have := (List.dropWhile_suffix (l := q) isDelim).length_le
        rw [List.length_cons] at hshort
        omega
      have hnid : isNid c = true := by
        by_contra hn
        have hshort := congrArg List.length hname
        rw [List.dropWhile_cons_of_pos (by simpa using hn)] at hshort
        have := (List.dropWhile_suffix (l := q) fun c => !isNid c).length_le
        rw [List.length_cons] at hshort
        omega
      simp [isNid, hdelim] at hnid
      exact hc hnid

theorem paramGetopt_fuel {name p : Text} {fuel fuel' : Nat} (h : p.length < fuel)
    (h' : p.length < fuel') : paramGetopt fuel p name = paramGetopt fuel' p name := by
  induction fuel generalizing fuel' p with
  | zero => cases h
  | succ fuel ih =>
    obtain ⟨f, rfl⟩ : ∃ f, fuel' = f + 1 := ⟨fuel' - 1, by omega⟩
    cases p with
    | nil => rfl
    | cons c p =>
      rw [paramGetopt, paramGetopt]
      cases ho : nextOpt (c :: p) with
      | none => rfl
      | some o =>
        have hlt := nextOpt_length (List.cons_ne_nil c p) ho
        have hrest : paramGetopt fuel o.rest name = paramGetopt f o.rest name :=
          ih (by omega) (by omega)
        rw [Option.bind_some, Option.bind_some, hrest]

end Athomux.NetConnect
