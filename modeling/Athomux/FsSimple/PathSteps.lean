import Athomux.FsSimple.Spec

/-!
# The elements of a path

`$instconn` walks over an absolute path with `start_pos` and `pos` and calls `pathelem` for what lies
between them. `start_pos` stands on the first character of an element, and the loop looks at the
character behind it as if it stood on the slash in front.
-/

namespace Athomux.FsSimple

/-! ## The loop of `$instconn` -/

/-- `param[i]`, and `none` behind the terminator. -/
def charAt (param : Name) (i : Nat) : Option UInt8 := (param ++ [0])[i]?

/-- `while(@param[pos] && @param[pos] != '/') pos++;` -/
def elemEnd (param : Name) (pos : Nat) : Nat :=
  pos + ((param.drop pos).takeWhile fun c => c != 0 && c != 47).length

/-- `copy_str` of `src` from `start` to `stop`. -/
def copyStr (maxlen : Nat) (src : Name) (start stop : Nat) : Name :=
  (src.drop start).take (min (stop - start) (maxlen - 1))

/-- What one turn of the loop finds: a new `start_pos`, or an element that ends at `pos`. -/
inductive Turn
  | skip (start : Nat)
  | elem (pos : Nat)
  deriving DecidableEq

def turn (param : Name) (start : Nat) : Option Turn :=
  (charAt param (start + 1)).bind fun c =>
    if c = 47 then some (.skip (start + 1))
    else if c = 46 then
      (charAt param (start + 2)).bind fun d =>
        if d = 0 then some (.skip (start + 1))
        else if d = 47 then some (.skip (start + 2))
        else some (.elem (elemEnd param (start + 1)))
    else some (.elem (elemEnd param (start + 1)))

/-- The loop. `ok` is the success of a step behind those before it, `done` what was passed to
`pathelem` so far. Behind `none` the path is read behind its terminator. -/
def pathLoop (param : Name) (ok : List Name → Bool) : Nat → Nat → List Name → Option (List Name)
  | 0, _, _ => none
  | fuel + 1, start, done =>
    match turn param start with
    | none => none
    | some (.skip start) => pathLoop param ok fuel start done
    | some (.elem pos) =>
      let done := done ++ [copyStr (pos - start + 1) param start pos]
      if !ok done then some done
      else if charAt param pos = some 0 then some done
      else pathLoop param ok fuel (pos + 1) done

/-- The elements that `$instconn` of an absolute path performs a step for. -/
def pathSteps (param : Name) (ok : List Name → Bool) : Option (List Name) :=
  pathLoop param ok (param.length + 1) 1 []

/-! ## What is expected of it -/

/-- The components of a path. -/
def components (param : Name) : List Name := (param.splitOn 47).filter fun c => c ≠ [] ∧ c ≠ [46]

/-- Steps up to the first one that fails. -/
def stepsUntil (ok : List Name → Bool) (done : List Name) : List Name → List Name
  | [] => done
  | c :: cs => if ok (done ++ [c]) then stepsUntil ok (done ++ [c]) cs else done ++ [c]

/-- Whatever the steps answer, they are done for the components in order. -/
def SplitsPath (param : Name) : Prop :=
  ∀ ok, pathSteps param ok = some (stepsUntil ok [] (components param))

/-- Not empty, not a dot, and not two characters of which the second is a dot. -/
structure PartFits (c : Name) : Prop where
  nonempty : c ≠ []
  no_dot : c ≠ [46]
  no_short_dot : ∀ x, c ≠ [x, 46]

/-- All parts between slashes fit, and all but the last have two characters. -/
def PartsFit (parts : List Name) : Prop :=
  (∀ c ∈ parts, PartFits c) ∧ ∀ c ∈ parts.dropLast, 2 ≤ c.length

/-! ## The turns -/

def Turn.shift (n : Nat) : Turn → Turn
  | .skip start => .skip (n + start)
  | .elem pos => .elem (n + pos)

theorem charAt_append (pre rest : Name) (i : Nat) :
    charAt (pre ++ rest) (pre.length + i) = charAt rest i := by
  unfold charAt
  rw [List.append_assoc, List.getElem?_append_right (Nat.le_add_right _ _), Nat.add_sub_cancel_left]

theorem turn_append (pre rest : Name) :
    turn (pre ++ rest) pre.length = (turn rest 0).map (Turn.shift pre.length) := by
  have hend : elemEnd (pre ++ rest) (pre.length + 1) = pre.length + elemEnd rest 1 := by
    simp only [elemEnd, List.drop_append, List.drop_of_length_le (Nat.le_succ pre.length)]
    simp [Nat.add_assoc]
  unfold turn
  rw [charAt_append, charAt_append, hend, Nat.zero_add, Nat.zero_add]
  cases charAt rest 1 with
  | none => rfl
  | some c =>
    by_cases h47 : c = 47
    · simp [h47, Turn.shift]
    by_cases h46 : c = 46
    · cases charAt rest 2 with
      | none => simp [h46]
      | some d =>
        by_cases h0 : d = 0
        · simp [h46, h0, Turn.shift]
        by_cases hd : d = 47
        · simp [h46, hd, Turn.shift]
        · simp [h46, h0, hd, Turn.shift]
    · simp [h47, h46, Turn.shift]

section Start

variable {rest tail : Name}

theorem turn_last (x : UInt8) : turn [x] 0 = some (.elem 1) := rfl

theorem turn_slash (x : UInt8) : turn (x :: 47 :: rest) 0 = some (.skip 1) := by
  simp [turn, charAt]

theorem turn_dot_end (x : UInt8) : turn [x, 46] 0 = some (.skip 1) := by
  simp [turn, charAt]

theorem turn_dot_slash (x : UInt8) : turn (x :: 46 :: 47 :: rest) 0 = some (.skip 2) := by
  simp [turn, charAt]

theorem turn_dot_other {x y : UInt8} (h0 : y ≠ 0) (h47 : y ≠ 47) :
    turn (x :: 46 :: y :: rest) 0 = some (.elem (elemEnd (x :: 46 :: y :: rest) 1)) := by
  simp [turn, charAt, h0, h47]

theorem turn_other {x y : UInt8} (h47 : y ≠ 47) (h46 : y ≠ 46) :
    turn (x :: y :: rest) 0 = some (.elem (elemEnd (x :: y :: rest) 1)) := by
  simp [turn, charAt, h47, h46]

theorem elemEnd_part {x : UInt8} {c : Name} (h0 : 0 ∉ c) (h47 : 47 ∉ c)
    (htail : tail = [] ∨ tail.head? = some 47) :
    elemEnd (x :: c ++ tail) 1 = (x :: c).length := by
  have hstop : tail.takeWhile (fun d => d != 0 && d != 47) = [] := by
    rcases htail with rfl | htail
    · rfl
    · cases tail with
      | nil => cases htail
      | cons d tail =>
        obtain rfl : d = 47 := by simpa using htail
        rfl
  have hall : ∀ d ∈ c, (d != 0 && d != 47) = true := by
    intro d hd
    have hd0 : d ≠ 0 := fun h => h0 (h ▸ hd)
    have hd47 : d ≠ 47 := fun h => h47 (h ▸ hd)
    simp [hd0, hd47]
  simp only [elemEnd, List.cons_append, List.drop_succ_cons, List.drop_zero]
  rw [List.takeWhile_append_of_pos hall, hstop, List.append_nil, List.length_cons, Nat.add_comm]

/-- An element that fits is passed in full. -/
theorem turn_part {c : Name} (h0 : 0 ∉ c) (h47 : 47 ∉ c) (hc : PartFits c)
    (htail : tail = [] ∨ tail.head? = some 47 ∧ 2 ≤ c.length) :
    turn (c ++ tail) 0 = some (.elem c.length) := by
  have htail' : tail = [] ∨ tail.head? = some 47 := htail.imp_right And.left
  match c, hc with
  | [], hc => exact absurd rfl hc.nonempty
  | [x], _ =>
    rcases htail with rfl | ⟨-, hlen⟩
    · rfl
    · exact absurd hlen (by simp)
  | [x, y], hc =>
    have hy47 : y ≠ 47 := by
      rintro rfl
      simp at h47
    have hy46 : y ≠ 46 := fun h => hc.no_short_dot x (by rw [h])
    rw [← elemEnd_part (x := x) (c := [y]) (by simp at h0 ⊢; exact h0.2) (by simpa using hy47.symm) htail']
    exact turn_other hy47 hy46
  | x :: y :: z :: c, _ =>
    have hlong := elemEnd_part (x := x) (c := y :: z :: c)
      (fun h => h0 (List.mem_cons_of_mem _ h)) (fun h => h47 (List.mem_cons_of_mem _ h)) htail'
    have hy47 : y ≠ 47 := by
      rintro rfl
      simp at h47
    have hz47 : z ≠ 47 := by
      rintro rfl
      simp at h47
    have hz0 : z ≠ 0 := by
      rintro rfl
      simp at h0
    rw [← hlong]
    by_cases hy46 : y = 46
    · subst hy46
      exact turn_dot_other hz0 hz47
    · exact turn_other hy47 hy46

end Start

/-! ## Enough turns -/

/-- The place that a turn goes to. -/
def Turn.place : Turn → Nat
  | .skip start => start
  | .elem pos => pos

theorem turn_le {param : Name} {start : Nat} {t : Turn} (h : turn param start = some t) :
    start < param.length ∧ start < t.place := by
  unfold turn at h
  obtain ⟨c, hc, h⟩ := Option.bind_eq_some_iff.mp h
  have hlt : start + 1 < (param ++ [0]).length := (List.getElem?_eq_some_iff.mp hc).1
  have hend : start < elemEnd param (start + 1) := Nat.lt_of_lt_of_le (Nat.lt_succ_self _) (Nat.le_add_right _ _)
  refine ⟨by simpa using hlt, ?_⟩
  split at h
  · cases h
    exact Nat.lt_succ_self start
  · split at h
    · obtain ⟨d, -, h⟩ := Option.bind_eq_some_iff.mp h
      split at h
      · cases h
        exact Nat.lt_succ_self start
      · split at h
        · cases h
          exact Nat.lt_add_of_pos_right (by decide)
        · cases h
          exact hend
    · cases h
      exact hend

/-- The loop ends before it runs out of fuel. -/
theorem pathLoop_fuel {param : Name} {ok : List Name → Bool} : ∀ {fuel start : Nat} {done : List Name},
    param.length ≤ fuel + start →
    pathLoop param ok (fuel + 1) start done = pathLoop param ok fuel start done
  | 0, start, done, h => by
    have hnone : turn param start = none := by
      by_contra hne
      obtain ⟨t, ht⟩ := Option.ne_none_iff_exists'.mp hne
      have := (turn_le ht).1
      omega
    simp only [pathLoop, hnone]
  | fuel + 1, start, done, h => by
    rw [pathLoop, pathLoop]
    cases hturn : turn param start with
    | none => rfl
    | some t =>
      have hplace := (turn_le hturn).2
      cases t with
      | skip s =>
        have hs : start < s := hplace
        exact pathLoop_fuel (by omega)
      | elem pos =>
        have hpos : start < pos := hplace
        simp only [pathLoop_fuel (show param.length ≤ fuel + (pos + 1) by omega)]

/-! ## The loop over parts that fit -/

section Loop

variable {ok : List Name → Bool} {pre rest : Name} {fuel : Nat} {done : List Name}

theorem copyStr_part (pre c tail : Name) :
    copyStr (pre.length + c.length - pre.length + 1) (pre ++ (c ++ tail)) pre.length
      (pre.length + c.length) = c := by
  simp [copyStr]

theorem pathLoop_skip {n : Nat} {mid : Name} (hmid : mid.length = n)
    (h : turn (mid ++ rest) 0 = some (.skip n)) :
    pathLoop (pre ++ (mid ++ rest)) ok (fuel + 1) pre.length done =
      pathLoop ((pre ++ mid) ++ rest) ok fuel (pre ++ mid).length done := by
  rw [pathLoop, turn_append, h]
  simp [Turn.shift, hmid]

theorem pathLoop_elem {c tail : Name} (h : turn (c ++ tail) 0 = some (.elem c.length)) :
    pathLoop (pre ++ (c ++ tail)) ok (fuel + 1) pre.length done =
      if ok (done ++ [c]) then
        if charAt tail 0 = some 0 then some (done ++ [c])
        else pathLoop (pre ++ (c ++ tail)) ok fuel (pre.length + c.length + 1) (done ++ [c])
      else some (done ++ [c]) := by
  have hat : charAt (pre ++ (c ++ tail)) (pre.length + c.length) = charAt tail 0 := by
    rw [charAt_append]
    exact charAt_append c tail 0
  rw [pathLoop, turn_append, h]
  simp only [Option.map_some, Turn.shift, copyStr_part, hat]
  cases ok (done ++ [c]) <;> rfl

theorem partsFit_cons {c : Name} {parts : List Name} (hne : parts ≠ []) :
    PartsFit (c :: parts) ↔ PartFits c ∧ 2 ≤ c.length ∧ PartsFit parts := by
  unfold PartsFit
  rw [List.dropLast_cons_of_ne_nil hne]
  simp only [List.mem_cons, forall_eq_or_imp]
  tauto

/-- The slash behind a part belongs to what was passed. -/
theorem pathLoop_next (c r : Name) :
    pathLoop (pre ++ (c ++ 47 :: r)) ok fuel (pre.length + c.length + 1) done =
      pathLoop (pre ++ (c ++ [47]) ++ r) ok fuel (pre ++ (c ++ [47])).length done := by
  have hassoc : pre ++ (c ++ [47]) ++ r = pre ++ (c ++ 47 :: r) := by simp
  have hlength : (pre ++ (c ++ [47])).length = pre.length + c.length + 1 := by
    simp [Nat.add_assoc]
  rw [hassoc, hlength]

theorem pathLoop_fits : ∀ (fuel : Nat) {pre rest : Name} {done : List Name},
    rest.length < fuel → 0 ∉ rest → PartsFit (rest.splitOn 47) →
    pathLoop (pre ++ rest) ok fuel pre.length done = some (stepsUntil ok done (rest.splitOn 47))
  | 0, _, _, _, hfuel, _, _ => absurd hfuel (by omega)
  | fuel + 1, pre, rest, done, hfuel, h0, hfit => by
    by_cases hslash : 47 ∈ rest
    · obtain ⟨c, r, rfl, hc⟩ := List.eq_append_cons_of_mem hslash
      rw [List.splitOn_append_cons_self_of_not_mem hc] at hfit ⊢
      obtain ⟨hpart, hlen, hrest⟩ := (partsFit_cons (List.splitOn_ne_nil _ _)).mp hfit
      have hc0 : 0 ∉ c := fun h => h0 (List.mem_append_left _ h)
      have hr0 : 0 ∉ r := fun h => h0 (by simp [h])
      have hat : ¬charAt (47 :: r) 0 = some 0 := by simp [charAt]
      have hshort : r.length < fuel := by
        simp only [List.length_append, List.length_cons] at hfuel
        omega
      have ih := @pathLoop_fits fuel (pre ++ (c ++ [47])) r (done ++ [c]) hshort hr0 hrest
      rw [← pathLoop_next] at ih
      rw [pathLoop_elem (turn_part hc0 hc hpart (Or.inr ⟨rfl, hlen⟩)), if_neg hat, ih, stepsUntil]
      cases ok (done ++ [c]) <;> rfl
    · have hparts : rest.splitOn 47 = [rest] := List.splitOn_eq_singleton hslash
      rw [hparts] at hfit ⊢
      have hpart : PartFits rest := hfit.1 rest (by simp)
      have h := @pathLoop_elem ok pre fuel done rest []
        (turn_part h0 hslash hpart (Or.inl rfl))
      have hat : charAt ([] : Name) 0 = some 0 := rfl
      rw [List.append_nil, if_pos hat] at h
      rw [h, stepsUntil, stepsUntil]
      cases ok (done ++ [rest]) <;> rfl

end Loop

/-! ## The loop that went astray -/

/-- An element was passed that is no component: a dot, or one with a slash in front. -/
def Astray (r : Option (List Name)) : Prop := ∀ l, r = some l → ∃ c ∈ l, c = [46] ∨ c.head? = some 47

section Astray

variable {ok : List Name → Bool} {param pre rest : Name}

/-- What was passed stays passed. -/
theorem pathLoop_keeps : ∀ (fuel : Nat) {start : Nat} {done l : List Name},
    pathLoop param ok fuel start done = some l → ∀ c ∈ done, c ∈ l
  | 0, _, _, _, h, _, _ => by cases h
  | fuel + 1, start, done, l, h, c, hc => by
    rw [pathLoop] at h
    cases hturn : turn param start with
    | none =>
      rw [hturn] at h
      cases h
    | some t =>
      rw [hturn] at h
      cases t with
      | skip start' => exact pathLoop_keeps fuel h c hc
      | elem pos =>
        simp only at h
        have hc' : c ∈ done ++ [copyStr (pos - start + 1) param start pos] := List.mem_append_left _ hc
        split at h
        · cases h
          exact hc'
        · split at h
          · cases h
            exact hc'
          · exact pathLoop_keeps fuel h c hc'

theorem astray_elem {fuel start pos : Nat} {done : List Name} (h : turn param start = some (.elem pos))
    (hbad : copyStr (pos - start + 1) param start pos = [46] ∨
      (copyStr (pos - start + 1) param start pos).head? = some 47) :
    Astray (pathLoop param ok (fuel + 1) start done) := by
  intro l hl
  refine ⟨copyStr (pos - start + 1) param start pos, ?_, hbad⟩
  rw [pathLoop, h] at hl
  simp only at hl
  split at hl
  · cases hl
    simp
  · split at hl
    · cases hl
      simp
    · exact pathLoop_keeps fuel hl _ (by simp)

/-- A dot at the end of the path. -/
theorem astray_dot {fuel : Nat} {done : List Name} :
    Astray (pathLoop (pre ++ [46]) ok fuel pre.length done) := by
  cases fuel with
  | zero =>
    intro l hl
    cases hl
  | succ fuel =>
    refine @astray_elem ok _ _ _ (pre.length + 1) _ ?_ (Or.inl ?_)
    · rw [turn_append, turn_last]
      rfl
    · simp [copyStr]

theorem copyStr_slash {n : Nat} :
    (copyStr (pre.length + (n + 1) - pre.length + 1) (pre ++ 47 :: rest) pre.length
      (pre.length + (n + 1))).head? = some 47 := by
  simp [copyStr]

/-- A slash at `start_pos`. -/
theorem astray_slash : ∀ (fuel : Nat) {pre rest : Name} {done : List Name}, 0 ∉ rest →
    Astray (pathLoop (pre ++ 47 :: rest) ok fuel pre.length done)
  | 0, _, _, _, _ => fun l hl => by cases hl
  | fuel + 1, pre, rest, done, h0 => by
    have hpass {n : Nat} (h : turn (47 :: rest) 0 = some (.elem (n + 1))) :
        Astray (pathLoop (pre ++ 47 :: rest) ok (fuel + 1) pre.length done) :=
      astray_elem (by rw [turn_append, h]; rfl) (Or.inr copyStr_slash)
    have hskip {mid r : Name} (hsplit : 47 :: rest = mid ++ r)
        (h : turn (47 :: rest) 0 = some (.skip mid.length))
        (hr : Astray (pathLoop ((pre ++ mid) ++ r) ok fuel (pre ++ mid).length done)) :
        Astray (pathLoop (pre ++ 47 :: rest) ok (fuel + 1) pre.length done) := by
      rw [hsplit] at h ⊢
      rwa [pathLoop_skip rfl h]
    match rest, h0 with
    | [], _ => exact hpass (turn_last 47)
    | x :: r, h0 =>
      by_cases h47 : x = 47
      · subst h47
        exact @hskip [47] _ rfl (turn_slash 47) (astray_slash fuel fun h => h0 (by simp [h]))
      by_cases h46 : x = 46
      · subst h46
        match r, h0 with
        | [], _ => exact @hskip [47] _ rfl (turn_dot_end 47) astray_dot
        | y :: r, h0 =>
          by_cases hy : y = 47
          · subst hy
            exact @hskip [47, 46] _ rfl (turn_dot_slash 47)
              (astray_slash fuel fun h => h0 (by simp [h]))
          · have hy0 : y ≠ 0 := by
              rintro rfl
              simp at h0
            exact hpass (n := _) (by rw [turn_dot_other hy0 hy, elemEnd, Nat.add_comm])
      · exact hpass (n := _) (by rw [turn_other h47 h46, elemEnd, Nat.add_comm])

/-- A part that does not fit, or a single character in front of a slash, leaves the cursor on a slash
or on a last dot. -/
theorem astray_part {fuel : Nat} {done : List Name} {c tail : Name} (h0 : 0 ∉ c ++ tail)
    (h47 : 47 ∉ c) (htail : tail = [] ∨ tail.head? = some 47)
    (hbad : ¬(PartFits c ∧ (tail = [] ∨ 2 ≤ c.length))) :
    Astray (pathLoop (pre ++ (c ++ tail)) ok fuel pre.length done) := by
  cases fuel with
  | zero =>
    intro l hl
    cases hl
  | succ fuel =>
    have htail' : tail = [] ∨ ∃ r, tail = 47 :: r := by
      rcases htail with rfl | htail
      · exact Or.inl rfl
      · cases tail with
        | nil => cases htail
        | cons d r =>
          obtain rfl : d = 47 := by simpa using htail
          exact Or.inr ⟨r, rfl⟩
    match c, hbad with
    | [], _ =>
      rcases htail' with rfl | ⟨r, rfl⟩
      · intro l hl
        rw [pathLoop, turn_append] at hl
        cases hl
      · exact astray_slash (fuel + 1) fun h => h0 (by simp [h])
    | [x], hbad =>
      rcases htail' with rfl | ⟨r, rfl⟩
      · have hx : x = 46 := by
          by_contra hx
          exact hbad ⟨⟨by simp, by simpa using hx, by simp⟩, Or.inl rfl⟩
        subst hx
        exact astray_dot
      · rw [@pathLoop_skip ok pre _ fuel done 1 [x] rfl (turn_slash x)]
        exact astray_slash fuel fun h => h0 (by simp [h])
    | [x, y], hbad =>
      have hy : y = 46 := by
        by_contra hy
        exact hbad ⟨⟨by simp, by simp, by simpa using hy⟩, Or.inr (by simp)⟩
      subst hy
      rcases htail' with rfl | ⟨r, rfl⟩
      · have hskip := @pathLoop_skip ok pre [46] fuel done 1 [x] rfl (turn_dot_end x)
        rw [show [x, 46] ++ [] = [x] ++ [46] from rfl, hskip]
        exact astray_dot
      · rw [@pathLoop_skip ok pre _ fuel done 2 [x, 46] rfl (turn_dot_slash x)]
        exact astray_slash fuel fun h => h0 (by simp [h])
    | x :: y :: z :: c, hbad => exact absurd ⟨⟨by simp, by simp, by simp⟩, Or.inr (by simp)⟩ hbad

theorem pathLoop_astray : ∀ (fuel : Nat) {pre rest : Name} {done : List Name}, 0 ∉ rest →
    ¬PartsFit (rest.splitOn 47) → Astray (pathLoop (pre ++ rest) (fun _ => true) fuel pre.length done)
  | 0, _, _, _, _, _ => fun l hl => by cases hl
  | fuel + 1, pre, rest, done, h0, hbad => by
    by_cases hslash : 47 ∈ rest
    · obtain ⟨c, r, rfl, hc⟩ := List.eq_append_cons_of_mem hslash
      rw [List.splitOn_append_cons_self_of_not_mem hc, partsFit_cons (List.splitOn_ne_nil _ _)] at hbad
      by_cases hpart : PartFits c ∧ 2 ≤ c.length
      · have hc0 : 0 ∉ c := fun h => h0 (List.mem_append_left _ h)
        have hr0 : 0 ∉ r := fun h => h0 (by simp [h])
        have hrest : ¬PartsFit (r.splitOn 47) := fun h => hbad ⟨hpart.1, hpart.2, h⟩
        have hat : ¬charAt (47 :: r) 0 = some 0 := by simp [charAt]
        have ih := @pathLoop_astray fuel (pre ++ (c ++ [47])) r (done ++ [c]) hr0 hrest
        rw [← pathLoop_next] at ih
        rwa [pathLoop_elem (turn_part hc0 hc hpart.1 (Or.inr ⟨rfl, hpart.2⟩)), if_pos rfl, if_neg hat]
      · exact astray_part h0 hc (Or.inr rfl) fun h => hpart (h.imp_right fun h => h.resolve_left (by simp))
    · rw [List.splitOn_eq_singleton hslash] at hbad
      have hpart : ¬(PartFits rest ∧ (([] : Name) = [] ∨ 2 ≤ rest.length)) := fun h =>
        hbad ⟨by simpa using h.1, by simp⟩
      have := @astray_part (fun _ => true) pre (fuel + 1) done rest [] (by simpa using h0) hslash
        (Or.inl rfl) hpart
      rwa [List.append_nil] at this

end Astray

/-! ## Absolute paths -/

theorem not_mem_of_mem_splitOn {a : UInt8} : ∀ {xs l : Name}, l ∈ xs.splitOn a → a ∉ l
  | [], l, h => by
    obtain rfl : l = [] := by simpa using h
    simp
  | x :: xs, l, h => by
    obtain ⟨first, others, hsplit⟩ := List.exists_cons_of_ne_nil (List.splitOn_ne_nil a xs)
    have ih (l : Name) (hl : l ∈ first :: others) : a ∉ l := not_mem_of_mem_splitOn (hsplit ▸ hl)
    rw [List.splitOn_cons_eq_if_modifyHead, hsplit] at h
    by_cases hx : x = a
    · rw [if_pos (by simpa using hx)] at h
      rcases List.mem_cons.mp h with rfl | hl
      · simp
      · exact ih l hl
    · rw [if_neg (by simpa using hx), List.modifyHead_cons] at h
      rcases List.mem_cons.mp h with rfl | hl
      · have hfirst := ih first (by simp)
        simp [hfirst, Ne.symm hx]
      · exact ih l (List.mem_cons_of_mem _ hl)

theorem components_slash (rest : Name) : components (47 :: rest) =
    (rest.splitOn 47).filter fun c => c ≠ [] ∧ c ≠ [46] := by
  have : ([] ++ 47 :: rest).splitOn 47 = [] :: rest.splitOn 47 :=
    List.splitOn_append_cons_self_of_not_mem (by simp) rest
  rw [List.nil_append] at this
  rw [components, this]
  rfl

theorem stepsUntil_true (done cs : List Name) : stepsUntil (fun _ => true) done cs = done ++ cs := by
  induction cs generalizing done with
  | nil => simp [stepsUntil]
  | cons c cs ih => simp [stepsUntil, ih]

/-- **The elements of a path.** The steps of an absolute path are its components exactly when each part
between the slashes fits, and each but the last has two characters. -/
theorem splitsPath_iff {param : Name} (habsolute : param.head? = some 47) (hstring : 0 ∉ param) :
    SplitsPath param ↔ PartsFit (param.tail.splitOn 47) := by
  obtain ⟨rest, rfl⟩ : ∃ rest, param = 47 :: rest := List.head?_eq_some_iff.mp habsolute
  have h0 : 0 ∉ rest := fun h => hstring (List.mem_cons_of_mem _ h)
  rw [List.tail_cons]
  constructor
  · intro hsplit
    by_contra hbad
    have hall := hsplit fun _ => true
    rw [stepsUntil_true, List.nil_append, components_slash] at hall
    obtain ⟨c, hc, hastray⟩ := @pathLoop_astray ((47 :: rest).length + 1) [47] rest [] h0 hbad _
      hall
    obtain ⟨hmem, hkept⟩ := List.mem_filter.mp hc
    rcases hastray with rfl | hhead
    · simp at hkept
    · obtain ⟨t, rfl⟩ := List.head?_eq_some_iff.mp hhead
      exact not_mem_of_mem_splitOn hmem (by simp)
  · intro hfit ok
    have hall : components (47 :: rest) = rest.splitOn 47 := by
      rw [components_slash, List.filter_eq_self]
      intro c hc
      have := hfit.1 c hc
      simp [this.nonempty, this.no_dot]
    rw [hall]
    exact @pathLoop_fits ok _ [47] rest [] (Nat.lt_succ_of_lt (Nat.lt_succ_self _)) h0 hfit

/-- The path `/ab/c`. -/
theorem splitsPath_two : SplitsPath [47, 97, 98, 47, 99] ↔ PartsFit [[97, 98], [99]] :=
  @splitsPath_iff [47, 97, 98, 47, 99] rfl (by decide)

/-- Of `/a/b` the only step is for `/b`. -/
theorem single_character_lost :
    pathSteps [47, 97, 47, 98] (fun _ => true) = some [[47, 98]] ∧
      components [47, 97, 47, 98] = [[97], [98]] ∧ ¬SplitsPath [47, 97, 47, 98] := by
  have hsteps : pathSteps [47, 97, 47, 98] (fun _ => true) = some [[47, 98]] := by decide
  have hparts : components [47, 97, 47, 98] = [[97], [98]] := by decide
  refine ⟨hsteps, hparts, fun h => ?_⟩
  have := h fun _ => true
  rw [hsteps, hparts] at this
  exact absurd this (by decide)

end Athomux.FsSimple
