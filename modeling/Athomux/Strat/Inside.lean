import Athomux.Strat.Scan
import Mathlib.Data.List.DropRight

/-!
# Positions in a strategy text

Every scanner stays in the text, except for an operator that is read at the end, and a character of eight
bits that is looked up. All else in the interpreter goes on, and ends.
-/

open Lib

namespace Athomux.Strat

open NetConnect (Text)
open StratText (nameSize snameSize)

variable {t rest s : Text} {table : Char → Bool} {inTable : Bool} {search : List Text}

/-! ## Tables -/

/-- The character that the loop ends at has a place in the table. -/
def StopsInside (table : Char → Bool) (inTable : Bool) (t : Text) : Prop :=
  ∀ c ∈ (t.dropWhile fun c => decide (c.toNat < 128) && (table c == inTable)).head?, c.toNat < 128

theorem lookUp_eq (c : Char) : lookUp table c = if c.toNat < 128 then some (table c) else none := by
  unfold lookUp unsignedOf
  split_ifs <;> first | rfl | omega

theorem span_append (h : span table inTable t = some (s, rest)) : t = s ++ rest := by
  induction t generalizing s with
  | nil =>
    cases h
    rfl
  | cons c t ih =>
    rw [span, lookUp_eq] at h
    obtain ⟨found, -, h⟩ := Option.bind_eq_some_iff.mp h
    split_ifs at h
    · obtain ⟨⟨s', rest'⟩, hspan, heq⟩ := Option.map_eq_some_iff.mp h
      cases heq
      exact congrArg (c :: ·) (ih hspan)
    · cases h
      rfl

theorem span_iff (t : Text) : (∃ r, span table inTable t = some r) ↔ StopsInside table inTable t := by
  induction t with
  | nil => exact ⟨fun _ => fun c hc => (nomatch hc), fun _ => ⟨_, rfl⟩⟩
  | cons c t ih =>
    unfold StopsInside at ih ⊢
    rw [span, lookUp_eq, List.dropWhile_cons]
    by_cases hc : c.toNat < 128
    · rw [if_pos hc, Option.bind_some]
      by_cases hin : table c = inTable
      · rw [if_pos hin, if_pos (by rw [hin]; simp [hc]), ← ih]
        constructor
        · rintro ⟨r, hr⟩
          obtain ⟨q, hq, -⟩ := Option.map_eq_some_iff.mp hr
          exact ⟨q, hq⟩
        · rintro ⟨q, hq⟩
          exact ⟨_, congrArg (Option.map _) hq⟩
      · rw [if_neg hin, if_neg (by simp [hin])]
        refine ⟨fun _ d hd => ?_, fun _ => ⟨_, rfl⟩⟩
        obtain rfl := Option.some.inj hd
        exact hc
    · rw [if_neg hc, if_neg (by simp [hc])]
      refine ⟨?_, fun h => absurd (h c rfl) hc⟩
      rintro ⟨r, hr⟩
      cases hr

theorem scanBody_suffix {r : Text} (h : scanBody table inTable t = some (r, rest)) : rest <:+ t :=
  (List.suffix_append r rest).trans (span_append h ▸ skipBlanks_suffix t)

theorem scanBody2_suffix {reslen : Nat} {r : Option Text}
    (h : scanBody2 table inTable reslen t = some (r, rest)) : rest <:+ t := by
  obtain ⟨⟨s, rest'⟩, hbody, heq⟩ := Option.map_eq_some_iff.mp h
  simp only at heq
  split_ifs at heq
  · cases heq
    exact List.suffix_rfl
  · cases heq
    exact scanBody_suffix hbody

/-! ## Keywords -/

theorem matching_some {i : Nat} (h : matching search t = some i) :
    search.getD i [] ∈ search ∧ search.getD i [] <+: t := by
  obtain ⟨hi, hprefix, -⟩ := List.findIdx?_eq_some_iff_getElem.mp h
  have hget : search.getD i [] = search[i] := by
    rw [List.getD_eq_getElem?_getD, List.getElem?_eq_getElem hi]
    rfl
  rw [hget]
  exact ⟨List.getElem_mem hi, List.isPrefixOf_iff_prefix.mp hprefix⟩

/-- The position is behind the word that has been found, or at the end. -/
theorem scanMulti_suffix (search : List Text) (t : Text) :
    (scanMulti search t).2 <:+ t ∧
      ∀ i, (scanMulti search t).1 = some i → [] ∉ search → (scanMulti search t).2.length < t.length := by
  induction hn : t.length using Nat.strong_induction_on generalizing t with
  | _ n ih =>
    subst hn
    have hblanks := skipBlanks_suffix t
    rw [scanMulti]
    split
    · exact ⟨List.nil_suffix, fun i hi => by cases hi⟩
    · rename_i c t' heq
      rw [heq] at hblanks
      split
      · rename_i i hi
        obtain ⟨hmem, hprefix⟩ := matching_some hi
        have hdrop := (skipBlanks_suffix _).trans (List.drop_suffix (search.getD i []).length (c :: t'))
        refine ⟨hdrop.trans hblanks, fun _ _ hne => ?_⟩
        have hpos : 0 < (search.getD i []).length :=
          List.length_pos_iff.mpr fun hnil => hne (hnil ▸ hmem)
        have hlen := (skipBlanks_suffix ((c :: t').drop (search.getD i []).length)).length_le
        have hle := hblanks.length_le
        rw [List.length_drop] at hlen
        have := List.length_pos_iff.mpr (List.cons_ne_nil c t')
        simp only
        omega
      · have hline := skipLine_lt c t'
        have hle := hblanks.length_le
        obtain ⟨hsuffix, hlt⟩ := ih _ (by omega) (skipLine (c :: t')) rfl
        refine ⟨hsuffix.trans ((skipLine_suffix _).trans hblanks), fun i hi hne => ?_⟩
        have := hlt i hi hne
        omega

theorem scanSingle_suffix {word : Text} (h : scanSingle word t = some rest) :
    rest <:+ t ∧ (word ≠ [] → rest.length < t.length) := by
  obtain ⟨hsuffix, hlt⟩ := scanMulti_suffix [word] t
  unfold scanSingle at h
  split at h
  · rename_i i t' heq
    rw [heq] at hsuffix hlt
    cases h
    exact ⟨hsuffix, fun hne => hlt i rfl fun hmem => hne (List.mem_singleton.mp hmem).symm⟩
  · cases h

/-! ## Operators and connectors -/

/-- There is a character to be looked up, and it has a place in the table. -/
def OpInside (t : Text) : Prop := ∃ c ∈ t.head?, c.toNat < 128

theorem scanOp_iff (t : Text) : (∃ r, scanOp t = some r) ↔ OpInside t := by
  cases t with
  | nil => exact ⟨fun ⟨_, h⟩ => (nomatch h), fun ⟨_, h, _⟩ => (nomatch h)⟩
  | cons c t =>
    by_cases hc : c.toNat < 128
    · simp only [scanOp, lookUp_eq, if_pos hc]
      exact ⟨fun _ => ⟨c, rfl, hc⟩, fun _ => ⟨_, rfl⟩⟩
    · simp only [scanOp, lookUp_eq, if_neg hc]
      refine ⟨fun ⟨_, h⟩ => (nomatch h), fun ⟨d, hd, hlt⟩ => absurd ?_ hc⟩
      obtain rfl := Option.some.inj hd
      exact hlt

theorem scanOp_suffix {op : Char} (h : scanOp t = some (op, rest)) :
    rest <:+ t ∧ rest.length < t.length := by
  cases t with
  | nil => cases h
  | cons c t =>
    obtain ⟨known, -, h⟩ := Option.map_eq_some_iff.mp h
    have hrest : rest = t.drop 1 ∨ rest = t := by
      simp only at h
      split_ifs at h <;> cases h <;> first | exact Or.inl rfl | exact Or.inr rfl
    have hsuffix : rest <:+ t := by
      obtain rfl | rfl := hrest
      · exact List.drop_suffix 1 t
      · exact List.suffix_rfl
    exact ⟨hsuffix.trans (List.suffix_cons c t), Nat.lt_succ_of_le hsuffix.length_le⟩

theorem skipIndex_suffix (t : Text) : skipIndex t <:+ t := by
  induction t with
  | nil => exact List.suffix_rfl
  | cons c t ih =>
    rw [skipIndex]
    split_ifs
    · exact List.suffix_cons c t
    · exact ih.trans (List.suffix_cons c t)

theorem endConnstr_suffix {count : Nat} {conn conn' : ConnInfo} {ok : Bool}
    (h : endConnstr count conn t = (ok, conn', rest)) : rest <:+ t := by
  have hrest : (if peek t = ',' then t.drop 1 else t) = rest := congrArg (·.2.2) h
  rw [← hrest]
  split_ifs
  · exact List.drop_suffix 1 t
  · exact List.suffix_rfl

theorem scanTable_iff (t : Text) :
    (∃ r, scanBody table inTable t = some r) ↔ StopsInside table inTable (skipBlanks t) :=
  span_iff (skipBlanks t)

theorem skipBlanks_skipBlanks (t : Text) : skipBlanks (skipBlanks t) = skipBlanks t :=
  List.dropWhile_idempotent _ _

theorem scanConnstr_iff (conn : ConnInfo) (t : Text) :
    (∃ r, scanConnstr conn t = some r) ↔ StopsInside idTable true (skipBlanks t) := by
  rw [← skipBlanks_skipBlanks, ← scanTable_iff]
  constructor
  · rintro ⟨r, hr⟩
    obtain ⟨x, hcopy, -⟩ := Option.map_eq_some_iff.mp hr
    obtain ⟨y, hbody, -⟩ := Option.map_eq_some_iff.mp hcopy
    exact ⟨y, hbody⟩
  · rintro ⟨y, hbody⟩
    exact ⟨_, congrArg (Option.map _) (congrArg (Option.map _) hbody)⟩

theorem scanConnstr_suffix {conn conn' : ConnInfo} {ok : Bool}
    (h : scanConnstr conn t = some (ok, conn', rest)) : rest <:+ t := by
  obtain ⟨⟨name, t'⟩, hcopy, h⟩ := Option.map_eq_some_iff.mp h
  have ht' : t' <:+ t := (scanBody2_suffix hcopy).trans (skipBlanks_suffix t)
  simp only at h
  split at h
  · rename_i t''
    have ht'' : t'' <:+ t := (List.suffix_cons _ _).trans ht'
    split at h
    · cases h
      exact ht''
    · exact (endConnstr_suffix h).trans ((skipIndex_suffix _).trans ht'')
  · exact (endConnstr_suffix h).trans ht'

/-- The number, and the name behind the colon. -/
def AddrInside (t : Text) : Prop :=
  StopsInside hexTable true (skipBlanks t) ∧
    ∀ s rest, scanTable hexTable t = some (s, ':' :: rest) → StopsInside idTable true (skipBlanks rest)

theorem scanConnstraddr_iff (conn : ConnInfo) (t : Text) :
    (∃ r, scanConnstraddr conn t = some r) ↔ AddrInside t := by
  have hsame : scanTable hexTable (skipBlanks t) = scanTable hexTable t :=
    congrArg (span _ _) (skipBlanks_skipBlanks t)
  unfold AddrInside scanConnstraddr
  rw [← scanTable_iff]
  simp only
  rw [hsame]
  change _ ↔ (∃ r, scanTable hexTable t = some r) ∧ _
  cases htable : scanTable hexTable t with
  | none => exact ⟨fun ⟨_, h⟩ => (nomatch h), fun ⟨⟨_, h⟩, _⟩ => (nomatch h)⟩
  | some x =>
    obtain ⟨s, t'⟩ := x
    rw [Option.bind_some]
    simp only
    split
    · rename_i t''
      rw [scanConnstr_iff]
      refine ⟨fun h => ⟨⟨_, rfl⟩, fun s' rest heq => ?_⟩, fun h => h.2 _ _ rfl⟩
      cases heq
      exact h
    · rename_i hne
      refine ⟨fun _ => ⟨⟨_, rfl⟩, fun s' rest heq => ?_⟩, fun _ => ⟨_, rfl⟩⟩
      cases heq
      exact absurd rfl (hne rest)

theorem scanConnstraddr_suffix {conn conn' : ConnInfo} {ok : Bool}
    (h : scanConnstraddr conn t = some (ok, conn', rest)) :
    rest <:+ t ∧ (ok = true → rest.length < t.length) := by
  obtain ⟨⟨s, t'⟩, htable, h⟩ := Option.bind_eq_some_iff.mp h
  have ht' : t' <:+ t := (scanBody_suffix htable).trans (skipBlanks_suffix t)
  simp only at h
  split at h
  · rename_i t''
    have hrest := scanConnstr_suffix h
    refine ⟨hrest.trans ((List.suffix_cons _ _).trans ht'), fun _ => ?_⟩
    have := ht'.length_le
    have := hrest.length_le
    rw [List.length_cons] at *
    omega
  · cases h
    exact ⟨ht', fun h => (nomatch h)⟩

/-! ## All scanners -/

inductive Scanner
  | skipLine
  | skipBlanks
  | scanMulti (search : List Text)
  | scanSingle (search : Text)
  | scanTable (table : Char → Bool)
  | scanNotTable (table : Char → Bool)
  | scanTableCopy (table : Char → Bool) (reslen : Nat)
  | scanNotTableCopy (table : Char → Bool) (reslen : Nat)
  | scanOp
  | scanConnstr (conn : ConnInfo)
  | scanConnstraddr (conn : ConnInfo)

namespace Scanner

/-- The position behind a scanner. `scan_single` leaves it where nothing is found. -/
def move : Scanner → Text → Option Text
  | .skipLine, t => some (Strat.skipLine t)
  | .skipBlanks, t => some (Strat.skipBlanks t)
  | .scanMulti search, t => some (Strat.scanMulti search t).2
  | .scanSingle search, t => some ((Strat.scanSingle search t).getD t)
  | .scanTable table, t => (Strat.scanTable table t).map Prod.snd
  | .scanNotTable table, t => (Strat.scanNotTable table t).map Prod.snd
  | .scanTableCopy table reslen, t => (Strat.scanTableCopy table reslen t).map Prod.snd
  | .scanNotTableCopy table reslen, t => (Strat.scanNotTableCopy table reslen t).map Prod.snd
  | .scanOp, t => (Strat.scanOp t).map Prod.snd
  | .scanConnstr conn, t => (Strat.scanConnstr conn t).map fun r => r.2.2
  | .scanConnstraddr conn, t => (Strat.scanConnstraddr conn t).map fun r => r.2.2

/-- What a scanner needs to find. -/
def Ok : Scanner → Text → Prop
  | .scanTable table, t => StopsInside table true (Strat.skipBlanks t)
  | .scanNotTable table, t => StopsInside table false (Strat.skipBlanks t)
  | .scanTableCopy table _, t => StopsInside table true (Strat.skipBlanks t)
  | .scanNotTableCopy table _, t => StopsInside table false (Strat.skipBlanks t)
  | .scanOp, t => OpInside t
  | .scanConnstr _, t => StopsInside idTable true (Strat.skipBlanks t)
  | .scanConnstraddr _, t => AddrInside t
  | _, _ => True

end Scanner

theorem exists_map_iff {α β : Type} {o : Option α} {f : α → β} :
    (∃ b, o.map f = some b) ↔ ∃ a, o = some a := by
  cases o with
  | none => exact ⟨fun ⟨_, h⟩ => (nomatch h), fun ⟨_, h⟩ => (nomatch h)⟩
  | some a => exact ⟨fun _ => ⟨a, rfl⟩, fun _ => ⟨f a, rfl⟩⟩

theorem scanBody2_iff {reslen : Nat} (t : Text) :
    (∃ r, scanBody2 table inTable reslen t = some r) ↔
      StopsInside table inTable (skipBlanks t) :=
  exists_map_iff.trans (scanTable_iff t)

theorem Scanner.move_iff (sc : Scanner) (t : Text) : (∃ r, sc.move t = some r) ↔ sc.Ok t := by
  cases sc with
  | skipLine => exact ⟨fun _ => trivial, fun _ => ⟨_, rfl⟩⟩
  | skipBlanks => exact ⟨fun _ => trivial, fun _ => ⟨_, rfl⟩⟩
  | scanMulti search => exact ⟨fun _ => trivial, fun _ => ⟨_, rfl⟩⟩
  | scanSingle search => exact ⟨fun _ => trivial, fun _ => ⟨_, rfl⟩⟩
  | scanTable table => exact exists_map_iff.trans (scanTable_iff t)
  | scanNotTable table => exact exists_map_iff.trans (scanTable_iff t)
  | scanTableCopy table reslen => exact exists_map_iff.trans (scanBody2_iff t)
  | scanNotTableCopy table reslen => exact exists_map_iff.trans (scanBody2_iff t)
  | scanOp => exact exists_map_iff.trans (scanOp_iff t)
  | scanConnstr conn => exact exists_map_iff.trans (scanConnstr_iff conn t)
  | scanConnstraddr conn => exact exists_map_iff.trans (scanConnstraddr_iff conn t)

theorem Scanner.move_suffix {sc : Scanner} (h : sc.move t = some rest) : rest <:+ t := by
  cases sc with
  | skipLine =>
    cases h
    exact skipLine_suffix t
  | skipBlanks =>
    cases h
    exact skipBlanks_suffix t
  | scanMulti search =>
    cases h
    exact (scanMulti_suffix search t).1
  | scanSingle search =>
    cases h
    cases hs : Strat.scanSingle search t with
    | none => exact List.suffix_rfl
    | some t' => exact (scanSingle_suffix hs).1
  | scanTable table =>
    obtain ⟨⟨r, t'⟩, hr, rfl⟩ := Option.map_eq_some_iff.mp h
    exact (scanBody_suffix hr)
  | scanNotTable table =>
    obtain ⟨⟨r, t'⟩, hr, rfl⟩ := Option.map_eq_some_iff.mp h
    exact (scanBody_suffix hr)
  | scanTableCopy table reslen =>
    obtain ⟨⟨r, t'⟩, hr, rfl⟩ := Option.map_eq_some_iff.mp h
    exact scanBody2_suffix hr
  | scanNotTableCopy table reslen =>
    obtain ⟨⟨r, t'⟩, hr, rfl⟩ := Option.map_eq_some_iff.mp h
    exact scanBody2_suffix hr
  | scanOp =>
    obtain ⟨⟨r, t'⟩, hr, rfl⟩ := Option.map_eq_some_iff.mp h
    exact (scanOp_suffix hr).1
  | scanConnstr conn =>
    obtain ⟨⟨ok, conn', t'⟩, hr, rfl⟩ := Option.map_eq_some_iff.mp h
    exact scanConnstr_suffix hr
  | scanConnstraddr conn =>
    obtain ⟨⟨ok, conn', t'⟩, hr, rfl⟩ := Option.map_eq_some_iff.mp h
    exact (scanConnstraddr_suffix hr).1

/-! ## The interpreter -/

namespace Interp

/-- The scanner that comes next, and where. -/
def scanner (s : Interp) : Option (Scanner × Text) :=
  match s.pc with
  | .brickOp => some (.scanOp, s.buf)
  | .brickName _ => some (.scanTableCopy idTable nameSize, s.buf)
  | .bParamOp => some (.scanOp, skipBlanks s.buf)
  | .connOp => some (.scanOp, s.buf)
  | .connStr _ => some (.scanConnstr s.conn1, s.buf)
  | .connectStr => some (.scanConnstr s.conn1, s.buf)
  | .connectOp => some (.scanOp, s.buf)
  | .connecting => some (.scanConnstraddr s.conn2, s.buf)
  -- the others need nothing
  | _ => none

def Ok (s : Interp) : Prop := ∀ sc t, s.scanner = some (sc, t) → sc.Ok t

def finished (s : Interp) : Prop := ∃ success, s.pc = .done success

theorem step_of_scanner {s : Interp} {sc : Scanner} (h : s.scanner = some (sc, t)) (answer : Bool) :
    (∃ s', s.step answer = some s') ↔ sc.Ok t := by
  obtain ⟨pc, buf, name, conn1, conn2, calls⟩ := s
  cases pc with
  | brickOp => cases h; exact exists_map_iff.trans (scanOp_iff buf)
  | brickName op => cases h; exact exists_map_iff.trans (scanBody2_iff buf)
  | bParamOp => cases h; exact exists_map_iff.trans (scanOp_iff (skipBlanks buf))
  | connOp => cases h; exact exists_map_iff.trans (scanOp_iff buf)
  | connStr op => cases h; exact exists_map_iff.trans (scanConnstr_iff conn1 buf)
  | connectStr => cases h; exact exists_map_iff.trans (scanConnstr_iff conn1 buf)
  | connectOp => cases h; exact exists_map_iff.trans (scanOp_iff buf)
  | connecting => cases h; exact exists_map_iff.trans (scanConnstraddr_iff conn2 buf)
  | _ => cases h

theorem step_of_none {s : Interp} (h : s.scanner = none) (hfin : ¬s.finished) (answer : Bool) :
    ∃ s', s.step answer = some s' := by
  obtain ⟨pc, buf, name, conn1, conn2, calls⟩ := s
  unfold step
  cases pc with
  | top => simp only; split <;> exact ⟨_, rfl⟩
  | brickDo op => simp only; split_ifs <;> exact ⟨_, rfl⟩
  | bParam => simp only; split <;> exact ⟨_, rfl⟩
  | connDo op => simp only; split_ifs <;> exact ⟨_, rfl⟩
  | instbrick param => exact ⟨_, rfl⟩
  | deinstbrick => exact ⟨_, rfl⟩
  | disconnect => exact ⟨_, rfl⟩
  | connectDo => exact ⟨_, rfl⟩
  | skip => exact ⟨_, rfl⟩
  | done success => exact absurd ⟨success, rfl⟩ hfin
  | _ => cases h

/-- The interpreter goes on exactly when the next scanner finds what it needs. -/
theorem step_iff {s : Interp} (hfin : ¬s.finished) (answer : Bool) :
    (∃ s', s.step answer = some s') ↔ s.Ok := by
  cases hsc : s.scanner with
  | none =>
    refine ⟨fun _ sc t h => ?_, fun _ => step_of_none hsc hfin answer⟩
    rw [hsc] at h
    cases h
  | some x =>
    rw [step_of_scanner hsc]
    refine ⟨fun h sc t h' => ?_, fun h => h _ _ hsc⟩
    rw [hsc] at h'
    cases h'
    exact h

/-! ## The end -/

/-- How far it is to the top of the loop, or to the end, when nothing is read. -/
def rank : Pc → Nat
  | .top => 1
  | .brickOp => 7
  | .brickName _ => 6
  | .brickDo _ => 5
  | .bParam => 4
  | .bParamOp => 3
  | .instbrick _ => 2
  | .deinstbrick => 1
  | .connOp => 5
  | .connStr _ => 4
  | .connDo _ => 3
  | .connectStr => 5
  | .connectOp => 4
  | .disconnect => 3
  | .connecting => 3
  | .connectDo => 4
  | .skip => 2
  | .done _ => 0

theorem rank_le (pc : Pc) : rank pc ≤ 7 := by
  cases pc <;> exact Nat.le_of_ble_eq_true rfl

def effort (s : Interp) : Nat := 8 * s.buf.length + rank s.pc

/-- On in the text, and nearer to the end. -/
def Advances (s s' : Interp) : Prop := s'.buf <:+ s.buf ∧ s'.effort < s.effort

variable {s s' : Interp}

theorem advances_of_rank (hbuf : s'.buf <:+ s.buf) (hrank : rank s'.pc < rank s.pc) : Advances s s' := by
  refine ⟨hbuf, ?_⟩
  have := hbuf.length_le
  unfold effort
  omega

theorem advances_of_shorter (hbuf : s'.buf <:+ s.buf) (hlen : s'.buf.length < s.buf.length) :
    Advances s s' := by
  refine ⟨hbuf, ?_⟩
  have := rank_le s'.pc
  unfold effort
  omega

theorem advances_callThen {c : Call} {answer : Bool} {pc : Pc} (hrank : rank pc < rank s.pc)
    (hpos : 0 < rank s.pc) : Advances s (s.callThen c answer pc) := by
  refine advances_of_rank List.suffix_rfl ?_
  cases answer with
  | true => exact hrank
  | false => exact hpos

theorem step_advances {answer : Bool} (h : s.step answer = some s') : Advances s s' := by
  obtain ⟨pc, buf, name, conn1, conn2, calls⟩ := s
  cases pc with
  | top =>
    have hmulti := scanMulti_suffix stratKeywords buf
    unfold step at h
    simp only at h
    have hne : [] ∉ stratKeywords := by decide
    split at h
    · rename_i t heq
      cases h
      rw [heq] at hmulti
      exact advances_of_shorter hmulti.1 (hmulti.2 _ rfl hne)
    · rename_i t heq
      cases h
      rw [heq] at hmulti
      exact advances_of_shorter hmulti.1 (hmulti.2 _ rfl hne)
    · rename_i t heq
      cases h
      rw [heq] at hmulti
      exact advances_of_shorter hmulti.1 (hmulti.2 _ rfl hne)
    · rename_i i t _ _ _ heq
      cases h
      rw [heq] at hmulti
      exact advances_of_shorter hmulti.1 (hmulti.2 _ rfl hne)
    · rename_i t heq
      cases h
      rw [heq] at hmulti
      exact advances_of_rank hmulti.1 Nat.one_pos
  | brickOp =>
    obtain ⟨⟨op, t⟩, hscan, rfl⟩ := Option.map_eq_some_iff.mp h
    obtain ⟨hsuffix, hlt⟩ := scanOp_suffix hscan
    exact advances_of_shorter hsuffix hlt
  | brickName op =>
    obtain ⟨⟨name', t⟩, hscan, rfl⟩ := Option.map_eq_some_iff.mp h
    exact advances_of_rank (scanBody2_suffix hscan) (Nat.lt_succ_self 5)
  | brickDo op =>
    unfold step at h
    simp only at h
    split_ifs at h
    · cases h
      exact advances_of_rank (skipLine_suffix buf) (Nat.lt_succ_self 4)
    · cases h
      exact advances_of_rank List.suffix_rfl (Nat.le_of_ble_eq_true rfl)
    · cases h
      exact advances_of_rank (skipLine_suffix buf) (Nat.le_of_ble_eq_true rfl)
  | bParam =>
    unfold step at h
    simp only at h
    split at h
    · rename_i t hscan
      cases h
      obtain ⟨hsuffix, hlt⟩ := scanSingle_suffix hscan
      exact advances_of_shorter hsuffix (hlt (by decide))
    · cases h
      exact advances_of_rank List.suffix_rfl (Nat.le_of_ble_eq_true rfl)
  | bParamOp =>
    obtain ⟨⟨op, t⟩, hscan, h⟩ := Option.map_eq_some_iff.mp h
    obtain ⟨hsuffix, hlt⟩ := scanOp_suffix hscan
    have hblanks := skipBlanks_suffix buf
    have ht := hsuffix.trans hblanks
    have hline := ((skipLine_suffix (skipBlanks t)).trans (skipBlanks_suffix t)).trans ht
    simp only at h
    split_ifs at h
    · subst h
      exact advances_of_rank hline (Nat.lt_succ_self 2)
    · subst h
      exact advances_of_rank hline (Nat.le_of_ble_eq_true rfl)
    · subst h
      exact advances_of_rank ht (Nat.lt_succ_self 2)
  | instbrick param => cases h; exact advances_callThen (Nat.lt_succ_self 1) (Nat.succ_pos 1)
  | deinstbrick => cases h; exact advances_callThen Nat.one_pos Nat.one_pos
  | connOp =>
    obtain ⟨⟨op, t⟩, hscan, rfl⟩ := Option.map_eq_some_iff.mp h
    obtain ⟨hsuffix, hlt⟩ := scanOp_suffix hscan
    exact advances_of_shorter hsuffix hlt
  | connStr op =>
    obtain ⟨⟨ok, conn, t⟩, hscan, rfl⟩ := Option.map_eq_some_iff.mp h
    refine advances_of_rank (scanConnstr_suffix hscan) ?_
    cases ok <;> exact Nat.le_of_ble_eq_true rfl
  | connDo op =>
    unfold step at h
    simp only at h
    split_ifs at h
    · cases h
      exact advances_callThen (Nat.lt_succ_self 2) (Nat.succ_pos 2)
    · cases h
      exact advances_callThen (Nat.lt_succ_self 2) (Nat.succ_pos 2)
    · cases h
      exact advances_of_rank List.suffix_rfl (Nat.lt_succ_self 2)
  | connectStr =>
    obtain ⟨⟨ok, conn, t⟩, hscan, rfl⟩ := Option.map_eq_some_iff.mp h
    refine advances_of_rank (scanConnstr_suffix hscan) ?_
    cases ok <;> exact Nat.le_of_ble_eq_true rfl
  | connectOp =>
    obtain ⟨⟨op, t⟩, hscan, rfl⟩ := Option.map_eq_some_iff.mp h
    obtain ⟨hsuffix, hlt⟩ := scanOp_suffix hscan
    exact advances_of_shorter hsuffix hlt
  | disconnect => cases h; exact advances_callThen (Nat.lt_succ_self 2) (Nat.succ_pos 2)
  | connecting =>
    obtain ⟨⟨ok, conn, t⟩, hscan, rfl⟩ := Option.map_eq_some_iff.mp h
    obtain ⟨hsuffix, hlt⟩ := scanConnstraddr_suffix hscan
    cases ok with
    | true => exact advances_of_shorter hsuffix (hlt rfl)
    | false => exact advances_of_rank hsuffix (Nat.lt_succ_self 2)
  | connectDo => cases h; exact advances_callThen (Nat.lt_succ_self 3) (Nat.succ_pos 3)
  | skip =>
    cases h
    exact advances_of_rank (skipLine_suffix buf) (Nat.lt_succ_self 1)
  | done success => cases h

/-- A run is not longer than the text allows. -/
theorem run_length {es : List Bool} (h : run step anyEvent s es = some s') :
    s'.effort + es.length ≤ s.effort := by
  induction es generalizing s with
  | nil =>
    cases h
    exact Nat.le_refl _
  | cons e es ih =>
    obtain ⟨s₁, hstep, hrun⟩ := Option.bind_eq_some_iff.mp h
    have hadv := (step_advances hstep).2
    have hrest := ih hrun
    rw [List.length_cons]
    omega

end Interp

/-- The next scanner finds what it needs. -/
def stepsOk (s : Interp) (_ : Bool) : Prop := s.Ok

/-- **The scanners stay in the text exactly when they find what they need**: a character where an operator
is read, and characters of seven bits where a table is looked up. A run of the interpreter in which they
do stays in the text and goes on to its end, and every run ends. -/
theorem stays_in_text (logAddr : Nat) (name text : Text) :
    (∀ sc : Scanner, (∃ rest, sc.move text = some rest ∧ rest <:+ text) ↔ sc.Ok text) ∧
    (∀ s, Reach Interp.step (· = Interp.start logAddr name text) stepsOk s →
      s.buf <:+ text ∧ (¬s.finished → ∀ answer, (∃ s', s.step answer = some s') ↔ s.Ok)) ∧
    (∀ es s, run Interp.step anyEvent (Interp.start logAddr name text) es = some s →
      es.length ≤ 8 * text.length + 1) := by
  refine ⟨fun sc => ?_, fun s hs => ⟨?_, fun hfin answer => Interp.step_iff hfin answer⟩,
    fun es s hrun => ?_⟩
  · rw [← sc.move_iff]
    exact ⟨fun ⟨rest, h, _⟩ => ⟨rest, h⟩, fun ⟨rest, h⟩ => ⟨rest, h, Scanner.move_suffix h⟩⟩
  · refine hs.invariant (I := fun s => s.buf <:+ text) ?_ fun s e s' hbuf _ hstep => ?_
    · rintro _ rfl
      exact List.suffix_rfl
    · exact (Interp.step_advances hstep).1.trans hbuf
  · have hlen := Interp.run_length hrun
    have hstart : (Interp.start logAddr name text).effort = 8 * text.length + 1 := rfl
    omega

theorem scanMulti_brick : scanMulti stratKeywords "brick".toList = (some 0, []) := by
  rw [scanMulti]
  rfl

/-- A keyword at the end of the text, whose operator is read behind it. -/
theorem operator_behind_end :
    Reach Interp.step (· = Interp.start 0 [] "brick".toList) anyEvent
        ((Interp.start 0 [] "brick".toList).goto .brickOp []) ∧
      ((Interp.start 0 [] "brick".toList).goto .brickOp []).step true = none ∧
      Scanner.scanOp.move [] = none ∧ (Scanner.scanTable idTable).move ['\u00e4'] = none := by
  refine ⟨.next (e := true) (.start rfl) trivial ?_, rfl, rfl, by decide⟩
  have hbuf : scanMulti stratKeywords (Interp.start 0 [] "brick".toList).buf = (some 0, []) :=
    scanMulti_brick
  unfold Interp.step
  simp only [Interp.start] at hbuf ⊢
  rw [hbuf]
  rfl

end Athomux.Strat
