import Athomux.Heap.Padr

/-!
# What a failure of the heap leaves behind

Both operations get the page, look at it, change it where it lies and put it back. A failure in
between returns without the `$put`, and a `$put` that fails comes after the change.
-/

open Lib

namespace Athomux.Heap

/-! ## The operations with their calls -/

/-- A call for the page, with its success. -/
inductive Call
  | get (addr : Nat) (ok : Bool)
  | put (addr len : Nat) (ok : Bool)
  deriving DecidableEq

def Call.addr : Call → Nat
  | .get addr _ => addr
  | .put addr _ _ => addr

structure Outcome where
  success : Bool
  table : Table
  calls : List Call

def gadrOutcome (s : Sys) (logLen : Nat) (got : Got) (putOk : Bool) : Outcome :=
  let get := Call.get s.getAddr got.ok
  if !got.usable then ⟨false, s.table, [get]⟩
  else if nRecsMax ≤ s.table.nRecs then ⟨false, s.table, [get]⟩
  else
    ⟨putOk, addRec s.table (newRec s.table s.rangeAddr logLen),
      [get, .put (s.putAddr got) (if s.tmp then stateSize else got.stateLen) putOk]⟩

def padrOutcome (s : Sys) (logAddr logLen : Nat) (got : Got) (putOk : Bool) : Option Outcome :=
  let get := Call.get s.getAddr got.ok
  if logLen = 0 then some ⟨true, s.table, []⟩
  else if !got.usable then some ⟨false, s.table, [get]⟩
  else
    (release s.table logAddr logLen).map fun
      | .error () => ⟨false, s.table, [get]⟩
      | .ok table =>
        ⟨putOk, table, [get, .put s.getAddr (if s.tmp then got.stateLen else stateSize) putOk]⟩

def outcome (s : Sys) : Event → Option Outcome
  | .gadr logLen got putOk => some (gadrOutcome s logLen got putOk)
  | .padr logAddr logLen got putOk => padrOutcome s logAddr logLen got putOk

/-- The outcome is that of the step. -/
theorem outcome_step (s : Sys) (e : Event) :
    (outcome s e).map (fun o => (o.table, (o.calls.map Call.addr).reverse ++ s.places)) =
      (step s e).map fun u => (u.table, u.places) := by
  cases e with
  | gadr logLen got putOk =>
    simp only [outcome, step, gadrOutcome, gadr, Option.map_some]
    split
    · rfl
    · split <;> rfl
  | padr logAddr logLen got putOk =>
    simp only [outcome, step, padrOutcome, padr]
    split
    · rfl
    · split
      · rfl
      · rcases release s.table logAddr logLen with _ | _ | table
        · rfl
        · rfl
        · rfl

/-! ## Atomic failures -/

/-- A `$get` at `addr` that succeeds. -/
def Call.gets (addr : Nat) : Call → Bool
  | .get a ok => decide (a = addr) && ok
  | .put .. => false

def Call.puts (addr : Nat) : Call → Bool
  | .get .. => false
  | .put a _ _ => decide (a = addr)

/-- Each address is put as often as it was got. -/
def Matched (calls : List Call) : Prop :=
  ∀ addr, calls.countP (Call.gets addr) = calls.countP (Call.puts addr)

/-- The operation returns, and when it fails, the page is as before and was put back. -/
def Atomic (s : Sys) (e : Event) : Prop :=
  ∃ o u, outcome s e = some o ∧ step s e = some u ∧
    (o.success = false → u.table = s.table ∧ Matched o.calls)

/-- The record at which `$padr` begins. -/
def firstRec (t : Table) (logAddr : Nat) : Nat := search t.recs logAddr t.nRecs 0 t.nRecs

/-- There is no such record, or it begins behind the range. -/
def Untouched (t : Table) (logAddr logLen : Nat) : Prop :=
  t.nRecs ≤ firstRec t logAddr ∨
    logAddr ≤ (t.recs (firstRec t logAddr)).addr ∧
      add64 logAddr logLen ≤ (t.recs (firstRec t logAddr)).addr

/-- A record has to be split, and there is none for the other half. -/
def NoRoom (t : Table) (logAddr logLen : Nat) : Prop :=
  firstRec t logAddr < t.nRecs ∧ (t.recs (firstRec t logAddr)).addr < logAddr ∧
    add64 logAddr logLen < (t.recs (firstRec t logAddr)).stop ∧ nRecsMax ≤ t.nRecs

/-- Where the records begin that the range may hold. -/
def nextRec (t : Table) (logAddr : Nat) : Nat :=
  if (t.recs (firstRec t logAddr)).addr < logAddr then firstRec t logAddr + 1 else firstRec t logAddr

/-- Where records are looked for that are inside of the range, one of them or the entry right behind
the last one ends behind the range. Nothing else stops the loop. -/
def Stops (t : Table) (logAddr logLen : Nat) : Prop :=
  firstRec t logAddr < t.nRecs → (t.recs (firstRec t logAddr)).addr < add64 logAddr logLen →
    ¬((t.recs (firstRec t logAddr)).addr < logAddr ∧
      add64 logAddr logLen < (t.recs (firstRec t logAddr)).stop) →
    ∃ i ≤ t.nRecs, i < nRecsMax ∧ nextRec t logAddr ≤ i ∧ add64 logAddr logLen < (t.recs i).stop

/-- The operation cannot get the page, or it gets all of it, has the records that it needs, and can
put it back if it changes it. -/
def Covered (s : Sys) : Event → Prop
  | .gadr _ got putOk =>
    got.ok = false ∨ stateSize ≤ got.stateLen ∧ s.table.nRecs < nRecsMax ∧ putOk = true
  | .padr logAddr logLen got putOk =>
    logLen = 0 ∨ got.ok = false ∨
      stateSize ≤ got.stateLen ∧ Stops s.table logAddr logLen ∧
        ¬NoRoom s.table logAddr logLen ∧ (putOk = true ∨ Untouched s.table logAddr logLen)

/-! ## Calls -/

theorem matched_refused (addr : Nat) : Matched [.get addr false] := by
  intro a
  simp [Call.gets, Call.puts]

theorem not_matched_got (addr : Nat) : ¬Matched [.get addr true] := by
  intro h
  have := h addr
  simp [Call.gets, Call.puts] at this

theorem matched_pair (addr len : Nat) (ok : Bool) : Matched [.get addr true, .put addr len ok] := by
  intro a
  by_cases h : addr = a <;> simp [Call.gets, Call.puts, h]

/-! ## What a release changes -/

variable {t u : Table} {logAddr logLen : Nat}

/-- A record that the search ends at in front of the range has its first address. -/
theorem search_has {recs : Nat → Rec} {n : Nat} : ∀ {fuel l r : Nat}, r - l ≤ fuel → l ≤ r →
    (r < n → logAddr ≤ (recs r).addr) → search recs logAddr fuel l r < n →
    (recs (search recs logAddr fuel l r)).addr < logAddr →
    logAddr < (recs (search recs logAddr fuel l r)).stop
  | 0, l, r, hfuel, hle, hright, hn, hlow => by
    rw [search] at hn hlow
    obtain rfl : l = r := by omega
    have := hright hn
    omega
  | fuel + 1, l, r, hfuel, hle, hright, hn, hlow => by
    rw [search] at hn hlow ⊢
    split at hn
    · rename_i hlt
      simp only [if_pos hlt] at hn hlow ⊢
      split at hn
      · rename_i hhas
        rw [if_pos hhas]
        exact hhas.2
      · rename_i hnot
        rw [if_neg hnot] at hlow ⊢
        split at hn
        · rename_i hbelow
          rw [if_pos hbelow] at hlow ⊢
          exact search_has (by omega) (by omega) hright hn hlow
        · rename_i habove
          rw [if_neg habove] at hlow ⊢
          exact search_has (by omega) (by omega) (fun _ => by omega) hn hlow
    · rename_i hge
      rw [if_neg hge] at hlow
      obtain rfl : l = r := by omega
      have := hright hn
      omega

theorem firstRec_has (hlt : firstRec t logAddr < t.nRecs)
    (hlow : (t.recs (firstRec t logAddr)).addr < logAddr) :
    logAddr < (t.recs (firstRec t logAddr)).stop :=
  search_has (by omega) (Nat.zero_le _) (fun h => absurd h (lt_irrefl _)) hlt hlow

theorem release_untouched (h : Untouched t logAddr logLen) :
    release t logAddr logLen = some (.ok t) := by
  unfold Untouched firstRec at h
  unfold release
  simp only
  rcases h with hnone | ⟨hlow, hstop⟩
  · rw [if_pos hnone]
  · split
    · rfl
    · rw [if_neg (fun h => absurd h.1 (Nat.not_lt.mpr hlow)), if_neg (Nat.not_lt.mpr hstop)]

theorem release_noRoom (h : NoRoom t logAddr logLen) :
    release t logAddr logLen = some (.error ()) := by
  obtain ⟨hlt, hlow, hstop, hmax⟩ := h
  unfold firstRec at hlt hlow hstop
  unfold release
  simp only
  rw [if_neg (Nat.not_le.mpr hlt), if_pos ⟨hlow, hstop⟩, if_pos hmax]

/-- A release that is refused has no room for a record. -/
theorem noRoom_of_refused (h : release t logAddr logLen = some (.error ())) :
    NoRoom t logAddr logLen := by
  unfold release at h
  simp only at h
  split at h
  · cases h
  · rename_i hlt
    split at h
    · rename_i hsplit
      split at h
      · rename_i hmax
        exact ⟨Nat.lt_of_not_le hlt, hsplit.1, hsplit.2, hmax⟩
      · cases h
    · split at h
      · obtain ⟨right, -, h⟩ := Option.bind_eq_some_iff.mp h
        obtain ⟨u, -, h⟩ := Option.bind_eq_some_iff.mp h
        cases h
      · cases h

/-- Deleting records makes the table shorter, or none is deleted. -/
theorem deleteRecs_cases {v : Table} {left right : Nat} (h : deleteRecs t left right = some v) :
    v.nRecs < t.nRecs ∨ right ≤ left ∧ v = t := by
  unfold deleteRecs at h
  split at h
  · split at h
    · cases h
    · cases h
      refine Or.inl ?_
      simp only
      omega
  · rename_i hge
    cases h
    exact Or.inr ⟨Nat.le_of_not_lt hge, rfl⟩

/-- A record that reaches into the range is shortened. -/
theorem shortened_ne {r : Rec} (hlow : r.addr < logAddr) (hhas : logAddr < r.stop) :
    (⟨r.addr, logAddr - r.addr⟩ : Rec) ≠ r := by
  intro heq
  have hlen : logAddr - r.addr = r.len := congrArg Rec.len heq
  have hle : r.stop ≤ r.addr + r.len := Nat.mod_le _ _
  omega

/-- A release that meets a record changes the table. -/
theorem release_changes (hlt : firstRec t logAddr < t.nRecs)
    (hmeets : (t.recs (firstRec t logAddr)).addr < logAddr ∨
      (t.recs (firstRec t logAddr)).addr < add64 logAddr logLen)
    (h : release t logAddr logLen = some (.ok u)) : u ≠ t := by
  have hhas := firstRec_has hlt
  unfold firstRec at hlt hmeets hhas
  unfold release at h
  generalize search t.recs logAddr t.nRecs 0 t.nRecs = left at hlt hmeets hhas h
  generalize add64 logAddr logLen = stop at hmeets h
  simp only [if_neg (Nat.not_le.mpr hlt)] at h
  split at h
  · split at h
    · cases h
    · cases h
      exact fun heq => absurd (congrArg Table.nRecs heq) (Nat.succ_ne_self _)
  · rename_i hsplit
    have hover : (t.recs left).addr < stop := by
      rcases hmeets with hlow | hover
      · have := hhas hlow
        by_contra hge
        exact hsplit ⟨hlow, by omega⟩
      · exact hover
    simp only [if_pos hover] at h
    obtain ⟨right, hscan, h⟩ := Option.bind_eq_some_iff.mp h
    obtain ⟨v, hdelete, h⟩ := Option.bind_eq_some_iff.mp h
    cases h
    intro heq
    have hcount : v.nRecs = t.nRecs := by
      rw [← congrArg Table.nRecs heq, shortenUpper_nRecs]
    by_cases hlow : (t.recs left).addr < logAddr
    · have hlower : shortenLower t left logAddr =
          (t.set left ⟨(t.recs left).addr, logAddr - (t.recs left).addr⟩, left + 1) := if_pos hlow
      rw [hlower] at hdelete heq
      rcases deleteRecs_cases hdelete with hfewer | ⟨-, rfl⟩
      · exact absurd hcount (Nat.ne_of_lt hfewer)
      · have hrec := congrArg (fun t => t.recs left) heq
        simp only [shortenUpper_of_ne (Nat.ne_of_lt (Nat.lt_succ_self left)),
          Table.set_recs_self] at hrec
        exact shortened_ne hlow (hhas hlow) hrec
    · have hlower : shortenLower t left logAddr = (t, left) := if_neg hlow
      rw [hlower] at hdelete heq
      rcases deleteRecs_cases hdelete with hfewer | ⟨-, rfl⟩
      · exact absurd hcount (Nat.ne_of_lt hfewer)
      · have haddr := congrArg (fun t => (t.recs left).addr) heq
        simp only [shortenUpper, if_pos hover, Table.set_recs_self] at haddr
        omega

theorem release_same_iff (h : release t logAddr logLen = some (.ok u)) :
    u = t ↔ Untouched t logAddr logLen := by
  constructor
  · intro heq
    by_contra hnot
    unfold Untouched at hnot
    push Not at hnot
    obtain ⟨hlt, hmeets⟩ := hnot
    refine release_changes hlt ?_ h heq
    by_cases hlow : (t.recs (firstRec t logAddr)).addr < logAddr
    · exact Or.inl hlow
    · exact Or.inr (hmeets (Nat.le_of_not_lt hlow))
  · intro huntouched
    rw [release_untouched huntouched] at h
    cases h
    rfl

/-! ## Where the loop stops -/

theorem scan_lt {recs : Nat → Rec} {stop right : Nat} : ∀ {fuel next : Nat},
    scan recs stop fuel next = some right → right < nRecsMax
  | 0, _, h => by cases h
  | fuel + 1, next, h => by
    rw [scan_succ] at h
    split at h
    · cases h
    · rename_i hlt
      split at h
      · exact scan_lt h
      · cases h
        exact Nat.lt_of_not_le hlt

/-- An entry that ends behind the range stops the scan, there or before. -/
theorem exists_scan {recs : Nat → Rec} {stop next i : Nat} (hle : next ≤ i) (hi : i < nRecsMax)
    (hstop : stop < (recs i).stop) :
    ∃ right ≤ i, scan recs stop (nRecsMax + 1) next = some right := by
  have hex : ∃ i, next ≤ i ∧ stop < (recs i).stop := ⟨i, hle, hstop⟩
  have hmin := Nat.find_min' hex ⟨hle, hstop⟩
  obtain ⟨hnext, hout⟩ := Nat.find_spec hex
  refine ⟨Nat.find hex, hmin, scan_eq (by omega) (by omega) hnext (fun k hk hlt => ?_) hout⟩
  have hnot := Nat.find_min hex hlt
  push Not at hnot
  exact hnot hk

/-- The rest of the release has a result exactly if the scan stops at a record or right behind the
last one. -/
theorem removed_isSome {t₁ : Table} {stop next : Nat} (hn : t₁.nRecs = t.nRecs)
    (hle : next ≤ t.nRecs) (hsame : ∀ i, next ≤ i → t₁.recs i = t.recs i) :
    ((scan t₁.recs stop (nRecsMax + 1) next).bind fun right => deleteRecs t₁ next right).isSome ↔
      ∃ i ≤ t.nRecs, i < nRecsMax ∧ next ≤ i ∧ stop < (t.recs i).stop := by
  rw [scan_congr hsame, Option.isSome_iff_exists]
  constructor
  · rintro ⟨u, hu⟩
    obtain ⟨right, hscan, hdelete⟩ := Option.bind_eq_some_iff.mp hu
    obtain ⟨hnext, -, hout, -⟩ := scan_some hscan
    refine ⟨right, ?_, scan_lt hscan, hnext, hout⟩
    unfold deleteRecs at hdelete
    split at hdelete
    · split at hdelete
      · cases hdelete
      · omega
    · omega
  · rintro ⟨i, hi, hmax, hnext, hout⟩
    obtain ⟨right, hright, hscan⟩ := exists_scan hnext hmax hout
    rw [hscan, Option.bind_some, deleteRecs]
    split
    · rw [if_neg (by omega)]
      exact ⟨_, rfl⟩
    · exact ⟨_, rfl⟩

theorem release_isSome_iff : (release t logAddr logLen).isSome ↔ Stops t logAddr logLen := by
  have hpure (x : Option Table) (f : Table → Except Unit Table) :
      (x.bind fun t => some (f t)).isSome = x.isSome := by cases x <;> rfl
  unfold Stops nextRec firstRec release
  generalize search t.recs logAddr t.nRecs 0 t.nRecs = left
  generalize add64 logAddr logLen = stop
  simp only
  split
  · rename_i hnone
    exact iff_of_true rfl fun hlt => absurd hlt (Nat.not_lt.mpr hnone)
  · rename_i hlt
    have hlt := Nat.lt_of_not_le hlt
    split
    · rename_i hsplit
      refine iff_of_true ?_ fun _ _ hnot => absurd hsplit hnot
      split <;> rfl
    · rename_i hsplit
      split
      · rename_i hover
        simp only [hlt, hover, hsplit, not_false_iff, true_imp_iff]
        by_cases hlow : (t.recs left).addr < logAddr
        · have hlower : shortenLower t left logAddr =
              (t.set left ⟨(t.recs left).addr, logAddr - (t.recs left).addr⟩, left + 1) := if_pos hlow
          rw [hlower, if_pos hlow, ← removed_isSome
            (Table.set_nRecs t left ⟨(t.recs left).addr, logAddr - (t.recs left).addr⟩) hlt
            fun i hi => Table.set_recs_of_ne (by omega) t _]
          simp only [Option.bind_eq_bind, Option.pure_def, ← Option.bind_assoc, hpure]
        · have hlower : shortenLower t left logAddr = (t, left) := if_neg hlow
          rw [hlower, if_neg hlow, ← removed_isSome rfl hlt.le fun _ _ => rfl]
          simp only [Option.bind_eq_bind, Option.pure_def, ← Option.bind_assoc, hpure]
      · rename_i hover
        exact iff_of_true rfl fun _ h => absurd h hover

/-! ## Which failures are atomic -/

theorem usable_eq (got : Got) : got.usable = true ↔ got.ok = true ∧ stateSize ≤ got.stateLen := by
  simp [Got.usable]

/-- What an outcome has to be for an atomic failure. -/
theorem atomic_of_outcome {s : Sys} {e : Event} {o : Outcome} (h : outcome s e = some o) :
    Atomic s e ↔ (o.success = false → o.table = s.table ∧ Matched o.calls) := by
  have hstep := outcome_step s e
  rw [h, Option.map_some] at hstep
  obtain ⟨u, hu, heq⟩ := Option.map_eq_some_iff.mp hstep.symm
  have htable : u.table = o.table := congrArg Prod.fst heq
  unfold Atomic
  simp [h, hu, htable]

theorem gadr_atomic_iff (s : Sys) (logLen : Nat) (got : Got) (putOk : Bool) :
    Atomic s (.gadr logLen got putOk) ↔ Covered s (.gadr logLen got putOk) := by
  rw [atomic_of_outcome rfl]
  unfold gadrOutcome Covered
  simp only
  cases hok : got.ok with
  | false =>
    have hnot : got.usable = false := by simp [Got.usable, hok]
    simp [hnot, matched_refused]
  | true =>
    have husable : got.usable = true ↔ stateSize ≤ got.stateLen := by simp [usable_eq, hok]
    by_cases hlen : stateSize ≤ got.stateLen
    · rw [husable.mpr hlen]
      by_cases hroom : s.table.nRecs < nRecsMax
      · have hchanged (r : Rec) : addRec s.table r ≠ s.table := fun heq =>
          absurd (congrArg Table.nRecs heq) (Nat.succ_ne_self _)
        cases putOk <;> simp [hlen, hroom, Nat.not_le.mpr hroom, hchanged]
      · simp [hroom, Nat.le_of_not_lt hroom, not_matched_got]
    · have hnot : got.usable = false := by
        rw [← Bool.not_eq_true, husable]
        exact hlen
      simp [hnot, hlen, not_matched_got]

theorem padr_atomic_iff (s : Sys) (logAddr logLen : Nat) (got : Got) (putOk : Bool) :
    Atomic s (.padr logAddr logLen got putOk) ↔ Covered s (.padr logAddr logLen got putOk) := by
  unfold Covered
  by_cases hzero : logLen = 0
  · have hout : outcome s (.padr logAddr logLen got putOk) = some ⟨true, s.table, []⟩ := if_pos hzero
    rw [atomic_of_outcome hout]
    simp [hzero]
  by_cases husable : got.usable = true
  · obtain ⟨hok, hlen⟩ := (usable_eq got).mp husable
    simp only [hzero, hok, hlen, false_or, true_and, Bool.true_eq_false]
    rw [← release_isSome_iff]
    cases hrelease : release s.table logAddr logLen with
    | none =>
      have hout : outcome s (.padr logAddr logLen got putOk) = none := by
        simp [outcome, padrOutcome, hzero, husable, hrelease]
      simp [Atomic, hout]
    | some r =>
      cases r with
      | error e =>
        have hout : outcome s (.padr logAddr logLen got putOk) =
            some ⟨false, s.table, [.get s.getAddr true]⟩ := by
          simp [outcome, padrOutcome, hzero, husable, hrelease, hok]
        have hroom := noRoom_of_refused hrelease
        rw [atomic_of_outcome hout]
        simp [hroom, not_matched_got]
      | ok u =>
        have hout : outcome s (.padr logAddr logLen got putOk) = some ⟨putOk, u,
            [.get s.getAddr true, .put s.getAddr (if s.tmp then got.stateLen else stateSize) putOk]⟩ := by
          simp [outcome, padrOutcome, hzero, husable, hrelease, hok]
        have hroom : ¬NoRoom s.table logAddr logLen := fun h => by
          rw [release_noRoom h] at hrelease
          cases hrelease
        have hsame := release_same_iff hrelease
        rw [atomic_of_outcome hout]
        cases putOk <;> simp [hroom, matched_pair, hsame]
  · have hout : outcome s (.padr logAddr logLen got putOk) =
        some ⟨false, s.table, [.get s.getAddr got.ok]⟩ := by
      simp [outcome, padrOutcome, hzero, husable]
    rw [atomic_of_outcome hout]
    cases hok : got.ok with
    | false => simp [hok, matched_refused]
    | true =>
      have hlen : ¬stateSize ≤ got.stateLen := fun h => husable ((usable_eq got).mpr ⟨hok, h⟩)
      simp [hok, hzero, hlen, not_matched_got]

/-- **Failures of the heap.** The page is unchanged and put back after every failure exactly when the
page cannot be got, or everything behind the `$get` goes well, or a `$padr` meets no record. -/
theorem atomic_iff (s : Sys) (e : Event) : Atomic s e ↔ Covered s e := by
  cases e with
  | gadr logLen got putOk => exact gadr_atomic_iff s logLen got putOk
  | padr logAddr logLen got putOk => exact padr_atomic_iff s logAddr logLen got putOk

/-- A heap with `n` records in a page of `:<in`. The entries behind them hold the same. -/
def heapOf (n : Nat) : Sys := ⟨false, 0, 100000, ⟨n, fun _ => ⟨4096, 10⟩⟩, [], []⟩

/-- A `$get` of less than the page is not put back, nor is the page when there is no record left. A
`$put` that fails leaves the new record. -/
theorem failures_not_atomic :
    ¬Atomic (heapOf 1) (.gadr 10 ⟨true, 0, 100⟩ true) ∧
      ¬Atomic (heapOf nRecsMax) (.gadr 10 ⟨true, 0, 4096⟩ true) ∧
        ¬Atomic (heapOf 1) (.gadr 10 ⟨true, 0, 4096⟩ false) := by
  refine ⟨?_, ?_, ?_⟩
  · have hout : outcome (heapOf 1) (.gadr 10 ⟨true, 0, 100⟩ true) =
        some ⟨false, (heapOf 1).table, [.get 0 true]⟩ := rfl
    rw [atomic_of_outcome hout]
    exact fun h => not_matched_got 0 (h rfl).2
  · have hout : outcome (heapOf nRecsMax) (.gadr 10 ⟨true, 0, 4096⟩ true) =
        some ⟨false, (heapOf nRecsMax).table, [.get 0 true]⟩ := rfl
    rw [atomic_of_outcome hout]
    exact fun h => not_matched_got 0 (h rfl).2
  · have hout : outcome (heapOf 1) (.gadr 10 ⟨true, 0, 4096⟩ false) =
        some ⟨false, addRec (heapOf 1).table ⟨4106, 10⟩, [.get 0 true, .put 0 4096 false]⟩ := rfl
    rw [atomic_of_outcome hout]
    exact fun h => absurd (congrArg Table.nRecs (h rfl).1) (by decide)

end Athomux.Heap
