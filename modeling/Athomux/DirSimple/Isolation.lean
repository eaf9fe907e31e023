import Athomux.Lib.ByteStore
import Athomux.DirSimple.Layout

/-! # What the other files contain -/

open Lib

namespace Athomux.DirSimple

variable {t : Table} {sect index j : Nat}

/-! ## The nest behind `:<in` -/

/-- Where the bytes of a file are. -/
def Table.content (t : Table) (sect i : Nat) : Region :=
  ⟨(t.off sect i).offStart, (t.off sect i).offLen⟩

/-- What is read through the output of the file. -/
def read (mem : Nat → UInt8) (r : Region) : List UInt8 :=
  (List.range r.len).map fun x => mem (r.start + x)

/-- `:<in` is a store of bytes. -/
def Call.exec (fill : Call → Nat → UInt8) (mem : Nat → UInt8) (c : Call) : Nat → UInt8 :=
  match c with
  | .create addr len clear =>
    createBytes mem (if clear then fun _ => 0 else fill (.create addr len clear)) addr len
  | .move addr len offset => moveBytes mem (fill (.move addr len offset)) addr len offset

def Result.mem (r : Result) (fill : Call → Nat → UInt8) (mem : Nat → UInt8) : Nat → UInt8 :=
  r.calls.foldl (Call.exec fill) mem

/-- An operation on a file, with the answers of `:<in`. -/
inductive Request
  | create (logAddr logLen : Nat) (clear grows ok : Bool)
  | move (logAddr logLen : Nat) (offset offsetMax : Int) (ok : Bool) (delta : Int)

def Table.serve (t : Table) (sect index : Nat) : Request → Result
  | .create logAddr logLen clear grows ok => t.create sect index logAddr logLen clear grows ok
  | .move logAddr logLen offset offsetMax ok delta =>
    t.move sect index logAddr logLen offset offsetMax ok delta

/-- Every other file is read as before, in both sections, whatever was in the nest. -/
def Isolated (t : Table) (sect index : Nat) (r : Result) : Prop :=
  ∀ (mem : Nat → Nat → UInt8) (fill : Call → Nat → UInt8) (sect' j : Nat), t.Used j → j ≠ index →
    read (Function.update mem sect (r.mem fill (mem sect)) sect') (r.table.content sect' j) =
      read (mem sect') (t.content sect' j)

/-! ## When the other files are spared -/

/-- `$create` shifts the files behind the region. -/
def Table.Shifts (t : Table) (sect index border : Nat) : Prop :=
  t.Grows sect index border ∧ (t.region sect index).stop < (t.descOff sect).stop

/-- The condition on an operation. -/
def Spares (t : Table) (sect index : Nat) : Request → Prop
  | .create logAddr logLen _ _ _ =>
    let base := (t.region sect index).stop
    let border := add64 logAddr logLen
    ∀ j, t.Used j → j ≠ index →
      (t.Shifts sect index border → Spared (t.content sect j) base ((t.descOff sect).stop - base)
        (t.delta sect index border (postgap sect))) ∧
      (t.Shifts sect index border ∧ base ≤ (t.off sect j).offStart ∨
        (t.content sect j).Apart ⟨logAddr + (t.off sect index).offStart, logLen⟩)
  | .move logAddr logLen _ offsetMax _ delta =>
    let base := logAddr + (t.off sect index).offStart
    delta ≠ 0 → ∀ j, t.Used j → j ≠ index →
      if (t.off sect index).offBorder < moveBorder logAddr logLen offsetMax then
        Spared (t.content sect j) base ((t.descOff sect).stop - base) delta
      else (t.content sect j).Apart ⟨base, logLen⟩ ∧ ∀ x, (t.content sect j).Has x →
        ¬ (base + delta ≤ x ∧ (x : Int) < base + logLen + delta)

/-- No sum leaves the address space, and `$move` is answered as it was asked. -/
def NoOverflow (t : Table) (sect index : Nat) : Request → Prop
  | .create logAddr logLen _ _ _ =>
    let border := add64 logAddr logLen
    let delta := t.delta sect index border (postgap sect)
    logAddr + logLen < addrSpace ∧ logAddr + (t.off sect index).offStart < addrSpace ∧
      (t.region sect index).stop < addrSpace ∧ (t.descOff sect).stop < addrSpace ∧
      (t.Shifts sect index border → 0 < delta ∧
        ∀ j, t.Used j → (t.off sect j).offStart + delta < addrSpace)
  | .move logAddr logLen offset offsetMax _ delta =>
    let base := logAddr + (t.off sect index).offStart
    offset ≤ delta ∧ delta ≤ offsetMax ∧ logAddr + logLen + max offsetMax 0 < addrSpace ∧
      base ≤ (t.descOff sect).stop ∧ (t.descOff sect).stop < addrSpace ∧
      ∀ j, t.Used j → (t.off sect j).offStart < addrSpace ∧
        (t.off sect j).offStart + delta < addrSpace

/-! ## What the operations do -/

section Create

variable {border logAddr logLen newLen : Nat} {clear grows ok : Bool} {calls : List Call}

theorem off_changeLen (t : Table) (sect index newLen : Nat) (calls : List Call) :
    (∀ j, j ≠ index → (t.changeLen sect index newLen calls).table.off sect j = t.off sect j) ∧
      ((t.changeLen sect index newLen calls).table.off sect index).offStart =
        (t.off sect index).offStart := by
  unfold Table.changeLen
  simp only
  split
  · exact ⟨fun _ _ => rfl, rfl⟩
  · simp only
    split
    · constructor
      · intro j hne
        rw [off_setOff, if_neg hne]
      · rw [off_setOff, if_pos rfl]
    · exact ⟨fun _ _ => rfl, rfl⟩

theorem calls_changeLen (t : Table) (sect index newLen : Nat) (calls : List Call) :
    (t.changeLen sect index newLen calls).calls = calls := by
  unfold Table.changeLen
  simp only
  split <;> rfl

/-- What the first part of `$create` does to the other files. -/
structure Extended (t : Table) (sect index border : Nat) (r : Result) : Prop where
  own : (r.table.off sect index).offStart = (t.off sect index).offStart
  shifts : t.Shifts sect index border →
    (∀ j, j ≠ index → r.table.off sect j =
      if 1 ≤ j ∧ j < t.entryCount ∧ (t.region sect index).stop ≤ (t.off sect j).offStart then
        { t.off sect j with
          offStart := addOff (t.off sect j).offStart (t.delta sect index border (postgap sect)) }
      else t.off sect j) ∧
    r.calls = [.move (t.region sect index).stop ((t.descOff sect).stop - (t.region sect index).stop)
      (t.delta sect index border (postgap sect))]
  keeps : ¬ t.Shifts sect index border →
    (∀ j, j ≠ index → r.table.off sect j = t.off sect j) ∧
      (r.calls = [] ∨ ∃ addr, r.calls = [.create addr 0 false])

theorem extended (hstop : (t.region sect index).stop < addrSpace)
    (hend : (t.descOff sect).stop < addrSpace)
    (hsuccess : (t.extend sect index border grows).success = true) :
    Extended t sect index border (t.extend sect index border grows) := by
  have hregion : t.regionStop sect index = (t.region sect index).stop := add64_eq hstop
  unfold Table.extend at hsuccess ⊢
  split at hsuccess
  · rename_i hlt
    rw [if_pos hlt]
    unfold Table.changeSize at hsuccess ⊢
    simp only [hregion] at hsuccess ⊢
    split at hsuccess
    · cases hsuccess
    rename_i hborder
    rw [if_neg hborder]
    split at hsuccess
    · rename_i hdelta
      rw [if_pos hdelta]
      split at hsuccess
      · cases hsuccess
      rename_i hok
      rw [if_neg hok]
      by_cases hshift : (t.region sect index).stop < (t.descOff sect).stop
      · rw [if_pos hshift]
        obtain ⟨hothers, hown⟩ := off_changeLen (t.correctInfos sect index
          (t.region sect index).stop (t.delta sect index border (postgap sect))) sect index border
          [.move (t.region sect index).stop (sub64 (t.descOff sect).stop (t.region sect index).stop)
            (t.delta sect index border (postgap sect))]
        refine ⟨?_, fun _ => ⟨fun j hne => ?_, ?_⟩, fun hnot => absurd ⟨⟨hlt, hdelta⟩, hshift⟩ hnot⟩
        · rw [hown, off_correctInfos, if_pos rfl]
        · rw [hothers j hne, off_correctInfos, if_neg hne]
        · rw [calls_changeLen, sub64_eq hshift.le hend]
      · rw [if_neg hshift]
        refine ⟨?_, fun hs => absurd hs.2 hshift,
          fun _ => ⟨fun j hne => ?_, Or.inr ⟨_, calls_changeLen _ _ _ _ _⟩⟩⟩
        · rw [(off_changeLen _ _ _ _ _).2, off_setOff, if_pos rfl]
        · rw [(off_changeLen _ _ _ _ _).1 j hne, off_setOff, if_neg hne]
          rfl
    · rename_i hdelta
      rw [if_neg hdelta]
      refine ⟨(off_changeLen _ _ _ _ _).2, fun hs => absurd hs.1.2 hdelta,
        fun _ => ⟨(off_changeLen _ _ _ _ _).1, Or.inl (calls_changeLen _ _ _ _ _)⟩⟩
  · rename_i hle
    rw [if_neg hle]
    exact ⟨rfl, fun hs => absurd hs.1.1 hle, fun _ => ⟨fun _ _ => rfl, Or.inl rfl⟩⟩

/-- What `$create` forwards comes behind what it does to make room. -/
theorem create_success (hsuccess : (t.create sect index logAddr logLen clear grows ok).success = true) :
    (t.extend sect index (add64 logAddr logLen) grows).success = true ∧
      (t.create sect index logAddr logLen clear grows ok).table =
        (t.extend sect index (add64 logAddr logLen) grows).table ∧
      (t.create sect index logAddr logLen clear grows ok).calls =
        (t.extend sect index (add64 logAddr logLen) grows).calls ++
          if logLen = 0 then [] else [.create (add64 logAddr
            ((t.extend sect index (add64 logAddr logLen) grows).table.off sect index).offStart)
            logLen clear] := by
  unfold Table.create at hsuccess ⊢
  simp only at hsuccess ⊢
  split at hsuccess
  · rename_i hfailed
    rw [hfailed] at hsuccess
    cases hsuccess
  rename_i hextend
  rw [if_neg hextend]
  refine ⟨by simpa using hextend, ?_⟩
  split at hsuccess
  · rename_i hzero
    rw [if_pos hzero]
    exact ⟨rfl, by rw [if_pos hzero, List.append_nil]⟩
  rename_i hzero
  rw [if_neg hzero]
  split at hsuccess
  · cases hsuccess
  rename_i hfatal
  rw [if_neg hfatal]
  split at hsuccess
  · rename_i hok
    rw [if_pos hok]
    exact ⟨rfl, by rw [if_neg hzero]⟩
  · cases hsuccess

theorem postgap_le (sect : Nat) : postgap sect ≤ 4 * defaultTransfer := by
  unfold postgap dirSection defaultTransfer
  omega

/-- The shift makes at least the room that is asked for. -/
theorem delta_spec (hborder : border < addrSpace)
    (hpos : 0 < t.delta sect index border (postgap sect)) :
    (border : Int) ≤ (t.off sect index).offBorder + t.delta sect index border (postgap sect) := by
  have hgap := postgap_le sect
  unfold Table.delta at hpos ⊢
  simp only at hpos ⊢
  unfold signed addrSpace at *
  unfold defaultTransfer at hgap
  generalize (t.off sect index).offBorder = old at *
  generalize postgap sect = gap at *
  split at hpos
  · rename_i hdelta
    rw [if_pos hdelta]
    omega
  · omega

end Create

/-! ## The other files -/

/-- Each byte of another file is read where it was. -/
theorem Isolated.byte {r : Result} (h : Isolated t sect index r) (hj : t.Used j) (hne : j ≠ index)
    (hlen : (r.table.off sect j).offLen = (t.off sect j).offLen) (mem : Nat → UInt8)
    (fill : Call → Nat → UInt8) {i : Nat} (hi : i < (t.content sect j).len) :
    r.mem fill mem ((r.table.content sect j).start + i) = mem ((t.content sect j).start + i) := by
  have hread := h (fun _ => mem) fill sect j hj hne
  rw [Function.update_self] at hread
  have hlist := congrArg (fun l => l[i]?) hread
  have hi' : i < (r.table.content sect j).len := by
    change i < (r.table.off sect j).offLen
    rw [hlen]
    exact hi
  simpa [read, hi, hi'] using hlist

/-- Only the section of the operation matters. -/
theorem isolated_iff {r : Result} (hsame : SameNames sect t r.table)
    (hlen : ∀ j, j ≠ index → (r.table.off sect j).offLen = (t.off sect j).offLen) :
    Isolated t sect index r ↔ ∀ mem fill j, t.Used j → j ≠ index →
      ∀ i < (t.content sect j).len, r.mem fill mem ((r.table.content sect j).start + i) =
        mem ((t.content sect j).start + i) := by
  constructor
  · exact fun h mem fill j hj hne i hi => h.byte hj hne (hlen j hne) mem fill hi
  · intro h mem fill sect' j hj hne
    by_cases hsect : sect' = sect
    · subst hsect
      rw [Function.update_self, read, read]
      have hlen' : (r.table.content sect' j).len = (t.content sect' j).len := hlen j hne
      rw [hlen']
      refine List.map_congr_left fun i hi => ?_
      exact h (mem sect') fill j hj hne i (List.mem_range.mp hi)
    · rw [Function.update_of_ne hsect, Table.content, hsame.off sect' j hsect]
      rfl

/-- Where `$create` leaves the bytes of the section. -/
theorem mem_create {logAddr logLen : Nat} {clear grows ok : Bool}
    (hno : NoOverflow t sect index (.create logAddr logLen clear grows ok))
    (hsuccess : (t.create sect index logAddr logLen clear grows ok).success = true)
    (fill : Call → Nat → UInt8) (mem : Nat → UInt8) :
    ∃ fill' fill'' : Nat → UInt8,
      ((∀ c x, fill c x = 0) → (∀ x, fill' x = 0) ∧ ∀ x, fill'' x = 0) ∧
      (t.Shifts sect index (add64 logAddr logLen) →
        (t.create sect index logAddr logLen clear grows ok).mem fill mem =
          createBytes (moveBytes mem fill' (t.region sect index).stop
            ((t.descOff sect).stop - (t.region sect index).stop)
            (t.delta sect index (add64 logAddr logLen) (postgap sect))) fill''
            (logAddr + (t.off sect index).offStart) logLen) ∧
      (¬ t.Shifts sect index (add64 logAddr logLen) →
        (t.create sect index logAddr logLen clear grows ok).mem fill mem =
          createBytes mem fill'' (logAddr + (t.off sect index).offStart) logLen) := by
  obtain ⟨-, hsum, hstop, hend, -⟩ := hno
  obtain ⟨hextend, -, hcalls⟩ := create_success hsuccess
  have hext := extended hstop hend hextend
  rw [hext.own, add64_eq hsum] at hcalls
  have hnew : ∀ mem' : Nat → UInt8,
      (if logLen = 0 then [] else
        [Call.create (logAddr + (t.off sect index).offStart) logLen clear]).foldl
          (Call.exec fill) mem' =
        createBytes mem' (if clear then fun _ => 0 else
          fill (.create (logAddr + (t.off sect index).offStart) logLen clear))
          (logAddr + (t.off sect index).offStart) logLen := by
    intro mem'
    split
    · rename_i hzero
      rw [hzero, createBytes_zero]
      rfl
    · rfl
  refine ⟨fill (.move (t.region sect index).stop
      ((t.descOff sect).stop - (t.region sect index).stop)
      (t.delta sect index (add64 logAddr logLen) (postgap sect))),
    if clear then fun _ => 0 else
      fill (.create (logAddr + (t.off sect index).offStart) logLen clear),
    fun hfill => ⟨fun x => hfill _ x, fun x => ?_⟩, fun hs => ?_, fun hs => ?_⟩
  · split
    · rfl
    · exact hfill _ x
  · rw [Result.mem, hcalls, List.foldl_append, hnew, (hext.shifts hs).2]
    rfl
  · rw [Result.mem, hcalls, List.foldl_append, hnew]
    rcases (hext.keeps hs).2 with hnil | ⟨addr, hempty⟩
    · rw [hnil]
      rfl
    · rw [hempty]
      simp only [List.foldl_cons, List.foldl_nil, Call.exec, createBytes_zero]

/-- `$create` spares the other files exactly when `Spares` says so. -/
theorem create_isolated {logAddr logLen : Nat} {clear grows ok : Bool}
    (hno : NoOverflow t sect index (.create logAddr logLen clear grows ok))
    (hsuccess : (t.create sect index logAddr logLen clear grows ok).success = true) :
    Isolated t sect index (t.create sect index logAddr logLen clear grows ok) ↔
      Spares t sect index (.create logAddr logLen clear grows ok) := by
  have hmem := mem_create hno hsuccess
  obtain ⟨hrange, hsum, hstop, hend, hshift⟩ := hno
  obtain ⟨hextend, htable, -⟩ := create_success hsuccess
  have hext := extended hstop hend hextend
  have hborder : add64 logAddr logLen = logAddr + logLen := add64_eq hrange
  have hoff : ∀ j, t.Used j → j ≠ index → t.Shifts sect index (add64 logAddr logLen) →
      (((t.create sect index logAddr logLen clear grows ok).table.content sect j).start : Int) =
        (t.off sect j).offStart + if (t.region sect index).stop ≤ (t.off sect j).offStart then
          t.delta sect index (add64 logAddr logLen) (postgap sect) else 0 := by
    intro j hj hne hs
    obtain ⟨hpos, hfits⟩ := hshift hs
    rw [Table.content, htable, (hext.shifts hs).1 j hne]
    by_cases hbehind : (t.region sect index).stop ≤ (t.off sect j).offStart
    · rw [if_pos ⟨Nat.one_le_iff_ne_zero.mpr hj.1, hj.2, hbehind⟩, if_pos hbehind]
      exact addOff_eq (by omega) (hfits j hj)
    · rw [if_neg fun hc => hbehind hc.2.2, if_neg hbehind, Int.add_zero]
  have hbefore : ∀ j, t.Used j → j ≠ index → t.Shifts sect index (add64 logAddr logLen) →
      ¬ (t.region sect index).stop ≤ (t.off sect j).offStart →
      (t.create sect index logAddr logLen clear grows ok).table.content sect j =
        t.content sect j := by
    intro j hj hne hs hbefore
    rw [Table.content, htable, (hext.shifts hs).1 j hne, if_neg fun hc => hbefore hc.2.2]
    rfl
  have hkeep : ∀ j, j ≠ index → ¬ t.Shifts sect index (add64 logAddr logLen) →
      (t.create sect index logAddr logLen clear grows ok).table.content sect j =
        t.content sect j := by
    intro j hne hs
    rw [Table.content, htable, (hext.keeps hs).1 j hne]
    rfl
  have hlen : ∀ j, j ≠ index →
      ((t.create sect index logAddr logLen clear grows ok).table.off sect j).offLen =
        (t.off sect j).offLen := by
    intro j hne
    rw [htable]
    by_cases hs : t.Shifts sect index (add64 logAddr logLen)
    · rw [(hext.shifts hs).1 j hne]
      split <;> rfl
    · rw [(hext.keeps hs).1 j hne]
  rw [isolated_iff (sameNames_create _ _ _ _ _ _ _ _) hlen]
  constructor
  · intro h j hj hne
    have hread : ∀ x i, i < (t.content sect j).len →
        (t.create sect index logAddr logLen clear grows ok).mem (fun _ _ => 0) (mark 1 0 x)
          (((t.create sect index logAddr logLen clear grows ok).table.content sect j).start + i) =
        mark 1 0 x ((t.content sect j).start + i) := fun x i hi => h _ _ j hj hne i hi
    have hfill : ∀ x, ∃ fill' fill'' : Nat → UInt8, fill' = (fun _ => 0) ∧ fill'' = (fun _ => 0) ∧
        (t.Shifts sect index (add64 logAddr logLen) → _) ∧
        (¬ t.Shifts sect index (add64 logAddr logLen) → _) := fun x => by
      obtain ⟨fill', fill'', hzero, heq⟩ := hmem (fun _ _ => 0) (mark 1 0 x)
      obtain ⟨hz', hz''⟩ := hzero fun _ _ => rfl
      exact ⟨fill', fill'', funext hz', funext hz'', heq⟩
    by_cases hs : t.Shifts sect index (add64 logAddr logLen)
    · have hone : (1 : UInt8) ≠ 0 := by decide
      obtain ⟨hspared, hnew⟩ := spared_of_read hone (hlen j hne) (hoff j hj hne hs)
        (hshift hs).1.ne' fun x i hi => by
          obtain ⟨_, _, rfl, rfl, heq, -⟩ := hfill x
          rw [← heq hs]
          exact hread x i hi
      refine ⟨fun _ => hspared, ?_⟩
      by_cases hbehind : (t.region sect index).stop ≤ (t.off sect j).offStart
      · exact Or.inl ⟨hs, hbehind⟩
      · rw [hbefore j hj hne hs hbehind] at hnew
        exact Or.inr hnew
    · have hone : (1 : UInt8) ≠ 0 := by decide
      rw [hkeep j hne hs] at hread
      have hstays : ∀ x i, i < (t.content sect j).len →
          createBytes (moveBytes (mark 1 0 x) (fun _ => (0 : UInt8)) 0 0 0) (fun _ => 0)
            (logAddr + (t.off sect index).offStart) logLen ((t.content sect j).start + i) =
          mark 1 0 x ((t.content sect j).start + i) := fun x i hi => by
        obtain ⟨_, _, rfl, rfl, -, heq⟩ := hfill x
        rw [moveBytes_zero, ← heq hs]
        exact hread x i hi
      exact ⟨fun hs' => absurd hs' hs, Or.inr (of_read hone rfl hstays).1⟩
  · intro h mem fill j hj hne i hi
    obtain ⟨hspared, hnew⟩ := h j hj hne
    obtain ⟨fill', fill'', -, heq, heq'⟩ := hmem fill mem
    by_cases hs : t.Shifts sect index (add64 logAddr logLen)
    · rw [heq hs]
      refine (hspared hs).read (hlen j hne) (hoff j hj hne hs) ?_ mem fill' fill'' hi
      by_cases hbehind : (t.region sect index).stop ≤ (t.off sect j).offStart
      · -- What is shifted comes to lie behind what is asked for.
        have hstart := hoff j hj hne hs
        have hroom := delta_spec (add64_lt _ _) (hshift hs).1
        rw [if_pos hbehind] at hstart
        rw [Region.apart_iff]
        simp only [Region.stop, Table.region] at hbehind hstart hroom ⊢
        omega
      · rw [hbefore j hj hne hs hbehind]
        exact hnew.resolve_left fun hc => hbehind hc.2
    · rw [heq' hs, hkeep j hne hs]
      have hx : (t.content sect j).Has ((t.content sect j).start + i) :=
        ⟨Nat.le_add_right _ _, Nat.add_lt_add_left hi _⟩
      exact createBytes_stay _ _ ((hnew.resolve_left fun hc => hs hc.1) _ hx)

section Move

variable {logAddr logLen : Nat} {offset offsetMax delta : Int} {ok : Bool}

/-- `$move` moves the range of the file, or everything from there to the end of the section. -/
theorem move_success
    (hsuccess : (t.move sect index logAddr logLen offset offsetMax ok delta).success = true) :
    ok = true ∧ ¬ (offsetMax < offset ∨ signed logAddr < -offset) ∧
    if (t.off sect index).offBorder < moveBorder logAddr logLen offsetMax then
      t.move sect index logAddr logLen offset offsetMax ok delta =
        ⟨t.correctInfos sect index (add64 logAddr (t.off sect index).offStart) delta,
          [.move (add64 logAddr (t.off sect index).offStart)
            (sub64 (t.descOff sect).stop (add64 logAddr (t.off sect index).offStart)) delta], true⟩
    else
      (∀ j, j ≠ index → (t.move sect index logAddr logLen offset offsetMax ok delta).table.off sect j
        = t.off sect j) ∧
      (t.move sect index logAddr logLen offset offsetMax ok delta).calls =
        [.move (add64 logAddr (t.off sect index).offStart) logLen delta] := by
  unfold Table.move at hsuccess ⊢
  simp only at hsuccess ⊢
  split at hsuccess
  · cases hsuccess
  rename_i hcheck
  split at hsuccess
  · cases hsuccess
  rename_i hok
  refine ⟨by simpa using hok, hcheck, ?_⟩
  rw [if_neg hcheck, if_neg hok]
  by_cases hborder : (t.off sect index).offBorder < moveBorder logAddr logLen offsetMax
  · rw [if_pos hborder, if_neg (not_le.mpr hborder)]
  · rw [if_neg hborder, if_pos (not_lt.mp hborder)]
    refine ⟨fun j hne => ?_, rfl⟩
    simp only
    split
    · rw [off_setOff, if_neg hne]
    · rfl

/-- `$move` spares the other files exactly when `Spares` says so. -/
theorem move_isolated
    (hno : NoOverflow t sect index (.move logAddr logLen offset offsetMax ok delta))
    (hsuccess : (t.move sect index logAddr logLen offset offsetMax ok delta).success = true) :
    Isolated t sect index (t.move sect index logAddr logLen offset offsetMax ok delta) ↔
      Spares t sect index (.move logAddr logLen offset offsetMax ok delta) := by
  obtain ⟨hlow, hhigh, hfits, hbase, hend, hstarts⟩ := hno
  obtain ⟨hok, hcheck, hresult⟩ := move_success hsuccess
  have hback := move_back hlow hfits hcheck
  have hsum : add64 logAddr (t.off sect index).offStart =
      logAddr + (t.off sect index).offStart := add64_eq (by omega)
  have hone : (1 : UInt8) ≠ 0 := by decide
  rw [hsum] at hresult
  unfold Spares
  simp only
  split at hresult
  · rename_i hborder
    simp only [if_pos hborder]
    rw [sub64_eq hbase hend] at hresult
    rw [hresult]
    have hlen : ∀ j, j ≠ index → ((t.correctInfos sect index
        (logAddr + (t.off sect index).offStart) delta).off sect j).offLen =
        (t.off sect j).offLen := by
      intro j hne
      rw [off_correctInfos, if_neg hne]
      split <;> rfl
    have hstart : ∀ j, t.Used j → j ≠ index → (((t.correctInfos sect index
        (logAddr + (t.off sect index).offStart) delta).content sect j).start : Int) =
        (t.off sect j).offStart +
          if logAddr + (t.off sect index).offStart ≤ (t.off sect j).offStart then delta else 0 := by
      intro j hj hne
      rw [Table.content, off_correctInfos, if_neg hne]
      by_cases hbehind : logAddr + (t.off sect index).offStart ≤ (t.off sect j).offStart
      · rw [if_pos ⟨Nat.one_le_iff_ne_zero.mpr hj.1, hj.2, hbehind⟩, if_pos hbehind]
        exact addOff_eq (by omega) (hstarts j hj).2
      · rw [if_neg fun hc => hbehind hc.2.2, if_neg hbehind, Int.add_zero]
    rw [isolated_iff (sameNames_correctInfos _ _ _ _ _) hlen]
    constructor
    · intro h hdelta j hj hne
      have hread : ∀ x i, i < (t.content sect j).len →
          createBytes (moveBytes (mark 1 0 x) (fun _ => (0 : UInt8))
            (logAddr + (t.off sect index).offStart)
            ((t.descOff sect).stop - (logAddr + (t.off sect index).offStart)) delta) (fun _ => 0)
            0 0 (((t.correctInfos sect index (logAddr + (t.off sect index).offStart)
              delta).content sect j).start + i) = mark 1 0 x ((t.content sect j).start + i) := by
        intro x i hi
        rw [createBytes_zero]
        exact h (mark 1 0 x) (fun _ _ => 0) j hj hne i hi
      exact (spared_of_read hone (hlen j hne) (hstart j hj hne) hdelta hread).1
    · intro h mem fill j hj hne i hi
      simp only [Result.mem, List.foldl_cons, List.foldl_nil, Call.exec]
      by_cases hdelta : delta = 0
      · subst hdelta
        have hsame := hstart j hj hne
        rw [ite_self, Int.add_zero] at hsame
        rw [moveBytes_zero, Int.ofNat_inj.mp hsame]
        rfl
      · have hnew : Region.Apart ((t.correctInfos sect index
            (logAddr + (t.off sect index).offStart) delta).content sect j) ⟨0, 0⟩ :=
          (Region.apart_of_len rfl).symm
        have := (h hdelta j hj hne).read (hlen j hne) (hstart j hj hne) hnew mem
          (fill (.move (logAddr + (t.off sect index).offStart)
            ((t.descOff sect).stop - (logAddr + (t.off sect index).offStart)) delta))
          (fun _ => 0) hi
        rwa [createBytes_zero] at this
  · rename_i hborder
    simp only [if_neg hborder]
    obtain ⟨hoff, hcalls⟩ := hresult
    have hcontent : ∀ j, j ≠ index →
        (t.move sect index logAddr logLen offset offsetMax ok delta).table.content sect j =
          t.content sect j := fun j hne => by rw [Table.content, hoff j hne]; rfl
    rw [isolated_iff (sameNames_move _ _ _ _ _ _ _ _ _) fun j hne => by rw [hoff j hne]]
    simp only [Result.mem, hcalls, List.foldl_cons, List.foldl_nil, Call.exec]
    constructor
    · intro h hdelta j hj hne
      have hread : ∀ x i, i < (t.content sect j).len →
          createBytes (moveBytes (mark 1 0 x) (fun _ => (0 : UInt8))
            (logAddr + (t.off sect index).offStart) logLen delta) (fun _ => 0)
            0 0 ((t.content sect j).start + i) = mark 1 0 x ((t.content sect j).start + i) := by
        intro x i hi
        have := h (mark 1 0 x) (fun _ _ => 0) j hj hne i hi
        rwa [hcontent j hne] at this
      exact stay_of_read hone hdelta hread
    · intro h mem fill j hj hne i hi
      rw [hcontent j hne]
      by_cases hdelta : delta = 0
      · rw [hdelta, moveBytes_zero]
      · obtain ⟨hsrc, hdst⟩ := h hdelta j hj hne
        have hx : (t.content sect j).Has ((t.content sect j).start + i) :=
          ⟨Nat.le_add_right _ _, Nat.add_lt_add_left hi _⟩
        exact moveBytes_stay mem _ (hsrc _ hx) (hdst _ hx)

end Move

/-- Two files of ten bytes, one behind the other. -/
def twoFiles : Table :=
  { newDir dirMax with
    entryCount := 3
    descOff := fun _ => ⟨0, 32788⟩
    entry := fun i => ⟨fun _ => ⟨if i = 2 then 16394 else 0, 10, 16394⟩, [97]⟩ }

end Athomux.DirSimple
