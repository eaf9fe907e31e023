import Athomux.DirSimple.Layout

/-!
# The length of a file after `$create`

A file that grows at the end of the data area gets the length that was asked for. A file with data
behind it is made longer by all that the data is shifted by, with the gap. A length that is written
through a pointer that is not good any more is nothing to rely on.
-/

open Lib

namespace Athomux.DirSimple

variable {t : Table} {sect index : Nat}

/-- The offsets of a file are `len_t`. -/
structure Offsets.Narrow (o : Offsets) : Prop where
  len : o.offLen < addrSpace
  border : o.offBorder < addrSpace

/-- `$create` up to `border` shifts what lies behind the file. -/
def Table.ShiftsRest (t : Table) (sect index border : Nat) : Prop :=
  t.Grows sect index border ∧ t.regionStop sect index < (t.descOff sect).stop

/-- The region has room for the gap behind the file, or the sum wraps. -/
def Table.GapInside (t : Table) (sect index border : Nat) : Prop :=
  let o := t.off sect index
  o.offLen + postgap sect ≤ o.offBorder ∧ o.offBorder ≤ border + o.offLen + postgap sect ∨
    o.offBorder + addrSpace ≤ border + o.offLen + postgap sect

/-- The end of what was asked for is an address, and a file that is shifted from has its gap inside. -/
def Table.LengthKept (t : Table) (sect index logAddr logLen : Nat) : Prop :=
  logAddr + logLen < addrSpace ∧
    (t.ShiftsRest sect index (logAddr + logLen) → t.GapInside sect index (logAddr + logLen))

/-! ## The length after each part -/

/-- A difference as `offs_t` is the same in 64 bits. -/
theorem signed_emod (a : Int) : signed a % addrSpace = a % addrSpace := by
  unfold signed
  split
  · exact Int.emod_emod_of_dvd _ (dvd_refl _)
  · rw [Int.sub_emod, Int.emod_self, Int.sub_zero, Int.emod_emod_of_dvd _ (dvd_refl _),
      Int.emod_emod_of_dvd _ (dvd_refl _)]

theorem addOff_delta {border gap : Nat} (hgrow : 0 < signed (border - (t.off sect index).offBorder))
    (a : Nat) :
    (addOff a (t.delta sect index border gap) : Int) =
      (a + border + gap - (t.off sect index).offBorder : Int) % addrSpace := by
  have hdelta : t.delta sect index border gap % addrSpace =
      (border - (t.off sect index).offBorder + gap : Int) % addrSpace := by
    rw [Table.delta, if_pos hgrow, signed_emod, Int.add_emod, signed_emod, ← Int.add_emod]
  rw [addOff, Int.toNat_of_nonneg (Int.emod_nonneg _ (by decide)), Int.add_emod, hdelta,
    ← Int.add_emod]
  congr 1
  omega

theorem changeLen_len {newLen : Nat} {calls : List Call}
    (h : (t.changeLen sect index newLen calls).success = true) :
    newLen ≤ (t.off sect index).offBorder ∧
      ((t.changeLen sect index newLen calls).table.off sect index).offLen =
        max (t.off sect index).offLen newLen := by
  unfold Table.changeLen at h ⊢
  simp only at h ⊢
  split at h
  · cases h
  · rename_i hle
    rw [if_neg hle]
    refine ⟨not_lt.mp hle, ?_⟩
    split
    · rename_i hlt
      rw [off_setOff, if_pos rfl]
      exact (max_eq_right hlt.le).symm
    · rename_i hge
      exact (max_eq_left (not_lt.mp hge)).symm

theorem changeSize_shifting {border gap : Nat} {ok : Bool} (hshift : t.ShiftsRest sect index border)
    (h : (t.changeSize sect index border border gap ok).success = true) :
    border ≤ addOff (t.off sect index).offBorder (t.delta sect index border gap) ∧
      ((t.changeSize sect index border border gap ok).table.off sect index).offLen =
        max (addOff (t.off sect index).offLen (t.delta sect index border gap)) border := by
  unfold Table.changeSize at h ⊢
  simp only [lt_irrefl, if_false, if_pos hshift.1.2, if_pos hshift.2] at h ⊢
  cases ok with
  | false => cases h
  | true =>
    have hlen := changeLen_len h
    rwa [off_correctInfos, if_pos rfl] at hlen

theorem changeSize_still {border gap : Nat} {ok : Bool} (hlong : (t.off sect index).offLen < border)
    (hshift : ¬t.ShiftsRest sect index border)
    (h : (t.changeSize sect index border border gap ok).success = true) :
    ((t.changeSize sect index border border gap ok).table.off sect index).offLen = border := by
  have hmax : max (t.off sect index).offLen border = border := max_eq_right hlong.le
  unfold Table.changeSize at h ⊢
  simp only [lt_irrefl, if_false] at h ⊢
  by_cases hgrow : 0 < signed (border - (t.off sect index).offBorder)
  · have hstop : ¬t.regionStop sect index < (t.descOff sect).stop := fun hlt =>
      hshift ⟨⟨hlong, hgrow⟩, hlt⟩
    simp only [if_pos hgrow, if_neg hstop] at h ⊢
    cases ok with
    | false => cases h
    | true =>
      have hlen := (changeLen_len h).2
      rw [off_setOff, if_pos rfl] at hlen
      exact hlen.trans hmax
  · simp only [if_neg hgrow] at h ⊢
    exact (changeLen_len h).2.trans hmax

/-- A `$create` that succeeds leaves the table as `change_size` has. -/
theorem create_extends {logAddr logLen : Nat} {clear grows ok : Bool}
    (h : (t.create sect index logAddr logLen clear grows ok).success = true) :
    (t.extend sect index (add64 logAddr logLen) grows).success = true ∧
      (t.create sect index logAddr logLen clear grows ok).table =
        (t.extend sect index (add64 logAddr logLen) grows).table := by
  unfold Table.create at h ⊢
  simp only at h ⊢
  cases hext : (t.extend sect index (add64 logAddr logLen) grows).success with
  | false => simp [hext] at h
  | true =>
    simp only [hext, Bool.true_eq_false, if_false] at h ⊢
    refine ⟨trivial, ?_⟩
    repeat' split
    all_goals rfl

/-! ## The law -/

/-- What a shift adds to the length stays within `border` exactly when the gap was inside. -/
theorem shifted_le_iff {border : Nat} (hshift : t.ShiftsRest sect index border)
    (hnarrow : (t.off sect index).Narrow) (hborder : border < addrSpace)
    (hfits : border ≤ addOff (t.off sect index).offBorder
      (t.delta sect index border (postgap sect))) :
    addOff (t.off sect index).offLen (t.delta sect index border (postgap sect)) ≤ border ↔
      t.GapInside sect index border := by
  obtain ⟨hlen, hbord⟩ := hnarrow
  have hlong := hshift.1.1
  have hb := @addOff_delta t sect index border (postgap sect) hshift.1.2 (t.off sect index).offBorder
  have hl := @addOff_delta t sect index border (postgap sect) hshift.1.2 (t.off sect index).offLen
  have hgap : postgap sect ≤ 16384 := by
    unfold postgap dirSection defaultTransfer
    omega
  unfold Table.GapInside
  simp only
  unfold addrSpace at *
  omega

/-- The length after the change of the size. -/
theorem extend_len {border : Nat} {ok : Bool}
    (h : (t.extend sect index border ok).success = true) :
    (¬t.ShiftsRest sect index border ∧
        ((t.extend sect index border ok).table.off sect index).offLen =
          max (t.off sect index).offLen border) ∨
      (t.ShiftsRest sect index border ∧
        border ≤ addOff (t.off sect index).offBorder (t.delta sect index border (postgap sect)) ∧
        ((t.extend sect index border ok).table.off sect index).offLen =
          max (addOff (t.off sect index).offLen (t.delta sect index border (postgap sect))) border) := by
  unfold Table.extend at h ⊢
  by_cases hlong : (t.off sect index).offLen < border
  · simp only [if_pos hlong] at h ⊢
    by_cases hshift : t.ShiftsRest sect index border
    · exact Or.inr ⟨hshift, changeSize_shifting hshift h⟩
    · refine Or.inl ⟨hshift, ?_⟩
      rw [changeSize_still hlong hshift h, max_eq_right hlong.le]
  · simp only [if_neg hlong]
    exact Or.inl ⟨fun hshift => hlong hshift.1.1, (max_eq_left (not_lt.mp hlong)).symm⟩

/-- What `$create` may leave. With a pointer that is not good any more this is anything. -/
def Table.Creates (t : Table) (sect index logAddr logLen : Nat) (clear grows ok : Bool) (r : Result) :
    Prop :=
  t.CreateHeld sect index logAddr logLen grows → r = t.create sect index logAddr logLen clear grows ok

/-- The length, as long as the pointers are good. -/
theorem create_len_iff {logAddr logLen : Nat} {clear grows ok : Bool}
    (hnarrow : (t.off sect index).Narrow)
    (h : (t.create sect index logAddr logLen clear grows ok).success = true) :
    ((t.create sect index logAddr logLen clear grows ok).table.off sect index).offLen =
        max (t.off sect index).offLen (logAddr + logLen) ↔
      t.LengthKept sect index logAddr logLen := by
  obtain ⟨hext, htable⟩ := create_extends h
  rw [htable]
  have hborder : add64 logAddr logLen < addrSpace := add64_lt _ _
  have hcases := extend_len hext
  by_cases hsum : logAddr + logLen < addrSpace
  · rw [add64_eq hsum] at hcases hborder ⊢
    rw [Table.LengthKept]
    rcases hcases with ⟨hshift, hlen⟩ | ⟨hshift, hfits, hlen⟩
    · simp [hlen, hsum, hshift]
    · have hkept := shifted_le_iff hshift hnarrow hborder hfits
      rw [hlen, max_eq_right hshift.1.1.le]
      simp only [hsum, hshift, true_imp_iff, true_and, ← hkept, max_eq_right_iff]
  · -- no length reaches an end that is no address
    have hlt : ((t.extend sect index (add64 logAddr logLen) grows).table.off sect index).offLen <
        addrSpace := by
      rcases hcases with ⟨-, hlen⟩ | ⟨-, -, hlen⟩
      · rw [hlen]
        exact max_lt hnarrow.len hborder
      · rw [hlen]
        exact max_lt (addOff_lt _ _) hborder
    refine iff_of_false (fun heq => ?_) fun hkept => hsum hkept.1
    have hle := le_max_right (t.off sect index).offLen (logAddr + logLen)
    omega

/-- A pointer that is not good any more may leave a file longer by one byte. -/
theorem creates_astray {logAddr logLen : Nat} {clear grows ok : Bool}
    (hnot : ¬t.CreateHeld sect index logAddr logLen grows) (len : Nat) :
    ∃ r, t.Creates sect index logAddr logLen clear grows ok r ∧ r.success = true ∧
      (r.table.off sect index).offLen = len + 1 := by
  refine ⟨⟨t.setOff sect index ⟨0, len + 1, 0⟩, [], true⟩, fun hheld => absurd hheld hnot, rfl, ?_⟩
  rw [off_setOff, if_pos rfl]

/-- **The length of a file** after a `$create` is the larger one of the old length and the end of what
was asked for exactly when the pointers stay good and the file has no data behind it that is shifted,
or its gap is inside. -/
theorem create_length_iff {logAddr logLen : Nat} {clear grows ok : Bool}
    (hnarrow : (t.off sect index).Narrow)
    (h : ∃ r, t.Creates sect index logAddr logLen clear grows ok r ∧ r.success = true) :
    (∀ r, t.Creates sect index logAddr logLen clear grows ok r → r.success = true →
        (r.table.off sect index).offLen = max (t.off sect index).offLen (logAddr + logLen)) ↔
      t.CreateHeld sect index logAddr logLen grows ∧ t.LengthKept sect index logAddr logLen := by
  by_cases hheld : t.CreateHeld sect index logAddr logLen grows
  · have honly : ∀ r, t.Creates sect index logAddr logLen clear grows ok r ↔
        r = t.create sect index logAddr logLen clear grows ok := fun r => by simp [Table.Creates, hheld]
    obtain ⟨r, hr, hsuccess⟩ := h
    obtain rfl := (honly r).mp hr
    simp only [honly, forall_eq, hsuccess, forall_const, hheld, true_and]
    exact create_len_iff hnarrow hsuccess
  · refine iff_of_false (fun hall => ?_) fun hkept => hheld hkept.1
    obtain ⟨r, hr, hsuccess, hlen⟩ := creates_astray hheld
      (max (t.off sect index).offLen (logAddr + logLen))
    have hmax := hall r hr hsuccess
    omega

/-- The table of a new directory with a first file. -/
def oneFile : Table := (newDir dirMax).newEntry 1 [97]

theorem oneFile_length :
    (∀ r, oneFile.Creates 0 1 0 10 false true true r → r.success = true →
        (r.table.off 0 1).offLen = max (oneFile.off 0 1).offLen (0 + 10)) ↔
      oneFile.CreateHeld 0 1 0 10 true ∧ oneFile.LengthKept 0 1 0 10 :=
  create_length_iff ⟨by decide +kernel, by decide +kernel⟩
    ⟨oneFile.create 0 1 0 10 false true true, fun _ => rfl, by decide +kernel⟩

/-- A second file has data, and 10 bytes for the first one make it 16394 bytes long. -/
theorem create_length_exceeds :
    ∃ s : Sys, Reach pcStep Init Held s ∧ (s.table.off 0 1).offLen = 0 ∧
      s.table.CreateHeld 0 1 0 10 true ∧ (s.table.create 0 1 0 10 true true true).success = true ∧
      ((s.table.create 0 1 0 10 true true true).table.off 0 1).offLen = 16394 := by
  have hrun : (run pcStep Held empty ([.init 0 [97] true, .init 1 [98] true,
      .create 1 0 0 10 true true true].map (·, empty))).map (fun s => ((s.table.off 0 1).offLen,
        decide (s.Held (.create 0 0 0 10 true true true)), s.outs 0,
        (s.table.create 0 1 0 10 true true true).success,
        ((s.table.create 0 1 0 10 true true true).table.off 0 1).offLen)) =
      some (0, true, 1, true, 16394) := by
    decide +kernel
  obtain ⟨s, hs, heq⟩ := Option.map_eq_some_iff.mp hrun
  simp only [Prod.mk.injEq, decide_eq_true_eq] at heq
  obtain ⟨hlen, hheld, hout, hcreate⟩ := heq
  rw [Sys.Held, hout] at hheld
  exact ⟨s, (Reach.start ⟨rfl, fun _ => rfl⟩).of_run hs, hlen, hheld, hcreate⟩

end Athomux.DirSimple
