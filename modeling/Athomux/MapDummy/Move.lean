import Athomux.MapDummy.Permutation

/-! # Flags and contents -/

open Lib

namespace Athomux.MapDummy

variable {s t : Map} {memInit : Bool} {source target len offs : Nat}

/-- The flag and the content of a block. -/
def Map.block (s : Map) (j : Nat) : Bool × Block := (s.used j, s.table (s.permut j))

/-- The `len` blocks from `source` on have gone to `target`. -/
structure Moved (s t : Map) (source target len : Nat) : Prop where
  moved : ∀ i < len, t.block (target + i) = s.block (source + i)
  vacated : ∀ i < len, (∀ k < len, source + i ≠ target + k) → t.used (source + i) = false
  kept : ∀ j < maxElems, ¬ (source ≤ j ∧ j < source + len) → ¬ (target ≤ j ∧ j < target + len) →
    t.block j = s.block j

theorem moved_zero (s : Map) (source target : Nat) : Moved s s source target 0 where
  moved i hi := absurd hi (Nat.not_lt_zero i)
  vacated i hi := absurd hi (Nat.not_lt_zero i)
  kept _ _ _ _ := rfl

theorem moved_self (s : Map) (source len : Nat) : Moved s s source source len where
  moved _ _ := rfl
  vacated i hi h := absurd rfl (h i hi)
  kept _ _ _ _ := rfl

/-! ## All at once -/

theorem moved_movedUp (hoffs : 0 < offs) :
    Moved s (movedUp s source len offs) source (source + offs) len where
  moved i hi := by
    have hfrom : source + offs + i - (source + offs) + source = source + i := by omega
    simp only [Map.block, movedUp, move1_eq, Function.comp_apply, from1, memset, memmove]
    rw [if_neg (by omega), if_pos (by omega), if_neg (by omega), if_pos (by omega), hfrom]
  vacated i hi hno := by
    have hlow : i < offs := by
      by_contra hge
      exact hno (i - offs) (by omega) (by omega)
    simp only [movedUp, memset]
    rw [if_pos (by omega)]
  kept j _ hsrc hdst := by
    simp only [Map.block, movedUp, move1_eq, Function.comp_apply, from1, memset, memmove]
    rw [if_neg (by omega), if_neg (by omega), if_neg (by omega), if_neg (by omega)]

theorem moved_movedDown (hoffs : 0 < offs) (habove : len = 0 ∨ offs ≤ source) :
    Moved s (movedDown s source len offs) source (source - offs) len where
  moved i hi := by
    have hfrom : source - offs + i - (source - offs) + source = source + i := by omega
    simp only [Map.block, movedDown, move2_eq, Function.comp_apply, from2, memset, memmove]
    rw [if_neg (by omega), if_pos (by omega), if_neg (by omega), if_pos (by omega), hfrom]
  vacated i hi hno := by
    have hup : len ≤ i + offs := by
      by_contra hlt
      exact hno (i + offs) (by omega) (by omega)
    simp only [movedDown, memset]
    rw [if_pos (by omega)]
  kept j _ hsrc hdst := by
    simp only [Map.block, movedDown, move2_eq, Function.comp_apply, from2, memset, memmove]
    rw [if_neg (by omega), if_neg (by omega), if_neg (by omega), if_neg (by omega)]

/-! ## One after the other -/

theorem copy2_block (h : IsPermutation maxElems s.permut) {i j : Nat} (hne : i ≠ j)
    (hi : i < maxElems) (hj : j < maxElems) :
    (copy2 s i j).block j = s.block i ∧ (copy2 s i j).used i = false ∧
    ∀ k < maxElems, k ≠ i → k ≠ j → (copy2 s i j).block k = s.block k := by
  have hperm := h.exchange hi hj
  -- Only what is reached through `i` is overwritten.
  have htable : ∀ k < maxElems, k ≠ i →
      (copy2 s i j).table ((copy2 s i j).permut k) = s.table ((copy2 s i j).permut k) := by
    intro k hk hki
    exact Function.update_of_ne (fun heq => hki (hperm.injective hk hi heq)) _ _
  refine ⟨?_, Function.update_self _ _ _, ?_⟩
  · rw [Map.block, htable j hj (Ne.symm hne)]
    simp only [copy2, exchange, Map.block]
    rw [Function.update_of_ne (Ne.symm hne), Function.update_self, if_neg (Ne.symm hne), if_pos trivial]
  · intro k hk hki hkj
    rw [Map.block, htable k hk hki]
    simp only [copy2, exchange, Map.block]
    rw [Function.update_of_ne hki, Function.update_of_ne hkj, if_neg hki, if_neg hkj]

theorem moved_copiedUp {n : Nat} (h : IsPermutation maxElems s.permut) (hoffs : 0 < offs)
    (hn : source + n + offs ≤ maxElems) :
    Moved s (copiedUp s source offs n) source (source + offs) n := by
  induction n generalizing s with
  | zero => exact moved_zero s _ _
  | succ n ih =>
    have hsrc : source + n < maxElems := by omega
    have hdst : source + n + offs < maxElems := by omega
    obtain ⟨hcopied, hfree, hother⟩ := copy2_block h (by omega) hsrc hdst
    obtain ⟨hmoved, hvacated, hkept⟩ := ih (s := copy2 s (source + n) (source + n + offs)) (h.exchange hsrc hdst) (by omega)
    refine ⟨fun i hi => ?_, fun i hi hno => ?_, fun j hj h1 h2 => ?_⟩
    · rcases Nat.lt_or_eq_of_le (Nat.le_of_lt_succ hi) with hlt | rfl
      · exact (hmoved i hlt).trans (hother _ (by omega) (by omega) (by omega))
      · have := hkept (source + i + offs) hdst (by omega) (by omega)
        rw [hcopied] at this
        rw [← this]
        congr 1
        omega
    · rcases Nat.lt_or_eq_of_le (Nat.le_of_lt_succ hi) with hlt | rfl
      · exact hvacated i hlt fun k hk => hno k (by omega)
      · have hlow : i < offs := by
          by_contra hge
          exact hno (i - offs) (by omega) (by omega)
        exact (congrArg Prod.fst (hkept _ hsrc (by omega) (by omega))).trans hfree
    · exact (hkept j hj (by omega) (by omega)).trans (hother j hj (by omega) (by omega))

theorem moved_copiedDown {n : Nat} (h : IsPermutation maxElems s.permut) (hoffs : 0 < offs)
    (habove : n = 0 ∨ offs ≤ source) (hn : source + n ≤ maxElems) :
    Moved s (copiedDown s source offs n) source (source - offs) n := by
  induction n generalizing s source with
  | zero => exact moved_zero s _ _
  | succ n ih =>
    have hle : offs ≤ source := habove.resolve_left (by omega)
    have hsrc : source < maxElems := by omega
    have hdst : source - offs < maxElems := by omega
    obtain ⟨hcopied, hfree, hother⟩ := copy2_block h (by omega) hsrc hdst
    obtain ⟨hmoved, hvacated, hkept⟩ :=
      ih (s := copy2 s source (source - offs)) (h.exchange hsrc hdst) (by omega)
        (show source + 1 + n ≤ maxElems by omega)
    refine ⟨fun i hi => ?_, fun i hi hno => ?_, fun j hj h1 h2 => ?_⟩
    · cases i with
      | zero => exact (hkept _ hdst (by omega) (by omega)).trans hcopied
      | succ i =>
        have := (hmoved i (by omega)).trans (hother _ (by omega) (by omega) (by omega))
        rw [show source - offs + (i + 1) = source + 1 - offs + i by omega, copiedDown, this]
        congr 1
        omega
    · cases i with
      | zero =>
        have hup : n < offs := by
          by_contra hge
          exact hno offs (by omega) (by omega)
        exact (congrArg Prod.fst (hkept _ hsrc (by omega) (by omega))).trans hfree
      | succ i =>
        rw [show source + (i + 1) = source + 1 + i by omega]
        refine hvacated i (by omega) fun k hk heq => hno (k + 1) (by omega) (by omega)
    · exact (hkept j hj (by omega) (by omega)).trans (hother j hj (by omega) (by omega))

/-! ## `$move` of whole blocks -/

/-- A `$move` whose address, length and offset are multiples of the block size. -/
def ofBlocks (source len : Nat) (off offsetMax : Int) : MoveArgs :=
  ⟨source * defaultTransfer, len * defaultTransfer, off * defaultTransfer, offsetMax⟩

theorem source_ofBlocks (source len : Nat) (off offsetMax : Int) :
    (ofBlocks source len off offsetMax).source = source :=
  Nat.mul_div_cancel _ (by decide)

theorem len_ofBlocks (source len : Nat) (off offsetMax : Int) :
    (ofBlocks source len off offsetMax).len = len :=
  Nat.mul_div_cancel _ (by decide)

theorem offs_ofBlocks (source len : Nat) (off offsetMax : Int) :
    (ofBlocks source len off offsetMax).offs = off.natAbs := by
  rw [MoveArgs.offs, ofBlocks, Int.natAbs_mul, Int.natAbs_natCast]
  exact Nat.mul_div_cancel _ (by decide)

theorem blockIndex_mul {j : Nat} (hj : j < 2 ^ 31) : blockIndex (j * defaultTransfer) = j := by
  rw [blockIndex, Nat.mul_div_cancel _ (by decide)]
  exact toInt_eq (by omega) (by omega)

/-- The target of `_copy`, which ends up below 0 if the block would. -/
theorem blockIndex_target {j : Nat} (hj : j + offs < 2 ^ 31) :
    blockIndex (((j * defaultTransfer : Nat) + -(offs : Int) * defaultTransfer) % addrSpace).toNat =
      (j : Int) - offs := by
  have hlin : ((j * defaultTransfer : Nat) + -(offs : Int) * defaultTransfer) % addrSpace =
      (((j : Int) - offs) * 4096) % 2 ^ 64 := by
    simp only [defaultTransfer, addrSpace]
    congr 1
    push_cast
    omega
  have hdiv : (((((j : Int) - offs) * 4096) % 2 ^ 64).toNat / 4096 : Nat) =
      ((j : Int) - offs) % 2 ^ 52 := by omega
  rw [hlin, blockIndex, defaultTransfer, hdiv, toInt, Int.bmod_def]
  omega

theorem downLoop_eq {n : Nat} (s : Map) (hfits : source + n + offs < 2 ^ 31) :
    downLoop (-(offs : Int) * defaultTransfer) n s (source * defaultTransfer) = .error .fatal ∨
    (n = 0 ∨ offs ≤ source ∧ source + n ≤ maxElems) ∧
      downLoop (-(offs : Int) * defaultTransfer) n s (source * defaultTransfer) =
        .ok (copiedDown s source offs n) := by
  induction n generalizing s source with
  | zero => exact Or.inr ⟨Or.inl rfl, rfl⟩
  | succ n ih =>
    simp only [downLoop, copy]
    rw [blockIndex_mul (by omega), blockIndex_target (by omega)]
    split
    · exact Or.inl rfl
    · rename_i hcheck
      have hnext : source * defaultTransfer + defaultTransfer = (source + 1) * defaultTransfer :=
        (Nat.succ_mul _ _).symm
      have htarget : ((source : Int) - offs).toNat = source - offs := by omega
      rw [hnext, htarget, Int.toNat_natCast]
      rcases ih (copy2 s source (source - offs)) (show source + 1 + n + offs < 2 ^ 31 by omega) with
        hfatal | ⟨hn, heq⟩
      · exact Or.inl hfatal
      · exact Or.inr ⟨Or.inr ⟨by omega, by omega⟩, heq⟩

/-- When `$move` does what it should. -/
def Stays (memInit : Bool) (a : MoveArgs) : Prop := memInit = true ∨ Above a

/-- `$move` ends the process, or it moves the blocks. -/
def Moves (s : Map) (source len : Nat) (off : Int) (r : Except Fault Map) : Prop :=
  r = .error .fatal ∨ ∃ t, r = .ok t ∧ (len = 0 ∨ 0 ≤ (source : Int) + off) ∧
    Moved s t source ((source : Int) + off).toNat len

section

variable {off offsetMax : Int}

theorem moves_up (s : Map) (hfits : Fits (ofBlocks source len off offsetMax)) (hpos : 0 < off) :
    Moves s source len off (moveUp s (ofBlocks source len off offsetMax)) := by
  have heq := moveUp_eq s hfits (Int.mul_pos hpos (by decide))
  rw [source_ofBlocks, len_ofBlocks, offs_ofBlocks] at heq
  have htarget : ((source : Int) + off).toNat = source + off.natAbs := by omega
  rw [Moves, heq, htarget]
  split
  · exact Or.inl rfl
  · exact Or.inr ⟨_, rfl, by omega, moved_movedUp (by omega)⟩

theorem moves_down (s : Map) (hfits : Fits (ofBlocks source len off offsetMax)) (hneg : off < 0)
    (habove : len = 0 ∨ off.natAbs ≤ source) :
    Moves s source len off (moveDown s (ofBlocks source len off offsetMax)) := by
  have heq := moveDown_eq s hfits (Int.mul_neg_of_neg_of_pos hneg (by decide))
  rw [source_ofBlocks, len_ofBlocks, offs_ofBlocks, if_pos habove] at heq
  have htarget : ((source : Int) + off).toNat = source - off.natAbs := by omega
  rw [Moves, heq, htarget]
  split
  · exact Or.inl rfl
  · exact Or.inr ⟨_, rfl, by omega, moved_movedDown (by omega) habove⟩

theorem Moved.congr {s' : Map} (h : Moved s' t source target len)
    (hblock : ∀ j, s'.block j = s.block j) : Moved s t source target len where
  moved i hi := (h.moved i hi).trans (hblock _)
  vacated := h.vacated
  kept j hj h1 h2 := (h.kept j hj h1 h2).trans (hblock j)

theorem moves_upEach (h : IsPermutation maxElems s.permut)
    (hfits : Fits (ofBlocks source len off offsetMax)) (hpos : 0 < off) :
    Moves s source len off (moveUpEach s (ofBlocks source len off offsetMax)) := by
  have hrest : (ofBlocks source len off offsetMax).logLen % defaultTransfer = 0 :=
    Nat.mul_mod_left _ _
  have heq := moveUpEach_eq s hfits hrest (Int.mul_pos hpos (by decide))
  rw [source_ofBlocks, len_ofBlocks, offs_ofBlocks] at heq
  have htarget : ((source : Int) + off).toNat = source + off.natAbs := by omega
  rw [Moves, htarget]
  rcases heq with heq | ⟨hn, heq⟩
  · exact Or.inl heq
  · refine Or.inr ⟨_, heq, by omega, ?_⟩
    exact Moved.congr (moved_copiedUp h (by omega) hn) fun _ => rfl

theorem moveDownEach_eq (s : Map) (hfits : Fits (ofBlocks source len off offsetMax))
    (hneg : off < 0) :
    moveDownEach s (ofBlocks source len off offsetMax) = .error .fatal ∨
    (len = 0 ∨ off.natAbs ≤ source ∧ source + len ≤ maxElems) ∧
      moveDownEach s (ofBlocks source len off offsetMax) =
        .ok (copiedDown s source off.natAbs len) := by
  have hlt : source + len + off.natAbs < 2 ^ 31 := by
    have := hfits
    rwa [Fits, source_ofBlocks, len_ofBlocks, offs_ofBlocks] at this
  have hend : add64 (source * defaultTransfer) (len * defaultTransfer) =
      source * defaultTransfer + len * defaultTransfer := by
    refine add64_eq ?_
    simp only [defaultTransfer, addrSpace]
    omega
  have hcount : (source * defaultTransfer + len * defaultTransfer - source * defaultTransfer) /
      defaultTransfer = len := by
    rw [Nat.add_sub_cancel_left]
    exact Nat.mul_div_cancel _ (by decide)
  have hoff : off = -(off.natAbs : Int) := by omega
  have hloop := downLoop_eq s hlt
  rw [← hoff] at hloop
  simp only [moveDownEach, ofBlocks, hend, hcount]
  exact hloop

theorem moves_downEach (h : IsPermutation maxElems s.permut)
    (hfits : Fits (ofBlocks source len off offsetMax)) (hneg : off < 0) :
    Moves s source len off (moveDownEach s (ofBlocks source len off offsetMax)) := by
  have htarget : ((source : Int) + off).toNat = source - off.natAbs := by omega
  rw [Moves, htarget]
  rcases moveDownEach_eq s hfits hneg with hfatal | ⟨hn, heq⟩
  · exact Or.inl hfatal
  · refine Or.inr ⟨_, heq, by omega, ?_⟩
    rcases hn with rfl | ⟨hle, hn⟩
    · exact moved_zero s _ _
    · exact moved_copiedDown h (by omega) (Or.inr hle) hn

theorem moves_move (h : memInit = true → IsPermutation maxElems s.permut)
    (hfits : Fits (ofBlocks source len off offsetMax))
    (hstays : Stays memInit (ofBlocks source len off offsetMax)) :
    Moves s source len off (move memInit s (ofBlocks source len off offsetMax)) := by
  unfold move
  split
  · exact Or.inl rfl
  split
  · exact Or.inl rfl
  split
  · rename_i hpos
    have hpos : 0 < off := pos_of_mul_pos_left hpos (by decide)
    split
    · rename_i hinit
      exact moves_upEach (h hinit) hfits hpos
    · exact moves_up s hfits hpos
  split
  · rename_i hneg
    have hlt : off < 0 := by
      simp only [ofBlocks, defaultTransfer] at hneg
      omega
    split
    · rename_i hinit
      exact moves_downEach (h hinit) hfits hlt
    · rename_i hinit
      have habove := hstays.resolve_left hinit hneg
      rw [source_ofBlocks, len_ofBlocks, offs_ofBlocks] at habove
      exact moves_down s hfits hlt habove
  · rename_i hpos hneg
    have hzero : off = 0 := by
      simp only [ofBlocks, defaultTransfer] at hpos hneg
      omega
    subst hzero
    rw [Moves, Int.add_zero, Int.toNat_natCast]
    exact Or.inr ⟨s, rfl, by omega, moved_self s _ _⟩

/-! ## Whole runs -/

/-- Each move fits and does not go below the first block. -/
def StaysAll (memInit : Bool) (_ : Map) : Event → Prop
  | .move a => Fits a ∧ Stays memInit a
  | _ => True

theorem permutation_of_each (h : Reach (step memInit) (Init memInit) (StaysAll memInit) s)
    (hinit : memInit = true) : IsPermutation maxElems s.permut := by
  refine Reach.invariant (I := fun s => IsPermutation maxElems s.permut)
    (fun _ => permutation_init) (fun s e t hperm hok => permutation_step hperm ?_) h
  cases e with
  | move a => exact ⟨hok.1, Or.inl hinit⟩
  | create _ _ _ | delete _ _ | trans _ _ _ _ => exact hok

end

instance (s : Map) : (e : Event) → Decidable (StaysAll memInit s e)
  | .move a => inferInstanceAs (Decidable (Fits a ∧ (memInit = true ∨
      (a.offset < 0 → a.len = 0 ∨ a.offs ≤ a.source))))
  | .create .. | .delete .. | .trans .. => .isTrue trivial

end Athomux.MapDummy
