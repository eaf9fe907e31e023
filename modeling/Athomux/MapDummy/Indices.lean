import Athomux.MapDummy.Permutation

/-!
# Indices

Which operations stay inside of the arrays.
-/

open Lib

namespace Athomux.MapDummy

variable {s t : Map} {memInit : Bool} {a : MoveArgs}

/-! ## Entries of `permut` -/

/-- Every element leads to a block of the table. -/
def Bounded (s : Map) : Prop := ∀ i < maxElems, s.permut i < maxElems

theorem lt_memmove {f : Nat → Nat} {target source len : Nat} (hf : ∀ i < maxElems, f i < maxElems)
    (h : len = 0 ∨ source + len ≤ maxElems) :
    ∀ i < maxElems, memmove f target source len i < maxElems := by
  intro i hi
  unfold memmove
  split
  · exact hf _ (by omega)
  · exact hf i hi

theorem lt_memcpy {f g : Nat → Nat} {target len : Nat} (hf : ∀ i < maxElems, f i < maxElems)
    (hg : ∀ j < len, g j < maxElems) : ∀ i < maxElems, memcpy f target g len i < maxElems := by
  intro i hi
  unfold memcpy
  split
  · exact hg _ (by omega)
  · exact hf i hi

theorem Bounded.move1 {source len offs victimSize : Nat} (h : Bounded s)
    (hsource : len = 0 ∨ source + len ≤ maxElems)
    (hvictim : victimSize = 0 ∨ source + len + victimSize ≤ maxElems) :
    ∀ i < maxElems, move1 s.permut source len offs victimSize i < maxElems :=
  lt_memcpy (lt_memmove h hsource) fun j hj => h _ (by omega)

theorem Bounded.move2 {source len offs victimSize : Nat} (h : Bounded s)
    (hsource : len = 0 ∨ source + len ≤ maxElems)
    (hvictim : victimSize = 0 ∨ source - offs + victimSize ≤ maxElems) :
    ∀ i < maxElems, move2 s.permut source len offs victimSize i < maxElems :=
  lt_memcpy (lt_memmove h hsource) fun j hj => h _ (by omega)

theorem Bounded.copy2 {i j : Nat} (h : Bounded s) (hi : i < maxElems) (hj : j < maxElems) :
    Bounded (copy2 s i j) := by
  intro k hk
  simp only [MapDummy.copy2, exchange]
  split
  · exact h j hj
  · split
    · exact h i hi
    · exact h k hk

theorem Bounded.upLoop {border source target : Int} {n : Nat} (h : Bounded s)
    (hsource : source < maxElems) (htarget : target < maxElems)
    (hs : upLoop border n s source target = .ok t) : Bounded t := by
  induction n generalizing s source target with
  | zero =>
    cases hs
    exact h
  | succ n ih =>
    unfold MapDummy.upLoop at hs
    split at hs
    · split at hs
      · cases hs
      · exact ih (h.copy2 (by omega) (by omega)) (by omega) (by omega) hs
    · cases hs
      exact h

theorem Bounded.downLoop {offset : Int} {n source : Nat} (h : Bounded s)
    (hs : downLoop offset n s source = .ok t) : Bounded t := by
  induction n generalizing s source with
  | zero =>
    cases hs
    exact h
  | succ n ih =>
    simp only [MapDummy.downLoop] at hs
    rcases copy_cases s source ((source + offset) % addrSpace).toNat with
      hcopy | ⟨i, j, hi, hj, hcopy⟩
    · rw [hcopy] at hs
      cases hs
    · rw [hcopy] at hs
      exact ih (h.copy2 hi hj) hs

theorem Bounded.moveUp (h : Bounded s) (hs : moveUp s a = .ok t) : Bounded t := by
  unfold MapDummy.moveUp at hs
  dsimp only at hs
  generalize toInt (a.logLen / defaultTransfer : Nat) = len at hs
  generalize toInt (a.offset.tdiv defaultTransfer) = offs at hs
  generalize blockIndex a.logAddr = source at hs
  split_ifs at hs with hcheck hin
  unfold Inside at hin
  simp only [Except.ok.injEq] at hs
  subst hs
  exact h.move1 (by omega) (by omega)

theorem Bounded.moveDown (h : Bounded s) (hs : moveDown s a = .ok t) : Bounded t := by
  unfold MapDummy.moveDown at hs
  dsimp only at hs
  generalize toInt (a.logLen / defaultTransfer : Nat) = len at hs
  generalize toInt ((-a.offset).tdiv defaultTransfer) = offs at hs
  generalize blockIndex a.logAddr = source at hs
  split_ifs at hs with hcheck hin
  unfold Inside at hin
  simp only [Except.ok.injEq] at hs
  subst hs
  exact h.move2 (by omega) (by omega)

theorem Bounded.moveUpEach (h : Bounded s) (hs : moveUpEach s a = .ok t) : Bounded t := by
  unfold MapDummy.moveUpEach at hs
  dsimp only at hs
  split_ifs at hs with hcheck
  have hs' : Bounded { s with maxIndex := max s.maxIndex (toInt (a.offset.tdiv defaultTransfer +
      toInt ((add64 a.logAddr a.logLen / defaultTransfer : Nat) - 1)) + 1) } := h
  exact hs'.upLoop (by omega) (by omega) hs

theorem Bounded.move (h : Bounded s) (hs : move memInit s a = .ok t) : Bounded t := by
  unfold MapDummy.move at hs
  split_ifs at hs
  · exact h.moveUpEach hs
  · exact h.moveUp hs
  · exact h.downLoop hs
  · exact h.moveDown hs
  · cases hs
    exact h

theorem bounded_of_reach (h : Reach (step memInit) (Init memInit) anyEvent s) : Bounded s := by
  refine h.invariant (I := Bounded) ?_ ?_
  · rintro s rfl i hi
    exact hi
  · intro s e t hs _ hstep
    cases e with
    | create logAddr logLen clear =>
      simp only [step] at hstep
      rw [Bounded, permut_create (of_toOption hstep)]
      exact hs
    | delete logAddr logLen =>
      simp only [step] at hstep
      rw [Bounded, permut_delete (of_toOption hstep)]
      exact hs
    | trans logAddr logLen direction buf =>
      simp only [step, Option.map_eq_some_iff] at hstep
      obtain ⟨r, hr, rfl⟩ := hstep
      rw [Bounded, permut_trans (of_toOption hr)]
      exact hs
    | move a => exact hs.move (of_toOption hstep)

/-! ## Accesses -/

/-- An array is accessed outside of its elements. -/
def Overruns (memInit : Bool) (s : Map) : Event → Prop
  | .create logAddr logLen clear => create s logAddr logLen clear = .error .overrun
  | .delete logAddr logLen => delete memInit s logAddr logLen = .error .overrun
  | .trans logAddr logLen direction buf => trans s logAddr logLen direction buf = .error .overrun
  | .move a => move memInit s a = .error .overrun

/-- Blocks from a first one in the arrays do not go on behind them. -/
def RangeInside (logAddr logLen : Nat) : Prop :=
  0 ≤ blockIndex logAddr → blockIndex logAddr < maxElems →
    blockIndex logAddr + (logLen / defaultTransfer : Nat) ≤ maxElems

/-- What the checks of the path up leave open: the sums have not wrapped around. -/
def UpInside (a : MoveArgs) : Prop :=
  let len := toInt (a.logLen / defaultTransfer : Nat)
  let offs := toInt (a.offset.tdiv defaultTransfer)
  let source := blockIndex a.logAddr
  0 ≤ source → toInt (source + len + offs) < maxElems →
    0 ≤ len ∧ 0 ≤ offs ∧ (len = 0 ∨ source + len + offs ≤ maxElems)

/-- What the checks of the path down leave open: no block goes below the first one. -/
def DownInside (a : MoveArgs) : Prop :=
  let len := toInt (a.logLen / defaultTransfer : Nat)
  let offs := toInt ((-a.offset).tdiv defaultTransfer)
  let source := blockIndex a.logAddr
  0 ≤ source → toInt (source + len) < maxElems →
    0 ≤ len ∧ 0 ≤ offs ∧ (len = 0 ∨ offs ≤ source ∧ source + len ≤ maxElems)

/-- What the checks before `_copy2` leave open: the loop ends before it is below the first block. -/
def UpEachInside (a : MoveArgs) : Prop :=
  let border := blockIndex a.logAddr
  let source := toInt ((add64 a.logAddr a.logLen / defaultTransfer : Nat) - 1)
  let target := toInt (a.offset.tdiv defaultTransfer + source)
  0 ≤ source → source < maxElems → 0 ≤ target → target < maxElems →
    source < border ∨ 0 ≤ border ∧ source - border ≤ target

/-- When all indices of an operation are inside of the arrays. -/
def Ranged (memInit : Bool) (s : Map) : Event → Prop
  | .create logAddr logLen _ => RangeInside logAddr logLen
  | .delete logAddr logLen => RangeInside logAddr logLen
  | .trans logAddr logLen direction buf => s.used (blockIndex logAddr).toNat = true →
      direction ≠ .stop → buf.isSome = true → RangeInside logAddr logLen
  | .move a => a.offset ≤ a.offsetMax → a.logLen % defaultTransfer = 0 →
      (0 < a.offset → if memInit then UpEachInside a else UpInside a) ∧
        (a.offset < 0 → memInit = false → DownInside a)

variable {logAddr logLen : Nat} {clear : Bool} {direction : Direction}
  {buf : Option (Nat → Block)}

theorem rangeInside_of_check (h : blockIndex logAddr < 0 ∨ maxElems ≤ blockIndex logAddr) :
    RangeInside logAddr logLen := by
  unfold RangeInside
  omega

theorem rangeInside_iff (h : ¬ (blockIndex logAddr < 0 ∨ maxElems ≤ blockIndex logAddr)) :
    RangeInside logAddr logLen ↔ Inside (blockIndex logAddr) (logLen / defaultTransfer : Nat) := by
  unfold RangeInside Inside
  generalize logLen / defaultTransfer = n
  omega

theorem create_overrun : create s logAddr logLen clear ≠ .error .overrun ↔
    RangeInside logAddr logLen := by
  unfold create
  dsimp only
  split
  · rename_i hcheck
    exact iff_of_true (by simp) (rangeInside_of_check hcheck)
  · rename_i hcheck
    rw [rangeInside_iff hcheck]
    split
    · rename_i hout
      exact iff_of_false (by simp) hout
    · rename_i hin
      exact iff_of_true (by split <;> simp) (not_not.mp hin)

theorem delete_overrun : delete memInit s logAddr logLen ≠ .error .overrun ↔
    RangeInside logAddr logLen := by
  unfold delete
  dsimp only
  split
  · rename_i hcheck
    exact iff_of_true (by simp) (rangeInside_of_check hcheck)
  · rename_i hcheck
    rw [rangeInside_iff hcheck]
    split
    · rename_i hout
      exact iff_of_false (by simp) hout
    · rename_i hin
      exact iff_of_true (by split <;> simp) (not_not.mp hin)

theorem doTrans_overrun {index : Int} : doTrans s index logLen direction buf ≠ .error .overrun ↔
    (direction ≠ .stop → buf.isSome = true → Inside index (logLen / defaultTransfer : Nat)) := by
  unfold doTrans
  cases buf with
  | none => exact iff_of_true (by simp) (by simp)
  | some buf =>
    dsimp only
    split
    · rename_i hstop
      exact iff_of_true (by split <;> simp) fun h => absurd hstop h
    · rename_i hdirection
      split
      · rename_i hout
        exact iff_of_false (by simp) fun h => hout (h hdirection rfl)
      · rename_i hin
        exact iff_of_true (by split_ifs <;> simp) fun _ _ => not_not.mp hin

theorem trans_overrun : trans s logAddr logLen direction buf ≠ .error .overrun ↔
    (s.used (blockIndex logAddr).toNat = true → direction ≠ .stop → buf.isSome = true →
      RangeInside logAddr logLen) := by
  unfold trans
  dsimp only
  split
  · rename_i hcheck
    exact iff_of_true (by simp) fun _ _ _ => rangeInside_of_check hcheck
  · rename_i hcheck
    rw [rangeInside_iff hcheck]
    split
    · rename_i hunused
      refine iff_of_true (by simp) fun hused => ?_
      rw [hused] at hunused
      cases hunused
    · rename_i hused
      have hused : s.used (blockIndex logAddr).toNat = true := by simpa using hused
      have hmap : (doTrans s (blockIndex logAddr) logLen direction buf).map some ≠ .error .overrun ↔
          doTrans s (blockIndex logAddr) logLen direction buf ≠ .error .overrun := by
        cases doTrans s (blockIndex logAddr) logLen direction buf <;> simp [Except.map]
      rw [hmap, doTrans_overrun]
      exact (imp_iff_right hused).symm

theorem moveUp_overrun : moveUp s a ≠ .error .overrun ↔ UpInside a := by
  unfold moveUp UpInside
  dsimp only
  generalize toInt (a.logLen / defaultTransfer : Nat) = len
  generalize toInt (a.offset.tdiv defaultTransfer) = offs
  generalize blockIndex a.logAddr = source
  split
  · rename_i hcheck
    exact iff_of_true (by simp) (by omega)
  · rename_i hcheck
    split
    · rename_i hin
      unfold Inside at hin
      exact iff_of_true (by simp) (by omega)
    · rename_i hout
      unfold Inside at hout
      exact iff_of_false (by simp) (by omega)

theorem moveDown_overrun : moveDown s a ≠ .error .overrun ↔ DownInside a := by
  unfold moveDown DownInside
  dsimp only
  generalize toInt (a.logLen / defaultTransfer : Nat) = len
  generalize toInt ((-a.offset).tdiv defaultTransfer) = offs
  generalize blockIndex a.logAddr = source
  split
  · rename_i hcheck
    exact iff_of_true (by simp) (by omega)
  · rename_i hcheck
    split
    · rename_i hin
      unfold Inside at hin
      exact iff_of_true (by simp) (by omega)
    · rename_i hout
      unfold Inside at hout
      exact iff_of_false (by simp) (by omega)

/-- The loop of `_copy2` goes below the arrays as soon as its last turn does. -/
theorem upLoop_overrun {border source target : Int} {n : Nat}
    (hn : n = (source - border + 1).toNat) :
    upLoop border n s source target ≠ .error .overrun ↔
      source < border ∨ 0 ≤ border ∧ source - border ≤ target := by
  induction n generalizing s source target with
  | zero => exact iff_of_true (by simp [upLoop]) (by omega)
  | succ n ih =>
    unfold upLoop
    rw [if_pos (by omega)]
    split
    · rename_i hout
      exact iff_of_false (by simp) (by omega)
    · rename_i hin
      rw [ih (by omega)]
      omega

theorem moveUpEach_overrun : moveUpEach s a ≠ .error .overrun ↔ UpEachInside a := by
  unfold moveUpEach UpEachInside
  dsimp only
  generalize toInt ((add64 a.logAddr a.logLen / defaultTransfer : Nat) - 1) = source
  generalize toInt (a.offset.tdiv defaultTransfer + source) = target
  generalize blockIndex a.logAddr = border
  split
  · rename_i hcheck
    exact iff_of_true (by simp) (by omega)
  · rename_i hcheck
    rw [upLoop_overrun rfl]
    omega

/-- `_copy` checks both indices. -/
theorem downLoop_inside {offset : Int} {n source : Nat} :
    downLoop offset n s source ≠ .error .overrun := by
  induction n generalizing s source with
  | zero => simp [downLoop]
  | succ n ih =>
    simp only [downLoop]
    rcases copy_cases s source ((source + offset) % addrSpace).toNat with
      hcopy | ⟨i, j, -, -, hcopy⟩
    · rw [hcopy]
      simp [bind, Except.bind]
    · rw [hcopy]
      exact ih

theorem move_overrun : move memInit s a ≠ .error .overrun ↔
    (a.offset ≤ a.offsetMax → a.logLen % defaultTransfer = 0 →
      (0 < a.offset → if memInit then UpEachInside a else UpInside a) ∧
        (a.offset < 0 → memInit = false → DownInside a)) := by
  unfold move
  split
  · exact iff_of_true (by simp) (by omega)
  rename_i hmax
  split
  · exact iff_of_true (by simp) (by omega)
  rename_i hrest
  rw [imp_iff_right (by omega), imp_iff_right (by omega)]
  split
  · rename_i hpos
    rw [imp_iff_right hpos, and_iff_left fun hneg => by omega]
    split
    · exact moveUpEach_overrun
    · exact moveUp_overrun
  rename_i hpos
  rw [and_iff_right fun h => absurd h hpos]
  split
  · rename_i hneg
    rw [imp_iff_right hneg]
    cases memInit with
    | true => exact iff_of_true downLoop_inside (by simp)
    | false =>
      rw [if_neg Bool.false_ne_true, imp_iff_right (Eq.refl false)]
      exact moveDown_overrun
  · rename_i hneg
    exact iff_of_true (by simp) fun h => absurd h hneg

/-- **All indices are in range exactly when `Ranged` holds.** In every state that is reached without
a fault the entries of `permut` are indices of the table, also between two turns of the loops, and
an operation accesses no array outside of its elements if and only if its arguments are ranged. -/
theorem indices_inside (h : Reach (step memInit) (Init memInit) anyEvent s) :
    Bounded s ∧
    (∀ (border source target : Int) n t, source < maxElems → target < maxElems →
      upLoop border n s source target = .ok t → Bounded t) ∧
    (∀ offset source n t, downLoop offset n s source = .ok t → Bounded t) ∧
    ∀ e, ¬ Overruns memInit s e ↔ Ranged memInit s e := by
  have hs := bounded_of_reach h
  refine ⟨hs, fun _ _ _ _ _ h1 h2 ht => hs.upLoop h1 h2 ht, fun _ _ _ _ ht => hs.downLoop ht, ?_⟩
  intro e
  cases e with
  | create logAddr logLen clear => exact create_overrun
  | delete logAddr logLen => exact delete_overrun
  | trans logAddr logLen direction buf => exact trans_overrun
  | move a => exact move_overrun

/-- One block goes down from the first one. -/
theorem indices_outside : ¬ ∀ s e, Reach (step false) (Init false) anyEvent s →
    ¬ Overruns false s e := by
  intro h
  refine h _ (.move ⟨0, 4096, -4096, 0⟩) (Reach.start (init_map false)) ?_
  change move false (Map.init false) ⟨0, 4096, -4096, 0⟩ = .error .overrun
  rfl

/-- The last block is created. -/
theorem indices_inside_last : ¬ Overruns false (Map.init false) (.create 4190208 4096 false) :=
  ((indices_inside (Reach.start (init_map false))).2.2.2 (.create 4190208 4096 false)).mpr
    fun _ _ => by decide

end Athomux.MapDummy
