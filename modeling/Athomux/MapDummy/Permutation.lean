import Athomux.MapDummy.Spec

/-! # The permutation -/

open Lib

namespace Athomux.MapDummy

variable {s t : Map} {a : MoveArgs} {memInit : Bool}

/-! ## Block numbers -/

theorem toInt_eq {x : Int} (hlow : -2 ^ 31 ≤ x) (hup : x < 2 ^ 31) : toInt x = x := by
  unfold toInt
  rw [Int.bmod_def]
  omega

/-- The block that is moved first or last, the number of blocks and the distance. -/
def MoveArgs.source (a : MoveArgs) : Nat := a.logAddr / defaultTransfer
def MoveArgs.len (a : MoveArgs) : Nat := a.logLen / defaultTransfer
def MoveArgs.offs (a : MoveArgs) : Nat := a.offset.natAbs / defaultTransfer

/-- The block numbers fit into an `int`. -/
def Fits (a : MoveArgs) : Prop := a.source + a.len + a.offs < 2 ^ 31

/-- No block is moved below the first one. -/
def Above (a : MoveArgs) : Prop := a.offset < 0 → a.len = 0 ∨ a.offs ≤ a.source

/-- No block is moved up by more than what is moved. -/
def Short (a : MoveArgs) : Prop := 0 < a.offset → a.len = 0 ∨ a.offs ≤ a.len

theorem Fits.toInt_source (h : Fits a) : blockIndex a.logAddr = a.source :=
  toInt_eq (Int.le_trans (by omega) (Int.natCast_nonneg _)) (by
    unfold Fits at h
    change ((a.source : Nat) : Int) < 2 ^ 31
    omega)

theorem Fits.toInt_len (h : Fits a) : toInt (a.logLen / defaultTransfer : Nat) = a.len :=
  toInt_eq (Int.le_trans (by omega) (Int.natCast_nonneg _)) (by
    unfold Fits at h
    change ((a.len : Nat) : Int) < 2 ^ 31
    omega)

theorem Fits.toInt_offs (h : Fits a) {x : Int} (hx : 0 ≤ x) (heq : x.natAbs = a.offset.natAbs) :
    toInt (x.tdiv defaultTransfer) = a.offs := by
  have hdiv : x.tdiv defaultTransfer = a.offs := by
    rw [Int.tdiv_eq_ediv_of_nonneg hx, MoveArgs.offs, ← heq]
    simp only [defaultTransfer]
    omega
  rw [hdiv]
  exact toInt_eq (by omega) (by unfold Fits at h; omega)

/-! ## All at once -/

/-- What `moveUp` makes of the map. -/
def movedUp (s : Map) (source len offs : Nat) : Map :=
  { s with
    maxIndex := max s.maxIndex (source + len + offs : Nat)
    used := memset (memmove s.used (source + offs) source len) source false (min offs len)
    permut := move1 s.permut source len offs (min offs len)
    paddr := move1 s.paddr source len offs (min offs len)
    forwrite := move1 s.forwrite source len offs (min offs len)
    count := move1 s.count source len offs (min offs len) }

/-- What `moveDown` makes of the map. -/
def movedDown (s : Map) (source len offs : Nat) : Map :=
  { s with
    used := memset (memmove s.used (source - offs) source len) (source + len - min offs len) false
      (min offs len)
    permut := move2 s.permut source len offs (min offs len)
    paddr := move2 s.paddr source len offs (min offs len)
    forwrite := move2 s.forwrite source len offs (min offs len)
    count := move2 s.count source len offs (min offs len) }

theorem moveUp_eq (s : Map) (h : Fits a) (hpos : 0 < a.offset) :
    moveUp s a = if maxElems ≤ a.source + a.len + a.offs then .error .fatal
      else .ok (movedUp s a.source a.len a.offs) := by
  have hmax : toInt (a.source + a.len + a.offs : Int) = (a.source + a.len + a.offs : Nat) := by
    rw [toInt_eq (by omega) (by unfold Fits at h; omega)]
    omega
  have hmin : min (a.offs : Int) a.len = (min a.offs a.len : Nat) := by omega
  unfold moveUp
  simp only [h.toInt_source, h.toInt_len, h.toInt_offs hpos.le rfl, hmax, hmin]
  split
  · rw [if_pos (by omega)]
  · rename_i hcheck
    rw [if_neg (show ¬ maxElems ≤ a.source + a.len + a.offs by omega), if_pos]
    · rfl
    · simp only [Inside]
      omega

theorem moveDown_eq (s : Map) (h : Fits a) (hneg : a.offset < 0) :
    moveDown s a = if maxElems ≤ a.source + a.len then .error .fatal
      else if a.len = 0 ∨ a.offs ≤ a.source then .ok (movedDown s a.source a.len a.offs)
      else .error .overrun := by
  have hmax : toInt (a.source + a.len : Int) = (a.source + a.len : Nat) := by
    rw [toInt_eq (by omega) (by unfold Fits at h; omega)]
    omega
  have hmin : min (a.offs : Int) a.len = (min a.offs a.len : Nat) := by omega
  unfold moveDown
  simp only [h.toInt_source, h.toInt_len, h.toInt_offs (x := -a.offset) (by omega) (by omega), hmax,
    hmin]
  split
  · rw [if_pos (by omega)]
  · rename_i hcheck
    rw [if_neg (show ¬ maxElems ≤ a.source + a.len by omega)]
    by_cases hin : a.len = 0 ∨ a.offs ≤ a.source
    · rw [if_pos hin, if_pos]
      · rfl
      · simp only [Inside]
        omega
    · rw [if_neg hin, if_neg]
      simp only [Inside]
      omega

/-- Where `MOVE1` takes the element `j` from. -/
def from1 (source len offs j : Nat) : Nat :=
  if source ≤ j ∧ j < source + min offs len then source + len + (j - source)
  else if source + offs ≤ j ∧ j < source + offs + len then j - (source + offs) + source
  else j

/-- Where `MOVE2` takes the element `j` from. -/
def from2 (source len offs j : Nat) : Nat :=
  if source + len - min offs len ≤ j ∧ j < source + len - min offs len + min offs len then
    source - offs + (j - (source + len - min offs len))
  else if source - offs ≤ j ∧ j < source - offs + len then j - (source - offs) + source
  else j

/-- Where `MOVE1` puts the element `j`. -/
def to1 (source len offs j : Nat) : Nat :=
  if source ≤ j ∧ j < source + len then j + offs
  else if source + len ≤ j ∧ j < source + len + min offs len then j - len
  else j

/-- Where `MOVE2` puts the element `j`. -/
def to2 (source len offs j : Nat) : Nat :=
  if source ≤ j ∧ j < source + len then j - offs
  else if source - offs ≤ j ∧ j < source - offs + min offs len then
    source + len - min offs len + (j - (source - offs))
  else j

theorem move1_eq {α : Type} (ptr : Nat → α) (source len offs : Nat) :
    move1 ptr source len offs (min offs len) = ptr ∘ from1 source len offs := by
  funext j
  simp only [move1, memcpy, memmove, from1, Function.comp_apply]
  split
  · rfl
  · split <;> rfl

theorem move2_eq {α : Type} (ptr : Nat → α) (source len offs : Nat) :
    move2 ptr source len offs (min offs len) = ptr ∘ from2 source len offs := by
  funext j
  simp only [move2, memcpy, memmove, from2, Function.comp_apply]
  split
  · rfl
  · split <;> rfl

/-- The blocks and the ones behind them change places. -/
theorem isPermutation_from1 {source len offs n : Nat} (hshort : len = 0 ∨ offs ≤ len)
    (hn : source + len + offs ≤ n) : IsPermutation n (from1 source len offs) := by
  refine isPermutation_of_inverse (τ := to1 source len offs) ?_ ?_ ?_ ?_ <;> intro j hj <;>
    simp only [from1, to1] <;> split_ifs <;> omega

/-- The blocks and the ones in their new places change places. -/
theorem isPermutation_from2 {source len offs n : Nat} (habove : len = 0 ∨ offs ≤ source)
    (hn : source + len ≤ n) : IsPermutation n (from2 source len offs) := by
  refine isPermutation_of_inverse (τ := to2 source len offs) ?_ ?_ ?_ ?_ <;> intro j hj <;>
    simp only [from2, to2] <;> split_ifs <;> omega

/-- What goes up by more than its length leaves the block behind it in two places. -/
theorem movedUp_twice {source len offs : Nat} (hlong : 0 < len ∧ len < offs)
    (hn : source + len + offs < maxElems) :
    ¬ IsPermutation maxElems (movedUp s source len offs).permut := by
  intro h
  have heq : (movedUp s source len offs).permut source =
      (movedUp s source len offs).permut (source + len) := by
    simp only [movedUp, move1_eq, Function.comp_apply, from1]
    rw [if_pos (by omega), if_neg (by omega), if_neg (by omega)]
    congr 1
    omega
  have := h.injective (by omega) (by omega) heq
  omega

/-! ## One after the other -/

/-- `n` blocks from `source` on are copied up, the last one first. -/
def copiedUp (s : Map) (source offs : Nat) : Nat → Map
  | 0 => s
  | n + 1 => copiedUp (copy2 s (source + n) (source + n + offs)) source offs n

/-- `n` blocks from `source` on are copied down, the first one first. -/
def copiedDown (s : Map) (source offs : Nat) : Nat → Map
  | 0 => s
  | n + 1 => copiedDown (copy2 s source (source - offs)) (source + 1) offs n

theorem upLoop_eq (s : Map) (source offs n : Nat) :
    upLoop source n s (source + n - 1) (source + n - 1 + offs) = .ok (copiedUp s source offs n) := by
  induction n generalizing s with
  | zero => rfl
  | succ n ih =>
    unfold upLoop
    rw [if_pos (by omega), if_neg (by omega)]
    have h1 : ((source : Int) + ((n + 1 : Nat) : Int) - 1).toNat = source + n := by omega
    have h2 : ((source : Int) + ((n + 1 : Nat) : Int) - 1 + offs).toNat = source + n + offs := by omega
    have h3 : (source : Int) + ((n + 1 : Nat) : Int) - 1 - 1 = source + n - 1 := by omega
    have h4 : (source : Int) + ((n + 1 : Nat) : Int) - 1 + offs - 1 = source + n - 1 + offs := by omega
    rw [h1, h2, h3, h4]
    exact ih _

theorem moveUpEach_eq (s : Map) (h : Fits a) (hlen : a.logLen % defaultTransfer = 0)
    (hpos : 0 < a.offset) :
    moveUpEach s a = .error .fatal ∨ a.source + a.len + a.offs ≤ maxElems ∧ moveUpEach s a = .ok
      (copiedUp { s with maxIndex := max s.maxIndex (a.source + a.len + a.offs : Nat) }
        a.source a.offs a.len) := by
  have hsrc := h.toInt_source
  unfold Fits at h
  have hend : add64 a.logAddr a.logLen = a.logAddr + a.logLen := by
    refine add64_eq ?_
    simp only [MoveArgs.source, MoveArgs.len, MoveArgs.offs, defaultTransfer, addrSpace] at h ⊢
    omega
  have hdiv : (a.logAddr + a.logLen) / defaultTransfer = a.source + a.len := by
    simp only [MoveArgs.source, MoveArgs.len, defaultTransfer] at hlen ⊢
    omega
  have hoffs : a.offset.tdiv defaultTransfer = a.offs := by
    rw [Int.tdiv_eq_ediv_of_nonneg hpos.le, MoveArgs.offs]
    simp only [defaultTransfer]
    omega
  have h1 : toInt (((a.source + a.len : Nat) : Int) - 1) = a.source + a.len - 1 := by
    rw [toInt_eq (by omega) (by omega)]
    omega
  have h2 : toInt ((a.offs : Int) + ((a.source : Int) + a.len - 1)) =
      a.source + a.len - 1 + a.offs := by
    rw [toInt_eq (by omega) (by omega)]
    omega
  unfold moveUpEach
  simp only [hend, hdiv, hoffs, h1, h2, hsrc]
  split
  · exact Or.inl rfl
  · rename_i hcheck
    refine Or.inr ⟨by omega, ?_⟩
    have h3 : ((a.source : Int) + a.len - 1 - a.source + 1).toNat = a.len := by omega
    have h4 : (a.source : Int) + a.len - 1 + a.offs + 1 = (a.source + a.len + a.offs : Nat) := by omega
    rw [h3, h4]
    exact upLoop_eq _ _ _ _

theorem isPermutation_copiedUp {source offs n : Nat} (h : IsPermutation maxElems s.permut)
    (hn : source + n + offs ≤ maxElems) : IsPermutation maxElems (copiedUp s source offs n).permut := by
  induction n generalizing s with
  | zero => exact h
  | succ n ih => exact ih (h.exchange (by omega) (by omega)) (by omega)

theorem copy_cases (s : Map) (source target : Nat) :
    copy s source target = .error .fatal ∨
    ∃ i j, i < maxElems ∧ j < maxElems ∧ copy s source target = .ok (copy2 s i j) := by
  simp only [copy]
  split
  · exact Or.inl rfl
  · exact Or.inr ⟨(blockIndex source).toNat, (blockIndex target).toNat, by omega, by omega, rfl⟩

theorem downLoop_permutation {offset : Int} {n source : Nat} (h : IsPermutation maxElems s.permut) :
    downLoop offset n s source = .error .fatal ∨
    ∃ t, downLoop offset n s source = .ok t ∧ IsPermutation maxElems t.permut := by
  induction n generalizing s source with
  | zero => exact Or.inr ⟨s, rfl, h⟩
  | succ n ih =>
    simp only [downLoop]
    rcases copy_cases s source ((source + offset) % addrSpace).toNat with
      hcopy | ⟨i, j, hi, hj, hcopy⟩
    · rw [hcopy]
      exact Or.inl rfl
    · rw [hcopy]
      exact ih (h.exchange hi hj)

/-! ## `$move` -/

/-- When `$move` keeps the permutation. -/
def Keeps (memInit : Bool) (a : MoveArgs) : Prop := memInit = true ∨ (Above a ∧ Short a)

theorem moveUp_permutation (h : IsPermutation maxElems s.permut) (hfits : Fits a)
    (hpos : 0 < a.offset) (hshort : Short a) :
    moveUp s a = .error .fatal ∨ ∃ t, moveUp s a = .ok t ∧ IsPermutation maxElems t.permut := by
  rw [moveUp_eq s hfits hpos]
  split
  · exact Or.inl rfl
  · refine Or.inr ⟨_, rfl, ?_⟩
    rw [movedUp, move1_eq]
    exact h.comp (isPermutation_from1 (hshort hpos) (by omega))

theorem moveDown_permutation (h : IsPermutation maxElems s.permut) (hfits : Fits a)
    (hneg : a.offset < 0) (habove : Above a) :
    moveDown s a = .error .fatal ∨ ∃ t, moveDown s a = .ok t ∧ IsPermutation maxElems t.permut := by
  rw [moveDown_eq s hfits hneg, if_pos (habove hneg)]
  split
  · exact Or.inl rfl
  · refine Or.inr ⟨_, rfl, ?_⟩
    rw [movedDown, move2_eq]
    exact h.comp (isPermutation_from2 (habove hneg) (by omega))

theorem moveUpEach_permutation (h : IsPermutation maxElems s.permut) (hfits : Fits a)
    (hlen : a.logLen % defaultTransfer = 0) (hpos : 0 < a.offset) :
    moveUpEach s a = .error .fatal ∨
    ∃ t, moveUpEach s a = .ok t ∧ IsPermutation maxElems t.permut := by
  rcases moveUpEach_eq s hfits hlen hpos with heq | ⟨hn, heq⟩
  · exact Or.inl heq
  · exact Or.inr ⟨_, heq, isPermutation_copiedUp h (by omega)⟩

theorem moveDownEach_permutation (h : IsPermutation maxElems s.permut) (a : MoveArgs) :
    moveDownEach s a = .error .fatal ∨
    ∃ t, moveDownEach s a = .ok t ∧ IsPermutation maxElems t.permut := by
  simp only [moveDownEach]
  exact downLoop_permutation h

/-- A move that passes the checks of the brick does its work within the arrays, and permutes the
blocks. -/
theorem move_permutation (h : IsPermutation maxElems s.permut) (hfits : Fits a)
    (hkeeps : Keeps memInit a) :
    move memInit s a = .error .fatal ∨
    ∃ t, move memInit s a = .ok t ∧ IsPermutation maxElems t.permut := by
  unfold move
  split
  · exact Or.inl rfl
  split
  · exact Or.inl rfl
  rename_i hlen
  split
  · rename_i hpos
    split
    · exact moveUpEach_permutation h hfits (by omega) hpos
    · rename_i hall
      exact moveUp_permutation h hfits hpos (hkeeps.resolve_left hall).2
  split
  · rename_i hneg
    split
    · exact moveDownEach_permutation h a
    · rename_i hall
      exact moveDown_permutation h hfits hneg (hkeeps.resolve_left hall).1
  · exact Or.inr ⟨s, rfl, h⟩

/-- And no other move does. -/
theorem keeps_of_move (hfits : Fits a) (hs : move memInit s a = .ok t)
    (h : IsPermutation maxElems t.permut) : Keeps memInit a := by
  cases memInit with
  | true => exact Or.inl rfl
  | false =>
    refine Or.inr ⟨fun hneg => ?_, fun hpos => ?_⟩
    · simp only [move, Bool.false_eq_true, if_false, if_neg (show ¬ 0 < a.offset by omega),
        if_pos hneg, moveDown_eq s hfits hneg] at hs
      by_contra hno
      rw [if_neg hno] at hs
      split_ifs at hs
    · simp only [move, Bool.false_eq_true, if_false, if_pos hpos, moveUp_eq s hfits hpos] at hs
      split_ifs at hs
      cases hs
      by_contra hno
      exact movedUp_twice (by omega) (by omega) h

/-! ## Whole runs -/

theorem of_toOption {α : Type} {x : Except Fault α} {y : α} (h : x.toOption = some y) : x = .ok y := by
  cases x with
  | error e => cases h
  | ok x =>
    cases h
    rfl

theorem permut_writeLoop (s : Map) (g : Nat → Block) (index n : Nat) :
    (writeLoop s g index n).permut = s.permut ∧ (writeLoop s g index n).used = s.used := by
  induction n with
  | zero => exact ⟨rfl, rfl⟩
  | succ n ih => exact ih

theorem permut_create {logAddr logLen : Nat} {clear : Bool}
    (hs : create s logAddr logLen clear = .ok t) : t.permut = s.permut := by
  simp only [create] at hs
  split_ifs at hs
  · simp only [Except.ok.injEq] at hs
    rw [← hs, Map.setUsed, (permut_writeLoop _ _ _ _).1]
  · simp only [Except.ok.injEq] at hs
    rw [← hs, Map.setUsed]

theorem permut_delete {logAddr logLen : Nat}
    (hs : delete memInit s logAddr logLen = .ok t) : t.permut = s.permut := by
  simp only [delete] at hs
  split_ifs at hs
  · simp only [Except.ok.injEq] at hs
    rw [← hs, Map.setUsed, (permut_writeLoop _ _ _ _).1]
  · simp only [Except.ok.injEq] at hs
    rw [← hs, Map.setUsed]

theorem permut_trans {logAddr logLen : Nat} {direction : Direction} {buf : Option (Nat → Block)}
    {r : Option (Map × (Nat → Block))} (hs : trans s logAddr logLen direction buf = .ok r) :
    ((r.map Prod.fst).getD s).permut = s.permut := by
  simp only [trans] at hs
  split_ifs at hs
  · cases hs
    rfl
  · cases buf with
    | none => cases hs
    | some buf =>
      simp only [doTrans] at hs
      split_ifs at hs
      all_goals simp only [Except.map, Except.ok.injEq, reduceCtorEq] at hs
      · rw [← hs]
        rfl
      · rw [← hs]
        rfl
      · rw [← hs]
        exact (permut_writeLoop _ _ _ _).1

/-- Each move fits and keeps the permutation. -/
def KeepsAll (memInit : Bool) (_ : Map) : Event → Prop
  | .move a => Fits a ∧ Keeps memInit a
  | _ => True

theorem permutation_init {s : Map} (h : Init memInit s) : IsPermutation maxElems s.permut := by
  rw [show s = Map.init memInit from h]
  exact isPermutation_id _

theorem permutation_step {s t : Map} {e : Event} (hperm : IsPermutation maxElems s.permut)
    (hok : KeepsAll memInit s e) (hs : step memInit s e = some t) :
    IsPermutation maxElems t.permut := by
  cases e with
  | create logAddr logLen clear =>
    simp only [step] at hs
    rw [permut_create (of_toOption hs)]
    exact hperm
  | delete logAddr logLen =>
    simp only [step] at hs
    rw [permut_delete (of_toOption hs)]
    exact hperm
  | trans logAddr logLen direction buf =>
    simp only [step, Option.map_eq_some_iff] at hs
    obtain ⟨r, hr, rfl⟩ := hs
    rw [permut_trans (of_toOption hr)]
    exact hperm
  | move a =>
    have hs := of_toOption hs
    rcases move_permutation hperm hok.1 hok.2 with hfatal | ⟨t', ht, hperm'⟩
    · rw [hfatal] at hs
      cases hs
    · rw [ht] at hs
      cases hs
      exact hperm'

/-- **The permutation array remains a permutation.** This holds on both paths in every run in
which no block is moved below the first one, and, if all blocks are moved at once, none is moved up
by more than what is moved. -/
theorem map_permutation (h : Reach (step memInit) (Init memInit) (KeepsAll memInit) s) :
    IsPermutation maxElems s.permut :=
  Reach.invariant (fun _ => permutation_init) (fun _ _ _ => permutation_step) h

theorem init_map (memInit : Bool) : Init memInit (Map.init memInit) := rfl

instance (a : MoveArgs) : Decidable (Fits a) := by
  unfold Fits
  infer_instance

instance (memInit : Bool) (a : MoveArgs) : Decidable (Keeps memInit a) := by
  unfold Keeps Above Short
  infer_instance

instance (s : Map) (e : Event) : Decidable (KeepsAll memInit s e) := by
  unfold KeepsAll
  split <;> infer_instance

/-- Two blocks go up by one, and back again as one of three. -/
theorem map_permutation_moved : ∃ s : Map, (List.range 4).map s.permut = [0, 1, 3, 2] ∧
    IsPermutation maxElems s.permut := by
  have hrun : (run (step false) (KeepsAll false) (Map.init false)
      [.move ⟨0, 8192, 4096, 4096⟩, .move ⟨4096, 12288, -4096, -4096⟩]).map
      (fun s => (List.range 4).map s.permut) = some [0, 1, 3, 2] := by
    decide +kernel
  obtain ⟨s, hs, heq⟩ := Option.map_eq_some_iff.mp hrun
  exact ⟨s, heq, map_permutation ((Reach.start (init_map false)).of_run hs)⟩

/-- One block goes up by two and leaves the block behind it in two places. Or one goes down from
the start, which no check of the brick sees. -/
theorem permutation_broken :
    (∃ s, Reach (step false) (Init false) anyEvent s ∧ ¬ IsPermutation maxElems s.permut) ∧
    move false (Map.init false) ⟨0, 4096, -4096, -4096⟩ = .error .overrun := by
  have hrun : (run (step false) anyEvent (Map.init false) [.move ⟨0, 4096, 8192, 8192⟩]).map
      (fun s => (s.permut 0, s.permut 1)) = some (1, 1) := by
    decide +kernel
  obtain ⟨s, hs, heq⟩ := Option.map_eq_some_iff.mp hrun
  refine ⟨⟨s, (Reach.start (init_map false)).of_run hs, fun h => ?_⟩, by rfl⟩
  simp only [Prod.mk.injEq] at heq
  have := h.injective (i := 0) (j := 1) (by decide) (by decide) (heq.1.trans heq.2.symm)
  cases this

end Athomux.MapDummy
