import Athomux.MapDummy.Move

/-!
# The two variants

The same operations with `memmove` and with one element after the other. `MEM_INIT` chooses the
second variant, and fills what is not used with a pattern.
-/

open Lib

namespace Athomux.MapDummy

variable {s t s' t' : Map} {memInit : Bool} {e : Event} {defined : Nat → Prop} {n index : Nat}

/-! ## What is observed -/

/-- Both variants show the same. The contents are compared where `defined` holds. -/
structure Alike (defined : Nat → Prop) (s t : Map) : Prop where
  used : ∀ j < maxElems, s.used j = t.used j
  content : ∀ j < maxElems, s.used j = true → defined j →
    s.table (s.permut j) = t.table (t.permut j)
  paddr : ∀ j < maxElems, s.used j = true → s.paddr j = t.paddr j
  forwrite : ∀ j < maxElems, s.used j = true → s.forwrite j = t.forwrite j
  count : ∀ j < maxElems, s.used j = true → s.count j = t.count j

/-- The blocks of a request. -/
def InRequest (logAddr logLen j : Nat) : Prop :=
  (blockIndex logAddr).toNat ≤ j ∧ j < (blockIndex logAddr).toNat + logLen / defaultTransfer

/-- Which blocks have been cleared at their `$create` or written since. -/
def definedAfter (s : Map) (defined : Nat → Prop) : Event → Nat → Prop
  | .create logAddr logLen clear, j => defined j ∨ clear = true ∧ InRequest logAddr logLen j
  | .delete logAddr logLen, j => defined j ∧ ¬ InRequest logAddr logLen j
  | .trans logAddr logLen direction _, j => defined j ∨
      s.used (blockIndex logAddr).toNat = true ∧ direction = .write ∧ InRequest logAddr logLen j
  | .move a, j =>
    let target := ((a.source : Int) + a.offset / defaultTransfer).toNat
    if target ≤ j ∧ j < target + a.len then defined (a.source + (j - target))
    else defined j ∧ ¬ (a.source ≤ j ∧ j < a.source + a.len)

/-- A move of whole blocks that stays in the range of an `int` and of the arrays, and goes up by no
more than what is moved. -/
def Regular : Event → Prop
  | .move a => a.logAddr % defaultTransfer = 0 ∧ a.offset % defaultTransfer = 0 ∧ Fits a ∧ Above a ∧
      Short a
  | _ => True

/-- `@success` of `$trans`. -/
def transSuccess : Except Fault (Option (Map × (Nat → Block))) → Bool
  | .ok r => r.isSome
  | .error _ => false

/-- `@success` of an operation that has passed the checks. -/
def success (s : Map) : Event → Bool
  | .trans logAddr logLen direction buf => transSuccess (trans s logAddr logLen direction buf)
  | _ => true

/-- Both variants after the same operations, and which blocks are defined. -/
inductive Both : Map → Map → (Nat → Prop) → Prop
  | init : Both (Map.init false) (Map.init true) fun _ => False
  | next {s t s' t' : Map} {defined : Nat → Prop} {e : Event} : Both s t defined → Regular e →
      step false s e = some s' → step true t e = some t' →
        Both s' t' (definedAfter s defined e)

/-! ## Addresses and counters -/

/-- Nothing has been got. -/
structure Plain (s : Map) : Prop where
  paddr : s.paddr = fun _ => 0
  forwrite : s.forwrite = fun _ => false
  count : s.count = fun _ => 0

theorem move1_const {α : Type} (x : α) (source len offs victimSize : Nat) :
    move1 (fun _ => x) source len offs victimSize = fun _ => x := by
  funext j
  simp only [move1, memcpy, memmove, ite_self]

theorem move2_const {α : Type} (x : α) (source len offs victimSize : Nat) :
    move2 (fun _ => x) source len offs victimSize = fun _ => x := by
  funext j
  simp only [move2, memcpy, memmove, ite_self]

theorem exchange_const {α : Type} (x : α) (i j : Nat) : exchange (fun _ => x) i j = fun _ => x := by
  funext k
  simp only [exchange, ite_self]

theorem Plain.copy2 (h : Plain s) (i j : Nat) : Plain (copy2 s i j) where
  paddr := by
    rw [MapDummy.copy2, h.paddr]
    exact exchange_const 0 i j
  forwrite := by
    rw [MapDummy.copy2, h.forwrite]
    exact exchange_const false i j
  count := by
    rw [MapDummy.copy2, h.count]
    exact exchange_const 0 i j

theorem Plain.upLoop {border source target : Int} (h : Plain s)
    (hs : upLoop border n s source target = .ok t) : Plain t := by
  induction n generalizing s source target with
  | zero =>
    cases hs
    exact h
  | succ n ih =>
    unfold MapDummy.upLoop at hs
    split at hs
    · split at hs
      · cases hs
      · exact ih (h.copy2 _ _) hs
    · cases hs
      exact h

theorem Plain.downLoop {offset : Int} {source : Nat} (h : Plain s)
    (hs : downLoop offset n s source = .ok t) : Plain t := by
  induction n generalizing s source with
  | zero =>
    cases hs
    exact h
  | succ n ih =>
    simp only [MapDummy.downLoop] at hs
    rcases copy_cases s source ((source + offset) % addrSpace).toNat with
      hcopy | ⟨i, j, -, -, hcopy⟩
    · rw [hcopy] at hs
      cases hs
    · rw [hcopy] at hs
      exact ih (h.copy2 i j) hs

theorem Plain.moveUp {a : MoveArgs} (h : Plain s) (hs : moveUp s a = .ok t) : Plain t := by
  unfold MapDummy.moveUp at hs
  dsimp only at hs
  generalize toInt (a.logLen / defaultTransfer : Nat) = len at hs
  generalize toInt (a.offset.tdiv defaultTransfer) = offs at hs
  generalize blockIndex a.logAddr = source at hs
  split_ifs at hs
  rw [← Except.ok.inj hs, h.paddr, h.forwrite, h.count]
  exact ⟨move1_const 0 _ _ _ _, move1_const false _ _ _ _, move1_const 0 _ _ _ _⟩

theorem Plain.moveDown {a : MoveArgs} (h : Plain s) (hs : moveDown s a = .ok t) : Plain t := by
  unfold MapDummy.moveDown at hs
  dsimp only at hs
  generalize toInt (a.logLen / defaultTransfer : Nat) = len at hs
  generalize toInt ((-a.offset).tdiv defaultTransfer) = offs at hs
  generalize blockIndex a.logAddr = source at hs
  split_ifs at hs
  rw [← Except.ok.inj hs, h.paddr, h.forwrite, h.count]
  exact ⟨move2_const 0 _ _ _ _, move2_const false _ _ _ _, move2_const 0 _ _ _ _⟩

theorem Plain.moveUpEach {a : MoveArgs} (h : Plain s) (hs : moveUpEach s a = .ok t) : Plain t := by
  unfold MapDummy.moveUpEach at hs
  dsimp only at hs
  split_ifs at hs
  have hs' : Plain { s with maxIndex := max s.maxIndex (toInt (a.offset.tdiv defaultTransfer +
      toInt ((add64 a.logAddr a.logLen / defaultTransfer : Nat) - 1)) + 1) } :=
    ⟨h.paddr, h.forwrite, h.count⟩
  exact hs'.upLoop hs

theorem Plain.move {a : MoveArgs} (h : Plain s) (hs : move memInit s a = .ok t) : Plain t := by
  unfold MapDummy.move at hs
  split_ifs at hs
  · exact h.moveUpEach hs
  · exact h.moveUp hs
  · exact h.downLoop hs
  · exact h.moveDown hs
  · cases hs
    exact h

/-! ## `$create`, `$delete` and `$trans` -/

/-- What a loop that writes blocks leaves alone, and where it writes. -/
structure Writes (s t : Map) (g : Nat → Block) (index n : Nat) : Prop where
  permut : t.permut = s.permut
  used : t.used = s.used
  paddr : t.paddr = s.paddr
  forwrite : t.forwrite = s.forwrite
  count : t.count = s.count
  content : ∀ j < maxElems, t.table (t.permut j) =
    if index ≤ j ∧ j < index + n then g (j - index) else s.table (s.permut j)

theorem writes_writeLoop (g : Nat → Block) (h : IsPermutation maxElems s.permut)
    (hn : n = 0 ∨ index + n ≤ maxElems) : Writes s (writeLoop s g index n) g index n := by
  induction n with
  | zero => exact ⟨rfl, rfl, rfl, rfl, rfl, fun j _ => (if_neg (by omega)).symm⟩
  | succ n ih =>
    obtain ⟨hpermut, hused, hpaddr, hforwrite, hcount, hcontent⟩ := ih (by omega)
    refine ⟨hpermut, hused, hpaddr, hforwrite, hcount, fun j hj => ?_⟩
    have hupdate : (writeLoop s g index (n + 1)).table ((writeLoop s g index (n + 1)).permut j) =
        Function.update (writeLoop s g index n).table ((writeLoop s g index n).permut (index + n))
          (g n) ((writeLoop s g index n).permut j) := rfl
    rw [hupdate]
    by_cases heq : j = index + n
    · rw [heq, Function.update_self, if_pos (by omega), Nat.add_sub_cancel_left]
    · have hne : (writeLoop s g index n).permut j ≠ (writeLoop s g index n).permut (index + n) := by
        rw [hpermut]
        exact fun h' => heq (h.injective hj (by omega) h')
      rw [Function.update_of_ne hne, hcontent j hj]
      by_cases hin : index ≤ j ∧ j < index + n
      · rw [if_pos hin, if_pos (by omega)]
      · rw [if_neg hin, if_neg (by omega)]

theorem Writes.plain {g : Nat → Block} (h : Writes s t g index n) (hs : Plain s) : Plain t :=
  ⟨h.paddr.trans hs.paddr, h.forwrite.trans hs.forwrite, h.count.trans hs.count⟩

variable {logAddr logLen : Nat} {clear : Bool} {direction : Direction}
  {buf : Option (Nat → Block)}

/-- The blocks of the request, and nothing else, get a flag, and a content if there is one. -/
structure Sets (s t : Map) (logAddr logLen : Nat) (used : Bool) (g : Option Block) : Prop where
  permut : t.permut = s.permut
  plain : Plain s → Plain t
  usedInside : ∀ j, InRequest logAddr logLen j → t.used j = used
  usedOutside : ∀ j, ¬ InRequest logAddr logLen j → t.used j = s.used j
  inside : ∀ j < maxElems, InRequest logAddr logLen j →
    t.table (t.permut j) = g.getD (s.table (s.permut j))
  outside : ∀ j < maxElems, ¬ InRequest logAddr logLen j →
    t.table (t.permut j) = s.table (s.permut j)

theorem setUsed_inside {used : Bool} {j : Nat} (hj : InRequest logAddr logLen j) :
    (s.setUsed (blockIndex logAddr).toNat (logLen / defaultTransfer) used).used j = used := by
  unfold InRequest at hj
  simp only [Map.setUsed, memset]
  rw [if_pos hj]

theorem setUsed_outside {used : Bool} {j : Nat} (hj : ¬ InRequest logAddr logLen j) :
    (s.setUsed (blockIndex logAddr).toNat (logLen / defaultTransfer) used).used j = s.used j := by
  unfold InRequest at hj
  simp only [Map.setUsed, memset]
  rw [if_neg hj]

/-- All but the flags. -/
theorem setUsed_rest (s : Map) (index n : Nat) (used : Bool) :
    (s.setUsed index n used).permut = s.permut ∧ (s.setUsed index n used).table = s.table ∧
      (s.setUsed index n used).paddr = s.paddr ∧ (s.setUsed index n used).forwrite = s.forwrite ∧
      (s.setUsed index n used).count = s.count := by
  unfold Map.setUsed
  exact ⟨rfl, rfl, rfl, rfl, rfl⟩

theorem sets_of_writes {used : Bool} {block : Block} {u : Map}
    (h : Writes s u (fun _ => block) (blockIndex logAddr).toNat (logLen / defaultTransfer)) :
    Sets s (u.setUsed (blockIndex logAddr).toNat (logLen / defaultTransfer) used) logAddr logLen used
      (some block) := by
  obtain ⟨h1, h2, h3, h4, h5⟩ :=
    setUsed_rest u (blockIndex logAddr).toNat (logLen / defaultTransfer) used
  refine ⟨h1.trans h.permut, fun hs => ?_, fun j hj => setUsed_inside hj, fun j hj => ?_,
    fun j hj hin => ?_, fun j hj hout => ?_⟩
  · obtain ⟨p1, p2, p3⟩ := h.plain hs
    exact ⟨h3.trans p1, h4.trans p2, h5.trans p3⟩
  · rw [setUsed_outside hj, h.used]
  · unfold InRequest at hin
    rw [h1, h2, h.content j hj, if_pos hin]
    rfl
  · unfold InRequest at hout
    rw [h1, h2, h.content j hj, if_neg hout]

theorem sets_none {used : Bool} : Sets s (s.setUsed (blockIndex logAddr).toNat
    (logLen / defaultTransfer) used) logAddr logLen used none := by
  obtain ⟨h1, h2, h3, h4, h5⟩ :=
    setUsed_rest s (blockIndex logAddr).toNat (logLen / defaultTransfer) used
  refine ⟨h1, fun ⟨p1, p2, p3⟩ => ⟨h3.trans p1, h4.trans p2, h5.trans p3⟩,
    fun _ hj => setUsed_inside hj, fun _ hj => setUsed_outside hj, fun j _ _ => ?_, fun j _ _ => ?_⟩
  · rw [h1, h2]
    rfl
  · rw [h1, h2]

theorem Sets.maxIndex {used : Bool} {g : Option Block} (h : Sets s t logAddr logLen used g)
    (m : Int) : Sets s { t with maxIndex := m } logAddr logLen used g :=
  ⟨h.permut, fun hs => ⟨(h.plain hs).paddr, (h.plain hs).forwrite, (h.plain hs).count⟩,
    h.usedInside, h.usedOutside, h.inside, h.outside⟩

theorem inside_toNat {index : Int} (hcheck : ¬ (index < 0 ∨ maxElems ≤ index))
    (hin : ¬ ¬ Inside index n) : n = 0 ∨ index.toNat + n ≤ maxElems := by
  unfold Inside at hin
  omega

theorem sets_create (h : IsPermutation maxElems s.permut)
    (hs : create s logAddr logLen clear = .ok t) :
    Sets s t logAddr logLen true (if clear then some zeroBlock else none) := by
  unfold create at hs
  dsimp only at hs
  split at hs
  · cases hs
  rename_i hcheck
  split at hs
  · cases hs
  rename_i hin
  split at hs
  · cases hs
  rw [← Except.ok.inj hs]
  split
  · exact (sets_of_writes (writes_writeLoop _ h (inside_toNat hcheck hin))).maxIndex _
  · exact sets_none.maxIndex _

theorem sets_delete (h : IsPermutation maxElems s.permut)
    (hs : delete memInit s logAddr logLen = .ok t) :
    Sets s t logAddr logLen false (if memInit then some fillBlock else none) := by
  unfold delete at hs
  dsimp only at hs
  split at hs
  · cases hs
  rename_i hcheck
  split at hs
  · cases hs
  rename_i hin
  split at hs
  · cases hs
  rw [← Except.ok.inj hs]
  split
  · exact sets_of_writes (writes_writeLoop _ h (inside_toNat hcheck hin))
  · exact sets_none

theorem trans_cases {r : Option (Map × (Nat → Block))} (h : IsPermutation maxElems s.permut)
    (hs : trans s logAddr logLen direction buf = .ok r) :
    (∃ g, buf = some g ∧ s.used (blockIndex logAddr).toNat = true ∧ direction = .write ∧
      Writes s ((r.map Prod.fst).getD s) g (blockIndex logAddr).toNat (logLen / defaultTransfer)) ∨
    ¬ (s.used (blockIndex logAddr).toNat = true ∧ direction = .write) ∧
      (r.map Prod.fst).getD s = s := by
  unfold trans at hs
  dsimp only at hs
  split at hs
  · cases hs
  rename_i hcheck
  split at hs
  · rename_i hunused
    cases hs
    refine .inr ⟨fun ⟨hused, _⟩ => ?_, rfl⟩
    rw [hused] at hunused
    cases hunused
  rename_i hused
  have hused : s.used (blockIndex logAddr).toNat = true := by simpa using hused
  cases buf with
  | none => cases hs
  | some g =>
    unfold doTrans at hs
    dsimp only at hs
    split at hs
    · rename_i hstop
      split at hs
      · cases hs
      · cases hs
        exact .inr ⟨fun ⟨_, hwrite⟩ => (by rw [hstop] at hwrite; cases hwrite), rfl⟩
    split at hs
    · cases hs
    rename_i hin
    split at hs
    · cases hs
    split at hs
    · rename_i hread
      cases hs
      exact .inr ⟨fun ⟨_, hwrite⟩ => (by rw [hread] at hwrite; cases hwrite), rfl⟩
    · rename_i hstop _ hread
      cases hs
      have hwrite : direction = .write := by
        cases direction <;> simp_all
      exact .inl ⟨g, rfl, hused, hwrite, writes_writeLoop g h (inside_toNat hcheck hin)⟩

/-! ## One step of both -/

/-- The invariant of both variants. -/
structure Paired (defined : Nat → Prop) (s t : Map) : Prop where
  left : IsPermutation maxElems s.permut ∧ Plain s
  right : IsPermutation maxElems t.permut ∧ Plain t
  used : ∀ j < maxElems, s.used j = t.used j
  content : ∀ j < maxElems, defined j → s.table (s.permut j) = t.table (t.permut j)

theorem Paired.alike (h : Paired defined s t) : Alike defined s t where
  used := h.used
  content j hj _ hdefined := h.content j hj hdefined
  paddr j _ _ := by rw [h.left.2.paddr, h.right.2.paddr]
  forwrite j _ _ := by rw [h.left.2.forwrite, h.right.2.forwrite]
  count j _ _ := by rw [h.left.2.count, h.right.2.count]

theorem Sets.left {used : Bool} {g : Option Block} (h : Sets s t logAddr logLen used g)
    (hs : IsPermutation maxElems s.permut ∧ Plain s) :
    IsPermutation maxElems t.permut ∧ Plain t :=
  ⟨by rw [h.permut]; exact hs.1, h.plain hs.2⟩

theorem Paired.create (h : Paired defined s t)
    (hs : create s logAddr logLen clear = .ok s') (ht : create t logAddr logLen clear = .ok t') :
    Paired (definedAfter s defined (.create logAddr logLen clear)) s' t' := by
  have hs := sets_create h.left.1 hs
  have ht := sets_create h.right.1 ht
  refine ⟨hs.left h.left, ht.left h.right, fun j hj => ?_, fun j hj hdefined => ?_⟩
  · by_cases hin : InRequest logAddr logLen j
    · rw [hs.usedInside j hin, ht.usedInside j hin]
    · rw [hs.usedOutside j hin, ht.usedOutside j hin, h.used j hj]
  · by_cases hin : InRequest logAddr logLen j
    · rw [hs.inside j hj hin, ht.inside j hj hin]
      cases clear with
      | true => rfl
      | false => exact h.content j hj (hdefined.resolve_right fun hclear => by cases hclear.1)
    · rw [hs.outside j hj hin, ht.outside j hj hin]
      exact h.content j hj (hdefined.resolve_right fun hclear => hin hclear.2)

theorem Paired.delete (h : Paired defined s t)
    (hs : delete false s logAddr logLen = .ok s') (ht : delete true t logAddr logLen = .ok t') :
    Paired (definedAfter s defined (.delete logAddr logLen)) s' t' := by
  have hs := sets_delete h.left.1 hs
  have ht := sets_delete h.right.1 ht
  refine ⟨hs.left h.left, ht.left h.right, fun j hj => ?_, fun j hj hdefined => ?_⟩
  · by_cases hin : InRequest logAddr logLen j
    · rw [hs.usedInside j hin, ht.usedInside j hin]
    · rw [hs.usedOutside j hin, ht.usedOutside j hin, h.used j hj]
  · rw [hs.outside j hj hdefined.2, ht.outside j hj hdefined.2]
    exact h.content j hj hdefined.1

theorem Writes.left {g : Nat → Block} (h : Writes s t g index n)
    (hs : IsPermutation maxElems s.permut ∧ Plain s) :
    IsPermutation maxElems t.permut ∧ Plain t :=
  ⟨by rw [h.permut]; exact hs.1, h.plain hs.2⟩

theorem Paired.trans {r r' : Option (Map × (Nat → Block))} (h : Paired defined s t)
    (hindex : (blockIndex logAddr).toNat < maxElems)
    (hs : trans s logAddr logLen direction buf = .ok r)
    (ht : trans t logAddr logLen direction buf = .ok r') :
    Paired (definedAfter s defined (.trans logAddr logLen direction buf))
      ((r.map Prod.fst).getD s) ((r'.map Prod.fst).getD t) := by
  have hused := h.used _ hindex
  rcases trans_cases h.left.1 hs with ⟨g, rfl, hsused, hwrite, hs⟩ | ⟨hsnone, hs⟩
  · rcases trans_cases h.right.1 ht with ⟨_, hbuf, -, -, ht⟩ | ⟨htnone, -⟩
    · cases hbuf
      refine ⟨hs.left h.left, ht.left h.right, fun j hj => ?_, fun j hj hdefined => ?_⟩
      · rw [hs.used, ht.used, h.used j hj]
      · rw [hs.content j hj, ht.content j hj]
        split
        · rfl
        · rename_i hout
          exact h.content j hj (hdefined.resolve_right fun hin => hout hin.2.2)
    · exact absurd ⟨hused ▸ hsused, hwrite⟩ htnone
  · rcases trans_cases h.right.1 ht with ⟨_, _, htused, hwrite, -⟩ | ⟨-, ht⟩
    · exact absurd ⟨hused.trans htused, hwrite⟩ hsnone
    · rw [hs, ht]
      refine ⟨h.left, h.right, h.used, fun j hj hdefined => h.content j hj ?_⟩
      exact hdefined.resolve_right fun hin => hsnone ⟨hin.1, hin.2.1⟩

theorem eq_ofBlocks {a : MoveArgs} (haddr : a.logAddr % defaultTransfer = 0)
    (hlen : a.logLen % defaultTransfer = 0) (hoff : a.offset % defaultTransfer = 0) :
    a = ofBlocks a.source a.len (a.offset / defaultTransfer) a.offsetMax := by
  obtain ⟨logAddr, logLen, offset, offsetMax⟩ := a
  unfold ofBlocks MoveArgs.source MoveArgs.len
  simp only [MoveArgs.mk.injEq, and_true]
  exact ⟨(Nat.div_mul_cancel (Nat.dvd_of_mod_eq_zero haddr)).symm,
    (Nat.div_mul_cancel (Nat.dvd_of_mod_eq_zero hlen)).symm,
    (Int.ediv_mul_cancel (Int.dvd_of_emod_eq_zero hoff)).symm⟩

/-- A move that passes the checks ends inside of the arrays, or goes nowhere. -/
theorem source_le {a : MoveArgs} (ha : Regular (.move a)) (h : move memInit s a = .ok t) :
    a.offset = 0 ∨ a.len = 0 ∨ a.source + a.len ≤ maxElems := by
  obtain ⟨haddr, hoff, hfits, habove, -⟩ := ha
  unfold move at h
  split at h
  · cases h
  split at h
  · cases h
  rename_i hrest
  have hlen : a.logLen % defaultTransfer = 0 := by omega
  split at h
  · rename_i hpos
    split at h
    · rcases moveUpEach_eq s hfits hlen hpos with hfatal | ⟨hle, -⟩
      · rw [hfatal] at h
        cases h
      · omega
    · rw [moveUp_eq s hfits hpos] at h
      split at h
      · cases h
      · omega
  split at h
  · rename_i hneg
    split at h
    · have heq := eq_ofBlocks haddr hlen hoff
      have hdown : a.offset / defaultTransfer < 0 := Int.ediv_neg_of_neg_of_pos hneg (by decide)
      have hfits' := hfits
      rw [heq] at h hfits'
      rcases moveDownEach_eq s hfits' hdown with hfatal | ⟨hle, -⟩
      · rw [hfatal] at h
        cases h
      · omega
    · rw [moveDown_eq s hfits hneg, if_pos (habove hneg)] at h
      split at h
      · cases h
      · omega
  · exact .inl (by omega)

/-- A move that is regular and passes the checks. -/
theorem moved_of_regular {a : MoveArgs} (hs : IsPermutation maxElems s.permut ∧ Plain s)
    (ha : Regular (.move a)) (h : move memInit s a = .ok t) :
    (IsPermutation maxElems t.permut ∧ Plain t) ∧
      Moved s t a.source ((a.source : Int) + a.offset / defaultTransfer).toNat a.len := by
  obtain ⟨haddr, hoff, hfits, habove, hshort⟩ := ha
  have hlen : a.logLen % defaultTransfer = 0 := by
    unfold move at h
    split_ifs at h <;> omega
  refine ⟨⟨?_, hs.2.move h⟩, ?_⟩
  · rcases move_permutation hs.1 hfits (.inr ⟨habove, hshort⟩ : Keeps memInit a) with
      hfatal | ⟨u, hu, hperm⟩
    · rw [h] at hfatal
      cases hfatal
    · rw [h] at hu
      cases hu
      exact hperm
  · have heq := eq_ofBlocks haddr hlen hoff
    have hmoves : Moves s a.source a.len (a.offset / defaultTransfer) (move memInit s
        (ofBlocks a.source a.len (a.offset / defaultTransfer) a.offsetMax)) :=
      moves_move (fun _ => hs.1) (by rwa [← heq]) (.inr (by rwa [← heq]))
    rw [← heq, h] at hmoves
    rcases hmoves with hfatal | ⟨u, hu, -, hmoved⟩
    · cases hfatal
    · cases hu
      exact hmoved

theorem Paired.move {a : MoveArgs} (h : Paired defined s t) (ha : Regular (.move a))
    (hs : move false s a = .ok s') (ht : move true t a = .ok t') :
    Paired (definedAfter s defined (.move a)) s' t' := by
  have hsource := source_le ha hs
  obtain ⟨hleft, hs⟩ := moved_of_regular h.left ha hs
  obtain ⟨hright, ht⟩ := moved_of_regular h.right ha ht
  -- Where a block of the target comes from.
  have hfrom : ∀ j < maxElems, ((a.source : Int) + a.offset / defaultTransfer).toNat ≤ j →
      j < ((a.source : Int) + a.offset / defaultTransfer).toNat + a.len →
        a.source + (j - ((a.source : Int) + a.offset / defaultTransfer).toNat) < maxElems := by
    intro j hj hge hlt
    rcases hsource with hzero | hlen
    · rw [hzero] at hge ⊢
      simp only [Int.zero_ediv, Int.add_zero, Int.toNat_natCast] at hge ⊢
      omega
    · omega
  generalize htarget : ((a.source : Int) + a.offset / defaultTransfer).toNat = target at *
  have hmoved : ∀ {u u' : Map}, Moved u u' a.source target a.len → ∀ j, target ≤ j →
      j < target + a.len → u'.block j = u.block (a.source + (j - target)) := by
    intro u u' hu j hge hlt
    have := hu.moved (j - target) (by omega)
    rwa [Nat.add_sub_cancel' hge] at this
  refine ⟨hleft, hright, fun j hj => ?_, fun j hj hdefined => ?_⟩
  · by_cases hin : target ≤ j ∧ j < target + a.len
    · exact (congrArg Prod.fst (hmoved hs j hin.1 hin.2)).trans
        ((h.used _ (hfrom j hj hin.1 hin.2)).trans
          (congrArg Prod.fst (hmoved ht j hin.1 hin.2)).symm)
    by_cases hsrc : a.source ≤ j ∧ j < a.source + a.len
    · -- The block has been left.
      have hleave : ∀ k < a.len, a.source + (j - a.source) ≠ target + k := fun k hk => by omega
      have hsused := hs.vacated (j - a.source) (by omega) hleave
      have htused := ht.vacated (j - a.source) (by omega) hleave
      rw [Nat.add_sub_cancel' hsrc.1] at hsused htused
      rw [hsused, htused]
    · exact (congrArg Prod.fst (hs.kept j hj hsrc hin)).trans
        ((h.used j hj).trans (congrArg Prod.fst (ht.kept j hj hsrc hin)).symm)
  · rw [definedAfter, htarget] at hdefined
    split at hdefined
    · rename_i hin
      exact (congrArg Prod.snd (hmoved hs j hin.1 hin.2)).trans
        ((h.content _ (hfrom j hj hin.1 hin.2) hdefined).trans
          (congrArg Prod.snd (hmoved ht j hin.1 hin.2)).symm)
    · rename_i hin
      obtain ⟨hdefined, hsrc⟩ := hdefined
      exact (congrArg Prod.snd (hs.kept j hj hsrc hin)).trans
        ((h.content j hj hdefined).trans (congrArg Prod.snd (ht.kept j hj hsrc hin)).symm)

/-! ## Whole runs -/

theorem index_of_trans {r : Option (Map × (Nat → Block))}
    (hs : trans s logAddr logLen direction buf = .ok r) :
    (blockIndex logAddr).toNat < maxElems := by
  unfold MapDummy.trans at hs
  dsimp only at hs
  split at hs
  · cases hs
  · omega

theorem isSome_of_trans {r : Option (Map × (Nat → Block))}
    (hs : trans s logAddr logLen direction buf = .ok r) :
    r.isSome = s.used (blockIndex logAddr).toNat := by
  unfold MapDummy.trans at hs
  dsimp only at hs
  split at hs
  · cases hs
  split at hs
  · rename_i hunused
    cases hs
    exact (Bool.not_eq_true _).mp (by simpa using hunused) |>.symm
  · rename_i hused
    cases hdo : doTrans s (blockIndex logAddr) logLen direction buf with
    | error e =>
      rw [hdo] at hs
      cases hs
    | ok p =>
      rw [hdo] at hs
      cases hs
      exact (by simpa using hused : s.used (blockIndex logAddr).toNat = true).symm

theorem success_trans {r : Option (Map × (Nat → Block))}
    (hs : trans s logAddr logLen direction buf = .ok r) :
    success s (.trans logAddr logLen direction buf) = s.used (blockIndex logAddr).toNat := by
  have hsome : transSuccess (trans s logAddr logLen direction buf) = r.isSome := by
    rw [hs]
    rfl
  exact hsome.trans (isSome_of_trans hs)

theorem Paired.step (h : Paired defined s t) (he : Regular e) (hs : step false s e = some s')
    (ht : step true t e = some t') : Paired (definedAfter s defined e) s' t' := by
  cases e with
  | create logAddr logLen clear => exact h.create (of_toOption hs) (of_toOption ht)
  | delete logAddr logLen => exact h.delete (of_toOption hs) (of_toOption ht)
  | trans logAddr logLen direction buf =>
    simp only [MapDummy.step, Option.map_eq_some_iff] at hs ht
    obtain ⟨r, hr, rfl⟩ := hs
    obtain ⟨r', hr', rfl⟩ := ht
    have hr := of_toOption hr
    exact h.trans (index_of_trans hr) hr (of_toOption hr')
  | move a => exact h.move he (of_toOption hs) (of_toOption ht)

theorem Both.paired (h : Both s t defined) : Paired defined s t := by
  induction h with
  | init =>
    exact ⟨⟨isPermutation_id _, rfl, rfl, rfl⟩, ⟨isPermutation_id _, rfl, rfl, rfl⟩, fun _ _ => rfl,
      fun _ _ hfalse => hfalse.elim⟩
  | next _ he hs ht ih => exact ih.step he hs ht

end Athomux.MapDummy
