import Athomux.CopyOnWrite.Proofs

/-!
# The outputs against their private copies

What the outputs show, over all runs, against the copies that they should have.
-/

namespace Athomux

open Lib

namespace CopyOnWrite

variable {inp : CowInput} {u t : Use} {chains : CowOut → Nat → List Nat}
  {blocks : CowOut → Nat → Option Nat} {o : CowOut} {a p : Nat}

/-- The memory of a first get for writing contains the block of the input already. -/
def Filled (inp : CowInput) (u : Use) : CowEvent → Prop
  | .get x => x.forwrite = true → u.copies x.out x.logAddr = none → x.junk = inp.contents x.logAddr
  | _ => True

/-- A get shows the private copy, or the input while there is none, a get for writing succeeds, and
the memory of the input is as it was. -/
def Shows (inp : CowInput) (x : GetArgs) (u t : Use) : Prop :=
  ∃ r, u.sys.gettranswait inp x = some (r, t.sys) ∧ (x.forwrite = true → r.isSome = true) ∧
    (∀ q ∈ r, t.sys.data q = t.copies.shows inp x.out x.logAddr) ∧
    ∀ q b, inp.blockAt q = some b → t.sys.data q = inp.contents b

/-- The private blocks are apart from each other and from the input, and contain the copies. -/
structure Inv (inp : CowInput) (u : Use) (chains : CowOut → Nat → List Nat)
    (blocks : CowOut → Nat → Option Nat) : Prop where
  direct : Direct u.sys.pc
  tables : u.sys.Tables chains blocks
  own : ∀ o a p, blocks o a = some p →
    p ∈ u.sys.allocated ∧ p % 4 = 0 ∧ p < addrSpace ∧ inp.blockAt p = none
  apart : ∀ o a o' a' p, blocks o a = some p → blocks o' a' = some p → o' = o ∧ a' = a
  copies : ∀ o a, u.copies o a = (blocks o a).map u.sys.data
  buffers : ∀ o a p, (o, a, p) ∈ u.buffers → blocks o a = some p
  image : ∀ q b, inp.blockAt q = some b → u.sys.data q = inp.contents b

theorem Inv.start (h : Start inp u) : Inv inp u (fun _ _ => []) fun _ _ => none where
  direct := by
    rw [h.pc]
    exact PtrCache.AllSlots.init
  tables := by
    refine ⟨fun o b => ?_, fun _ _ => List.nodup_nil, fun _ _ _ he => (List.not_mem_nil he).elim,
      fun _ _ => rfl⟩
    rw [h.hash]
    rfl
  own := fun _ _ _ h => by cases h
  apart := fun _ _ _ _ _ h => by cases h
  copies := fun _ _ => by rw [h.copies]; rfl
  buffers := fun _ _ _ hb => by rw [h.buffers] at hb; cases hb
  image := h.data

/-! ## Copies -/

/-- A block that is private stays as it is. -/
theorem Copies.get_of_some (k : Copies) (x : GetArgs) {b : Block}
    (h : k x.out x.logAddr = some b) : k.get inp x = k := by
  unfold Copies.get
  split
  · funext o a
    by_cases hoa : o = x.out ∧ a = x.logAddr
    · obtain ⟨rfl, rfl⟩ := hoa
      rw [setAt_self, Copies.shows, h]
      rfl
    · rw [setAt_of_ne _ _ hoa]
  · rfl

theorem Inv.shows_private (h : Inv inp u chains blocks) (hb : blocks o a = some p) :
    u.copies.shows inp o a = u.sys.data p := by
  unfold Copies.shows
  rw [h.copies, hb]
  rfl

theorem Inv.shows_shared (h : Inv inp u chains blocks) (hb : blocks o a = none) :
    u.copies.shows inp o a = inp.contents a := by
  unfold Copies.shows
  rw [h.copies, hb]
  rfl

/-! ## Stores -/

theorem data_store_self (s : CopyOnWrite) (p : Nat) (off : Fin 4096) (byte : UInt8) :
    (s.store p off byte).data p = Function.update (s.data p) off byte := Function.update_self ..

theorem data_store_of_ne (s : CopyOnWrite) {p q : Nat} (off : Fin 4096) (byte : UInt8)
    (h : q ≠ p) : (s.store p off byte).data q = s.data q := Function.update_of_ne h ..

theorem Inv.store (h : Inv inp u chains blocks) (hin : (o, a, p) ∈ u.buffers) (off : Fin 4096)
    (byte : UInt8) :
    Inv inp { u with
      sys := u.sys.store p off byte
      copies := setAt u.copies o a (Function.update (u.copies.shows inp o a) off byte) }
      chains blocks := by
  have hb := h.buffers o a p hin
  refine ⟨h.direct, ⟨h.tables.chain, h.tables.nodup, h.tables.allocated, h.tables.find⟩, h.own,
    h.apart, fun o' a' => ?_, h.buffers, fun q b hq => ?_⟩
  · change setAt u.copies o a _ o' a' = (blocks o' a').map (u.sys.store p off byte).data
    by_cases hoa : o' = o ∧ a' = a
    · obtain ⟨rfl, rfl⟩ := hoa
      rw [setAt_self, hb, h.shows_private hb]
      rw [Option.map_some, data_store_self]
    · rw [setAt_of_ne _ _ hoa, h.copies]
      refine Option.map_congr fun q hq => (data_store_of_ne _ _ _ ?_).symm
      rintro rfl
      exact hoa (h.apart _ _ _ _ _ hb hq)
  · have hne : q ≠ p := by
      rintro rfl
      rw [(h.own o a q hb).2.2.2] at hq
      cases hq
    exact (data_store_of_ne _ _ _ hne).trans (h.image q b hq)

/-! ## Gets -/

/-- A get changes the pointer cache only, and perhaps hands out a buffer, when there is a copy or
none is made. -/
theorem Inv.hand (h : Inv inp u chains blocks) {pc : PtrCache} (hpc : Direct pc)
    {bs : List (CowOut × Nat × Nat)} (hbs : ∀ o a p, (o, a, p) ∈ bs → blocks o a = some p) :
    Inv inp { u with sys := { u.sys with pc := pc }, buffers := bs ++ u.buffers } chains blocks :=
  ⟨hpc, h.tables.congr pc u.sys.data, h.own, h.apart, h.copies,
    fun o a p hp => (List.mem_append.mp hp).elim (hbs o a p) (h.buffers o a p), h.image⟩

theorem Inv.private_get (h : Inv inp u chains blocks) {x : GetArgs}
    (hb : blocks x.out x.logAddr = some p) :
    ∃ pc, u.sys.gettranswait inp x = some (some p, { u.sys with pc := pc }) ∧ Direct pc := by
  obtain ⟨pc, hget, hdir⟩ := h.tables.getBlockAddr h.direct x.out x.logAddr
  obtain ⟨-, h4, hlt, -⟩ := h.own _ _ _ hb
  obtain ⟨pc', hmem, hdir'⟩ := memGet_eq (s := { u.sys with pc := pc }) hdir
    x.logLen x.forwrite h4 hlt
  refine ⟨pc', ?_, hdir'⟩
  unfold gettranswait
  rw [hget, hb]
  dsimp only
  rw [hmem]

theorem Inv.shared_read (h : Inv inp u chains blocks) {x : GetArgs}
    (hb : blocks x.out x.logAddr = none) (hw : x.forwrite = false) :
    ∃ pc, u.sys.gettranswait inp x = some (x.reply, { u.sys with pc := pc }) ∧ Direct pc := by
  obtain ⟨pc, hget, hdir⟩ := h.tables.getBlockAddr h.direct x.out x.logAddr
  refine ⟨pc, ?_, hdir⟩
  unfold gettranswait
  rw [hget, hb]
  dsimp only
  rw [hw]
  rfl

/-- What a first get for writing leaves: new memory for the block, and an entry for it. -/
structure Added (inp : CowInput) (u : Use) (x : GetArgs) (chains : CowOut → Nat → List Nat)
    (blocks : CowOut → Nat → Option Nat) (s : CopyOnWrite) : Prop where
  direct : Direct s.pc
  tables : s.Tables chains (setAt blocks x.out x.logAddr x.newBlock)
  data : s.data = Function.update u.sys.data x.newBlock x.junk
  fresh : u.sys.Fresh inp x.newBlock
  block : x.newBlock ∈ s.allocated
  allocated : ∀ q ∈ u.sys.allocated, q ∈ s.allocated

theorem Inv.first_write (h : Inv inp u chains blocks) {x : GetArgs}
    (hb : blocks x.out x.logAddr = none) (hw : x.forwrite = true) {y : Option Nat × CopyOnWrite}
    (hy : u.sys.gettranswait inp x = some y) :
    y.1 = some x.newBlock ∧ ∃ chains', Added inp u x chains' blocks y.2 := by
  obtain ⟨pc, hget, hdir⟩ := h.tables.getBlockAddr h.direct x.out x.logAddr
  unfold gettranswait at hy
  rw [hget, hb] at hy
  dsimp only at hy
  rw [if_pos hw] at hy
  obtain ⟨z, hz, hy⟩ := Option.bind_eq_some_iff.mp hy
  obtain ⟨v, hv, rfl⟩ := Option.map_eq_some_iff.mp hy
  obtain ⟨hfresh, -, pc', rfl, hdir'⟩ := memAlloc_eq hdir hz
  obtain ⟨hfresh', h0, pc'', rfl, hdir''⟩ := addBlockAddr_eq hdir' hv
  have htables := ((h.tables.moreMemory x.newBlock).congr pc''
    (Function.update u.sys.data x.newBlock x.junk)).moreMemory x.newEntry
  have hnot : ∀ o b, x.newEntry ∉ chains o b := fun o b he =>
    hfresh'.2.2.1 (List.mem_cons_of_mem _ (h.tables.allocated o b _ he))
  have h4 : x.newEntry % 4 = 0 := by
    have h8 := hfresh'.1
    omega
  obtain ⟨chains', htables'⟩ := htables.linked (o := x.out) (a := x.logAddr)
    (List.mem_cons_self ..) hnot h0 h4 hfresh'.2.1 x.newBlock
  exact ⟨rfl, chains', hdir'', htables', rfl, hfresh,
    List.mem_cons_of_mem _ (List.mem_cons_self ..),
    fun q hq => List.mem_cons_of_mem _ (List.mem_cons_of_mem _ hq)⟩

theorem Inv.added (h : Inv inp u chains blocks) {x : GetArgs} {s : CopyOnWrite}
    {chains' : CowOut → Nat → List Nat} (hb : blocks x.out x.logAddr = none)
    (hjunk : x.junk = inp.contents x.logAddr) (ha : Added inp u x chains' blocks s) :
    Inv inp { sys := s
              copies := setAt u.copies x.out x.logAddr (inp.contents x.logAddr)
              buffers := (x.out, x.logAddr, x.newBlock) :: u.buffers }
      chains' (setAt blocks x.out x.logAddr x.newBlock) where
  direct := ha.direct
  tables := ha.tables
  own := by
    intro o a p hp
    rcases setAt_eq_some _ _ hp with ⟨-, -, rfl⟩ | hp
    · have h8 := ha.fresh.1
      exact ⟨ha.block, by omega, ha.fresh.2.1, ha.fresh.2.2.2⟩
    · obtain ⟨hin, hrest⟩ := h.own o a p hp
      exact ⟨ha.allocated p hin, hrest⟩
  apart := by
    -- The new block is not in use for another one.
    have hnew : ∀ o a, blocks o a ≠ some x.newBlock := fun o a hp =>
      ha.fresh.2.2.1 (h.own o a _ hp).1
    intro o a o' a' p hp hp'
    rcases setAt_eq_some _ _ hp with ⟨rfl, rfl, rfl⟩ | hp
    · rcases setAt_eq_some _ _ hp' with ⟨ho, ha, -⟩ | hp'
      · exact ⟨ho, ha⟩
      · exact absurd hp' (hnew _ _)
    · rcases setAt_eq_some _ _ hp' with ⟨-, -, rfl⟩ | hp'
      · exact absurd hp (hnew _ _)
      · exact h.apart _ _ _ _ _ hp hp'
  copies := by
    intro o a
    change setAt u.copies x.out x.logAddr _ o a = _
    rw [ha.data]
    by_cases hoa : o = x.out ∧ a = x.logAddr
    · obtain ⟨rfl, rfl⟩ := hoa
      rw [setAt_self, setAt_self, Option.map_some, Function.update_self, hjunk]
    · rw [setAt_of_ne _ _ hoa, setAt_of_ne _ _ hoa, h.copies]
      refine Option.map_congr fun q hq => (Function.update_of_ne ?_ _ _).symm
      rintro rfl
      exact ha.fresh.2.2.1 (h.own o a _ hq).1
  buffers := by
    intro o a p hp
    rcases List.mem_cons.mp hp with hp | hp
    · cases hp
      exact setAt_self ..
    · have hold := h.buffers o a p hp
      rw [setAt_of_ne]
      · exact hold
      · rintro ⟨rfl, rfl⟩
        cases hb.symm.trans hold
  image := by
    intro q b hq
    rw [ha.data]
    refine (Function.update_of_ne ?_ _ _).trans (h.image q b hq)
    rintro rfl
    cases ha.fresh.2.2.2.symm.trans hq

/-- A get keeps the invariant, and shows what it should. -/
theorem Inv.get (h : Inv inp u chains blocks) {x : GetArgs} (hf : Filled inp u (.get x))
    (hstep : step inp u (.get x) = some t) :
    ∃ chains' blocks', Inv inp t chains' blocks' ∧ Shows inp x u t := by
  simp only [step] at hstep
  split at hstep
  on_goal 2 => cases hstep
  rename_i hreply
  obtain ⟨y, hy, rfl⟩ := Option.map_eq_some_iff.mp hstep
  cases hb : blocks x.out x.logAddr with
  | some p =>
    obtain ⟨pc, hget, hdir⟩ := h.private_get hb
    cases hget.symm.trans hy
    have hcopy : u.copies x.out x.logAddr = some (u.sys.data p) := by rw [h.copies, hb]; rfl
    dsimp only
    rw [Copies.get_of_some u.copies x hcopy]
    refine ⟨chains, blocks, h.hand hdir ?_, _, hget, fun _ => rfl, ?_, h.image⟩
    · intro o a q hq
      split at hq
      · rw [Option.toList_some, List.map_singleton, List.mem_singleton] at hq
        cases hq
        exact hb
      · cases hq
    · rintro q hq
      cases Option.mem_some.mp hq
      exact (h.shows_private hb).symm
  | none =>
    cases hw : x.forwrite with
    | false =>
      obtain ⟨pc, hget, hdir⟩ := h.shared_read hb hw
      cases hget.symm.trans hy
      have hcopies : u.copies.get inp x = u.copies := by
        unfold Copies.get
        rw [hw]
        rfl
      dsimp only
      rw [hcopies]
      refine ⟨chains, blocks, h.hand hdir (fun _ _ _ hq => by cases hq), _, hget,
        fun hc => absurd (hw.symm.trans hc) Bool.false_ne_true, fun q hq => ?_, h.image⟩
      rw [Option.mem_def.mp hq] at hreply
      rw [h.image q x.logAddr (of_decide_eq_true hreply)]
      exact (h.shows_shared hb).symm
    | true =>
      have hcopy : u.copies x.out x.logAddr = none := by rw [h.copies, hb]; rfl
      obtain ⟨hr, chains', ha⟩ := h.first_write hb hw hy
      have hinv := h.added hb (hf hw hcopy) ha
      have hcopies : u.copies.get inp x =
          setAt u.copies x.out x.logAddr (inp.contents x.logAddr) := by
        unfold Copies.get
        rw [if_pos hw, h.shows_shared hb]
      rw [hcopies, hr, if_pos rfl]
      refine ⟨chains', _, hinv, _, hy, fun _ => hr ▸ rfl, fun q hq => ?_, hinv.image⟩
      rw [hr] at hq
      cases Option.mem_some.mp hq
      exact (hinv.shows_private (setAt_self ..)).symm

/-! ## All runs -/

theorem Inv.step {e : CowEvent} (h : Inv inp u chains blocks) (hf : Filled inp u e)
    (hstep : step inp u e = some t) : ∃ chains' blocks', Inv inp t chains' blocks' := by
  cases e with
  | get x =>
    obtain ⟨chains', blocks', hinv, -⟩ := h.get hf hstep
    exact ⟨chains', blocks', hinv⟩
  | store o a p off byte =>
    simp only [CopyOnWrite.step] at hstep
    split at hstep
    · rename_i hin
      cases hstep
      exact ⟨chains, blocks, h.store hin off byte⟩
    · cases hstep
  | put =>
    cases hstep
    exact ⟨chains, blocks, h⟩

/-- **Each output is a private copy, if the new blocks are filled.** In a run in which the memory for
a private block has the contents of the block of the input, every get shows the copy of its output,
and no store is seen in another block, at the other output or at the input. -/
theorem output_is_copy (inp : CowInput) {u : Use}
    (h : Reach (step inp) (Start inp) (Filled inp) u) :
    ∀ x t, Filled inp u (.get x) → step inp u (.get x) = some t → Shows inp x u t := by
  have hstart : ∀ u, Start inp u → ∃ chains blocks, Inv inp u chains blocks :=
    fun u h0 => ⟨_, _, .start h0⟩
  have hnext : ∀ u e t, (∃ chains blocks, Inv inp u chains blocks) → Filled inp u e →
      step inp u e = some t → ∃ chains blocks, Inv inp t chains blocks := by
    rintro u e t ⟨_, _, hi⟩ hf hs
    exact hi.step hf hs
  obtain ⟨chains, blocks, hinv⟩ := h.invariant hstart hnext
  intro x t hf hstep
  obtain ⟨-, -, -, hshows⟩ := hinv.get hf hstep
  exact hshows

/-- Memory of zeros. -/
def zeroUse : Use where
  sys := ⟨fun _ _ => 0, .init, fun _ => 0, fun _ => 0, fun _ => 0, fun _ _ => 0, []⟩
  copies := fun _ _ => none
  buffers := []

/-- An input whose blocks are full of `byte`. -/
def constInput (byte : UInt8) : CowInput := ⟨fun _ _ => byte, fun _ => none⟩

theorem zeroUse_start (byte : UInt8) : Start (constInput byte) zeroUse where
  hash := rfl
  pc := rfl
  allocated := rfl
  data := fun _ _ h => by cases h
  copies := rfl
  buffers := rfl

/-- The first get for writing of a block, with new memory of zeros. -/
def firstGet : GetArgs := ⟨.out1, 65536, 4096, true, none, 4096, 8192, fun _ => 0⟩

/-- A block of zeros is made private, and a byte is stored, and the block is read. -/
theorem output_is_copy_zero : ∃ u x t, Reach (step (constInput 0)) (Start (constInput 0))
    (Filled (constInput 0)) u ∧ step (constInput 0) u (.get x) = some t ∧
      Shows (constInput 0) x u t := by
  have hrun : ((step (constInput 0) zeroUse (.get firstGet)).bind fun u =>
      (step (constInput 0) u (.store .out1 65536 4096 3 7)).bind fun u =>
        step (constInput 0) u (.get ⟨.out1, 65536, 4096, false, none, 0, 0, fun _ => 0⟩)).isSome =
          true := by
    decide
  obtain ⟨t, ht⟩ := Option.isSome_iff_exists.mp hrun
  obtain ⟨u, hu, ht⟩ := Option.bind_eq_some_iff.mp ht
  obtain ⟨v, hv, ht⟩ := Option.bind_eq_some_iff.mp ht
  have hfilled : Filled (constInput 0) zeroUse (.get firstGet) := fun _ _ => rfl
  have hstored : Filled (constInput 0) u (.store .out1 65536 4096 3 7) := trivial
  have hreach : Reach (step (constInput 0)) (Start (constInput 0)) (Filled (constInput 0)) v :=
    .next (.next (.start (zeroUse_start 0)) hfilled hu) hstored hv
  have hread : Filled (constInput 0) v
      (.get ⟨.out1, 65536, 4096, false, none, 0, 0, fun _ => 0⟩) :=
    fun h => absurd h Bool.false_ne_true
  exact ⟨v, _, t, hreach, ht, output_is_copy (constInput 0) hreach _ t hread ht⟩

/-- The memory for a new block is not filled with the block of the input. -/
theorem output_not_copy : ¬ ∀ (inp : CowInput) (u : Use), Reach (step inp) (Start inp) anyEvent u →
    ∀ x t, step inp u (.get x) = some t → Shows inp x u t := by
  intro h
  have hrun : (step (constInput 1) zeroUse (.get firstGet)).map (fun t =>
      (t.sys.data 4096 0, t.copies.shows (constInput 1) .out1 65536 0)) = some (0, 1) := by
    decide
  have hget : (zeroUse.sys.gettranswait (constInput 1) firstGet).map (·.1) =
      some (some 4096) := by
    decide
  obtain ⟨t, ht, heq⟩ := Option.map_eq_some_iff.mp hrun
  obtain ⟨y, hy, hptr⟩ := Option.map_eq_some_iff.mp hget
  obtain ⟨r, hr, -, hshows, -⟩ := h _ _ (.start (zeroUse_start 1)) _ t ht
  cases hr.symm.trans hy
  have hbyte := congrFun (hshows 4096 hptr) 0
  rw [Prod.mk.injEq] at heq
  exact absurd (heq.1.symm.trans (hbyte.trans heq.2)) (by decide)

end CopyOnWrite

end Athomux
