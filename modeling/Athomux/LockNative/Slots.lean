import Athomux.LockNative.Words

/-!
# Slots of the native locks

Recycled slots are below the counter, so that the lowest free slot is at most the next fresh one.
-/

open Lib

namespace Athomux.LockNative.Words

variable {pt : Pthread} {s s' : Words} {i j w : Nat} {e : Event}

/-! ## Bits -/

/-- The bit of a slot. -/
def free (s : Words) (i : Nat) : Bool := (s.freeLocks (i / wordSize)).getLsbD (i % wordSize)

theorem ffs_sub_one {x : BitVec 32} (h : x ≠ 0) : ffs x - 1 = x.ctz.toNat := by
  rw [ffs, if_neg h, Nat.add_sub_cancel]

theorem ctz_lt {x : BitVec 32} (h : x ≠ 0) : x.ctz.toNat < wordSize :=
  BitVec.ctz_lt_iff_ne_zero.mpr h

theorem findWord_some (h : findWord s.freeLocks = some w) :
    w < nWords ∧ s.freeLocks w ≠ 0 ∧ ∀ v < w, s.freeLocks v = 0 := by
  obtain ⟨hw, hmem, hbefore⟩ := List.find?_range_eq_some.mp h
  exact ⟨List.mem_range.mp hmem, by simpa using hw, fun v hv => by simpa using hbefore v hv⟩

theorem findWord_none (h : findWord s.freeLocks = none) (hi : i < nNativeLocks) :
    free s i = false := by
  have hw : i / wordSize < nWords := by
    unfold nNativeLocks at hi
    unfold wordSize nWords
    omega
  have hzero : s.freeLocks (i / wordSize) = 0 := by
    simpa using List.find?_range_eq_none.mp h _ hw
  simp [free, hzero]

/-- The search finds the lowest bit that is set. -/
theorem lowest (h : findWord s.freeLocks = some w) {b : Nat}
    (hb : b = (s.freeLocks w).ctz.toNat) :
    w * wordSize + b < nNativeLocks ∧ free s (w * wordSize + b) = true ∧
      ∀ j < w * wordSize + b, free s j = false := by
  obtain ⟨hw, hne, hbefore⟩ := findWord_some h
  have hlt : b < wordSize := hb ▸ ctz_lt hne
  have hdiv : (w * wordSize + b) / wordSize = w := by
    unfold wordSize at *
    omega
  have hmod : (w * wordSize + b) % wordSize = b := by
    unfold wordSize at *
    omega
  refine ⟨?_, ?_, fun j hj => ?_⟩
  · unfold nWords at hw
    unfold wordSize at *
    unfold nNativeLocks
    omega
  · rw [free, hdiv, hmod, hb]
    exact BitVec.getLsbD_true_ctz_of_ne_zero hne
  · rcases Nat.lt_or_ge (j / wordSize) w with hjw | hjw
    · simp [free, hbefore _ hjw]
    · have hjw : j / wordSize = w := by
        unfold wordSize at *
        omega
      have hjb : j % wordSize < b := by
        unfold wordSize at *
        omega
      rw [free, hjw]
      exact BitVec.getLsbD_false_of_lt_ctz (hb ▸ hjb)

/-- Slots are the same if the words and the bits are. -/
theorem slot_eq_iff : i = j ↔ i / wordSize = j / wordSize ∧ i % wordSize = j % wordSize := by
  unfold wordSize
  omega

theorem mod_lt (i : Nat) : i % wordSize < 32 := Nat.mod_lt _ (by decide)

/-- The words with the bit of `i` cleared. -/
def taken (s : Words) (i : Nat) : Words :=
  let w := i / wordSize
  let word := s.freeLocks w &&& ~~~BitVec.twoPow 32 (i % wordSize)
  { s with freeLocks := Function.update s.freeLocks w word }

def given (s : Words) (i : Nat) : Words :=
  let w := i / wordSize
  let word := s.freeLocks w ||| BitVec.twoPow 32 (i % wordSize)
  { s with freeLocks := Function.update s.freeLocks w word }

theorem free_taken : free (taken s i) j = (free s j && j != i) := by
  unfold free taken
  dsimp only
  by_cases hw : j / wordSize = i / wordSize
  · rw [hw, Function.update_self, BitVec.getLsbD_and, BitVec.getLsbD_not, BitVec.getLsbD_twoPow]
    have hbit : i % wordSize = j % wordSize ↔ j = i := by
      rw [slot_eq_iff (i := j) (j := i), hw]
      exact ⟨fun h => ⟨rfl, h.symm⟩, fun h => h.2.symm⟩
    simp only [mod_lt, hbit, decide_true, Bool.true_and, bne, Bool.beq_eq_decide_eq]
  · have hne : (j != i) = true := by
      rw [bne_iff_ne]
      exact fun heq => hw (heq ▸ rfl)
    rw [Function.update_of_ne hw, hne, Bool.and_true]

theorem free_given : free (given s i) j = (free s j || j == i) := by
  unfold free given
  dsimp only
  by_cases hw : j / wordSize = i / wordSize
  · rw [hw, Function.update_self, BitVec.getLsbD_or, BitVec.getLsbD_twoPow]
    have hbit : i % wordSize = j % wordSize ↔ j = i := by
      rw [slot_eq_iff (i := j) (j := i), hw]
      exact ⟨fun h => ⟨rfl, h.symm⟩, fun h => h.2.symm⟩
    simp only [mod_lt, hbit, decide_true, Bool.true_and, Bool.beq_eq_decide_eq]
  · have hne : (j == i) = false := by
      rw [beq_eq_false_iff_ne]
      exact fun heq => hw (heq ▸ rfl)
    rw [Function.update_of_ne hw, hne, Bool.or_false]

/-! ## The invariant -/

/-- What `$gadr` does to the bits. -/
theorem gadr_some (pt : Pthread) (h : findWord s.freeLocks = some w) :
    ∃ i, i < nNativeLocks ∧ free s i = true ∧ (∀ j < i, free s j = false) ∧
      gadr pt s = (if ((taken s i).initLock pt i).1 then some i else none,
        ((taken s i).initLock pt i).2) := by
  obtain ⟨hlt, hfree, hbelow⟩ := lowest h rfl
  have hne := (findWord_some h).2.1
  have hb := ctz_lt hne
  refine ⟨_, hlt, hfree, hbelow, ?_⟩
  have hdiv : (w * wordSize + (s.freeLocks w).ctz.toNat) / wordSize = w := by
    unfold wordSize at *
    omega
  have hmod : (w * wordSize + (s.freeLocks w).ctz.toNat) % wordSize =
      (s.freeLocks w).ctz.toNat := by
    unfold wordSize at *
    omega
  simp only [gadr, h, ffs_sub_one hne, taken, hdiv, hmod]

/-- A slot is allocated when its bit is cleared. What is below the counter was initialised. -/
structure Inv (s : Words) : Prop where
  allocated : ∀ i, i ∈ s.allocated ↔ i < nNativeLocks ∧ free s i = false
  nodup : s.allocated.Nodup
  below : ∀ i ∈ s.allocated, i < s.nSecondHandLocks
  inits : ∀ i, i ∈ s.inits ↔ i < s.nSecondHandLocks
  once : s.inits.Nodup
  bugs : s.bugs = []

theorem Inv.init : Inv start where
  allocated i := by
    have hbit : free start i = true :=
      BitVec.getLsbD_allOnes.trans (decide_eq_true (mod_lt i))
    rw [hbit]
    simp [start]
  nodup := List.nodup_nil
  below i hi := absurd hi List.not_mem_nil
  inits i := by simp [start]
  once := List.nodup_nil
  bugs := rfl

/-- The counter is not above the slot that is initialised. -/
theorem initLock_cases (hinit : pt.condInit i = true) (hle : i ≤ s.nSecondHandLocks) :
    s.initLock pt i = (true, { s with nSecondHandLocks := s.nSecondHandLocks + 1, inits := i :: s.inits }) ∧
        i = s.nSecondHandLocks ∨
      s.initLock pt i = (true, s) ∧ i < s.nSecondHandLocks := by
  rcases Nat.eq_or_lt_of_le hle with heq | hlt
  · left
    rw [initLock, if_pos heq, hinit]
    exact ⟨rfl, heq⟩
  · right
    rw [initLock, if_neg (Nat.ne_of_lt hlt), if_neg (Nat.not_lt.mpr hle)]
    exact ⟨rfl, hlt⟩

/-- `$gadr` gives the lowest slot that is not allocated. -/
theorem Inv.lowest (h : Inv s) (hlt : i < nNativeLocks) (hfree : free s i = true)
    (hbelow : ∀ j < i, free s j = false) :
    i ∉ s.allocated ∧ (∀ j < i, j ∈ s.allocated) ∧ i ≤ s.nSecondHandLocks := by
  have hall : ∀ j < i, j ∈ s.allocated := fun j hj =>
    (h.allocated j).mpr ⟨hj.trans hlt, hbelow j hj⟩
  refine ⟨fun hmem => ?_, hall, ?_⟩
  · rw [((h.allocated i).mp hmem).2] at hfree
    cases hfree
  · by_contra hgt
    have hn := h.below _ (hall s.nSecondHandLocks (Nat.not_le.mp hgt))
    exact Nat.lt_irrefl _ hn

theorem Inv.gadr (h : Inv s) (hpt : pt.Works) :
    (∃ i, (Words.gadr pt s).1 = some i ∧ i ∉ s.allocated ∧ (∀ j < i, j ∈ s.allocated) ∧
        i < nNativeLocks ∧ Inv { (Words.gadr pt s).2 with allocated := i :: s.allocated }) ∨
      (Words.gadr pt s) = (none, s) ∧ ∀ i < nNativeLocks, i ∈ s.allocated := by
  cases hfind : findWord s.freeLocks with
  | none =>
    right
    refine ⟨by rw [Words.gadr, hfind], fun i hi => ?_⟩
    exact (h.allocated i).mpr ⟨hi, findWord_none hfind hi⟩
  | some w =>
    left
    obtain ⟨i, hlt, hfree, hbelow, heq⟩ := gadr_some pt hfind
    obtain ⟨hnot, hall, hle⟩ := h.lowest hlt hfree hbelow
    have hbits : ∀ k, (k = i ∨ k ∈ s.allocated) ↔
        k < nNativeLocks ∧ free (taken s i) k = false := by
      intro k
      rw [free_taken, h.allocated]
      by_cases hk : k = i
      · simp [hk, hlt]
      · simp [hk]
    refine ⟨i, ?_, hnot, hall, hlt, ?_⟩ <;> rw [heq]
    · obtain ⟨hinit, -⟩ | ⟨hinit, -⟩ := initLock_cases (s := taken s i) (hpt.condInit i) hle <;>
        rw [hinit] <;> rfl
    · obtain ⟨hinit, hn⟩ | ⟨hinit, hn⟩ := initLock_cases (s := taken s i) (hpt.condInit i) hle <;>
        rw [hinit]
      · have hn : i = s.nSecondHandLocks := hn
        exact {
          allocated := fun k => List.mem_cons.trans (hbits k)
          nodup := List.nodup_cons.mpr ⟨hnot, h.nodup⟩
          below := fun k hk => by
            rcases List.mem_cons.mp hk with rfl | hk
            · exact Nat.lt_succ_of_le (Nat.le_of_eq hn)
            · exact Nat.lt_succ_of_lt (h.below k hk)
          inits := fun k => by
            rw [List.mem_cons, Nat.lt_succ_iff_lt_or_eq, or_comm]
            exact or_congr (h.inits k) (by rw [hn]; rfl)
          once := List.nodup_cons.mpr
            ⟨fun hmem => Nat.lt_irrefl _ (hn ▸ (h.inits i).mp hmem), h.once⟩
          bugs := h.bugs }
      · exact {
          allocated := fun k => List.mem_cons.trans (hbits k)
          nodup := List.nodup_cons.mpr ⟨hnot, h.nodup⟩
          below := fun k hk => by
            rcases List.mem_cons.mp hk with rfl | hk
            · exact hn
            · exact h.below k hk
          inits := h.inits
          once := h.once
          bugs := h.bugs }

theorem and_mask_eq_zero {x : BitVec 32} {b : Nat} (hb : b < 32) :
    x &&& BitVec.twoPow 32 b = 0 ↔ x.getLsbD b = false := by
  rw [BitVec.and_twoPow]
  cases x.getLsbD b with
  | false => simp
  | true =>
    have hbit : (BitVec.twoPow 32 b).getLsbD b = true := by
      rw [BitVec.getLsbD_twoPow]
      simp [hb]
    refine iff_of_false (fun h => ?_) (by simp)
    rw [if_pos rfl] at h
    rw [h] at hbit
    simp at hbit

theorem Inv.padr (h : Inv s) (hpt : pt.Works) :
    (i ∈ s.allocated ∧ (Words.padr pt s i).1 = true ∧
        Inv { (Words.padr pt s i).2 with allocated := s.allocated.erase i }) ∨
      i ∉ s.allocated ∧ Words.padr pt s i = (false, s) := by
  have hmem := h.allocated i
  by_cases hlt : i < nNativeLocks
  · by_cases hbit : free s i = false
    · left
      have hzero := (and_mask_eq_zero (mod_lt i)).mpr hbit
      have hbits : ∀ k, k ∈ s.allocated.erase i ↔ k < nNativeLocks ∧ free (given s i) k = false := by
        intro k
        rw [h.nodup.mem_erase_iff, h.allocated, free_given, Bool.or_eq_false_iff,
          beq_eq_false_iff_ne]
        exact ⟨fun hk => ⟨hk.2.1, hk.2.2, hk.1⟩, fun hk => ⟨hk.2.2, hk.1, hk.2.1⟩⟩
      refine ⟨hmem.mpr ⟨hlt, hbit⟩, ?_, ?_⟩
      · rw [Words.padr, if_pos hlt, if_pos hzero, hpt.condBroadcast]
      · rw [Words.padr, if_pos hlt, if_pos hzero]
        exact {
          allocated := hbits
          nodup := h.nodup.erase i
          below := fun k hk => h.below k (List.mem_of_mem_erase hk)
          inits := h.inits
          once := h.once
          bugs := h.bugs }
    · right
      refine ⟨fun hi => hbit (hmem.mp hi).2, ?_⟩
      rw [Words.padr, if_pos hlt, if_neg ((and_mask_eq_zero (mod_lt i)).not.mpr hbit)]
  · right
    exact ⟨fun hi => hlt (hmem.mp hi).1, by rw [Words.padr, if_neg hlt]⟩

/-! ## The set of free locks -/

/-- The words as the set that the lock bricks see. -/
def toSet (s : Words) : LockNative := ⟨(Finset.range nNativeLocks).filter fun i => free s i = true⟩

theorem mem_toSet : i ∈ (toSet s).freeLocks ↔ i < nNativeLocks ∧ free s i = true := by
  rw [toSet, Finset.mem_filter, Finset.mem_range]

theorem Inv.mem_toSet (h : Inv s) : i ∈ (toSet s).freeLocks ↔ i < nNativeLocks ∧ i ∉ s.allocated := by
  rw [Words.mem_toSet, h.allocated]
  cases free s i <;> simp

/-- `$gadr` on the words is `$gadr` on the set. -/
theorem Inv.gadr_toSet (h : Inv s) (hpt : pt.Works) :
    (toSet s).gadr.map Prod.fst = (Words.gadr pt s).1 := by
  rcases h.gadr hpt with ⟨i, hi, hnot, hall, hlt, -⟩ | ⟨hnone, hall⟩
  · have hmem : i ∈ (toSet s).freeLocks := h.mem_toSet.mpr ⟨hlt, hnot⟩
    have hmin : (toSet s).freeLocks.min' ⟨i, hmem⟩ = i := by
      refine le_antisymm (Finset.min'_le _ _ hmem) (Finset.le_min' _ _ _ fun k hk => ?_)
      by_contra hlt
      exact (h.mem_toSet.mp hk).2 (hall k (Nat.not_le.mp hlt))
    rw [hi, LockNative.gadr, dif_pos ⟨i, hmem⟩, Option.map_some, hmin]
  · have hempty : ¬ (toSet s).freeLocks.Nonempty := by
      rintro ⟨i, hi⟩
      have := h.mem_toSet.mp hi
      exact this.2 (hall i this.1)
    rw [hnone, LockNative.gadr, dif_neg hempty, Option.map_none]

/-! ## Whole runs -/

theorem initLock_allocated : (s.initLock pt i).2.allocated = s.allocated := by
  unfold initLock
  split
  · rfl
  · split <;> rfl

theorem gadr_allocated : (Words.gadr pt s).2.allocated = s.allocated := by
  unfold Words.gadr
  split
  · exact initLock_allocated
  · rfl

theorem padr_allocated : (Words.padr pt s i).2.allocated = s.allocated := by
  unfold Words.padr
  split
  · dsimp only
    split <;> rfl
  · rfl

theorem Inv.step (h : Inv s) (hpt : pt.Works) (hs : Words.step pt s e = some s') : Inv s' := by
  cases e with
  | gadr =>
    simp only [Words.step, Option.some.injEq] at hs
    rcases h.gadr hpt with ⟨i, hi, -, -, -, hinv⟩ | ⟨hnone, -⟩
    · rw [hi, gadr_allocated] at hs
      exact hs ▸ hinv
    · rw [hnone] at hs
      exact hs ▸ h
  | padr i =>
    simp only [Words.step, Option.some.injEq] at hs
    rcases h.padr (i := i) hpt with ⟨-, hi, hinv⟩ | ⟨-, hi⟩
    · rw [hi, if_pos rfl, padr_allocated] at hs
      exact hs ▸ hinv
    · rw [hi] at hs
      exact hs ▸ h

/-- What is allocated, initialised and handed out in a state. -/
structure Sound (pt : Pthread) (s : Words) : Prop where
  bitmap : ∀ i < nNativeLocks, i ∈ s.allocated ↔ free s i = false
  once : s.allocated.Nodup
  below : ∀ i ∈ s.allocated, i < nNativeLocks ∧ i < s.nSecondHandLocks
  inits : ∀ i ∈ s.allocated, s.inits.count i = 1
  noTwice : ∀ i, s.inits.count i ≤ 1
  bugs : s.bugs = []
  lowest : ∀ i, (Words.gadr pt s).1 = some i ↔
    i < nNativeLocks ∧ i ∉ s.allocated ∧ ∀ j < i, j ∈ s.allocated

theorem Inv.sound (h : Inv s) (hpt : pt.Works) : Sound pt s where
  bitmap i hi := (h.allocated i).trans (and_iff_right hi)
  once := h.nodup
  below i hi := ⟨((h.allocated i).mp hi).1, h.below i hi⟩
  inits i hi := List.count_eq_one_of_mem h.once ((h.inits i).mpr (h.below i hi))
  noTwice i := List.nodup_iff_count_le_one.mp h.once i
  bugs := h.bugs
  lowest i := by
    rcases h.gadr hpt with ⟨k, hk, hnot, hall, hlt, -⟩ | ⟨hnone, hall⟩
    · rw [hk, Option.some.injEq]
      constructor
      · rintro rfl
        exact ⟨hlt, hnot, hall⟩
      · rintro ⟨-, hi, hbelow⟩
        rcases Nat.lt_trichotomy k i with hki | heq | hki
        · exact absurd (hbelow k hki) hnot
        · exact heq
        · exact absurd (hall i hki) hi
    · rw [hnone]
      constructor
      · rintro ⟨⟩
      · rintro ⟨hlt, hi, -⟩
        exact absurd (hall i hlt) hi

/-- **`$gadr` gives the lowest slot that is not allocated, which was initialised once.** -/
theorem slots_sound (hpt : pt.Works) (h : Reach (Words.step pt) Init anyEvent s) : Sound pt s := by
  have hinv : Inv s := h.invariant (fun _ h0 => h0 ▸ Inv.init) fun _ _ _ hi _ hs => hi.step hpt hs
  exact hinv.sound hpt

/-- The second slot is used, and the first one was used before. -/
theorem slots_sound_recycled : ∃ s : Words, s.allocated = [1] ∧ s.inits = [1, 0] ∧
    Sound ⟨fun _ => true, fun _ => true⟩ s := by
  have h0 : Reach (Words.step ⟨fun _ => true, fun _ => true⟩) Init anyEvent start := .start rfl
  have h1 := h0.next (e := .gadr) trivial rfl
  have h2 := h1.next (e := .gadr) trivial rfl
  have h3 := h2.next (e := .padr 0) trivial rfl
  exact ⟨_, by decide +kernel, by decide +kernel, slots_sound ⟨fun _ => rfl, fun _ => rfl⟩ h3⟩

end Athomux.LockNative.Words
