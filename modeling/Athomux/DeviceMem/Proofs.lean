import Athomux.DeviceMem.Spec
import Mathlib.Data.List.Perm.Subperm

/-!
# `device_mem_nest_ulinux` is a store of bytes with holes

What holds of the list of blocks, one lemma for each loop, and what each operation does to the bytes.
-/

namespace Athomux

open Lib

namespace DeviceMem

variable {s : DeviceMem} {ps X Y : List Nat} {addr len : Nat}

/-! ## The list -/

theorem Sound.nil : init.Sound [] where
  linked := ⟨⟨rfl, rfl, trivial⟩, List.nodup_nil⟩
  allocated := by simp
  lens := by simp
  sorted := List.Pairwise.nil

/-- The contents do not matter. -/
theorem Sound.setData (h : s.Sound ps) (d : Nat → Nat → UInt8) : Sound { s with data := d } ps :=
  ⟨h.linked, h.allocated, h.lens, h.sorted⟩

theorem Sound.length_le (h : s.Sound ps) : ps.length ≤ s.allocated.length :=
  (h.linked.nodup.subperm h.allocated).length_le

theorem Sound.first (h : s.Sound ps) : s.blockList = ps.head? := h.linked.first

theorem Sound.blockEnd (h : s.Sound ps) {p : Nat} (hp : p ∈ ps) :
    s.blockEnd p = s.logAddr p + s.logLen p :=
  add64_eq (h.lens p hp).2

theorem Sound.blocks (h : s.Sound ps) : s.blocks = ps := by
  unfold DeviceMem.blocks
  rw [h.first]
  exact (Links.Dll.path (X := []) h.linked).collect_eq h.length_le

/-- Blocks in front end where the later ones start, or before. -/
theorem Sound.before (h : s.Sound (X ++ Y)) {p q : Nat} (hp : p ∈ X) (hq : q ∈ Y) :
    s.logAddr p + s.logLen p ≤ s.logAddr q :=
  (List.pairwise_append.mp h.sorted).2.2 p hp q hq

theorem Sound.before_cons {p q : Nat} (h : s.Sound (X ++ p :: Y)) (hq : q ∈ Y) :
    s.logAddr p + s.logLen p ≤ s.logAddr q :=
  (List.pairwise_cons.mp (List.pairwise_append.mp h.sorted).2.1).1 q hq

theorem Sound.next {p : Nat} (h : s.Sound (X ++ p :: Y)) : s.next p = Y.head? := h.linked.next

/-- No two blocks have an address in common. -/
theorem Sound.unique (h : s.Sound ps) {p q x : Nat} (hp : p ∈ ps) (hq : q ∈ ps) (hpx : s.Covers p x)
    (hqx : s.Covers q x) : p = q := by
  unfold Covers at hpx hqx
  obtain ⟨X, Y, rfl⟩ := List.append_of_mem hp
  rcases List.mem_append.mp hq with hq | hq
  · have hle := h.before hq (List.mem_cons_self (a := p) (l := Y))
    omega
  · rcases List.mem_cons.mp hq with rfl | hq
    · rfl
    · have hle := h.before_cons hq
      omega

/-! ## The bytes -/

theorem Sound.bytes_eq_some (h : s.Sound ps) {x : Nat} {b : UInt8} :
    s.bytes x = some b ↔ ∃ p ∈ ps, s.Covers p x ∧ s.data p (x - s.logAddr p) = b := by
  unfold bytes
  rw [h.blocks, Option.map_eq_some_iff]
  constructor
  · rintro ⟨p, hfind, hb⟩
    exact ⟨p, List.mem_of_find?_eq_some hfind, by simpa using List.find?_some hfind, hb⟩
  · rintro ⟨p, hp, hx, hb⟩
    refine ⟨p, ?_, hb⟩
    cases hfind : ps.find? fun block => s.Covers block x with
    | none => simpa [hx] using List.find?_eq_none.mp hfind p hp
    | some q =>
      have hq : s.Covers q x := by simpa using List.find?_some hfind
      rw [h.unique (List.mem_of_find?_eq_some hfind) hp hq hx]

theorem Sound.bytes_eq_none (h : s.Sound ps) {x : Nat} :
    s.bytes x = none ↔ ∀ p ∈ ps, ¬ s.Covers p x := by
  unfold bytes
  rw [h.blocks, Option.map_eq_none_iff, List.find?_eq_none]
  simp

theorem Sound.isSome_bytes (h : s.Sound ps) {p x : Nat} (hp : p ∈ ps) (hx : s.Covers p x) :
    (s.bytes x).isSome := by
  rw [h.bytes_eq_some.mpr ⟨p, hp, hx, rfl⟩]
  rfl

/-! ## The loops -/

/-- The loop of `$create` meets a block that overlaps, or finds the place for the new one. -/
theorem Sound.createLoop (h : s.Sound (X ++ Y)) (hfit : addr + len < addrSpace)
    (hX : ∀ p ∈ X, s.logAddr p + s.logLen p ≤ addr) {fuel : Nat} (hfuel : Y.length ≤ fuel) :
    (s.createLoop addr len fuel X.getLast? Y.head? = none ∧
      ∃ p ∈ Y, s.logAddr p < addr + len ∧ addr < s.logAddr p + s.logLen p) ∨
    ∃ X' Y', X' ++ Y' = X ++ Y ∧
      s.createLoop addr len fuel X.getLast? Y.head? = some (X'.getLast?, Y'.head?) ∧
      (∀ p ∈ X', s.logAddr p + s.logLen p ≤ addr) ∧ ∀ p ∈ Y', addr + len ≤ s.logAddr p := by
  induction Y generalizing X fuel with
  | nil =>
    refine Or.inr ⟨X, [], rfl, ?_, hX, by simp⟩
    cases fuel <;> rfl
  | cons p Y ih =>
    obtain ⟨n, rfl⟩ : ∃ n, fuel = n + 1 := ⟨fuel - 1, by simp at hfuel; omega⟩
    rw [List.head?_cons, DeviceMem.createLoop, add64_eq hfit, h.blockEnd (by simp)]
    by_cases hstart : s.logAddr p < addr + len
    · rw [if_pos hstart]
      by_cases hend : addr < s.logAddr p + s.logLen p
      · rw [if_pos hend]
        exact Or.inl ⟨rfl, p, List.mem_cons_self, hstart, hend⟩
      · rw [if_neg hend, h.next]
        have hX' : ∀ q ∈ X ++ [p], s.logAddr q + s.logLen q ≤ addr := by
          intro q hq
          rcases List.mem_append.mp hq with hq | hq
          · exact hX q hq
          · rw [List.mem_singleton.mp hq]
            omega
        have hrest := ih (X := X ++ [p]) (by simpa using h) hX' (by simpa using hfuel)
        rw [List.getLast?_append, List.getLast?_singleton] at hrest
        simp only [List.append_assoc, List.singleton_append] at hrest
        rcases hrest with ⟨hnone, q, hq, hover⟩ | hfound
        · exact Or.inl ⟨hnone, q, List.mem_cons_of_mem _ hq, hover⟩
        · exact Or.inr hfound
    · rw [if_neg hstart]
      refine Or.inr ⟨X, p :: Y, rfl, rfl, hX, ?_⟩
      intro q hq
      rcases List.mem_cons.mp hq with rfl | hq
      · omega
      · have hbefore := h.before_cons hq
        have hlen := h.lens p (by simp)
        omega

/-- What the loop of `$delete` ends with says where the range is. -/
theorem Sound.deleteLoop (h : s.Sound (X ++ Y)) (hlen : 0 < len) (hfit : addr + len < addrSpace)
    (hX : ∀ p ∈ X, s.logAddr p + s.logLen p ≤ addr) {fuel : Nat} (hfuel : Y.length ≤ fuel) :
    (∃ p ∈ Y, s.deleteLoop addr len fuel Y.head? = .block p ∧ s.logAddr p = addr ∧
      s.logLen p = len) ∨
    (s.deleteLoop addr len fuel Y.head? = .mismatch ∧
      ∃ p ∈ Y, (∃ x, s.Covers p x ∧ addr ≤ x ∧ x < addr + len) ∧
        ¬ (s.logAddr p = addr ∧ s.logLen p = len)) ∨
    (s.deleteLoop addr len fuel Y.head? = .hole ∧
      ∀ p ∈ X ++ Y, s.logAddr p + s.logLen p ≤ addr ∨ addr + len ≤ s.logAddr p) := by
  induction Y generalizing X fuel with
  | nil =>
    refine Or.inr (Or.inr ⟨?_, ?_⟩)
    · cases fuel <;> rfl
    · intro p hp
      exact Or.inl (hX p (by simpa using hp))
  | cons p Y ih =>
    obtain ⟨n, rfl⟩ : ∃ n, fuel = n + 1 := ⟨fuel - 1, by simp at hfuel; omega⟩
    rw [List.head?_cons, DeviceMem.deleteLoop, add64_eq hfit, h.blockEnd (by simp)]
    have hp := h.lens p (by simp)
    by_cases hstart : s.logAddr p < addr + len
    · rw [if_pos hstart]
      by_cases hend : addr < s.logAddr p + s.logLen p
      · rw [if_pos hend]
        by_cases hmatch : s.logAddr p = addr ∧ s.logLen p = len
        · rw [if_pos hmatch]
          exact Or.inl ⟨p, List.mem_cons_self, rfl, hmatch⟩
        · rw [if_neg hmatch]
          refine Or.inr (Or.inl ⟨rfl, p, List.mem_cons_self, ?_, hmatch⟩)
          unfold Covers
          by_cases hle : s.logAddr p ≤ addr
          · exact ⟨addr, by omega⟩
          · exact ⟨s.logAddr p, by omega⟩
      · rw [if_neg hend, h.next]
        have hX' : ∀ q ∈ X ++ [p], s.logAddr q + s.logLen q ≤ addr := by
          intro q hq
          rcases List.mem_append.mp hq with hq | hq
          · exact hX q hq
          · rw [List.mem_singleton.mp hq]
            omega
        have hrest := ih (X := X ++ [p]) (by simpa using h) hX' (by simpa using hfuel)
        simp only [List.append_assoc, List.singleton_append] at hrest
        rcases hrest with ⟨q, hq, hfound⟩ | ⟨hmis, q, hq, hover⟩ | hhole
        · exact Or.inl ⟨q, List.mem_cons_of_mem _ hq, hfound⟩
        · exact Or.inr (Or.inl ⟨hmis, q, List.mem_cons_of_mem _ hq, hover⟩)
        · exact Or.inr (Or.inr hhole)
    · rw [if_neg hstart]
      refine Or.inr (Or.inr ⟨rfl, ?_⟩)
      intro q hq
      rcases List.mem_append.mp hq with hq | hq
      · exact Or.inl (hX q hq)
      · rcases List.mem_cons.mp hq with rfl | hq
        · omega
        · have hbefore := h.before_cons hq
          omega

theorem Sound.findBlock_none (h : s.Sound ps) (hfind : s.findBlock addr = none) :
    ∀ p ∈ ps, s.logAddr p + s.logLen p ≤ addr := by
  unfold findBlock at hfind
  rw [h.first, Links.Dll.walk_eq (X := []) h.linked _ h.length_le, List.find?_eq_none] at hfind
  intro p hp
  have hend := hfind p hp
  rw [h.blockEnd hp] at hend
  simpa using hend

theorem Sound.findBlock_some (h : s.Sound ps) {iter : Nat} (hfind : s.findBlock addr = some iter) :
    addr < s.logAddr iter + s.logLen iter ∧
      ∃ X Y, ps = X ++ iter :: Y ∧ ∀ p ∈ X, s.logAddr p + s.logLen p ≤ addr := by
  unfold findBlock at hfind
  rw [h.first, Links.Dll.walk_eq (X := []) h.linked _ h.length_le,
    List.find?_eq_some_iff_append] at hfind
  obtain ⟨hend, X, Y, rfl, hX⟩ := hfind
  rw [h.blockEnd (by simp)] at hend
  refine ⟨by simpa using hend, X, Y, rfl, ?_⟩
  intro p hp
  have hle := hX p hp
  rw [h.blockEnd (List.mem_append_left _ hp)] at hle
  simpa using hle

/-! ## `$create` -/

theorem dll_last {f t : Option Nat} {n l : Nat → Option Nat} (h : Links.Dll ⟨f, t, n, l⟩ ps) :
    Links.Dll ⟨f, ps.getLast?, n, l⟩ ps := by
  have ht : t = ps.getLast? := h.last
  rwa [ht] at h

theorem Sound.link (h : Links.Dll ⟨s.blockList, (X ++ Y).getLast?, s.next, s.last⟩ (X ++ Y))
    {new : Nat} (hnew : new ∉ X ++ Y) :
    Links.Dll ⟨(s.link new X.getLast? Y.head?).blockList, (X ++ new :: Y).getLast?,
      (s.link new X.getLast? Y.head?).next, (s.link new X.getLast? Y.head?).last⟩
      (X ++ new :: Y) := by
  have hins := h.insertBefore hnew
  have hprev := ((Links.chain_gap X Y).mp h.chain).2.1.2
  unfold Links.insertBefore at hins
  rw [hprev] at hins
  unfold DeviceMem.link
  generalize X.getLast? = prev at hins ⊢
  generalize Y.head? = iter at hins ⊢
  cases prev <;> cases iter <;> exact dll_last hins

section Fields

variable (s) (block next : Option Nat) (new iter : Nat)

@[simp] theorem setNext_logAddr : (s.setNext block next).logAddr = s.logAddr := by
  unfold setNext
  cases block <;> rfl

@[simp] theorem setNext_logLen : (s.setNext block next).logLen = s.logLen := by
  unfold setNext
  cases block <;> rfl

@[simp] theorem setNext_data : (s.setNext block next).data = s.data := by
  unfold setNext
  cases block <;> rfl

@[simp] theorem setNext_allocated : (s.setNext block next).allocated = s.allocated := by
  unfold setNext
  cases block <;> rfl

@[simp] theorem setLast_logAddr : (s.setLast block next).logAddr = s.logAddr := by
  unfold setLast
  cases block <;> rfl

@[simp] theorem setLast_logLen : (s.setLast block next).logLen = s.logLen := by
  unfold setLast
  cases block <;> rfl

@[simp] theorem setLast_data : (s.setLast block next).data = s.data := by
  unfold setLast
  cases block <;> rfl

@[simp] theorem setLast_allocated : (s.setLast block next).allocated = s.allocated := by
  unfold setLast
  cases block <;> rfl

end Fields

/-- The state with a new block that is not linked yet. -/
def stored (s : DeviceMem) (addr len new : Nat) (content : Nat → UInt8) : DeviceMem :=
  { s with
    allocated := new :: s.allocated
    data := Function.update s.data new content
    logAddr := Function.update s.logAddr new addr
    logLen := Function.update s.logLen new len }

/-- The state with a new block between `prev` and `iter`. -/
def added (s : DeviceMem) (addr len new : Nat) (content : Nat → UInt8) (prev iter : Option Nat) :
    DeviceMem :=
  (s.stored addr len new content).link new prev iter

section Added

variable (s) (addr len new : Nat) (content : Nat → UInt8) (prev iter : Option Nat)

@[simp] theorem added_logAddr :
    (s.added addr len new content prev iter).logAddr = Function.update s.logAddr new addr := by
  simp [added, link, stored]

@[simp] theorem added_logLen :
    (s.added addr len new content prev iter).logLen = Function.update s.logLen new len := by
  simp [added, link, stored]

@[simp] theorem added_data :
    (s.added addr len new content prev iter).data = Function.update s.data new content := by
  simp [added, link, stored]

@[simp] theorem added_allocated :
    (s.added addr len new content prev iter).allocated = new :: s.allocated := by
  simp [added, link, stored]

end Added

theorem Sound.added (h : s.Sound (X ++ Y)) (hlen : 0 < len) (hfit : addr + len < addrSpace)
    {new : Nat} (hnew : new ∉ s.allocated) (content : Nat → UInt8)
    (hX : ∀ p ∈ X, s.logAddr p + s.logLen p ≤ addr) (hY : ∀ p ∈ Y, addr + len ≤ s.logAddr p) :
    (s.added addr len new content X.getLast? Y.head?).Sound (X ++ new :: Y) := by
  have hmem : new ∉ X ++ Y := fun hin => hnew (h.allocated new hin)
  have hne : ∀ p ∈ X ++ Y, p ≠ new := fun p hp heq => hmem (heq ▸ hp)
  refine ⟨Sound.link (s := s.stored addr len new content) h.linked hmem, ?_, ?_, ?_⟩
  · intro p hp
    rw [added_allocated]
    by_cases heq : p = new
    · exact heq ▸ List.mem_cons_self
    · refine List.mem_cons_of_mem _ (h.allocated p ?_)
      simpa [heq] using hp
  · intro p hp
    rw [added_logAddr, added_logLen]
    by_cases heq : p = new
    · rw [heq, Function.update_self, Function.update_self]
      exact ⟨hlen, hfit⟩
    · rw [Function.update_of_ne heq, Function.update_of_ne heq]
      exact h.lens p (by simpa [heq] using hp)
  · rw [added_logAddr, added_logLen]
    have hsorted : (X ++ Y).Pairwise fun p q => Function.update s.logAddr new addr p +
        Function.update s.logLen new len p ≤ Function.update s.logAddr new addr q := by
      refine h.sorted.imp_of_mem fun {p q} hp hq hle => ?_
      rw [Function.update_of_ne (hne p hp), Function.update_of_ne (hne p hp),
        Function.update_of_ne (hne q hq)]
      exact hle
    obtain ⟨hXs, hYs, hcross⟩ := List.pairwise_append.mp hsorted
    refine List.pairwise_append.mpr ⟨hXs, List.pairwise_cons.mpr ⟨?_, hYs⟩, ?_⟩
    · intro q hq
      rw [Function.update_self, Function.update_self,
        Function.update_of_ne (hne q (List.mem_append_right _ hq))]
      exact hY q hq
    · intro p hp q hq
      rcases List.mem_cons.mp hq with rfl | hq
      · have hp' := hne p (List.mem_append_left _ hp)
        rw [Function.update_self, Function.update_of_ne hp', Function.update_of_ne hp']
        exact hX p hp
      · exact hcross p hp q hq

theorem Sound.bytes_added (h : s.Sound (X ++ Y)) (hlen : 0 < len) (hfit : addr + len < addrSpace)
    {new : Nat} (hnew : new ∉ s.allocated) (content : Nat → UInt8)
    (hX : ∀ p ∈ X, s.logAddr p + s.logLen p ≤ addr) (hY : ∀ p ∈ Y, addr + len ≤ s.logAddr p) :
    (s.added addr len new content X.getLast? Y.head?).bytes = s.bytes.put addr len content 0 := by
  have hadd := h.added hlen hfit hnew content hX hY
  have hmem : new ∉ X ++ Y := fun hin => hnew (h.allocated new hin)
  have hother : ∀ p ∈ X ++ Y, ∀ x,
      (s.added addr len new content X.getLast? Y.head?).Covers p x ↔ s.Covers p x := by
    intro p hp x
    have hne : p ≠ new := fun heq => hmem (heq ▸ hp)
    unfold Covers
    rw [added_logAddr, added_logLen, Function.update_of_ne hne, Function.update_of_ne hne]
  funext x
  unfold PartialStore.put
  split
  · rename_i hx
    rw [hadd.bytes_eq_some]
    refine ⟨new, by simp, ?_, ?_⟩
    · unfold Covers
      rwa [added_logAddr, added_logLen, Function.update_self, Function.update_self]
    · rw [added_data, added_logAddr, Function.update_self, Function.update_self, Nat.zero_add]
  · rename_i hx
    apply Option.ext
    intro b
    rw [hadd.bytes_eq_some, h.bytes_eq_some]
    constructor
    · rintro ⟨p, hp, hcov, hb⟩
      by_cases heq : p = new
      · unfold Covers at hcov
        rw [heq, added_logAddr, added_logLen, Function.update_self, Function.update_self] at hcov
        exact absurd hcov hx
      · have hp' : p ∈ X ++ Y := by simpa [heq] using hp
        rw [added_data, added_logAddr, Function.update_of_ne heq, Function.update_of_ne heq] at hb
        exact ⟨p, hp', (hother p hp' x).mp hcov, hb⟩
    · rintro ⟨p, hp, hcov, hb⟩
      have hne : p ≠ new := fun heq => hmem (heq ▸ hp)
      refine ⟨p, by simpa [hne] using hp, (hother p hp x).mpr hcov, ?_⟩
      rwa [added_data, added_logAddr, Function.update_of_ne hne, Function.update_of_ne hne]

/-! ## `$delete` -/

theorem Sound.unlink {iter : Nat} (h : Links.Dll ⟨s.blockList, (X ++ iter :: Y).getLast?, s.next,
    s.last⟩ (X ++ iter :: Y)) :
    Links.Dll ⟨(s.unlink iter).blockList, (X ++ Y).getLast?, (s.unlink iter).next,
      (s.unlink iter).last⟩ (X ++ Y) := by
  have hdll := h.unlink
  have hnext : s.next iter = Y.head? := h.next
  have hlast : s.last iter = X.getLast? := h.prev
  have hne : X.getLast? ≠ some iter := by
    intro heq
    have hmem := List.mem_of_mem_getLast? heq
    exact (List.nodup_cons.mp (List.nodup_middle.mp h.nodup)).1 (List.mem_append_left _ hmem)
  unfold Links.unlink at hdll
  simp only [hnext, hlast] at hdll
  have hkeep : (s.setNext X.getLast? Y.head?).next iter = Y.head? ∧
      (s.setNext X.getLast? Y.head?).last iter = X.getLast? := by
    generalize X.getLast? = prev at hne hlast ⊢
    cases prev with
    | none => exact ⟨hnext, hlast⟩
    | some p =>
      have hp : iter ≠ p := fun heq => hne (congrArg some heq.symm)
      exact ⟨(Function.update_of_ne hp _ _).trans hnext, hlast⟩
  unfold DeviceMem.unlink
  simp only [hnext, hlast, hkeep]
  generalize X.getLast? = prev at hdll ⊢
  generalize Y.head? = next at hdll ⊢
  cases prev <;> cases next <;> exact dll_last hdll

section Removed

variable (s) (iter : Nat)

@[simp] theorem removed_logAddr : ((s.unlink iter).free iter).logAddr = s.logAddr := by
  simp [free, unlink]

@[simp] theorem removed_logLen : ((s.unlink iter).free iter).logLen = s.logLen := by
  simp [free, unlink]

@[simp] theorem removed_data : ((s.unlink iter).free iter).data = s.data := by
  simp [free, unlink]

@[simp] theorem removed_allocated :
    ((s.unlink iter).free iter).allocated = s.allocated.erase iter := by
  simp [free, unlink]

end Removed

theorem Sound.removed {iter : Nat} (h : s.Sound (X ++ iter :: Y)) :
    ((s.unlink iter).free iter).Sound (X ++ Y) := by
  have hnd := List.nodup_cons.mp (List.nodup_middle.mp h.linked.nodup)
  have hsub : (X ++ Y).Sublist (X ++ iter :: Y) := (List.sublist_cons_self iter Y).append_left X
  refine ⟨Sound.unlink h.linked, ?_, ?_, ?_⟩
  · intro p hp
    rw [removed_allocated]
    have hne : p ≠ iter := fun heq => hnd.1 (heq ▸ hp)
    exact (List.mem_erase_of_ne hne).mpr (h.allocated p (hsub.subset hp))
  · intro p hp
    rw [removed_logAddr, removed_logLen]
    exact h.lens p (hsub.subset hp)
  · rw [removed_logAddr, removed_logLen]
    exact h.sorted.sublist hsub

theorem Sound.bytes_removed {iter : Nat} (h : s.Sound (X ++ iter :: Y)) :
    ((s.unlink iter).free iter).bytes = s.bytes.clear (s.logAddr iter) (s.logLen iter) := by
  have hnd := List.nodup_cons.mp (List.nodup_middle.mp h.linked.nodup)
  have hsub : (X ++ Y).Sublist (X ++ iter :: Y) := (List.sublist_cons_self iter Y).append_left X
  have hmem : iter ∈ X ++ iter :: Y := by simp
  funext x
  unfold PartialStore.clear
  split
  · rename_i hx
    rw [h.removed.bytes_eq_none]
    intro p hp hcov
    unfold Covers at hcov
    rw [removed_logAddr, removed_logLen] at hcov
    rw [h.unique (hsub.subset hp) hmem hcov hx] at hp
    exact hnd.1 hp
  · rename_i hx
    apply Option.ext
    intro b
    rw [h.removed.bytes_eq_some, h.bytes_eq_some]
    unfold Covers
    rw [removed_logAddr, removed_logLen, removed_data]
    constructor
    · rintro ⟨p, hp, hcov, hb⟩
      exact ⟨p, hsub.subset hp, hcov, hb⟩
    · rintro ⟨p, hp, hcov, hb⟩
      refine ⟨p, ?_, hcov, hb⟩
      have hne : p ≠ iter := fun heq => hx (heq ▸ hcov)
      simpa [hne] using hp

/-! ## `$trans` -/

/-- What a transfer of `n` bytes does. -/
def Moved (s : DeviceMem) (dir : Direction) (t t' : Transfer) (n : Nat) : Prop :=
  if dir = .read then
    t'.data = t.data ∧ t'.buf = (bytes { s with data := t.data }).fetch t.logAddr n t.buf t.pos
  else
    t'.buf = t.buf ∧
      bytes { s with data := t'.data } =
        (bytes { s with data := t.data }).put t.logAddr n t.buf t.pos

theorem moved_zero (s : DeviceMem) (dir : Direction) (t : Transfer) : s.Moved dir t t 0 := by
  unfold Moved
  split
  · exact ⟨rfl, (PartialStore.fetch_zero _ _ _ _).symm⟩
  · exact ⟨rfl, (PartialStore.put_zero _ _ _ _).symm⟩

theorem Moved.trans {dir : Direction} {t t' t'' : Transfer} {n k : Nat} (h : s.Moved dir t t' n)
    (haddr : t'.logAddr = t.logAddr + n) (hpos : t'.pos = t.pos + n) (h' : s.Moved dir t' t'' k) :
    s.Moved dir t t'' (n + k) := by
  unfold Moved at *
  split at h
  · rename_i hread
    rw [if_pos hread] at h' ⊢
    obtain ⟨hdata, hbuf⟩ := h
    obtain ⟨hdata', hbuf'⟩ := h'
    refine ⟨hdata'.trans hdata, ?_⟩
    rw [hbuf', hbuf, hdata, haddr, hpos, PartialStore.fetch_add]
  · rename_i hwrite
    rw [if_neg hwrite] at h' ⊢
    obtain ⟨hbuf, hbytes⟩ := h
    obtain ⟨hbuf', hbytes'⟩ := h'
    refine ⟨hbuf'.trans hbuf, ?_⟩
    rw [hbytes', hbytes, hbuf, haddr, hpos, PartialStore.put_add]

/-- A `memmove` within a block. -/
theorem Sound.move (h : s.Sound ps) (dir : Direction) (bufLen delta cutLen : Nat) {p : Nat} {t : Transfer}
    (hp : p ∈ ps) (haddr : t.logAddr = s.logAddr p + delta) (hin : delta + cutLen ≤ s.logLen p)
    (hcut : cutLen ≤ t.logLen) (hlen : t.logLen < addrSpace) (hbuf : t.pos + cutLen ≤ bufLen) :
    ∃ t', s.move dir bufLen t p delta cutLen = some t' ∧ s.Moved dir t t' cutLen ∧
      t'.logAddr = t.logAddr + cutLen ∧ t'.logLen = t.logLen - cutLen ∧
      t'.pos = t.pos + cutLen := by
  have hlens := h.lens p hp
  unfold DeviceMem.move
  rw [if_pos ⟨hin, hbuf⟩]
  refine ⟨_, rfl, ?_, add64_eq (by omega), sub64_eq hcut hlen, rfl⟩
  unfold Moved
  by_cases hread : dir = .read
  · simp only [if_pos hread, true_and]
    funext i
    unfold memmove PartialStore.fetch
    split
    · have hcov : (⟨s.blockList, s.next, s.last, s.logAddr, s.logLen, t.data, s.allocated⟩ :
          DeviceMem).Covers p (t.logAddr + (i - t.pos)) := by
        unfold Covers
        simp only
        omega
      rw [(h.setData t.data).bytes_eq_some.mpr ⟨p, hp, hcov, rfl⟩, Option.getD_some]
      simp only
      congr 1
      omega
    · rfl
  · simp only [if_neg hread, true_and]
    funext x
    unfold PartialStore.put
    split
    · rename_i hx
      rw [(h.setData _).bytes_eq_some]
      refine ⟨p, hp, ?_, ?_⟩
      · unfold Covers
        simp only
        omega
      · simp only
        rw [Function.update_self, memmove, if_pos (by omega)]
        congr 1
        omega
    · rename_i hx
      apply Option.ext
      intro b
      rw [(h.setData _).bytes_eq_some, (h.setData _).bytes_eq_some]
      refine exists_congr fun q => and_congr_right fun hq => and_congr_right fun hcov => ?_
      unfold Covers at hcov
      simp only at hcov ⊢
      by_cases heq : q = p
      · rw [heq] at hcov ⊢
        rw [Function.update_self, memmove, if_neg (by omega)]
      · rw [Function.update_of_ne heq]

/-- The loop goes on to the first gap, or to the end of the range. -/
theorem Sound.transLoop (h : s.Sound (X ++ Y)) (dir : Direction) (bufLen fuel : Nat) {t : Transfer}
    (hlen : t.logLen < addrSpace) (hbuf : t.pos + t.logLen ≤ bufLen)
    (hX : t.logLen = 0 ∨ ∀ p ∈ X, s.logAddr p + s.logLen p ≤ t.logAddr)
    (hY : ∀ p ∈ Y, t.logAddr ≤ s.logAddr p) (hfuel : Y.length ≤ fuel) :
    ∃ t', s.transLoop dir bufLen fuel t Y.head? = some t' ∧
      s.Moved dir t t' (s.bytes.covered t.logAddr t.logLen) := by
  induction Y generalizing X fuel t with
  | nil =>
    refine ⟨t, by cases fuel <;> rfl, ?_⟩
    have hnone : s.bytes.covered t.logAddr t.logLen = 0 := by
      rcases hX with hzero | hX
      · rw [hzero]
        rfl
      · apply PartialStore.covered_none
        rw [h.bytes_eq_none]
        intro p hp hcov
        have hle := hX p (by simpa using hp)
        unfold Covers at hcov
        omega
    rw [hnone]
    exact moved_zero s dir t
  | cons p Y ih =>
    obtain ⟨n, rfl⟩ : ∃ n, fuel = n + 1 := ⟨fuel - 1, by simp at hfuel; omega⟩
    have hp : p ∈ X ++ p :: Y := by simp
    rw [List.head?_cons, DeviceMem.transLoop]
    by_cases hstart : s.logAddr p = t.logAddr
    · rw [if_pos hstart]
      obtain ⟨cutLen, hcut⟩ : ∃ n, n = if s.logLen p < t.logLen then s.logLen p else t.logLen :=
        ⟨_, rfl⟩
      rw [← hcut]
      have hle : cutLen ≤ s.logLen p ∧ cutLen ≤ t.logLen ∧
          (cutLen = t.logLen ∨ cutLen = s.logLen p) := by
        split at hcut <;> omega
      obtain ⟨t1, hmove, hmoved, haddr, hlen1, hpos⟩ := h.move dir bufLen 0 cutLen hp
         hstart.symm (by omega) hle.2.1 hlen (by omega)
      simp only [hmove, Option.bind_some, h.next]
      have hX1 : t1.logLen = 0 ∨ ∀ q ∈ X ++ [p], s.logAddr q + s.logLen q ≤ t1.logAddr := by
        rcases hle.2.2 with hall | hblock
        · exact Or.inl (by omega)
        · rcases hX with hzero | hX
          · exact Or.inl (by omega)
          · refine Or.inr fun q hq => ?_
            rcases List.mem_append.mp hq with hq | hq
            · have hq' := hX q hq
              omega
            · rw [List.mem_singleton.mp hq]
              omega
      have hY1 : ∀ q ∈ Y, t1.logAddr ≤ s.logAddr q := by
        intro q hq
        have hbefore := h.before_cons hq
        omega
      obtain ⟨t2, hloop, hrest⟩ := ih (X := X ++ [p]) (t := t1) (by simpa using h) n
        (by omega) (by omega) hX1 hY1 (by simpa using hfuel)
      refine ⟨t2, hloop, ?_⟩
      have hsome : ∀ i < cutLen, (s.bytes (t.logAddr + i)).isSome := by
        intro i hi
        refine h.isSome_bytes hp ?_
        unfold Covers
        omega
      have hsplit := PartialStore.covered_add hsome (t.logLen - cutLen)
      rw [Nat.add_sub_cancel' hle.2.1] at hsplit
      rw [hsplit, ← haddr, ← hlen1]
      exact hmoved.trans haddr hpos hrest
    · rw [if_neg hstart]
      refine ⟨t, rfl, ?_⟩
      have hgap : s.bytes.covered t.logAddr t.logLen = 0 := by
        rcases hX with hzero | hX
        · rw [hzero]
          rfl
        · apply PartialStore.covered_none
          rw [h.bytes_eq_none]
          intro q hq hcov
          unfold Covers at hcov
          rcases List.mem_append.mp hq with hq | hq
          · have hle := hX q hq
            omega
          · have hpq : s.logAddr p ≤ s.logAddr q := by
              rcases List.mem_cons.mp hq with rfl | hq
              · exact Nat.le_refl _
              · have hbefore := h.before_cons hq
                omega
            have hpa := hY p List.mem_cons_self
            omega
      rw [hgap]
      exact moved_zero s dir t

/-! ## What each operation does -/

/-- A transfer starts at the start of a block or in a gap, or it ends in the block that it starts
in. -/
def EndsInFirst (s : DeviceMem) (addr len : Nat) : Prop :=
  ∀ p ∈ s.blocks, s.logAddr p < addr → addr < s.logAddr p + s.logLen p →
    addr + len ≤ s.logAddr p + s.logLen p

instance (s : DeviceMem) (addr len : Nat) : Decidable (s.EndsInFirst addr len) :=
  inferInstanceAs (Decidable (∀ p ∈ s.blocks, _ → _ → _))

/-- The range from `addr` on is transferred up to the first gap, and what is behind stays. -/
def TransMeets (s : DeviceMem) (addr len : Nat) (dir : Direction) (buf : Nat → UInt8) : Prop :=
  ∃ success buf' t, s.trans addr len dir buf = some (success, buf', t) ∧
    if dir = .read then
      buf' = s.bytes.fetch addr (s.bytes.covered addr len) buf 0 ∧ t.bytes = s.bytes
    else buf' = buf ∧ t.bytes = s.bytes.put addr (s.bytes.covered addr len) buf 0

theorem transMeets_of_moved (success : Bool) {dir : Direction} {buf : Nat → UInt8} {t : Transfer}
    (htrans : s.trans addr len dir buf = some (success, t.buf, { s with data := t.data }))
    (h : s.Moved dir ⟨s.data, buf, addr, len, 0⟩ t (s.bytes.covered addr len)) :
    s.TransMeets addr len dir buf := by
  refine ⟨success, t.buf, _, htrans, ?_⟩
  unfold Moved at h
  split at h
  · rename_i hread
    obtain ⟨hdata, hbuf⟩ := h
    rw [if_pos hread]
    refine ⟨hbuf, ?_⟩
    rw [hdata]
  · rename_i hwrite
    rwa [if_neg hwrite]

/-- The range starts inside of a block and ends in it. -/
theorem Sound.trans_within {iter : Nat} (h : s.Sound (X ++ iter :: Y))
    (hfit : addr + len < addrSpace) (dir : Direction) (buf : Nat → UInt8)
    (hfind : s.findBlock addr = some iter) (hstart : s.logAddr iter < addr)
    (hin : addr + len ≤ s.logAddr iter + s.logLen iter) : s.TransMeets addr len dir buf := by
  have hiter : iter ∈ X ++ iter :: Y := by simp
  have hfuel : Y.length ≤ s.allocated.length := by
    have hlen := h.length_le
    rw [List.length_append, List.length_cons] at hlen
    omega
  have hdelta : sub64 addr (s.logAddr iter) = addr - s.logAddr iter :=
    sub64_eq (Nat.le_of_lt hstart) (by omega)
  obtain ⟨t1, hmove, hmoved, haddr, hlen1, hpos⟩ := h.move dir len
    (addr - s.logAddr iter) len (t := ⟨s.data, buf, addr, len, 0⟩) hiter
    (by simp only; omega) (by omega) (Nat.le_refl _) (by simp only; omega) (by simp)
  simp only [Nat.sub_self] at haddr hlen1 hpos
  have hsound : s.Sound ((X ++ [iter]) ++ Y) := by simpa using h
  have hY : ∀ p ∈ Y, t1.logAddr ≤ s.logAddr p := by
    intro p hp
    have hle := h.before_cons hp
    omega
  obtain ⟨t2, hloop, hrest⟩ := hsound.transLoop dir len s.allocated.length (t := t1)
    (by omega) (by omega) (Or.inl hlen1) hY hfuel
  refine transMeets_of_moved true (t := t2) ?_ ?_
  · unfold DeviceMem.trans transInside
    rw [hfind]
    simp only [if_pos hstart, h.blockEnd hiter, add64_eq hfit, if_neg (Nat.not_lt.mpr hin), hdelta,
      hmove, h.next, Option.bind_some, hloop, Option.map_some]
  · have hall : s.bytes.covered addr len = len := by
      apply PartialStore.covered_all
      intro i hi
      exact h.isSome_bytes hiter ⟨by omega, by omega⟩
    rw [hlen1] at hrest
    rw [hall]
    exact hmoved.trans haddr hpos hrest

/-- The range starts inside of a block and goes on behind its end: `cut_len` wraps around, or nothing
is cut where the range ends at the top. -/
theorem Sound.trans_beyond {iter : Nat} (h : s.Sound ps) (hiter : iter ∈ ps)
    (hrange : RangeOk addr len) (dir : Direction) (buf : Nat → UInt8)
    (hfind : s.findBlock addr = some iter) (hstart : s.logAddr iter < addr)
    (hout : s.logAddr iter + s.logLen iter < addr + len) : s.trans addr len dir buf = none := by
  have hlens := (h.lens iter hiter).2
  obtain ⟨hpos, -, hfit⟩ := hrange
  have hmove : ∀ t cutLen, s.logLen iter < cutLen →
      s.move dir len t iter (sub64 addr (s.logAddr iter)) cutLen = none := by
    intro t cutLen hcut
    unfold DeviceMem.move
    rw [if_neg fun hroom => absurd hroom.1 (by omega)]
  unfold DeviceMem.trans transInside
  rw [hfind]
  simp only [if_pos hstart, h.blockEnd hiter]
  by_cases htop : addr + len = addrSpace
  · -- The whole length is taken from the middle of the block.
    have hzero : add64 addr len = 0 := by rw [add64, htop, Nat.mod_self]
    have hnone : ∀ t, s.move dir len t iter (sub64 addr (s.logAddr iter)) len = none := by
      intro t
      unfold DeviceMem.move
      rw [sub64_eq hstart.le (by omega), if_neg (by omega)]
    simp only [hzero, Nat.not_lt_zero, if_false, hnone, Option.bind_none, Option.map_none]
  · have hcut : s.logLen iter < sub64 (s.logAddr iter + s.logLen iter) (addr + len) := by
      unfold sub64 addrSpace at *
      omega
    simp only [add64_eq (show addr + len < addrSpace by omega), if_pos hout, hmove _ _ hcut,
      Option.bind_none, Option.map_none]

/-- The range starts where a block starts, or in a gap. -/
theorem Sound.trans_aligned {iter : Nat} (h : s.Sound (X ++ iter :: Y))
    (hlen : len < addrSpace) (dir : Direction) (buf : Nat → UInt8)
    (hfind : s.findBlock addr = some iter) (hX : ∀ p ∈ X, s.logAddr p + s.logLen p ≤ addr)
    (hstart : addr ≤ s.logAddr iter) : s.TransMeets addr len dir buf := by
  have hfuel : (iter :: Y).length ≤ s.allocated.length := by
    have hlen := h.length_le
    rw [List.length_append] at hlen
    omega
  have hY : ∀ p ∈ iter :: Y, addr ≤ s.logAddr p := by
    intro p hp
    rcases List.mem_cons.mp hp with rfl | hp
    · exact hstart
    · have hle := h.before_cons hp
      omega
  obtain ⟨t, hloop, hmoved⟩ := h.transLoop dir len s.allocated.length
    (t := ⟨s.data, buf, addr, len, 0⟩) hlen (by simp) (Or.inr hX) hY hfuel
  refine transMeets_of_moved true (t := t) ?_ hmoved
  unfold DeviceMem.trans
  rw [hfind]
  rw [List.head?_cons] at hloop
  simp only [if_neg (Nat.not_lt.mpr hstart), hloop, Option.map_some]

theorem Sound.trans_hole (h : s.Sound ps) (dir : Direction) (buf : Nat → UInt8)
    (hfind : s.findBlock addr = none) : s.TransMeets addr len dir buf := by
  refine transMeets_of_moved false (t := ⟨s.data, buf, addr, len, 0⟩) ?_ ?_
  · unfold DeviceMem.trans
    rw [hfind]
  · rw [PartialStore.covered_none]
    · exact moved_zero s dir _
    · rw [h.bytes_eq_none]
      intro p hp hcov
      have hle := h.findBlock_none hfind p hp
      unfold Covers at hcov
      omega

theorem Sound.trans (h : s.Sound ps) (hrange : RangeOk addr len) (dir : Direction)
    (buf : Nat → UInt8) : s.TransMeets addr len dir buf ↔ s.EndsInFirst addr len := by
  unfold EndsInFirst
  rw [h.blocks]
  cases hfind : s.findBlock addr with
  | none =>
    refine iff_of_true (h.trans_hole dir buf hfind) ?_
    intro p hp _ hin
    have hle := h.findBlock_none hfind p hp
    omega
  | some iter =>
    obtain ⟨hend, X, Y, rfl, hX⟩ := h.findBlock_some hfind
    have hiter : iter ∈ X ++ iter :: Y := by simp
    by_cases hstart : s.logAddr iter < addr
    · by_cases hin : addr + len ≤ s.logAddr iter + s.logLen iter
      · have hbelow := (h.lens iter hiter).2
        refine iff_of_true (h.trans_within (by omega) dir buf hfind hstart hin) ?_
        intro p hp hlow hhigh
        rwa [h.unique hp hiter ⟨Nat.le_of_lt hlow, hhigh⟩ ⟨Nat.le_of_lt hstart, hend⟩]
      · refine iff_of_false ?_ fun hends => hin (hends iter hiter hstart hend)
        rintro ⟨success, buf', t, htrans, -⟩
        rw [h.trans_beyond hiter hrange dir buf hfind hstart (Nat.not_le.mp hin)] at htrans
        cases htrans
    · refine iff_of_true (h.trans_aligned hrange.2.1 dir buf hfind hX (Nat.not_lt.mp hstart)) ?_
      intro p hp hlow hhigh
      rcases List.mem_append.mp hp with hp | hp
      · have hle := hX p hp
        omega
      · rcases List.mem_cons.mp hp with rfl | hp
        · exact absurd hlow hstart
        · have hle := h.before_cons hp
          omega

/-- A pointer into the block that has the address, and no more than is left of the block. -/
theorem Sound.get (h : s.Sound ps) (hfit : addr + len < addrSpace) {block pos n : Nat}
    (hget : s.get addr len = some (block, pos, n)) :
    block ∈ ps ∧ s.Covers block addr ∧ s.logAddr block + pos = addr ∧ n ≤ len ∧
      pos + n ≤ s.logLen block := by
  unfold DeviceMem.get at hget
  cases hfind : s.findBlock addr with
  | none =>
    rw [hfind] at hget
    cases hget
  | some iter =>
    rw [hfind] at hget
    obtain ⟨hend, X, Y, rfl, -⟩ := h.findBlock_some hfind
    have hiter : iter ∈ X ++ iter :: Y := by simp
    have hlens := h.lens iter hiter
    simp only [h.blockEnd hiter, add64_eq hfit] at hget
    split at hget
    · rename_i hstart
      rw [sub64_eq hstart (by omega), sub64_eq (Nat.le_of_lt hend) hlens.2] at hget
      simp only [Option.some.injEq, Prod.mk.injEq] at hget
      obtain ⟨rfl, rfl, rfl⟩ := hget
      refine ⟨hiter, ⟨hstart, hend⟩, ?_⟩
      split <;> omega
    · cases hget

theorem trans_state {dir : Direction} {buf : Nat → UInt8} {r : Bool × (Nat → UInt8) × DeviceMem}
    (htrans : s.trans addr len dir buf = some r) : ∃ d, r.2.2 = { s with data := d } := by
  unfold DeviceMem.trans at htrans
  split at htrans
  · cases htrans
    exact ⟨s.data, rfl⟩
  · rw [Option.map_eq_some_iff] at htrans
    obtain ⟨t, -, rfl⟩ := htrans
    exact ⟨t.data, rfl⟩

/-! ## What `$create` and `$delete` do -/

/-- Nothing is at the addresses of the range. -/
def RangeFree (s : DeviceMem) (addr len : Nat) : Prop :=
  ∀ x, addr ≤ x → x < addr + len → s.bytes x = none

theorem Sound.rangeFree (h : s.Sound ps) (hlen : 0 < len) : s.RangeFree addr len ↔
    ∀ p ∈ ps, s.logAddr p + s.logLen p ≤ addr ∨ addr + len ≤ s.logAddr p := by
  unfold RangeFree
  constructor
  · intro hfree p hp
    have hlens := h.lens p hp
    by_contra hover
    have hx := hfree (max addr (s.logAddr p)) (Nat.le_max_left _ _) (by omega)
    rw [h.bytes_eq_none] at hx
    exact hx p hp ⟨Nat.le_max_right _ _, by omega⟩
  · intro hall x hlow hhigh
    rw [h.bytes_eq_none]
    intro p hp hcov
    have hp' := hall p hp
    unfold Covers at hcov
    omega

/-- A check or `malloc` fails, or the new block is put where it belongs, if its header fits. -/
theorem Sound.create_cases (h : s.Sound ps) (hlen : 0 < len) (hfit : addr + len < addrSpace)
    (clear : Bool) (new : Option Nat) (hnew : ∀ p ∈ new, p ∉ s.allocated) (junk : Nat → UInt8) :
    (s.create addr len clear new junk = some (false, s) ∧ (new = none ∨ ¬ s.RangeFree addr len)) ∨
    ∃ p X Y, new = some p ∧ p ∉ s.allocated ∧ X ++ Y = ps ∧ s.RangeFree addr len ∧
      (∀ q ∈ X, s.logAddr q + s.logLen q ≤ addr) ∧ (∀ q ∈ Y, addr + len ≤ s.logAddr q) ∧
      s.create addr len clear new junk = if sizeofMemBlock + len < addrSpace then
        some (true, s.added addr len p (if clear then fun _ => 0 else junk) X.getLast? Y.head?)
        else none := by
  have hloop := h.createLoop (X := []) hfit (by simp) h.length_le
  unfold DeviceMem.create
  rw [h.first]
  rcases hloop with ⟨hnone, p, hp, hover⟩ | ⟨X, Y, hps, hsome, hX, hY⟩
  · refine Or.inl ⟨?_, Or.inr ?_⟩
    · rw [List.getLast?_nil] at hnone
      rw [hnone]
    · intro hfree
      have hp' := (h.rangeFree hlen).mp hfree p hp
      omega
  · rw [List.getLast?_nil] at hsome
    rw [hsome]
    cases new with
    | none => exact Or.inl ⟨rfl, Or.inl rfl⟩
    | some p =>
      have hp : p ∉ s.allocated := hnew p rfl
      refine Or.inr ⟨p, X, Y, rfl, hp, hps, ?_, hX, hY, ?_⟩
      · rw [h.rangeFree hlen, ← List.nil_append ps, ← hps]
        intro q hq
        rcases List.mem_append.mp hq with hq | hq
        · exact Or.inl (hX q hq)
        · exact Or.inr (hY q hq)
      · have hwrap : add64 sizeofMemBlock len < sizeofMemBlock ↔
            ¬ sizeofMemBlock + len < addrSpace := by
          unfold add64 sizeofMemBlock addrSpace at *
          omega
        by_cases hroom : sizeofMemBlock + len < addrSpace
        · simp only [hp, hwrap, hroom, not_true, or_self, if_false, if_true, DeviceMem.added,
            DeviceMem.stored, h.first]
        · simp only [hwrap, hroom, not_false_iff, or_true, if_true, if_false]

theorem Sound.delete_cases (h : s.Sound ps) (hlen : 0 < len) (hfit : addr + len < addrSpace) :
    (∃ X p Y, ps = X ++ p :: Y ∧ s.logAddr p = addr ∧ s.logLen p = len ∧
      s.delete addr len = (true, (s.unlink p).free p)) ∨
    s.delete addr len = (false, s) ∨
    (s.delete addr len = (true, s) ∧ s.RangeFree addr len) := by
  have hloop := h.deleteLoop (X := []) hlen hfit (by simp) h.length_le
  unfold DeviceMem.delete
  rw [h.first]
  rcases hloop with ⟨p, hp, hfound, haddr, hl⟩ | ⟨hmis, -⟩ | ⟨hhole, hall⟩
  · obtain ⟨X, Y, rfl⟩ := List.append_of_mem hp
    rw [hfound]
    exact Or.inl ⟨X, p, Y, rfl, haddr, hl, rfl⟩
  · rw [hmis]
    exact Or.inr (Or.inl rfl)
  · rw [hhole]
    exact Or.inr (Or.inr ⟨rfl, (h.rangeFree hlen).mpr (by simpa using hall)⟩)

/-- A new block appears where there was none, or nothing changes. -/
def CreateMeets (s : DeviceMem) (addr len : Nat) (clear : Bool) (new : Option Nat)
    (junk : Nat → UInt8) : Prop :=
  ∃ success t, s.create addr len clear new junk = some (success, t) ∧
    if success then s.RangeFree addr len ∧
      t.bytes = s.bytes.put addr len (if clear then fun _ => 0 else junk) 0
    else t.bytes = s.bytes

/-- Nothing is left in the range, or nothing changes. -/
def DeleteMeets (s : DeviceMem) (addr len : Nat) : Prop :=
  if (s.delete addr len).1 then (s.delete addr len).2.bytes = s.bytes.clear addr len
  else (s.delete addr len).2.bytes = s.bytes

/-- The header fits into what is asked for, if `malloc` is asked and gives something. -/
def HeaderFits (s : DeviceMem) (addr len : Nat) (new : Option Nat) : Prop :=
  new.isSome → s.RangeFree addr len → sizeofMemBlock + len < addrSpace

theorem Sound.create (h : s.Sound ps) (hlen : 0 < len) (hfit : addr + len < addrSpace)
    (clear : Bool) (new : Option Nat) (hnew : ∀ p ∈ new, p ∉ s.allocated) (junk : Nat → UInt8) :
    s.CreateMeets addr len clear new junk ↔ s.HeaderFits addr len new := by
  unfold CreateMeets HeaderFits
  rcases h.create_cases hlen hfit clear new hnew junk with
    ⟨hfail, hwhy⟩ | ⟨p, X, Y, rfl, hp, rfl, hfree, hX, hY, hcreate⟩
  · refine iff_of_true ⟨false, s, hfail, rfl⟩ ?_
    rintro hsome hfree
    rcases hwhy with rfl | hover
    · cases hsome
    · exact absurd hfree hover
  · rw [hcreate]
    by_cases hroom : sizeofMemBlock + len < addrSpace
    · refine iff_of_true ⟨true, _, if_pos hroom, hfree, ?_⟩ fun _ _ => hroom
      exact h.bytes_added hlen hfit hp _ hX hY
    · refine iff_of_false ?_ fun hall => hroom (hall rfl hfree)
      rintro ⟨success, t, hsome, -⟩
      rw [if_neg hroom] at hsome
      cases hsome

theorem Sound.delete (h : s.Sound ps) (hlen : 0 < len) (hfit : addr + len < addrSpace) :
    s.DeleteMeets addr len := by
  unfold DeleteMeets
  rcases h.delete_cases hlen hfit with ⟨X, p, Y, rfl, rfl, rfl, hdel⟩ | hdel | ⟨hdel, hfree⟩
  · rw [hdel]
    exact h.bytes_removed
  · rw [hdel]
    rfl
  · rw [hdel]
    funext x
    unfold PartialStore.clear
    split
    · rename_i hx
      exact hfree x hx.1 hx.2
    · rfl

/-! ## Ranges that end at the top

The end of such a range wraps around to 0, and then no block begins in front of it.
-/

section Top

variable (htop : addr + len = addrSpace)
include htop

theorem add64_of_top : add64 addr len = 0 := by rw [add64, htop, Nat.mod_self]

theorem createLoop_top (s : DeviceMem) (fuel : Nat) (iter : Option Nat) :
    s.createLoop addr len fuel none iter = some (none, iter) := by
  cases fuel <;> cases iter <;> try rfl
  rw [createLoop, add64_of_top htop, if_neg (Nat.not_lt_zero _)]

/-- The new block goes in front of all others, whatever is at its addresses. -/
theorem create_top (h : s.Sound ps) (hlen : len < addrSpace) (clear : Bool) {p : Nat} (hp : p ∉ s.allocated)
    (junk : Nat → UInt8) :
    s.create addr len clear (some p) junk = if sizeofMemBlock + len < addrSpace then
      some (true, s.added addr len p (if clear then fun _ => 0 else junk) none ps.head?)
      else none := by
  have hwrap : add64 sizeofMemBlock len < sizeofMemBlock ↔ ¬ sizeofMemBlock + len < addrSpace := by
    unfold add64 sizeofMemBlock addrSpace at *
    omega
  unfold DeviceMem.create
  rw [h.first, createLoop_top htop]
  by_cases hroom : sizeofMemBlock + len < addrSpace
  · simp only [hp, hwrap, hroom, not_true, or_self, if_false, if_true, added, stored, h.first]
  · simp only [hwrap, hroom, not_false_iff, or_true, if_true, if_false]

theorem create_top_none (h : s.Sound ps) (clear : Bool) (junk : Nat → UInt8) :
    s.create addr len clear none junk = some (false, s) := by
  unfold DeviceMem.create
  rw [h.first, createLoop_top htop]

/-- A list with other blocks is not sorted any more. -/
theorem not_listed_top (h : s.Sound ps) (hne : ps ≠ []) {p : Nat} (hp : p ∉ s.allocated)
    (content : Nat → UInt8) {qs : List Nat} :
    ¬ (s.added addr len p content none ps.head?).Listed qs := by
  obtain ⟨q, Y, rfl⟩ := List.exists_cons_of_ne_nil hne
  have hmem : p ∉ [] ++ q :: Y := fun hin => hp (h.allocated p hin)
  have hqp : q ≠ p := fun heq => hmem (heq ▸ List.mem_cons_self)
  have hlink := Sound.link (s := s.stored addr len p content) (X := []) (Y := q :: Y) h.linked hmem
  intro hqs
  have hfirst : qs.head? = some p := hqs.linked.first.symm.trans hlink.first
  obtain ⟨t, rfl⟩ := List.head?_eq_some_iff.mp hfirst
  have hnext : t.head? = some q :=
    (Links.Dll.next (X := []) hqs.linked).symm.trans (Links.Dll.next (X := []) hlink)
  have hsorted := (List.pairwise_cons.mp hqs.sorted).1 q (List.mem_of_mem_head? hnext)
  rw [added_logAddr, added_logLen, Function.update_self, Function.update_self,
    Function.update_of_ne hqp] at hsorted
  have hlens := h.lens q List.mem_cons_self
  omega

omit htop in
/-- In an empty list it is all that there is. -/
theorem bytes_added_top (h : s.Sound []) (p : Nat) (content : Nat → UInt8) :
    (s.added addr len p content none none).bytes = s.bytes.put addr len content 0 := by
  have hlink := Sound.link (s := s.stored addr len p content) (X := []) (Y := []) h.linked
    (List.not_mem_nil (a := p))
  have hblocks : (s.added addr len p content none none).blocks = [p] := by
    have hfirst : (s.added addr len p content none none).blockList = some p := hlink.first
    unfold DeviceMem.blocks
    rw [hfirst, added_allocated]
    exact (Links.Dll.path (X := []) hlink).collect_eq (Nat.succ_le_succ (Nat.zero_le _))
  have hcov (x : Nat) : (s.added addr len p content none none).Covers p x ↔
      addr ≤ x ∧ x < addr + len := by
    unfold Covers
    rw [added_logAddr, added_logLen, Function.update_self, Function.update_self]
  funext x
  unfold DeviceMem.bytes PartialStore.put
  rw [hblocks, h.blocks, List.find?_cons]
  by_cases hx : addr ≤ x ∧ x < addr + len
  · rw [if_pos hx, decide_eq_true ((hcov x).mpr hx), Option.map_some, added_data, added_logAddr,
      Function.update_self, Function.update_self, Nat.zero_add]
  · rw [if_neg hx, decide_eq_false ((hcov x).not.mpr hx)]
    rfl

theorem delete_top (h : s.Sound ps) : s.delete addr len = (true, s) := by
  unfold DeviceMem.delete
  rw [h.first]
  have hloop : s.deleteLoop addr len s.allocated.length ps.head? = .hole := by
    cases s.allocated.length <;> cases ps.head? <;> try rfl
    rw [deleteLoop, add64_of_top htop, if_neg (Nat.not_lt_zero _)]
  rw [hloop]

/-- Nothing is cut off, so what is found is too long. -/
theorem Sound.get_top (h : s.Sound ps) : (∀ block pos n, s.get addr len = some (block, pos, n) →
    block ∈ s.blocks ∧ s.Covers block addr ∧ s.logAddr block + pos = addr ∧ n ≤ len ∧
      pos + n ≤ s.logLen block) ↔ s.bytes addr = none := by
  rw [h.bytes_eq_none]
  constructor
  · intro hall p hp hcov
    unfold Covers at hcov
    cases hfind : s.findBlock addr with
    | none =>
      have hle := h.findBlock_none hfind p hp
      omega
    | some iter =>
      obtain ⟨hend, X, Y, rfl, hX⟩ := h.findBlock_some hfind
      have hiter : iter ∈ X ++ iter :: Y := by simp
      have hstart : s.logAddr iter ≤ addr := by
        rcases List.mem_append.mp hp with hp | hp
        · have hle := hX p hp
          omega
        · rcases List.mem_cons.mp hp with rfl | hp
          · exact hcov.1
          · have hle := h.before_cons hp
            omega
      have hget : s.get addr len = some (iter, sub64 addr (s.logAddr iter), len) := by
        unfold DeviceMem.get
        rw [hfind]
        simp only [if_pos hstart, add64_of_top htop, Nat.not_lt_zero, if_false]
      obtain ⟨-, -, hpos, -, hroom⟩ := hall _ _ _ hget
      have hlens := h.lens iter hiter
      omega
  · intro hnone block pos n hget
    unfold DeviceMem.get at hget
    cases hfind : s.findBlock addr with
    | none =>
      rw [hfind] at hget
      cases hget
    | some iter =>
      rw [hfind] at hget
      obtain ⟨hend, X, Y, rfl, -⟩ := h.findBlock_some hfind
      dsimp only at hget
      split at hget
      · rename_i hstart
        exact absurd ⟨hstart, hend⟩ (hnone iter (by simp))
      · cases hget

end Top

/-! ## Runs -/

/-- The store with holes has to follow each operation. -/
def Event.Follows (s : DeviceMem) : Event → Prop
  | .create addr len clear new junk => s.CreateMeets addr len clear new junk
  | .delete addr len => s.DeleteMeets addr len
  | .get addr len => ∀ block pos n, s.get addr len = some (block, pos, n) →
      block ∈ s.blocks ∧ s.Covers block addr ∧ s.logAddr block + pos = addr ∧ n ≤ len ∧
        pos + n ≤ s.logLen block
  | .trans addr len dir buf => s.TransMeets addr len dir buf

/-- And the list stays linked and sorted. -/
def Event.Meets (s : DeviceMem) (e : Event) : Prop :=
  e.Follows s ∧ ∀ t, step s e = some t → ∃ ps, t.Listed ps

def Event.Within (s : DeviceMem) : Event → Prop
  | .create addr len _ new _ => s.HeaderFits addr len new ∧
      (new.isSome → addr + len < addrSpace ∨ s.blocks = [])
  | .delete addr len => addr + len < addrSpace ∨ s.RangeFree addr len
  | .get addr len => addr + len < addrSpace ∨ s.bytes addr = none
  | .trans addr len _ _ => s.EndsInFirst addr len

theorem Sound.step (h : s.Sound ps) {e : Event} (he : e.Proper s) (hb : e.Below) {t : DeviceMem}
    (hstep : DeviceMem.step s e = some t) : ∃ ps, t.Sound ps := by
  cases e with
  | create addr len clear new junk =>
    unfold DeviceMem.step at hstep
    rw [Option.map_eq_some_iff] at hstep
    obtain ⟨⟨success, t⟩, hcreate, rfl⟩ := hstep
    by_cases htop : addr + len = addrSpace
    · cases new with
      | none =>
        rw [create_top_none htop h] at hcreate
        cases hcreate
        exact ⟨ps, h⟩
      | some p => exact absurd (hb rfl) (by omega)
    rcases h.create_cases he.1.1 (lt_of_le_of_ne he.1.2.2 htop) clear new he.2 junk with
      ⟨hfail, -⟩ | ⟨p, X, Y, rfl, hp, rfl, -, hX, hY, hadd⟩
    · rw [hfail] at hcreate
      cases hcreate
      exact ⟨ps, h⟩
    · rw [hadd] at hcreate
      split at hcreate
      · cases hcreate
        exact ⟨_, h.added he.1.1 (hb rfl) hp _ hX hY⟩
      · cases hcreate
  | delete addr len =>
    cases hstep
    by_cases htop : addr + len = addrSpace
    · rw [delete_top htop h]
      exact ⟨ps, h⟩
    rcases h.delete_cases he.1 (lt_of_le_of_ne he.2.2 htop) with
      ⟨X, p, Y, rfl, -, -, hdel⟩ | hdel | ⟨hdel, -⟩
    · rw [hdel]
      exact ⟨_, h.removed⟩
    · rw [hdel]
      exact ⟨ps, h⟩
    · rw [hdel]
      exact ⟨ps, h⟩
  | get addr len =>
    cases hstep
    exact ⟨ps, h⟩
  | trans addr len dir buf =>
    unfold DeviceMem.step at hstep
    rw [Option.map_eq_some_iff] at hstep
    obtain ⟨r, htrans, rfl⟩ := hstep
    obtain ⟨d, hd⟩ := trans_state htrans
    rw [hd]
    exact ⟨ps, h.setData d⟩

theorem Sound.meets_create (h : s.Sound ps) (hrange : RangeOk addr len) (clear : Bool)
    (new : Option Nat) (hnew : ∀ p ∈ new, p ∉ s.allocated) (junk : Nat → UInt8) :
    (Event.create addr len clear new junk).Meets s ↔
      (Event.create addr len clear new junk).Within s := by
  have hlist (hb : (Event.create addr len clear new junk).Below) (t : DeviceMem)
      (ht : DeviceMem.step s (.create addr len clear new junk) = some t) : ∃ qs, t.Listed qs := by
    have he : (Event.create addr len clear new junk).Proper s := ⟨hrange, hnew⟩
    obtain ⟨qs, hqs⟩ := h.step he hb ht
    exact ⟨qs, hqs.listed⟩
  by_cases hfit : addr + len < addrSpace
  · have hfollows := h.create hrange.1 hfit clear new hnew junk
    exact ⟨fun hm => ⟨hfollows.mp hm.1, fun _ => Or.inl hfit⟩,
      fun hw => ⟨hfollows.mpr hw.1, hlist fun _ => hfit⟩⟩
  have htop : addr + len = addrSpace := le_antisymm hrange.2.2 (not_lt.mp hfit)
  cases new with
  | none =>
    refine iff_of_true ⟨⟨false, s, create_top_none htop h clear junk, rfl⟩, hlist fun hn => ?_⟩
      ⟨fun hn => ?_, fun hn => ?_⟩ <;> cases hn
  | some p =>
    have hp : p ∉ s.allocated := hnew p rfl
    have hcreate := create_top htop h hrange.2.1 clear hp junk
    by_cases hempty : ps = []
    · subst hempty
      have hfree : s.RangeFree addr len := by
        rw [h.rangeFree hrange.1]
        exact List.forall_mem_nil _
      have hlinked := Sound.link (s := s.stored addr len p (if clear then fun _ => 0 else junk))
        (X := []) (Y := []) h.linked (List.not_mem_nil (a := p))
      constructor
      · rintro ⟨⟨success, t, hsome, -⟩, -⟩
        rw [hcreate] at hsome
        refine ⟨fun _ _ => ?_, fun _ => Or.inr h.blocks⟩
        by_contra hroom
        rw [if_neg hroom] at hsome
        cases hsome
      · rintro ⟨hheader, -⟩
        have hroom := hheader rfl hfree
        rw [if_pos hroom] at hcreate
        refine ⟨⟨true, _, hcreate, hfree, bytes_added_top h p _⟩, fun t ht => ⟨[p], ?_⟩⟩
        rw [DeviceMem.step, hcreate] at ht
        cases ht
        exact ⟨hlinked, List.pairwise_singleton _ _⟩
    · refine iff_of_false (fun hm => ?_) fun hw => ?_
      · obtain ⟨⟨success, t, hsome, -⟩, hall⟩ := hm
        obtain ⟨qs, hqs⟩ := hall t (by rw [DeviceMem.step, hsome, Option.map_some])
        rw [hcreate] at hsome
        split at hsome
        · cases hsome
          exact not_listed_top htop h hempty hp _ hqs
        · cases hsome
      · rcases hw.2 rfl with hlt | hblocks
        · exact hfit hlt
        · exact hempty (h.blocks.symm.trans hblocks)

theorem Sound.meets (h : s.Sound ps) {e : Event} (he : e.Proper s) : e.Meets s ↔ e.Within s := by
  have hlist (hb : e.Below) (t : DeviceMem) (ht : DeviceMem.step s e = some t) :
      ∃ qs, t.Listed qs := by
    obtain ⟨qs, hqs⟩ := h.step he hb ht
    exact ⟨qs, hqs.listed⟩
  cases e with
  | create addr len clear new junk => exact h.meets_create he.1 clear new he.2 junk
  | delete addr len =>
    refine (and_iff_left (hlist trivial)).trans ?_
    by_cases hfit : addr + len < addrSpace
    · exact iff_of_true (h.delete he.1 hfit) (Or.inl hfit)
    have htop : addr + len = addrSpace := le_antisymm he.2.2 (not_lt.mp hfit)
    change s.DeleteMeets addr len ↔ addr + len < addrSpace ∨ s.RangeFree addr len
    rw [DeleteMeets, delete_top htop h, or_iff_right hfit, if_pos rfl]
    constructor
    · intro hclear x hlow hhigh
      have := congrFun hclear x
      rwa [PartialStore.clear, if_pos ⟨hlow, hhigh⟩] at this
    · intro hfree
      funext x
      unfold PartialStore.clear
      split
      · rename_i hx
        exact hfree x hx.1 hx.2
      · rfl
  | get addr len =>
    refine (and_iff_left (hlist trivial)).trans ?_
    by_cases hfit : addr + len < addrSpace
    · refine iff_of_true (fun block pos n hget => ?_) (Or.inl hfit)
      rw [h.blocks]
      exact h.get hfit hget
    · exact (h.get_top (le_antisymm he.2.2 (not_lt.mp hfit))).trans (or_iff_right hfit).symm
  | trans addr len dir buf =>
    exact (and_iff_left (hlist trivial)).trans (h.trans he dir buf)

/-- The blocks can be put in order in every state that is reached. -/
theorem exists_sound (h : Reach step (· = init) (fun s e => e.Proper s ∧ e.Below) s) :
    ∃ ps, s.Sound ps := by
  refine Reach.invariant (I := fun s => ∃ ps, Sound s ps) ?_ ?_ h
  · rintro t rfl
    exact ⟨[], Sound.nil⟩
  · rintro t e t' ⟨ps, hps⟩ he hstep
    exact hps.step he.1 he.2 hstep

/-- **A store of bytes with holes.** In every run of proper operations in which no block ends at the
top, the list stays sorted, disjoint and linked both ways, and an operation does what it has to do
exactly when a transfer does not leave the block that it starts inside of, a new block is not too
long for its header, and a range that ends at the top is in no block. -/
theorem mem_nest_meets (h : Reach step (· = init) (fun s e => e.Proper s ∧ e.Below) s) :
    (∃ ps, s.Sound ps) ∧ ∀ e : Event, e.Proper s → (e.Meets s ↔ e.Within s) := by
  obtain ⟨ps, hps⟩ := exists_sound h
  exact ⟨⟨ps, hps⟩, fun e he => hps.meets he⟩

/-- Two blocks one behind the other. -/
def borderRun : Option DeviceMem :=
  (step init (.create 4 4 true (some 1) fun _ => 0)).bind fun s =>
    step s (.create 8 4 true (some 2) fun _ => 0)

/-- A new block at the top of the address space goes in front of them. -/
theorem mem_nest_meets_two : ∃ s, borderRun = some s ∧
    ((∃ ps, s.Sound ps) ∧ ∀ e : Event, e.Proper s → (e.Meets s ↔ e.Within s)) ∧
    (Event.trans 4 8 .read fun _ => 0).Meets s ∧
    ¬ (Event.create (addrSpace - 4096) 4096 true (some 3) fun _ => 0).Meets s := by
  have hmeets := mem_nest_meets (Reach.next (e := .create 8 4 true (some 2) fun _ => 0) (Reach.next
    (e := .create 4 4 true (some 1) fun _ => 0) (Reach.start rfl) ?_ rfl) ?_ rfl)
  refine ⟨_, rfl, hmeets, (hmeets.2 _ ?_).mpr ?_, (hmeets.2 _ ?_).not.mpr ?_⟩
  · exact ⟨by decide, by decide, by decide⟩
  · show EndsInFirst _ 4 8
    decide
  · exact ⟨⟨by decide, by decide, by decide⟩, by decide⟩
  · exact fun hw => absurd (hw.2 rfl) (by decide)
  · exact ⟨⟨⟨by decide, by decide, by decide⟩, by simp [init]⟩, fun _ => by decide⟩
  · exact ⟨⟨⟨by decide, by decide, by decide⟩, by decide⟩, fun _ => by decide⟩

/-- A read over the border of the two: `cut_len` has no end. -/
theorem border_transfer_fails : ∃ s, borderRun = some s ∧
    Reach step (· = init) (fun s e => e.Proper s ∧ e.Below) s ∧
    (∀ x, 6 ≤ x → x < 10 → (s.bytes x).isSome) ∧
    s.trans 6 4 .read (fun _ => 0) = none ∧ ¬ (Event.trans 6 4 .read fun _ => 0).Meets s := by
  refine ⟨_, rfl, ?_, ?_, by decide, ?_⟩
  · refine Reach.next (e := .create 8 4 true (some 2) fun _ => 0) (Reach.next
      (e := .create 4 4 true (some 1) fun _ => 0) (Reach.start rfl) ?_ rfl) ?_ rfl
    · exact ⟨⟨⟨by decide, by decide, by decide⟩, by simp [init]⟩, fun _ => by decide⟩
    · exact ⟨⟨⟨by decide, by decide, by decide⟩, by decide⟩, fun _ => by decide⟩
  · intro x hlow hhigh
    obtain rfl | rfl | rfl | rfl : x = 6 ∨ x = 7 ∨ x = 8 ∨ x = 9 := by omega
    all_goals decide
  · rintro ⟨⟨success, buf, t, htrans, -⟩, -⟩
    cases htrans

end DeviceMem

end Athomux
