import Mathlib.Data.List.Find
import Mathlib.Data.List.Sort
import Mathlib.Data.List.TakeWhile
import Athomux.LockList.Spec

/-! # What the lock list stands for -/

open Lib

namespace Athomux

variable {τ : Type} {n : Nat}

/-! ## Entries -/

/-- A record and its lock. -/
abbrev Entry (τ : Type) := Nat × LockDesc τ

def startLe (a b : Entry τ) : Prop := a.2.start ≤ b.2.start

instance : DecidableRel (@startLe τ) := fun _ _ => inferInstanceAs (Decidable (_ ≤ _))

instance : Std.Total (@startLe τ) := ⟨fun a b => Nat.le_total a.2.start b.2.start⟩

instance : IsTrans (Entry τ) startLe := ⟨fun _ _ _ h1 h2 => Nat.le_trans h1 h2⟩

abbrev Sorted (A : List (Entry τ)) : Prop := A.Pairwise startLe

/-- In before the first entry that does not start lower. -/
def ins (e : Entry τ) (A : List (Entry τ)) : List (Entry τ) := A.orderedInsert startLe e

def del (r : Nat) (A : List (Entry τ)) : List (Entry τ) := A.filter fun e => e.1 ≠ r

def upd (r : Nat) (d : LockDesc τ) (A : List (Entry τ)) : List (Entry τ) :=
  A.map fun e => if e.1 = r then (r, d) else e

theorem mem_ins {e a : Entry τ} {A : List (Entry τ)} : a ∈ ins e A ↔ a = e ∨ a ∈ A :=
  List.mem_orderedInsert _

theorem mem_del {r : Nat} {a : Entry τ} {A : List (Entry τ)} : a ∈ del r A ↔ a ∈ A ∧ a.1 ≠ r := by
  simp [del]

theorem perm_ins (e : Entry τ) (A : List (Entry τ)) : (ins e A).Perm (e :: A) :=
  List.perm_orderedInsert _ _ _

theorem ins_eq (e : Entry τ) (A : List (Entry τ)) :
    ins e A = (A.takeWhile fun b => !decide (e.2.start ≤ b.2.start)) ++
      e :: A.dropWhile fun b => !decide (e.2.start ≤ b.2.start) := by
  rw [ins, List.orderedInsert_eq_take_drop]
  have : (fun b => decide ¬ startLe e b) = fun b => !decide (e.2.start ≤ b.2.start) := by
    funext b
    exact decide_not
  rw [this]

theorem Sorted.ins {A : List (Entry τ)} (h : Sorted A) (e : Entry τ) : Sorted (ins e A) :=
  List.Pairwise.orderedInsert e A h

theorem Sorted.del {A : List (Entry τ)} (h : Sorted A) (r : Nat) : Sorted (del r A) :=
  List.Pairwise.filter _ h

theorem upd_fst (r : Nat) (d : LockDesc τ) (A : List (Entry τ)) :
    (upd r d A).map Prod.fst = A.map Prod.fst := by
  rw [upd, List.map_map]
  apply List.map_congr_left
  intro e _
  simp only [Function.comp_apply]
  split
  · rename_i h; exact h.symm
  · rfl

theorem upd_of_not_mem {r : Nat} {A : List (Entry τ)} (d : LockDesc τ)
    (h : r ∉ A.map Prod.fst) : upd r d A = A := by
  rw [upd]
  conv_rhs => rw [← List.map_id A]
  apply List.map_congr_left
  intro e he
  rw [if_neg]
  · rfl
  · rintro rfl
    exact h (List.mem_map_of_mem he)

theorem mem_upd {r : Nat} {d : LockDesc τ} {A : List (Entry τ)} {e : Entry τ} :
    e ∈ upd r d A ↔ (e ∈ A ∧ e.1 ≠ r) ∨ (e = (r, d) ∧ r ∈ A.map Prod.fst) := by
  simp only [upd, List.mem_map]
  constructor
  · rintro ⟨a, ha, rfl⟩
    split
    · rename_i heq
      exact Or.inr ⟨rfl, a, ha, heq⟩
    · rename_i hne
      exact Or.inl ⟨ha, hne⟩
  · rintro (⟨he, hne⟩ | ⟨rfl, a, ha, heq⟩)
    · exact ⟨e, he, if_neg hne⟩
    · exact ⟨a, ha, if_pos heq⟩

theorem upd_length (r : Nat) (d : LockDesc τ) (A : List (Entry τ)) :
    (upd r d A).length = A.length := List.length_map _

/-- A change that keeps the start keeps the order. -/
theorem Sorted.upd {r : Nat} {d : LockDesc τ} {A : List (Entry τ)} (h : Sorted A)
    (hd : ∀ e ∈ A, e.1 = r → e.2.start = d.start) : Sorted (upd r d A) := by
  refine List.pairwise_map.mpr (h.imp_of_mem ?_)
  intro a b ha hb hab
  unfold startLe at hab ⊢
  split <;> split
  · exact Nat.le_refl _
  · rename_i har _
    rw [← hd a ha har]
    exact hab
  · rename_i _ hbr
    rw [← hd b hb hbr]
    exact hab
  · exact hab

theorem sorted_of_upd {r : Nat} {d : LockDesc τ} {A : List (Entry τ)}
    (hd : ∀ e ∈ A, e.1 = r → e.2.start = d.start) (h : Sorted (upd r d A)) : Sorted A := by
  refine (List.pairwise_map.mp h).imp_of_mem ?_
  intro a b ha hb hab
  unfold startLe at hab ⊢
  split at hab <;> split at hab
  · rename_i har hbr
    rw [hd a ha har, hd b hb hbr]
  · rename_i har _
    rw [hd a ha har]
    exact hab
  · rename_i _ hbr
    rw [hd b hb hbr]
    exact hab
  · exact hab

theorem sublist_ins (e : Entry τ) (A : List (Entry τ)) : A.Sublist (ins e A) :=
  List.sublist_orderedInsert e A

/-- An entry that does not start behind `a` goes in before it. -/
theorem ins_append {e a : Entry τ} (h : startLe e a) (X Y : List (Entry τ)) :
    ins e (X ++ a :: Y) = ins e X ++ a :: Y := by
  induction X with
  | nil => exact List.orderedInsert_cons_of_le _ Y h
  | cons b X ih =>
    unfold ins at ih ⊢
    rw [List.cons_append, List.orderedInsert_cons, List.orderedInsert_cons, ih]
    split <;> rfl

theorem upd_split {r : Nat} {D d : LockDesc τ} {X Y : List (Entry τ)}
    (hX : r ∉ X.map Prod.fst) (hY : r ∉ Y.map Prod.fst) :
    upd r d (X ++ (r, D) :: Y) = X ++ (r, d) :: Y := by
  have h : upd r d (X ++ (r, D) :: Y) = upd r d X ++ (r, d) :: upd r d Y := by
    simp [upd]
  rw [h, upd_of_not_mem d hX, upd_of_not_mem d hY]

/-- The other entries are those with another reference. -/
theorem mem_others {r : Nat} {D : LockDesc τ} {X Y : List (Entry τ)}
    (h : ((X ++ (r, D) :: Y).map Prod.fst).Nodup) {e : Entry τ} :
    e ∈ X ++ Y ↔ e ∈ X ++ (r, D) :: Y ∧ e.1 ≠ r := by
  constructor
  · intro he
    refine ⟨by simp only [List.mem_append, List.mem_cons] at he ⊢; tauto, ?_⟩
    rintro rfl
    rw [List.map_append, List.map_cons] at h
    refine (List.nodup_cons.mp (List.nodup_middle.mp h)).1 ?_
    rw [← List.map_append]
    exact List.mem_map.mpr ⟨e, he, rfl⟩
  · rintro ⟨he, hne⟩
    simp only [List.mem_append, List.mem_cons] at he ⊢
    rcases he with he | rfl | he
    · exact Or.inl he
    · exact absurd rfl hne
    · exact Or.inr he

theorem del_split {r : Nat} {D : LockDesc τ} {X Y : List (Entry τ)}
    (hX : r ∉ X.map Prod.fst) (hY : r ∉ Y.map Prod.fst) :
    del r (X ++ (r, D) :: Y) = X ++ Y := by
  have hid : ∀ Z : List (Entry τ), r ∉ Z.map Prod.fst → del r Z = Z := by
    intro Z hZ
    apply List.filter_eq_self.mpr
    intro e he
    simp only [ne_eq, decide_not, Bool.not_eq_eq_eq_not, Bool.not_true, decide_eq_false_iff_not]
    rintro rfl
    exact hZ (List.mem_map_of_mem he)
  have h : del r (X ++ (r, D) :: Y) = del r X ++ del r Y := by
    simp [del]
  rw [h, hid X hX, hid Y hY]

/-! ## The representation -/

namespace LockList

/-- The list of `s` has the entries `A`, in order, and its free records are `F`. -/
structure Rep (s : LockList τ n) (A : List (Entry τ)) (F : List Nat) : Prop where
  dll : s.links.Dll (A.map Prod.fst)
  free : NextPath s.links.next s.freeLockRecs F
  nodup : (A.map Prod.fst ++ F).Nodup
  bound : ∀ r ∈ A.map Prod.fst ++ F, r < n
  desc : ∀ e ∈ A, s.desc e.1 = e.2

namespace Rep

variable {s s' : LockList τ n} {A : List (Entry τ)} {F : List Nat} {r : Nat}

theorem length_le (h : Rep s A F) : A.length + F.length ≤ n := by
  have hsub : (A.map Prod.fst ++ F).toFinset ⊆ Finset.range n := by
    intro r hr
    exact Finset.mem_range.mpr (h.bound r (List.mem_toFinset.mp hr))
  have := Finset.card_le_card hsub
  rwa [List.toFinset_card_of_nodup h.nodup, Finset.card_range, List.length_append,
    List.length_map] at this

theorem fst_nodup (h : Rep s A F) : (A.map Prod.fst).Nodup := (List.nodup_append.mp h.nodup).1

theorem disjoint (h : Rep s A F) {r : Nat} (hA : r ∈ A.map Prod.fst) : r ∉ F :=
  fun hF => (List.nodup_append.mp h.nodup).2.2 r hA r hF rfl

/-- An entry and what is around it. -/
theorem split_not_mem {X Y : List (Entry τ)} {D : LockDesc τ} (h : Rep s (X ++ (r, D) :: Y) F) :
    r ∉ X.map Prod.fst ∧ r ∉ Y.map Prod.fst := by
  have hnd := h.fst_nodup
  rw [List.map_append, List.map_cons] at hnd
  have := (List.nodup_cons.mp (List.nodup_middle.mp hnd)).1
  rw [List.mem_append, not_or] at this
  exact this

theorem eq_of_fst (h : Rep s A F) {a b : Entry τ} (ha : a ∈ A) (hb : b ∈ A)
    (heq : a.1 = b.1) : a = b := by
  apply Prod.ext heq
  rw [← h.desc a ha, ← h.desc b hb, heq]

/-! ### Records -/

theorem newLockRec_eq_none (h : Rep s A F) : s.newLockRec = none ↔ F = [] := by
  have hfree := h.free
  cases F with
  | nil => simp [newLockRec, show s.freeLockRecs = none from hfree]
  | cons r F => simp [newLockRec, hfree.1]

theorem newLockRec (h : Rep s A F) (hs : s.newLockRec = some (r, s')) :
    ∃ F', F = r :: F' ∧ Rep s' A F' ∧ s'.desc = s.desc ∧ s'.lockImp = s.lockImp ∧
      s'.nativeLock = s.nativeLock := by
  have hfree := h.free
  cases F with
  | nil => simp [LockList.newLockRec, show s.freeLockRecs = none from hfree] at hs
  | cons x F =>
    obtain ⟨hx, hF⟩ := hfree
    simp only [LockList.newLockRec, hx, Option.some.injEq, Prod.mk.injEq] at hs
    obtain ⟨rfl, rfl⟩ := hs
    have hnd := (List.nodup_cons.mp (List.nodup_middle.mp h.nodup)).2
    refine ⟨F, rfl, ⟨h.dll, hF, hnd, ?_, h.desc⟩, rfl, rfl, rfl⟩
    intro r hr
    apply h.bound
    simp only [List.mem_append, List.mem_cons] at hr ⊢
    tauto

theorem freeLockRec (h : Rep s A F) (hA : r ∉ A.map Prod.fst) (hF : r ∉ F) (hr : r < n) :
    Rep (s.freeLockRec r) A (r :: F) := by
  have hne : ∀ x ∈ A.map Prod.fst, x ≠ r := fun x hx heq => hA (heq ▸ hx)
  refine ⟨⟨?_, h.dll.nodup⟩, ⟨rfl, ?_⟩, ?_, ?_, h.desc⟩
  · apply h.dll.chain.congr
    · intro x hx
      cases x with
      | none => rfl
      | some x =>
        have hx : x ∈ A.map Prod.fst := by
          simpa using List.dropLast_subset _ hx
        exact Function.update_of_ne (hne x hx) _ _
    · intro x hx
      cases x with
      | none => rfl
      | some x =>
        have hx : x ∈ A.map Prod.fst := by simpa using hx
        exact Function.update_of_ne (hne x hx) _ _
  · rw [show (s.freeLockRec r).links.next r = s.freeLockRecs from Function.update_self ..]
    apply h.free.congr
    intro x hx
    refine Function.update_of_ne ?_ _ _
    rintro rfl
    exact hF hx
  · exact List.nodup_middle.mpr (List.nodup_cons.mpr ⟨by simp only [List.mem_append]; tauto, h.nodup⟩)
  · intro x hx
    simp only [List.mem_append, List.mem_cons] at hx
    rcases hx with hx | rfl | hx
    · exact h.bound x (List.mem_append_left _ hx)
    · exact hr
    · exact h.bound x (List.mem_append_right _ hx)

theorem setLockDesc (h : Rep s A F) (r : Nat) (d : LockDesc τ) :
    Rep (s.setLockDesc r d) (upd r d A) F := by
  have hfst := upd_fst r d A
  refine ⟨by rw [hfst]; exact h.dll, h.free, by rw [hfst]; exact h.nodup,
    by rw [hfst]; exact h.bound, ?_⟩
  intro e he
  simp only [upd, List.mem_map] at he
  obtain ⟨a, ha, rfl⟩ := he
  split
  · exact Function.update_self ..
  · rename_i hne
    rw [← h.desc a ha]
    exact Function.update_of_ne hne _ _

theorem setLockDesc_of_not_mem (h : Rep s A F) (hr : r ∉ A.map Prod.fst) (d : LockDesc τ) :
    Rep (s.setLockDesc r d) A F := by
  have := h.setLockDesc r d
  rwa [upd_of_not_mem d hr] at this

theorem removeLockRec (h : Rep s A F) (hr : r ∈ A.map Prod.fst) :
    Rep (s.removeLockRec r) (del r A) F := by
  obtain ⟨⟨r, D⟩, hmem, rfl⟩ := List.mem_map.mp hr
  obtain ⟨X, Y, rfl⟩ := List.append_of_mem hmem
  obtain ⟨hX, hY⟩ := h.split_not_mem
  have hdll := h.dll
  rw [List.map_append, List.map_cons] at hdll
  rw [del_split hX hY]
  have hnd := h.nodup
  rw [List.map_append, List.map_cons, List.append_assoc, List.cons_append] at hnd
  have hnd := (List.nodup_cons.mp (List.nodup_middle.mp hnd)).2
  refine ⟨by rw [List.map_append]; exact hdll.unlink, ?_, ?_, ?_, ?_⟩
  · apply h.free.congr
    intro x hx
    apply hdll.next_unlink
    intro hxX
    exact h.disjoint (by simp [hxX]) hx
  · rw [List.map_append, List.append_assoc]
    exact hnd
  · intro x hx
    apply h.bound
    simp only [List.map_append, List.map_cons, List.mem_append, List.mem_cons] at hx ⊢
    tauto
  · intro e he
    apply h.desc
    simp only [List.mem_append, List.mem_cons] at he ⊢
    tauto

/-! ### The place of a new entry -/

theorem walk_start (h : Rep s A F) (x : Nat) :
    Links.walk s.links.next (fun r => decide (x ≤ (s.desc r).start)) n s.links.first =
      ((A.dropWhile fun b => !decide (x ≤ b.2.start)).map Prod.fst).head? := by
  have hlen := h.length_le
  have hwalk := Links.Dll.walk_eq (X := []) (by simpa using h.dll)
    (fun r => decide (x ≤ (s.desc r).start)) (show (A.map Prod.fst).length ≤ n by
      rw [List.length_map]; omega)
  rw [h.dll.first, hwalk, List.find?_map, List.head?_map, ← List.find?_eq_head?_dropWhile_not]
  congr 1
  apply List.find?_congr
  intro e he
  simp only [Function.comp_apply, h.desc e he]

theorem addLockRec (h : Rep s A F) (hA : r ∉ A.map Prod.fst) (hF : r ∉ F) (hr : r < n) :
    Rep (s.addLockRec r) (if s.lockImp.nFree = 0 then A else ins (r, s.desc r) A) F := by
  unfold LockList.addLockRec
  simp only
  split
  · rename_i hg
    rw [if_pos (LockNative.gadr_eq_none.mp hg)]
    exact h
  · rename_i native imp hg
    have hfree : s.lockImp.nFree ≠ 0 := by
      have := LockNative.gadr_nFree hg
      omega
    rw [if_neg hfree, h.walk_start]
    set p : Entry τ → Bool := fun b => !decide ((s.desc r).start ≤ b.2.start) with hp
    have hins : ins (r, s.desc r) A = A.takeWhile p ++ (r, s.desc r) :: A.dropWhile p :=
      ins_eq (r, s.desc r) A
    have hA' : (A.takeWhile p).map Prod.fst ++ (A.dropWhile p).map Prod.fst = A.map Prod.fst := by
      rw [← List.map_append, List.takeWhile_append_dropWhile]
    have hdll : s.links.Dll ((A.takeWhile p).map Prod.fst ++ (A.dropWhile p).map Prod.fst) := by
      rw [hA']
      exact h.dll
    have hperm : (((ins (r, s.desc r) A).map Prod.fst) ++ F).Perm (r :: (A.map Prod.fst ++ F)) :=
      ((perm_ins (r, s.desc r) A).map Prod.fst).append_right F
    refine ⟨?_, ?_, ?_, ?_, ?_⟩
    · rw [hins, List.map_append, List.map_cons]
      exact hdll.insertBefore (by rw [hA']; exact hA)
    · apply h.free.congr
      intro x hx
      refine hdll.next_insertBefore ?_ ?_
      · intro hxA
        refine h.disjoint ?_ hx
        rw [← hA']
        exact List.mem_append_left _ hxA
      · rintro rfl
        exact hF hx
    · rw [hperm.nodup_iff, List.nodup_cons, List.mem_append, not_or]
      exact ⟨⟨hA, hF⟩, h.nodup⟩
    · intro x hx
      rcases List.mem_cons.mp (hperm.mem_iff.mp hx) with rfl | hx
      · exact hr
      · exact h.bound x hx
    · intro e he
      rcases mem_ins.mp he with rfl | he
      · rfl
      · exact h.desc e he

/-! ### Searches -/

/-- The search of `find_next_lock_from` over entries. -/
def findEntry (d : LockDesc τ) (requirement : LockDesc τ → LockDesc τ → Bool) :
    List (Entry τ) → Option (Entry τ)
  | [] => none
  | e :: l =>
    if d.start < e.2.stop then
      if d.stop ≤ e.2.start then none
      else if requirement e.2 d then some e
      else findEntry d requirement l
    else findEntry d requirement l

theorem findLoop {X Y : List (Entry τ)} (h : Rep s (X ++ Y) F) (d : LockDesc τ)
    (requirement : LockDesc τ → LockDesc τ → Bool) {fuel : Nat} (hfuel : Y.length ≤ fuel) :
    s.findLoop d requirement fuel (Y.map Prod.fst).head? =
      (findEntry d requirement Y).map Prod.fst := by
  induction Y generalizing X fuel with
  | nil => cases fuel <;> rfl
  | cons e Y ih =>
    obtain ⟨k, rfl⟩ : ∃ k, fuel = k + 1 := ⟨fuel - 1, by simp at hfuel; omega⟩
    have hnext : s.links.next e.1 = (Y.map Prod.fst).head? :=
      Links.Dll.next (X := X.map Prod.fst) (by simpa using h.dll)
    have ih := ih (X := X ++ [e]) (by simpa using h) (show Y.length ≤ k by simpa using hfuel)
    rw [List.map_cons, List.head?_cons, LockList.findLoop, findEntry, h.desc e (by simp), hnext, ih]
    split
    · split
      · rfl
      · split <;> rfl
    · rfl

theorem findNextLockFrom {X Y : List (Entry τ)} (h : Rep s (X ++ Y) F) (d : LockDesc τ)
    (requirement : LockDesc τ → LockDesc τ → Bool) :
    s.findNextLockFrom (Y.map Prod.fst).head? d requirement =
      (findEntry d requirement Y).map Prod.fst := by
  have hlen := h.length_le
  rw [List.length_append] at hlen
  exact h.findLoop d requirement (by omega)

theorem findFirstLock (h : Rep s A F) (d : LockDesc τ)
    (requirement : LockDesc τ → LockDesc τ → Bool) :
    s.findFirstLock d requirement = (findEntry d requirement A).map Prod.fst := by
  rw [LockList.findFirstLock, h.dll.first]
  exact Rep.findNextLockFrom (X := []) h d requirement

end Rep

/-! ### The whole list -/

namespace Rep

variable {s : LockList τ n} {A : List (Entry τ)} {F : List Nat}

theorem active_eq (h : Rep s A F) : s.active = A.map Prod.fst := by
  have hlen := h.length_le
  rw [active, h.dll.first]
  exact (Links.Dll.path (X := []) h.dll).collect_eq (by rw [List.length_map]; omega)

theorem free_eq (h : Rep s A F) : s.free = F := by
  have hlen := h.length_le
  exact h.free.collect_eq (by omega)

theorem entries_eq (h : Rep s A F) : s.entries = A := by
  rw [entries, h.active_eq, List.map_map]
  conv_rhs => rw [← List.map_id A]
  apply List.map_congr_left
  intro e he
  simp only [Function.comp_apply, h.desc e he, id_eq]

theorem records_eq (h : Rep s A F) : s.records = A.map Prod.snd := by
  rw [records, h.active_eq, List.map_map]
  exact List.map_congr_left fun e he => h.desc e he

end Rep

theorem path_range (n i k : Nat) (h : i + k = n) :
    NextPath (fun i => if i + 1 < n then some (i + 1) else none) (if i < n then some i else none)
      (List.range' i k) := by
  induction k generalizing i with
  | zero => simp [NextPath, show ¬ i < n by omega]
  | succ k ih =>
    rw [List.range'_succ, if_pos (by omega)]
    exact ⟨rfl, ih (i + 1) (by omega)⟩

theorem rep_init (desc : Nat → LockDesc τ) : Rep (init n desc) [] (List.range n) := by
  refine ⟨⟨⟨rfl, rfl, trivial⟩, List.nodup_nil⟩, ?_, by simp [List.nodup_range], by simp, by simp⟩
  rw [List.range_eq_range']
  exact path_range n 0 n (by omega)

/-! ### What a search finds -/

theorem findEntry_some {d : LockDesc τ} {requirement : LockDesc τ → LockDesc τ → Bool}
    {A : List (Entry τ)} {e : Entry τ} (h : Rep.findEntry d requirement A = some e) :
    ∃ X Y, A = X ++ e :: Y ∧ e.2.Overlaps d ∧ requirement e.2 d = true ∧
      ∀ a ∈ X, a.2.Overlaps d → requirement a.2 d = false := by
  induction A with
  | nil => cases h
  | cons a A ih =>
    rw [Rep.findEntry] at h
    split at h
    · rename_i hstop
      split at h
      · cases h
      · rename_i hstart
        split at h
        · rename_i hreq
          cases h
          exact ⟨[], A, rfl, ⟨by omega, hstop⟩, hreq, by simp⟩
        · rename_i hreq
          obtain ⟨X, Y, rfl, ho, hr, hX⟩ := ih h
          refine ⟨a :: X, Y, rfl, ho, hr, ?_⟩
          intro b hb
          rcases List.mem_cons.mp hb with rfl | hb
          · intro _
            simpa using hreq
          · exact hX b hb
    · rename_i hstop
      obtain ⟨X, Y, rfl, ho, hr, hX⟩ := ih h
      refine ⟨a :: X, Y, rfl, ho, hr, ?_⟩
      intro b hb
      rcases List.mem_cons.mp hb with rfl | hb
      · exact fun hover => absurd hover.2 hstop
      · exact hX b hb

/-- The early end of the search is right on a sorted list. -/
theorem findEntry_none {d : LockDesc τ} {requirement : LockDesc τ → LockDesc τ → Bool}
    {A : List (Entry τ)} (hs : Sorted A) (h : Rep.findEntry d requirement A = none) :
    ∀ a ∈ A, a.2.Overlaps d → requirement a.2 d = false := by
  induction A with
  | nil => simp
  | cons a A ih =>
    obtain ⟨ha, hs⟩ := List.pairwise_cons.mp hs
    rw [Rep.findEntry] at h
    intro b hb hover
    split at h
    · split at h
      · rename_i hstart
        have hle : a.2.start ≤ b.2.start := by
          rcases List.mem_cons.mp hb with rfl | hb
          · exact Nat.le_refl _
          · exact ha b hb
        have := hover.1
        omega
      · split at h
        · cases h
        · rename_i hreq
          rcases List.mem_cons.mp hb with rfl | hb
          · simpa using hreq
          · exact ih hs h b hb hover
    · rename_i hstop
      rcases List.mem_cons.mp hb with rfl | hb
      · exact absurd hover.2 hstop
      · exact ih hs h b hb hover

end LockList

end Athomux
