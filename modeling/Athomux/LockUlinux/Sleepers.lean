import Mathlib.Data.List.Nodup
import Mathlib.Data.List.Perm.Basic
import Athomux.LockUlinux.Proofs
import Athomux.LockUlinux.Spec

/-! # No lost wakeups -/

open Lib

namespace Athomux.LockUlinux.Records

variable {anchor anchor' l : List Record} {pool : Pool} {new : Record} {del : Lock} {r : Result}
  {s t : State} {op : Op} {ops : List Op} {o : List Nat} {conflict x : Nat}

/-! ## Where the records are -/

/-- Each record that `malloc` has given is free or one of `o`, and only once. -/
def Pool.Holds (p : Pool) (o : List Nat) : Prop := (p.emptylist ++ o).Perm (List.range p.given)

theorem Pool.Holds.perm {o' : List Nat} (h : pool.Holds o) (ho : o.Perm o') : pool.Holds o' :=
  (ho.symm.append_left _).trans h

theorem Pool.Holds.newlock (h : pool.Holds o) : pool.newlock.2.Holds (pool.newlock.1 :: o) := by
  unfold Pool.Holds Pool.newlock at *
  split
  · rename_i new next hempty
    rw [hempty] at h
    exact List.perm_middle.trans h
  · rename_i hempty
    rw [hempty] at h ⊢
    rw [List.range_succ]
    exact (h.cons pool.given).trans (List.perm_append_singleton pool.given _).symm

theorem Pool.Holds.freelock (h : pool.Holds (x :: o)) : (pool.freelock x).Holds o :=
  List.perm_middle.symm.trans h

def ptrs (l : List Record) : List Nat := l.map Record.ptr

@[simp] theorem ptrs_cons (e : Record) (l : List Record) : ptrs (e :: l) = e.ptr :: ptrs l := rfl

theorem ptrs_stretchAt (del : Lock) (m : Nat) (l : List Record) :
    ptrs (l.map (stretchAt del m)) = ptrs l := by
  unfold ptrs
  rw [List.map_map]
  refine List.map_congr_left fun e _ => ?_
  simp only [Function.comp_apply, stretchAt]
  split <;> rfl

/-- A record that was kept aside is put into the list. -/
theorem Pool.Holds.put {w : List Nat} (h : r.pool.Holds (ptrs r.anchor ++ (x :: o))) {e : Record}
    (he : e.ptr = x) : (r.put e w).pool.Holds (ptrs (r.put e w).anchor ++ o) := by
  subst he
  exact h.perm List.perm_middle

theorem lockSub_holds (l : List Record) (h : pool.Holds (ptrs l ++ o)) :
    (lockSub del l pool).pool.Holds (ptrs (lockSub del l pool).anchor ++ o) := by
  fun_induction lockSub del l pool generalizing o with
  | case1 => exact h
  | case2 elem rest pool hover hlow hup ih =>
    refine Pool.Holds.put (Pool.Holds.put (ih ?_) rfl) rfl
    refine h.newlock.perm ((List.Perm.swap _ _ _).trans ?_)
    exact (List.perm_middle.symm.cons elem.ptr).trans List.perm_middle.symm
  | case3 elem rest pool hover hlow hup ih =>
    exact Pool.Holds.put (ih (h.perm List.perm_middle.symm)) rfl
  | case4 pool elem hover hlow hgone => exact h.freelock
  | case5 elem pool hover hlow hgone elem' rest ih =>
    exact Pool.Holds.put (ih (h.freelock.perm List.perm_middle.symm)) rfl
  | case6 elem rest pool hover hlow hgone ih =>
    exact Pool.Holds.put (ih (h.perm List.perm_middle.symm)) rfl
  | case7 elem rest pool hover ih =>
    exact Pool.Holds.put (ih (h.perm List.perm_middle.symm)) rfl

theorem lockAdd_holds {doModify : Bool} (hs : lockAdd anchor pool new doModify = .ok r)
    (h : pool.Holds (new.ptr :: (ptrs anchor ++ o))) : r.pool.Holds (ptrs r.anchor ++ o) := by
  unfold lockAdd at hs
  cases hscan : scan new.lock none anchor with
  | error c =>
    rw [hscan] at hs
    cases hs
  | ok modify =>
    rw [hscan] at hs
    cases doModify with
    | false =>
      cases hs
      exact h.freelock
    | true =>
      cases modify with
      | none =>
        cases hs
        exact h
      | some m =>
        cases hs
        rw [ptrs_stretchAt]
        exact h.freelock

/-! ## Who sleeps where -/

/-- Each operation that sleeps does so on a record of the list that is in its way. -/
def Sleeps (anchor : List Record) (ops : List Op) : Prop :=
  ∀ op ∈ ops, ∀ conflict, op.status = .asleep conflict →
    ∃ e ∈ anchor, e.ptr = conflict ∧ InWay (newLock op.args) e.lock

theorem Sleeps.mono {ops' : List Op} (h : Sleeps anchor ops) (hsub : ∀ op ∈ ops', op ∈ ops) :
    Sleeps anchor ops' := fun op hop => h op (hsub op hop)

/-- What is changed is woken up. -/
theorem Sleeps.wakeup {w : List Nat} (h : Sleeps anchor ops)
    (hkeep : ∀ e ∈ anchor, e.ptr ∉ w → e ∈ anchor') : Sleeps anchor' (ops.map (Op.wakeup w)) := by
  intro op' hop' c hc
  obtain ⟨op, hop, rfl⟩ := List.mem_map.mp hop'
  unfold Op.wakeup at hc ⊢
  split at hc
  · rename_i conflict hst
    split at hc
    · cases hc
    · rename_i hw
      rw [if_neg hw]
      rw [hst] at hc
      cases hc
      obtain ⟨e, he, rfl, hway⟩ := h op hop _ hst
      exact ⟨e, hkeep e he hw, rfl, hway⟩
  · rename_i hst
    exact absurd hc (hst c)

theorem scan_error {modify : Option Nat} (hs : scan del modify l = .error conflict) :
    ∃ e ∈ l, e.ptr = conflict ∧ InWay del e.lock := by
  induction l generalizing modify with
  | nil => cases hs
  | cons elem rest ih =>
    have hrest : ∀ {m}, scan del m rest = .error conflict →
        ∃ e ∈ elem :: rest, e.ptr = conflict ∧ InWay del e.lock := by
      intro m hm
      obtain ⟨e, he, hway⟩ := ih hm
      exact ⟨e, List.mem_cons_of_mem _ he, hway⟩
    unfold scan at hs
    split at hs
    · split at hs
      · exact hrest hs
      · exact hrest hs
    · rename_i hm
      split at hs
      · rename_i hway
        cases hs
        exact ⟨elem, List.mem_cons_self, rfl, hm, hway⟩
      · exact hrest hs

theorem not_inWay_of_scan {modify m : Option Nat} (hs : scan del modify l = .ok m) :
    ∀ e ∈ l, ¬ InWay del e.lock := by
  induction l generalizing modify with
  | nil => simp
  | cons elem rest ih =>
    unfold scan at hs
    split at hs
    · rename_i hm
      refine List.forall_mem_cons.mpr ⟨fun hway => hway.1 hm, ?_⟩
      split at hs
      · exact ih hs
      · exact ih hs
    · split at hs
      · cases hs
      · rename_i hno
        exact List.forall_mem_cons.mpr ⟨fun hway => hno hway.2, ih hs⟩

theorem lockAdd_error {doModify : Bool} (hs : lockAdd anchor pool new doModify = .error conflict) :
    ∃ e ∈ anchor, e.ptr = conflict ∧ InWay new.lock e.lock := by
  unfold lockAdd at hs
  cases hscan : scan new.lock none anchor with
  | error c =>
    rw [hscan] at hs
    cases hs
    exact scan_error hscan
  | ok modify =>
    rw [hscan] at hs
    cases doModify with
    | false => cases hs
    | true => cases modify <;> cases hs

/-- Nothing is granted while a record is in the way. -/
theorem lockAdd_blocked {e : Record} (he : e ∈ anchor) (hway : InWay new.lock e.lock)
    (doModify : Bool) : lockAdd anchor pool new doModify ≠ .ok r := by
  intro hs
  unfold lockAdd at hs
  cases hscan : scan new.lock none anchor with
  | error c =>
    rw [hscan] at hs
    cases hs
  | ok modify => exact not_inWay_of_scan hscan e he hway

/-- Only a record that is woken up changes. -/
theorem lockAdd_keep {doModify : Bool} (hs : lockAdd anchor pool new doModify = .ok r) :
    ∀ e ∈ anchor, e.ptr ∉ r.woken → e ∈ r.anchor := by
  intro e he hw
  unfold lockAdd at hs
  cases hscan : scan new.lock none anchor with
  | error c =>
    rw [hscan] at hs
    cases hs
  | ok modify =>
    rw [hscan] at hs
    cases doModify with
    | false =>
      cases hs
      exact he
    | true =>
      cases modify with
      | none =>
        cases hs
        exact List.mem_cons_of_mem _ he
      | some m =>
        cases hs
        refine List.mem_map.mpr ⟨e, he, if_neg fun heq => hw ?_⟩
        exact List.mem_singleton.mpr heq

theorem lockSub_keep (l : List Record) :
    ∀ e ∈ l, e.ptr ∉ (lockSub del l pool).woken → e ∈ (lockSub del l pool).anchor := by
  fun_induction lockSub del l pool with
  | case1 => simp
  | case2 elem rest pool hover hlow hup ih =>
    intro e he hw
    simp only [Result.put, List.nil_append, List.singleton_append, List.mem_cons, not_or] at hw ⊢
    rcases List.mem_cons.mp he with rfl | he
    · exact absurd rfl hw.1
    · exact Or.inr (Or.inr (ih e he hw.2))
  | case3 elem rest pool hover hlow hup ih =>
    intro e he hw
    simp only [Result.put, List.singleton_append, List.mem_cons, not_or] at hw ⊢
    rcases List.mem_cons.mp he with rfl | he
    · exact absurd rfl hw.1
    · exact Or.inr (ih e he hw.2)
  | case4 pool elem hover hlow hgone =>
    intro e he hw
    exact absurd (congrArg Record.ptr (List.mem_singleton.mp he)) (by simpa using hw)
  | case5 elem pool hover hlow hgone elem' rest ih =>
    intro e he hw
    simp only [Result.put, List.singleton_append, List.mem_cons, not_or] at hw ⊢
    rcases List.mem_cons.mp he with rfl | he
    · exact absurd rfl hw.1
    · exact (List.mem_cons.mp he).imp_right fun he => ih e he hw.2
  | case6 elem rest pool hover hlow hgone ih =>
    intro e he hw
    simp only [Result.put, List.singleton_append, List.mem_cons, not_or] at hw ⊢
    rcases List.mem_cons.mp he with rfl | he
    · exact absurd rfl hw.1
    · exact Or.inr (ih e he hw.2)
  | case7 elem rest pool hover ih =>
    intro e he hw
    simp only [Result.put, List.nil_append, List.mem_cons] at hw ⊢
    exact (List.mem_cons.mp he).imp_right fun he => ih e he hw

/-! ## Whole runs -/

/-- Records and sleepers together. -/
structure Kept (s : State) : Prop where
  holds : s.pool.Holds (ptrs s.anchor ++ s.ops.map Op.new)
  sleeps : Sleeps s.anchor s.ops

theorem wakeup_new (w : List Nat) (ops : List Op) :
    (ops.map (Op.wakeup w)).map Op.new = ops.map Op.new := by
  rw [List.map_map]
  refine List.map_congr_left fun op _ => ?_
  simp only [Function.comp_apply, Op.wakeup]
  split
  · split <;> rfl
  · rfl

theorem Kept.state (h : Sleeps anchor ops) (hholds : r.pool.Holds (ptrs r.anchor ++ ops.map Op.new))
    (hkeep : ∀ e ∈ anchor, e.ptr ∉ r.woken → e ∈ r.anchor) : Kept (r.state ops) where
  holds := by
    rw [Result.state, wakeup_new]
    exact hholds
  sleeps := h.wakeup hkeep

theorem kept_turn (hholds : s.pool.Holds (op.new :: (ptrs s.anchor ++ s.ops.map Op.new)))
    (h : Sleeps s.anchor s.ops) : Kept (turn s op) := by
  unfold turn
  split
  · rename_i r hs
    exact Kept.state h (lockAdd_holds hs hholds) (lockAdd_keep hs)
  · rename_i conflict hs
    split
    · exact ⟨hholds.freelock, h⟩
    · refine ⟨hholds.perm List.perm_middle.symm, fun op' hop' c hc => ?_⟩
      rcases List.mem_cons.mp hop' with rfl | hop'
      · cases hc
        exact lockAdd_error hs
      · exact h op' hop' c hc

theorem perm_eraseIdx {i : Nat} (hi : ops[i]? = some op) : ops.Perm (op :: ops.eraseIdx i) := by
  obtain ⟨hlt, rfl⟩ := List.getElem?_eq_some_iff.mp hi
  exact (List.getElem_cons_eraseIdx_perm hlt).symm

theorem kept_step {e : Event} (h : Kept s) (hs : step s e = some t) : Kept t := by
  cases e with
  | enter a =>
    simp only [step] at hs
    split at hs
    · cases hs
      exact h
    · cases hs
      refine ⟨h.holds.newlock.perm List.perm_middle.symm, fun op hop c hc => ?_⟩
      rcases List.mem_cons.mp hop with rfl | hop
      · cases hc
      · exact h.sleeps op hop c hc
  | turn i =>
    simp only [step, Option.map_eq_some_iff] at hs
    obtain ⟨op, hop, rfl⟩ := hs
    have hperm := perm_eraseIdx hop
    refine kept_turn (h.holds.perm ?_) (h.sleeps.mono fun op hop => List.mem_of_mem_eraseIdx hop)
    exact ((hperm.map Op.new).append_left _).trans List.perm_middle
  | unlock mandate logAddr logLen =>
    cases hs
    exact Kept.state h.sleeps (lockSub_holds _ h.holds) (lockSub_keep _)

theorem kept_of_reach (h : Reach step Init anyEvent s) : Kept s := by
  refine h.invariant ?_ fun s e t hkept _ hs => kept_step hkept hs
  rintro s rfl
  exact ⟨List.Perm.refl _, fun op hop => absurd hop List.not_mem_nil⟩

/-- How often a record is in the list, in the free list and private. -/
def places (s : State) (x : Nat) : Nat :=
  (ptrs s.anchor).count x + s.pool.emptylist.count x + (s.ops.map Op.new).count x

/-- **No wakeup is lost and no record is**: who sleeps does so on a record of the list that is in
its way, so that nothing could be granted to it, and each record is in exactly one place. -/
theorem no_lost_wakeup (h : Reach step Init anyEvent s) :
    (∀ op ∈ s.ops, ∀ conflict, op.status = .asleep conflict →
      (∃ e ∈ s.anchor, e.ptr = conflict ∧ InWay (newLock op.args) e.lock) ∧
      ∀ doModify r, lockAdd s.anchor s.pool ⟨op.new, newLock op.args⟩ doModify ≠ .ok r) ∧
    (∀ x < s.pool.given, places s x = 1) ∧ ∀ x, s.pool.given ≤ x → places s x = 0 := by
  obtain ⟨hholds, hsleeps⟩ := kept_of_reach h
  have hcount : ∀ x, places s x = (List.range s.pool.given).count x := by
    intro x
    rw [← hholds.count_eq x, List.count_append, List.count_append, places]
    omega
  refine ⟨fun op hop conflict hst => ?_, fun x hx => ?_, fun x hx => ?_⟩
  · obtain ⟨e, he, hptr, hway⟩ := hsleeps op hop conflict hst
    exact ⟨⟨e, he, hptr, hway⟩, fun doModify r => lockAdd_blocked he hway doModify⟩
  · rw [hcount, List.count_eq_one_of_mem List.nodup_range (List.mem_range.mpr hx)]
  · rw [hcount, List.count_eq_zero_of_not_mem fun hmem => hx.not_gt (List.mem_range.mp hmem)]

def writer (mandate logAddr logLen : Nat) : LockArgs :=
  ⟨mandate, logAddr, logLen, .write, .none, .wait⟩

/-- The second mandate waits for the first one. -/
theorem no_lost_wakeup_waiting : ∃ s : State,
    s.ops = [⟨1, writer 2 5 3, .asleep 0⟩] ∧
    (∃ e ∈ s.anchor, e.ptr = 0 ∧ InWay (newLock (writer 2 5 3)) e.lock) ∧ places s 0 = 1 := by
  have hrun : (run step anyEvent ⟨[], ⟨[], 0⟩, []⟩ [.enter (writer 1 0 10), .turn 0,
      .enter (writer 2 5 3), .turn 0]).map (fun s => (s.ops, s.pool.given)) =
        some ([⟨1, writer 2 5 3, .asleep 0⟩], 2) := by
    decide
  obtain ⟨s, hs, heq⟩ := Option.map_eq_some_iff.mp hrun
  obtain ⟨hops, hgiven⟩ := Prod.mk.inj heq
  have hinit : Init ⟨[], ⟨[], 0⟩, []⟩ := rfl
  have hmeets := no_lost_wakeup ((Reach.start hinit).of_run hs)
  refine ⟨s, hops, (hmeets.1 _ (by rw [hops]; exact List.mem_singleton_self _) 0 rfl).1, ?_⟩
  exact hmeets.2.1 0 (by rw [hgiven]; decide)

/-! ## The list without the records -/

theorem locks_lockSub (del : Lock) (l : List Record) (pool : Pool) :
    (lockSub del l pool).anchor.map Record.lock = LockUlinux.lockSub del (l.map Record.lock) := by
  fun_induction lockSub del l pool with
  | case1 => rfl
  | case2 elem rest pool hover hlow hup ih =>
    rw [List.map_cons, LockUlinux.lockSub.eq_def]
    simp only
    rw [if_pos hover, if_pos hlow, if_pos hup, ← ih]
    rfl
  | case3 elem rest pool hover hlow hup ih =>
    rw [List.map_cons, LockUlinux.lockSub.eq_def]
    simp only
    rw [if_pos hover, if_pos hlow, if_neg hup, ← ih]
    rfl
  | case4 pool elem hover hlow hgone =>
    rw [List.map_cons, LockUlinux.lockSub.eq_def]
    simp only
    rw [if_pos hover, if_neg hlow, if_pos hgone]
    rfl
  | case5 elem pool hover hlow hgone elem' rest ih =>
    rw [List.map_cons, LockUlinux.lockSub.eq_def]
    simp only
    rw [if_pos hover, if_neg hlow, if_pos hgone, List.map_cons]
    simp only
    rw [← ih]
    rfl
  | case6 elem rest pool hover hlow hgone ih =>
    rw [List.map_cons, LockUlinux.lockSub.eq_def]
    simp only
    rw [if_pos hover, if_neg hlow, if_neg hgone, ← ih]
    rfl
  | case7 elem rest pool hover ih =>
    rw [List.map_cons, LockUlinux.lockSub.eq_def]
    simp only
    rw [if_neg hover, ← ih]
    rfl

/-- `i` is the place of the record `modify` in the list. -/
def Place (l : List Record) (modify i : Option Nat) : Prop :=
  (modify = none ∧ i = none) ∨ ∃ j e, i = some j ∧ l[j]? = some e ∧ modify = some e.ptr

theorem scan_locks {pre : List Record} {modify i m : Option Nat} (h : Place (pre ++ l) modify i)
    (hs : scan del modify l = .ok m) :
    ∃ j, LockUlinux.scan del pre.length i (l.map Record.lock) = .ok j ∧ Place (pre ++ l) m j := by
  induction l generalizing pre modify i with
  | nil =>
    cases hs
    exact ⟨i, rfl, h⟩
  | cons elem rest ih =>
    have hlist : pre ++ elem :: rest = (pre ++ [elem]) ++ rest := by simp
    have hlen : (pre ++ [elem]).length = pre.length + 1 := by simp
    have hself : (pre ++ elem :: rest)[pre.length]? = some elem := by simp
    rw [hlist] at h hself ⊢
    unfold scan at hs
    rw [List.map_cons, LockUlinux.scan, ← hlen]
    split at hs
    · rename_i hm
      rw [if_pos hm]
      split at hs
      · rename_i hmerge
        rw [if_pos hmerge]
        exact ih (Or.inr ⟨_, _, rfl, hself, rfl⟩) hs
      · rename_i hmerge
        rw [if_neg hmerge]
        exact ih h hs
    · rename_i hm
      rw [if_neg hm]
      split at hs
      · cases hs
      · rename_i hway
        rw [if_neg hway]
        exact ih h hs

/-- The record that is stretched is the entry at its place. -/
theorem map_stretchAt {i : Nat} {e : Record} (hnd : (ptrs l).Nodup) (hi : l[i]? = some e) :
    (l.map (stretchAt del e.ptr)).map Record.lock = (l.map Record.lock).modify i (stretch del) := by
  induction l generalizing i with
  | nil => cases hi
  | cons elem rest ih =>
    obtain ⟨hno, hnd⟩ := List.nodup_cons.mp hnd
    cases i with
    | zero =>
      simp only [List.getElem?_cons_zero, Option.some.injEq] at hi
      subst hi
      have hrest : rest.map (stretchAt del elem.ptr) = rest := by
        refine (List.map_congr_left fun f hf => ?_).trans (List.map_id rest)
        refine if_neg fun heq : f.ptr = elem.ptr => hno ?_
        rw [← heq]
        exact List.mem_map_of_mem hf
      rw [List.map_cons, List.map_cons, hrest, List.map_cons, List.modify_zero_cons, stretchAt,
        if_pos rfl]
    | succ i =>
      simp only [List.getElem?_cons_succ] at hi
      have hne : elem.ptr ≠ e.ptr := fun heq =>
        hno (heq ▸ List.mem_map_of_mem (List.mem_of_getElem? hi))
      rw [List.map_cons, List.map_cons, List.map_cons, List.modify_succ_cons, ih hnd hi, stretchAt,
        if_neg hne]

theorem locks_lockAdd {doModify : Bool} (hnd : (ptrs anchor).Nodup)
    (hs : lockAdd anchor pool new doModify = .ok r) :
    LockUlinux.lockAdd (anchor.map Record.lock) new.lock doModify = .ok (r.anchor.map Record.lock) := by
  unfold lockAdd at hs
  unfold LockUlinux.lockAdd
  cases hscan : scan new.lock none anchor with
  | error c =>
    rw [hscan] at hs
    cases hs
  | ok modify =>
    rw [hscan] at hs
    have hstart : Place ([] ++ anchor) none none := Or.inl ⟨rfl, rfl⟩
    obtain ⟨j, hj, hplace⟩ := scan_locks hstart hscan
    rw [List.length_nil] at hj
    rw [hj]
    cases doModify with
    | false =>
      cases hs
      rfl
    | true =>
      rcases hplace with ⟨rfl, rfl⟩ | ⟨i, e, rfl, hi, rfl⟩
      · cases hs
        rfl
      · cases hs
        exact congrArg Except.ok (map_stretchAt hnd hi).symm

theorem Kept.nodup (h : Kept s) : (ptrs s.anchor).Nodup := by
  have hnd := h.holds.nodup_iff.mpr List.nodup_range
  exact (List.nodup_append.mp (List.nodup_append.mp hnd).2.1).1

/-! ## Locks of different mandates -/

/-- A range that is asked for ends below the end of the address space. -/
def Event.Below (_ : State) : Event → Prop
  | .enter a => a.logAddr + a.logLen < addrSpace
  | .turn _ | .unlock _ _ _ => True

instance (s : State) (e : Event) : Decidable (Event.Below s e) := by
  cases e <;> unfold Event.Below <;> infer_instance

/-- The list is safe, and neither a lock nor one that is asked for goes round the end. -/
structure Separate (s : State) : Prop where
  kept : Kept s
  safe : Safe s.locks
  fits : ∀ e ∈ s.locks, e.Fits
  asked : ∀ op ∈ s.ops, op.args.logAddr + op.args.logLen < addrSpace

theorem fits_newLock {a : LockArgs} (h : a.logAddr + a.logLen < addrSpace) : (newLock a).Fits := by
  unfold Lock.Fits newLock
  rw [add64_eq h]
  exact ⟨Nat.le_add_right _ _, h⟩

theorem args_wakeup (w : List Nat) (op : Op) : (op.wakeup w).args = op.args := by
  unfold Op.wakeup
  split
  · split <;> rfl
  · rfl

theorem asked_state {r : Result} {ops : List Op}
    (h : ∀ op ∈ ops, op.args.logAddr + op.args.logLen < addrSpace) :
    ∀ op ∈ (r.state ops).ops, op.args.logAddr + op.args.logLen < addrSpace := by
  intro op' hop'
  obtain ⟨op, hop, rfl⟩ := List.mem_map.mp hop'
  rw [args_wakeup]
  exact h op hop

theorem separate_step {e : Event} (h : Separate s) (hbelow : e.Below s) (hs : step s e = some t) :
    Separate t := by
  have hkept := kept_step h.kept hs
  cases e with
  | enter a =>
    simp only [step] at hs
    split at hs <;> cases hs
    · exact h
    · exact ⟨hkept, h.safe, h.fits, List.forall_mem_cons.mpr ⟨hbelow, h.asked⟩⟩
  | turn i =>
    simp only [step, Option.map_eq_some_iff] at hs
    obtain ⟨op, hop, rfl⟩ := hs
    have hrest : ∀ op ∈ s.ops.eraseIdx i, op.args.logAddr + op.args.logLen < addrSpace :=
      fun op hop => h.asked op (List.mem_of_mem_eraseIdx hop)
    have hnew := fits_newLock (h.asked op (List.mem_of_getElem? hop))
    unfold turn at hkept ⊢
    split
    · rename_i r hr
      simp only [hr] at hkept
      have hlocks := locks_lockAdd h.kept.nodup hr
      exact ⟨hkept, h.safe.lockAdd hlocks, fits_lockAdd hlocks h.fits hnew, asked_state hrest⟩
    · rename_i conflict hr
      simp only [hr] at hkept
      split
      · rename_i hact
        rw [if_pos hact] at hkept
        exact ⟨hkept, h.safe, h.fits, hrest⟩
      · rename_i hact
        rw [if_neg hact] at hkept
        exact ⟨hkept, h.safe, h.fits, List.forall_mem_cons.mpr
          ⟨h.asked op (List.mem_of_getElem? hop), hrest⟩⟩
  | unlock mandate logAddr logLen =>
    cases hs
    refine ⟨hkept, ?_, ?_, asked_state h.asked⟩
    · refine Holdings.Compatible.mono h.safe fun x m t hx => ?_
      rw [State.locks, Result.state, locks_lockSub] at hx
      exact holds_lockSub _ hx
    · intro e he
      rw [State.locks, Result.state, locks_lockSub] at he
      exact fits_lockSub _ h.fits e he

/-- **Locks of different mandates that overlap never conflict**, whatever is locked, merged and
unlocked, as long as every range that is asked for ends below the end of the address space. -/
theorem ulinux_exclusion (h : Reach step Init Event.Below s) : Exclusion s.locks := by
  have hsep : Separate s := by
    refine h.invariant ?_ fun s e t hsep hbelow hs => separate_step hsep hbelow hs
    rintro s rfl
    refine ⟨kept_of_reach (.start rfl), ?_, by simp [State.locks], by simp⟩
    rintro x o o' t t' - ⟨e, he, -⟩
    cases he
  exact hsep.safe.exclusion hsep.fits

/-- A reader stretches its lock below the one of another reader, and a writer sleeps. -/
theorem ulinux_exclusion_stretched : ∃ s : State,
    s.locks = [⟨40, 60, 2, 1⟩, ⟨20, 50, 1, 1⟩] ∧ s.ops.length = 1 ∧ Exclusion s.locks := by
  have hrun : (run step Event.Below ⟨[], ⟨[], 0⟩, []⟩ [.enter ⟨1, 30, 20, .read, .none, .wait⟩, .turn 0,
      .enter ⟨2, 40, 20, .read, .none, .wait⟩, .turn 0, .enter ⟨3, 50, 4, .write, .none, .wait⟩,
      .turn 0, .enter ⟨1, 20, 10, .read, .none, .wait⟩, .turn 0]).map
      (fun s => (s.locks, s.ops.length)) = some ([⟨40, 60, 2, 1⟩, ⟨20, 50, 1, 1⟩], 1) := by
    decide
  obtain ⟨s, hs, heq⟩ := Option.map_eq_some_iff.mp hrun
  obtain ⟨hlocks, hops⟩ := Prod.mk.inj heq
  have hinit : Init ⟨[], ⟨[], 0⟩, []⟩ := rfl
  exact ⟨s, hlocks, hops, ulinux_exclusion ((Reach.start hinit).of_run hs)⟩

/-- Two mandates write the last page of the address space: the end of both entries is 0, and
`lock_add` sees no overlap. -/
theorem ulinux_top_shared : ¬ ∀ s : State, Reach step Init anyEvent s → Exclusion s.locks := by
  intro h
  have hrun : (run step anyEvent ⟨[], ⟨[], 0⟩, []⟩
      [.enter ⟨1, 2 ^ 64 - 4096, 4096, .write, .none, .try⟩, .turn 0,
       .enter ⟨2, 2 ^ 64 - 4096, 4096, .write, .none, .try⟩, .turn 0]).map State.locks =
      some [⟨2 ^ 64 - 4096, 0, 2, 2⟩, ⟨2 ^ 64 - 4096, 0, 1, 2⟩] := by
    decide
  obtain ⟨s, hs, heq⟩ := Option.map_eq_some_iff.mp hrun
  have hinit : Init ⟨[], ⟨[], 0⟩, []⟩ := rfl
  have hexcl := h s ((Reach.start hinit).of_run hs)
  rw [heq] at hexcl
  have hfree := hexcl _ (List.mem_cons_self ..) _ (List.mem_cons_of_mem _ (List.mem_cons_self ..))
    (by decide) ⟨2 ^ 64 - 1, by decide, by decide, by decide⟩
  exact absurd hfree (by decide)

end Athomux.LockUlinux.Records
