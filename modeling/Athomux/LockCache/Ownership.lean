import Athomux.LockCache.Exclusion

/-! # Addresses that the cache holds at the lock manager -/

open Lib Athomux.LockList

namespace Athomux.LockCache

open LockMelt

variable {s t : Sys} {a : LockArgs} {loop : Bool} {A A' : List (Entry Tag)} {F : List Nat} {d : Desc}
  {taken : Nat → Prop}

/-! ## Types -/

/-- The type of a native record. -/
def nativeType : LockType := ⟨.write, .write⟩

theorem strongest_native {t u : Tag} (ht : t.type = nativeType) (hu : u.type = nativeType) :
    (strongest t u).type = nativeType := by
  rw [strongest, ht, hu]
  rfl

theorem strongest_full {t u : Tag} (ht : t.type.conflicts nativeType = true) :
    (strongest t u).type.conflicts nativeType = true := by
  obtain ⟨tm, ⟨td, ta⟩, tobl⟩ := t
  obtain ⟨um, ⟨ud, ua⟩, uobl⟩ := u
  revert ht
  simp only [strongest]
  cases td <;> cases ta <;> cases ud <;> cases ua <;> decide

/-! ## The invariant -/

/-- A native record is on the address. -/
def NativeAt (s : Sys) (x : Nat) : Prop := Covers s.list.entries s.mand x

/-- The addresses that a task has got from the lock manager, or that it gives back. -/
def Task.Under : Task → Nat → Prop
  | .lockAnswered _ _ _ _ specAddr specLen, x => specAddr ≤ x ∧ x < add64 specAddr specLen
  | .retracted start stop, x => start ≤ x ∧ x < stop
  | .opUnlock start stop _, x => start ≤ x ∧ x < stop
  | .unlockSent start stop, x => start ≤ x ∧ x < stop
  | _, _ => False

/-- A request that locks something. Only `:>loop` makes requests with the mandate of the brick. -/
structure Allowed (mand : Nat) (a : LockArgs) (loop : Bool) : Prop where
  effect : noEffect a = false
  native : a.mandate = mand → loop = true ∧ a.dataLock = .write ∧ a.addrLock = .write

def Task.Allowed (mand : Nat) : Task → Prop
  | .waiting a loop _ => LockCache.Allowed mand a loop
  | .opLock a loop _ _ _ => LockCache.Allowed mand a loop
  | .lockSent a loop _ _ => LockCache.Allowed mand a loop
  | .lockAnswered a loop _ _ _ _ => LockCache.Allowed mand a loop
  | _ => True

/-- What holds of the records alone. -/
structure Typed (mand : Nat) (A : List (Entry Tag)) : Prop where
  native : ∀ e ∈ A, e.2.tag.mandate = mand → e.2.tag.type = nativeType
  full : ∀ e ∈ A, e.2.tag.type.conflicts nativeType = true
  below : ∀ e ∈ A, ∀ x, e.2.Has x → x < allStop

/-- An address without a native record is held at the lock manager, and an `$unlock` is out for
addresses with native records only. `taken` are the addresses under way that no task has. -/
structure Held (s : Sys) (taken : Nat → Prop) : Prop where
  typed : Typed s.mand s.list.entries
  cover : ∀ x, x < allStop → NativeAt s x ∨ holds s.manager x = true
  outgoing : ∀ start stop, .unlockSent start stop ∈ s.tasks → ∀ x, start ≤ x → x < stop → NativeAt s x
  under : ∀ x, NativeAt s x → holds s.manager x = true → taken x ∨ ∃ u ∈ s.tasks, u.Under x
  allowed : ∀ u ∈ s.tasks, u.Allowed s.mand

theorem Held.drop (h : Held s taken) {i : Nat} {u : Task} (hi : s.tasks[i]? = some u) :
    Held (s.drop i) fun x => taken x ∨ u.Under x where
  typed := h.typed
  cover := h.cover
  outgoing start stop hu := h.outgoing start stop (List.mem_of_mem_eraseIdx hu)
  under x hx hh := by
    rcases h.under x hx hh with ht | ⟨v, hv, hvx⟩
    · exact Or.inl (Or.inl ht)
    · have hlt : i < s.tasks.length := (List.getElem?_eq_some_iff.mp hi).1
      have hget : s.tasks[i] = u := (List.getElem?_eq_some_iff.mp hi).2
      have hperm := List.getElem_cons_eraseIdx_perm hlt
      rw [hget] at hperm
      rcases List.mem_cons.mp (hperm.mem_iff.mpr hv) with rfl | hv
      · exact Or.inl (Or.inr hvx)
      · exact Or.inr ⟨v, hv, hvx⟩
  allowed u hu := h.allowed u (List.mem_of_mem_eraseIdx hu)

theorem Held.add (h : Held s taken) {taken' : Nat → Prop} {u : Task}
    (hout : ∀ start stop, u = .unlockSent start stop → ∀ x, start ≤ x → x < stop → NativeAt s x)
    (htaken : ∀ x, taken x → taken' x ∨ u.Under x) (hu : u.Allowed s.mand) :
    Held (s.add u) taken' where
  typed := h.typed
  cover := h.cover
  outgoing start stop hmem := by
    rcases List.mem_cons.mp hmem with heq | hmem
    · exact hout start stop heq.symm
    · exact h.outgoing start stop hmem
  under x hx hh := by
    rcases h.under x hx hh with ht | ⟨v, hv, hvx⟩
    · exact (htaken x ht).imp_right fun hux => ⟨u, List.mem_cons_self, hux⟩
    · exact Or.inr ⟨v, List.mem_cons_of_mem _ hv, hvx⟩
  allowed v hv := by
    rcases List.mem_cons.mp hv with rfl | hv
    · exact hu
    · exact h.allowed v hv

theorem Held.congr (h : Held s taken) (hmand : t.mand = s.mand)
    (hlist : t.list.entries = s.list.entries) (htasks : t.tasks = s.tasks)
    (hmanager : t.manager = s.manager) : Held t taken := by
  obtain ⟨h1, h2, h3, h4, h5⟩ := h
  have hnat : ∀ x, NativeAt t x ↔ NativeAt s x := by
    intro x
    rw [NativeAt, NativeAt, hlist, hmand]
  refine ⟨?_, ?_, ?_, ?_, ?_⟩
  · rw [hlist, hmand]
    exact h1
  · intro x hx
    rw [hnat, hmanager]
    exact h2 x hx
  · intro start stop hu x
    rw [htasks] at hu
    rw [hnat]
    exact h3 start stop hu x
  · intro x
    rw [hnat, hmanager, htasks]
    exact h4 x
  · rw [htasks, hmand]
    exact h5

/-- `taken` is emptied, or only said in other words. -/
theorem Held.mono (h : Held s taken) {taken' : Nat → Prop}
    (htaken : ∀ x, NativeAt s x → holds s.manager x = true → taken x → taken' x) : Held s taken' where
  typed := h.typed
  cover := h.cover
  outgoing := h.outgoing
  under x hx hh := (h.under x hx hh).imp_left (htaken x hx hh)
  allowed := h.allowed

/-! ## The records of operations -/

theorem addManagerRec_entries {type : OpType} {start stop : Nat}
    (hs : addManagerRec s type start stop = some t) : t.list.entries = s.list.entries := by
  unfold addManagerRec at hs
  split at hs
  · cases hs
  · split at hs
    · cases hs
    · cases hs
      rfl

theorem Held.send (h : Held s taken) {type : OpType} {start stop : Nat}
    (hs : addManagerRec s type start stop = some t) : Held t taken := by
  obtain ⟨hmand, htasks, hmanager⟩ := addManagerRec_frame hs
  exact h.congr hmand (addManagerRec_entries hs) htasks hmanager

theorem Held.done (h : Held s taken) {type : OpType} {start stop : Nat}
    (hs : removeManagerRec s type start stop = some t) : Held t taken := by
  simp only [removeManagerRec, Option.bind_eq_bind, Option.bind_eq_some_iff, Option.pure_def,
    Option.some.injEq] at hs
  obtain ⟨p, -, imp, -, rfl⟩ := hs
  exact h.congr rfl rfl rfl rfl

/-! ## Operations on the list -/

/-- Each record that melting adds gets a native lock. -/
def NoLoss (list : LockRecs) (a : LockArgs) : Prop :=
  Melts list a → addCount (granted list a) list.entries ≤ list.lockImp.nFree

theorem Typed.melt {region : Nat → Prop} {lost : Prop} {mand : Nat} (h : Typed mand A)
    (hm : Melted A d region lost A') (hfull : d.tag.type.conflicts nativeType = true)
    (hnative : d.tag.mandate = mand → d.tag.type = nativeType) (hstop : d.stop ≤ allStop) :
    Typed mand A' := by
  refine ⟨?_, ?_, ?_⟩
  · intro e he hem
    by_cases ho : Own d e
    · have hdm : d.tag.mandate = mand := ho.symm.trans hem
      exact hm.types (Q := fun u => u = nativeType) (fun _ _ => strongest_native) (hnative hdm)
        (fun f hf hof => h.native f hf (hof.trans hdm)) he ho
    · exact h.native e ((hm.foreign e ho).mp he) hem
  · intro e he
    by_cases ho : Own d e
    · exact hm.types (Q := fun u => u.conflicts nativeType = true) (fun _ _ ht _ => strongest_full ht)
        hfull (fun f hf _ => h.full f hf) he ho
    · exact h.full e ((hm.foreign e ho).mp he)
  · intro e he x hx
    by_cases ho : Own d e
    · rcases hm.has he ho hx with ⟨f, hf, -, hfx⟩ | hdx
      · exact h.below f hf x hfx
      · exact lt_of_lt_of_le hdx.2 hstop
    · exact h.below e ((hm.foreign e ho).mp he) x hx

theorem Typed.remove {lost : Prop} {mand : Nat} (h : Typed mand A) (hr : Removed A d lost A') :
    Typed mand A' := by
  have hfrom : ∀ e ∈ A', ∀ x, e.2.Has x → ∃ f ∈ A, f.2.tag = e.2.tag ∧ f.2.Has x := by
    intro e he x hx
    by_cases ho : Own d e
    · obtain ⟨f, hf, -, htag, hfx⟩ := hr.piece e he ho x hx
      exact ⟨f, hf, htag, hfx⟩
    · exact ⟨e, (hr.foreign e ho).mp he, rfl, hx⟩
  have htag : ∀ e ∈ A', ∃ f ∈ A, f.2.tag = e.2.tag := by
    intro e he
    by_cases ho : Own d e
    · obtain ⟨f, hf, htag, -⟩ := hfrom e he e.2.start ⟨Nat.le_refl _, hr.nonempty e he ho⟩
      exact ⟨f, hf, htag⟩
    · exact ⟨e, (hr.foreign e ho).mp he, rfl⟩
  refine ⟨?_, ?_, ?_⟩
  · intro e he hem
    obtain ⟨f, hf, heq⟩ := htag e he
    rw [← heq] at hem ⊢
    exact h.native f hf hem
  · intro e he
    obtain ⟨f, hf, heq⟩ := htag e he
    rw [← heq]
    exact h.full f hf
  · intro e he x hx
    obtain ⟨f, hf, -, hfx⟩ := hfrom e he x hx
    exact h.below f hf x hfx

theorem noEffect_full (h : noEffect a = false) : a.obl.tag.type.conflicts nativeType = true := by
  simp only [noEffect, Bool.or_eq_false_iff] at h
  obtain ⟨-, h⟩ := h
  revert h
  simp only [LockArgs.obl]
  cases a.dataLock <;> cases a.addrLock <;> decide

theorem Held.melt (h : Held s fun _ => False) (hlists : Lists s A F) (hwf : WF A)
    (ha : lockCheck a = true) (hallowed : Allowed s.mand a loop)
    (hloss : a.mandate = s.mand → NoLoss s.list a) (hmelts : Melts s.list a) {list : LockRecs}
    (hs : meltLockIntoList s.list (granted s.list a) = some list) :
    Held (finish { s with list := list } loop (granted s.list a).start
      ((granted s.list a).stop - (granted s.list a).start)) fun _ => False := by
  obtain ⟨hbetween, -⟩ := granted_spec hlists hwf.sorted ha hmelts.1
  have hentries := hlists.stores.rep.entries_eq
  set d := granted s.list a with hd
  have hlt : d.start < d.stop := hmelts.2.1
  have htag : d.tag = a.obl.tag := hbetween.tag
  have hdm : d.tag.mandate = a.mandate := by rw [htag]; rfl
  have hstop : d.stop ≤ allStop := by
    have hopt : a.opt.stop < addrSpace := add64_lt _ _
    have := hbetween.stopLe
    unfold allStop
    omega
  obtain ⟨A', F', hres⟩ := meltLockIntoList_spec (a.mandate ≠ s.mand) hlists.stores hwf hlt
    (fun hmany hm => by
      have := hloss hm hmelts
      rw [hentries, ← hd] at this
      omega) hs
  have hm := hres.molten.melted
  have hentries' : list.entries = A' := hres.stores.rep.entries_eq
  have htyped : Typed s.mand A' := by
    have := h.typed
    rw [hentries] at this
    refine this.melt hm ?_ ?_ hstop
    · rw [htag]
      exact noEffect_full hallowed.effect
    · intro hmand
      rw [hdm] at hmand
      obtain ⟨-, hdata, haddr⟩ := hallowed.native hmand
      rw [htag, LockArgs.obl, hdata, haddr]
      rfl
  set s₁ : Sys := { s with list := list } with hs₁
  have hsub : ∀ x, NativeAt s x → NativeAt s₁ x := by
    intro x hx
    rw [NativeAt, hentries] at hx
    rw [NativeAt, hentries']
    by_cases hmand : d.tag.mandate = s.mand
    · rw [← hmand] at hx
      rcases hm.cover x hx with hc | ⟨hne, -⟩
      · rwa [hmand] at hc
      · exact absurd (hdm.symm.trans hmand) hne
    · exact (covers_foreign hm.foreign (Ne.symm hmand)).mpr hx
  have hnew : ∀ x, NativeAt s₁ x → NativeAt s x ∨ (a.mandate = s.mand ∧ d.Has x) := by
    intro x hx
    rw [NativeAt, hentries'] at hx
    rw [NativeAt, hentries]
    by_cases hmand : d.tag.mandate = s.mand
    · obtain ⟨e, he, hem, hex⟩ := hx
      rcases hm.has he (hem.trans hmand.symm) hex with ⟨f, hf, hof, hfx⟩ | hdx
      · exact Or.inl ⟨f, hf, hof.trans hmand, hfx⟩
      · exact Or.inr ⟨hdm.symm.trans hmand, hdx⟩
    · exact Or.inl ((covers_foreign hm.foreign (Ne.symm hmand)).mp hx)
  have hheld : Held s₁ fun x => a.mandate = s.mand ∧ d.Has x := by
    refine ⟨?_, ?_, ?_, ?_, h.allowed⟩
    · rw [hentries']
      exact htyped
    · exact fun x hx => (h.cover x hx).imp_left (hsub x)
    · exact fun start stop hu x h1 h2 => hsub x (h.outgoing start stop hu x h1 h2)
    · intro x hx hh
      rcases hnew x hx with hx | hx
      · exact Or.inr ((h.under x hx hh).resolve_left id)
      · exact Or.inl hx
  have hsum : add64 d.start (d.stop - d.start) = d.stop := by
    have hall : allStop < addrSpace := by decide
    rw [add64_eq (by omega)]
    omega
  unfold finish
  split
  · refine hheld.add (by simp) ?_ trivial
    rintro x ⟨-, hx⟩
    right
    rw [Task.Under, hsum]
    exact hx
  · rename_i hloop
    refine hheld.mono ?_
    rintro x - - ⟨hmand, -⟩
    exact hloop (hallowed.native hmand).1

theorem Held.finish (h : Held s fun _ => False) (loop : Bool) (tryAddr tryLen : Nat) :
    Held (finish s loop tryAddr tryLen) fun _ => False := by
  unfold LockCache.finish
  split
  · exact h.add (by simp) (fun _ => False.elim) trivial
  · exact h

theorem Held.search (h : Held s fun _ => False) (hsafe : Safe s) (ha : lockCheck a = true)
    (hallowed : Allowed s.mand a loop) (hloss : a.mandate = s.mand → NoLoss s.list a)
    (hs : search s a loop = some t) : Held t fun _ => False := by
  obtain ⟨A, F, hlists, hwf, -⟩ := hsafe.lists
  rcases search_cases hs with ⟨list, hmelts, hmelt, rfl⟩ | ⟨-, hp⟩
  · exact h.melt hlists hwf ha hallowed hloss hmelts hmelt
  · cases hp with
    | done tryAddr tryLen => exact h.finish _ _ _
    | refused => exact h
    | waiting native => exact h.add (by simp) (fun _ => False.elim) hallowed
    | opLock start stop native => exact h.add (by simp) (fun _ => False.elim) hallowed
    | sent hno hadd =>
      refine (h.send hadd).add (by simp) (fun _ => False.elim) ?_
      rw [Task.Allowed, (addManagerRec_frame hadd).1]
      exact hallowed

theorem Held.lock (h : Held s fun _ => False) (hsafe : Safe s)
    (hnative : a.mandate = s.mand → loop = true ∧ a.dataLock = .write ∧ a.addrLock = .write)
    (hloss : a.mandate = s.mand → NoLoss s.list a) (hs : lock s a loop = some t) :
    Held t fun _ => False := by
  rcases lock_cases hs with ⟨ha, heff, hs⟩ | rfl | ⟨tryAddr, tryLen, rfl⟩
  · exact h.search hsafe ha ⟨heff, hnative⟩ hloss hs
  · exact h
  · exact h.finish _ _ _

/-- An `$unlock` of a client. -/
theorem Held.unlock (h : Held s taken) (hlists : Lists s A F) (hwf : WF A) {mandate addr len : Nat}
    (hwrap : addr + len ≤ addrSpace) (hclient : mandate ≠ s.mand) {list : LockRecs}
    (hs : removeOwnLocks s.list (removeDesc mandate addr (add64 addr len) true) = some list) :
    Held { s with list := list } taken := by
  have hentries := hlists.stores.rep.entries_eq
  obtain ⟨A', F', hst, hrem, -, -⟩ := removeOwnLocks_spec True hlists.stores hwf
    (passed_or_le hwrap) (fun _ => trivial) hs
  have hentries' : list.entries = A' := hst.rep.entries_eq
  have hnat : ∀ x, NativeAt { s with list := list } x ↔ NativeAt s x := by
    intro x
    rw [NativeAt, NativeAt, hentries', hentries]
    exact covers_foreign hrem.foreign (Ne.symm hclient)
  have htyped := h.typed
  rw [hentries] at htyped
  refine ⟨?_, ?_, ?_, ?_, h.allowed⟩
  · rw [hentries']
    exact htyped.remove hrem
  · exact fun x hx => (h.cover x hx).imp_left (hnat x).mpr
  · exact fun start stop hu x h1 h2 => (hnat x).mpr (h.outgoing start stop hu x h1 h2)
  · exact fun x hx => h.under x ((hnat x).mp hx)

/-! ## Steps -/

/-- What the lock manager has granted is still held, and no `$unlock` of it is out. -/
def GrantHeld (s : Sys) (specAddr specLen : Nat) : Prop :=
  ∀ x, specAddr ≤ x → x < add64 specAddr specLen →
    holds s.manager x = true ∧ ∀ start stop, .unlockSent start stop ∈ s.tasks → ¬ (start ≤ x ∧ x < stop)

/-- Clients have mandates of their own, no native record is lost, what is taken from the lock
manager is still held, and what is given back is still covered by native records. -/
def Owned (s : Sys) : Event → Prop
  | .lock a => a.mandate ≠ s.mand
  | .retract _ logAddr logLen => NoLoss s.list (retractArgs s.mand logAddr logLen)
  | .unlock mandate _ _ _ _ => mandate ≠ s.mand
  | .resume i =>
    match s.tasks[i]? with
    | some (.waiting a _ _) => a.mandate = s.mand → NoLoss s.list a
    | some (.lockAnswered a _ start stop specAddr specLen) =>
      GrantHeld s specAddr specLen ∧
      (∀ t, removeManagerRec (s.drop i) .lock start stop = some t →
        firstParts (removeDesc s.mand specAddr (add64 specAddr specLen) false) t.list.entries ≤
          t.list.lockImp.nFree) ∧
      ∀ t, takeGrant (s.drop i) start stop specAddr specLen = some t →
        a.mandate = s.mand → NoLoss t.list a
    | some (.retracted start stop) => s.managerRecs.find? (opConflict .unlock start stop) = none →
      ∀ x, start ≤ x → x < stop → NativeAt s x
    | some (.opUnlock start stop _) => ∀ x, start ≤ x → x < stop → NativeAt s x
    | _ => True
  | _ => True

theorem Held.sendUnlock (h : Held s taken) {start stop : Nat}
    (hcover : ∀ x, start ≤ x → x < stop → NativeAt s x)
    (htaken : ∀ x, taken x → start ≤ x ∧ x < stop)
    (hs : sendUnlock s start stop = some t) : Held t fun _ => False := by
  simp only [LockCache.sendUnlock, Option.map_eq_some_iff] at hs
  obtain ⟨s₁, hadd, rfl⟩ := hs
  obtain ⟨hmand, -⟩ := addManagerRec_frame hadd
  refine (h.send hadd).add ?_ (fun x hx => Or.inr (htaken x hx)) trivial
  rintro _ _ ⟨rfl, rfl⟩ x h1 h2
  rw [NativeAt, addManagerRec_entries hadd, hmand]
  exact hcover x h1 h2

theorem takeGrant_mand {start stop specAddr specLen : Nat}
    (hs : takeGrant s start stop specAddr specLen = some t) : t.mand = s.mand := by
  simp only [LockCache.takeGrant, removeManagerRec, Option.bind_eq_bind, Option.bind_eq_some_iff,
    Option.pure_def, Option.some.injEq] at hs
  obtain ⟨_, ⟨p, -, imp, -, rfl⟩, list, -, rfl⟩ := hs
  rfl

/-- The addresses that the lock manager has granted are taken over. -/
theorem Held.takeGrant (h : Held s taken) (hsafe : Safe s) {start stop specAddr specLen : Nat}
    (hwrap : specAddr + specLen ≤ addrSpace) (hgrant : GrantHeld s specAddr specLen)
    (hparts : ∀ t, removeManagerRec s .lock start stop = some t →
      firstParts (removeDesc s.mand specAddr (add64 specAddr specLen) false) t.list.entries ≤
        t.list.lockImp.nFree)
    (htaken : ∀ x, taken x → specAddr ≤ x ∧ x < add64 specAddr specLen)
    (hs : takeGrant s start stop specAddr specLen = some t) : Held t fun _ => False := by
  simp only [LockCache.takeGrant, Option.bind_eq_bind, Option.bind_eq_some_iff, Option.pure_def,
    Option.some.injEq] at hs
  obtain ⟨s₁, hrec, list, hrem, rfl⟩ := hs
  obtain ⟨A, F, hlists, hwf, -⟩ := (hsafe.done hrec).lists
  obtain ⟨A₀, F₀, hlists₀, -⟩ := hsafe.lists
  obtain ⟨-, hmand, htasks, hmanager, -⟩ := hlists₀.removeManagerRec hrec
  have hparts := hparts s₁ hrec
  replace h := h.done hrec
  have hentries := hlists.stores.rep.entries_eq
  rw [hentries] at hparts
  rw [hmand] at hrem
  set d := removeDesc s.mand specAddr (add64 specAddr specLen) false with hd
  obtain ⟨A', F', hst, hrem', hpass, -⟩ := removeOwnLocks_spec False hlists.stores hwf
    (passed_or_le hwrap) (fun hlt => absurd hlt (Nat.not_lt.mpr hparts)) hrem
  have hentries' : list.entries = A' := hst.rep.entries_eq
  have hback : ∀ x, NativeAt { s₁ with list := list } x → NativeAt s₁ x := by
    rintro x ⟨e, he, hem, hex⟩
    rw [hentries'] at he
    rw [NativeAt, hentries]
    obtain ⟨f, hf, hof, -, hfx⟩ := hrem'.piece e he (hem.trans hmand) x hex
    exact ⟨f, hf, hof.trans hmand.symm, hfx⟩
  have hkeep : ∀ x, NativeAt s₁ x → NativeAt { s₁ with list := list } x ∨ d.Has x := by
    intro x hx
    rw [NativeAt, hentries, hmand] at hx
    rw [NativeAt, hentries', hmand]
    exact (hrem'.cover x hx).imp_right fun h => h.resolve_left id
  have hheld : ∀ x, d.Has x → holds s₁.manager x = true ∧
      ∀ start stop, .unlockSent start stop ∈ s₁.tasks → ¬ (start ≤ x ∧ x < stop) := by
    intro x hx
    rw [hmanager, htasks]
    exact hgrant x hx.1 hx.2
  have htyped := h.typed
  rw [hentries] at htyped
  refine ⟨?_, ?_, ?_, ?_, h.allowed⟩
  · rw [hentries']
    exact htyped.remove hrem'
  · intro x hx
    rcases h.cover x hx with hnat | hh
    · exact (hkeep x hnat).imp_right fun hdx => (hheld x hdx).1
    · exact Or.inr hh
  · intro start stop hu x h1 h2
    exact (hkeep x (h.outgoing start stop hu x h1 h2)).resolve_right
      fun hdx => (hheld x hdx).2 start stop hu ⟨h1, h2⟩
  · intro x hx hh
    rcases h.under x (hback x hx) hh with ht | hu
    · -- No native record is left where the grant is.
      exfalso
      refine hpass.free (htaken x ht) ?_
      rw [NativeAt, hentries', hmand] at hx
      exact hx
    · exact Or.inr hu

theorem Held.resume {i : Nat} {u : Task} (h : Held s fun _ => False) (hsafe : Safe s)
    (hi : s.tasks[i]? = some u) (hsound : Sound s (.resume i)) (hok : Owned s (.resume i))
    (hs : resume (s.drop i) u = some t) : Held t fun _ => False := by
  have hd : Held (s.drop i) u.Under := (h.drop hi).mono fun x _ _ hx => hx.resolve_left id
  have hsafed := hsafe.drop i
  have hcheck := hsafe.checked u (List.mem_of_getElem? hi)
  have hallowed := h.allowed u (List.mem_of_getElem? hi)
  simp only [Sound, hi] at hsound
  simp only [Owned, hi] at hok
  cases u with
  | waiting a loop native => exact hd.search hsafed (hcheck a rfl) hallowed hok hs
  | opLock a loop start stop native =>
    simp only [LockCache.resume, sendLock, Option.map_eq_some_iff] at hs
    obtain ⟨s₁, hadd, rfl⟩ := hs
    refine (hd.send hadd).add (by simp) (fun _ => False.elim) ?_
    rw [Task.Allowed, (addManagerRec_frame hadd).1]
    exact hallowed
  | lockSent a loop start stop => cases hs
  | lockAnswered a loop start stop specAddr specLen =>
    simp only [LockCache.resume, Option.bind_eq_some_iff] at hs
    obtain ⟨s₁, htake, hs⟩ := hs
    obtain ⟨hgrant, hparts, hloss⟩ := hok
    have hgrant' : GrantHeld (s.drop i) specAddr specLen := fun x h1 h2 =>
      ⟨(hgrant x h1 h2).1, fun start stop hu => (hgrant x h1 h2).2 start stop (List.mem_of_mem_eraseIdx hu)⟩
    have hmand := takeGrant_mand htake
    refine (hd.takeGrant hsafed hsound.1 hgrant' hparts (fun x hx => hx) htake).search
      (hsafed.takeGrant hsound.1 htake) (hcheck a rfl) ?_ ?_ hs
    · rw [hmand]
      exact hallowed
    · rw [hmand]
      exact hloss s₁ htake
  | retracted start stop =>
    simp only [LockCache.resume, release] at hs
    split at hs
    · cases hs
      exact hd.add (by simp) (fun x hx => Or.inr hx) trivial
    · rename_i hno
      exact hd.sendUnlock (hok hno) (fun x hx => hx) hs
  | opUnlock start stop native => exact hd.sendUnlock hok (fun x hx => hx) hs
  | unlockSent start stop => cases hs
  | unlockAnswered start stop => exact hd.done hs

/-- What a run needs: the steps keep exclusion, and they do not lose ownership. -/
def Careful (s : Sys) (e : Event) : Prop := Sound s e ∧ Owned s e

/-- The lock manager grants or takes back. -/
theorem Held.manager (h : Held s fun _ => False) {i : Nat} {u v : Task} (hi : s.tasks[i]? = some u)
    {granted : Bool} {start stop : Nat}
    (hcover : granted = false → ∀ x, start ≤ x → x < stop → NativeAt s x)
    (hu : ∀ x, u.Under x → granted = false ∧ start ≤ x ∧ x < stop)
    (hv : granted = true → ∀ x, start ≤ x → x < stop → v.Under x)
    (hout : ∀ start stop, v ≠ .unlockSent start stop) (hallowed : v.Allowed s.mand) :
    Held { (s.drop i).add v with manager := (granted, start, stop) :: s.manager }
      fun _ => False := by
  have hd := (h.drop hi).add (u := v) (fun start stop heq => absurd heq (hout start stop))
    (fun _ hx => Or.inl hx) hallowed
  refine ⟨hd.typed, ?_, hd.outgoing, ?_, hd.allowed⟩
  · intro x hx
    simp only [holds]
    split
    · rename_i hin
      cases granted with
      | true => exact Or.inr rfl
      | false => exact Or.inl (hcover rfl x hin.1 hin.2)
    · exact hd.cover x hx
  · intro x hx hh
    simp only [holds] at hh
    split at hh
    · rename_i hin
      exact Or.inr ⟨v, List.mem_cons_self, hv hh x hin.1 hin.2⟩
    · rename_i hout
      rcases hd.under x hx hh with (hf | hux) | hw
      · exact hf.elim
      · exact absurd (hu x hux).2 hout
      · exact Or.inr hw

theorem held_step {e : Event} (h : Safe s ∧ Held s fun _ => False) (hok : Careful s e)
    (hs : step s e = some t) : Safe t ∧ Held t fun _ => False := by
  obtain ⟨hsafe, h⟩ := h
  obtain ⟨hsound, hok⟩ := hok
  refine ⟨safe_step hsafe hsound hs, ?_⟩
  cases e with
  | lock a => exact h.lock hsafe (fun hm => absurd hm hok) (fun hm => absurd hm hok) hs
  | retract mandate logAddr logLen =>
    simp only [step] at hs
    split at hs
    · exact h.lock hsafe (fun _ => ⟨rfl, rfl, rfl⟩) (fun _ => hok) hs
    · cases hs
      exact h
  | unlock mandate logAddr logLen tryAddr tryLen =>
    simp only [step, LockCache.unlock] at hs
    split at hs
    · cases hs
      exact h
    · rw [Option.map_eq_some_iff] at hs
      obtain ⟨list, hrem, rfl⟩ := hs
      obtain ⟨A, F, hlists, hwf, -⟩ := hsafe.lists
      exact h.unlock hlists hwf hsound hok hrem
  | answer i ok specAddr specLen =>
    simp only [step] at hs
    split at hs
    · rename_i a loop start stop hi
      have hallowed := h.allowed _ (List.mem_of_getElem? hi)
      split at hs
      · cases hs
        exact h.manager hi (by simp) (fun _ => False.elim) (fun _ x h1 h2 => ⟨h1, h2⟩) (by simp) hallowed
      · cases hs
        exact (h.drop hi).mono fun x _ _ hx => hx.elim id id
    · cases hs
  | released i =>
    simp only [step] at hs
    split at hs
    · rename_i start stop hi
      cases hs
      exact h.manager hi (fun _ => h.outgoing start stop (List.mem_of_getElem? hi))
        (fun x hx => ⟨rfl, hx⟩) (by simp) (by simp) trivial
    · cases hs
  | resume i =>
    simp only [step, Option.bind_eq_some_iff] at hs
    obtain ⟨u, hi, hs⟩ := hs
    exact h.resume hsafe hi hsound hok hs

theorem held_init (h : Init s) : Held s fun _ => False := by
  obtain ⟨mand, all, desc, h⟩ := h
  obtain ⟨rfl, -, htasks, A, F, hlists, -, hA, hmanager, -⟩ := outputInit_spec h
  have hentries := hlists.stores.rep.entries_eq
  refine ⟨?_, ?_, by simp [htasks], ?_, by simp [htasks]⟩
  · rw [hentries]
    refine ⟨fun e he _ => ?_, fun e he => ?_, fun e he x hx => ?_⟩
    · rw [hA e he]
      rfl
    · rw [hA e he]
      exact (by decide : nativeType.conflicts nativeType = true)
    · rw [hA e he] at hx
      exact hx.2
  · intro x hx
    rcases hmanager with ⟨hne, -⟩ | ⟨-, hm⟩
    · obtain ⟨e, he⟩ := List.exists_mem_of_ne_nil A hne
      refine Or.inl ⟨e, by rw [hentries]; exact he, ?_, ?_⟩
      · rw [hA e he]
        rfl
      · rw [hA e he]
        exact ⟨Nat.zero_le _, hx⟩
    · right
      rw [hm, holds, if_pos ⟨Nat.zero_le _, hx⟩]
  · intro x hx hh
    rcases hmanager with ⟨-, hm⟩ | ⟨rfl, -⟩
    · rw [hm] at hh
      cases hh
    · obtain ⟨e, he, -⟩ := hx
      rw [hentries] at he
      cases he

/-! ## Ownership -/

/-- Clients lock only what the cache holds at the lock manager. -/
def Ownership (s : Sys) : Prop :=
  ∀ d ∈ s.list.records, d.tag.mandate ≠ s.mand → ∀ x, d.Has x → holds s.manager x = true

/-- Without a native record an address is held, and with one it is not held, unless an operation
on it is under way. -/
def Represented (s : Sys) : Prop :=
  ∀ x, x < allStop → (¬ NativeAt s x → holds s.manager x = true) ∧
    (NativeAt s x → holds s.manager x = true → ∃ u ∈ s.tasks, u.Under x)

/-- **No client holds a lock on an address that the cache does not hold at the lock manager.** This
holds in every run whose steps are careful. -/
theorem cache_ownership (h : Reach step Init Careful s) : Ownership s ∧ Represented s := by
  obtain ⟨hsafe, hheld⟩ : Safe s ∧ Held s fun _ => False :=
    h.invariant (fun _ hi => ⟨safe_init hi, held_init hi⟩) (fun _ _ _ => held_step)
  obtain ⟨A, F, hlists, hwf, hex⟩ := hsafe.lists
  have hentries := hlists.stores.rep.entries_eq
  refine ⟨?_, ?_⟩
  · intro d hd hne x hx
    rw [hlists.stores.rep.records_eq] at hd
    obtain ⟨e, he, rfl⟩ := List.mem_map.mp hd
    have htyped := hheld.typed
    rw [hentries] at htyped
    refine (hheld.cover x (htyped.below e he x hx)).resolve_left ?_
    rintro ⟨f, hf, hfm, hfx⟩
    rw [hentries] at hf
    -- A native record conflicts with every lock.
    have := hex e he f hf (fun heq => hne (heq.trans hfm))
      ⟨lt_of_le_of_lt hx.1 hfx.2, lt_of_le_of_lt hfx.1 hx.2⟩
    rw [htyped.native f hf hfm, htyped.full e he] at this
    cases this
  · intro x hx
    exact ⟨(hheld.cover x hx).resolve_left, fun hn hh => (hheld.under x hn hh).resolve_left id⟩

/-- One native record has the whole range. -/
def NativeOver (s : Sys) (start stop : Nat) : Prop :=
  ∃ e ∈ s.list.entries, e.2.tag.mandate = s.mand ∧ e.2.start ≤ start ∧ stop ≤ e.2.stop

instance (s : Sys) (start stop : Nat) : Decidable (NativeOver s start stop) :=
  inferInstanceAs (Decidable (∃ e ∈ _, _ ∧ _ ∧ _))

theorem NativeOver.all {start stop : Nat} (h : NativeOver s start stop) (x : Nat) (hx : start ≤ x)
    (hstop : x < stop) : NativeAt s x := by
  obtain ⟨e, he, hm, hstart, hend⟩ := h
  exact ⟨e, he, hm, hstart.trans hx, hstop.trans_le hend⟩

/-- What is granted is held, and no `$unlock` at all is out. -/
def GrantQuiet (s : Sys) (specAddr specLen : Nat) : Prop :=
  (∀ x < add64 specAddr specLen, specAddr ≤ x → holds s.manager x = true) ∧
    ∀ u ∈ s.tasks, u.op.map Prod.fst ≠ some .unlock

instance (s : Sys) (specAddr specLen : Nat) : Decidable (GrantQuiet s specAddr specLen) :=
  inferInstanceAs (Decidable (_ ∧ _))

theorem GrantQuiet.held {specAddr specLen : Nat} (h : GrantQuiet s specAddr specLen) :
    GrantHeld s specAddr specLen :=
  fun x hx hstop => ⟨h.1 x hstop hx, fun _ _ hu _ => h.2 _ hu rfl⟩

/-- What is asked of a task that gets the mutex in `clients`. -/
def TaskQuiet (s : Sys) (i : Nat) : Task → Prop
  | .waiting a _ _ => Ahead s.list a ∧ a.mandate ≠ s.mand
  | .lockAnswered a _ start stop specAddr specLen =>
      specAddr + specLen ≤ addrSpace ∧ GrantQuiet s specAddr specLen ∧
      (∀ t ∈ removeManagerRec (s.drop i) .lock start stop,
        firstParts (removeDesc s.mand specAddr (add64 specAddr specLen) false) t.list.entries ≤
          t.list.lockImp.nFree) ∧
      (∀ t ∈ takeGrant (s.drop i) start stop specAddr specLen, Ahead t.list a) ∧ a.mandate ≠ s.mand
  | .retracted start stop | .opUnlock start stop _ => NativeOver s start stop
  | _ => True

instance (s : Sys) (i : Nat) (u : Task) : Decidable (TaskQuiet s i u) := by
  unfold TaskQuiet
  split <;> infer_instance

def Quiet (s : Sys) : Event → Prop
  | .lock a => Ahead s.list a ∧ a.mandate ≠ s.mand
  | .retract _ logAddr logLen => Ahead s.list (retractArgs s.mand logAddr logLen) ∧
      addCount (granted s.list (retractArgs s.mand logAddr logLen)) s.list.entries ≤
        s.list.lockImp.nFree
  | .unlock mandate _ _ tryAddr tryLen => tryAddr + tryLen ≤ addrSpace ∧ mandate ≠ s.mand
  | .resume i => ∀ u ∈ s.tasks[i]?, TaskQuiet s i u
  | _ => True

instance (s : Sys) : (e : Event) → Decidable (Quiet s e)
  | .lock .. | .retract .. | .unlock .. => inferInstanceAs (Decidable (_ ∧ _))
  | .resume i => inferInstanceAs (Decidable (∀ u ∈ s.tasks[i]?, TaskQuiet s i u))
  | .answer .. | .released _ => isTrue trivial

theorem Ahead.meltOk {list : LockRecs} (h : Ahead list a) : MeltOk list a :=
  fun _ => ⟨h.not_crossing, h.not_slip⟩

theorem Quiet.careful {e : Event} (h : Quiet s e) : Careful s e := by
  cases e with
  | lock a => exact ⟨h.1.meltOk, h.2⟩
  | retract _ logAddr logLen => exact ⟨h.1.meltOk, fun _ => h.2⟩
  | unlock mandate _ _ tryAddr tryLen => exact h
  | resume i =>
    cases hi : s.tasks[i]? with
    | none => simp only [Careful, Sound, Owned, hi, and_self]
    | some u =>
      have hu := h u hi
      simp only [Careful, Sound, Owned, hi]
      cases u with
      | waiting a _ _ => exact ⟨hu.1.meltOk, fun hm => absurd hm hu.2⟩
      | lockAnswered a _ start stop specAddr specLen =>
        obtain ⟨hwrap, hquiet, hparts, hahead, hmand⟩ := hu
        exact ⟨⟨hwrap, fun t ht => (hahead t ht).meltOk⟩, hquiet.held, hparts,
          fun _ _ hm => absurd hm hmand⟩
      | retracted start stop => exact ⟨trivial, fun _ => hu.all⟩
      | opUnlock start stop _ => exact ⟨trivial, hu.all⟩
      | opLock _ _ _ _ _ | lockSent _ _ _ _ | unlockSent _ _ | unlockAnswered _ _ =>
        exact ⟨trivial, trivial⟩
  | answer _ _ _ _ | released _ => exact ⟨trivial, trivial⟩

/-- A range is given back to the lock manager, and a part of it is granted again to a client. -/
theorem cache_ownership_clients : ∃ s : Sys,
    s.list.records = [record 1 10 15 .read .none, record 1 15 18 .write .none,
      record 1 22 30 .write .none, removeDesc 0 40 42 true, record 2 42 46 .write .none,
      removeDesc 0 46 50 true] ∧ holds s.manager 41 = false ∧ holds s.manager 42 = true ∧
      Ownership s ∧ Represented s := by
  have hrun : (run step Quiet (fresh true) clients).map
      (fun s => (s.list.records, holds s.manager 41, holds s.manager 42)) =
      some ([record 1 10 15 .read .none, record 1 15 18 .write .none, record 1 22 30 .write .none,
        removeDesc 0 40 42 true, record 2 42 46 .write .none, removeDesc 0 46 50 true],
        false, true) := by
    decide +kernel
  obtain ⟨s, hs, heq⟩ := Option.map_eq_some_iff.mp hrun
  simp only [Prod.mk.injEq] at heq
  obtain ⟨hrecords, hgone, hheld⟩ := heq
  refine ⟨s, hrecords, hgone, hheld, cache_ownership (Reach.mono (fun _ _ => Quiet.careful) ?_)⟩
  exact (Reach.start (fresh_init _)).of_run hs

/-- A client takes a range back before `:>loop` sends its `$unlock`, and then the `$unlock` goes out
all the same. -/
theorem ownership_broken : ∃ s : Sys, Reach step Init anyEvent s ∧
    s.list.records = [record 1 0 10 .write .none] ∧ holds s.manager 0 = false ∧ ¬ Ownership s := by
  have hrun : (run step anyEvent (fresh true) [.retract 7 0 10, .lock (plain 1 0 10 .write .none),
      .answer 0 true 0 10, .resume 0, .resume 0, .released 0]).map
      (fun s => (s.list.records, holds s.manager 0, s.mand)) =
      some ([record 1 0 10 .write .none], false, 0) := by
    decide +kernel
  obtain ⟨s, hs, heq⟩ := Option.map_eq_some_iff.mp hrun
  simp only [Prod.mk.injEq] at heq
  obtain ⟨hrecords, hholds, hmand⟩ := heq
  refine ⟨s, (Reach.start (fresh_init _)).of_run hs, hrecords, hholds, ?_⟩
  intro h
  have := h (record 1 0 10 .write .none) (by simp [hrecords]) (by rw [hmand]; decide) 0 (by decide)
  rw [hholds] at this
  cases this

end Athomux.LockCache
