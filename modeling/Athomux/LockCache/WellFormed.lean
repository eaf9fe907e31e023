import Athomux.LockCache.InFlight

/-! # The list of the cache stays well formed -/

open Lib Athomux.LockList

namespace Athomux.LockCache

open LockMelt

variable {s t : Sys} {a : LockArgs} {loop : Bool} {A : List (Entry Tag)} {F : List Nat}

/-! ## Well-formed lists -/

/-- The links are consistent, the records are sorted, those of a mandate are disjoint, and each
record of the storage is in the list or free. -/
def WellFormed (s : Sys) : Prop :=
  ∃ A F, Lists s A F ∧ WF A ∧ A.length + F.length = maxLockRecords

/-- The entries and the free records are those of the list. -/
theorem Lists.wellFormed_iff (h : Lists s A F) :
    WellFormed s ↔ WF A ∧ A.length + F.length = maxLockRecords := by
  constructor
  · rintro ⟨B, G, hB, hwf, hlen⟩
    rw [← h.stores.rep.entries_eq, ← h.stores.rep.free_eq, hB.stores.rep.entries_eq,
      hB.stores.rep.free_eq]
    exact ⟨hwf, hlen⟩
  · rintro ⟨hwf, hlen⟩
    exact ⟨A, F, h, hwf, hlen⟩

theorem wellFormed_init (h : Init s) : WellFormed s := by
  obtain ⟨mand, all, desc, h⟩ := h
  obtain ⟨-, -, -, A, F, hlists, hwf, -, -, hlen⟩ := outputInit_spec h
  exact ⟨A, F, hlists, hwf, hlen⟩

/-! ## Operations on the list -/

/-- What is melted into the list is stretched over no other record, and each new record gets a
native lock. -/
def MeltFits (list : LockRecs) (a : LockArgs) : Prop :=
  Melts list a → ¬ Crossing list.entries (granted list a) ∧
    addCount (granted list a) list.entries ≤ list.lockImp.nFree

/-- The parts that are kept get a native lock, and no record goes over the gap of a range that
wraps. -/
def RemoveFits (list : LockRecs) (d : Desc) : Prop :=
  (d.start ≤ d.stop ∨ Passed d list.entries) ∧
    firstParts d list.entries ≤ list.lockImp.nFree

theorem Lists.search_iff (h : Lists s A F) (hwf : WF A) (hs : search s a loop = some t) :
    WellFormed t ↔ MeltFits s.list a ∧ A.length + F.length = maxLockRecords := by
  rcases search_cases hs with ⟨list, hmelts, hmelt, rfl⟩ | ⟨hno, hp⟩
  · obtain ⟨A', F', hres⟩ :=
      meltLockIntoList_spec True h.stores hwf hmelts.2.1 (fun _ => trivial) hmelt
    have hlists : Lists { s with list := list } A' F' := ⟨hres.stores, h.nodup⟩
    have hle := h.stores.rep.length_le
    have hle' := hres.stores.rep.length_le
    have hrecs := hres.records
    rw [(hlists.finish _ _ _).wellFormed_iff, MeltFits, h.stores.rep.entries_eq]
    constructor
    · rintro ⟨hwf', hlen⟩
      exact ⟨fun _ => ⟨hres.crossing hwf'.sorted, by omega⟩, by omega⟩
    · rintro ⟨hfits, hlen⟩
      obtain ⟨hcross, hcount⟩ := hfits hmelts
      exact ⟨hres.molten.wf hwf hcross, by omega⟩
  · rw [(h.parked hp).wellFormed_iff]
    constructor
    · exact fun h => ⟨fun hmelts => absurd hmelts hno, h.2⟩
    · exact fun h => ⟨hwf, h.2⟩

theorem Lists.remove_iff {d : Desc} {list : LockRecs} (h : Lists s A F) (hwf : WF A)
    (hlen : A.length + F.length = maxLockRecords) (hs : removeOwnLocks s.list d = some list) :
    WellFormed { s with list := list } ↔ RemoveFits s.list d := by
  rw [RemoveFits, h.stores.rep.entries_eq]
  by_cases hwrap : d.start ≤ d.stop ∨ Passed d A
  · obtain ⟨A', F', hst, hrem, -, hrecs⟩ :=
      removeOwnLocks_spec True h.stores hwf hwrap (fun _ => trivial) hs
    have hlists : Lists { s with list := list } A' F' := ⟨hst, h.nodup⟩
    rw [hlists.wellFormed_iff]
    constructor
    · rintro ⟨-, hlen'⟩
      exact ⟨hwrap, by omega⟩
    · rintro ⟨-, hparts⟩
      exact ⟨hrem.wf hwf, by omega⟩
  · rw [not_or, not_le] at hwrap
    obtain ⟨A', F', hst, hbad⟩ := removeOwnLocks_wrapped h.stores hwf hwrap.1 hwrap.2 hs
    have hlists : Lists { s with list := list } A' F' := ⟨hst, h.nodup⟩
    rw [hlists.wellFormed_iff]
    constructor
    · rintro ⟨hwf', hlen'⟩
      obtain ⟨e, he, f, hf, hne, hoe, hof, hover⟩ := hbad (hlen'.trans hlen.symm)
      exact absurd hover (hwf'.disjoint e he f hf hne (hoe.trans hof.symm))
    · rintro ⟨hle | hpass, -⟩
      · omega
      · exact absurd hpass hwrap.2

/-! ## Steps -/

/-- The condition of a `$lock` that begins. -/
def LockFits (list : LockRecs) (a : LockArgs) : Prop :=
  lockCheck a = true → noEffect a = false → MeltFits list a

/-- What the operations that a step makes on the list need. -/
def Fits (s : Sys) : Event → Prop
  | .lock a => LockFits s.list a
  | .retract mandate logAddr logLen =>
    mandate ≠ s.mand → LockFits s.list (retractArgs s.mand logAddr logLen)
  | .unlock mandate logAddr logLen tryAddr tryLen =>
    let desc := removeDesc mandate tryAddr (add64 tryAddr tryLen) true
    ¬ (logAddr < desc.start ∨ desc.stop < add64 logAddr logLen) → RemoveFits s.list desc
  | .resume i =>
    match s.tasks[i]? with
    | some (.waiting a _ _) => MeltFits s.list a
    | some (.lockAnswered a _ start stop specAddr specLen) =>
      (∀ t, removeManagerRec (s.drop i) .lock start stop = some t →
        RemoveFits t.list (removeDesc s.mand specAddr (add64 specAddr specLen) false)) ∧
      ∀ t, takeGrant (s.drop i) start stop specAddr specLen = some t → MeltFits t.list a
    | _ => True
  | _ => True

/-- The lock manager grants no range that goes past the last address. -/
def GrantValid (s : Sys) : Event → Prop
  | .resume i =>
    match s.tasks[i]? with
    | some (.lockAnswered _ _ _ _ specAddr specLen) => specAddr + specLen ≤ addrSpace
    | _ => True
  | _ => True

theorem Lists.lock_iff (h : Lists s A F) (hwf : WF A)
    (hlen : A.length + F.length = maxLockRecords) (hs : lock s a loop = some t) :
    WellFormed t ↔ LockFits s.list a := by
  have hself : WellFormed s := ⟨A, F, h, hwf, hlen⟩
  unfold lock at hs
  unfold LockFits
  split at hs
  · rename_i hcheck
    cases hs
    refine ⟨fun _ hc => ?_, fun _ => hself⟩
    rw [hc] at hcheck
    cases hcheck
  · rename_i hcheck
    split at hs
    · rename_i hnone
      cases hs
      refine ⟨fun _ _ hn => ?_, fun _ => (h.finish _ _ _).wellFormed_iff.mpr ⟨hwf, hlen⟩⟩
      rw [hnone] at hn
      cases hn
    · rename_i hnone
      rw [h.search_iff hwf hs]
      refine ⟨fun hfits _ _ => hfits.1, fun hfits => ⟨hfits ?_ ?_, hlen⟩⟩
      · simpa using hcheck
      · simpa using hnone

theorem Lists.drop (h : Lists s A F) (i : Nat) : Lists (s.drop i) A F := h.congr rfl rfl

theorem Lists.add (h : Lists s A F) (u : Task) : Lists (s.add u) A F := h.congr rfl rfl

theorem Lists.sendUnlock {start stop : Nat} (h : Lists s A F)
    (hs : sendUnlock s start stop = some t) : Lists t A F := by
  simp only [LockCache.sendUnlock, Option.map_eq_some_iff] at hs
  obtain ⟨s₁, hadd, rfl⟩ := hs
  exact (h.addManagerRec hadd).1.add _

/-- The grant of the lock manager is taken, and then `$lock` searches again. -/
theorem Lists.answered_iff {start stop specAddr specLen : Nat} (h : Lists s A F) (hwf : WF A)
    (hlen : A.length + F.length = maxLockRecords) (hvalid : specAddr + specLen ≤ addrSpace)
    (hs : resume s (.lockAnswered a loop start stop specAddr specLen) = some t) :
    WellFormed t ↔ (∀ t, LockCache.removeManagerRec s .lock start stop = some t →
        RemoveFits t.list (removeDesc s.mand specAddr (add64 specAddr specLen) false)) ∧
      ∀ t, LockCache.takeGrant s start stop specAddr specLen = some t → MeltFits t.list a := by
  simp only [resume, Option.bind_eq_some_iff] at hs
  obtain ⟨s₂, htake, hs⟩ := hs
  have htake' := htake
  simp only [takeGrant, Option.bind_eq_bind, Option.bind_eq_some_iff, Option.pure_def,
    Option.some.injEq] at htake
  obtain ⟨s₁, hrec, list, hrem, rfl⟩ := htake
  obtain ⟨h₁, hmand, -⟩ := h.removeManagerRec hrec
  rw [hmand] at hrem
  obtain ⟨A', F', hst, hrem', -, hrecs⟩ :=
    removeOwnLocks_spec True h₁.stores hwf (passed_or_le hvalid) (fun _ => trivial) hrem
  have hwf' := hrem'.wf hwf
  have h₂ : Lists { s₁ with list := list } A' F' := ⟨hst, h₁.nodup⟩
  rw [h₂.search_iff hwf' hs]
  have hfits := h₁.remove_iff hwf hlen hrem
  rw [h₂.wellFormed_iff] at hfits
  constructor
  · rintro ⟨hmelt, hlen'⟩
    refine ⟨?_, ?_⟩
    · intro t ht
      rw [hrec, Option.some.injEq] at ht
      subst ht
      exact hfits.mp ⟨hwf', hlen'⟩
    · intro t ht
      rw [htake', Option.some.injEq] at ht
      subst ht
      exact hmelt
  · rintro ⟨hremove, hmelt⟩
    exact ⟨hmelt _ htake', (hfits.mpr (hremove s₁ hrec)).2⟩

theorem Lists.resume_iff {i : Nat} {u : Task} (h : Lists s A F) (hwf : WF A)
    (hlen : A.length + F.length = maxLockRecords) (hi : s.tasks[i]? = some u)
    (hvalid : GrantValid s (.resume i)) (hs : resume (s.drop i) u = some t) :
    WellFormed t ↔ Fits s (.resume i) := by
  have hd := h.drop i
  have hself : ∀ {t}, Lists t A F → (WellFormed t ↔ True) := fun ht =>
    ⟨fun _ => trivial, fun _ => ⟨A, F, ht, hwf, hlen⟩⟩
  simp only [GrantValid, hi] at hvalid
  simp only [Fits, hi]
  cases u with
  | waiting a loop native =>
    rw [hd.search_iff hwf hs]
    exact ⟨And.left, fun hfits => ⟨hfits, hlen⟩⟩
  | opLock a loop start stop native =>
    simp only [resume, sendLock, Option.map_eq_some_iff] at hs
    obtain ⟨s₁, hadd, rfl⟩ := hs
    exact hself ((hd.addManagerRec hadd).1.add _)
  | lockSent a loop start stop => cases hs
  | lockAnswered a loop start stop specAddr specLen => exact hd.answered_iff hwf hlen hvalid hs
  | retracted start stop =>
    simp only [resume, release] at hs
    split at hs
    · cases hs
      exact hself (hd.add _)
    · exact hself (hd.sendUnlock hs)
  | opUnlock start stop native => exact hself (hd.sendUnlock hs)
  | unlockSent start stop => cases hs
  | unlockAnswered start stop => exact hself (hd.removeManagerRec hs).1

/-- **A step leaves the list well formed exactly when what it does to the list fits.** A record
that is stretched over another one is left in its place, a record that gets no native lock is
lost, and a record that goes over the gap of a range that wraps is kept twice there. -/
theorem list_well_formed {e : Event} (h : WellFormed s) (hvalid : GrantValid s e)
    (hs : step s e = some t) : WellFormed t ↔ Fits s e := by
  obtain ⟨A, F, hlists, hwf, hlen⟩ := h
  have hself : ∀ {t}, Lists t A F → (WellFormed t ↔ True) := fun ht =>
    ⟨fun _ => trivial, fun _ => ⟨A, F, ht, hwf, hlen⟩⟩
  cases e with
  | lock a => exact hlists.lock_iff hwf hlen hs
  | retract mandate logAddr logLen =>
    simp only [step] at hs
    split at hs
    · rename_i hne
      rw [hlists.lock_iff hwf hlen hs]
      exact ⟨fun hfits _ => hfits, fun hfits => hfits hne⟩
    · rename_i hne
      cases hs
      exact ⟨fun _ hm => absurd hm hne, fun _ => ⟨A, F, hlists, hwf, hlen⟩⟩
  | unlock mandate logAddr logLen tryAddr tryLen =>
    simp only [step, unlock] at hs
    split at hs
    · rename_i hout
      cases hs
      exact ⟨fun _ hin => absurd hout hin, fun _ => ⟨A, F, hlists, hwf, hlen⟩⟩
    · rename_i hin
      rw [Option.map_eq_some_iff] at hs
      obtain ⟨list, hrem, rfl⟩ := hs
      rw [hlists.remove_iff hwf hlen hrem]
      exact ⟨fun hfits _ => hfits, fun hfits => hfits hin⟩
  | answer i ok specAddr specLen =>
    simp only [step] at hs
    split at hs
    · split at hs
      · cases hs
        exact hself (hlists.congr rfl rfl)
      · cases hs
        exact hself (hlists.drop i)
    · cases hs
  | released i =>
    simp only [step] at hs
    split at hs
    · cases hs
      exact hself (hlists.congr rfl rfl)
    · cases hs
  | resume i =>
    simp only [step, Option.bind_eq_some_iff] at hs
    obtain ⟨u, hi, hs⟩ := hs
    exact hlists.resume_iff hwf hlen hi hvalid hs

/-! ## Runs on fixed inputs -/

theorem WellFormed.sorted (h : WellFormed s) :
    s.list.records.Pairwise fun d e => d.start ≤ e.start := by
  obtain ⟨A, F, hlists, hwf, -⟩ := h
  rw [hlists.stores.rep.records_eq, List.pairwise_map]
  exact hwf.sorted

theorem WellFormed.disjoint (h : WellFormed s) :
    s.list.records.Pairwise fun d e => d.tag.mandate = e.tag.mandate → ¬ d.Overlaps e := by
  obtain ⟨A, F, hlists, hwf, -⟩ := h
  rw [hlists.stores.rep.records_eq, List.pairwise_map]
  have hne : A.Pairwise fun e f => e.1 ≠ f.1 := List.pairwise_map.mp hlists.stores.rep.fst_nodup
  exact hne.imp_of_mem fun he hf => hwf.disjoint _ he _ hf

/-- A `$lock` of a mandate that has no lock yet. -/
def NewLock (s : Sys) : Event → Prop
  | .lock a => 0 < s.list.lockImp.nFree ∧ ∀ e ∈ s.list.entries, isOwn e.2 (granted s.list a) = false
  | _ => False

instance (s : Sys) : (e : Event) → Decidable (NewLock s e)
  | .lock _ => inferInstanceAs (Decidable (_ ∧ _))
  | .retract .. | .unlock .. | .answer .. | .released _ | .resume _ => .isFalse id

theorem lockFits_new (hfree : 0 < s.list.lockImp.nFree)
    (hno : ∀ e ∈ s.list.entries, isOwn e.2 (granted s.list a) = false) : LockFits s.list a := by
  intro _ _ hmelts
  have hown : ∀ e ∈ s.list.entries, ¬ Own (granted s.list a) e := by
    intro e he ho
    have := hno e he
    rw [own_iff.mpr ho] at this
    cases this
  have hpass : Passed (granted s.list a) s.list.entries := fun e he ho => absurd ho (hown e he)
  refine ⟨not_crossing fun e he ho => absurd ho (hown e he), ?_⟩
  rw [addCount, firstSplit, hpass.findEntry, meltCount_none hmelts.2.1 hpass]
  exact hfree

theorem wellFormed_new (h : Reach step Init NewLock s) : WellFormed s := by
  refine h.invariant (fun _ => wellFormed_init) ?_
  intro s e t hwf hok hs
  obtain ⟨A, F, hlists, hwf, hlen⟩ := hwf
  cases e with
  | lock a => exact (hlists.lock_iff hwf hlen hs).mpr (lockFits_new hok.1 hok.2)
  | retract _ _ _ | unlock _ _ _ _ _ | answer _ _ _ _ | released _ | resume _ =>
    exact absurd hok id

/-- What is asked of a melting in `clients`. -/
def MeltPlain (list : LockRecs) (a : LockArgs) : Prop :=
  Ahead list a ∧ addCount (granted list a) list.entries ≤ list.lockImp.nFree

instance (list : LockRecs) (a : LockArgs) : Decidable (MeltPlain list a) :=
  inferInstanceAs (Decidable (_ ∧ _))

theorem MeltPlain.fits {list : LockRecs} (h : MeltPlain list a) : MeltFits list a :=
  fun _ => ⟨h.1.not_crossing, h.2⟩

/-- What is asked of a removal in `clients`. -/
def RemovePlain (list : LockRecs) (d : Desc) : Prop :=
  d.start ≤ d.stop ∧ firstParts d list.entries ≤ list.lockImp.nFree

instance (list : LockRecs) (d : Desc) : Decidable (RemovePlain list d) :=
  inferInstanceAs (Decidable (_ ∧ _))

theorem RemovePlain.fits {list : LockRecs} {d : Desc} (h : RemovePlain list d) : RemoveFits list d :=
  ⟨Or.inl h.1, h.2⟩

/-- The grant that task `i` takes over fits. -/
def GrantPlain (s : Sys) (i : Nat) : Task → Prop
  | .waiting a _ _ => MeltPlain s.list a
  | .lockAnswered a _ start stop specAddr specLen => specAddr + specLen ≤ addrSpace ∧
      (∀ t ∈ removeManagerRec (s.drop i) .lock start stop,
        RemovePlain t.list (removeDesc s.mand specAddr (add64 specAddr specLen) false)) ∧
      ∀ t ∈ takeGrant (s.drop i) start stop specAddr specLen, MeltPlain t.list a
  | _ => True

instance (s : Sys) (i : Nat) : (u : Task) → Decidable (GrantPlain s i u)
  | .waiting a _ _ => inferInstanceAs (Decidable (MeltPlain s.list a))
  | .lockAnswered .. => inferInstanceAs (Decidable (_ ∧ _ ∧ _))
  | .opLock .. | .lockSent .. | .retracted .. | .opUnlock .. | .unlockSent .. | .unlockAnswered .. =>
    isTrue trivial

def Plain (s : Sys) : Event → Prop
  | .lock a => MeltPlain s.list a
  | .retract _ logAddr logLen => MeltPlain s.list (retractArgs s.mand logAddr logLen)
  | .unlock mandate _ _ tryAddr tryLen =>
    RemovePlain s.list (removeDesc mandate tryAddr (add64 tryAddr tryLen) true)
  | .resume i => ∀ u ∈ s.tasks[i]?, GrantPlain s i u
  | _ => True

instance (s : Sys) : (e : Event) → Decidable (Plain s e)
  | .lock a => inferInstanceAs (Decidable (MeltPlain s.list a))
  | .retract _ logAddr logLen =>
    inferInstanceAs (Decidable (MeltPlain s.list (retractArgs s.mand logAddr logLen)))
  | .unlock mandate _ _ tryAddr tryLen =>
    inferInstanceAs (Decidable (RemovePlain s.list
      (removeDesc mandate tryAddr (add64 tryAddr tryLen) true)))
  | .resume i => inferInstanceAs (Decidable (∀ u ∈ s.tasks[i]?, GrantPlain s i u))
  | .answer .. | .released _ => isTrue trivial

theorem Plain.valid {e : Event} (h : Plain s e) : GrantValid s e := by
  cases e with
  | resume i =>
    simp only [GrantValid]
    split
    · rename_i hu
      exact (h _ hu).1
    · trivial
  | lock _ | retract _ _ _ | unlock _ _ _ _ _ | answer _ _ _ _ | released _ => trivial

theorem Plain.fits {e : Event} (h : Plain s e) : Fits s e := by
  cases e with
  | lock a => exact fun _ _ => MeltPlain.fits h
  | retract _ logAddr logLen => exact fun _ _ _ => MeltPlain.fits h
  | unlock mandate _ _ tryAddr tryLen => exact fun _ => RemovePlain.fits h
  | resume i =>
    simp only [Fits]
    split
    · rename_i hu
      exact MeltPlain.fits (h _ hu)
    · rename_i hu
      obtain ⟨-, hremove, hmelt⟩ := h _ hu
      exact ⟨fun t ht => (hremove t ht).fits, fun t ht => (hmelt t ht).fits⟩
    · trivial
  | answer _ _ _ _ | released _ => trivial

/-- Records are split, stretched and cut out, and the list is well formed after each step. -/
theorem list_well_formed_clients : ∃ t : Sys,
    t.list.records = [record 1 10 15 .read .none, record 1 15 18 .write .none,
      record 1 22 30 .write .none, removeDesc 0 40 42 true, record 2 42 46 .write .none,
      removeDesc 0 46 50 true] ∧ WellFormed t := by
  have hrun : (run step Plain (fresh true) clients).map (fun t => t.list.records) =
      some [record 1 10 15 .read .none, record 1 15 18 .write .none, record 1 22 30 .write .none,
        removeDesc 0 40 42 true, record 2 42 46 .write .none, removeDesc 0 46 50 true] := by
    decide +kernel
  obtain ⟨t, ht, heq⟩ := Option.map_eq_some_iff.mp hrun
  have hreach : Reach step (· = fresh true) Plain t := reach_run ht
  refine ⟨t, heq, hreach.invariant ?_ fun s e u hwf hplain hs =>
    (list_well_formed hwf hplain.valid hs).mpr hplain.fits⟩
  rintro s rfl
  exact wellFormed_init (fresh_init true)

/-- A lock is stretched over the start of another one and stays behind it in the list. Or an
`$unlock` over a range that wraps keeps two parts of a lock that overlap. -/
theorem list_broken :
    (∃ s t : Sys, Reach step Init anyEvent s ∧ WellFormed s ∧
      step s (.lock (plain 1 40 160 .read .none)) = some t ∧ ¬ WellFormed t) ∧
    ∃ s t : Sys, Reach step Init anyEvent s ∧ WellFormed s ∧
      step s (.unlock 1 60 (addrSpace - 20) 60 (addrSpace - 20)) = some t ∧ ¬ WellFormed t := by
  have hrun : ((run step NewLock (fresh true) [.lock (plain 2 50 10 .read .none),
      .lock (plain 1 100 100 .read .none)]).bind fun s =>
        (step s (.lock (plain 1 40 160 .read .none))).map fun t => t.list.records.map
          LockDesc.start) = some [50, 40] := by
    decide +kernel
  have hrun' : ((run step NewLock (fresh true) [.lock (plain 1 10 90 .write .none)]).bind fun s =>
      (step s (.unlock 1 60 (addrSpace - 20) 60 (addrSpace - 20))).map fun t => t.list.records) =
        some [record 1 10 60 .write .none, record 1 40 100 .write .none] := by
    decide +kernel
  obtain ⟨s, hs, heq⟩ := Option.bind_eq_some_iff.mp hrun
  obtain ⟨t, ht, heq⟩ := Option.map_eq_some_iff.mp heq
  obtain ⟨s', hs', heq'⟩ := Option.bind_eq_some_iff.mp hrun'
  obtain ⟨t', ht', heq'⟩ := Option.map_eq_some_iff.mp heq'
  have hreach := (Reach.start (fresh_init true)).of_run hs
  have hreach' := (Reach.start (fresh_init true)).of_run hs'
  refine ⟨⟨s, t, hreach.mono fun _ _ _ => trivial, wellFormed_new hreach, ht, ?_⟩,
    s', t', hreach'.mono fun _ _ _ => trivial, wellFormed_new hreach', ht', ?_⟩
  · intro hwf
    have := List.pairwise_map.mpr hwf.sorted
    rw [heq] at this
    exact absurd this (by decide)
  · intro hwf
    have := hwf.disjoint
    rw [heq'] at this
    exact absurd this (by decide)

end Athomux.LockCache
