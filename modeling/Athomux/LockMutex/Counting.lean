import Athomux.LockMutex.Balance

/-!
# How many locks are left

`$unlock` takes one lock away at each address, as long as there is room for what it keeps.
-/

open Lib Athomux.LockList

namespace Athomux.LockMutex

variable {l : List Desc} {R : Desc} {lo hi k x n : Nat}

/-! ## One at each address -/

theorem typesAt_eq_zero (h : ∀ R ∈ l, ¬ R.Has x) : typesAt l x = 0 := by
  induction l with
  | nil => rfl
  | cons R l ih =>
    obtain ⟨hR, hl⟩ := List.forall_mem_cons.mp h
    rw [typesAt_cons, cover, if_neg hR, ih hl, add_zero]

theorem card_typesAt_cons :
    (typesAt (R :: l) x).card = (if R.Has x then 1 else 0) + (typesAt l x).card := by
  rw [typesAt_cons, cover, Multiset.card_add]
  split <;> rfl

/-- What is taken of a record when both parts are kept. -/
theorem card_cutOut {low up : Prop} [Decidable low] [Decidable up] (hlow : R.start < lo → low)
    (hup : hi < R.stop → up) :
    (cutOut lo hi low up R x).card = if R.Has x ∧ lo ≤ x ∧ x < hi then 1 else 0 := by
  unfold cutOut
  have hiff : (R.Has x ∧ ¬ (low ∧ x < lo) ∧ ¬ (up ∧ hi ≤ x)) ↔ R.Has x ∧ lo ≤ x ∧ x < hi := by
    constructor
    · rintro ⟨hx, hnlow, hnup⟩
      refine ⟨hx, Nat.le_of_not_lt fun hlt => ?_, Nat.lt_of_not_le fun hge => ?_⟩
      · exact hnlow ⟨hlow (hx.1.trans_lt hlt), hlt⟩
      · exact hnup ⟨hup (hge.trans_lt hx.2), hge⟩
    · rintro ⟨hx, hge, hlt⟩
      exact ⟨hx, fun h => Nat.not_lt.mpr hge h.2, fun h => Nat.not_lt.mpr h.2 hlt⟩
  by_cases h : R.Has x ∧ lo ≤ x ∧ x < hi
  · rw [if_pos (hiff.mpr h), if_pos h, Multiset.card_singleton]
  · rw [if_neg (hiff.not.mpr h), if_neg h, Multiset.card_zero]

/-- With a native lock for each part that is kept, one lock is taken at each address. -/
theorem card_gone (hsort : l.Pairwise fun d e => d.start ≤ e.start) (h : Fits hi lo k l) :
    (gone hi x lo k l).card = if lo ≤ x ∧ x < hi then min 1 (typesAt l x).card else 0 := by
  induction l generalizing lo k with
  | nil => exact (ite_self 0).symm
  | cons R l ih =>
    obtain ⟨hbefore, hsort⟩ := List.pairwise_cons.mp hsort
    -- Nothing of the rest starts below the record.
    have hbelow : x < R.start → (typesAt l x).card = 0 := by
      intro hlt
      rw [typesAt_eq_zero fun Q hQ hx => ?_, Multiset.card_zero]
      exact Nat.not_lt.mpr (hbefore Q hQ) (hx.1.trans_lt hlt)
    rw [card_typesAt_cons]
    rcases Nat.lt_or_ge lo R.stop with hstop | hstop
    · rcases Nat.lt_or_ge R.start hi with hstart | hstart
      · obtain ⟨hroom, hrest⟩ := (fits_take hstop hstart).mp h
        have hlow : R.start < lo → R.start < lo ∧ 0 < k := by
          intro hlt
          rw [if_pos hlt] at hroom
          exact ⟨hlt, by omega⟩
        have hup : hi < R.stop → hi < R.stop ∧ (if R.start < lo then 1 else 0) < k := by
          intro hlt
          rw [if_pos hlt] at hroom
          exact ⟨hlt, by omega⟩
        have hrest : (if R.stop < hi then gone hi x R.stop (k - (if R.start < lo then 1 else 0) + 1) l
            else 0).card = if R.stop ≤ x ∧ x < hi then min 1 (typesAt l x).card else 0 := by
          split
          · rename_i hin
            exact ih hsort (hrest hin)
          · rename_i hout
            rw [Multiset.card_zero, if_neg (by omega)]
        rw [gone_take hstop hstart, Multiset.card_add, card_cutOut hlow hup, hrest]
        by_cases hx : R.Has x
        · have := hx.1
          have := hx.2
          rw [if_neg (show ¬ (R.stop ≤ x ∧ x < hi) by omega)]
          simp only [hx, true_and, if_true]
          split_ifs <;> omega
        · have hout : x < R.start ∨ R.stop ≤ x := by
            unfold LockDesc.Has at hx
            omega
          simp only [hx, false_and, if_false]
          split_ifs <;> omega
      · have hout (hlt : x < hi) : ¬ R.Has x ∧ (typesAt l x).card = 0 :=
          ⟨fun hx => by have := hx.1; omega, hbelow (by omega)⟩
        rw [gone_stop hstop hstart, Multiset.card_zero]
        split
        · rename_i hx
          obtain ⟨hR, hzero⟩ := hout hx.2
          rw [if_neg hR, hzero]
          rfl
        · rfl
    · rw [gone_skip hstop, ih hsort ((fits_skip hstop).mp h)]
      split
      · rename_i hx
        have hR : ¬ R.Has x := fun h => by
          have := h.2
          omega
        rw [if_neg hR, zero_add]
      · rfl

/-- If nothing outside of the range is taken, there is a native lock for each part. -/
theorem fits_of_gone (hle : lo ≤ hi) (h : ∀ x, ¬ (lo ≤ x ∧ x < hi) → gone hi x lo k l = 0) :
    Fits hi lo k l := by
  induction l generalizing lo k with
  | nil => trivial
  | cons R l ih =>
    rcases Nat.lt_or_ge lo R.stop with hstop | hstop
    · rcases Nat.lt_or_ge R.start hi with hstart | hstart
      · have hcut : ∀ x, ¬ (lo ≤ x ∧ x < hi) → R.Has x →
            (R.start < lo ∧ 0 < k) ∧ x < lo ∨
              (hi < R.stop ∧ (if R.start < lo then 1 else 0) < k) ∧ hi ≤ x := by
          intro x hx hhas
          by_contra hnot
          have hzero := h x hx
          rw [gone_take hstop hstart, cutOut, if_pos ⟨hhas, not_or.mp hnot⟩] at hzero
          exact absurd (congrArg Multiset.card hzero) (by simp)
        have hroom : (if R.start < lo then 1 else 0) + (if hi < R.stop then 1 else 0) ≤ k := by
          have hlow := hcut R.start
          have hup := hcut hi
          unfold LockDesc.Has at hlow hup
          split_ifs at hlow hup ⊢ <;> omega
        refine (fits_take hstop hstart).mpr ⟨hroom, fun hin => ih hin.le fun x hx => ?_⟩
        by_cases hlo : lo ≤ x ∧ x < hi
        · exact gone_below (Nat.succ_pos _) (by omega)
        · have hzero := congrArg Multiset.card (h x hlo)
          rw [gone_take hstop hstart, if_pos hin, Multiset.card_add, Multiset.card_zero] at hzero
          exact Multiset.card_eq_zero.mp (Nat.eq_zero_of_add_eq_zero_left hzero)
      · exact fits_stop hstop hstart
    · refine (fits_skip hstop).mpr (ih hle fun x hx => ?_)
      have hzero := h x hx
      rwa [gone_skip hstop] at hzero

/-! ## `$unlock` -/

/-- One record less at each address of the range that has one, and nothing else. -/
def Drops (l l' : List Desc) (lo hi : Nat) : Prop :=
  (∀ x, lo ≤ x → x < hi → (typesAt l' x).card = (typesAt l x).card - 1) ∧
    ∀ x, ¬ (lo ≤ x ∧ x < hi) → typesAt l' x = typesAt l x

/-- The parts that are kept get a record and a native lock each. -/
def Suffices (s : State) (lo hi : Nat) : Prop :=
  Fits hi lo s.free.length s.records ∧ Fits hi lo s.lockImp.nFree s.records

variable {s t : State} {A : List (Entry LockType)} {F : List Nat}
  {logAddr logLen tryAddr tryLen : Nat}

theorem Solid.drops_iff (h : Solid s A F) (hwrap : tryAddr + tryLen < addrSpace)
    (hin : Within logAddr logLen tryAddr tryLen)
    (hs : LockMutex.unlock s logAddr logLen tryAddr tryLen = some t) :
    Drops s.records t.records tryAddr (tryAddr + tryLen) ↔
      Fits (tryAddr + tryLen) tryAddr s.lockImp.nFree s.records := by
  obtain ⟨C, F', hC, htypes⟩ := h.unlock hs
  have hsort : (descs A).Pairwise fun d e => d.start ≤ e.start := List.pairwise_map.mpr h.sorted
  have hbefore : s.records = descs A := h.stores.rep.records_eq
  have hafter : t.records = descs C := hC.stores.rep.records_eq
  rw [add64_eq hwrap, ← hbefore, ← hafter] at htypes
  rw [← hbefore] at hsort
  have htypes := htypes (Nat.le_add_right _ _) hin
  constructor
  · rintro ⟨-, hout⟩
    refine fits_of_gone (Nat.le_add_right _ _) fun x hx => ?_
    have hsame := htypes x
    rw [hout x hx] at hsame
    exact right_eq_add.mp hsame
  · intro hfits
    have hcard (x : Nat) := card_gone (x := x) hsort hfits
    refine ⟨fun x hge hlt => ?_, fun x hx => ?_⟩
    · have hall := congrArg Multiset.card (htypes x)
      rw [Multiset.card_add, hcard, if_pos ⟨hge, hlt⟩] at hall
      omega
    · have hnone := hcard x
      rw [if_neg hx] at hnone
      rw [htypes x, Multiset.card_eq_zero.mp hnone, zero_add]

theorem Solid.unlock_drops (h : Solid s A F) (hwrap : tryAddr + tryLen < addrSpace)
    (hin : Within logAddr logLen tryAddr tryLen) :
    (∃ t, LockMutex.unlock s logAddr logLen tryAddr tryLen = some t ∧
      Drops s.records t.records tryAddr (tryAddr + tryLen)) ↔
        Suffices s tryAddr (tryAddr + tryLen) := by
  have hsome := h.unlock_some hin
  have hrecords : s.records = descs A := h.stores.rep.records_eq
  rw [add64_eq hwrap, ← hrecords] at hsome
  unfold Suffices
  rw [h.stores.rep.free_eq]
  constructor
  · rintro ⟨t, ht, hdrops⟩
    exact ⟨hsome.mp ⟨t, ht⟩, (h.drops_iff hwrap hin ht).mp hdrops⟩
  · rintro ⟨hfits, hnatives⟩
    obtain ⟨t, ht⟩ := hsome.mpr hfits
    exact ⟨t, ht, (h.drops_iff hwrap hin ht).mpr hnatives⟩

/-! ## Whole runs -/

/-- How many locks an answer of `$lock` adds at `x`. -/
def added (a : LockArgs) (x : Nat) : Option LockAnswer → Nat
  | some (.granted _ start len) =>
    if a.action ≠ .ask ∧ (⟨a.dataLock, a.addrLock⟩ : LockType) ≠ noType ∧ start ≤ x ∧
      x < add64 start len then 1 else 0
  | _ => 0

@[simp] theorem added_granted (a : LockArgs) (x start len : Nat) (t : State) :
    added a x (some (.granted t start len)) =
      if a.action ≠ .ask ∧ (⟨a.dataLock, a.addrLock⟩ : LockType) ≠ noType ∧ start ≤ x ∧
        x < add64 start len then 1 else 0 := rfl

/-- The balance of `$lock` and `$unlock` at `x` after an event, with `n` before it. -/
def balance (s : Sys) (x n : Nat) : Event → Nat
  | .lock a => n + added a x (lock s.state a)
  | .woken i =>
    match s.waiting[i]? with
    | some a => n + added a x (lockWoken s.state a)
    | none => n
  | .unlock _ _ tryAddr tryLen => if tryAddr ≤ x ∧ x < tryAddr + tryLen then n - 1 else n

/-- A `$lock` that gets something finds a native lock, and an `$unlock` has room for what it
keeps. -/
def Enough (s : Sys) : Event → Prop
  | .lock a => ∀ x, 0 < added a x (lock s.state a) → 0 < s.state.lockImp.nFree
  | .woken i => ∀ a, s.waiting[i]? = some a →
    ∀ x, 0 < added a x (lockWoken s.state a) → 0 < s.state.lockImp.nFree
  | .unlock logAddr logLen tryAddr tryLen => tryAddr + tryLen < addrSpace ∧
      Within logAddr logLen tryAddr tryLen ∧ Suffices s.state tryAddr (tryAddr + tryLen)

/-- A run, with the balance at `x`. -/
inductive Balanced (x : Nat) : Sys → Nat → Prop
  | start {s : Sys} : Init s → Balanced x s 0
  | next {s t : Sys} {n : Nat} {e : Event} : Balanced x s n → Enough s e → step s e = some t →
      Balanced x t (balance s x n e)

variable {u v : Sys} {a : LockArgs} {e : Event}

theorem Balanced.reach (h : Balanced x u n) : Reach step Init anyEvent u := by
  induction h with
  | start h0 => exact .start h0
  | next _ _ hs ih => exact .next ih trivial hs

/-- A `$lock` that is granted adds what it says. -/
theorem SolidSys.card_granted {start len : Nat} (h : SolidSys u) (hs : Grants u a t start len)
    (hfree : ∀ x, 0 < added a x (some (.granted t start len)) → 0 < u.state.lockImp.nFree) :
    (typesAt t.records x).card =
      (typesAt u.state.records x).card + added a x (some (.granted t start len)) := by
  obtain ⟨A, F, hA⟩ := h.solid
  obtain ⟨B, F', hB, -, hafter⟩ := h.grants hA hs
  rw [hA.stores.rep.records_eq, hB.stores.rep.records_eq]
  change (typesAt (descs B) x).card = (typesAt (descs A) x).card + _
  simp only [added_granted] at hfree ⊢
  cases hafter with
  | locked hlocked =>
    rw [typesAt_ins, Multiset.card_add, Nat.add_comm, cover]
    have hiff : (⟨start, add64 start len, ⟨a.dataLock, a.addrLock⟩⟩ : Desc).Has x ↔
        a.action ≠ .ask ∧ (⟨a.dataLock, a.addrLock⟩ : LockType) ≠ noType ∧ start ≤ x ∧
          x < add64 start len :=
      ⟨fun hx => ⟨hlocked.2.1, hlocked.2.2.1, hx.1, hx.2⟩, fun hx => hx.2.2⟩
    simp only [hiff]
    split <;> rfl
  | same hnot =>
    rw [if_neg, Nat.add_zero]
    intro hx
    have hpos := hfree x
    rw [if_pos hx] at hpos
    exact hnot ⟨hx.2.2.1.trans_lt hx.2.2.2, hx.1, hx.2.1, hpos Nat.one_pos⟩

/-- One event changes the number of locks as it changes the balance. -/
theorem SolidSys.balance_step (h : SolidSys u) (hok : Enough u e) (hs : step u e = some v) :
    (typesAt v.state.records x).card = balance u x (typesAt u.state.records x).card e := by
  cases e with
  | lock a =>
    simp only [step, Option.map_eq_some_iff] at hs
    obtain ⟨answer, hlock, rfl⟩ := hs
    rw [Enough, hlock] at hok
    rw [balance, hlock]
    cases answer with
    | granted t start len => exact h.card_granted (Or.inl hlock) hok
    | refused => rfl
    | wait => rfl
  | woken i =>
    simp only [step, Option.bind_eq_some_iff, Option.map_eq_some_iff] at hs
    obtain ⟨a, ha, answer, hlock, rfl⟩ := hs
    have hok := hok a ha
    rw [hlock] at hok
    simp only [balance, ha, hlock]
    cases answer with
    | granted t start len => exact h.card_granted (Or.inr ⟨List.mem_of_getElem? ha, hlock⟩) hok
    | refused => rfl
    | wait => rfl
  | unlock logAddr logLen tryAddr tryLen =>
    simp only [step, Option.map_eq_some_iff] at hs
    obtain ⟨t, hunlock, rfl⟩ := hs
    obtain ⟨hwrap, hin, hroom⟩ := hok
    obtain ⟨A, F, hA⟩ := h.solid
    obtain ⟨hinside, houtside⟩ := (hA.drops_iff hwrap hin hunlock).mpr hroom.2
    rw [balance]
    split
    · rename_i hx
      exact hinside x hx.1 hx.2
    · rename_i hx
      exact congrArg Multiset.card (houtside x hx)

theorem Balanced.card_eq (h : Balanced x u n) : (typesAt u.state.records x).card = n := by
  induction h with
  | start h0 =>
    obtain ⟨⟨desc, hstate⟩, -⟩ := h0
    rw [hstate, (stores_init desc).rep.records_eq]
    rfl
  | next hprev hok hs ih => rw [(solidSys_reach hprev.reach).balance_step hok hs, ih]

/-! ## Many readers -/

def reader : LockArgs := ⟨10, 10, 10, 10, .read, .none, .try⟩

def readLock : Desc := ⟨10, 20, ⟨.read, .none⟩⟩

/-- `k` readers have a lock on the same range. -/
structure Readers (s : State) (k : Nat) (A : List (Entry LockType)) (F : List Nat) : Prop where
  solid : Solid s A F
  same : ∀ e ∈ A, e.2 = readLock
  length : A.length = k
  free : s.lockImp.nFree + k = nNativeLocks
  records : F.length + k = maxLockRecords

theorem Readers.grant {r : Nat} (h : Readers s r A F) (hr : r < nNativeLocks) :
    ∃ t B F', lock s reader = some (.granted t 10 10) ∧ Readers t (r + 1) B F' := by
  have hfree := h.free
  have hrecords := h.records
  have hclear : Clear isConflict A reader.obl := by
    intro e he _
    rw [h.same e he]
    decide
  have hfirst : s.findFirstLock reader.obl isConflict = none := by
    rw [h.solid.stores.rep.findFirstLock, Option.map_eq_none_iff]
    cases hfind : Rep.findEntry reader.obl isConflict A with
    | none => rfl
    | some e =>
      obtain ⟨X, Z, rfl, hover, hconf, -⟩ := findEntry_some hfind
      have hnot := hclear e (by simp) hover
      rw [hnot] at hconf
      cases hconf
  have hdesc : s.cutOptional reader.obl reader.opt isConflict = readLock := by
    have hbetween : Between reader.obl reader.opt reader.obl := by constructor <;> decide
    obtain ⟨h, -⟩ := cutOptional_spec tagOnly_isConflict h.solid.stores.rep h.solid.sorted hbetween
      rfl hclear
    generalize s.cutOptional reader.obl reader.opt isConflict = desc at h
    obtain ⟨start, stop, tag⟩ := desc
    obtain rfl : start = 10 := Nat.le_antisymm h.leStart h.startLe
    obtain rfl : stop = 20 := Nat.le_antisymm h.stopLe h.leStop
    obtain rfl : tag = ⟨.read, .none⟩ := h.tag
    rfl
  obtain ⟨t, ht⟩ := (h.solid.addNew_if_some (c := True) (d := readLock)).mpr (by
    rw [if_pos trivial]
    unfold nNativeLocks at hr
    unfold maxLockRecords at hrecords
    omega)
  rw [if_pos trivial] at ht
  have hgrant : LockMutex.grant s reader = some (.granted t 10 10) := by
    rw [LockMutex.grant, hdesc]
    simp only [if_pos (show readLock.start < readLock.stop ∧ reader.action ≠ .ask by decide), ht]
    rfl
  have hlock : lock s reader = some (.granted t 10 10) := by
    rw [lock, if_neg (by decide), if_neg (by decide), hfirst]
    exact hgrant
  obtain ⟨B, F', hB, -, hafter⟩ := h.solid.grant (by decide) (by decide) hfirst hgrant
  refine ⟨t, B, F', hlock, ?_⟩
  cases hafter with
  | locked _ hnatives hF =>
    refine ⟨hB, fun e he => ?_, ?_, ?_, ?_⟩
    · rcases mem_ins.mp he with rfl | he
      · rfl
      · exact h.same e he
    · rw [(perm_ins _ _).length_eq, List.length_cons, h.length]
    · omega
    · omega
  | same hnot =>
    refine absurd ⟨by decide, by decide, by decide, ?_⟩ hnot
    omega

theorem exists_readers {k : Nat} (hk : k ≤ nNativeLocks) : ∃ s A F, Reach step Init anyEvent s ∧
    s.waiting = [] ∧ Readers s.state k A F := by
  induction k with
  | zero =>
    refine ⟨fresh, [], List.range maxLockRecords, .start ⟨⟨_, rfl⟩, rfl⟩, rfl, ?_⟩
    exact ⟨⟨stores_init _, List.Pairwise.nil, by simp⟩, by simp, rfl, LockNative.nFree_init,
      by rw [List.length_range, Nat.add_zero]⟩
  | succ k ih =>
    obtain ⟨s, A, F, hs, hwaiting, h⟩ := ih (Nat.le_of_succ_le hk)
    obtain ⟨t, B, F', hlock, hB⟩ := h.grant hk
    refine ⟨⟨t, s.waiting⟩, B, F', hs.next (e := .lock reader) trivial ?_, hwaiting, hB⟩
    rw [step, hlock]
    rfl

/-- **`$unlock` takes one lock at each address of its range if and only if there is room for what
is kept, and then a run leaves as many locks at an address as its balance says.** -/
theorem unlock_counts (x : Nat) (s : Sys) :
    (∀ logAddr logLen tryAddr tryLen : Nat, Reach step Init anyEvent s →
      tryAddr + tryLen < addrSpace → Within logAddr logLen tryAddr tryLen →
        ((∃ t, unlock s.state logAddr logLen tryAddr tryLen = some t ∧
          Drops s.state.records t.records tryAddr (tryAddr + tryLen)) ↔
            Suffices s.state tryAddr (tryAddr + tryLen))) ∧
    ∀ n : Nat, Balanced x s n → (typesAt s.state.records x).card = n := by
  refine ⟨fun logAddr logLen tryAddr tryLen hs hwrap hin => ?_, fun n h => h.card_eq⟩
  obtain ⟨A, F, hA⟩ := (solidSys_reach hs).solid
  exact hA.unlock_drops hwrap hin

/-- With 128 readers there is no native lock left, and what is kept of the lock below the range is
lost. -/
theorem unlock_loses_part : ∃ (s : Sys) (t : State), Reach step Init anyEvent s ∧
    unlock s.state 14 2 14 2 = some t ∧ ¬ Drops s.state.records t.records 14 16 := by
  obtain ⟨s, A, F, hs, -, h⟩ := exists_readers (k := 128) (by decide)
  have hfree := h.free
  have hrecords := h.records
  unfold nNativeLocks at hfree
  unfold maxLockRecords at hrecords
  have hin : Within 14 2 14 2 := by constructor <;> decide
  obtain ⟨e, B, rfl⟩ : ∃ e B, A = e :: B := List.exists_cons_of_length_eq_add_one h.length
  have hlist : descs (e :: B) = readLock :: descs B := by
    rw [descs, List.map_cons, h.same e List.mem_cons_self]
    rfl
  have hfits (f : Nat) : Fits 16 14 f (descs (e :: B)) ↔ 2 ≤ f := by
    rw [hlist, fits_take (by decide) (by decide), if_pos (by decide), if_pos (by decide)]
    exact and_iff_left fun h => absurd h (by decide)
  obtain ⟨t, ht⟩ := (h.solid.unlock_some hin).mpr ((hfits _).mpr (by omega))
  refine ⟨s, t, hs, ht, fun hdrops => ?_⟩
  have hnatives := (h.solid.drops_iff (by decide) hin ht).mp hdrops
  rw [h.solid.stores.rep.records_eq] at hnatives
  have := (hfits _).mp hnatives
  omega

/-- One reader gives back a part of its lock, and one is still there. -/
theorem unlock_counts_reader : ∃ s : Sys,
    (∃ t, unlock s.state 14 2 14 2 = some t ∧ Drops s.state.records t.records 14 16) ∧
      (typesAt s.state.records 14).card = 1 := by
  obtain ⟨t, B, F', hlock, h⟩ := Readers.grant (s := fresh.state) (r := 0)
    ⟨⟨stores_init _, List.Pairwise.nil, by simp⟩, by simp, rfl, LockNative.nFree_init,
      by rw [List.length_range, Nat.add_zero]⟩ (by decide)
  have hstep : step fresh (.lock reader) = some ⟨t, []⟩ := by
    rw [step, hlock]
    rfl
  have hfresh : Init fresh := ⟨⟨_, rfl⟩, rfl⟩
  have hnatives : 0 < fresh.state.lockImp.nFree := LockNative.nFree_init.trans_gt (by decide)
  have hbalanced : Balanced 14 ⟨t, []⟩ 1 := by
    have := Balanced.next (x := 14) (.start hfresh) (e := .lock reader) (fun _ _ => hnatives) hstep
    rwa [balance, hlock] at this
  refine ⟨⟨t, []⟩, ((unlock_counts 14 _).1 14 2 14 2 ((Reach.start hfresh).next trivial hstep) (by decide)
    (by constructor <;> decide)).mpr ?_, (unlock_counts 14 _).2 1 hbalanced⟩
  have hfree := h.free
  have hrecords := h.records
  unfold nNativeLocks at hfree
  unfold maxLockRecords at hrecords
  obtain ⟨e, rfl⟩ := List.length_eq_one_iff.mp h.length
  have hlist : t.records = [readLock] := by
    rw [h.solid.stores.rep.records_eq, List.map_singleton, h.same e List.mem_cons_self]
  have hfits (f : Nat) : Fits 16 14 f [readLock] ↔ 2 ≤ f := by
    rw [fits_take (by decide) (by decide), if_pos (by decide), if_pos (by decide)]
    exact and_iff_left fun h => absurd h (by decide)
  rw [Suffices, hlist, h.solid.stores.rep.free_eq]
  exact ⟨(hfits _).mpr (by omega), (hfits _).mpr (show 2 ≤ t.lockImp.nFree by omega)⟩

end Athomux.LockMutex
