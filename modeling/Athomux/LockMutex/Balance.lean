import Athomux.LockList.Cut
import Athomux.LockList.Natives
import Athomux.LockMutex.Proofs
import Athomux.LockMutex.Stack

/-! # What a lock and its `$unlock` leave behind -/

open Lib Athomux.LockList

namespace Athomux.LockMutex

/-! ## The invariant -/

/-- The list is sorted, and every record in it locks something. -/
structure Solid (s : State) (A : List (Entry LockType)) (F : List Nat) : Prop where
  stores : Stores s A F ∅
  sorted : Sorted A
  proper : ∀ e ∈ A, Proper e.2

def descs (A : List (Entry LockType)) : List Desc := A.map Prod.snd

variable {s s1 s2 t : State} {A X Y : List (Entry LockType)} {F : List Nat} {lo hi : Nat}

theorem typesAt_ins (e : Entry LockType) (A : List (Entry LockType)) (x : Nat) :
    typesAt (descs (ins e A)) x = cover e.2 x + typesAt (descs A) x := by
  rw [← typesAt_cons]
  exact typesAt_perm ((perm_ins e A).map Prod.snd) x

theorem typesAt_split (e : Entry LockType) (x : Nat) :
    typesAt (descs (X ++ e :: Y)) x = cover e.2 x + typesAt (descs (X ++ Y)) x := by
  rw [← typesAt_cons]
  exact typesAt_perm (List.perm_middle.map Prod.snd) x

theorem eq_add_of_parts {cut low up m m' : Multiset LockType}
    (h : cut + (low + up) + m' = up + (low + m)) : m = cut + m' := by
  apply add_left_cancel (a := up + low)
  calc up + low + m = up + (low + m) := add_assoc ..
    _ = cut + (low + up) + m' := h.symm
    _ = up + low + (cut + m') := by ac_rfl

/-- What is kept of a lock when `c` holds, if there is a native lock for it. -/
theorem Solid.addNew_if {c : Prop} [Decidable c] {d : Desc} (h : Solid s A F) (hd : c → Proper d)
    (hs : (if c then s.addNew d else some s) = some t) :
    ∃ q A' F', Solid t A' F' ∧ (A' = ins (q, d) A ∨ A' = A) ∧ (¬ c → A' = A) ∧
      t.lockImp.nFree = s.lockImp.nFree - (if c then 1 else 0) ∧
      F.length = F'.length + (if c then 1 else 0) ∧ ∀ x, typesAt (descs A') x =
        (if c ∧ 0 < s.lockImp.nFree then cover d x else 0) + typesAt (descs A) x := by
  obtain ⟨q, A', F', hst, hA', hfree, hlen, -⟩ := h.stores.addNew_if hs
  rcases hA' with ⟨hc, hpos, -, rfl⟩ | ⟨rfl, hfull⟩
  · refine ⟨q, _, F', ⟨hst, h.sorted.ins _, ?_⟩, Or.inl rfl, fun hn => absurd hc hn, hfree,
      hlen, ?_⟩
    · intro e he
      rcases mem_ins.mp he with rfl | he
      · exact hd hc
      · exact h.proper e he
    · intro x
      rw [typesAt_ins, if_pos ⟨hc, hpos⟩]
  · refine ⟨q, A', F', ⟨hst, h.sorted, h.proper⟩, Or.inr rfl, fun _ => rfl, hfree, hlen,
      fun x => ?_⟩
    rw [if_neg (by rintro ⟨hc, hpos⟩; exact absurd (hfull hc) (Nat.pos_iff_ne_zero.mp hpos)),
      zero_add]

theorem Solid.addNew_if_some {c : Prop} [Decidable c] {d : Desc} (h : Solid s A F) :
    (∃ t, (if c then s.addNew d else some s) = some t) ↔ (if c then 1 else 0) ≤ F.length := by
  have hnone := h.stores.rep.newLockRec_eq_none
  by_cases hc : c
  · simp only [if_pos hc, LockList.addNew, Option.bind_eq_bind, Option.pure_def]
    cases hnew : s.newLockRec with
    | none =>
      rw [hnone.mp hnew]
      simp
    | some p =>
      have hF : F ≠ [] := fun hF => by
        rw [hnone.mpr hF] at hnew
        cases hnew
      have hpos : 1 ≤ F.length := List.length_pos_iff.mpr hF
      simpa using hpos
  · simp only [if_neg hc, Nat.zero_le, iff_true]
    exact ⟨s, rfl⟩

/-! ## The loop of `$unlock` -/

/-- One turn of the loop: a record away, what is left of it back in. -/
theorem Solid.turn {r : Nat} {R : Desc} (h : Solid s (X ++ (r, R) :: Y) F)
    (hover : R.start < hi ∧ lo < R.stop) (hs1 : s.keepLower r lo = some s1)
    (hs2 : s1.keepUpper r hi = some s2) :
    ∃ A' F', Solid ((s2.removeLockRec r).freeLockRec r) A' F' ∧ s2.desc r = R ∧
      (R.stop ≤ hi → (∃ X', A' = X' ++ Y) ∧ ((s2.removeLockRec r).freeLockRec r).lockImp.nFree =
        s.lockImp.nFree - (if R.start < lo then 1 else 0) + 1 ∧
        F'.length = F.length - (if R.start < lo then 1 else 0) + 1) ∧
      (lo ≤ hi → ∀ x, typesAt (descs (X ++ (r, R) :: Y)) x =
        cutOut lo hi (R.start < lo ∧ 0 < s.lockImp.nFree)
          (hi < R.stop ∧ (if R.start < lo then 1 else 0) < s.lockImp.nFree) R x +
        typesAt (descs A') x) := by
  have hR : Proper R := h.proper (r, R) (by simp)
  have hlow : R.start < lo → Proper { R with stop := lo } := fun hc => ⟨hc, hR.tag⟩
  have hup : hi < R.stop → Proper { R with start := hi } := fun hc => ⟨hc, hR.tag⟩
  have hdesc : s.desc r = R := h.stores.rep.desc (r, R) (by simp)
  rw [keepLower_eq, hdesc] at hs1
  obtain ⟨q1, A1, F1, h1, hA1, -, hfree1, hlen1, htypes1⟩ := h.addNew_if hlow hs1
  -- What is kept below goes in before the record.
  obtain ⟨X1, rfl⟩ : ∃ X1, A1 = X1 ++ (r, R) :: Y := by
    rcases hA1 with rfl | rfl
    · have hle : startLe (q1, { R with stop := lo }) (r, R) := Nat.le_refl R.start
      exact ⟨_, ins_append hle X Y⟩
    · exact ⟨X, rfl⟩
  have hdesc1 : s1.desc r = R := h1.stores.rep.desc (r, R) (by simp)
  rw [keepUpper_eq, hdesc1] at hs2
  obtain ⟨q2, A2, F2, h2, hA2, hsame, hfree2, hlen2, htypes2⟩ := h1.addNew_if hup hs2
  have hmem : (r, R) ∈ A2 := by
    rcases hA2 with rfl | rfl
    · exact mem_ins.mpr (Or.inr (by simp))
    · simp
  obtain ⟨U, V, rfl⟩ := List.append_of_mem hmem
  obtain ⟨hU, hV⟩ := h2.stores.rep.split_not_mem
  obtain ⟨hst, hfree⟩ := h2.stores.removeFree (List.mem_map_of_mem hmem)
  rw [del_split hU hV] at hst
  have hsub : (U ++ V).Sublist (U ++ (r, R) :: V) :=
    List.Sublist.append_left (List.sublist_cons_self _ _) U
  refine ⟨U ++ V, r :: F2, ⟨hst, h2.sorted.sublist hsub, fun e he => h2.proper e (hsub.subset he)⟩,
    h2.stores.rep.desc (r, R) hmem, ?_, ?_⟩
  · intro hle
    obtain ⟨hX1, hY⟩ := h1.stores.rep.split_not_mem
    have heq := congrArg (del r) (hsame (Nat.not_lt.mpr hle))
    rw [del_split hU hV, del_split hX1 hY] at heq
    refine ⟨⟨X1, heq⟩, ?_, ?_⟩
    · rw [hfree, hfree2, if_neg (Nat.not_lt.mpr hle), hfree1]
      rfl
    · rw [if_neg (Nat.not_lt.mpr hle)] at hlen2
      rw [List.length_cons]
      omega
  · intro hle x
    have hcover := cover_eq_cutOut (R.start < lo ∧ 0 < s.lockImp.nFree)
      (hi < R.stop ∧ (if R.start < lo then 1 else 0) < s.lockImp.nFree) hle hover.1 hover.2 x
    have hall := htypes2 x
    simp only [hfree1, Nat.sub_pos_iff_lt] at hall
    rw [htypes1, typesAt_split (r, R), hcover] at hall
    exact eq_add_of_parts hall

/-- The loop takes `gone` away. -/
theorem Solid.loop {fuel : Nat} {tag : LockType} (h : Solid s (X ++ Y) F) (hfuel : Y.length < fuel)
    (hs : unlockLoop fuel s ⟨lo, hi, tag⟩
      ((Rep.findEntry ⟨lo, hi, tag⟩ isOwn Y).map Prod.fst) = some t) :
    ∃ C F', Solid t C F' ∧ (lo ≤ hi → ∀ x, typesAt (descs (X ++ Y)) x =
      gone hi x lo s.lockImp.nFree (descs Y) + typesAt (descs C) x) := by
  induction Y generalizing fuel s X F lo with
  | nil =>
    obtain ⟨fuel, rfl⟩ : ∃ k, fuel = k + 1 := ⟨fuel - 1, by simp at hfuel; omega⟩
    cases hs
    exact ⟨_, F, h, fun _ x => (zero_add _).symm⟩
  | cons e Y ih =>
    obtain ⟨r, R⟩ := e
    obtain ⟨fuel, rfl⟩ : ∃ k, fuel = k + 1 := ⟨fuel - 1, by simp at hfuel; omega⟩
    rw [Rep.findEntry] at hs
    have hgone : ∀ k x, gone hi x lo k (descs ((r, R) :: Y)) = gone hi x lo k (R :: descs Y) :=
      fun k x => rfl
    split at hs
    · rename_i hstop
      split at hs
      · rename_i hstart
        cases hs
        refine ⟨_, F, h, fun _ x => ?_⟩
        rw [hgone, gone_stop hstop hstart, zero_add]
      · rename_i hstart
        have hover : R.start < hi ∧ lo < R.stop := ⟨Nat.lt_of_not_le hstart, hstop⟩
        have hnext : s.links.next r = (Y.map Prod.fst).head? :=
          Links.Dll.next (X := X.map Prod.fst) (by simpa using h.stores.rep.dll)
        rw [isOwn, if_pos rfl, Option.map_some, unlockLoop, hnext] at hs
        simp only [Option.bind_eq_bind, Option.bind_eq_some_iff] at hs
        obtain ⟨s1, hs1, s2, hs2, hs⟩ := hs
        obtain ⟨A', F', h', hdesc, hrest, htypes⟩ := h.turn hover hs1 hs2
        rw [hdesc] at hs
        rcases Nat.lt_or_ge R.stop hi with hin | hout
        · obtain ⟨⟨X', rfl⟩, hfree, -⟩ := hrest hin.le
          simp only [if_neg (Nat.not_lt.mpr hin.le), if_neg hin.ne] at hs
          rw [h'.stores.rep.findNextLockFrom] at hs
          obtain ⟨C, F'', hC, hall⟩ := ih h' (by simpa using hfuel) hs
          refine ⟨C, F'', hC, fun hle x => ?_⟩
          rw [hgone, gone_take hover.2 hover.1, if_pos hin, htypes hle x, hall hin.le x, hfree,
            add_assoc]
        · have hend : (if hi < R.stop then hi else R.stop) = hi := by
            split <;> omega
          simp only [hend, if_true] at hs
          cases hs
          refine ⟨A', F', h', fun hle x => ?_⟩
          rw [hgone, gone_take hover.2 hover.1, if_neg (Nat.not_lt.mpr hout), add_zero]
          exact htypes hle x
    · rename_i hstop
      have hX : Solid s ((X ++ [(r, R)]) ++ Y) F := by simpa using h
      obtain ⟨C, F', hC, hall⟩ := ih hX (by simp at hfuel; omega) hs
      refine ⟨C, F', hC, fun hle x => ?_⟩
      rw [hgone, gone_skip (Nat.le_of_not_lt hstop), ← hall hle x]
      simp

/-- A turn needs free records for what is kept. -/
theorem Solid.turn_some {r : Nat} {R : Desc} (h : Solid s (X ++ (r, R) :: Y) F) :
    (∃ s1 s2, s.keepLower r lo = some s1 ∧ s1.keepUpper r hi = some s2) ↔
      (if R.start < lo then 1 else 0) + (if hi < R.stop then 1 else 0) ≤ F.length := by
  have hR : Proper R := h.proper (r, R) (by simp)
  have hlow : R.start < lo → Proper { R with stop := lo } := fun hc => ⟨hc, hR.tag⟩
  have hdesc : s.desc r = R := h.stores.rep.desc (r, R) (by simp)
  have hlower := h.addNew_if_some (c := R.start < lo) (d := { R with stop := lo })
  have hupper : ∀ s1, s.keepLower r lo = some s1 →
      ((∃ s2, s1.keepUpper r hi = some s2) ↔ (if R.start < lo then 1 else 0) +
        (if hi < R.stop then 1 else 0) ≤ F.length) := by
    intro s1 hs1
    rw [keepLower_eq, hdesc] at hs1
    obtain ⟨q1, A1, F1, h1, hA1, -, -, hlen1, -⟩ := h.addNew_if hlow hs1
    have hmem : (r, R) ∈ A1 := by
      rcases hA1 with rfl | rfl
      · exact mem_ins.mpr (Or.inr (by simp))
      · simp
    have hdesc1 : s1.desc r = R := h1.stores.rep.desc (r, R) hmem
    rw [keepUpper_eq, hdesc1, h1.addNew_if_some]
    omega
  constructor
  · rintro ⟨s1, s2, hs1, hs2⟩
    exact (hupper s1 hs1).mp ⟨s2, hs2⟩
  · intro hlen
    obtain ⟨s1, hs1⟩ := hlower.mpr (by omega)
    rw [← hdesc, ← keepLower_eq] at hs1
    obtain ⟨s2, hs2⟩ := (hupper s1 hs1).mpr hlen
    exact ⟨s1, s2, hs1, hs2⟩

theorem Solid.loop_some {fuel : Nat} {tag : LockType} (h : Solid s (X ++ Y) F)
    (hfuel : Y.length < fuel) :
    (∃ t, unlockLoop fuel s ⟨lo, hi, tag⟩
      ((Rep.findEntry ⟨lo, hi, tag⟩ isOwn Y).map Prod.fst) = some t) ↔
        Fits hi lo F.length (descs Y) := by
  induction Y generalizing fuel s X F lo with
  | nil =>
    obtain ⟨fuel, rfl⟩ : ∃ k, fuel = k + 1 := ⟨fuel - 1, by simp at hfuel; omega⟩
    exact iff_of_true ⟨s, rfl⟩ trivial
  | cons e Y ih =>
    obtain ⟨r, R⟩ := e
    obtain ⟨fuel, rfl⟩ : ∃ k, fuel = k + 1 := ⟨fuel - 1, by simp at hfuel; omega⟩
    have hfits : Fits hi lo F.length (descs ((r, R) :: Y)) ↔ Fits hi lo F.length (R :: descs Y) :=
      Iff.rfl
    rw [Rep.findEntry, hfits]
    split
    · rename_i hstop
      split
      · rename_i hstart
        exact iff_of_true ⟨s, rfl⟩ (fits_stop hstop hstart)
      · rename_i hstart
        have hover : R.start < hi ∧ lo < R.stop := ⟨Nat.lt_of_not_le hstart, hstop⟩
        have hnext : s.links.next r = (Y.map Prod.fst).head? :=
          Links.Dll.next (X := X.map Prod.fst) (by simpa using h.stores.rep.dll)
        rw [isOwn, if_pos rfl, Option.map_some, unlockLoop, hnext, fits_take hstop hover.1,
          ← h.turn_some]
        simp only [Option.bind_eq_bind, Option.bind_eq_some_iff]
        -- What the rest of the loop does after a turn.
        have hrest : ∀ s1 s2, s.keepLower r lo = some s1 → s1.keepUpper r hi = some s2 →
            ((∃ t, (if (if hi < (s2.desc r).stop then hi else (s2.desc r).stop) = hi then
                some ((s2.removeLockRec r).freeLockRec r)
              else unlockLoop fuel ((s2.removeLockRec r).freeLockRec r)
                ⟨if hi < (s2.desc r).stop then hi else (s2.desc r).stop, hi, tag⟩
                (((s2.removeLockRec r).freeLockRec r).findNextLockFrom (Y.map Prod.fst).head?
                  ⟨if hi < (s2.desc r).stop then hi else (s2.desc r).stop, hi, tag⟩ isOwn)) =
                some t) ↔
              (R.stop < hi → Fits hi R.stop (F.length - (if R.start < lo then 1 else 0) + 1)
                (descs Y))) := by
          intro s1 s2 hs1 hs2
          obtain ⟨A', F', h', hdesc, hin', -⟩ := h.turn hover hs1 hs2
          rw [hdesc]
          rcases Nat.lt_or_ge R.stop hi with hin | hout
          · obtain ⟨⟨X', rfl⟩, -, hlen⟩ := hin' hin.le
            simp only [if_neg (Nat.not_lt.mpr hin.le), if_neg hin.ne]
            rw [h'.stores.rep.findNextLockFrom, ih h' (by simpa using hfuel), hlen]
            exact ⟨fun h _ => h, fun h => h hin⟩
          · have hend : (if hi < R.stop then hi else R.stop) = hi := by
              split <;> omega
            simp only [hend, if_true]
            exact iff_of_true ⟨_, rfl⟩ fun hin => by omega
        constructor
        · rintro ⟨t, s1, hs1, s2, hs2, ht⟩
          exact ⟨⟨s1, s2, hs1, hs2⟩, (hrest s1 s2 hs1 hs2).mp ⟨t, ht⟩⟩
        · rintro ⟨⟨s1, s2, hs1, hs2⟩, hfits⟩
          obtain ⟨t, ht⟩ := (hrest s1 s2 hs1 hs2).mpr hfits
          exact ⟨t, s1, hs1, s2, hs2, ht⟩
    · rename_i hstop
      have hX : Solid s ((X ++ [(r, R)]) ++ Y) F := by simpa using h
      rw [fits_skip (Nat.le_of_not_lt hstop)]
      exact ih hX (by simp at hfuel; omega)

variable {logAddr logLen tryAddr tryLen : Nat}

/-- The obligatory part is inside of the range that is unlocked. -/
def Within (logAddr logLen tryAddr tryLen : Nat) : Prop :=
  tryAddr ≤ logAddr ∧ add64 logAddr logLen ≤ add64 tryAddr tryLen

theorem Solid.unlock (h : Solid s A F) (hs : unlock s logAddr logLen tryAddr tryLen = some t) :
    ∃ C F', Solid t C F' ∧ (tryAddr ≤ add64 tryAddr tryLen → Within logAddr logLen tryAddr tryLen →
      ∀ x, typesAt (descs A) x =
        gone (add64 tryAddr tryLen) x tryAddr s.lockImp.nFree (descs A) + typesAt (descs C) x) := by
  unfold LockMutex.unlock unlockDesc at hs
  simp only at hs
  split at hs
  · rename_i hout
    cases hs
    refine ⟨A, F, h, fun _ hin => ?_⟩
    have := hin.1
    have := hin.2
    omega
  · rw [h.stores.rep.findFirstLock] at hs
    have hlen := h.stores.rep.length_le
    obtain ⟨C, F', hC, htypes⟩ := Solid.loop (X := []) h (by omega) hs
    exact ⟨C, F', hC, fun hle _ => htypes hle⟩

theorem Solid.unlock_some (h : Solid s A F) (hin : Within logAddr logLen tryAddr tryLen) :
    (∃ t, LockMutex.unlock s logAddr logLen tryAddr tryLen = some t) ↔
      Fits (add64 tryAddr tryLen) tryAddr F.length (descs A) := by
  have hlen := h.stores.rep.length_le
  have hout : ¬ (logAddr < tryAddr ∨ add64 tryAddr tryLen < add64 logAddr logLen) := by
    have := hin.1
    have := hin.2
    omega
  unfold LockMutex.unlock unlockDesc
  simp only [if_neg hout]
  rw [h.stores.rep.findFirstLock]
  exact Solid.loop_some (X := []) h (by omega)

/-! ## `$lock` -/

/-- The record of a granted lock is in the list. -/
def Locked (s : State) (a : LockArgs) (lo hi : Nat) : Prop :=
  lo < hi ∧ a.action ≠ .ask ∧ (⟨a.dataLock, a.addrLock⟩ : LockType) ≠ noType ∧ 0 < s.lockImp.nFree

/-- The list and the free records after a `$lock` that is granted. -/
inductive AfterLock (s t : State) (a : LockArgs) (lo hi : Nat) (A : List (Entry LockType))
    (F : List Nat) : List (Entry LockType) → List Nat → Prop
  | locked {r : Nat} {F' : List Nat} : Locked s a lo hi → t.lockImp.nFree + 1 = s.lockImp.nFree →
      F.length = F'.length + 1 →
      AfterLock s t a lo hi A F (ins (r, ⟨lo, hi, ⟨a.dataLock, a.addrLock⟩⟩) A) F'
  | same {F' : List Nat} : ¬ Locked s a lo hi → t.lockImp.nFree = s.lockImp.nFree →
      (hi ≤ lo → F' = F) → AfterLock s t a lo hi A F A F'

theorem Solid.grant {a : LockArgs} {lo len : Nat} (h : Solid s A F) (hcheck : lockCheck a = true)
    (hno : noEffect a = false) (hfirst : s.findFirstLock a.obl isConflict = none)
    (hs : grant s a = some (.granted t lo len)) :
    ∃ B F', Solid t B F' ∧ lo ≤ add64 lo len ∧ AfterLock s t a lo (add64 lo len) A F B F' := by
  have hclear : Clear isConflict A a.obl := by
    rw [h.stores.rep.findFirstLock, Option.map_eq_none_iff] at hfirst
    exact findEntry_none h.sorted hfirst
  simp only [lockCheck, Bool.and_eq_true, Bool.not_eq_true', Bool.or_eq_false_iff,
    decide_eq_false_iff_not, Nat.not_lt] at hcheck
  have hbetween : Between a.obl a.opt a.obl :=
    ⟨hcheck.2.1, Nat.le_refl _, Nat.le_refl _, hcheck.2.2, rfl⟩
  obtain ⟨hcut, -⟩ := cutOptional_spec tagOnly_isConflict h.stores.rep h.sorted hbetween rfl hclear
  unfold LockMutex.grant at hs
  simp only [Option.bind_eq_bind, Option.pure_def] at hs
  generalize s.cutOptional a.obl a.opt isConflict = desc at hs hcut
  obtain ⟨start, stop, tag⟩ := desc
  obtain ⟨-, hstart, hstop, hend, htag⟩ := hcut
  simp only at hs hstart hstop hend htag
  have hle : start ≤ stop := hstart.trans (hcheck.1.2.trans hstop)
  have hadd : add64 start (stop - start) = stop := by
    have hopt : a.opt.stop < addrSpace := Nat.mod_lt _ (by decide)
    rw [add64_eq (by omega)]
    omega
  have htype : (⟨a.dataLock, a.addrLock⟩ : LockType) ≠ noType := by
    intro heq
    have hd : a.dataLock = .none := congrArg LockType.data heq
    have ha : a.addrLock = .none := congrArg LockType.addr heq
    simp [noEffect, hd, ha] at hno
  split at hs
  · rename_i hadd'
    simp only [Option.bind_eq_some_iff, Option.some.injEq, LockAnswer.granted.injEq] at hs
    obtain ⟨s1, hnew, rfl, rfl, rfl⟩ := hs
    obtain ⟨r, F', rfl, -, hst, hfree⟩ := h.stores.addNew hnew
    rw [hadd]
    obtain rfl : tag = ⟨a.dataLock, a.addrLock⟩ := htag
    unfold insNew at hst
    split at hst
    · rename_i hfull
      refine ⟨A, F', ⟨hst, h.sorted, h.proper⟩, hle,
        .same ?_ (by omega) fun hge => absurd hadd'.1 (Nat.not_lt.mpr hge)⟩
      rintro ⟨-, -, -, hpos⟩
      omega
    · rename_i hpos
      refine ⟨_, F', ⟨hst, h.sorted.ins _, ?_⟩, hle,
        .locked ⟨hadd'.1, hadd'.2, htype, Nat.pos_of_ne_zero hpos⟩ (by omega) rfl⟩
      intro e he
      rcases mem_ins.mp he with rfl | he
      · exact ⟨hadd'.1, htype⟩
      · exact h.proper e he
  · rename_i hadd'
    simp only [Option.some.injEq, LockAnswer.granted.injEq] at hs
    obtain ⟨rfl, rfl, rfl⟩ := hs
    rw [hadd]
    refine ⟨A, F, h, hle, .same ?_ rfl fun _ => rfl⟩
    rintro ⟨hlt, hask, -⟩
    exact hadd' ⟨hlt, hask⟩

theorem Solid.lock {a : LockArgs} {lo len : Nat} (h : Solid s A F)
    (hs : lock s a = some (.granted t lo len)) :
    ∃ B F', Solid t B F' ∧ lo ≤ add64 lo len ∧ AfterLock s t a lo (add64 lo len) A F B F' := by
  unfold LockMutex.lock at hs
  split at hs
  · cases hs
  · rename_i hcheck
    have hcheck : lockCheck a = true := by simpa using hcheck
    have hranges := hcheck
    simp only [lockCheck, Bool.and_eq_true, Bool.not_eq_true', Bool.or_eq_false_iff,
      decide_eq_false_iff_not, Nat.not_lt] at hranges
    have hopt : a.tryAddr ≤ add64 a.tryAddr a.tryLen := hranges.1.1
    have hobl : a.logAddr ≤ add64 a.logAddr a.logLen := hranges.1.2
    split at hs
    · rename_i hno
      cases hs
      refine ⟨A, F, h, hopt, .same ?_ rfl fun _ => rfl⟩
      rintro ⟨hlt, -, htype, -⟩
      simp only [noEffect, LockArgs.opt, Bool.or_eq_true, Bool.and_eq_true, beq_iff_eq] at hno
      rcases hno with hempty | ⟨hd, ha⟩
      · omega
      · rw [hd, ha] at htype
        exact htype rfl
    · rename_i hno
      split at hs
      · rename_i hfirst
        exact h.grant hcheck (by simpa using hno) hfirst hs
      · split at hs
        · split at hs <;> cases hs
        · cases hs
          have hsmall : a.logAddr < addrSpace := hobl.trans_lt (Nat.mod_lt _ (by decide))
          rw [add64_eq (by omega), Nat.add_zero]
          exact ⟨A, F, h, Nat.le_refl _, .same (fun hlock => lt_irrefl _ hlock.1) rfl fun _ => rfl⟩

/-! ## Whole runs -/

structure SolidSys (s : Sys) : Prop where
  solid : ∃ A F, Solid s.state A F
  /-- What waits is past the checks. -/
  checked : ∀ a ∈ s.waiting, lockCheck a = true ∧ noEffect a = false

/-- `$lock` succeeds, at once or after a wait. -/
def Grants (s : Sys) (a : LockArgs) (t : State) (tryAddr tryLen : Nat) : Prop :=
  lock s.state a = some (.granted t tryAddr tryLen) ∨
    a ∈ s.waiting ∧ lockWoken s.state a = some (.granted t tryAddr tryLen)

theorem SolidSys.grants {s : Sys} {a : LockArgs} {lo len : Nat} (h : SolidSys s)
    (hA : Solid s.state A F) (hs : Grants s a t lo len) :
    ∃ B F', Solid t B F' ∧ lo ≤ add64 lo len ∧ AfterLock s.state t a lo (add64 lo len) A F B F' := by
  rcases hs with hs | ⟨ha, hs⟩
  · exact hA.lock hs
  · obtain ⟨hcheck, hno⟩ := h.checked a ha
    unfold lockWoken at hs
    split at hs
    · rename_i hfirst
      exact hA.grant hcheck hno hfirst hs
    · cases hs

theorem solidSys_init {s : Sys} (h : Init s) : SolidSys s := by
  obtain ⟨⟨desc, hstate⟩, hwaiting⟩ := h
  refine ⟨⟨[], List.range maxLockRecords, ?_, List.Pairwise.nil, by simp⟩, by simp [hwaiting]⟩
  rw [hstate]
  exact stores_init desc

theorem lock_wait' {a : LockArgs} (h : lock s a = some .wait) :
    lockCheck a = true ∧ noEffect a = false := by
  refine ⟨lock_wait h, ?_⟩
  unfold LockMutex.lock at h
  split at h
  · cases h
  · split at h
    · cases h
    · rename_i hno
      simpa using hno

theorem solidSys_step {s t : Sys} {e : Event} (h : SolidSys s) (hs : step s e = some t) :
    SolidSys t := by
  obtain ⟨⟨A, F, hA⟩, hchecked⟩ := id h
  cases e with
  | lock a =>
    simp only [step, Option.map_eq_some_iff] at hs
    obtain ⟨answer, hlock, rfl⟩ := hs
    cases answer with
    | granted state start len =>
      obtain ⟨B, F', hB, -, -⟩ := h.grants hA (Or.inl hlock)
      exact ⟨⟨B, F', hB⟩, hchecked⟩
    | refused => exact h
    | wait => exact ⟨⟨A, F, hA⟩, List.forall_mem_cons.mpr ⟨lock_wait' hlock, hchecked⟩⟩
  | woken i =>
    simp only [step, Option.bind_eq_some_iff, Option.map_eq_some_iff] at hs
    obtain ⟨a, ha, answer, hlock, rfl⟩ := hs
    cases answer with
    | granted state start len =>
      obtain ⟨B, F', hB, -, -⟩ := h.grants hA (Or.inr ⟨List.mem_of_getElem? ha, hlock⟩)
      exact ⟨⟨B, F', hB⟩, fun b hb => hchecked b (List.mem_of_mem_eraseIdx hb)⟩
    | refused => exact h
    | wait => exact h
  | unlock logAddr logLen tryAddr tryLen =>
    simp only [step, Option.map_eq_some_iff] at hs
    obtain ⟨state, hunlock, rfl⟩ := hs
    obtain ⟨C, F', hC, -⟩ := hA.unlock hunlock
    exact ⟨⟨C, F', hC⟩, hchecked⟩

theorem solidSys_reach {s : Sys} (h : Reach step Init anyEvent s) : SolidSys s :=
  h.invariant (fun _ => solidSys_init) fun _ _ _ hinv _ hs => solidSys_step hinv hs

/-! ## The main result -/

/-- The data locks that are held at `x`. -/
def heldData (s : State) (x : Nat) : Multiset LockT := dataTypes (typesAt s.records x)

def heldAddr (s : State) (x : Nat) : Multiset LockT := addrTypes (typesAt s.records x)

/-- At every address the same data locks and the same address locks are held. -/
def SameLocks (s t : State) : Prop :=
  ∀ x, heldData t x = heldData s x ∧ heldAddr t x = heldAddr s x

/-- As many parts can get a record and a native lock. -/
def room (s : State) : Nat := min s.lockImp.nFree s.free.length

/-- A lock that is in the list: what starts below `lo` and reaches furthest into the range is of
the same type, and there is room for the parts that are cut. No lock in the list: nothing is locked
from `lo` up to `hi`. -/
def Spares (s : State) (a : LockArgs) (lo hi : Nat) : Prop :=
  (Locked s a lo hi → ∀ P, P.start < lo → Leads s.records lo hi P →
    P.tag = ⟨a.dataLock, a.addrLock⟩ ∧ 2 ≤ room s ∧ (hi < P.stop → 3 ≤ room s)) ∧
  (¬ Locked s a lo hi → ∀ P ∈ s.records, P.start < hi → lo < P.stop → hi ≤ lo ∧ 2 ≤ room s)

theorem sameTypes_of_add_eq {u u' m m' : Multiset LockType} (h : u + m = u' + m') :
    SameTypes m m' ↔ SameTypes u u' := by
  have hdata := congrArg dataTypes h
  have haddr := congrArg addrTypes h
  rw [dataTypes_add, dataTypes_add] at hdata
  rw [addrTypes_add, addrTypes_add] at haddr
  constructor
  · rintro ⟨hd, ha⟩
    rw [hd] at hdata
    rw [ha] at haddr
    exact ⟨add_right_cancel hdata, add_right_cancel haddr⟩
  · rintro ⟨hd, ha⟩
    rw [hd] at hdata
    rw [ha] at haddr
    exact ⟨add_left_cancel hdata, add_left_cancel haddr⟩

theorem sameLocks_iff : SameLocks s t ↔
    ∀ x, SameTypes (typesAt t.records x) (typesAt s.records x) := Iff.rfl

/-- Nothing has been locked. -/
theorem Solid.spares_unlocked {F' : List Nat} (hA : Solid s A F) (ht : Solid t A F')
    (hfree : t.lockImp.nFree = s.lockImp.nFree) (hF : add64 tryAddr tryLen ≤ tryAddr → F' = F)
    (hle : tryAddr ≤ add64 tryAddr tryLen) (hin : Within logAddr logLen tryAddr tryLen) :
    (∃ u, LockMutex.unlock t logAddr logLen tryAddr tryLen = some u ∧ SameLocks s u) ↔
      ∀ P ∈ s.records, P.start < add64 tryAddr tryLen → tryAddr < P.stop →
        add64 tryAddr tryLen ≤ tryAddr ∧ 2 ≤ room s := by
  have hsort : (descs A).Pairwise fun d e => d.start ≤ e.start := List.pairwise_map.mpr hA.sorted
  have hproper : ∀ R ∈ descs A, Proper R := List.forall_mem_map.mpr hA.proper
  have hrecords : s.records = descs A := hA.stores.rep.records_eq
  have hroom : room s = min s.lockImp.nFree F.length := by rw [room, hA.stores.rep.free_eq]
  rw [hrecords, hroom]
  have hgone := gone_unlocked (k := s.lockImp.nFree) hsort hproper hle
  constructor
  · rintro ⟨u, hu, hsame⟩ P hP hstart hstop
    obtain ⟨C, F'', hC, htypes⟩ := ht.unlock hu
    have hzero : ∀ x, SameTypes (gone (add64 tryAddr tryLen) x tryAddr s.lockImp.nFree (descs A))
        0 := by
      intro x
      have hx := sameLocks_iff.mp hsame x
      rw [hC.stores.rep.records_eq, hrecords] at hx
      refine (sameTypes_of_add_eq ?_).mp hx
      rw [zero_add, ← hfree]
      exact (htypes hle hin x).symm
    obtain ⟨hge, hk⟩ := hgone.mp hzero P hP hstart hstop
    have hfits := (ht.unlock_some hin).mp ⟨u, hu⟩
    rw [hF hge] at hfits
    exact ⟨hge, le_min hk (two_le_of_fits hsort hge hfits hP hstart hstop)⟩
  · intro h
    have hfits : Fits (add64 tryAddr tryLen) tryAddr F'.length (descs A) := by
      apply fits_unlocked hsort
      intro P hP hstart hstop
      obtain ⟨hge, hk⟩ := h P hP hstart hstop
      rw [hF hge]
      exact ⟨hge, hk.trans (min_le_right _ _)⟩
    obtain ⟨u, hu⟩ := (ht.unlock_some hin).mpr hfits
    obtain ⟨C, F'', hC, htypes⟩ := ht.unlock hu
    refine ⟨u, hu, sameLocks_iff.mpr fun x => ?_⟩
    rw [hC.stores.rep.records_eq, hrecords]
    refine (sameTypes_of_add_eq ?_).mpr (hgone.mpr (fun P hP hstart hstop => ?_) x)
    · rw [zero_add, ← hfree]
      exact (htypes hle hin x).symm
    · obtain ⟨hge, hk⟩ := h P hP hstart hstop
      exact ⟨hge, hk.trans (min_le_left _ _)⟩

/-- What starts below `lo` is in front of the new lock. -/
theorem leads_takeWhile {P : Desc} {l : List Desc} (hsort : l.Pairwise fun d e => d.start ≤ e.start) :
    Leads (l.takeWhile fun d => !decide (lo ≤ d.start)) lo hi P ↔ P.start < lo ∧ Leads l lo hi P := by
  induction l with
  | nil => simp [not_leads_nil]
  | cons R l ih =>
    obtain ⟨hbefore, hsort⟩ := List.pairwise_cons.mp hsort
    rcases Nat.lt_or_ge R.start lo with hstart | hstart
    · rw [List.takeWhile_cons_of_pos (by simpa using hstart), leads_cons, leads_cons, ih hsort]
      constructor
      · rintro (⟨rfl, h⟩ | ⟨h1, h2, h3, h4⟩)
        · exact ⟨hstart, Or.inl ⟨rfl, h⟩⟩
        · exact ⟨h3, Or.inr ⟨h1, h2, h4⟩⟩
      · rintro ⟨h3, ⟨rfl, h⟩ | ⟨h1, h2, h4⟩⟩
        · exact Or.inl ⟨rfl, h⟩
        · exact Or.inr ⟨h1, h2, h3, h4⟩
    · rw [List.takeWhile_cons_of_neg (by simpa using hstart)]
      refine iff_of_false not_leads_nil ?_
      rintro ⟨hlt, -, X, Y, heq, -⟩
      have hP : P ∈ R :: l := by simp [heq]
      rcases List.mem_cons.mp hP with rfl | hP
      · omega
      · have := hbefore P hP
        omega

/-- The own lock is in the list. -/
theorem Solid.spares_locked {a : LockArgs} {r : Nat} {F' : List Nat} (hA : Solid s A F)
    (ht : Solid t (ins (r, ⟨tryAddr, add64 tryAddr tryLen, ⟨a.dataLock, a.addrLock⟩⟩) A) F')
    (hlock : Locked s a tryAddr (add64 tryAddr tryLen))
    (hfree : t.lockImp.nFree + 1 = s.lockImp.nFree) (hF : F.length = F'.length + 1)
    (hin : Within logAddr logLen tryAddr tryLen) :
    (∃ u, LockMutex.unlock t logAddr logLen tryAddr tryLen = some u ∧ SameLocks s u) ↔
      ∀ P, P.start < tryAddr → Leads s.records tryAddr (add64 tryAddr tryLen) P →
        P.tag = ⟨a.dataLock, a.addrLock⟩ ∧ 2 ≤ room s ∧
          (add64 tryAddr tryLen < P.stop → 3 ≤ room s) := by
  obtain ⟨hlt, -, htype, -⟩ := hlock
  generalize hT : (⟨a.dataLock, a.addrLock⟩ : LockType) = T at *
  generalize hend : add64 tryAddr tryLen = hi at *
  have hsort : (descs A).Pairwise fun d e => d.start ≤ e.start := List.pairwise_map.mpr hA.sorted
  have hrecords : s.records = descs A := hA.stores.rep.records_eq
  have hroom : room s = min s.lockImp.nFree F.length := by rw [room, hA.stores.rep.free_eq]
  -- The list with the own lock in it.
  obtain ⟨Z, hZ⟩ : ∃ Z, descs (ins (r, ⟨tryAddr, hi, T⟩) A) =
      (descs A).takeWhile (fun d => !decide (tryAddr ≤ d.start)) ++ ⟨tryAddr, hi, T⟩ :: Z := by
    refine ⟨(descs A).dropWhile fun d => !decide (tryAddr ≤ d.start), ?_⟩
    rw [ins_eq, descs, descs, List.map_append, List.map_cons, List.takeWhile_map, List.dropWhile_map]
    rfl
  have hlow : ∀ P ∈ (descs A).takeWhile (fun d => !decide (tryAddr ≤ d.start)),
      P.start < tryAddr ∧ P.tag ≠ noType := by
    intro P hP
    have hstart := List.mem_takeWhile_imp hP
    obtain ⟨e, he, rfl⟩ := List.mem_map.mp (List.takeWhile_subset _ hP)
    exact ⟨by simpa using hstart, (hA.proper e he).tag⟩
  have hgone := gone_locked (k := t.lockImp.nFree) (Z := Z) htype rfl hlow (Nat.le_refl _) hlt
  have hfits := fits_locked (f := F'.length) (Z := Z) (N := ⟨tryAddr, hi, T⟩) ⟨rfl, rfl⟩
    (fun P hP => (hlow P hP).1) (Nat.le_refl _) hlt
  rw [← hZ] at hgone hfits
  simp only [leads_takeWhile hsort, lt_irrefl, false_imp_iff, and_true, and_imp] at hgone hfits
  have hsame : ∀ u C F'', Solid u C F'' → (∀ x, typesAt (descs (ins (r, ⟨tryAddr, hi, T⟩) A)) x =
      gone hi x tryAddr t.lockImp.nFree (descs (ins (r, ⟨tryAddr, hi, T⟩) A)) +
        typesAt (descs C) x) → (SameLocks s u ↔ ∀ x, SameTypes
      (gone hi x tryAddr t.lockImp.nFree (descs (ins (r, ⟨tryAddr, hi, T⟩) A)))
      (if tryAddr ≤ x ∧ x < hi then {T} else 0)) := by
    intro u C F'' hC htypes
    rw [sameLocks_iff, hC.stores.rep.records_eq, hrecords]
    refine forall_congr' fun x => sameTypes_of_add_eq ?_
    exact (htypes x).symm.trans (typesAt_ins _ A x)
  have hsome := ht.unlock_some hin
  have hunlock := fun u (hu : LockMutex.unlock t logAddr logLen tryAddr tryLen = some u) =>
    ht.unlock hu
  rw [hend] at hsome hunlock
  rw [hrecords, hroom]
  constructor
  · rintro ⟨u, hu, hs⟩ P hstart hlead
    obtain ⟨C, F'', hC, htypes⟩ := hunlock u hu
    have hkept := (hsame u C F'' hC (htypes hlt.le hin)).mp hs
    obtain ⟨htag, hk, hk'⟩ := hgone.mp hkept P hstart hlead
    obtain ⟨hf, hf'⟩ := hfits.mp (hsome.mp ⟨u, hu⟩) P hstart hlead
    refine ⟨htag, by omega, fun hup => ?_⟩
    have := hk' hup
    have := hf' hup
    omega
  · intro h
    obtain ⟨u, hu⟩ := hsome.mpr <| hfits.mpr fun P hstart hlead => by
      obtain ⟨-, hk, hk'⟩ := h P hstart hlead
      refine ⟨by omega, fun hup => ?_⟩
      have := hk' hup
      omega
    obtain ⟨C, F'', hC, htypes⟩ := hunlock u hu
    refine ⟨u, hu, (hsame u C F'' hC (htypes hlt.le hin)).mpr (hgone.mpr ?_)⟩
    intro P hstart hlead
    obtain ⟨htag, hk, hk'⟩ := h P hstart hlead
    refine ⟨htag, by omega, fun hup => ?_⟩
    have := hk' hup
    omega

/-- **A lock and its `$unlock` leave the other locks alone exactly when `Spares` holds.** -/
theorem lock_balance {s : Sys} {a : LockArgs} (h : Reach step Init anyEvent s)
    (hlock : Grants s a t tryAddr tryLen) (hin : Within logAddr logLen tryAddr tryLen) :
    (∃ u, unlock t logAddr logLen tryAddr tryLen = some u ∧ SameLocks s.state u) ↔
      Spares s.state a tryAddr (add64 tryAddr tryLen) := by
  obtain ⟨A, F, hA⟩ := (solidSys_reach h).solid
  obtain ⟨B, F', hB, hle, hafter⟩ := (solidSys_reach h).grants hA hlock
  unfold Spares
  cases hafter with
  | locked hlocked hfree hF =>
    rw [hA.spares_locked hB hlocked hfree hF hin]
    simp only [hlocked, true_imp_iff, not_true, false_imp_iff, and_true]
  | same hnot hfree hF =>
    rw [hA.spares_unlocked hB hfree hF hle hin]
    simp only [hnot, false_imp_iff, true_and, not_false_iff, true_imp_iff]

/-- The state that `$lock` leaves when it is granted. -/
def LockAnswer.state : LockAnswer → Option State
  | .granted s _ _ => some s
  | .refused | .wait => none

/-- What `$lock` returns in `try_addr` and `try_len`. -/
def LockAnswer.range : LockAnswer → Option (Nat × Nat)
  | .granted _ tryAddr tryLen => some (tryAddr, tryLen)
  | .refused | .wait => none

theorem granted_of_range {a : LockArgs} (h : (lock s a).bind LockAnswer.range =
    some (tryAddr, tryLen)) : ∃ t, lock s a = some (.granted t tryAddr tryLen) := by
  obtain ⟨answer, hlock, hrange⟩ := Option.bind_eq_some_iff.mp h
  cases answer with
  | granted t tryAddr' tryLen' =>
    cases hrange
    exact ⟨t, hlock⟩
  | refused => cases hrange
  | wait => cases hrange

/-- A read lock inside of the read lock of another one. -/
theorem lock_balance_readers : ∃ (s : Sys) (t : State), s.state.records = [⟨10, 20, ⟨.read, .none⟩⟩] ∧
    Grants s ⟨14, 2, 14, 2, .read, .none, .try⟩ t 14 2 ∧
    ∃ u, unlock t 14 2 14 2 = some u ∧ SameLocks s.state u := by
  have hrun : (run step anyEvent fresh [.lock ⟨10, 10, 10, 10, .read, .none, .try⟩]).map
      (fun s => (s.state.records, room s.state,
        (lock s.state ⟨14, 2, 14, 2, .read, .none, .try⟩).bind LockAnswer.range)) =
      some ([⟨10, 20, ⟨.read, .none⟩⟩], 127, some (14, 2)) := by
    decide +kernel
  obtain ⟨s, hs, heq⟩ := Option.map_eq_some_iff.mp hrun
  simp only [Prod.mk.injEq] at heq
  obtain ⟨hrecords, hroom, hrange⟩ := heq
  obtain ⟨t, ht⟩ := granted_of_range hrange
  have hreach : Reach step Init anyEvent s := (Reach.start ⟨⟨_, rfl⟩, rfl⟩).of_run hs
  refine ⟨s, t, hrecords, Or.inl ht, (lock_balance hreach (Or.inl ht) ⟨by decide, by decide⟩).mpr
    ⟨?_, ?_⟩⟩
  · intro _ P _ hlead
    rw [hrecords, leads_last (by decide) (by decide)] at hlead
    rw [hlead, hroom]
    decide
  · intro hnot
    refine absurd ⟨by decide, by decide, by decide, ?_⟩ hnot
    have := min_le_left s.state.lockImp.nFree s.state.free.length
    rw [room] at hroom
    omega

/-- The address lock of another one is taken instead of the own data lock. -/
theorem lock_balance_broken : ∃ (s : Sys) (t u : State), Reach step Init anyEvent s ∧
    Grants s ⟨14, 2, 14, 2, .read, .none, .try⟩ t 14 2 ∧ unlock t 14 2 14 2 = some u ∧
    ¬ SameLocks s.state u := by
  have hrun : (run step anyEvent fresh [.lock ⟨10, 10, 10, 10, .none, .write, .try⟩]).map
      (fun s => (s.state.records,
        (lock s.state ⟨14, 2, 14, 2, .read, .none, .try⟩).bind LockAnswer.range,
        (((lock s.state ⟨14, 2, 14, 2, .read, .none, .try⟩).bind LockAnswer.state).bind fun t =>
          unlock t 14 2 14 2).map fun u => u.records)) =
      some ([⟨10, 20, ⟨.none, .write⟩⟩], some (14, 2), some [⟨10, 14, ⟨.none, .write⟩⟩,
        ⟨14, 16, ⟨.read, .none⟩⟩, ⟨16, 20, ⟨.none, .write⟩⟩]) := by
    decide +kernel
  obtain ⟨s, hs, heq⟩ := Option.map_eq_some_iff.mp hrun
  simp only [Prod.mk.injEq] at heq
  obtain ⟨hrecords, hrange, hafter⟩ := heq
  obtain ⟨t, ht⟩ := granted_of_range hrange
  rw [ht] at hafter
  obtain ⟨u, hu, hafter⟩ := Option.map_eq_some_iff.mp hafter
  refine ⟨s, t, u, (Reach.start ⟨⟨_, rfl⟩, rfl⟩).of_run hs, Or.inl ht, hu, fun hsame => ?_⟩
  have haddr := (hsame 14).2
  rw [heldAddr, heldAddr, hrecords, hafter] at haddr
  exact absurd haddr (by decide)

end Athomux.LockMutex
