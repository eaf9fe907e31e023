import Athomux.LockList.Proofs

/-! # The native locks of the records -/

open Lib

namespace Athomux.LockList

variable {τ : Type} {n : Nat} {s s' : LockList τ n} {A : List (Entry τ)} {F : List Nat}
  {M : Finset Nat}

/-- Each record of the list has a native lock of its own. `M` are the native locks that
are held for something else. -/
structure Natives (s : LockList τ n) (A : List (Entry τ)) (M : Finset Nat) : Prop where
  freeLt : ∀ i ∈ s.lockImp.freeLocks, i < nNativeLocks
  lt : ∀ e ∈ A, s.nativeLock e.1 < nNativeLocks
  held : ∀ e ∈ A, s.nativeLock e.1 ∉ s.lockImp.freeLocks
  inj : ∀ e ∈ A, ∀ f ∈ A, s.nativeLock e.1 = s.nativeLock f.1 → e.1 = f.1
  others : ∀ i ∈ M, i < nNativeLocks ∧ i ∉ s.lockImp.freeLocks
  apart : ∀ e ∈ A, s.nativeLock e.1 ∉ M

theorem addLockRec_of_full (h : s.lockImp.nFree = 0) (r : Nat) : s.addLockRec r = s := by
  unfold addLockRec
  rw [LockNative.gadr_eq_none.mpr h]

theorem addLockRec_of_gadr {i : Nat} {imp : LockNative} (h : s.lockImp.gadr = some (i, imp))
    (r : Nat) : (s.addLockRec r).lockImp = imp ∧
      (s.addLockRec r).nativeLock = Function.update s.nativeLock r i := by
  unfold addLockRec
  simp only [h, and_self]

theorem Natives.addLockRec {r : Nat} (h : Natives s A M) (hr : r ∉ A.map Prod.fst) :
    Natives (s.addLockRec r) (insNew s r (s.desc r) A) M ∧
      (s.addLockRec r).lockImp.nFree = s.lockImp.nFree - 1 := by
  unfold insNew
  split
  · rename_i hfree
    rw [addLockRec_of_full hfree]
    exact ⟨h, by omega⟩
  · rename_i hfree
    cases hg : s.lockImp.gadr with
    | none => exact absurd (LockNative.gadr_eq_none.mp hg) hfree
    | some p =>
      obtain ⟨i, imp⟩ := p
      obtain ⟨hi, heq⟩ := LockNative.gadr_spec hg
      have hcount := LockNative.gadr_nFree hg
      obtain ⟨himp, hlock⟩ := addLockRec_of_gadr hg r
      have hself : (s.addLockRec r).nativeLock r = i := by
        rw [hlock, Function.update_self]
      have hnat : ∀ e ∈ A, (s.addLockRec r).nativeLock e.1 = s.nativeLock e.1 := by
        intro e he
        rw [hlock, Function.update_of_ne]
        rintro rfl
        exact hr (List.mem_map_of_mem he)
      refine ⟨⟨?_, ?_, ?_, ?_, ?_, ?_⟩, by rw [himp]; omega⟩
      · intro j hj
        rw [himp, heq] at hj
        exact h.freeLt j (Finset.mem_of_mem_erase hj)
      · intro e he
        rcases mem_ins.mp he with rfl | he
        · rw [hself]
          exact h.freeLt i hi
        · rw [hnat e he]
          exact h.lt e he
      · intro e he
        rw [himp, heq]
        rcases mem_ins.mp he with rfl | he
        · rw [hself]
          exact Finset.notMem_erase i _
        · rw [hnat e he]
          exact fun hmem => h.held e he (Finset.mem_of_mem_erase hmem)
      · intro e he f hf hef
        rcases mem_ins.mp he with rfl | heA <;> rcases mem_ins.mp hf with rfl | hfA
        · rfl
        · rw [hself, hnat f hfA] at hef
          exact absurd (hef ▸ hi) (h.held f hfA)
        · rw [hself, hnat e heA] at hef
          exact absurd (hef ▸ hi) (h.held e heA)
        · rw [hnat e heA, hnat f hfA] at hef
          exact h.inj e heA f hfA hef
      · intro j hj
        rw [himp, heq]
        exact ⟨(h.others j hj).1, fun hmem => (h.others j hj).2 (Finset.mem_of_mem_erase hmem)⟩
      · intro e he
        rcases mem_ins.mp he with rfl | he
        · rw [hself]
          exact fun hM => (h.others i hM).2 hi
        · rw [hnat e he]
          exact h.apart e he

theorem Natives.removeLockRec {r : Nat} (h : Natives s A M) (hr : r ∈ A.map Prod.fst) :
    Natives (s.removeLockRec r) (del r A) M ∧
      (s.removeLockRec r).lockImp.nFree = s.lockImp.nFree + 1 := by
  obtain ⟨e, he, rfl⟩ := List.mem_map.mp hr
  have himp : (s.removeLockRec e.1).lockImp = ⟨insert (s.nativeLock e.1) s.lockImp.freeLocks⟩ := by
    simp only [LockList.removeLockRec, LockNative.padr_spec (h.lt e he) (h.held e he),
      Option.getD_some]
  constructor
  · refine ⟨?_, ?_, ?_, ?_, ?_, ?_⟩
    · intro i hi
      rw [himp, Finset.mem_insert] at hi
      rcases hi with rfl | hi
      · exact h.lt e he
      · exact h.freeLt i hi
    · intro f hf
      exact h.lt f (mem_del.mp hf).1
    · intro f hf
      obtain ⟨hfA, hne⟩ := mem_del.mp hf
      rw [himp, Finset.mem_insert, not_or]
      exact ⟨fun heq => hne (h.inj f hfA e he heq), h.held f hfA⟩
    · intro f hf g hg
      exact h.inj f (mem_del.mp hf).1 g (mem_del.mp hg).1
    · intro i hi
      rw [himp, Finset.mem_insert, not_or]
      refine ⟨(h.others i hi).1, ?_, (h.others i hi).2⟩
      rintro rfl
      exact h.apart e he hi
    · intro f hf
      exact h.apart f (mem_del.mp hf).1
  · rw [himp, LockNative.nFree, Finset.card_insert_of_notMem (h.held e he)]
    rfl

/-- The native locks do not depend on the descriptors. -/
theorem Natives.congr {B : List (Entry τ)} (h : Natives s A M) (himp : s'.lockImp = s.lockImp)
    (hnat : s'.nativeLock = s.nativeLock) (hB : ∀ f ∈ B, f.1 ∈ A.map Prod.fst) :
    Natives s' B M := by
  have hmem : ∀ f ∈ B, ∃ e ∈ A, e.1 = f.1 := fun f hf => List.mem_map.mp (hB f hf)
  refine ⟨by rw [himp]; exact h.freeLt, ?_, ?_, ?_, by rw [himp]; exact h.others, ?_⟩
  · intro f hf
    obtain ⟨e, he, heq⟩ := hmem f hf
    rw [hnat, ← heq]
    exact h.lt e he
  · intro f hf
    obtain ⟨e, he, heq⟩ := hmem f hf
    rw [hnat, himp, ← heq]
    exact h.held e he
  · intro f hf g hg
    obtain ⟨e, he, heq⟩ := hmem f hf
    obtain ⟨e', he', heq'⟩ := hmem g hg
    rw [hnat, ← heq, ← heq']
    exact h.inj e he e' he'
  · intro f hf
    obtain ⟨e, he, heq⟩ := hmem f hf
    rw [hnat, ← heq]
    exact h.apart e he

/-- A native lock is taken for something else. -/
theorem Natives.gadr {i : Nat} {imp : LockNative} (h : Natives s A M)
    (hg : s.lockImp.gadr = some (i, imp)) :
    Natives ({ s with lockImp := imp } : LockList τ n) A (insert i M) ∧ i ∉ M := by
  obtain ⟨hi, heq⟩ := LockNative.gadr_spec hg
  have hsub : ∀ j ∈ imp.freeLocks, j ∈ s.lockImp.freeLocks ∧ j ≠ i := by
    intro j hj
    rw [heq] at hj
    exact ⟨Finset.mem_of_mem_erase hj, Finset.ne_of_mem_erase hj⟩
  refine ⟨⟨fun j hj => h.freeLt j (hsub j hj).1, h.lt, fun e he hm => h.held e he (hsub _ hm).1,
    h.inj, ?_, ?_⟩, fun hM => (h.others i hM).2 hi⟩
  · intro j hj
    rcases Finset.mem_insert.mp hj with rfl | hj
    · exact ⟨h.freeLt j hi, fun hm => (hsub j hm).2 rfl⟩
    · exact ⟨(h.others j hj).1, fun hm => (h.others j hj).2 (hsub j hm).1⟩
  · intro e he hm
    rcases Finset.mem_insert.mp hm with hei | hm
    · have hei : s.nativeLock e.1 = i := hei
      exact h.held e he (hei ▸ hi)
    · exact h.apart e he hm

/-- And it is given back. -/
theorem Natives.padr {i : Nat} {imp : LockNative} (h : Natives s A M) (hi : i ∈ M)
    (hp : s.lockImp.padr i = some imp) :
    Natives ({ s with lockImp := imp } : LockList τ n) A (M.erase i) ∧ imp.nFree = s.lockImp.nFree + 1 := by
  obtain ⟨hlt, hfree⟩ := h.others i hi
  rw [LockNative.padr_spec hlt hfree, Option.some.injEq] at hp
  subst hp
  constructor
  · refine ⟨?_, h.lt, ?_, h.inj, ?_, fun e he hm => h.apart e he (Finset.mem_of_mem_erase hm)⟩
    · intro j hj
      rcases Finset.mem_insert.mp hj with rfl | hj
      · exact hlt
      · exact h.freeLt j hj
    · intro e he hm
      rcases Finset.mem_insert.mp hm with hei | hm
      · have hei : s.nativeLock e.1 = i := hei
        exact h.apart e he (hei ▸ hi)
      · exact h.held e he hm
    · intro j hj
      refine ⟨(h.others j (Finset.mem_of_mem_erase hj)).1, fun hm => ?_⟩
      rcases Finset.mem_insert.mp hm with rfl | hm
      · exact Finset.notMem_erase _ _ hj
      · exact (h.others j (Finset.mem_of_mem_erase hj)).2 hm
  · rw [LockNative.nFree, Finset.card_insert_of_notMem hfree]
    rfl

/-! ## Records and native locks together -/

structure Stores (s : LockList τ n) (A : List (Entry τ)) (F : List Nat) (M : Finset Nat) :
    Prop where
  rep : Rep s A F
  natives : Natives s A M

theorem Stores.setLockDesc (h : Stores s A F M) (r : Nat) (d : LockDesc τ) :
    Stores (s.setLockDesc r d) (upd r d A) F M := by
  refine ⟨h.rep.setLockDesc r d, h.natives.congr rfl rfl ?_⟩
  intro f hf
  rw [← upd_fst r d A]
  exact List.mem_map_of_mem hf

theorem Stores.newLockRec {r : Nat} (h : Stores s A F M) (hs : s.newLockRec = some (r, s')) :
    ∃ F', F = r :: F' ∧ r ∉ A.map Prod.fst ∧ r ∉ F' ∧ r < n ∧ Stores s' A F' M ∧
      s'.lockImp = s.lockImp ∧ s'.desc = s.desc := by
  obtain ⟨F', rfl, hrep, hdesc, himp, hnat⟩ := h.rep.newLockRec hs
  exact ⟨F', rfl, fun hA => h.rep.disjoint hA List.mem_cons_self,
    (List.nodup_cons.mp (List.nodup_append.mp h.rep.nodup).2.1).1, h.rep.bound r (by simp),
    ⟨hrep, h.natives.congr himp hnat fun f hf => List.mem_map_of_mem hf⟩, himp, hdesc⟩

theorem Stores.addLockRec {r : Nat} (h : Stores s A F M) (hA : r ∉ A.map Prod.fst) (hF : r ∉ F)
    (hr : r < n) : Stores (s.addLockRec r) (insNew s r (s.desc r) A) F M ∧
      (s.addLockRec r).lockImp.nFree = s.lockImp.nFree - 1 := by
  obtain ⟨hnat, hcount⟩ := h.natives.addLockRec hA
  exact ⟨⟨h.rep.addLockRec hA hF hr, hnat⟩, hcount⟩

theorem desc_addLockRec (s : LockList τ n) (r : Nat) : (s.addLockRec r).desc = s.desc := by
  unfold addLockRec
  simp only
  split <;> rfl

theorem Stores.addNew {d : LockDesc τ} (h : Stores s A F M) (hs : s.addNew d = some s') :
    ∃ r F', F = r :: F' ∧ r ∉ A.map Prod.fst ∧ Stores s' (insNew s r d A) F' M ∧
      s'.lockImp.nFree = s.lockImp.nFree - 1 := by
  unfold LockList.addNew at hs
  simp only [Option.bind_eq_bind, Option.bind_eq_some_iff, Prod.exists, Option.pure_def,
    Option.some.injEq] at hs
  obtain ⟨r, s1, hnew, rfl⟩ := hs
  obtain ⟨F', rfl, hrA, hrF, hrn, h1, himp, -⟩ := h.newLockRec hnew
  have h2 := h1.setLockDesc r d
  rw [upd_of_not_mem d hrA] at h2
  obtain ⟨h3, hcount⟩ := h2.addLockRec hrA hrF hrn
  have hdesc : (s1.setLockDesc r d).desc r = d := Function.update_self ..
  have himp2 : (s1.setLockDesc r d).lockImp = s.lockImp := himp
  rw [hdesc, insNew, himp2] at h3
  rw [himp2] at hcount
  exact ⟨r, F', rfl, hrA, h3, hcount⟩

/-- What is kept of a lock when `c` holds: one entry more, if there is a native lock. -/
theorem Stores.addNew_if {c : Prop} [Decidable c] {d : LockDesc τ} (h : Stores s A F M)
    (hs : (if c then s.addNew d else some s) = some s') :
    ∃ q A' F', Stores s' A' F' M ∧
      ((c ∧ 0 < s.lockImp.nFree ∧ q ∉ A.map Prod.fst ∧ A' = ins (q, d) A) ∨
        (A' = A ∧ (c → s.lockImp.nFree = 0))) ∧
      s'.lockImp.nFree = s.lockImp.nFree - (if c then 1 else 0) ∧
      F.length = F'.length + (if c then 1 else 0) ∧ ∀ p ∈ F', p ∈ F := by
  split at hs
  · rename_i hc
    obtain ⟨q, F', rfl, hq, hst, hfree⟩ := h.addNew hs
    refine ⟨q, _, F', hst, ?_, by rw [hfree, if_pos hc], by rw [if_pos hc]; rfl,
      fun p => List.mem_cons_of_mem q⟩
    unfold insNew
    split
    · exact Or.inr ⟨rfl, fun _ => ‹_›⟩
    · exact Or.inl ⟨hc, by omega, hq, rfl⟩
  · rename_i hc
    cases hs
    refine ⟨0, A, F, h, Or.inr ⟨rfl, fun h => absurd h hc⟩, ?_, ?_, fun _ => id⟩
    · rw [if_neg hc]
      rfl
    · rw [if_neg hc]
      rfl

theorem Stores.removeFree {r : Nat} (h : Stores s A F M) (hr : r ∈ A.map Prod.fst) :
    Stores ((s.removeLockRec r).freeLockRec r) (del r A) (r :: F) M ∧
      ((s.removeLockRec r).freeLockRec r).lockImp.nFree = s.lockImp.nFree + 1 := by
  obtain ⟨hnat, hcount⟩ := h.natives.removeLockRec hr
  exact ⟨⟨h.rep.remove_free hr, hnat.congr rfl rfl fun f hf => List.mem_map_of_mem hf⟩, hcount⟩

/-- The record itself always finds its way back: its own native lock is free again. -/
theorem Stores.splitLockRec {r : Nat} {kept rest : LockDesc τ} (h : Stores s A F M)
    (hr : r ∈ A.map Prod.fst) (hs : s.splitLockRec r kept rest = some s') :
    ∃ q F', F = q :: F' ∧ q ∉ A.map Prod.fst ∧
      Stores s' (insNew s q rest (ins (r, kept) (del r A))) F' M ∧
      s'.lockImp.nFree = s.lockImp.nFree - 1 := by
  unfold LockList.splitLockRec at hs
  simp only [Option.bind_eq_bind, Option.bind_eq_some_iff, Prod.exists, Option.pure_def,
    Option.some.injEq] at hs
  obtain ⟨q, s1, hnew, rfl⟩ := hs
  obtain ⟨F', rfl, hqA, hqF, hqn, h1, himp, -⟩ := h.newLockRec hnew
  have hrF : r ∉ F' := fun hmem => h.rep.disjoint hr (List.mem_cons_of_mem _ hmem)
  have hrn : r < n := h.rep.bound r (List.mem_append_left _ hr)
  have hqr : q ≠ r := by rintro rfl; exact hqA hr
  have hdelR : r ∉ (del r A).map Prod.fst := by
    intro hmem
    obtain ⟨e, he, rfl⟩ := List.mem_map.mp hmem
    exact (mem_del.mp he).2 rfl
  have hdelQ : q ∉ (del r A).map Prod.fst := by
    intro hmem
    obtain ⟨e, he, rfl⟩ := List.mem_map.mp hmem
    exact hqA (List.mem_map_of_mem (mem_del.mp he).1)
  -- Out of the list.
  obtain ⟨hnat2, hcount2⟩ := h1.natives.removeLockRec hr
  have h2 : Stores (s1.removeLockRec r) (del r A) F' M := ⟨h1.rep.removeLockRec hr, hnat2⟩
  have h3 := (h2.setLockDesc q rest).setLockDesc r kept
  rw [upd_of_not_mem rest hdelQ, upd_of_not_mem kept hdelR] at h3
  -- Back in with `kept`.
  set s3 := ((s1.removeLockRec r).setLockDesc q rest).setLockDesc r kept with hs3
  have himp3 : s3.lockImp = (s1.removeLockRec r).lockImp := rfl
  have hrdesc : s3.desc r = kept := Function.update_self ..
  have hqdesc : s3.desc q = rest := by
    rw [hs3]
    exact (Function.update_of_ne hqr _ _).trans (Function.update_self ..)
  obtain ⟨h4, hcount4⟩ := h3.addLockRec hdelR hrF hrn
  rw [hrdesc, insNew, if_neg (by rw [himp3]; omega)] at h4
  -- The new record.
  have hq4 : q ∉ (ins (r, kept) (del r A)).map Prod.fst := by
    intro hmem
    obtain ⟨e, he, rfl⟩ := List.mem_map.mp hmem
    rcases mem_ins.mp he with rfl | he
    · exact hqr rfl
    · exact hdelQ (List.mem_map_of_mem he)
  obtain ⟨h5, hcount5⟩ := h4.addLockRec hq4 hqF hqn
  have hfree : (s3.addLockRec r).lockImp.nFree = s.lockImp.nFree := by
    rw [hcount4, himp3, hcount2, himp]
    omega
  rw [desc_addLockRec, hqdesc, insNew, hfree] at h5
  exact ⟨q, F', rfl, hqA, h5, by rw [hcount5, hfree]⟩

/-- The list does not depend on the native locks. -/
theorem Stores.lockImp {imp : LockNative} {M' : Finset Nat} (h : Stores s A F M)
    (hn : Natives ({ s with lockImp := imp } : LockList τ n) A M') : Stores ({ s with lockImp := imp } : LockList τ n) A F M' :=
  ⟨⟨h.rep.dll, h.rep.free, h.rep.nodup, h.rep.bound, h.rep.desc⟩, hn⟩

theorem stores_init (desc : Nat → LockDesc τ) :
    Stores (init n desc) [] (List.range n) ∅ := by
  refine ⟨rep_init desc, ⟨?_, by simp, by simp, by simp, by simp, by simp⟩⟩
  intro i hi
  exact Finset.mem_range.mp hi

end Athomux.LockList
