import Athomux.DirSimple.Layout

/-!
# Names and entries

A name is cut to the size of its field when it is stored, and compared in full when it is looked up.
Names that fit reach entries of their own, over every run whose pointers stay good.
-/

open Lib

namespace Athomux.DirSimple

abbrev Name := List UInt8

/-! ## Runs with their instantiations -/

/-- A directory, and the names that were instantiated with the entries they have reached. -/
structure Logged where
  sys : Sys
  log : List (Name × Nat)

/-- What an event adds to the log. -/
def Sys.reaches (s : Sys) : Event → List (Name × Nat)
  | .init _ param clear => ((s.table.instOut param clear).2.map (param, ·)).toList
  | .exit _ | .create .. | .move .. => []

/-- An event, and what it leaves when a pointer is used that is not good any more. -/
def loggedStep (s : Logged) (x : Event × Logged) : Option Logged :=
  (step s.sys x.1).map fun u =>
    if s.sys.Held x.1 then ⟨u, s.sys.reaches x.1 ++ s.log⟩ else x.2

def LoggedInit (s : Logged) : Prop := Init s.sys ∧ s.log = []

/-- The pointers stay good. -/
def LoggedHeld (s : Logged) (x : Event × Logged) : Prop := s.sys.Held x.1

instance (s : Logged) (x : Event × Logged) : Decidable (LoggedHeld s x) :=
  inferInstanceAs (Decidable (s.sys.Held x.1))

/-- A name is not empty, and fits into its field with the terminator. -/
def Event.NameFits : Event → Prop
  | .init _ param _ => param ≠ [] ∧ param.length < nameSize
  | .exit _ | .create .. | .move .. => True

instance : (e : Event) → Decidable e.NameFits
  | .init _ param _ =>
    decidable_of_iff (0 < param.length ∧ param.length < nameSize)
      (and_congr_left fun _ => List.length_pos_iff)
  | .exit _ => inferInstanceAs (Decidable True)
  | .create .. => inferInstanceAs (Decidable True)
  | .move .. => inferInstanceAs (Decidable True)

/-- The pointers stay good, and the name fits. -/
def NameFits (s : Logged) (x : Event × Logged) : Prop := s.sys.Held x.1 ∧ x.1.NameFits

instance (s : Logged) (x : Event × Logged) : Decidable (NameFits s x) := by
  unfold NameFits
  infer_instance

/-- Each name reaches its entry again, through pointers that stay good, and two names reach two
entries. -/
structure NamesApart (t : Table) (log : List (Name × Nat)) : Prop where
  again : ∀ x ∈ log, t.InstHeld x.1 ∧ ∀ clear, t.instOut x.1 clear = (t, some x.2)
  apart : ∀ x ∈ log, ∀ y ∈ log, x.2 = y.2 → x.1 = y.1

/-! ## The search -/

variable {t u : Table} {param : Name} {log : List (Name × Nat)}

theorem search_name (t : Table) (param : Name) : ∀ (n i empty : Nat),
    (t.search param n i empty).1 ≠ 0 →
      (t.entry (t.search param n i empty).1).name = param
  | 0, _, _, h => absurd rfl h
  | n + 1, i, empty, h => by
    rw [Table.search] at h ⊢
    split at h
    · rename_i hname
      rw [if_pos hname]
      exact search_name t param n _ _ h
    · rename_i hname
      rw [if_neg hname]
      split at h
      · rename_i heq
        rw [if_pos heq]
        exact heq
      · rename_i hne
        rw [if_neg hne]
        exact search_name t param n _ _ h

theorem search_missed (t : Table) (hparam : param ≠ []) : ∀ (n i empty : Nat), i ≠ 0 →
    (t.search param n i empty).1 = 0 → ∀ k, i ≤ k → k < i + n → (t.entry k).name ≠ param
  | 0, _, _, _, _, _, _, _ => by omega
  | n + 1, i, empty, hi, h, k, hik, hk => by
    have hnext {empty : Nat} (h : (t.search param n (i + 1) empty).1 = 0) (hk' : i + 1 ≤ k) :
        (t.entry k).name ≠ param :=
      search_missed t hparam n (i + 1) empty (by omega) h k hk' (by omega)
    rw [Table.search] at h
    split at h
    · rename_i hname
      rcases Nat.eq_or_lt_of_le hik with rfl | hlt
      · rw [hname]
        exact hparam.symm
      · exact hnext h hlt
    · split at h
      · exact absurd h hi
      · rename_i hne
        rcases Nat.eq_or_lt_of_le hik with rfl | hlt
        · exact hne
        · exact hnext h hlt

theorem search_empty (t : Table) (param : Name) : ∀ (n i empty : Nat),
    (empty ≠ 0 → (t.entry empty).name = []) → (t.search param n i empty).2 ≠ 0 →
      (t.entry (t.search param n i empty).2).name = []
  | 0, _, _, hempty, h => hempty h
  | n + 1, i, empty, hempty, h => by
    rw [Table.search] at h ⊢
    split at h
    · rename_i hname
      rw [if_pos hname]
      refine search_empty t param n _ _ ?_ h
      split
      · exact fun _ => hname
      · exact hempty
    · rename_i hname
      rw [if_neg hname]
      split at h
      · rename_i heq
        rw [if_pos heq]
        exact hempty h
      · rename_i hne
        rw [if_neg hne]
        exact search_empty t param n _ _ hempty h

/-! ## The invariant -/

structure NamesInv (t : Table) (log : List (Name × Nat)) : Prop where
  unique : ∀ i j, t.Used i → t.Used j → (t.entry i).name = (t.entry j).name →
    (t.entry i).name ≠ [] → i = j
  fresh : ∀ i, t.entryCount ≤ i → (t.entry i).name = []
  logged : ∀ x ∈ log, t.Used x.2 ∧ (t.entry x.2).name = x.1 ∧ x.1 ≠ []
  /-- `control` stays good until the loop is at an entry of the log. -/
  near : ∀ x ∈ log, Kept 0 (List.range' 1 (x.2 - 1))

/-- A name that an entry has is found there. -/
theorem NamesInv.search_named (h : NamesInv t log) {i : Nat} (hi : t.Used i)
    (hname : (t.entry i).name = param) (hparam : param ≠ []) :
    (t.search param (t.entryCount - 1) 1 0).1 = i := by
  have hbound := search_spec t param (t.entryCount - 1) 1 0 one_ne_zero
  by_contra hne
  have hzero : (t.search param (t.entryCount - 1) 1 0).1 ≠ 0 := fun h0 =>
    search_missed t hparam _ _ _ one_ne_zero h0 i (Nat.pos_of_ne_zero hi.1)
      (by have := hi.2; omega) hname
  have hsame := search_name t param _ _ _ hzero
  have hused : t.Used (t.search param (t.entryCount - 1) 1 0).1 :=
    ⟨hzero, by have := (hbound.1 hzero).1; omega⟩
  exact hne (h.unique _ _ hused hi (hsame.trans hname.symm) (by rwa [hsame]))

theorem NamesInv.apart (h : NamesInv t log) : NamesApart t log where
  again := fun x hx => by
    obtain ⟨hused, hname, hparam⟩ := h.logged x hx
    have hfound := h.search_named hused hname hparam
    constructor
    · unfold Table.InstHeld Table.looked
      simp only [hfound, ne_eq, hused.1, not_false_eq_true, if_true]
      exact h.near x hx
    · intro clear
      unfold Table.instOut
      simp only [hfound, if_pos hused.1]
  apart := fun x hx y hy heq => by
    rw [← (h.logged x hx).2.1, ← (h.logged y hy).2.1, heq]

/-! ## What the operations keep -/

theorem NamesInv.congr {sect : Nat} (h : NamesInv t log) (hsame : SameNames sect t u) :
    NamesInv u log where
  unique := fun i j hi hj => by
    unfold Table.Used at hi hj
    rw [hsame.count] at hi hj
    rw [hsame.names, hsame.names]
    exact h.unique i j hi hj
  fresh := fun i hi => by
    rw [hsame.names]
    exact h.fresh i (hsame.count ▸ hi)
  logged := fun x hx => by
    unfold Table.Used
    rw [hsame.names, hsame.count]
    exact h.logged x hx
  near := h.near

theorem name_newEntry (t : Table) (empty : Nat) (param : Name) (i : Nat) :
    ((t.newEntry empty param).entry i).name =
      if i = empty then param.take (nameSize - 1) else (t.entry i).name := by
  unfold Table.newEntry
  simp only [Function.update_apply]
  split <;> rfl

theorem entryCount_newEntry_le (t : Table) (empty : Nat) (param : Name) :
    t.entryCount ≤ (t.newEntry empty param).entryCount := by
  unfold Table.newEntry
  simp only
  split
  · exact Nat.le_succ _
  · exact le_refl _

/-- A new entry for a name that no entry has. -/
theorem NamesInv.newEntry (h : NamesInv t log) {empty : Nat} (hused : t.Used empty)
    (hempty : (t.entry empty).name = []) (hparam : param ≠ []) (hlen : param.length < nameSize)
    (hnear : Kept 0 (List.range' 1 (empty - 1)))
    (hnew : ∀ i, t.Used i → (t.entry i).name ≠ param) :
    NamesInv (t.newEntry empty param) ((param, empty) :: log) := by
  have htake : param.take (nameSize - 1) = param := List.take_of_length_le (by omega)
  have hname (i : Nat) : ((t.newEntry empty param).entry i).name =
      if i = empty then param else (t.entry i).name := by
    rw [name_newEntry, htake]
  -- an entry with a name was one before, or is the new one
  have hold {i : Nat} (hne : ((t.newEntry empty param).entry i).name ≠ []) (hi : i ≠ empty)
      (hu : (t.newEntry empty param).Used i) : t.Used i := by
    rw [hname, if_neg hi] at hne
    refine ⟨hu.1, ?_⟩
    by_contra hge
    exact hne (h.fresh i (not_lt.mp hge))
  have hcount := entryCount_newEntry_le t empty param
  have hkeep {i : Nat} (hi : t.Used i) : (t.newEntry empty param).Used i :=
    ⟨hi.1, lt_of_lt_of_le hi.2 hcount⟩
  constructor
  · intro i j hi hj heq hne
    have hi' := hold hne
    have hj' := hold (heq ▸ hne)
    rw [hname, hname] at heq
    by_cases hie : i = empty <;> by_cases hje : j = empty
    · rw [hie, hje]
    · rw [if_pos hie, if_neg hje] at heq
      exact absurd heq.symm (hnew j (hj' hje hj))
    · rw [if_neg hie, if_pos hje] at heq
      exact absurd heq (hnew i (hi' hie hi))
    · rw [if_neg hie, if_neg hje] at heq
      rw [hname, if_neg hie] at hne
      exact h.unique i j (hi' hie hi) (hj' hje hj) heq hne
  · intro i hi
    rw [hname, if_neg (by have := hused.2; omega)]
    exact h.fresh i (hcount.trans hi)
  · intro x hx
    rcases List.mem_cons.mp hx with rfl | hx
    · exact ⟨hkeep hused, by rw [hname, if_pos rfl], hparam⟩
    · obtain ⟨hu, hn, hne⟩ := h.logged x hx
      have hxe : x.2 ≠ empty := by
        intro heq
        rw [heq, hempty] at hn
        exact hne hn.symm
      exact ⟨hkeep hu, by rw [hname, if_neg hxe, hn], hne⟩
  · intro x hx
    rcases List.mem_cons.mp hx with rfl | hx
    · exact hnear
    · exact h.near x hx

/-- One instantiation. -/
theorem NamesInv.instOut (h : NamesInv t log) (hheld : t.InstHeld param) (hparam : param ≠ [])
    (hlen : param.length < nameSize) (clear : Bool) :
    NamesInv (t.instOut param clear).1
      (((t.instOut param clear).2.map (param, ·)).toList ++ log) := by
  have hbound := search_spec t param (t.entryCount - 1) 1 0 one_ne_zero
  have hname := search_name t param (t.entryCount - 1) 1 0
  have hmissed := search_missed t hparam (t.entryCount - 1) 1 0 one_ne_zero
  have hempty := search_empty t param (t.entryCount - 1) 1 0 (fun h => absurd rfl h)
  unfold Table.InstHeld Table.looked at hheld
  unfold Table.instOut
  generalize t.search param (t.entryCount - 1) 1 0 = r at hbound hname hmissed hempty hheld ⊢
  obtain ⟨found, empty⟩ := r
  simp only at hbound hname hmissed hempty hheld ⊢
  split
  · rename_i hfound
    have hlt := (hbound.1 hfound).1
    have hused : t.Used found := ⟨hfound, by omega⟩
    rw [if_pos hfound] at hheld
    refine ⟨h.unique, h.fresh, fun x hx => ?_, fun x hx => ?_⟩
    · rcases List.mem_cons.mp hx with rfl | hx
      · exact ⟨hused, hname hfound, hparam⟩
      · exact h.logged x hx
    · rcases List.mem_cons.mp hx with rfl | hx
      · exact hheld
      · exact h.near x hx
  · rename_i hfound
    split
    · exact h
    · rename_i hclear
      push Not at hclear hfound
      have hlt : empty < t.entryCount := by have := hbound.2; omega
      rw [if_neg (not_not.mpr hfound)] at hheld
      refine h.newEntry ⟨hclear.2, hlt⟩ (hempty hclear.2) hparam hlen (hheld.mono fun i hi => ?_) ?_
      · have hi := List.mem_range'_1.mp hi
        exact List.mem_range'_1.mpr (by omega)
      intro i hi
      exact hmissed hfound i (Nat.pos_of_ne_zero hi.1) (by have := hi.2; omega)

/-! ## Runs -/

theorem namesInv_init {s : Logged} (h : LoggedInit s) : NamesInv s.sys.table s.log := by
  obtain ⟨⟨htable, -⟩, hlog⟩ := h
  rw [htable, hlog]
  exact ⟨fun i j _ _ _ hne => absurd rfl hne, fun _ _ => rfl, by simp, by simp⟩

theorem namesInv_step {s u : Logged} {x : Event × Logged} (h : NamesInv s.sys.table s.log)
    (hok : NameFits s x) (hs : loggedStep s x = some u) : NamesInv u.sys.table u.log := by
  obtain ⟨e, stray⟩ := x
  obtain ⟨hheld, hfits⟩ := hok
  obtain ⟨v, hv, rfl⟩ := Option.map_eq_some_iff.mp hs
  simp only [if_pos hheld]
  cases e with
  | init out param clear =>
    have hinst := h.instOut hheld hfits.1 hfits.2 clear
    unfold Sys.reaches
    rcases hr : s.sys.table.instOut param clear with ⟨t, _ | index⟩
    · simp only [step, hr, Option.some.injEq] at hv hinst ⊢
      subst hv
      exact hinst
    · simp only [step, hr, Option.some.injEq] at hv hinst ⊢
      subst hv
      exact hinst
  | exit out =>
    cases hv
    exact h
  | create out sect logAddr logLen clear grows ok =>
    simp only [step, Option.ite_none_right_eq_some, Option.some.injEq] at hv
    obtain ⟨-, rfl⟩ := hv
    exact h.congr (sameNames_create _ _ _ _ _ _ _ _)
  | move out sect logAddr logLen offset offsetMax ok delta =>
    simp only [step, Option.ite_none_right_eq_some, Option.some.injEq] at hv
    obtain ⟨-, rfl⟩ := hv
    exact h.congr (sameNames_move _ _ _ _ _ _ _ _ _)

/-- **Names and entries.** As long as every name fits into its field and the pointers stay good, each
name reaches its own entry whenever it is instantiated. -/
theorem names_apart {s : Logged} (h : Reach loggedStep LoggedInit NameFits s) :
    NamesApart s.sys.table s.log :=
  NamesInv.apart (h.invariant (I := fun s => NamesInv s.sys.table s.log) (fun _ => namesInv_init)
    fun _ _ _ => namesInv_step)

/-- Two files, and the first one again. -/
theorem names_apart_again : ∃ s : Logged, s.log = [([97], 1), ([98], 2), ([97], 1)] ∧
    NamesApart s.sys.table s.log := by
  have hrun : (run loggedStep NameFits ⟨empty, []⟩
      ([.init 0 [97] true, .init 1 [98] true, .init 2 [97] false].map (·, ⟨empty, []⟩))).map
        Logged.log =
      some [([97], 1), ([98], 2), ([97], 1)] := by
    decide +kernel
  obtain ⟨s, hs, hlog⟩ := Option.map_eq_some_iff.mp hrun
  exact ⟨s, hlog, names_apart ((Reach.start ⟨⟨rfl, fun _ => rfl⟩, rfl⟩).of_run hs)⟩

/-- A name of 48 characters reaches two entries, and its first 47 characters the first of them. The
empty name leaves its entry to the next name. -/
theorem names_lost :
    (∃ s : Logged, Reach loggedStep LoggedInit LoggedHeld s ∧
      s.log = [(List.replicate 47 97, 1), (List.replicate 48 97, 2), (List.replicate 48 97, 1)] ∧
        ¬NamesApart s.sys.table s.log) ∧
    ∃ s : Logged, Reach loggedStep LoggedInit LoggedHeld s ∧ s.log = [([97], 1), ([], 1)] ∧
      ¬NamesApart s.sys.table s.log := by
  have hreach {s : Logged} {es : List (Event × Logged)} (hs : run loggedStep LoggedHeld ⟨empty, []⟩ es = some s) :
      Reach loggedStep LoggedInit LoggedHeld s :=
    (Reach.start ⟨⟨rfl, fun _ => rfl⟩, rfl⟩).of_run hs
  have hnot {s : Logged} {p q : Name} {i : Nat} (hp : (p, i) ∈ s.log) (hq : (q, i) ∈ s.log)
      (hne : p ≠ q) : ¬NamesApart s.sys.table s.log := fun h => hne (h.apart _ hp _ hq rfl)
  constructor
  · have hrun : (run loggedStep LoggedHeld ⟨empty, []⟩
        ([.init 0 (List.replicate 48 97) true, .init 1 (List.replicate 48 97) true,
          .init 2 (List.replicate 47 97) false].map (·, ⟨empty, []⟩))).map Logged.log =
        some [(List.replicate 47 97, 1), (List.replicate 48 97, 2), (List.replicate 48 97, 1)] := by
      decide +kernel
    obtain ⟨s, hs, hlog⟩ := Option.map_eq_some_iff.mp hrun
    refine ⟨s, hreach hs, hlog, hnot (p := List.replicate 47 97) (q := List.replicate 48 97) (i := 1)
      (by simp [hlog]) (by simp [hlog]) (by decide)⟩
  · have hrun : (run loggedStep LoggedHeld ⟨empty, []⟩
        ([.init 0 [] true, .init 1 [97] true].map (·, ⟨empty, []⟩))).map Logged.log = some [([97], 1), ([], 1)] := by
      decide +kernel
    obtain ⟨s, hs, hlog⟩ := Option.map_eq_some_iff.mp hrun
    refine ⟨s, hreach hs, hlog, hnot (p := [97]) (q := []) (i := 1)
      (by simp [hlog]) (by simp [hlog]) (by decide)⟩

end Athomux.DirSimple
