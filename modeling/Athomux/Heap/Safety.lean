import Athomux.Heap.Proofs

/-! # Whole runs of `#heap` -/

open Lib

namespace Athomux.Heap

variable {s u : Sys} {logAddr logLen : Nat} {got : Got} {putOk : Bool}

/-! ## The invariant -/

/-- The range has room behind the page, and ends below the last address. -/
def Config (s : Sys) : Prop :=
  stateSize ≤ s.rangeLen ∧ s.rangeAddr + s.rangeLen < addrSpace

/-- All that is given out is recorded, and in one range only. -/
structure Safe (s : Sys) : Prop where
  config : Config s
  full : s.table.nRecs ≤ nRecsMax
  ordered : Ordered s.table (s.rangeAddr + stateSize) (s.rangeAddr + s.rangeLen)
  recorded : ∀ a ∈ s.allocs, ∀ x, a.Has x → Recorded s.table x
  apart : s.allocs.Pairwise fun a b => ∀ x, a.Has x → ¬ b.Has x

/-- The new range ends inside of the heap. -/
def Fits (s : Sys) (logLen : Nat) : Prop :=
  s.table.nRecs < nRecsMax →
    (newRec s.table s.rangeAddr logLen).addr + logLen ≤ s.rangeAddr + s.rangeLen

theorem Safe.gadr (h : Safe s) (hfits : got.usable = true → Fits s logLen) :
    Safe (gadr s logLen got putOk) := by
  unfold Heap.gadr
  simp only
  split
  · exact ⟨h.config, h.full, h.ordered, h.recorded, h.apart⟩
  rename_i husable
  split
  · exact ⟨h.config, h.full, h.ordered, h.recorded, h.apart⟩
  rename_i hfull
  have hend := hfits (by simpa using husable) (Nat.not_le.mp hfull)
  have haddr : (newRec s.table s.rangeAddr logLen).addr = _ :=
    newRec_addr h.ordered h.config.2 rfl (Nat.add_le_add_left h.config.1 _)
  have hlen := newRec_len s.table s.rangeAddr logLen
  generalize newRec s.table s.rangeAddr logLen = r at *
  have hlast : ∀ i < s.table.nRecs, (s.table.recs i).addr + (s.table.recs i).len ≤ r.addr := by
    intro i hi
    rw [haddr, if_neg (by omega)]
    rcases Nat.lt_or_eq_of_le (Nat.le_sub_one_of_lt hi) with hlt | rfl
    · exact (h.ordered.before hlt (by omega)).trans (Nat.le_add_right _ _)
    · exact Nat.le_refl _
  have hlow : s.rangeAddr + stateSize ≤ r.addr := by
    rw [haddr]
    split
    · exact Nat.le_refl _
    · exact (h.ordered.low _ (by omega)).trans (Nat.le_add_right _ _)
  refine ⟨h.config, Nat.not_le.mp hfull, h.ordered.addRec hlow (by rwa [hlen]) fun hn =>
    hlast _ (by omega), ?_, ?_⟩
  · have hold : ∀ a ∈ s.allocs, ∀ x, a.Has x → Recorded (addRec s.table r) x := fun a ha x hx =>
      recorded_addRec (Or.inl (h.recorded a ha x hx))
    cases putOk with
    | false => exact hold
    | true =>
      refine List.forall_mem_cons.mpr ⟨fun x hx => ?_, hold⟩
      exact recorded_addRec (Or.inr hx.1)
  · cases putOk with
    | false => exact h.apart
    | true =>
      refine List.pairwise_cons.mpr ⟨fun a ha x hx hax => ?_, h.apart⟩
      obtain ⟨i, hi, hix⟩ := h.recorded a ha x hax
      have h1 := hlast i hi
      have h2 := hix.2
      have h3 := hx.1.1
      simp only at h3
      omega

/-- What is still there of a range of which something is given back. -/
theorem has_back {a : Alloc} {r : Rec} {x : Nat} :
    ({ a with back := r :: a.back } : Alloc).Has x ↔ a.Has x ∧ ¬ r.Has x := by
  simp only [Alloc.Has, List.mem_cons, forall_eq_or_imp]
  tauto

theorem Safe.padr (h : Safe s)
    (hok : logLen ≠ 0 → got.usable = true →
      logAddr + logLen < addrSpace ∧ putOk = true ∧ Clean s.table logAddr logLen)
    (hs : padr s logAddr logLen got putOk = some u) : Safe u := by
  unfold Heap.padr at hs
  split at hs
  · cases hs
    exact h
  rename_i hlen
  simp only at hs
  split at hs
  · cases hs
    exact ⟨h.config, h.full, h.ordered, h.recorded, h.apart⟩
  rename_i husable
  obtain ⟨hwrap, rfl, hclean⟩ := hok hlen (by simpa using husable)
  rcases release_spec h.ordered h.config.2 h.full hwrap hclean with hrel | ⟨t', hrel, hkept, hfull⟩
  · rw [hrel] at hs
    cases hs
    exact ⟨h.config, h.full, h.ordered, h.recorded, h.apart⟩
  · rw [hrel] at hs
    cases hs
    refine ⟨h.config, hfull, hkept.ordered, ?_, ?_⟩
    · intro b hb x hx
      obtain ⟨a, ha, rfl⟩ := List.mem_map.mp hb
      obtain ⟨hax, hout⟩ := has_back.mp hx
      refine hkept.recorded x (h.recorded a ha x hax) ?_
      simp only [Rec.Has] at hout
      omega
    · refine List.pairwise_map.mpr (h.apart.imp fun hab x hax hbx => ?_)
      exact hab x (has_back.mp hax).1 (has_back.mp hbx).1

/-! ## Whole runs -/

/-- What is given out ends inside of the heap. What is given back does not wrap, its `$put`
succeeds, and no record is deleted. -/
def Sound (s : Sys) : Event → Prop
  | .gadr logLen got _ => got.usable = true → Fits s logLen
  | .padr logAddr logLen got putOk => logLen ≠ 0 → got.usable = true →
    logAddr + logLen < addrSpace ∧ putOk = true ∧ Clean s.table logAddr logLen

/-- The page that is read is an empty table. -/
def Start (s : Sys) : Prop := Init s ∧ s.table.nRecs = 0 ∧ Config s

/-- What is given out is in the heap, and no address is given out twice. -/
def Isolated (s : Sys) : Prop :=
  (s.allocs.Pairwise fun a b => ∀ x, a.Has x → ¬ b.Has x) ∧
  ∀ a ∈ s.allocs, ∀ x, a.Has x → s.rangeAddr + stateSize ≤ x ∧ x < s.rangeAddr + s.rangeLen

/-- The page is read and written back at one address. -/
def SamePlace (s : Sys) : Prop := ∀ p ∈ s.places, p = s.getAddr

theorem Safe.isolated (h : Safe s) : Isolated s := by
  refine ⟨h.apart, fun a ha x hx => ?_⟩
  obtain ⟨i, hi, hix⟩ := h.recorded a ha x hx
  exact ⟨(h.ordered.low i hi).trans hix.1, lt_of_lt_of_le hix.2 (h.ordered.high i hi)⟩

theorem safe_start (h : Start s) : Safe s := by
  obtain ⟨⟨-, hallocs, -⟩, hn, hconfig⟩ := h
  refine ⟨hconfig, by omega, ⟨fun i hi => ?_, fun i hi => ?_, fun i hi => ?_⟩, ?_, ?_⟩
  · omega
  · omega
  · omega
  · rw [hallocs]
    exact fun a ha => absurd ha List.not_mem_nil
  · rw [hallocs]
    exact List.Pairwise.nil

theorem safe_step {e : Event} (h : Safe s) (hok : Sound s e) (hs : step s e = some u) : Safe u := by
  cases e with
  | gadr logLen got putOk =>
    cases hs
    exact h.gadr hok
  | padr logAddr logLen got putOk => exact h.padr hok hs

theorem samePlace_step {e : Event} (h : s.tmp = true → SamePlace s) (hs : step s e = some u) :
    u.tmp = true → SamePlace u := by
  intro htmp
  cases e with
  | gadr logLen got putOk =>
    cases hs
    unfold gadr at htmp ⊢
    simp only at htmp ⊢
    split at htmp
    · rename_i hno
      rw [if_pos hno]
      exact List.forall_mem_cons.mpr ⟨rfl, h htmp⟩
    rename_i hno
    rw [if_neg hno]
    split at htmp
    · rename_i hfull
      rw [if_pos hfull]
      exact List.forall_mem_cons.mpr ⟨rfl, h htmp⟩
    · rename_i hfull
      rw [if_neg hfull]
      have hput : s.putAddr got = s.getAddr := by
        rw [Sys.putAddr, Sys.getAddr, if_pos htmp, if_pos htmp]
      exact List.forall_mem_cons.mpr ⟨hput, List.forall_mem_cons.mpr ⟨rfl, h htmp⟩⟩
  | padr logAddr logLen got putOk =>
    simp only [step, padr] at hs
    split at hs
    · cases hs
      exact h htmp
    split at hs
    · cases hs
      exact List.forall_mem_cons.mpr ⟨rfl, h htmp⟩
    · rw [Option.map_eq_some_iff] at hs
      obtain ⟨r, -, rfl⟩ := hs
      cases r with
      | error _ => exact List.forall_mem_cons.mpr ⟨rfl, h htmp⟩
      | ok table => exact List.forall_mem_cons.mpr ⟨rfl, List.forall_mem_cons.mpr ⟨rfl, h htmp⟩⟩

/-- **No address is given out twice, and none outside of the heap.** This holds in every run that
starts with an empty table and whose steps are all sound. With `:<tmp` the page stays at its place,
too. -/
theorem heap_safe (h : Reach step Start Sound s) : Isolated s ∧ (s.tmp = true → SamePlace s) := by
  refine ⟨Safe.isolated (h.invariant (fun _ => safe_start) fun _ _ _ => safe_step), ?_⟩
  refine Reach.invariant (show ∀ s, Start s → s.tmp = true → SamePlace s from ?_)
    (fun s e u hinv _ hs => samePlace_step hinv hs) h
  rintro s ⟨⟨-, -, hplaces⟩, -⟩ -
  unfold SamePlace
  rw [hplaces]
  exact fun p hp => absurd hp List.not_mem_nil

/-! ## Examples -/

instance (t : Table) (logAddr logLen : Nat) : Decidable (Clean t logAddr logLen) := by
  unfold Clean
  infer_instance

instance (s : Sys) (e : Event) : Decidable (Sound s e) := by
  unfold Sound Fits
  split <;> infer_instance

/-- Right after the start, with the whole nest as heap. -/
def fresh (tmp : Bool) : Sys := ⟨tmp, 0, addrSpace - 1, ⟨0, fun _ => ⟨0, 0⟩⟩, [], []⟩

theorem fresh_start (tmp : Bool) : Start (fresh tmp) :=
  ⟨⟨fun _ => rfl, rfl, rfl⟩, rfl, by cases tmp <;> decide, by cases tmp <;> decide⟩

/-- A `$get` that answers with the whole page. -/
def page (stateAddr : Nat) : Got := ⟨true, stateAddr, stateSize⟩

/-- A hole is cut into the first range, and the start of the second one is given back. -/
theorem heap_safe_hole : ∃ s : Sys,
    s.allocs = [⟨4116, 5, [⟨4106, 3⟩, ⟨4100, 2⟩]⟩, ⟨4106, 10, [⟨4106, 3⟩, ⟨4100, 2⟩]⟩,
      ⟨4096, 10, [⟨4106, 3⟩, ⟨4100, 2⟩]⟩] ∧
    Isolated s ∧ (s.tmp = true → SamePlace s) := by
  have hrun : (run step Sound (fresh true) [.gadr 10 (page 7) true, .gadr 10 (page 7) true,
      .gadr 5 (page 7) true, .padr 4100 2 (page 7) true, .padr 4106 3 (page 7) true]).map
      Sys.allocs = some [⟨4116, 5, [⟨4106, 3⟩, ⟨4100, 2⟩]⟩,
        ⟨4106, 10, [⟨4106, 3⟩, ⟨4100, 2⟩]⟩, ⟨4096, 10, [⟨4106, 3⟩, ⟨4100, 2⟩]⟩] := by
    decide +kernel
  obtain ⟨s, hs, heq⟩ := Option.map_eq_some_iff.mp hrun
  exact ⟨s, heq, heap_safe ((Reach.start (fresh_start true)).of_run hs)⟩

/-- After the first of three ranges was given back the third one is given out again. What does not
fit into the heap is given out behind it. And in `:<in` the page is put back at its physical
address. -/
theorem heap_broken :
    (∃ s, Reach step Init anyEvent s ∧ s.allocs = [⟨4116, 10, []⟩, ⟨4116, 10, [⟨4096, 10⟩]⟩,
      ⟨4106, 10, [⟨4096, 10⟩]⟩, ⟨4096, 10, [⟨4096, 10⟩]⟩] ∧ ¬ Isolated s) ∧
    (∃ s, Reach step Init anyEvent s ∧
      s.allocs = [⟨addrSpace - 4096, 8192, []⟩, ⟨4096, addrSpace - 8192, []⟩] ∧ ¬ Isolated s) ∧
    ∃ s, Reach step Init anyEvent s ∧ s.places = [7, 0] ∧ ¬ SamePlace s := by
  have hrun : (run step anyEvent (fresh true) [.gadr 10 (page 7) true, .gadr 10 (page 7) true,
      .gadr 10 (page 7) true, .padr 4096 10 (page 7) true, .gadr 10 (page 7) true]).map
      Sys.allocs = some [⟨4116, 10, []⟩, ⟨4116, 10, [⟨4096, 10⟩]⟩,
        ⟨4106, 10, [⟨4096, 10⟩]⟩, ⟨4096, 10, [⟨4096, 10⟩]⟩] := by
    decide +kernel
  have hrun' : (run step anyEvent (fresh true) [.gadr (addrSpace - 8192) (page 7) true,
      .gadr 8192 (page 7) true]).map (fun s => (s.allocs, s.rangeAddr + s.rangeLen)) =
      some ([⟨addrSpace - 4096, 8192, []⟩, ⟨4096, addrSpace - 8192, []⟩], addrSpace - 1) := by
    decide +kernel
  have hrun'' : (run step anyEvent (fresh false) [.gadr 10 (page 7) true]).map
      (fun s => (s.places, s.tmp)) = some ([7, 0], false) := by
    decide +kernel
  obtain ⟨s, hs, heq⟩ := Option.map_eq_some_iff.mp hrun
  obtain ⟨s', hs', heq'⟩ := Option.map_eq_some_iff.mp hrun'
  obtain ⟨s'', hs'', heq''⟩ := Option.map_eq_some_iff.mp hrun''
  simp only [Prod.mk.injEq] at heq' heq''
  refine ⟨⟨s, (Reach.start (fresh_start true).1).of_run hs, heq, fun h => ?_⟩,
    ⟨s', (Reach.start (fresh_start true).1).of_run hs', heq'.1, fun h => ?_⟩,
    s'', (Reach.start (fresh_start false).1).of_run hs'', heq''.1, fun h => ?_⟩
  · have hpair := h.1
    rw [heq] at hpair
    refine List.rel_of_pairwise_cons hpair List.mem_cons_self 4116 ⟨by decide, by simp⟩
      ⟨by decide, by simp [Rec.Has]⟩
  · have hin := (h.2 ⟨addrSpace - 4096, 8192, []⟩ (by rw [heq'.1]; exact List.mem_cons_self)
      addrSpace ⟨by decide, by simp⟩).2
    rw [heq'.2] at hin
    exact absurd hin (by decide)
  · have hplace := h 7 (by rw [heq''.1]; exact List.mem_cons_self)
    rw [Sys.getAddr, heq''.2] at hplace
    cases hplace

end Athomux.Heap
