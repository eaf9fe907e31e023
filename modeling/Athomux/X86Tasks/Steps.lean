import Athomux.X86Tasks.Ring

/-!
# What the operations do to the ring
-/

open Lib

namespace Athomux.X86Tasks

variable {s s' : Sys} {tasks : Nat → Task} {i r lastTask turns junk : Nat} {st : TaskState}
  {way ring skip rest xs ys : List Nat}

theorem cycle_split (xs ys : List Nat) (i : Nat) :
    ((xs ++ i :: ys : List Nat) : Cycle Nat) = (i :: (ys ++ xs) : List Nat) :=
  Cycle.coe_eq_coe.mpr List.isRotated_append

theorem cycle_append (xs ys : List Nat) :
    ((xs ++ ys : List Nat) : Cycle Nat) = (ys ++ xs : List Nat) :=
  Cycle.coe_eq_coe.mpr List.isRotated_append

/-! ## A state is set -/

theorem Inv.setState (h : Inv s way ring) (hi : i ∈ ring) :
    Inv { s with tasks := setState s.tasks i st } way ring where
  links := by simpa using h.links
  nodup := h.nodup
  perm := h.perm
  bound := h.bound
  count := h.count
  tag := h.tag
  free k hk := by
    have hne : k ≠ i := fun heq => hk (heq ▸ hi)
    simp only [state_setState, Function.update_of_ne hne]
    exact h.free k hk
  way := h.way.congr next_setState

/-! ## A task is deleted -/

theorem nodup_split (hnd : (xs ++ i :: ys).Nodup) : i ∉ xs ++ ys :=
  (List.nodup_cons.mp (List.perm_middle.nodup_iff.mp hnd)).1

theorem links_unlink (h : LinkedRing (next tasks) (prev tasks) (xs ++ i :: ys : List Nat))
    (hnd : (xs ++ i :: ys).Nodup) : LinkedRing (next (unlink tasks i)) (prev (unlink tasks i))
      (xs ++ ys : List Nat) := by
  rw [cycle_split] at h
  have hi : i ∉ ys ++ xs := fun hmem => nodup_split hnd (List.perm_append_comm.mem_iff.mp hmem)
  rw [next_unlink, prev_unlink, cycle_append]
  exact h.remove hi

/-- The remembered task may be the one that is deleted, and so may the one that its link leads to. -/
theorem Way.unlink (h : Way tasks lastTask way (xs ++ i :: ys))
    (hlinks : LinkedRing (next tasks) (prev tasks) (xs ++ i :: ys : List Nat))
    (hnd : (xs ++ i :: ys).Nodup) (hne : xs ++ ys ≠ []) :
    ∃ way', Way (unlink tasks i) lastTask way' (xs ++ ys) := by
  rw [cycle_split] at hlinks
  have hi := nodup_split hnd
  have hprev : prev tasks i ∈ xs ++ i :: ys := by
    have := hlinks.prev_mem
    simp only [List.mem_append, List.mem_cons] at this ⊢
    tauto
  have hsame (k : Nat) (hk : k ∉ xs ++ i :: ys) : next (X86Tasks.unlink tasks i) k = next tasks k := by
    rw [next_unlink, Function.update_of_ne]
    rintro rfl
    exact hk hprev
  have hnext := hlinks.next_head
  cases h with
  | here hlast =>
    cases ys with
    | nil =>
      obtain rfl : i = lastTask := by simpa using hlast
      cases xs with
      | nil => exact absurd rfl hne
      | cons x xs =>
        rw [List.append_nil] at hi ⊢
        refine ⟨[], .gone hi (fun _ h => absurd h List.not_mem_nil) ?_⟩
        refine List.isChain_cons_cons.mpr ⟨?_, List.isChain_singleton _⟩
        exact (next_unlink_self _ _).trans (by simpa using hnext)
    | cons y ys =>
      rw [List.getLast?_append_of_ne_nil _ (List.cons_ne_nil _ _), List.getLast?_cons_cons] at hlast
      exact ⟨[], .here (by rw [List.getLast?_append_of_ne_nil _ (List.cons_ne_nil _ _), hlast])⟩
  | gone hno hway hchain =>
    have hsub : ∀ k, k ∉ xs ++ i :: ys → k ∉ xs ++ ys := by
      intro k hk
      simp only [List.mem_append, List.mem_cons] at hk ⊢
      tauto
    cases xs with
    | cons x xs =>
      refine ⟨way, .gone (hsub _ hno) (fun k hk => hsub k (hway k hk)) ?_⟩
      refine Follows.congr (by simp) hchain fun k hk => hsame k ?_
      rcases List.mem_cons.mp hk with rfl | hk
      · exact hno
      · exact hway k hk
    | nil =>
      obtain ⟨y, ys, rfl⟩ := List.exists_cons_of_ne_nil hne
      have hstep : List.IsChain (Follows tasks) ([i] ++ [y]) :=
        List.isChain_cons_cons.mpr ⟨show next tasks i = y by simpa using hnext, List.isChain_singleton _⟩
      have hlong := List.IsChain.append_overlap hchain hstep (by simp)
      refine ⟨way ++ [i], .gone (hsub _ hno) ?_ ?_⟩
      · intro k hk
        rcases List.mem_append.mp hk with hk | hk
        · exact hsub k (hway k hk)
        · rwa [List.mem_singleton.mp hk]
      · refine Follows.congr (by simp) (l := lastTask :: way ++ [i]) hlong fun k hk => ?_
        rcases List.mem_append.mp hk with hk | hk
        · refine hsame k ?_
          rcases List.mem_cons.mp hk with rfl | hk
          · exact hno
          · exact hway k hk
        · rw [List.mem_singleton.mp hk]
          exact next_unlink_self _ _

theorem erase_split (hnd : (xs ++ i :: ys).Nodup) : (xs ++ i :: ys).erase i = xs ++ ys := by
  have hi : i ∉ xs := fun hmem => nodup_split hnd (List.mem_append_left ys hmem)
  rw [List.erase_append_right _ hi, List.erase_cons_head]

theorem Inv.unlink (h : Inv s way ring) (h0 : i ≠ 0) (hlive : i ∈ s.live) :
    ∃ way', Inv { s with
      tasks := X86Tasks.setState (X86Tasks.unlink s.tasks i) i .notRunnable
      taskCount := s.taskCount - 1
      live := s.live.erase i } way' (ring.erase i) := by
  have hmem : i ∈ ring := h.mem.mpr (List.mem_cons_of_mem 0 hlive)
  have hzero : 0 ∈ ring.erase i := (List.mem_erase_of_ne h0.symm).mpr h.zero_mem
  obtain ⟨xs, ys, rfl⟩ := List.append_of_mem hmem
  have herase := erase_split h.nodup
  have hne : xs ++ ys ≠ [] := List.ne_nil_of_mem (herase ▸ hzero)
  obtain ⟨way', hway⟩ := h.way.unlink h.links h.nodup hne
  refine ⟨way', ?_⟩
  exact {
    links := by
      simp only [next_setState, prev_setState, herase]
      exact links_unlink h.links h.nodup
    nodup := h.nodup.erase i
    perm := by
      have := h.perm.erase i
      rwa [List.erase_cons_tail (by simpa using h0.symm)] at this
    bound := fun k hk => h.bound k (List.mem_of_mem_erase hk)
    count := by
      have hcount := h.count
      simp only [List.length_erase_of_mem hmem, hcount]
    tag := h.tag
    free := by
      intro k hk
      simp only [state_setState, state_unlink]
      by_cases hki : k = i
      · rw [hki, Function.update_self]
      · rw [Function.update_of_ne hki]
        exact h.free k fun hmem => hk ((List.mem_erase_of_ne hki).mpr hmem)
    way := by
      rw [herase]
      exact hway.congr next_setState }

theorem Inv.delete (h : Inv s way ring) (h0 : i ≠ 0) (hlive : i ∈ s.live) :
    ∃ way', Inv { deleteTask s i with live := s.live.erase i } way' (ring.erase i) := by
  obtain ⟨way', hinv⟩ := h.unlink h0 hlive
  refine ⟨way', ?_⟩
  unfold deleteTask
  dsimp only
  split
  · exact hinv.setState hinv.zero_mem
  · exact hinv

/-! ## A task is created -/

theorem freeSlot_spec (h : freeSlot s = some i) : i < maxTasks ∧ state s.tasks i = .notRunnable := by
  have hmem := List.mem_of_find?_eq_some h
  have hstate := List.find?_some h
  exact ⟨List.mem_range.mp hmem, by simpa [state] using hstate⟩

/-- The slot is in the process id. -/
theorem pidTaskIndex_pid {i tag : Nat} (htag : tag ≤ 0xFFFF) : pidTaskIndex (i <<< 16 ||| tag) = i := by
  rw [pidTaskIndex, Nat.shiftRight_or_distrib, Nat.shiftLeft_shiftRight, Nat.shiftRight_eq_div_pow,
    Nat.div_eq_of_lt (by omega), Nat.or_zero]

theorem links_link (h : LinkedRing (next tasks) (prev tasks) (xs ++ 0 :: ys : List Nat))
    (hnd : (xs ++ 0 :: ys).Nodup) (hi : i ∉ xs ++ 0 :: ys) :
    LinkedRing (next (link tasks i)) (prev (link tasks i)) (xs ++ 0 :: i :: ys : List Nat) := by
  have h0 : 0 ∉ ys ++ xs := fun hmem => nodup_split hnd (List.perm_append_comm.mem_iff.mp hmem)
  have hi' : i ∉ 0 :: (ys ++ xs) := by
    simp only [List.mem_append, List.mem_cons] at hi ⊢
    tauto
  have hne : i ≠ 0 := fun heq => hi' (heq ▸ List.mem_cons_self)
  rw [cycle_split] at h
  rw [next_link hne, prev_link hne, cycle_split]
  exact h.insertAfter h0 hi'

theorem Way.link (h : Way tasks lastTask way (xs ++ 0 :: ys)) (hlast : lastTask ≠ 0)
    (hi : i ∉ xs ++ 0 :: ys) (hway : i ∉ lastTask :: way) :
    Way (link tasks i) lastTask way (xs ++ 0 :: i :: ys) := by
  have h0 : 0 ∈ xs ++ 0 :: ys := List.mem_append_right xs List.mem_cons_self
  have hne : i ≠ 0 := fun heq => hi (heq ▸ h0)
  cases h with
  | here hend =>
    cases ys with
    | nil => exact absurd (by simpa using hend) hlast.symm
    | cons y ys => exact .here (by simpa using hend)
  | gone hno hway' hchain =>
    have hmem (k : Nat) (hk : k ∉ xs ++ 0 :: ys) (hki : k ≠ i) : k ∉ xs ++ 0 :: i :: ys := by
      simp only [List.mem_append, List.mem_cons] at hk ⊢
      tauto
    have hsame (k : Nat) (hk : k ∉ xs ++ 0 :: ys) (hki : k ≠ i) :
        next (X86Tasks.link tasks i) k = next tasks k := by
      have hk0 : k ≠ 0 := fun heq => hk (heq ▸ h0)
      rw [next_link hne, Function.update_of_ne hki, Function.update_of_ne hk0]
    have hout (k : Nat) (hk : k ∈ lastTask :: way) : k ∉ xs ++ 0 :: ys ∧ k ≠ i := by
      refine ⟨?_, fun heq => hway (heq ▸ hk)⟩
      rcases List.mem_cons.mp hk with rfl | hk
      · exact hno
      · exact hway' k hk
    have htake : (xs ++ 0 :: i :: ys).take 1 = (xs ++ 0 :: ys).take 1 := by
      cases xs <;> rfl
    refine .gone (hmem _ hno (hout _ List.mem_cons_self).2) (fun k hk => ?_) ?_
    · have := hout k (List.mem_cons_of_mem _ hk)
      exact hmem k this.1 this.2
    · rw [htake]
      refine Follows.congr (List.length_take_le 1 _) hchain fun k hk => ?_
      exact hsame k (hout k hk).1 (hout k hk).2

/-- The new task may be anywhere in the ring that the links give. -/
theorem Inv.link (h : Inv s way ring) (hlt : i < maxTasks) (hi : i ∉ ring) {ring' : List Nat}
    (hperm : ring'.Perm (i :: ring))
    (hlinks : LinkedRing (next (X86Tasks.link s.tasks i)) (prev (X86Tasks.link s.tasks i)) (ring' : Cycle Nat))
    (hway : Way (X86Tasks.link s.tasks i) s.lastTask way ring') {pid tag : Nat} (htag : tag ≤ 0xFFFF) :
    Inv { s with
      tasks := setPid (X86Tasks.setState (X86Tasks.link s.tasks i) i .notRunnable) i pid
      nextTag := tag
      taskCount := s.taskCount + 1
      live := i :: s.live } way ring' where
  links := by simpa using hlinks
  nodup := hperm.nodup_iff.mpr (List.nodup_cons.mpr ⟨hi, h.nodup⟩)
  perm := (hperm.trans (h.perm.cons i)).trans (List.Perm.swap 0 i s.live)
  bound k hk := by
    rcases List.mem_cons.mp (hperm.mem_iff.mp hk) with rfl | hk
    · exact hlt
    · exact h.bound k hk
  count := by
    have hcount := h.count
    simp only [hperm.length_eq, List.length_cons, hcount]
  tag := htag
  free k hk := by
    rw [hperm.mem_iff, List.mem_cons, not_or] at hk
    simp only [state_setPid, state_setState, state_link, Function.update_of_ne hk.1]
    exact h.free k hk.2
  way := hway.congr (by simp)

theorem create_eq (hfree : freeSlot s = some i) (htag : s.nextTag ≤ 0xFFFF) :
    step s (.create junk) = some { s with
      tasks := setPid (setState (link s.tasks i) i .notRunnable) i (i <<< 16 ||| s.nextTag)
      nextTag := if s.nextTag + 1 > 0xFFFF then 1 else s.nextTag + 1
      taskCount := s.taskCount + 1
      live := i :: s.live } := by
  simp only [step, gadr, createTask, hfree, Option.map_some, if_true]
  rw [pidTaskIndex_pid htag, Nat.mul_div_cancel _ (show 0 < taskSize by decide)]

theorem Inv.create (h : Inv s way ring) (hfree : freeSlot s = some i) (hi : i ∉ ring)
    (hway : i ∉ s.lastTask :: way) (hstep : step s (.create junk) = some s') {ok : Nat → Prop} :
    ∃ ring', Inv s' way ring' ∧
      RoundRobin.Step 0 ok ⟨s.lastTask, ring⟩ none ⟨s'.lastTask, ring'⟩ := by
  have hlt := (freeSlot_spec hfree).1
  obtain rfl := Option.some.inj ((create_eq hfree h.tag).symm.trans hstep)
  have htag : (if s.nextTag + 1 > 0xFFFF then 1 else s.nextTag + 1) ≤ 0xFFFF := by
    split <;> omega
  by_cases hlast : s.lastTask = 0
  · -- The new task is the next one.
    have hend : ring.getLast? = some 0 ∧ way = [] := by
      cases h.way with
      | here hend => exact ⟨hlast ▸ hend, rfl⟩
      | gone hno => exact absurd h.zero_mem (hlast ▸ hno)
    obtain ⟨hend, rfl⟩ := hend
    obtain ⟨l, rfl⟩ := List.getLast?_eq_some_iff.mp hend
    refine ⟨i :: (l ++ [0]), h.link hlt hi (List.Perm.refl _) ?_ ?_ htag, ?_⟩
    · have hrot := cycle_append (l ++ [0]) [i]
      rw [List.append_assoc] at hrot
      exact hrot ▸ links_link h.links h.nodup hi
    · refine .here ?_
      rw [hlast, ← List.cons_append, List.getLast?_append_of_ne_nil _ (List.cons_ne_nil _ _)]
      rfl
    · rw [hlast]
      exact .joinFirst hi
  · obtain ⟨xs, ys, rfl⟩ := List.append_of_mem h.zero_mem
    refine ⟨xs ++ 0 :: i :: ys, h.link hlt hi ?_ (links_link h.links h.nodup hi)
      (h.way.link hlast hi hway) htag, .join hlast hi⟩
    have : (xs ++ [0] ++ i :: ys).Perm (i :: (xs ++ [0] ++ ys)) := List.perm_middle
    simpa using this

/-! ## A task is chosen -/

/-- The loop ends as soon as a task of the ring is runnable. -/
theorem Inv.scheduleLoop (h : Inv s way (skip ++ r :: rest)) (turns : Nat) (hr : state s.tasks r = .runnable)
    (hskip : ∀ x ∈ skip, state s.tasks x ≠ .runnable) (hway : ∀ x ∈ way, x ∉ skip ++ r :: rest) :
    scheduleLoop s.tasks turns s.lastTask =
      if way.length + skip.length < turns then some r else none := by
  have hchain := h.chain
  have hsplit : s.lastTask :: (way ++ (skip ++ r :: rest)) =
      (s.lastTask :: ((way ++ skip) ++ [r])) ++ rest := by simp
  rw [hsplit] at hchain
  have := scheduleLoop_chain turns (List.isChain_append.mp hchain).1 ?_ hr
  · rwa [List.length_append] at this
  · intro x hx
    rcases List.mem_append.mp hx with hx | hx
    · simp [h.free x (hway x hx)]
    · exact hskip x hx

theorem Way.dead (h : Way tasks lastTask way ring) : ∀ x ∈ way, x ∉ ring := by
  cases h with
  | here => exact fun _ h => absurd h List.not_mem_nil
  | gone _ hway => exact hway

/-- The first runnable task of the ring. -/
theorem exists_first {p : Nat → Prop} [DecidablePred p] {l : List Nat} (h : ∃ x ∈ l, p x) :
    ∃ skip r rest, l = skip ++ r :: rest ∧ p r ∧ ∀ x ∈ skip, ¬ p x := by
  obtain ⟨x, hx, hp⟩ := h
  have hfind := (List.find?_isSome (p := fun x => decide (p x))).mpr ⟨x, hx, decide_eq_true hp⟩
  obtain ⟨r, hr⟩ := Option.isSome_iff_exists.mp hfind
  obtain ⟨hpr, skip, rest, hl, hskip⟩ := List.find?_eq_some_iff_append.mp hr
  exact ⟨skip, r, rest, hl, by simpa using hpr, fun y hy => by simpa using hskip y hy⟩

theorem Inv.schedule (h : Inv s way ring) (hloop : X86Tasks.scheduleLoop s.tasks turns s.lastTask = some r) :
    ∃ ring', Inv { s with lastTask := r } [] ring' ∧
      RoundRobin.Step 0 (fun x => state s.tasks x = .runnable) ⟨s.lastTask, ring⟩ (some r) ⟨r, ring'⟩ := by
  have hrun := scheduleLoop_state hloop
  have hmem : r ∈ ring := by
    by_contra hno
    rw [h.free r hno] at hrun
    cases hrun
  obtain ⟨skip, r', rest, rfl, hr', hskip⟩ :=
    exists_first (p := fun x => state s.tasks x = .runnable) ⟨r, hmem, hrun⟩
  rw [h.scheduleLoop turns hr' hskip h.way.dead] at hloop
  obtain rfl : r' = r := by
    split at hloop
    · exact Option.some.inj hloop
    · cases hloop
  have hrot : ((skip ++ r' :: rest : List Nat) : Cycle Nat) = (rest ++ skip ++ [r'] : List Nat) := by
    rw [cycle_split, ← Cycle.coe_cons_eq_coe_append]
  have hperm := RoundRobin.perm_turn skip rest r'
  refine ⟨rest ++ skip ++ [r'], ?_, .turn hr' hskip⟩
  exact {
    links := hrot ▸ h.links
    nodup := hperm.nodup_iff.mp h.nodup
    perm := hperm.symm.trans h.perm
    bound := fun k hk => h.bound k (hperm.mem_iff.mpr hk)
    count := h.count.trans hperm.length_eq
    tag := h.tag
    free := fun k hk => h.free k fun hmem => hk (hperm.mem_iff.mp hmem)
    way := .here List.getLast?_concat }

/-! ## Any step -/

/-- Whom a step has chosen. -/
def chosen : Event → Sys → Option Nat
  | .schedule _, s' => some s'.lastTask
  | _, _ => none

theorem onWay_chain {l : List Nat} (hlast : OnWay s r) (hdead : ∀ x ∈ way, ¬ Exists s x)
    (hchain : List.IsChain (Follows s.tasks) (r :: way ++ l)) : ∀ x ∈ r :: way, OnWay s x := by
  induction way generalizing r with
  | nil =>
    intro x hx
    rwa [List.mem_singleton.mp hx]
  | cons w way ih =>
    obtain ⟨hnext, hrest⟩ := List.isChain_cons_cons.mp hchain
    have hnext : (s.tasks r).nextTask = w := hnext
    have hw : OnWay s w := by
      rw [← hnext]
      exact hlast.next (hnext ▸ hdead w List.mem_cons_self)
    intro x hx
    rcases List.mem_cons.mp hx with rfl | hx
    · exact hlast
    · exact ih hw (fun y hy => hdead y (List.mem_cons_of_mem w hy)) hrest x hx

theorem Inv.onWay (h : Inv s way ring) (hi : i ∈ s.lastTask :: way) (hring : i ∉ ring) : OnWay s i := by
  cases h.way with
  | here =>
    rw [List.mem_singleton.mp hi] at hring ⊢
    exact .last fun he => hring (h.mem.mpr he)
  | gone hno hway hchain =>
    have hlast : OnWay s s.lastTask := .last fun he => hno (h.mem.mpr he)
    exact onWay_chain hlast (fun x hx he => hway x hx (h.mem.mpr he)) hchain i hi

theorem Inv.step {e : Event} (h : Inv s way ring) (hfit : Fits s e) (hstep : step s e = some s') :
    ∃ way' ring', Inv s' way' ring' ∧
      RoundRobin.Step 0 (fun x => state s.tasks x = .runnable) ⟨s.lastTask, ring⟩ (chosen e s')
        ⟨s'.lastTask, ring'⟩ := by
  cases e with
  | create junk =>
    obtain ⟨i, hfree, hi, hway⟩ := hfit
    have hring : i ∉ ring := fun hmem => hi (h.mem.mp hmem)
    obtain ⟨ring', hinv, hturn⟩ := h.create hfree hring (fun hmem => hway (h.onWay hmem hring)) hstep
    exact ⟨way, ring', hinv, hturn⟩
  | delete i =>
    simp only [X86Tasks.step] at hstep
    split at hstep
    · rename_i hlive
      obtain rfl := Option.some.inj hstep
      obtain ⟨way', hinv⟩ := h.delete hlive.1 hlive.2
      rw [padr, Nat.mul_div_cancel _ (show 0 < taskSize by decide)]
      have hlast : (deleteTask s i).lastTask = s.lastTask := by
        unfold deleteTask
        dsimp only
        split <;> rfl
      refine ⟨way', ring.erase i, hinv, ?_⟩
      dsimp only
      rw [hlast]
      exact .leave hlive.1
    · cases hstep
  | setState i st =>
    simp only [X86Tasks.step] at hstep
    split at hstep
    · rename_i hex
      obtain rfl := Option.some.inj hstep
      exact ⟨way, ring, h.setState (h.mem.mpr hex), .stay⟩
    · cases hstep
  | schedule turns =>
    simp only [X86Tasks.step, Option.map_eq_some_iff] at hstep
    obtain ⟨r, hloop, rfl⟩ := hstep
    obtain ⟨ring', hinv, hturn⟩ := h.schedule hloop
    exact ⟨[], ring', hinv, hturn⟩

end Athomux.X86Tasks
