import Athomux.Lib.Run
import Athomux.NetConnect.Groups
import Athomux.NetConnect.Memory
import Athomux.NetConnect.Merge

/-!
# Memory of the bricks

The merges do on the elements what they do on their contents. What they unlink, they free with its
own length.
-/

namespace Athomux.NetConnect.Mem

open Lib StratText

variable {alloc : Alloc} {l done rest lc : List (Elem GConn)} {baddr raddr : Nat} {k : Kind}

/-- What a list holds. -/
def vals {α : Type} (l : List (Elem α)) : List α := l.map Elem.val

@[simp] theorem vals_nil {α : Type} : vals ([] : List (Elem α)) = [] := rfl

@[simp] theorem vals_cons {α : Type} (e : Elem α) (l : List (Elem α)) :
    vals (e :: l) = e.val :: vals l := rfl

@[simp] theorem vals_append {α : Type} (l l' : List (Elem α)) :
    vals (l ++ l') = vals l ++ vals l' := List.map_append

@[simp] theorem vals_length {α : Type} (l : List (Elem α)) : (vals l).length = l.length :=
  List.length_map _

/-! ## Connections -/

theorem removeHook_vals (baddr : Nat) (l : List (Elem GConn)) :
    NetConnect.removeHook baddr (vals l) = vals (removeHook baddr l).1 := by
  induction l with
  | nil => rfl
  | cons c l ih =>
    rw [NetConnect.removeHook] at ih
    rw [removeHook_cons, NetConnect.removeHook, vals_cons, List.filter_cons]
    by_cases hc : c.val.isHook baddr = true
    · simpa [hc] using ih
    · rw [Bool.not_eq_true] at hc
      simpa [hc] using ih

theorem turns_keep {size : Nat} {α : Type} {es : Log} {l l' : List (Elem α)} (e : Elem α)
    (h : Ledger.Turns es (blocks size l) (blocks size l')) :
    Ledger.Turns es (blocks size (e :: l)) (blocks size (e :: l')) :=
  h.frame_left [⟨e.ptr, size⟩]

theorem turns_drop {size : Nat} {α : Type} {es : Log} {l l' : List (Elem α)} (e : Elem α)
    (h : Ledger.Turns es (blocks size l) (blocks size l')) :
    Ledger.Turns (.give ⟨e.ptr, size⟩ :: es) (blocks size (e :: l)) (blocks size l') :=
  Ledger.Turns.give.trans h

theorem removeHook_turns (baddr : Nat) (l : List (Elem GConn)) : Ledger.Turns
    (removeHook baddr l).2 (blocks connSize l) (blocks connSize (removeHook baddr l).1) := by
  induction l with
  | nil => exact .nil (.refl _)
  | cons c l ih =>
    rw [removeHook_cons]
    split
    · exact turns_drop c ih
    · exact turns_keep c ih

theorem removeDw_vals (refc : GConn) (found : Bool) (l : List (Elem GConn)) :
    NetConnect.removeDw refc found (vals l) =
      (vals (removeDw refc found l).lc, (removeDw refc found l).found) := by
  induction l generalizing found with
  | nil => rfl
  | cons c l ih =>
    rw [removeDw_cons, vals_cons, NetConnect.removeDw]
    split
    · split
      · exact ih found
      · rw [ih true]
        rfl
    · rw [ih found]
      rfl

theorem removeDw_turns (refc : GConn) (found : Bool) (l : List (Elem GConn)) :
    Ledger.Turns (removeDw refc found l).log (blocks connSize l)
      (blocks connSize (removeDw refc found l).lc) := by
  induction l generalizing found with
  | nil => exact .nil (.refl _)
  | cons c l ih =>
    rw [removeDw_cons]
    split
    · split
      · exact turns_drop c (ih found)
      · exact turns_keep c (ih true)
    · exact turns_keep c (ih found)

/-- The end of a merge of the contents. -/
def Halt.stop : Halt → Stop
  | .check | .past => .check
  | .freed => .freed
  | .fuel => .fuel

theorem rewireLoop_vals (fuel : Nat) (done rest : List (Elem GConn)) :
    NetConnect.rewireLoop baddr raddr fuel (vals done) (vals rest) =
      ((rewireLoop baddr raddr fuel done rest).map fun r => vals r.1).mapError Halt.stop := by
  induction fuel generalizing done rest with
  | zero => rfl
  | succ fuel ih =>
    cases rest with
    | nil => rfl
    | cons c rest =>
      have hhere : ∀ found, NetConnect.removeDw (c.val.rename baddr raddr) found
          [c.val.rename baddr raddr] = _ := fun found =>
        removeDw_vals (c.val.rename baddr raddr) found [⟨c.ptr, c.val.rename baddr raddr⟩]
      have hhead : (vals rest).head?.any (c.val.rename baddr raddr).sameWire =
          rest.head?.any fun n => (c.val.rename baddr raddr).sameWire n.val := by
        cases rest <;> rfl
      rw [vals_cons, NetConnect.rewireLoop, rewireLoop_cons]
      split
      · rw [ih]
        cases rewireLoop baddr raddr fuel done rest <;> rfl
      · simp only [removeDw_vals, hhere, hhead]
        split
        · rfl
        · rw [← vals_append, ih]
          cases rewireLoop baddr raddr fuel _ _ <;> rfl

theorem rewireLoop_turns {fuel : Nat} {done rest : List (Elem GConn)} {r : List (Elem GConn) × Log}
    (h : rewireLoop baddr raddr fuel done rest = .ok r) :
    Ledger.Turns r.2 (blocks connSize (done ++ rest)) (blocks connSize r.1) := by
  induction fuel generalizing done rest r with
  | zero => cases h
  | succ fuel ih =>
    cases rest with
    | nil =>
      cases h
      rw [List.append_nil]
      exact .nil (.refl _)
    | cons c rest =>
      rw [rewireLoop_cons] at h
      split at h
      · obtain ⟨q, hq, rfl⟩ := map_eq_ok.mp h
        refine (turns_drop c (ih hq)).perm (List.perm_middle.map _) (.refl _)
      · simp only at h
        split at h
        · cases h
        · obtain ⟨q, hq, rfl⟩ := map_eq_ok.mp h
          have hbefore := removeDw_turns (c.val.rename baddr raddr) false done
          have hhere := removeDw_turns (c.val.rename baddr raddr)
            (removeDw (c.val.rename baddr raddr) false done).found
            [⟨c.ptr, c.val.rename baddr raddr⟩]
          have hbehind := removeDw_turns (c.val.rename baddr raddr)
            (removeDw (c.val.rename baddr raddr)
              (removeDw (c.val.rename baddr raddr) false done).found
              [⟨c.ptr, c.val.rename baddr raddr⟩]).found rest
          have hrest := ih hq
          rw [blocks_append, blocks_append] at hrest
          rw [blocks_append]
          exact (((hbefore.frame _).trans ((hhere.frame _).frame_left _)).trans
            ((hbehind.frame_left _).frame_left _)).trans
            (hrest.perm (by rw [List.append_assoc]) (.refl _))

/-! ## Bricks -/

variable {group : Option (Nat × Text)} {bs lb : List (Elem GBrick)} {lv : List (Elem GVpart)}
variable {log es : Log}

/-- What a pass has made of the contents. -/
def Pass.merge (m : Pass) : Except Stop Merge :=
  match m.halt with
  | none => .ok ⟨vals m.lb, vals m.lc, vals m.lv, m.group⟩
  | some e => .error e.stop

theorem Pass.merge_cons (b : Elem GBrick) (m : Pass) :
    (m.cons b).merge = m.merge.map (Merge.cons b.val) := by
  unfold Pass.merge Pass.cons
  cases m.halt <;> rfl

theorem rewireNc_vals (b r : Nat) (lc : List (Elem GConn)) :
    NetConnect.rewireNc b r (vals lc) =
      ((rewireNc b r lc).map fun r => vals r.1).mapError Halt.stop := by
  rw [NetConnect.rewireNc, vals_length]
  exact rewireLoop_vals (lc.length + 1) [] lc

-- The principle of the inductions below.
attribute [elab_as_elim] mergeLoop.induct_unfolding

theorem mergeLoop_vals :
    NetConnect.mergeLoop k (vals lc) (vals lv) group (vals bs) =
      (mergeLoop alloc k group bs lc lv log).merge := by
  fun_induction mergeLoop alloc k group bs lc lv log with
  | case1 => rfl
  | case2 group b bs lc lv log hpart hrid =>
    rw [vals_cons, mergeLoop_anon hpart hrid, Pass.merge]
    cases overrun b.val <;> rfl
  | case3 b bs lc lv log hpart s hrid hfit ih =>
    have hfit' : fits s := hfit
    rw [vals_cons, mergeLoop_start (hasRid_iff.mpr ⟨hpart, hrid⟩), if_pos hfit', removeHook_vals, ih,
      Pass.merge_cons]
    rfl
  | case4 b bs lc lv log hpart s hrid hfit =>
    have hfit' : ¬ fits s := hfit
    rw [vals_cons, mergeLoop_start (hasRid_iff.mpr ⟨hpart, hrid⟩), if_neg hfit']
    rfl
  | case5 b bs lc lv log hpart a s e hnc hrid =>
    rw [vals_cons, mergeLoop_same (hasRid_iff.mpr ⟨hpart, hrid⟩), rewireNc_vals, hnc]
    rfl
  | case6 b bs lc lv log hpart a s lc' freed hnc log' p hrid ih =>
    rw [vals_cons, mergeLoop_same (hasRid_iff.mpr ⟨hpart, hrid⟩), rewireNc_vals, hnc, ← ih,
      vals_append]
    rfl
  | case7 b bs lc lv log hpart s a s₀ hrid hs ih =>
    rw [vals_cons, mergeLoop_other (hasRid_iff.mpr ⟨hpart, hrid⟩) hs, ih, Pass.merge_cons]
  | case8 group b bs lc lv log hpart ih =>
    rw [Bool.not_eq_true] at hpart
    rw [vals_cons, mergeLoop_skip hpart, ih, Pass.merge_cons]

/-! ## What is linked -/

/-- The elements in the lists. -/
def linkedBy (hooks : List StratText.Block) (lb : List (Elem GBrick)) (lc : List (Elem GConn))
    (lv : List (Elem GVpart)) : List StratText.Block :=
  hooks ++ blocks brickSize lb ++ blocks connSize lc ++ blocks vpartSize lv

section

variable {hooks : List StratText.Block} {lb' : List (Elem GBrick)} {lc' : List (Elem GConn)}
variable {lv' : List (Elem GVpart)}

theorem turns_lb (h : Ledger.Turns es (blocks brickSize lb) (blocks brickSize lb')) :
    Ledger.Turns es (linkedBy hooks lb lc lv) (linkedBy hooks lb' lc lv) :=
  ((h.frame_left hooks).frame _).frame _

theorem turns_lc (h : Ledger.Turns es (blocks connSize lc) (blocks connSize lc')) :
    Ledger.Turns es (linkedBy hooks lb lc lv) (linkedBy hooks lb lc' lv) :=
  (h.frame_left _).frame _

theorem turns_lv (h : Ledger.Turns es (blocks vpartSize lv) (blocks vpartSize lv')) :
    Ledger.Turns es (linkedBy hooks lb lc lv) (linkedBy hooks lb lc lv') :=
  h.frame_left _

/-- The first brick counted as one of the hooks. -/
theorem linkedBy_cons (b : Elem GBrick) :
    (linkedBy hooks (b :: lb) lc lv).Perm (linkedBy (⟨b.ptr, brickSize⟩ :: hooks) lb lc lv) :=
  ((List.perm_middle.append_right _).append_right _)

end

theorem mergeLoop_settles {hooks : List StratText.Block}
    (hhalt : (mergeLoop alloc k group bs lc lv log).halt ≠ some .freed)
    (h : Ledger.Settles log (linkedBy hooks bs lc lv)) :
    Ledger.Settles (mergeLoop alloc k group bs lc lv log).log
      (linkedBy hooks (mergeLoop alloc k group bs lc lv log).lb
        (mergeLoop alloc k group bs lc lv log).lc (mergeLoop alloc k group bs lc lv log).lv) := by
  fun_induction mergeLoop alloc k group bs lc lv log generalizing hooks with
  | case1 => exact h
  | case2 group b bs lc lv log hpart hrid => exact h
  | case3 b bs lc lv log hpart s hrid hfit ih =>
    have hstart := (turns_lc (removeHook_turns b.val.addr lc)).settles (h.perm (linkedBy_cons b))
    exact (ih hhalt hstart).perm (linkedBy_cons ⟨b.ptr, _⟩).symm
  | case4 b bs lc lv log hpart s hrid hfit => exact h
  | case5 b bs lc lv log hpart a s e hnc hrid => exact h
  | case6 b bs lc lv log hpart a s lc' freed hnc log' p hrid =>
    rename_i ih
    have hconn := (turns_lc (rewireLoop_turns hnc)).settles h
    have hpartd := (turns_lv (turns_link ⟨p, ⟨a, b.val.addr⟩⟩)).settles hconn
    exact ih hhalt ((turns_lb (turns_drop b (.nil (.refl _)))).settles hpartd)
  | case7 b bs lc lv log hpart s a s₀ hrid hs ih =>
    exact (ih hhalt (h.perm (linkedBy_cons b))).perm (linkedBy_cons b).symm
  | case8 group b bs lc lv log hpart ih =>
    exact (ih hhalt (h.perm (linkedBy_cons b))).perm (linkedBy_cons b).symm

/-! ## Strings -/

/-- The parameters of the parts can be scanned. -/
def Scans (k : Kind) (lb : List GBrick) : Prop := ∀ b ∈ lb, isPart k b = true → overrun b = false

theorem isPart_of_whole {b : GBrick} {k' : Kind} (h : b.name = k'.whole) : isPart k b = false := by
  rw [isPart, h]
  cases k <;> cases k' <;> rfl

theorem rewireLoop_error {fuel : Nat} {e : Halt} (h : rewireLoop baddr raddr fuel done rest = .error e) :
    e ≠ .past := by
  induction fuel generalizing done rest with
  | zero =>
    cases h
    exact Halt.noConfusion
  | succ fuel ih =>
    cases rest with
    | nil => cases h
    | cons c rest =>
      rw [rewireLoop_cons] at h
      split at h
      · exact ih (map_eq_error.mp h)
      · simp only at h
        split at h
        · cases h
          exact Halt.noConfusion
        · exact ih (map_eq_error.mp h)

theorem mergeLoop_past (h : Scans k (vals bs)) :
    (mergeLoop alloc k group bs lc lv log).halt ≠ some .past := by
  fun_induction mergeLoop alloc k group bs lc lv log with
  | case1 => exact nofun
  | case2 group b bs lc lv log hpart hrid =>
    simp [h b.val List.mem_cons_self hpart]
  | case3 b bs lc lv log hpart s hrid hfit ih =>
    exact ih fun b hb => h b (List.mem_cons_of_mem _ hb)
  | case4 => simp
  | case5 b bs lc lv log hpart a s e hnc hrid =>
    exact fun he => rewireLoop_error hnc (Option.some.inj he)
  | case6 b bs lc lv log hpart a s lc' freed hnc log' p hrid ih =>
    exact ih fun b hb => h b (List.mem_cons_of_mem _ hb)
  | case7 b bs lc lv log hpart s a s₀ hrid hs ih =>
    exact ih fun b hb => h b (List.mem_cons_of_mem _ hb)
  | case8 group b bs lc lv log hpart ih =>
    exact ih fun b hb => h b (List.mem_cons_of_mem _ hb)

/-- No other bricks are left than there were, but for the whole ones. -/
theorem mergeLoop_lb : ∀ b ∈ vals (mergeLoop alloc k group bs lc lv log).lb,
    b ∈ vals bs ∨ b.name = k.whole := by
  fun_induction mergeLoop alloc k group bs lc lv log with
  | case1 => exact fun b hb => Or.inl hb
  | case2 => exact fun b hb => Or.inl hb
  | case3 b bs lc lv log hpart s hrid hfit ih =>
    intro d hd
    rcases List.mem_cons.mp hd with rfl | hd
    · exact Or.inr rfl
    · exact (ih d hd).imp_left (List.mem_cons_of_mem _)
  | case4 b bs lc lv log hpart s hrid hfit =>
    intro d hd
    rcases List.mem_cons.mp hd with rfl | hd
    · exact Or.inr rfl
    · exact Or.inl (List.mem_cons_of_mem _ hd)
  | case5 => exact fun b hb => Or.inl hb
  | case6 b bs lc lv log hpart a s lc' freed hnc log' p hrid ih =>
    exact fun d hd => (ih d hd).imp_left (List.mem_cons_of_mem _)
  | case7 b bs lc lv log hpart s a s₀ hrid hs ih =>
    intro d hd
    rcases List.mem_cons.mp hd with rfl | hd
    · exact Or.inl List.mem_cons_self
    · exact (ih d hd).imp_left (List.mem_cons_of_mem _)
  | case8 group b bs lc lv log hpart ih =>
    intro d hd
    rcases List.mem_cons.mp hd with rfl | hd
    · exact Or.inl List.mem_cons_self
    · exact (ih d hd).imp_left (List.mem_cons_of_mem _)

/-! ## All passes -/

variable {fuel : Nat}

theorem mergeNc_vals : NetConnect.mergeNc k fuel (vals lb) (vals lc) (vals lv) =
    (mergeNc alloc k fuel lb lc lv log).merge := by
  induction fuel generalizing lb lc lv log with
  | zero => rfl
  | succ fuel ih =>
    rw [NetConnect.mergeNc, mergeLoop_vals, mergeNc_succ]
    unfold Pass.merge
    cases hhalt : (mergeLoop alloc k none lb lc lv log).halt with
    | some e => simp only [hhalt, Except.bind]
    | none =>
      simp only [Except.bind]
      split
      · exact ih
      · simp only [hhalt]

theorem mergeNc_settles {hooks : List StratText.Block}
    (hhalt : (mergeNc alloc k fuel lb lc lv log).halt ≠ some .freed)
    (h : Ledger.Settles log (linkedBy hooks lb lc lv)) :
    Ledger.Settles (mergeNc alloc k fuel lb lc lv log).log
      (linkedBy hooks (mergeNc alloc k fuel lb lc lv log).lb
        (mergeNc alloc k fuel lb lc lv log).lc (mergeNc alloc k fuel lb lc lv log).lv) := by
  induction fuel generalizing lb lc lv log with
  | zero => exact h
  | succ fuel ih =>
    rw [mergeNc_succ] at hhalt ⊢
    cases he : (mergeLoop alloc k none lb lc lv log).halt with
    | some e =>
      simp only [he] at hhalt ⊢
      exact mergeLoop_settles (he ▸ hhalt) h
    | none =>
      have hne : (mergeLoop alloc k none lb lc lv log).halt ≠ some .freed := by
        rw [he]
        exact nofun
      have hloop := mergeLoop_settles hne h
      simp only [he] at hhalt ⊢
      split
      · rename_i hgroup
        rw [if_pos hgroup] at hhalt
        exact ih hhalt hloop
      · exact hloop

theorem Scans.after {l l' : List GBrick} {k' : Kind} (h : Scans k l)
    (hl : ∀ b ∈ l', b ∈ l ∨ b.name = k'.whole) : Scans k l' := by
  intro b hb hpart
  rcases hl b hb with hb | hb
  · exact h b hb hpart
  · rw [isPart_of_whole hb] at hpart
    cases hpart

theorem mergeNc_past (h : Scans k (vals lb)) :
    (mergeNc alloc k fuel lb lc lv log).halt ≠ some .past := by
  induction fuel generalizing lb lc lv log with
  | zero => exact nofun
  | succ fuel ih =>
    have hne : (mergeLoop alloc k none lb lc lv log).halt ≠ some .past := mergeLoop_past h
    have hnext : Scans k (vals (mergeLoop alloc k none lb lc lv log).lb) := h.after mergeLoop_lb
    rw [mergeNc_succ]
    cases he : (mergeLoop alloc k none lb lc lv log).halt with
    | some e =>
      simp only [he]
      exact he ▸ hne
    | none =>
      simp only
      split
      · exact ih hnext
      · exact hne

theorem mergeNc_lb : ∀ b ∈ vals (mergeNc alloc k fuel lb lc lv log).lb,
    b ∈ vals lb ∨ b.name = k.whole := by
  induction fuel generalizing lb lc lv log with
  | zero => exact fun b hb => Or.inl hb
  | succ fuel ih =>
    have hloop : ∀ b ∈ vals (mergeLoop alloc k none lb lc lv log).lb, b ∈ vals lb ∨ b.name = k.whole :=
      mergeLoop_lb
    intro b hb
    rw [mergeNc_succ] at hb
    cases he : (mergeLoop alloc k none lb lc lv log).halt with
    | some e =>
      simp only [he] at hb
      exact hloop b hb
    | none =>
      simp only [he] at hb
      split at hb
      · exact (ih b hb).elim (hloop b) Or.inr
      · exact hloop b hb

/-! ## Operations -/

variable {s t : State}

def State.hooks (s : State) : List StratText.Block :=
  [⟨s.lbHook, brickSize⟩, ⟨s.lcHook, connSize⟩, ⟨s.lvHook, vpartSize⟩]

def State.linked (s : State) : List StratText.Block := linkedBy s.hooks s.lb s.lc s.lv

/-- Each `PC_FREE` has been for a live allocation, and those that are left are the linked ones. -/
structure Balanced (s : State) : Prop where
  tame : s.wild = false
  settled : Ledger.Settles s.log s.linked

/-- The contents of the lists of bricks and connections. -/
def State.found (s : State) : Found := ⟨vals s.lb, vals s.lc⟩

theorem balanced_init : Balanced (State.init alloc) where
  tame := rfl
  settled := by
    have h : Ledger.Settles (State.init alloc).log (State.init alloc).hooks.reverse :=
      Ledger.Settles.nil.take.take.take
    refine h.perm ((List.reverse_perm _).trans ?_)
    rw [State.linked, linkedBy]
    simp [State.init, blocks]

/-- Where no part is left in the list, the size of its elements does not matter. -/
theorem Balanced.clearBc (h : Balanced s) (hlv : s.lv = []) : Balanced (clearBc s) where
  tame := h.tame
  settled := by
    have hb := (turns_lb turns_freeAll).settles h.settled
    have hc := (turns_lc turns_freeAll).settles hb
    have hlog : (Mem.clearBc s).log = s.log ++ freeAll brickSize s.lb ++ freeAll connSize s.lc := by
      simp [Mem.clearBc, hlv, freeAll, blocks]
    rw [hlog]
    rw [hlv] at hc
    exact hc

theorem Balanced.insertBrick (h : Balanced s) (b : GBrick) : Balanced (insertBrick alloc b s) where
  tame := h.tame
  settled := (turns_lb (turns_link ⟨alloc s.log brickSize, b⟩)).settles h.settled

theorem Balanced.insertConn (h : Balanced s) (c : GConn) : Balanced (insertConn alloc c s) where
  tame := h.tame
  settled := (turns_lc (turns_link ⟨alloc s.log connSize, c⟩)).settles h.settled

theorem balanced_keeps : Keeps (lists alloc) (fun _ => True) fun r => Balanced r.1 ∧ r.1.lv = [] where
  ask := fun _ _ h => ⟨h, fun _ _ => trivial⟩
  enter := fun _ _ h => h
  addBrick := fun _ _ _ _ _ h _ _ => ⟨h.1.insertBrick _, h.2⟩
  addConn := fun _ _ _ _ _ h => ⟨h.1.insertConn _, h.2⟩

theorem found_maps (alloc : Alloc) : Maps (lists alloc) (reading fun _ => Answers.next)
    fun r => (r.1.found, r.2) where
  ask := fun _ _ => rfl
  enter := fun _ _ => rfl
  known := by
    intro a r
    have hfind : ∀ l : List (Elem GBrick), ((vals l).find? fun b => b.addr = a).map (fun _ => ()) =
        (l.find? fun b => b.val.addr = a).map fun _ => () := by
      intro l
      rw [vals, List.find?_map, Option.map_map]
      rfl
    exact hfind r.1.lb
  addBrick := by
    intro a v b r
    simp [reading, lists, Found.addBrick, Mem.insertBrick, State.found]
  addConn := by
    intro a v c w r
    simp [reading, lists, Found.addConn, Mem.insertConn, State.found]

theorem merge_vals (alloc : Alloc) (k : Kind) (s : State) :
    NetConnect.merge k (vals s.lb) (vals s.lc) (vals s.lv) =
      (mergeNc alloc k (s.lb.length + 1) s.lb s.lc s.lv s.log).merge := by
  rw [NetConnect.merge, vals_length]
  exact mergeNc_vals

theorem Balanced.merge (h : Balanced s)
    (hfreed : NetConnect.merge k (vals s.lb) (vals s.lc) (vals s.lv) ≠ .error .freed)
    (hscan : Scans k (vals s.lb)) : Balanced (merge alloc k s).1 := by
  have hne : (mergeNc alloc k (s.lb.length + 1) s.lb s.lc s.lv s.log).halt ≠ some .freed := by
    intro he
    rw [merge_vals alloc, Pass.merge, he] at hfreed
    exact hfreed rfl
  have hpast : (mergeNc alloc k (s.lb.length + 1) s.lb s.lc s.lv s.log).halt ≠ some .past :=
    mergeNc_past hscan
  refine ⟨?_, mergeNc_settles hne h.settled⟩
  simp [Mem.merge, h.tame, hne, hpast]

/-- No traversal of the merges goes on from a freed element, and all parameters can be scanned. -/
structure Gentle (g : Found) : Prop where
  remote : NetConnect.merge .remote g.lb g.lc [] ≠ .error .freed
  mirror : ∀ m, NetConnect.merge .remote g.lb g.lc [] = .ok m →
    NetConnect.merge .mirror m.lb m.lc m.lv ≠ .error .freed
  scans : ∀ k, Scans k g.lb

theorem Balanced.mergeAll (h : Balanced s) (hlv : s.lv = []) (hgentle : Gentle s.found) :
    Balanced (mergeAll alloc s).1 := by
  have hremote : Balanced (Mem.merge alloc .remote s).1 :=
    h.merge (hlv ▸ hgentle.remote) (hgentle.scans .remote)
  unfold Mem.mergeAll
  cases hhalt : (Mem.merge alloc .remote s).2 with
  | some e =>
    simp only [hhalt]
    exact hremote
  | none =>
    have hhalt' : (mergeNc alloc .remote (s.lb.length + 1) s.lb s.lc s.lv s.log).halt = none := hhalt
    have hnone : vals s.lv = [] := congrArg vals hlv
    have hvals := merge_vals alloc .remote s
    rw [Pass.merge, hhalt', hnone] at hvals
    have hmirror := hgentle.mirror _ hvals
    have hscan : Scans .mirror (vals (Mem.merge alloc .remote s).1.lb) :=
      (hgentle.scans .mirror).after mergeNc_lb
    simp only [hhalt]
    exact hremote.merge hmirror hscan

/-- The operations that keep the balance. -/
def Fair (s : State) : Op → Prop
  | .trans directRead addr _ fuel answers => directRead = true → addr = 0 →
    s.lv = [] ∧ ∀ r, binfo (reading fun _ => Answers.next) fuel 0 (⟨[], []⟩, answers) =
      some (r, some ()) → Gentle r.1
  | .deinstbrick addr answers => (∃ v ∈ s.lv, v.val.vaddr = addr) → answers.headD false = false
  | .pass => True

theorem Balanced.rebuild {answers : Answers} {r : State × Bool} (h : Balanced s) (hlv : s.lv = [])
    (hgentle : ∀ r, binfo (reading fun _ => Answers.next) fuel 0 (⟨[], []⟩, answers) =
      some (r, some ()) → Gentle r.1)
    (hr : rebuild alloc fuel answers s = some r) : Balanced r.1 := by
  obtain ⟨q, hq, rfl⟩ := Option.map_eq_some_iff.mp hr
  obtain ⟨hread, hlv'⟩ := balanced_keeps.binfo ⟨h.clearBc hlv, rfl⟩ hq
  cases hv : q.2 with
  | none => exact hread
  | some u =>
    -- the contents have been read in the same way
    have hfound := (found_maps alloc).binfo fuel 0 (Mem.clearBc s, answers)
    rw [hq] at hfound
    have hbinfo : binfo (reading fun _ => Answers.next) fuel 0 (⟨[], []⟩, answers) =
        some ((q.1.1.found, q.1.2), some ()) := by
      rw [Option.map_some, hv] at hfound
      exact hfound
    exact hread.mergeAll hlv' (hgentle _ hbinfo)

theorem deinstLoop_idle {addr : Nat} {answers : List Bool} (lv : List (Elem GVpart))
    (h : (∃ v ∈ lv, v.val.vaddr = addr) → answers.headD false = false) :
    deinstLoop addr answers lv = (lv, []) := by
  induction lv with
  | nil => rfl
  | cons v lv ih =>
    rw [deinstLoop]
    by_cases hv : v.val.vaddr = addr
    · rw [if_pos hv, h ⟨v, List.mem_cons_self, hv⟩]
      rfl
    · rw [if_neg hv, ih fun ⟨w, hw, hw'⟩ => h ⟨w, List.mem_cons_of_mem _ hw, hw'⟩]

theorem Balanced.step {op : Op} (h : Balanced s) (hfair : Fair s op)
    (hstep : step alloc s op = some t) : Balanced t := by
  cases op with
  | trans directRead addr len fuel answers =>
    obtain ⟨r, hr, rfl⟩ := Option.map_eq_some_iff.mp hstep
    unfold trans at hr
    split at hr
    · rename_i hdirect
      obtain ⟨q, hq, rfl⟩ := Option.map_eq_some_iff.mp hr
      split at hq
      · rename_i haddr
        obtain ⟨hlv, hgentle⟩ := hfair hdirect haddr
        exact h.rebuild hlv hgentle hq
      · cases hq
        exact h
    · cases hr
      exact h
  | deinstbrick addr answers =>
    cases hstep
    rw [deinstbrick, deinstLoop_idle s.lv hfair]
    refine ⟨h.tame, ?_⟩
    simpa [State.linked, State.hooks] using h.settled
  | pass =>
    cases hstep
    exact h

theorem balanced_of_fair (h : Reach (step alloc) (· = State.init alloc) Fair s) : Balanced s :=
  h.invariant (fun _ h0 => h0 ▸ balanced_init) fun _ _ _ hs hfair hstep => hs.step hfair hstep

end Athomux.NetConnect.Mem
