import Athomux.Lib.Run
import Athomux.StratMerge.Spec

/-!
# Memory of the merged view

What is allocated is what is linked, as long as no brick is unlinked by `$padr`.
-/

namespace Athomux.StratMerge

open Lib StratText
open NetConnect (Text)

variable {alloc : Alloc} {s t : State}

def State.hooks (s : State) : List StratText.Block :=
  [⟨s.lbHook, brickSize⟩, ⟨s.lcHook, connSize⟩, ⟨s.lsHook, ssidSize⟩]

/-- The hooks, and the elements in the lists. -/
def linkedBy (hooks : List StratText.Block) (lb : List (Elem GBrick)) (lc : List (Elem GConn))
    (ls : List (Elem GSsid)) : List StratText.Block :=
  hooks ++ blocks brickSize lb ++ blocks connSize lc ++ blocks ssidSize ls

def State.linked (s : State) : List StratText.Block := linkedBy s.hooks s.lb s.lc s.ls

/-- Each `PC_FREE` has been for a live allocation, and those that are left are the linked ones. -/
structure Balanced (s : State) : Prop where
  tame : s.wild = false
  settled : Ledger.Settles s.log s.linked

/-- The sids of a text fit into their field. -/
def sidFits (buf : Text) : Prop := ∀ b, readBrick buf = some b → (sidOf b.bparam).2 = true

/-- The operations that keep the balance. -/
def Fair (s : State) : Op → Prop
  | .trans _ _ _ _ answers => ∀ buf, some buf ∈ answers → sidFits buf
  | .gadr param _ _ => (getopt param "dsid".toList).isSome = true
  | .padr addr success => success = true → findVbrick s addr = none
  | .instbrick _ _ _ => True
  | .deinstbrick _ => True

/-! ## The lists one by one -/

section

variable {es : Log} {hooks : List StratText.Block} {lb lb' : List (Elem GBrick)} {lc lc' : List (Elem GConn)}
variable {ls ls' : List (Elem GSsid)}

theorem turns_lb (h : Ledger.Turns es (blocks brickSize lb) (blocks brickSize lb')) :
    Ledger.Turns es (linkedBy hooks lb lc ls) (linkedBy hooks lb' lc ls) :=
  ((h.frame_left hooks).frame _).frame _

theorem turns_lc (h : Ledger.Turns es (blocks connSize lc) (blocks connSize lc')) :
    Ledger.Turns es (linkedBy hooks lb lc ls) (linkedBy hooks lb lc' ls) :=
  (h.frame_left _).frame _

theorem turns_ls (h : Ledger.Turns es (blocks ssidSize ls) (blocks ssidSize ls')) :
    Ledger.Turns es (linkedBy hooks lb lc ls) (linkedBy hooks lb lc ls') :=
  h.frame_left _

end

theorem balanced_init : Balanced (State.init alloc) where
  tame := rfl
  settled := by
    have h : Ledger.Settles (State.init alloc).log (State.init alloc).hooks.reverse :=
      Ledger.Settles.nil.take.take.take
    refine h.perm ((List.reverse_perm _).trans ?_)
    rw [State.linked, linkedBy]
    simp [State.init, blocks]

theorem Balanced.clearBc (h : Balanced s) : Balanced (clearBc s) where
  tame := h.tame
  settled := by
    have hb := (turns_lb turns_freeAll).settles h.settled
    have hc := (turns_lc turns_freeAll).settles hb
    exact (turns_ls turns_freeAll).settles hc

theorem Balanced.newVaddr (h : Balanced s) : Balanced (newVaddr s).2 where
  tame := by
    simp only [StratMerge.newVaddr, h.tame]
  settled := by
    simpa only [StratMerge.newVaddr, State.linked, State.hooks] using h.settled

theorem Balanced.insertBrick (h : Balanced s) {b : GBrick} (hsid : (sidOf b.bparam).2 = true) :
    Balanced (insertBrick alloc b s) where
  tame := by
    simp [StratMerge.insertBrick, h.tame, hsid]
  settled := by
    have hb := (turns_lb (turns_link ⟨alloc s.log brickSize, b⟩)).settles h.settled
    exact (turns_ls (turns_link ⟨_, _⟩)).settles hb

theorem Balanced.insertConn (h : Balanced s) (c : GConn) : Balanced (insertConn alloc c s) where
  tame := h.tame
  settled := (turns_lc (turns_link ⟨alloc s.log connSize, c⟩)).settles h.settled

/-! ## Operations -/

/-- The answers that are still to come fit, too. -/
def Reads (r : Reading) : Prop := Balanced r.1 ∧ ∀ buf, some buf ∈ r.2 → sidFits buf

theorem reads_keeps (source : Nat) : Keeps (lists alloc source) sidFits Reads where
  ask := by
    rintro a ⟨s, _ | ⟨t, ts⟩⟩ ⟨hs, hfit⟩
    · exact ⟨⟨hs, hfit⟩, fun buf h => by cases h⟩
    · refine ⟨⟨hs, fun buf h => hfit buf (List.mem_cons_of_mem _ h)⟩, fun buf h => hfit buf ?_⟩
      have ht : t = some buf := h
      exact ht ▸ List.mem_cons_self
  enter := by
    rintro a r ⟨hs, hfit⟩
    by_cases ha : a = 0
    · have h : Reads r := ⟨hs, hfit⟩
      simpa only [lists, ha, if_true] using h
    · have h : Reads ((newVaddr r.1).2, r.2) := ⟨hs.newVaddr, hfit⟩
      simpa only [lists, ha, if_false] using h
  addBrick := fun a v buf b r hr hgood hb => ⟨hr.1.insertBrick (hgood b hb), hr.2⟩
  addConn := fun a v c w r hr => ⟨hr.1.insertConn _, hr.2⟩

theorem Balanced.buildGraph {fuel : Nat} {answers : List (Option Text)} (hs : Balanced s)
    (hfit : ∀ buf, some buf ∈ answers → sidFits buf) (h : buildGraph alloc fuel answers s = some t) :
    Balanced t := by
  obtain ⟨r, hr, h⟩ := Option.bind_eq_some_iff.mp h
  have hreads : Reads r.1 := (reads_keeps 0).binfo ⟨hs.clearBc, hfit⟩ hr
  cases hv : r.2 with
  | none =>
    rw [hv] at h
    cases h
    exact hreads.1
  | some v =>
    rw [hv] at h
    obtain ⟨q, hq, rfl⟩ := Option.map_eq_some_iff.mp h
    exact ((reads_keeps 1).binfo hreads hq).1

theorem Balanced.gadr {param : Text} {garbage : Nat → Text} {answer : Option Nat} (hs : Balanced s)
    (hopt : (getopt param "dsid".toList).isSome = true) :
    Balanced (gadr alloc param garbage answer s) := by
  have htame : (s.wild || (getopt param "dsid".toList).isNone) = false := by
    rw [hs.tame, ← Option.not_isSome, hopt]
    rfl
  simp only [StratMerge.gadr, htame]
  cases answer with
  | none => exact ⟨rfl, hs.settled⟩
  | some a =>
    have hopen : Balanced { s with wild := false } := ⟨rfl, hs.settled⟩
    have hsid : (sidOf []).2 = true := by decide
    exact hopen.newVaddr.insertBrick hsid

theorem Balanced.instbrick {addr : Nat} {name param : Text} (hs : Balanced s) :
    Balanced (instbrick addr name param s) := by
  unfold StratMerge.instbrick
  split
  · exact hs
  · rename_i b _
    refine ⟨hs.tame, ?_⟩
    -- the element stays where it is
    have hblocks : ∀ val : GBrick, blocks brickSize (s.lb.map fun e => if e = b then ⟨b.ptr, val⟩
        else e) = blocks brickSize s.lb := by
      intro val
      rw [blocks, blocks, List.map_map]
      refine List.map_congr_left fun e _ => ?_
      by_cases he : e = b
      · simp [he]
      · simp [he]
    have h := hs.settled
    simp only [State.linked, linkedBy, State.hooks, hblocks] at h ⊢
    exact h

theorem Balanced.step {op : Op} (hs : Balanced s) (hfair : Fair s op)
    (h : step alloc s op = some t) : Balanced t := by
  cases op with
  | trans directRead addr len fuel answers =>
    obtain ⟨r, hr, rfl⟩ := Option.map_eq_some_iff.mp h
    unfold trans at hr
    split at hr
    · obtain ⟨s', hs', rfl⟩ := Option.map_eq_some_iff.mp hr
      split at hs'
      · exact hs.buildGraph hfair hs'
      · cases hs'
        exact hs
    · cases hr
      exact hs
  | gadr param garbage answer =>
    cases h
    exact hs.gadr hfair
  | padr addr success =>
    cases h
    unfold padr
    split
    · exact hs
    · rename_i b hb
      cases success with
      | false => exact hs
      | true =>
        rw [hfair rfl] at hb
        cases hb
  | instbrick addr name param =>
    cases h
    exact hs.instbrick
  | deinstbrick addr =>
    cases h
    exact hs

theorem balanced_of_fair (h : Reach (step alloc) (· = State.init alloc) Fair s) : Balanced s :=
  h.invariant (fun _ h0 => h0 ▸ balanced_init) fun _ _ _ hs hfair hstep => hs.step hfair hstep

end Athomux.StratMerge
