import Athomux.ControlSimple.Atomic
import Athomux.Lib.Run

/-!
# Which connector is found

A connector of a static array is found at its place, whether it is instantiated or not. The members of
the dynamic arrays are searched among all connectors of the brick.
-/

open Lib

namespace Athomux.ControlSimple

open NetConnect (Text)

/-! ## Runs -/

inductive Event
  | instconn (r : Sys.Request) (success : Bool)
  | deinstconn (name : Text) (index : Int)
  /-- `$connect` and `$disconnect`. -/
  | link (c : ConnPtr) (linked : Bool)
  /-- What is done with other bricks. -/
  | elsewhere (heap : Heap) (counter : Int)

def step (s : Sys) : Event → Option Sys
  | .instconn r success => (s.instconn r success).map Prod.fst
  | .deinstconn name index => (s.deinstconn name index).map Prod.fst
  | .link c linked => some { s with brick := s.brick.set c { s.brick.conn c with linked := linked } }
  | .elsewhere heap counter =>
    if s.heap.next ≤ heap.next then some { s with heap := heap, counter := counter } else none

/-- A new brick. -/
def Start (s : Sys) : Prop := ∃ heap counter loader, s = Sys.newBrick heap counter loader

/-! ## The invariant -/

/-- The exported connectors `k` have the static header at `c`. -/
def Member (loader : Loader) (k : Nat) (c : ConnPtr) : Prop :=
  ∃ lc i, loader.conn[k]? = some lc ∧ lc.exported = true ∧ i < lc.count ∧
    c = .static (lc.startIndex + i)

theorem Member.unique {loader : Loader} {k k' : Nat} {c : ConnPtr} (h : Member loader k c)
    (h' : Member loader k' c) : k = k' := by
  obtain ⟨lc, i, hlc, hex, hi, rfl⟩ := h
  obtain ⟨lc', i', hlc', hex', hi', heq⟩ := h'
  have hpos : lc.startIndex + i = lc'.startIndex + i' := ConnPtr.static.inj heq
  rcases Nat.lt_trichotomy k k' with hlt | rfl | hlt
  · have := loader.apart k k' lc lc' hlt hlc hlc' hex hex'
    omega
  · rfl
  · have := loader.apart k' k lc' lc hlt hlc' hlc hex' hex
    omega

/-- The connectors in the list have been created, and a created header in the brick is of the array that
it is a member of. -/
structure Sound (s : Sys) : Prop where
  belonging : ∀ c ∈ s.brick.connectors, (s.brick.conn c).belonging = true
  created : ∀ c ∈ s.brick.connectors, (s.brick.conn c).loadConn ≠ none
  before : ∀ p, .dynamic p ∈ s.brick.connectors → p < s.heap.next
  owned : ∀ k c, Member s.brick.loader k c →
    (s.brick.conn c).loadConn = none ∨ (s.brick.conn c).loadConn = some k

variable {s t : Sys} {k : Nat} {lc : LoadConn} {c : ConnPtr} {index : Int} {name : Text}

/-- A header is changed that is not in the list, or in other fields. -/
theorem Sound.set (h : Sound s) {heap : Heap} {counter : Int} {x : Conn}
    (hheap : s.heap.next ≤ heap.next)
    (hlisted : c ∈ s.brick.connectors → x.belonging = true ∧ x.loadConn ≠ none)
    (hmember : ∀ k, Member s.brick.loader k c → x.loadConn = none ∨ x.loadConn = some k) :
    Sound ⟨heap, counter, s.brick.set c x⟩ where
  belonging := fun d hd => by
    by_cases hdc : d = c
    · subst hdc
      rw [Brick.set_self]
      exact (hlisted hd).1
    · rw [Brick.set_other _ hdc]
      exact h.belonging d hd
  created := fun d hd => by
    by_cases hdc : d = c
    · subst hdc
      rw [Brick.set_self]
      exact (hlisted hd).2
    · rw [Brick.set_other _ hdc]
      exact h.created d hd
  before := fun p hp => (h.before p hp).trans_le hheap
  owned := fun k d hd => by
    by_cases hdc : d = c
    · subst hdc
      rw [Brick.set_self]
      exact hmember k hd
    · rw [Brick.set_other _ hdc]
      exact h.owned k d hd

/-- Fields are changed that the invariant does not speak of. -/
theorem Sound.update (h : Sound s) {heap : Heap} {counter : Int} {x : Conn}
    (hheap : s.heap.next ≤ heap.next) (hbelonging : x.belonging = (s.brick.conn c).belonging)
    (hload : x.loadConn = (s.brick.conn c).loadConn) :
    Sound ⟨heap, counter, s.brick.set c x⟩ := by
  refine h.set hheap (fun hc => ?_) fun k hk => ?_
  · rw [hbelonging, hload]
    exact ⟨h.belonging c hc, h.created c hc⟩
  · rw [hload]
    exact h.owned k c hk

theorem Sound.insertConn (h : Sound s) (hbelonging : (s.brick.conn c).belonging = true)
    (hload : (s.brick.conn c).loadConn ≠ none) (hbefore : ∀ p, c = .dynamic p → p < s.heap.next) :
    Sound { s with brick := s.brick.insertConn c } where
  belonging := fun d hd => by
    obtain hd | hd := List.mem_append.mp hd
    · exact h.belonging d hd
    · rw [List.mem_singleton.mp hd]
      exact hbelonging
  created := fun d hd => by
    obtain hd | hd := List.mem_append.mp hd
    · exact h.created d hd
    · rw [List.mem_singleton.mp hd]
      exact hload
  before := fun p hp => by
    obtain hp | hp := List.mem_append.mp hp
    · exact h.before p hp
    · exact hbefore p (List.mem_singleton.mp hp).symm
  owned := h.owned

/-- The connector is not of another static array. -/
def Fits (loader : Loader) (k : Nat) (c : ConnPtr) : Prop := ∀ k', Member loader k' c → k' = k

theorem Sound.createConn (h : Sound s) (hc : c ∉ s.brick.connectors)
    (hfits : Fits s.brick.loader k c) : Sound (s.createConn c k lc index) := by
  have hmember : ∀ k', Member s.brick.loader k' c → some k = none ∨ some k = some k' :=
    fun k' hk' => Or.inr (by rw [hfits k' hk'])
  unfold Sys.createConn
  split_ifs
  · exact h.set (Nat.le_succ _) (fun hc' => absurd hc' hc) hmember
  · exact h.set (Nat.le_refl _) (fun hc' => absurd hc' hc) hmember

/-! ## Steps -/

/-- What the connector of a request is. -/
structure Picked (s : Sys) (k : Nat) (c : ConnPtr) : Prop where
  sound : Sound s
  before : ∀ p, c = .dynamic p → p < s.heap.next
  new : (s.brick.conn c).belonging = false → c ∉ s.brick.connectors ∧ Fits s.brick.loader k c

theorem Sound.not_mem (h : Sound s) (hc : (s.brick.conn c).belonging = false) :
    c ∉ s.brick.connectors := fun hmem => by
  rw [h.belonging c hmem] at hc
  cases hc

theorem fits_dynamic (loader : Loader) (k p : Nat) : Fits loader k (.dynamic p) := by
  rintro k' ⟨lc, i, -, -, -, h⟩
  cases h

theorem fits_static {loader : Loader} {i : Nat} (hlc : loader.conn[k]? = some lc)
    (hex : lc.exported = true) (hi : i < lc.count) :
    Fits loader k (.static (lc.startIndex + i)) :=
  fun _ hk' => hk'.unique ⟨lc, i, hlc, hex, hi, rfl⟩

theorem Sound.pickConn (h : Sound s) (hlc : s.brick.loader.conn[k]? = some lc)
    (hex : lc.exported = true) (hpick : s.pickConn lc index = some (c, t)) : Picked t k c := by
  obtain ⟨-, rfl, rfl⟩ | ⟨i, hi, rfl, -, rfl⟩ | ⟨rfl, hget⟩ := Sys.pickConn_cases hpick
  · have hc : ConnPtr.dynamic s.heap.next ∉ s.brick.connectors := fun hmem =>
      absurd (h.before _ hmem) (Nat.lt_irrefl _)
    refine ⟨h.set (Nat.le_succ _) (fun hmem => absurd hmem hc) fun _ _ => Or.inl rfl, ?_, fun _ => ?_⟩
    · rintro _ ⟨⟩
      exact Nat.lt_succ_self _
    · exact ⟨hc, fits_dynamic _ _ _⟩
  · have hsound : Sound ⟨s.heap, s.counter, s.brick.set (.static (lc.startIndex + i))
        { s.brick.conn (.static (lc.startIndex + i)) with cIndex := i }⟩ :=
      h.update (Nat.le_refl _) rfl rfl
    refine ⟨hsound, fun p hp => (by cases hp), fun hnew => ⟨hsound.not_mem hnew, ?_⟩⟩
    exact fits_static hlc hex hi
  · unfold Brick.getConn at hget
    split_ifs at hget with hcount hindex
    · have hmem := List.mem_of_find?_eq_some hget
      refine ⟨h, fun p hp => h.before p (hp ▸ hmem), fun hnew => ?_⟩
      exact absurd hmem (h.not_mem hnew)
    · obtain rfl := Option.some.inj hget
      refine ⟨h, fun p hp => (by cases hp), fun hnew => ⟨h.not_mem hnew, ?_⟩⟩
      exact fits_static hlc hex (by omega)

theorem Picked.store (h : Picked s k c) : Picked (s.store c) k c := by
  have hsound : Sound (s.store c) := h.sound.update (Nat.le_succ _) rfl rfl
  refine ⟨hsound, fun p hp => Nat.lt_succ_of_lt (h.before p hp), fun hnew => ?_⟩
  rw [Sys.store_self] at hnew
  exact h.new hnew

/-- The connector has been created, and stays where it is. -/
theorem Picked.created (h : Picked s k c) (hnew : (s.brick.conn c).belonging = false) :
    Picked (s.createConn c k lc index) k c := by
  obtain ⟨hc, hfits⟩ := h.new hnew
  refine ⟨h.sound.createConn hc hfits, fun p hp => (h.before p hp).trans_le ?_, fun hnew' => ?_⟩
  · rw [Sys.createConn_heap]
    split_ifs
    · exact Nat.le_succ _
    · exact Nat.le_refl _
  · rw [Sys.createConn_self] at hnew'
    cases hnew'

theorem Sound.heap (h : Sound s) {heap : Heap} (hnext : s.heap.next ≤ heap.next) :
    Sound { s with heap := heap } :=
  ⟨h.belonging, h.created, fun p hp => (h.before p hp).trans_le hnext, h.owned⟩

theorem freeInst_next {h h' : Heap} {i : Inst} (hf : Sys.freeInst h i = some h') :
    h'.next = h.next := by
  cases i with
  | null => cases hf; rfl
  | inside => cases hf
  | own p => exact (Heap.free_eq_some hf).2.1

theorem freeParam_next {h h' : Heap} {q : Option Nat} (hf : Sys.freeParam h q = some h') :
    h'.next = h.next := by
  cases q with
  | none => cases hf; rfl
  | some p => exact (Heap.free_eq_some hf).2.1

theorem Sound.undo (h : Sound s) (hundo : s.undo lc c = some t) : Sound t := by
  obtain ⟨hbrick, heap, hfirst, hparam⟩ := Sys.undo_spec hundo
  have hnext : t.heap.next = s.heap.next := by
    rw [freeParam_next hparam]
    split_ifs at hfirst
    · exact freeInst_next hfirst
    · cases hfirst
      rfl
  have hsame := h.heap hnext.symm.le
  exact ⟨hbrick ▸ hsame.belonging, hbrick ▸ hsame.created, hbrick ▸ hsame.before,
    hbrick ▸ hsame.owned⟩

theorem findLoadConn_spec {b : Brick} (h : b.findLoadConn name = some k) :
    ∃ lc, b.loader.conn[k]? = some lc ∧ lc.exported = true ∧ lc.name = name := by
  obtain ⟨hk, hlc, -⟩ := List.findIdx?_eq_some_iff_getElem.mp h
  rw [Bool.and_eq_true, beq_iff_eq] at hlc
  exact ⟨_, List.getElem?_eq_getElem hk, hlc.1, hlc.2⟩

theorem Sound.instconn (h : Sound s) {r : Sys.Request} {success : Bool} {e : Option Int}
    (hinst : s.instconn r success = some (t, e)) : Sound t := by
  unfold Sys.instconn at hinst
  cases hprep : s.prepare r with
  | refused u =>
    rw [hprep] at hinst
    cases hinst
    obtain rfl | ⟨k, lc, c, hname, hlc, hpick⟩ := Sys.prepare_refused hprep
    · exact h
    · obtain ⟨lc', hlc', hex, -⟩ := findLoadConn_spec hname
      obtain rfl := Option.some.inj (hlc.symm.trans hlc')
      exact (h.pickConn hlc hex hpick).sound
  | ready u k lc c old =>
    rw [hprep] at hinst
    obtain ⟨hname, hlc, s₁, hpick, hset⟩ := Sys.prepare_ready hprep
    obtain ⟨lc', hlc', hex, -⟩ := findLoadConn_spec hname
    obtain rfl := Option.some.inj (hlc.symm.trans hlc')
    have hpicked := h.pickConn hlc hex hpick
    obtain ⟨s₂, hs₂, hold, hu⟩ := Sys.setUp_ready hset
    -- the parameter changes nothing here
    have hpicked₂ : Picked s₂ k c ∧ (s₂.brick.conn c).belonging = (s₁.brick.conn c).belonging := by
      obtain ⟨rfl, -⟩ | ⟨rfl, -⟩ := hs₂
      · exact ⟨hpicked, rfl⟩
      · exact ⟨hpicked.store, by rw [Sys.store_self]⟩
    have hready : Picked u k c ∧ (old = false → (u.brick.conn c).belonging = true ∧
        (u.brick.conn c).loadConn = some k) := by
      cases hb : (s₁.brick.conn c).belonging with
      | true =>
        rw [hb, if_pos rfl] at hu
        rw [hold, hb]
        exact ⟨hu ▸ hpicked₂.1, fun h => (by cases h)⟩
      | false =>
        rw [hb, if_neg Bool.false_ne_true] at hu
        rw [hu, Sys.createConn_self]
        exact ⟨hpicked₂.1.created (hpicked₂.2.trans hb), fun _ => ⟨rfl, rfl⟩⟩
    cases success with
    | true =>
      obtain rfl : u.finish c old = t := congrArg Prod.fst (Option.some.inj hinst)
      unfold Sys.finish
      cases old with
      | true => exact hready.1.sound
      | false =>
        obtain ⟨hbelonging, hload⟩ := hready.2 rfl
        exact hready.1.sound.insertConn hbelonging (by rw [hload]; exact Option.some_ne_none k)
          hready.1.before
    | false =>
      obtain ⟨v, hv, heq⟩ := Option.map_eq_some_iff.mp hinst
      cases heq
      exact hready.1.sound.undo hv

theorem Sound.deinstconn (h : Sound s) {b : Bool} (hdeinst : s.deinstconn name index = some (t, b)) :
    Sound t := by
  unfold Sys.deinstconn at hdeinst
  cases hfind : s.brick.findConn name index with
  | none => rw [hfind] at hdeinst; cases hdeinst; exact h
  | some c =>
    rw [hfind] at hdeinst
    simp only at hdeinst
    split_ifs at hdeinst
    · cases hdeinst
      exact h
    · obtain ⟨heap, hheap, heq⟩ := Option.map_eq_some_iff.mp hdeinst
      cases heq
      exact h.update (freeParam_next hheap).symm.le rfl rfl

theorem Sound.step (h : Sound s) {e : Event} (hstep : step s e = some t) : Sound t := by
  cases e with
  | instconn r success =>
    obtain ⟨⟨u, i⟩, hinst, rfl⟩ := Option.map_eq_some_iff.mp hstep
    exact h.instconn hinst
  | deinstconn name index =>
    obtain ⟨⟨u, b⟩, hdeinst, rfl⟩ := Option.map_eq_some_iff.mp hstep
    exact h.deinstconn hdeinst
  | link c linked =>
    cases hstep
    exact h.update (Nat.le_refl _) rfl rfl
  | elsewhere heap counter =>
    unfold ControlSimple.step at hstep
    simp only at hstep
    split_ifs at hstep with hnext
    cases hstep
    exact ⟨h.belonging, h.created, fun p hp => (h.before p hp).trans_le hnext, h.owned⟩

/-! ## A new brick -/

theorem createMembers_loader (s : Sys) (k : Nat) (lc : LoadConn) (n : Nat) :
    (s.createMembers k lc n).brick.loader = s.brick.loader := by
  induction n with
  | zero => rfl
  | succ n ih =>
    rw [← ih, Sys.createMembers]
    change (Sys.createConn _ _ _ _ _).brick.loader = _
    unfold Sys.createConn
    split_ifs <;> rfl

theorem createMembers_connectors (s : Sys) (k : Nat) (lc : LoadConn) (n : Nat) :
    ∀ c ∈ (s.createMembers k lc n).brick.connectors,
      c ∈ s.brick.connectors ∨ ∃ i < n, c = .static (lc.startIndex + i) := by
  induction n with
  | zero => exact fun c hc => Or.inl hc
  | succ n ih =>
    intro c hc
    obtain hc | hc := List.mem_append.mp hc
    · rw [Sys.createConn_connectors] at hc
      exact (ih c hc).imp_right fun ⟨i, hi, h⟩ => ⟨i, Nat.lt_succ_of_lt hi, h⟩
    · exact Or.inr ⟨n, Nat.lt_succ_self n, List.mem_singleton.mp hc⟩

theorem Sound.createMembers (h : Sound s) (hlc : s.brick.loader.conn[k]? = some lc)
    (hex : lc.exported = true) (hfresh : ∀ c ∈ s.brick.connectors, ¬Member s.brick.loader k c)
    {n : Nat} (hn : n ≤ lc.count) : Sound (s.createMembers k lc n) := by
  induction n with
  | zero => exact h
  | succ n ih =>
    have hsound := ih (by omega)
    have hloader := createMembers_loader s k lc n
    have hmember : Member s.brick.loader k (.static (lc.startIndex + n)) :=
      ⟨lc, n, hlc, hex, by omega, rfl⟩
    have hc : ConnPtr.static (lc.startIndex + n) ∉ (s.createMembers k lc n).brick.connectors := by
      intro hmem
      obtain hmem | ⟨i, hi, heq⟩ := createMembers_connectors s k lc n _ hmem
      · exact hfresh _ hmem hmember
      · have := ConnPtr.static.inj heq
        omega
    have hfits : Fits (s.createMembers k lc n).brick.loader k (.static (lc.startIndex + n)) := by
      rw [hloader]
      exact fun k' hk' => hk'.unique hmember
    have hnew : Sound ((s.createMembers k lc n).createConn (.static (lc.startIndex + n)) k lc n) :=
      hsound.createConn hc hfits
    refine hnew.insertConn ?_ ?_ fun p hp => (by cases hp)
    · rw [Sys.createConn_self]
    · rw [Sys.createConn_self]
      exact Option.some_ne_none k

/-- The connectors that have been created are those of the inputs in front. -/
theorem Sound.createInputs (h : Sound s) (hnil : s.brick.connectors = []) (n : Nat) :
    Sound (s.createInputs n) ∧ (s.createInputs n).brick.loader = s.brick.loader ∧
      ∀ c ∈ (s.createInputs n).brick.connectors, ∃ k < n, Member s.brick.loader k c := by
  induction n with
  | zero =>
    refine ⟨h, rfl, fun c hc => ?_⟩
    rw [Sys.createInputs, hnil] at hc
    cases hc
  | succ k ih =>
    obtain ⟨hsound, hloader, hlisted⟩ := ih
    have hstay : ∀ c ∈ (s.createInputs k).brick.connectors,
        ∃ j < k + 1, Member s.brick.loader j c := fun c hc => by
      obtain ⟨j, hj, hm⟩ := hlisted c hc
      exact ⟨j, by omega, hm⟩
    rw [Sys.createInputs]
    cases hlc : (s.createInputs k).brick.loader.conn[k]? with
    | none => exact ⟨hsound, hloader, hstay⟩
    | some lc =>
      simp only
      split_ifs with hinput
      · have hex : lc.exported = true := (Bool.and_eq_true_iff.mp hinput).2
        refine ⟨hsound.createMembers hlc hex (fun c hc hm => ?_) (Nat.le_refl _), ?_, fun c hc => ?_⟩
        · obtain ⟨j, hj, hm'⟩ := hlisted c hc
          rw [hloader] at hm
          exact absurd (hm'.unique hm) (by omega)
        · rw [createMembers_loader, hloader]
        · obtain hc | ⟨i, hi, rfl⟩ := createMembers_connectors _ k lc _ c hc
          · exact hstay c hc
          · rw [hloader] at hlc
            exact ⟨k, Nat.lt_succ_self k, lc, i, hlc, hex, hi, rfl⟩
      · exact ⟨hsound, hloader, hstay⟩

theorem Start.sound (h : Start s) : Sound s := by
  obtain ⟨heap, counter, loader, rfl⟩ := h
  refine (Sound.createInputs ⟨?_, ?_, ?_, ?_⟩ rfl _).1
  · exact fun c hc => (by cases hc)
  · exact fun c hc => (by cases hc)
  · exact fun p hp => (by cases hp)
  · exact fun k c _ => Or.inl rfl

theorem Sound.reach (h : Reach ControlSimple.step Start anyEvent s) : Sound s :=
  h.invariant (fun _ => Start.sound) fun _ _ _ hs _ => hs.step

/-! ## What is found -/

/-- The connectors `k` are the first exported ones of the name. -/
structure FirstOf (loader : Loader) (name : Text) (k : Nat) (lc : LoadConn) : Prop where
  at_k : loader.conn[k]? = some lc
  exported : lc.exported = true
  named : lc.name = name
  first : ∀ j < k, ∀ lc', loader.conn[j]? = some lc' → lc'.exported = true → lc'.name ≠ name

theorem FirstOf.found {b : Brick} (h : FirstOf b.loader name k lc) : b.findLoadConn name = some k := by
  obtain ⟨hk, hget⟩ := List.getElem?_eq_some_iff.mp h.at_k
  refine List.findIdx?_eq_some_iff_getElem.mpr ⟨hk, ?_, fun j hj hm => ?_⟩
  · rw [hget, h.exported, h.named, Bool.true_and]
    exact beq_self_eq_true name
  · rw [Bool.and_eq_true, beq_iff_eq] at hm
    exact h.first j hj _ (List.getElem?_eq_getElem _) hm.1 hm.2

theorem FirstOf.findConn {b : Brick} (h : FirstOf b.loader name k lc) :
    b.findConn name index = b.getConn lc index := by
  unfold Brick.findConn
  rw [h.found, Option.bind_some, h.at_k, Option.bind_some]

theorem findConn_none {b : Brick}
    (h : ∀ lc ∈ b.loader.conn, lc.exported = true → lc.name ≠ name) :
    b.findConn name index = none := by
  have hnone : b.findLoadConn name = none := by
    refine List.findIdx?_eq_none_iff.mpr fun lc hlc => Bool.eq_false_iff.mpr fun hm => ?_
    rw [Bool.and_eq_true, beq_iff_eq] at hm
    exact h lc hlc hm.1 hm.2
  unfold Brick.findConn
  rw [hnone]
  rfl

theorem getConn_static {b : Brick} (hcount : lc.count ≠ 0) :
    b.getConn lc index = some c ↔
      0 ≤ index ∧ index < lc.count ∧ c = .static (lc.startIndex + index.toNat) := by
  unfold Brick.getConn
  rw [if_neg hcount]
  split_ifs with hindex
  · refine ⟨fun h => (by cases h), fun ⟨h₁, h₂, _⟩ => ?_⟩
    omega
  · rw [Option.some.injEq]
    refine ⟨fun h => ⟨by omega, by omega, h.symm⟩, fun ⟨_, _, h⟩ => h.symm⟩

theorem getConn_dynamic {b : Brick} (hcount : lc.count = 0) (h : b.getConn lc index = some c) :
    c ∈ b.connectors ∧ (b.conn c).cIndex = index := by
  unfold Brick.getConn at h
  rw [if_pos hcount] at h
  refine ⟨List.mem_of_find?_eq_some h, ?_⟩
  have hindex := List.find?_some h
  exact of_decide_eq_true hindex

theorem getConn_dynamic_none {b : Brick} (hcount : lc.count = 0) :
    b.getConn lc index = none ↔ ∀ c ∈ b.connectors, (b.conn c).cIndex ≠ index := by
  unfold Brick.getConn
  rw [if_pos hcount, List.find?_eq_none]
  refine forall₂_congr fun c _ => ?_
  rw [decide_eq_true_iff]

/-- The connectors with this index are members of the array `k`. -/
def Alone (b : Brick) (k : Nat) (index : Int) : Prop :=
  ∀ c ∈ b.connectors, (b.conn c).cIndex = index → (b.conn c).loadConn = some k

instance (b : Brick) (k : Nat) (index : Int) : Decidable (Alone b k index) :=
  inferInstanceAs (Decidable (∀ c ∈ b.connectors, (b.conn c).cIndex = index →
    (b.conn c).loadConn = some k))

/-- **A connector is found by its name and index**: in a static array at its place, where there is no
header of another array. In a dynamic array it is a created member with the index, if there is one. -/
theorem connector_found (h : Reach ControlSimple.step Start anyEvent s) (name : Text) (index : Int) :
    ((∀ lc ∈ s.brick.loader.conn, lc.exported = true → lc.name ≠ name) →
      s.brick.findConn name index = none) ∧
    ∀ k lc, FirstOf s.brick.loader name k lc →
      (lc.count ≠ 0 → ∀ c,
        (s.brick.findConn name index = some c ↔
          0 ≤ index ∧ index < lc.count ∧ c = .static (lc.startIndex + index.toNat)) ∧
        (s.brick.findConn name index = some c →
          (s.brick.conn c).loadConn = none ∨ (s.brick.conn c).loadConn = some k)) ∧
      (lc.count = 0 → Alone s.brick k index →
        (∀ c, s.brick.findConn name index = some c → c ∈ s.brick.connectors ∧
          (s.brick.conn c).cIndex = index ∧ (s.brick.conn c).loadConn = some k) ∧
        (s.brick.findConn name index = none ↔
          ¬∃ c ∈ s.brick.connectors,
            (s.brick.conn c).cIndex = index ∧ (s.brick.conn c).loadConn = some k)) := by
  have hsound := Sound.reach h
  refine ⟨findConn_none, fun k lc hfirst => ?_⟩
  rw [hfirst.findConn]
  refine ⟨fun hcount c => ⟨getConn_static hcount, fun hc => ?_⟩, fun hcount halone => ⟨fun c hc => ?_, ?_⟩⟩
  · obtain ⟨hlow, hhigh, rfl⟩ := (getConn_static hcount).mp hc
    exact hsound.owned k _ ⟨lc, index.toNat, hfirst.at_k, hfirst.exported, by omega, rfl⟩
  · obtain ⟨hmem, hindex⟩ := getConn_dynamic hcount hc
    exact ⟨hmem, hindex, halone c hmem hindex⟩
  · rw [getConn_dynamic_none hcount]
    constructor
    · rintro hnone ⟨c, hc, hindex, -⟩
      exact hnone c hc hindex
    · exact fun hnone c hc hindex => hnone ⟨c, hc, hindex, halone c hc hindex⟩

/-! ## A brick with a dynamic array -/

def inOut : Loader where
  conn := [⟨"in".toList, [], false, true, 0, 1, 1⟩, ⟨"out".toList, [], true, true, 1, 0, 1⟩]
  apart := fun k k' lc lc' hk hlc hlc' _ _ => by
    obtain ⟨hlt, rfl⟩ := List.getElem?_eq_some_iff.mp hlc'
    have : k' < 2 := hlt
    obtain ⟨rfl, rfl⟩ : k = 0 ∧ k' = 1 := by omega
    obtain rfl := Option.some.inj hlc
    exact Nat.le_refl 1

def newInOut : Sys := Sys.newBrick (Heap.empty 1) 10000 inOut

/-- The member of the array has the index of the counter. -/
def grown : Sys :=
  ((newInOut.instconn ⟨"out".toList, -1, true⟩ true).map Prod.fst).getD newInOut

theorem grown_reached : Reach ControlSimple.step Start anyEvent grown :=
  .next (s := newInOut) (e := .instconn ⟨"out".toList, -1, true⟩ true) (.start ⟨_, _, _, rfl⟩)
    trivial rfl

theorem connector_found_member :
    (grown.brick.findConn "out".toList 10000 = none ↔
      ¬∃ c ∈ grown.brick.connectors,
        (grown.brick.conn c).cIndex = 10000 ∧ (grown.brick.conn c).loadConn = some 1) :=
  (((connector_found grown_reached "out".toList 10000).2 1 ⟨"out".toList, [], true, true, 1, 0, 1⟩
    ⟨rfl, rfl, rfl, by decide⟩).2 rfl (by decide)).2

/-- An input is found before it is instantiated. -/
theorem found_before_instantiated :
    Reach ControlSimple.step Start anyEvent oneInput ∧
      oneInput.brick.findConn "in".toList 0 = some (.static 0) ∧
      (oneInput.brick.conn (.static 0)).cParam = none :=
  ⟨.start ⟨_, _, _, rfl⟩, rfl, rfl⟩

end Athomux.ControlSimple
