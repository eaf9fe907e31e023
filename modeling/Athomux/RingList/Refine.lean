import Athomux.RingList.Fetch

/-!
# The rings that are read back

A macro does to the links what is to be done to the ring, as long as its gets leave each other
alone.
-/

open Lib

namespace Athomux.RingList

variable {c : PcConfig} {m m' : Store} {rs : Rings} {x y f left right pl pr : Nat} {l l' : List Nat}
  {r r0 r1 r2 r3 : GetReply}

/-! ## Links -/

/-- The links of different elements have no byte in common. -/
def Spaced (E : Multiset Nat) : Prop :=
  ∀ x ∈ E, x + sizeofLink ≤ addrSpace ∧ ∀ y ∈ E, x ≠ y → Apart x sizeofLink y sizeofLink

theorem nextAt_store {E : Multiset Nat} (hE : Spaced E) (hl : x ∈ E) (hr : y ∈ E) (hf : f ∈ E)
    (mem : ByteMem) :
    nextAt ((mem.store x (toBytes 8 y)).store (y + 8) (toBytes 8 x)) f =
      Function.update (nextAt mem) x y f := by
  have hlen (z : Nat) : (toBytes 8 z).length = 8 := toBytes_length 8 z
  have hback : nextAt ((mem.store x (toBytes 8 y)).store (y + 8) (toBytes 8 x)) f =
      nextAt (mem.store x (toBytes 8 y)) f := by
    unfold nextAt
    rw [ByteMem.load_store_apart]
    rw [hlen]
    by_cases hfy : f = y
    · omega
    · have := (hE f hf).2 y hr hfy
      unfold Apart sizeofLink at this
      omega
  rw [hback]
  by_cases hfx : f = x
  · rw [hfx, Function.update_self]
    have hload := ByteMem.load_store mem x (toBytes 8 y)
    rw [hlen] at hload
    unfold nextAt
    rw [hload, ofBytes_toBytes]
    have := (hE y hr).1
    unfold sizeofLink addrSpace at this
    omega
  · rw [Function.update_of_ne hfx]
    unfold nextAt
    rw [ByteMem.load_store_apart]
    rw [hlen]
    have := (hE f hf).2 x hl hfx
    unfold Apart sizeofLink at this
    omega

theorem prevAt_store {E : Multiset Nat} (hE : Spaced E) (hl : x ∈ E) (hr : y ∈ E) (hf : f ∈ E)
    (mem : ByteMem) :
    prevAt ((mem.store x (toBytes 8 y)).store (y + 8) (toBytes 8 x)) f =
      Function.update (prevAt mem) y x f := by
  have hlen (z : Nat) : (toBytes 8 z).length = 8 := toBytes_length 8 z
  by_cases hfy : f = y
  · rw [hfy, Function.update_self]
    have hload := ByteMem.load_store (mem.store x (toBytes 8 y)) (y + 8) (toBytes 8 x)
    rw [hlen] at hload
    unfold prevAt prevField
    rw [hload, ofBytes_toBytes]
    have := (hE x hl).1
    unfold sizeofLink addrSpace at this
    omega
  · rw [Function.update_of_ne hfy]
    unfold prevAt prevField
    rw [ByteMem.load_store_apart, ByteMem.load_store_apart]
    · rw [hlen]
      by_cases hfx : f = x
      · omega
      · have := (hE f hf).2 x hl hfx
        unfold Apart sizeofLink at this
        omega
    · rw [hlen]
      have := (hE f hf).2 y hr hfy
      unfold Apart sizeofLink at this
      omega

/-! ## `_LI_CONNECT` -/

def Sound (c : PcConfig) (m : Store) : Prop := ∀ w ∈ m.stores, w.Sound c

theorem Pinned.sound (h : Pinned c m true x pl) : Access.Sound c ⟨m.cache, x, pl⟩ := by
  obtain ⟨b, hb, hd, hlog, hlen, hp⟩ := h
  exact ⟨c.hash x, PtrCache.hash_lt x, b, hb, hd rfl, hlog, hlen, hp⟩

/-- What `_LI_CONNECT` leaves. -/
structure Connected (c : PcConfig) (m m' : Store) (left right : Nat) : Prop where
  coherent : Coherent c m'
  cache : m'.cache = m.cache
  view : m'.view c =
    ((m.view c).store left (toBytes 8 right)).store (right + 8) (toBytes 8 left)
  sound : Sound c m → Sound c m'

theorem connect_spec (h : Coherent c m) (hl : Pinned c m true left pl)
    (hr : Pinned c m true right pr) :
    Connected c m (m.connect left pl right pr) left right := by
  have hnote : Coherent c (m.note left pl) := ⟨h.bound, h.clean, h.apart, h.fits⟩
  have hpoke := coherent_poke (k := 0) (y := right) hnote hl (by decide)
  have hview := view_poke (k := 0) (y := right) hnote hl (by decide)
  have hnote' : Coherent c (((m.note left pl).poke pl right).note right pr) :=
    ⟨hpoke.bound, hpoke.clean, hpoke.apart, hpoke.fits⟩
  refine ⟨coherent_poke hnote' hr (by decide), rfl, ?_, fun hs w hw => ?_⟩
  · refine (view_poke (k := 8) hnote' hr (by decide)).trans ?_
    exact congrArg (fun v : ByteMem => v.store (right + 8) (toBytes 8 left)) hview
  · rcases List.mem_cons.mp hw with rfl | hw
    · exact hr.sound
    · rcases List.mem_cons.mp hw with rfl | hw
      · exact hl.sound
      · exact hs w hw

/-! ## Rings -/

/-- The rings are there, and every store so far was sound. -/
structure Linked (c : PcConfig) (m : Store) (rs : Rings) : Prop where
  coherent : Coherent c m
  nodup : rs.elems.Nodup
  spaced : Spaced rs.elems
  rings : ∀ ring ∈ rs, LinkedRing (nextAt (m.view c)) (prevAt (m.view c)) ring
  sound : Sound c m

theorem elems_cons (l : List Nat) (rs : Rings) :
    Rings.elems ((l : Cycle Nat) ::ₘ rs) = (l : Multiset Nat) + rs.elems :=
  Multiset.cons_bind _ _ _

theorem mem_elems {ring : Cycle Nat} (hring : ring ∈ rs) (hx : x ∈ ring) : x ∈ rs.elems := by
  refine Multiset.mem_bind.mpr ⟨ring, hring, ?_⟩
  induction ring with
  | nil => exact absurd hx (Cycle.notMem_nil x)
  | cons s l => exact hx

theorem mem_elems_cons : x ∈ Rings.elems ((l : Cycle Nat) ::ₘ rs) ↔ x ∈ l ∨ x ∈ rs.elems := by
  rw [elems_cons, Multiset.mem_add, Multiset.mem_coe]

/-- The other rings do not have the elements of this one. -/
theorem notMem_of_elems (h : (Rings.elems ((l : Cycle Nat) ::ₘ rs)).Nodup) (hx : x ∈ rs.elems) : x ∉ l := by
  rw [elems_cons, Multiset.nodup_add] at h
  intro hl
  exact Multiset.disjoint_left.mp h.2.2 (Multiset.mem_coe.mpr hl) hx

theorem Linked.outside (h : Linked c m ((l : Cycle Nat) ::ₘ rs)) (hx : x ∈ rs.elems) : x ∉ l :=
  notMem_of_elems h.nodup hx

theorem Linked.nodup_ring (h : Linked c m ((l : Cycle Nat) ::ₘ rs)) : l.Nodup := by
  have hnodup := h.nodup
  rw [elems_cons, Multiset.nodup_add] at hnodup
  exact Multiset.coe_nodup.mp hnodup.1

theorem Linked.ring (h : Linked c m ((l : Cycle Nat) ::ₘ rs)) :
    LinkedRing (nextAt (m.view c)) (prevAt (m.view c)) l := h.rings _ (Multiset.mem_cons_self _ _)

/-- One ring is exchanged, and `next` and `prev` are what has been done to the links. -/
theorem Linked.relink {next prev : Nat → Nat} (h : Linked c m ((l : Cycle Nat) ::ₘ rs))
    (hco : Coherent c m') (hnodup : (Rings.elems ((l' : Cycle Nat) ::ₘ rs)).Nodup)
    (hspaced : Spaced (Rings.elems ((l' : Cycle Nat) ::ₘ rs)))
    (hlinks : ∀ x ∈ Rings.elems ((l' : Cycle Nat) ::ₘ rs),
      nextAt (m'.view c) x = next x ∧ prevAt (m'.view c) x = prev x)
    (hring : LinkedRing next prev l')
    (hothers : ∀ x, x ∉ l → x ∉ l' → next x = nextAt (m.view c) x ∧ prev x = prevAt (m.view c) x)
    (hsound : Sound c m') : Linked c m' ((l' : Cycle Nat) ::ₘ rs) := by
  refine ⟨hco, hnodup, hspaced, fun ring hmem => ?_, hsound⟩
  rcases Multiset.mem_cons.mp hmem with rfl | hmem
  · have hin (x : Nat) (hx : x ∈ (l' : Cycle Nat)) := hlinks x (mem_elems_cons.mpr (.inl hx))
    exact hring.congr (fun x hx => (hin x hx).1) fun x hx => (hin x hx).2
  · have hin (x : Nat) (hx : x ∈ ring) : nextAt (m'.view c) x = nextAt (m.view c) x ∧
        prevAt (m'.view c) x = prevAt (m.view c) x := by
      have hrs := mem_elems hmem hx
      have hlink := hlinks x (mem_elems_cons.mpr (.inr hrs))
      have hsame := hothers x (h.outside hrs) (notMem_of_elems hnodup hrs)
      exact ⟨hlink.1.trans hsame.1, hlink.2.trans hsame.2⟩
    exact (h.rings ring (Multiset.mem_cons_of_mem hmem)).congr (fun x hx => (hin x hx).1)
      fun x hx => (hin x hx).2

/-- Nothing happens to the links. -/
theorem Linked.same (h : Linked c m rs) (hco : Coherent c m') (hview : m'.view c = m.view c)
    (hstores : m'.stores = m.stores) : Linked c m' rs := by
  refine ⟨hco, h.nodup, h.spaced, ?_, ?_⟩
  · rw [hview]
    exact h.rings
  · unfold Sound
    rw [hstores]
    exact h.sound

/-! ## One macro -/

/-- The links after `_LI_CONNECT`, as far as the elements `E` go. -/
theorem Connected.links {E : Multiset Nat} (h : Connected c m m' left right) (hE : Spaced E)
    (hl : left ∈ E) (hr : right ∈ E) (hf : f ∈ E) :
    nextAt (m'.view c) f = Function.update (nextAt (m.view c)) left right f ∧
      prevAt (m'.view c) f = Function.update (prevAt (m.view c)) right left f := by
  rw [h.view]
  exact ⟨nextAt_store hE hl hr hf _, prevAt_store hE hl hr hf _⟩

theorem update_congr {g g' : Nat → Nat} (h : g f = g' f) :
    Function.update g x y f = Function.update g' x y f := by
  simp only [Function.update_apply, h]

theorem Connected.links_twice {m₂ : Store} {E : Multiset Nat} {left₂ right₂ : Nat}
    (h : Connected c m m' left right) (h₂ : Connected c m' m₂ left₂ right₂) (hE : Spaced E)
    (hl : left ∈ E) (hr : right ∈ E) (hl₂ : left₂ ∈ E) (hr₂ : right₂ ∈ E) (hf : f ∈ E) :
    nextAt (m₂.view c) f =
        Function.update (Function.update (nextAt (m.view c)) left right) left₂ right₂ f ∧
      prevAt (m₂.view c) f =
        Function.update (Function.update (prevAt (m.view c)) right left) right₂ left₂ f := by
  obtain ⟨hn, hp⟩ := h.links hE hl hr hf
  obtain ⟨hn₂, hp₂⟩ := h₂.links hE hl₂ hr₂ hf
  exact ⟨hn₂.trans (update_congr hn), hp₂.trans (update_congr hp)⟩

theorem Connected.pinned {d : Bool} (h : Connected c m m' left right) (hp : Pinned c m d x pl) :
    Pinned c m' d x pl := by
  unfold Pinned
  rw [h.cache]
  exact hp

theorem Rings.Free.notMem {e : Nat} (h : rs.Free e) : e ∉ rs.elems := fun he => by
  have := h.2 e he
  unfold sizeofLink at this
  omega

theorem Spaced.cons {E : Multiset Nat} {e : Nat} (hE : Spaced E) (he : e + sizeofLink ≤ addrSpace)
    (hfree : ∀ x ∈ E, x + sizeofLink ≤ e ∨ e + sizeofLink ≤ x) : Spaced (e ::ₘ E) := by
  intro x hx
  rcases Multiset.mem_cons.mp hx with rfl | hx
  · refine ⟨he, fun y hy hne => ?_⟩
    rcases Multiset.mem_cons.mp hy with rfl | hy
    · exact absurd rfl hne
    · exact (hfree y hy).symm
  · refine ⟨(hE x hx).1, fun y hy hne => ?_⟩
    rcases Multiset.mem_cons.mp hy with hye | hyE
    · exact hye ▸ hfree x hx
    · exact (hE x hx).2 y hyE hne

/-- One element more. -/
theorem Linked.relink_cons {next prev : Nat → Nat} {e : Nat}
    (h : Linked c m ((l : Cycle Nat) ::ₘ rs)) (hfree : Rings.Free ((l : Cycle Nat) ::ₘ rs) e)
    (hperm : l'.Perm (e :: l)) (hco : Coherent c m')
    (hlinks : ∀ x ∈ e ::ₘ Rings.elems ((l : Cycle Nat) ::ₘ rs),
      nextAt (m'.view c) x = next x ∧ prevAt (m'.view c) x = prev x)
    (hring : LinkedRing next prev l')
    (hothers : ∀ x, x ≠ e → x ∉ l → next x = nextAt (m.view c) x ∧ prev x = prevAt (m.view c) x)
    (hsound : Sound c m') : Linked c m' ((l' : Cycle Nat) ::ₘ rs) := by
  have helems : Rings.elems ((l' : Cycle Nat) ::ₘ rs) =
      e ::ₘ Rings.elems ((l : Cycle Nat) ::ₘ rs) := by
    rw [elems_cons, elems_cons, Multiset.coe_eq_coe.mpr hperm, ← Multiset.cons_coe,
      Multiset.cons_add]
  refine h.relink hco ?_ ?_ ?_ hring (fun x hx hx' => hothers x ?_ hx) hsound
  · rw [helems]
    exact Multiset.nodup_cons.mpr ⟨hfree.notMem, h.nodup⟩
  · rw [helems]
    exact h.spaced.cons hfree.1 hfree.2
  · rw [helems]
    exact hlinks
  · rintro rfl
    exact hx' (hperm.mem_iff.mpr List.mem_cons_self)

section insert

variable {start elem ps pe pn : Nat} (h : Linked c m ((start :: l : List Nat) ::ₘ rs))
  (hfree : Rings.Free ((start :: l : List Nat) ::ₘ rs) elem) (hs : Pinned c m true start ps)
  (he : Pinned c m true elem pe)

theorem mem_cons_elems (hx : x ∈ start :: l) :
    x ∈ elem ::ₘ Rings.elems ((start :: l : List Nat) ::ₘ rs) :=
  Multiset.mem_cons_of_mem (mem_elems_cons.mpr (.inl hx))

include h hfree hs he

theorem linked_append {next : Nat} (hnext : nextAt (m.view c) start = next)
    (hn : Pinned c m true next pn) :
    Linked c ((m.connect start ps elem pe).connect elem pe next pn)
      ((start :: elem :: l : List Nat) ::ₘ rs) := by
  subst hnext
  have hc := connect_spec h.coherent hs he
  have hc₂ := connect_spec hc.coherent (hc.pinned he) (hc.pinned hn)
  have hring := h.ring
  have hnext := hring.next_mem
  have helem : elem ∉ start :: l := fun hx => hfree.notMem (mem_elems_cons.mpr (.inl hx))
  have hins := hring.insertAfter (List.nodup_cons.mp h.nodup_ring).1 helem
  refine h.relink_cons hfree (List.Perm.swap elem start l) hc₂.coherent (fun x hx => ?_) hins
    (fun x hxe hxl => ?_) (hc₂.sound (hc.sound h.sound))
  · exact hc.links_twice hc₂ (h.spaced.cons hfree.1 hfree.2) (mem_cons_elems List.mem_cons_self)
      (Multiset.mem_cons_self _ _) (Multiset.mem_cons_self _ _) (mem_cons_elems hnext) hx
  · have hxs : x ≠ start := fun hxs => hxl (hxs ▸ List.mem_cons_self)
    have hxn : x ≠ nextAt (m.view c) start := fun hxn => hxl (hxn ▸ hnext)
    rw [Function.update_of_ne hxe, Function.update_of_ne hxs, Function.update_of_ne hxn,
      Function.update_of_ne hxe]
    exact ⟨rfl, rfl⟩

theorem linked_prepend {prev : Nat} (hprev : prevAt (m.view c) start = prev)
    (hp : Pinned c m true prev pn) :
    Linked c ((m.connect prev pn elem pe).connect elem pe start ps)
      ((elem :: start :: l : List Nat) ::ₘ rs) := by
  subst hprev
  have hc := connect_spec h.coherent hp he
  have hc₂ := connect_spec hc.coherent (hc.pinned he) (hc.pinned hs)
  have hring := h.ring
  have hprev := hring.prev_mem
  have helem : elem ∉ start :: l := fun hx => hfree.notMem (mem_elems_cons.mpr (.inl hx))
  have hins := hring.insertBefore h.nodup_ring helem
  refine h.relink_cons hfree (List.Perm.refl _) hc₂.coherent (fun x hx => ?_) hins
    (fun x hxe hxl => ?_) (hc₂.sound (hc.sound h.sound))
  · exact hc.links_twice hc₂ (h.spaced.cons hfree.1 hfree.2) (mem_cons_elems hprev)
      (Multiset.mem_cons_self _ _) (Multiset.mem_cons_self _ _)
      (mem_cons_elems List.mem_cons_self) hx
  · have hxs : x ≠ start := fun hxs => hxl (hxs ▸ List.mem_cons_self)
    have hxp : x ≠ prevAt (m.view c) start := fun hxp => hxl (hxp ▸ hprev)
    rw [Function.update_of_ne hxe, Function.update_of_ne hxp, Function.update_of_ne hxs,
      Function.update_of_ne hxe]
    exact ⟨rfl, rfl⟩

end insert

/-- The neighbours of `elem` are connected with each other. -/
theorem linked_remove {elem : Nat} (h : Linked c m ((elem :: l : List Nat) ::ₘ rs))
    (hleft : prevAt (m.view c) elem = left) (hright : nextAt (m.view c) elem = right)
    (hl : Pinned c m true left pl) (hr : Pinned c m true right pr) :
    Linked c (m.connect left pl right pr) ((l : Cycle Nat) ::ₘ rs) := by
  subst hleft hright
  have hc := connect_spec h.coherent hl hr
  have hring := h.ring
  have hnext := hring.next_mem
  have hprev := hring.prev_mem
  have helems : Rings.elems ((elem :: l : List Nat) ::ₘ rs) =
      elem ::ₘ Rings.elems ((l : Cycle Nat) ::ₘ rs) := by
    rw [elems_cons, elems_cons, ← Multiset.cons_coe, Multiset.cons_add]
  have hle (y : Nat) (hy : y ∈ Rings.elems ((l : Cycle Nat) ::ₘ rs)) :
      y ∈ Rings.elems ((elem :: l : List Nat) ::ₘ rs) := by
    rw [helems]
    exact Multiset.mem_cons_of_mem hy
  refine h.relink hc.coherent ?_ ?_ (fun x hx => ?_)
    (hring.remove (List.nodup_cons.mp h.nodup_ring).1) (fun x hxl _ => ?_) (hc.sound h.sound)
  · have hnodup := h.nodup
    rw [helems] at hnodup
    exact (Multiset.nodup_cons.mp hnodup).2
  · intro x hx
    exact ⟨(h.spaced x (hle x hx)).1, fun y hy => (h.spaced x (hle x hx)).2 y (hle y hy)⟩
  · exact hc.links h.spaced (mem_elems_cons.mpr (.inl hprev)) (mem_elems_cons.mpr (.inl hnext))
      (hle x hx)
  · have hxn : x ≠ nextAt (m.view c) elem := fun hxn => hxl (hxn ▸ hnext)
    have hxp : x ≠ prevAt (m.view c) elem := fun hxp => hxl (hxp ▸ hprev)
    rw [Function.update_of_ne hxp, Function.update_of_ne hxn]
    exact ⟨rfl, rfl⟩

theorem elems_nil : Rings.elems ((([] : List Nat) : Cycle Nat) ::ₘ rs) = rs.elems := by
  rw [elems_cons, Multiset.coe_nil, Multiset.zero_add]

theorem Linked.nil (h : Linked c m rs) : Linked c m ((([] : List Nat) : Cycle Nat) ::ₘ rs) := by
  refine ⟨h.coherent, elems_nil.symm ▸ h.nodup, elems_nil.symm ▸ h.spaced, fun ring hring => ?_,
    h.sound⟩
  rcases Multiset.mem_cons.mp hring with rfl | hring
  · exact LinkedRing.nil
  · exact h.rings ring hring

theorem linked_init {start ps : Nat} (h : Linked c m rs) (hfree : rs.Free start)
    (hs : Pinned c m true start ps) :
    Linked c (m.connect start ps start ps) (([start] : List Nat) ::ₘ rs) := by
  have hc := connect_spec h.coherent hs hs
  have hfree' : Rings.Free ((([] : List Nat) : Cycle Nat) ::ₘ rs) start := by
    unfold Rings.Free
    rw [elems_nil]
    exact hfree
  have hring : LinkedRing (Function.update (nextAt (m.view c)) start start)
      (Function.update (prevAt (m.view c)) start start) ([start] : List Nat) :=
    LinkedRing.singleton_iff.mpr ⟨Function.update_self .., Function.update_self ..⟩
  refine h.nil.relink_cons hfree' (List.Perm.refl _) hc.coherent (fun x hx => ?_) hring
    (fun x hxe _ => ?_) (hc.sound h.sound)
  · rw [elems_nil] at hx
    exact hc.links (h.spaced.cons hfree.1 hfree.2) (Multiset.mem_cons_self _ _)
      (Multiset.mem_cons_self _ _) hx
  · rw [Function.update_of_ne hxe, Function.update_of_ne hxe]
    exact ⟨rfl, rfl⟩

end Athomux.RingList
