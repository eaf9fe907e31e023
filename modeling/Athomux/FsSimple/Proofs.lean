import Athomux.FsSimple.Spec

/-! # The tables fit each other -/

open Lib

namespace Athomux.FsSimple

variable {s t : Fs}

/-! ## The invariant -/

/-- With the index of a path only this path is found. -/
structure Inv (s : Fs) : Prop where
  consistent : Consistent s
  indexed : ∀ b p, p ∈ s.indexTable b →
    ∃ path, s.path p = some path ∧ bucket (indexHash path.index) = some b
  indexNodup : ∀ b, (s.indexTable b).Nodup
  named : ∀ b p, p ∈ s.pathTable b → s.path p ≠ none
  nameNodup : ∀ b, (s.pathTable b).Nodup
  below : ∀ p path, s.path p = some path → path.index < s.maxIndex
  unique : ∀ p q path path', s.path p = some path → s.path q = some path' →
    path.index = path'.index → p = q

theorem inv_init (h : Init s) : Inv s := by
  obtain ⟨-, hpaths, hindices, hvconns, hpath, hvconn, hchain⟩ := h
  refine ⟨⟨?_, ?_, ?_, ?_⟩, ?_, ?_, ?_, ?_, ?_, ?_⟩
  · exact ⟨fun k i => by simp [hchain, hvconn], fun k => by simp [hchain]⟩
  · exact ⟨fun k i => by simp [hvconns, hvconn], fun k => by simp [hvconns]⟩
  · simp [hvconn]
  · simp [hvconn]
  · simp [hindices]
  · simp [hindices]
  · simp [hpaths]
  · simp [hpaths]
  · simp [hpath]
  · simp [hpath]

/-- What `index_find` finds. -/
theorem Inv.indexFind_spec (h : Inv s) {index : Int} {p : Nat}
    (hfind : s.indexFind index = some (some p)) :
    ∃ path b, s.path p = some path ∧ path.index = index ∧ bucket (indexHash index) = some b ∧
      p ∈ s.indexTable b ∧ (s.indexTable b).eraseP (s.hasIndex index) = (s.indexTable b).erase p := by
  unfold Fs.indexFind at hfind
  rw [Option.map_eq_some_iff] at hfind
  obtain ⟨b, hb, hfind⟩ := hfind
  have hin := List.mem_of_find?_eq_some hfind
  obtain ⟨path, hpath, -⟩ := h.indexed b p hin
  have hindex : path.index = index := by
    have := List.find?_some hfind
    simpa [Fs.hasIndex, hpath] using this
  refine ⟨path, b, hpath, hindex, hb, hin, ?_⟩
  refine eraseP_eq_erase fun q hq => ?_
  obtain ⟨path', hpath', -⟩ := h.indexed b q hq
  constructor
  · intro hq
    have hq' : path'.index = index := by simpa [Fs.hasIndex, hpath'] using hq
    exact h.unique q p path' path hpath' hpath (hq'.trans hindex.symm)
  · rintro rfl
    simp [Fs.hasIndex, hpath, hindex]

/-! ## What the operations do -/

/-- Nothing, or a new path is in front of its two buckets. -/
theorem instconn_spec {conn1 : ConnInfo} {param : Name} {walk : Option ConnInfo} {mem : Option Nat}
    (hs : s.instconn conn1 param walk mem = some t) :
    t = s ∨ ∃ aliasInfo p b b', walk = some aliasInfo ∧ s.path p = none ∧
      bucket (indexHash s.maxIndex) = some b' ∧
      t = { s with
        maxIndex := s.maxIndex + 1
        path := Function.update s.path p (some ⟨s.maxIndex, param, aliasInfo⟩)
        pathTable := Function.update s.pathTable b (p :: s.pathTable b)
        indexTable := Function.update s.indexTable b' (p :: s.indexTable b') } := by
  unfold Fs.instconn at hs
  split_ifs at hs
  · exact Or.inl (Option.some.inj hs).symm
  · exact Or.inl (Option.some.inj hs).symm
  · split at hs
    · rename_i aliasInfo p
      split_ifs at hs with hfree
      rw [Option.bind_eq_some_iff] at hs
      obtain ⟨u, hu, hs⟩ := hs
      obtain ⟨b, -, rfl⟩ := Option.map_eq_some_iff.mp hu
      obtain ⟨b', hb', rfl⟩ := Option.map_eq_some_iff.mp hs
      exact Or.inr ⟨aliasInfo, p, b, b', rfl, hfree.1, hb', rfl⟩
    · exact Or.inl (Option.some.inj hs).symm

/-- `$deinstconn` takes a path out. -/
def Deinst (s : Fs) (conn1 : ConnInfo) (p : Nat) (path : Path) : Prop :=
  conn1.addr = s.fsLogaddr ∧ s.indexFind conn1.index = some (some p) ∧ s.path p = some path ∧
    s.chain p = []

theorem Inv.deinstconn_spec (h : Inv s) {conn1 : ConnInfo} (hs : s.deinstconn conn1 = some t) :
    (t = s ∧ ∀ p path, ¬ Deinst s conn1 p path) ∨ ∃ p path b b', Deinst s conn1 p path ∧
      bucket (pathHash path.name path.name.length) = some b ∧ p ∈ s.indexTable b' ∧
      t = { s with
        pathTable := Function.update s.pathTable b ((s.pathTable b).eraseP (s.hasName path.name))
        indexTable := Function.update s.indexTable b' ((s.indexTable b').erase p) } := by
  unfold Fs.deinstconn at hs
  split_ifs at hs with haddr
  · exact Or.inl ⟨(Option.some.inj hs).symm, fun p path hd => haddr hd.1⟩
  · split at hs
    · cases hs
    · rename_i hfind
      refine Or.inl ⟨(Option.some.inj hs).symm, fun p path hd => ?_⟩
      rw [hd.2.1] at hfind
      cases hfind
    · rename_i p hfind
      split at hs
      · cases hs
      · rename_i path hpath
        split_ifs at hs with hchain
        · refine Or.inl ⟨(Option.some.inj hs).symm, fun q path' hd => hchain ?_⟩
          rw [hd.2.1] at hfind
          obtain rfl : q = p := Option.some.inj (Option.some.inj hfind)
          exact hd.2.2.2
        · obtain ⟨path', b', hpath', hindex, hb', hin, herase⟩ := h.indexFind_spec hfind
          obtain rfl : path = path' := Option.some.inj (hpath.symm.trans hpath')
          rw [Option.bind_eq_some_iff] at hs
          obtain ⟨u, hu, hs⟩ := hs
          obtain ⟨b, hb, rfl⟩ := Option.map_eq_some_iff.mp hu
          obtain ⟨b'', hb'', rfl⟩ := Option.map_eq_some_iff.mp hs
          obtain rfl : b'' = b' := Option.some.inj (hb''.symm.trans (hindex ▸ hb'))
          refine Or.inr ⟨p, path, b, b'', ⟨not_not.mp haddr, hfind, hpath, not_not.mp hchain⟩, hb,
            hin, ?_⟩
          rw [← herase, ← hindex]
          rfl

/-- Nothing, or a new connection is in front of its chain and of its bucket. -/
theorem Inv.connect_spec (h : Inv s) {conn1 conn2 : ConnInfo} {ok : Bool} {mem : Option Nat}
    (hs : s.connect conn1 conn2 ok mem = some t) :
    t = s ∨ ∃ p v b path b', ok = true ∧ s.vconn v = none ∧ bucket (vconnHash conn1) = some b ∧
      s.path p = some path ∧ bucket (indexHash path.index) = some b' ∧ p ∈ s.indexTable b' ∧
      t = { s with
        vconn := Function.update s.vconn v (some ⟨p, conn1⟩)
        chain := Function.update s.chain p (v :: s.chain p)
        vconnTable := Function.update s.vconnTable b (v :: s.vconnTable b) } := by
  unfold Fs.connect at hs
  split_ifs at hs
  · exact Or.inl (Option.some.inj hs).symm
  · exact Or.inl (Option.some.inj hs).symm
  · split at hs
    · cases hs
    · exact Or.inl (Option.some.inj hs).symm
    · rename_i p hfind
      obtain ⟨path, b', hpath, hindex, hb', hin, -⟩ := h.indexFind_spec hfind
      split at hs
      · rename_i v
        split_ifs at hs with hfree
        obtain ⟨b, hb, rfl⟩ := Option.map_eq_some_iff.mp hs
        exact Or.inr ⟨p, v, b, path, b', rfl, hfree, hb, hpath, hindex ▸ hb', hin, rfl⟩
      · exact Or.inl (Option.some.inj hs).symm

/-- Nothing, or the connection that is found is taken out of its chain and of its bucket. -/
theorem disconnect_spec {conn1 : ConnInfo} (hs : s.disconnect conn1 = some t) :
    (t = s ∧ s.vconnFind conn1 = some none) ∨ ∃ v c b, s.vconnFind conn1 = some (some v) ∧
      s.vconn v = some c ∧ bucket (vconnHash c.conn) = some b ∧
      t = { s with
        chain := Function.update s.chain c.belonging ((s.chain c.belonging).erase v)
        vconnTable := Function.update s.vconnTable b ((s.vconnTable b).erase v)
        vconn := Function.update s.vconn v none } := by
  unfold Fs.disconnect at hs
  split at hs
  · cases hs
  · rename_i hfind
    exact Or.inl ⟨(Option.some.inj hs).symm, hfind⟩
  · rename_i v hfind
    split at hs
    · cases hs
    · rename_i c hc
      obtain ⟨u, hu, rfl⟩ := Option.map_eq_some_iff.mp hs
      obtain ⟨b, hb, rfl⟩ := Option.map_eq_some_iff.mp hu
      exact Or.inr ⟨v, c, b, hfind, hc, hb, rfl⟩

/-! ## Every operation keeps the invariant -/

theorem Inv.instconn (h : Inv s) {conn1 : ConnInfo} {param : Name} {walk : Option ConnInfo}
    {mem : Option Nat} (hs : s.instconn conn1 param walk mem = some t) : Inv t := by
  obtain rfl | ⟨aliasInfo, p, b, b', -, hfree, hb', rfl⟩ := instconn_spec hs
  · exact h
  have hindices : ∀ c, p ∉ s.indexTable c := fun c hin => by
    obtain ⟨path, hpath, -⟩ := h.indexed c p hin
    rw [hfree] at hpath
    cases hpath
  have hnames : ∀ c, p ∉ s.pathTable c := fun c hin => h.named c p hin hfree
  have hold : ∀ {q path}, s.path q = some path → Function.update s.path p
      (some ⟨s.maxIndex, param, aliasInfo⟩) q = some path :=
    fun hq => (update_eq_some hfree).mpr (Or.inr hq)
  refine ⟨⟨h.consistent.chains, h.consistent.keys, h.consistent.hashed, ?_⟩, ?_, ?_, ?_, ?_, ?_, ?_⟩
  · intro v c hv
    obtain ⟨path, d, hpath, hd, hin⟩ := h.consistent.belongs v c hv
    exact ⟨path, d, hold hpath, hd, mem_update_cons.mpr (Or.inr hin)⟩
  · intro c q hin
    rcases mem_update_cons.mp hin with ⟨rfl, rfl⟩ | hin
    · exact ⟨_, Function.update_self .., hb'⟩
    · obtain ⟨path, hpath, hc⟩ := h.indexed c q hin
      exact ⟨path, hold hpath, hc⟩
  · exact nodup_update_cons h.indexNodup (hindices b')
  · intro c q hin hnone
    rcases mem_update_cons.mp hin with ⟨-, rfl⟩ | hin
    · cases hnone.symm.trans (Function.update_self ..)
    · obtain ⟨path, hpath⟩ := Option.ne_none_iff_exists'.mp (h.named c q hin)
      cases hnone.symm.trans (hold hpath)
  · exact nodup_update_cons h.nameNodup (hnames b)
  · intro q path hq
    rcases (update_eq_some hfree).mp hq with ⟨-, rfl⟩ | hq
    · exact Int.lt_add_one_of_le (Int.le_refl _)
    · exact Int.lt_trans (h.below q path hq) (Int.lt_add_one_of_le (Int.le_refl _))
  · intro q r path path' hq hr heq
    rcases (update_eq_some hfree).mp hq with ⟨hqp, rfl⟩ | hq <;>
      rcases (update_eq_some hfree).mp hr with ⟨hrp, rfl⟩ | hr
    · exact hqp.trans hrp.symm
    · exact absurd heq (Int.ne_of_gt (h.below r path' hr))
    · exact absurd heq (Int.ne_of_lt (h.below q path hq))
    · exact h.unique q r path path' hq hr heq

theorem Inv.deinstconn (h : Inv s) {conn1 : ConnInfo} (hs : s.deinstconn conn1 = some t) :
    Inv t := by
  obtain ⟨rfl, -⟩ | ⟨p, path, b, b', hd, -, -, rfl⟩ := h.deinstconn_spec hs
  · exact h
  refine ⟨⟨h.consistent.chains, h.consistent.keys, h.consistent.hashed, ?_⟩, ?_, ?_, ?_, ?_,
    h.below, h.unique⟩
  · intro v c hv
    obtain ⟨path, d, hpath, hd', hin⟩ := h.consistent.belongs v c hv
    refine ⟨path, d, hpath, hd', ?_⟩
    -- The chain of the path that goes is empty.
    have hchain : v ∈ s.chain c.belonging := by
      rw [h.consistent.chains.mem_iff, hv]
      rfl
    have hne : c.belonging ≠ p := by
      intro heq
      rw [heq, hd.2.2.2] at hchain
      cases hchain
    exact mem_update_erase hin hne
  · intro c q hin
    exact h.indexed c q (update_sublist (List.erase_sublist ..) c |>.subset hin)
  · exact fun c => (update_sublist (List.erase_sublist ..) c).nodup (h.indexNodup c)
  · intro c q hin
    exact h.named c q (update_sublist (List.eraseP_sublist ..) c |>.subset hin)
  · exact fun c => (update_sublist (List.eraseP_sublist ..) c).nodup (h.nameNodup c)

theorem Inv.connect (h : Inv s) {conn1 conn2 : ConnInfo} {ok : Bool} {mem : Option Nat}
    (hs : s.connect conn1 conn2 ok mem = some t) : Inv t := by
  obtain rfl | ⟨p, v, b, path, b', -, hfree, hb, hpath, hb', hin, rfl⟩ := h.connect_spec hs
  · exact h
  refine ⟨⟨?_, ?_, ?_, ?_⟩, h.indexed, h.indexNodup, h.named, h.nameNodup, h.below, h.unique⟩
  · refine (h.consistent.chains.add (i := v) (k := p) (by rw [hfree]; rfl)).congr fun w => ?_
    by_cases hw : w = v
    · subst hw
      simp
    · simp [Function.update_of_ne hw]
  · refine (h.consistent.keys.add (i := v) (k := b) (by rw [hfree]; rfl)).congr fun w => ?_
    by_cases hw : w = v
    · subst hw
      simp [hb]
    · simp [Function.update_of_ne hw]
  · intro w c hc
    rcases (update_eq_some hfree).mp hc with ⟨-, rfl⟩ | hc
    · simp [hb]
    · exact h.consistent.hashed w c hc
  · intro w c hc
    rcases (update_eq_some hfree).mp hc with ⟨-, rfl⟩ | hc
    · exact ⟨path, b', hpath, hb', hin⟩
    · exact h.consistent.belongs w c hc

theorem Inv.disconnect (h : Inv s) {conn1 : ConnInfo} (hs : s.disconnect conn1 = some t) :
    Inv t := by
  obtain ⟨rfl, -⟩ | ⟨v, c, b, -, hc, hb, rfl⟩ := disconnect_spec hs
  · exact h
  have hrest : ∀ {w d}, Function.update s.vconn v none w = some d → s.vconn w = some d := by
    intro w d hd
    by_cases hw : w = v
    · rw [hw, Function.update_self] at hd
      cases hd
    · rwa [Function.update_of_ne hw] at hd
  refine ⟨⟨?_, ?_, ?_, ?_⟩, h.indexed, h.indexNodup, h.named, h.nameNodup, h.below, h.unique⟩
  · refine (h.consistent.chains.del (i := v) (k := c.belonging) (by rw [hc]; rfl)).congr fun w => ?_
    by_cases hw : w = v
    · subst hw
      simp
    · simp [Function.update_of_ne hw]
  · refine (h.consistent.keys.del (i := v) (k := b) (by rw [hc, Option.bind_some, hb])).congr fun w => ?_
    by_cases hw : w = v
    · subst hw
      simp
    · simp [Function.update_of_ne hw]
  · exact fun w d hd => h.consistent.hashed w d (hrest hd)
  · exact fun w d hd => h.consistent.belongs w d (hrest hd)

theorem inv_step {e : Event} (h : Inv s) (hs : step s e = some t) : Inv t := by
  cases e with
  | instconn conn1 param walk mem => exact h.instconn hs
  | deinstconn conn1 ok => exact h.deinstconn hs
  | connect conn1 conn2 ok mem => exact h.connect hs
  | disconnect conn1 ok =>
    change s.disconnect conn1 = some t at hs
    exact h.disconnect hs

theorem inv_reach (h : Reach step Init anyEvent s) : Inv s :=
  h.invariant (fun _ => inv_init) fun _ _ _ hinv _ hs => inv_step hinv hs

/-! ## What each operation leaves as it was -/

theorem SameTables.refl (s : Fs) : SameTables s s := ⟨rfl, rfl, rfl, rfl⟩

theorem not_dropped_of_subset {p : Nat} (hname : ∀ b, s.pathTable b ⊆ t.pathTable b)
    (hindex : ∀ b, s.indexTable b ⊆ t.indexTable b) : ¬ Dropped s t p := by
  rintro (⟨b, hin, hnot⟩ | ⟨b, hin, hnot⟩)
  · exact hnot (hname b hin)
  · exact hnot (hindex b hin)

theorem not_dropped_self {p : Nat} : ¬ Dropped s s p :=
  not_dropped_of_subset (fun _ => List.Subset.refl _) fun _ => List.Subset.refl _

theorem kept_self {e : Event} : Kept s e s :=
  ⟨fun _ => .refl s, fun _ hdrop => absurd hdrop not_dropped_self⟩

/-- The forwarded step of an operation that takes something out does not fail, and the path that is
found with the name of the one that goes has no connections. -/
def Sound (s : Fs) : Event → Prop
  | .deinstconn conn1 ok => ∀ p path, Deinst s conn1 p path →
      ok = true ∧ ∀ q, s.pathFind path.name = some (some q) → s.chain q = []
  | .disconnect conn1 ok => ∀ v, s.vconnFind conn1 = some (some v) → ok = true
  | .instconn .. | .connect .. => True

theorem kept_instconn {conn1 : ConnInfo} {param : Name} {walk : Option ConnInfo}
    {mem : Option Nat} (hs : s.instconn conn1 param walk mem = some t) :
    Kept s (.instconn conn1 param walk mem) t := by
  obtain rfl | ⟨aliasInfo, p, b, b', hwalk, -, -, rfl⟩ := instconn_spec hs
  · exact kept_self
  refine ⟨fun hfail => ?_, fun q hdrop => absurd hdrop (not_dropped_of_subset ?_ ?_)⟩
  · cases hwalk.symm.trans hfail
  · exact fun c q hin => mem_update_cons.mpr (Or.inr hin)
  · exact fun c q hin => mem_update_cons.mpr (Or.inr hin)

theorem Inv.kept_connect (h : Inv s) {conn1 conn2 : ConnInfo} {ok : Bool} {mem : Option Nat}
    (hs : s.connect conn1 conn2 ok mem = some t) : Kept s (.connect conn1 conn2 ok mem) t := by
  obtain rfl | ⟨p, v, b, path, b', hok, -, -, -, -, -, rfl⟩ := h.connect_spec hs
  · exact kept_self
  refine ⟨fun hfail => ?_, fun q hdrop => absurd hdrop (not_dropped_of_subset ?_ ?_)⟩
  · cases hok.symm.trans hfail
  · exact fun _ => List.Subset.refl _
  · exact fun _ => List.Subset.refl _

/-- The path that is found with the name goes out of the table of the names. -/
theorem Inv.dropped_of_pathFind (h : Inv s) {name : Name} {b q : Nat}
    (hb : bucket (pathHash name name.length) = some b)
    (ht : t.pathTable =
      Function.update s.pathTable b ((s.pathTable b).eraseP (s.hasName name)))
    (hfind : s.pathFind name = some (some q)) : Dropped s t q := by
  rw [Fs.pathFind, hb, Option.map_some, Option.some.injEq] at hfind
  refine Or.inl ⟨b, List.mem_of_find?_eq_some hfind, ?_⟩
  rw [ht, Function.update_self]
  exact not_mem_eraseP (h.nameNodup b) hfind

/-- Only these two paths go. -/
theorem dropped_deinst {name : Name} {p q b b' : Nat}
    (hb : bucket (pathHash name name.length) = some b)
    (hname : t.pathTable =
      Function.update s.pathTable b ((s.pathTable b).eraseP (s.hasName name)))
    (hindex : t.indexTable = Function.update s.indexTable b' ((s.indexTable b').erase p))
    (hdrop : Dropped s t q) : q = p ∨ s.pathFind name = some (some q) := by
  rcases hdrop with ⟨c, hin, hnot⟩ | ⟨c, hin, hnot⟩
  · right
    rw [hname] at hnot
    by_cases hc : c = b
    · subst hc
      rw [Function.update_self] at hnot
      rw [Fs.pathFind, hb, Option.map_some, find?_of_eraseP hin hnot]
    · rw [Function.update_of_ne hc] at hnot
      exact absurd hin hnot
  · left
    by_contra hne
    rw [hindex] at hnot
    exact hnot (mem_update_erase hin hne)

theorem Inv.kept_deinstconn (h : Inv s) {conn1 : ConnInfo} {ok : Bool}
    (hs : s.deinstconn conn1 = some t) :
    Kept s (.deinstconn conn1 ok) t ↔ Sound s (.deinstconn conn1 ok) := by
  obtain ⟨rfl, hnone⟩ | ⟨p, path, b, b', hd, hb, hin, rfl⟩ := h.deinstconn_spec hs
  · exact iff_of_true kept_self fun p path hd => absurd hd (hnone p path)
  constructor
  · intro hkept p' path' hd'
    obtain rfl : p' = p := Option.some.inj (Option.some.inj (hd'.2.1.symm.trans hd.2.1))
    obtain rfl : path' = path := Option.some.inj (hd'.2.2.1.symm.trans hd.2.2.1)
    refine ⟨?_, fun q hfind => hkept.dropped q (h.dropped_of_pathFind hb rfl hfind)⟩
    -- The path itself is gone from its bucket.
    by_contra hok
    have hsame := hkept.failed (by simpa [Event.Fails] using hok)
    exact update_erase_ne (h.indexNodup b') hin hsame.index
  · intro hsound
    obtain ⟨hok, hname⟩ := hsound p path hd
    refine ⟨fun hfail => ?_, fun q hdrop => ?_⟩
    · cases hok.symm.trans hfail
    · rcases dropped_deinst hb rfl rfl hdrop with rfl | hfind
      · exact hd.2.2.2
      · exact hname q hfind

theorem Inv.kept_disconnect (h : Inv s) {conn1 : ConnInfo} {ok : Bool}
    (hs : s.disconnect conn1 = some t) :
    Kept s (.disconnect conn1 ok) t ↔ Sound s (.disconnect conn1 ok) := by
  obtain ⟨rfl, hnone⟩ | ⟨v, c, b, hfind, hc, hb, rfl⟩ := disconnect_spec hs
  · refine iff_of_true kept_self fun v hfind => ?_
    cases hnone.symm.trans hfind
  have hin : v ∈ s.chain c.belonging := by
    rw [h.consistent.chains.mem_iff, hc]
    rfl
  constructor
  · intro hkept v' hfind'
    by_contra hok
    have hsame := hkept.failed (by simpa [Event.Fails] using hok)
    exact update_erase_ne (h.consistent.chains.nodup _) hin hsame.chain
  · intro hsound
    refine ⟨fun hfail => ?_, fun q hdrop => absurd hdrop (not_dropped_of_subset ?_ ?_)⟩
    · cases (hsound v hfind).symm.trans hfail
    · exact fun _ => List.Subset.refl _
    · exact fun _ => List.Subset.refl _

/-! ## Inside of the tables -/

theorem bucket_ne_none {hash : Int} : bucket hash ≠ none ↔ 0 ≤ hash := by
  unfold bucket
  split <;> simp_all

theorem map_bucket_isSome {α : Type} {hash : Int} {f : Nat → α} :
    ((bucket hash).map f).isSome ↔ 0 ≤ hash := by
  rw [Option.isSome_map, Option.isSome_iff_ne_none, bucket_ne_none]

/-- The indices and the hash values of all paths are not negative. -/
structure Counted (s : Fs) : Prop where
  maxIndex : 0 ≤ s.maxIndex
  index : ∀ p path, s.path p = some path → 0 ≤ path.index
  name : ∀ p path, s.path p = some path → 0 ≤ pathHash path.name path.name.length

theorem counted_init (h : Init s) : Counted s := by
  obtain ⟨hmax, -, -, -, hpath, -⟩ := h
  exact ⟨Int.le_of_eq hmax.symm, by simp [hpath], by simp [hpath]⟩

theorem Counted.instconn (h : Counted s) {conn1 : ConnInfo} {param : Name}
    {walk : Option ConnInfo} {mem : Option Nat} (hs : s.instconn conn1 param walk mem = some t) :
    Counted t := by
  unfold Fs.instconn at hs
  split_ifs at hs
  · exact Option.some.inj hs ▸ h
  · exact Option.some.inj hs ▸ h
  · split at hs
    · rename_i aliasInfo p
      split_ifs at hs with hfree
      rw [Option.bind_eq_some_iff] at hs
      obtain ⟨u, hu, hs⟩ := hs
      obtain ⟨b, hb, rfl⟩ := Option.map_eq_some_iff.mp hu
      obtain ⟨b', -, rfl⟩ := Option.map_eq_some_iff.mp hs
      have hname : 0 ≤ pathHash param param.length := bucket_ne_none.mp (by rw [hb]; simp)
      refine ⟨by have := h.maxIndex; dsimp only; omega, fun q path hq => ?_, fun q path hq => ?_⟩
      · rcases (update_eq_some hfree.1).mp hq with ⟨-, rfl⟩ | hq
        · exact h.maxIndex
        · exact h.index q path hq
      · rcases (update_eq_some hfree.1).mp hq with ⟨-, rfl⟩ | hq
        · exact hname
        · exact h.name q path hq
    · exact Option.some.inj hs ▸ h

/-- The other operations leave the paths as they are. -/
theorem Counted.congr (h : Counted s) (hmax : t.maxIndex = s.maxIndex) (hpath : t.path = s.path) :
    Counted t := by
  refine ⟨hmax ▸ h.maxIndex, ?_, ?_⟩
  · rw [hpath]
    exact h.index
  · rw [hpath]
    exact h.name

theorem counted_step (hinv : Inv s) (h : Counted s) {e : Event} (hs : step s e = some t) :
    Counted t := by
  cases e with
  | instconn conn1 param walk mem => exact h.instconn hs
  | deinstconn conn1 ok =>
    obtain ⟨rfl, -⟩ | ⟨p, path, b, b', -, -, -, rfl⟩ := hinv.deinstconn_spec hs
    · exact h
    · exact h.congr rfl rfl
  | connect conn1 conn2 ok mem =>
    obtain rfl | ⟨p, v, b, path, b', -, -, -, -, -, -, rfl⟩ := hinv.connect_spec hs
    · exact h
    · exact h.congr rfl rfl
  | disconnect conn1 ok =>
    change s.disconnect conn1 = some t at hs
    obtain ⟨rfl, -⟩ | ⟨v, c, b, -, -, -, rfl⟩ := disconnect_spec hs
    · exact h
    · exact h.congr rfl rfl

theorem counted_reach (h : Reach step Init anyEvent s) : Counted s :=
  (h.invariant (I := fun s => Inv s ∧ Counted s) (fun _ hi => ⟨inv_init hi, counted_init hi⟩)
    fun _ _ _ hinv _ hs => ⟨inv_step hinv.1 hs, counted_step hinv.1 hinv.2 hs⟩).2

/-- `malloc` returns what is not in use. -/
def Event.New (s : Fs) : Event → Prop
  | .instconn _ _ _ mem => ∀ p ∈ mem, s.path p = none
  | .connect _ _ _ mem => ∀ v ∈ mem, s.vconn v = none
  | .deinstconn .. | .disconnect .. => True

/-- The hash values that the operation looks at are not negative, and `max_index` can be counted
up. -/
def InTables (s : Fs) : Event → Prop
  | .instconn conn1 param walk mem => conn1.addr = s.fsLogaddr → conn1.name = out →
      param.head? = some 47 → walk.isSome → mem.isSome →
        0 ≤ pathHash param param.length ∧ s.maxIndex < 2 ^ 31 - 1
  | .deinstconn conn1 _ => conn1.addr = s.fsLogaddr → 0 ≤ indexHash conn1.index
  | .connect conn1 conn2 ok mem => conn2.addr = s.fsLogaddr → conn2.name = out →
      0 ≤ indexHash conn2.index ∧
        (ok = true → mem.isSome → s.indexFind conn2.index ≠ some none → 0 ≤ vconnHash conn1)
  | .disconnect conn1 _ => 0 ≤ vconnHash conn1

theorem Counted.instconn_isSome (h : Counted s) {conn1 : ConnInfo} {param : Name}
    {walk : Option ConnInfo} {mem : Option Nat} (hnew : ∀ p ∈ mem, s.path p = none) :
    (s.instconn conn1 param walk mem).isSome ↔ InTables s (.instconn conn1 param walk mem) := by
  unfold Fs.instconn InTables
  split_ifs with haddr hparam
  · exact iff_of_true rfl fun h => absurd h haddr
  · refine iff_of_true rfl fun _ hname hhead => absurd hparam ?_
    simp [hname, hhead]
  · push Not at haddr hparam
    cases walk with
    | none => exact iff_of_true rfl fun _ _ _ hwalk => by cases hwalk
    | some aliasInfo =>
      cases mem with
      | none => exact iff_of_true rfl fun _ _ _ _ hmem => by cases hmem
      | some p =>
        have hmax : 0 ≤ indexHash s.maxIndex := Int.tmod_nonneg _ h.maxIndex
        simp only [haddr, hparam, hnew p rfl, true_and, Option.isSome_some, true_imp_iff]
        by_cases hcount : s.maxIndex < 2 ^ 31 - 1
        · rw [if_pos hcount, and_iff_left hcount, Fs.pathAdd]
          cases hb : bucket (pathHash param param.length) with
          | none => exact iff_of_false (by simp) fun hname => bucket_ne_none.mpr hname hb
          | some b =>
            simp only [Option.map_some, Option.bind_some]
            exact iff_of_true (map_bucket_isSome.mpr hmax) (bucket_ne_none.mp (by simp [hb]))
        · rw [if_neg hcount]
          exact iff_of_false (by simp) fun h => hcount h.2

theorem Inv.deinstconn_isSome (hinv : Inv s) (h : Counted s) {conn1 : ConnInfo} {ok : Bool} :
    (s.deinstconn conn1).isSome ↔ InTables s (.deinstconn conn1 ok) := by
  unfold Fs.deinstconn InTables
  split_ifs with haddr
  · exact iff_of_true rfl fun h => absurd h haddr
  · push Not at haddr
    simp only [haddr, true_imp_iff]
    rw [← map_bucket_isSome (f := fun b => (s.indexTable b).find? (s.hasIndex conn1.index))]
    change _ ↔ (s.indexFind conn1.index).isSome
    rcases hfind : s.indexFind conn1.index with _ | _ | p
    · rfl
    · rfl
    · obtain ⟨path, b, hpath, hindex, hb, -, -⟩ := hinv.indexFind_spec hfind
      simp only [hpath]
      split_ifs
      · rfl
      · obtain ⟨c, hc⟩ := Option.ne_none_iff_exists'.mp (bucket_ne_none.mpr (h.name p path hpath))
        simp only [Fs.pathDel, Fs.indexDel, hindex, hb, hc, Option.map_some, Option.bind_some,
          Option.isSome_some]

theorem connect_isSome {conn1 conn2 : ConnInfo} {ok : Bool} {mem : Option Nat}
    (hnew : ∀ v ∈ mem, s.vconn v = none) :
    (s.connect conn1 conn2 ok mem).isSome ↔ InTables s (.connect conn1 conn2 ok mem) := by
  unfold Fs.connect InTables
  split_ifs with haddr hname
  · exact iff_of_true rfl fun h => absurd h haddr
  · exact iff_of_true rfl fun _ h => absurd h hname
  · push Not at haddr hname
    simp only [haddr, hname, true_imp_iff]
    rw [← map_bucket_isSome (f := fun b => (s.indexTable b).find? (s.hasIndex conn2.index))]
    change _ ↔ (s.indexFind conn2.index).isSome ∧ _
    rcases hfind : s.indexFind conn2.index with _ | _ | p
    · simp
    · simp
    · cases ok with
      | false => simp
      | true =>
        cases mem with
        | none => simp
        | some v =>
          simp only [hnew v rfl, if_true, Option.isSome_some, true_and, true_imp_iff, ne_eq,
            Option.some.injEq, reduceCtorEq, not_false_iff]
          exact map_bucket_isSome

theorem disconnect_isSome {conn1 : ConnInfo} {ok : Bool} :
    (s.disconnect conn1).isSome ↔ InTables s (.disconnect conn1 ok) := by
  unfold Fs.disconnect
  change _ ↔ 0 ≤ vconnHash conn1
  rw [← map_bucket_isSome (f := fun b => (s.vconnTable b).find? (s.hasConn conn1))]
  change _ ↔ (s.vconnFind conn1).isSome
  rcases hfind : s.vconnFind conn1 with _ | _ | v
  · rfl
  · rfl
  · obtain ⟨b, hb, hfind⟩ := Option.map_eq_some_iff.mp hfind
    have hconn := List.find?_some hfind
    cases hc : s.vconn v with
    | none => simp [Fs.hasConn, hc] at hconn
    | some c =>
      have heq : c.conn = conn1 := by simpa [Fs.hasConn, hc] using hconn
      simp only [hc, heq, Fs.vconnDel, hb, Option.map_some, Option.isSome_some]

theorem step_isSome (hinv : Inv s) (h : Counted s) {e : Event} (hnew : e.New s) :
    (step s e).isSome ↔ InTables s e := by
  cases e with
  | instconn conn1 param walk mem =>
    exact h.instconn_isSome hnew
  | deinstconn conn1 ok => exact hinv.deinstconn_isSome h
  | connect conn1 conn2 ok mem => exact connect_isSome hnew
  | disconnect conn1 ok =>
    change (s.disconnect conn1).isSome ↔ _
    exact disconnect_isSome

/-! ## The main result -/

/-- An operation stays inside of the tables, and keeps them as it should. -/
def Meets (s : Fs) (e : Event) : Prop := ∃ t, step s e = some t ∧ Kept s e t

theorem Inv.kept_iff (hinv : Inv s) {e : Event} (hs : step s e = some t) :
    Kept s e t ↔ Sound s e := by
  cases e with
  | instconn conn1 param walk mem => exact iff_of_true (kept_instconn hs) trivial
  | deinstconn conn1 ok => exact hinv.kept_deinstconn hs
  | connect conn1 conn2 ok mem => exact iff_of_true (hinv.kept_connect hs) trivial
  | disconnect conn1 ok =>
    change s.disconnect conn1 = some t at hs
    exact hinv.kept_disconnect hs

/-- **The connections are always where they belong, and an operation keeps the tables exactly when no
hash value is negative, its forwarded step succeeds and no other path of the same name is taken
out.** -/
theorem fs_tables (h : Reach step Init anyEvent s) :
    Consistent s ∧ ∀ e : Event, e.New s → (Meets s e ↔ InTables s e ∧ Sound s e) := by
  have hinv := inv_reach h
  refine ⟨hinv.consistent, fun e hnew => ?_⟩
  rw [← step_isSome hinv (counted_reach h) hnew]
  constructor
  · rintro ⟨t, hs, hkept⟩
    exact ⟨by rw [hs]; rfl, (hinv.kept_iff hs).mp hkept⟩
  · rintro ⟨hsome, hsound⟩
    obtain ⟨t, hs⟩ := Option.isSome_iff_exists.mp hsome
    exact ⟨t, hs, (hinv.kept_iff hs).mpr hsound⟩

/-- A path with an output and an input. -/
def oneFile : List Event :=
  [.instconn ⟨4096, 0, out⟩ [47, 97] (some ⟨1, 0, out⟩) (some 0),
    .connect ⟨2, 0, [105, 110]⟩ ⟨4096, 0, out⟩ true (some 0)]

def noFiles : Fs :=
  ⟨4096, 0, fun _ => [], fun _ => [], fun _ => [], fun _ => none, fun _ => none, fun _ => []⟩

theorem init_noFiles : Init noFiles :=
  ⟨rfl, fun _ => rfl, fun _ => rfl, fun _ => rfl, fun _ => rfl, fun _ => rfl, fun _ => rfl⟩

/-- The input is disconnected again. An input with the index -1 and no name would go in front of the
table. -/
theorem fs_tables_one : ∃ s, run step anyEvent noFiles oneFile = some s ∧ s.chain 0 = [0] ∧
    Consistent s ∧ Meets s (.disconnect ⟨2, 0, [105, 110]⟩ true) ∧
    ¬ Meets s (.connect ⟨0, -1, []⟩ ⟨4096, 0, out⟩ true (some 1)) := by
  have hrun : (run step anyEvent noFiles oneFile).map (fun s => (s.chain 0, s.vconn 1,
      s.fsLogaddr, s.indexFind 0)) = some ([0], none, 4096, some (some 0)) := by
    decide +kernel
  obtain ⟨s, hs, heq⟩ := Option.map_eq_some_iff.mp hrun
  simp only [Prod.mk.injEq] at heq
  obtain ⟨hchain, hfree, haddr, hfind⟩ := heq
  obtain ⟨hcons, hmeets⟩ := fs_tables ((Reach.start init_noFiles).of_run hs)
  refine ⟨s, hs, hchain, hcons, ?_, fun hm => ?_⟩
  · refine (hmeets (.disconnect ⟨2, 0, [105, 110]⟩ true) trivial).mpr ⟨?_, fun _ _ => rfl⟩
    show 0 ≤ vconnHash ⟨2, 0, [105, 110]⟩
    decide
  · have hnew : (Event.connect ⟨0, -1, []⟩ ⟨4096, 0, out⟩ true (some 1)).New s := by
      rintro v ⟨⟩
      exact hfree
    have hin := ((hmeets _ hnew).mp hm).1 haddr.symm rfl
    exact absurd (hin.2 rfl rfl (by rw [hfind]; simp)) (by decide)

/-- The input is not disconnected, but its virtual connection is gone. -/
theorem fs_tables_broken : ∃ s t : Fs, Reach step Init anyEvent s ∧
    step s (.disconnect ⟨2, 0, [105, 110]⟩ false) = some t ∧
    ¬ Kept s (.disconnect ⟨2, 0, [105, 110]⟩ false) t := by
  have hrun : (run step anyEvent noFiles oneFile).map
      (fun s => (s.chain 0, (step s (.disconnect ⟨2, 0, [105, 110]⟩ false)).map
        fun t => t.chain 0)) = some ([0], some []) := by
    decide +kernel
  obtain ⟨s, hs, heq⟩ := Option.map_eq_some_iff.mp hrun
  simp only [Prod.mk.injEq, Option.map_eq_some_iff] at heq
  obtain ⟨hbefore, t, ht, hafter⟩ := heq
  refine ⟨s, t, (Reach.start init_noFiles).of_run hs, ht, fun hkept => ?_⟩
  have hchain := congrFun (hkept.failed rfl).chain 0
  rw [hbefore, hafter] at hchain
  cases hchain

end Athomux.FsSimple
