import Mathlib.Data.List.Count
import Athomux.NetConnect.Groups

/-!
# Merged graphs

What a merge is to leave, and when it does.
-/

namespace Athomux.NetConnect

variable {k : Kind}

/-- The lists in front of a merge. The main directory is at address 0. -/
structure Graph (k : Kind) where
  lb : List GBrick
  lc : List GConn
  lv : List GVpart
  distinct : (lb.map GBrick.addr).Nodup
  main : ∀ b ∈ lb, isPart k b = true → b.addr ≠ 0

namespace Graph

variable (g : Graph k)

def parts : List Nat := (g.lb.filter (isPart k)).map GBrick.addr

/-- The first part of the group, where `x` is a part. -/
def leader (x : Nat) : Nat :=
  ((g.lb.find? fun b => isPart k b ∧ b.addr = x).bind fun b =>
    (rid b).bind fun s => (members k s g.lb).head?).getD x

def image (w : Wire) : Wire := (g.leader w.1, g.leader w.2.1, w.2.2)

def hook (w : Wire) : Prop := w.1 = 0 ∧ w.2.1 ∈ g.parts

def named (k : Kind) (s : Text) (b : GBrick) : Bool := b.name = k.whole ∧ b.bparam = ridParam s

/-- What is to hold afterwards. -/
structure Merged (m : Merge) : Prop where
  one : ∀ b ∈ g.lb, isPart k b = true → ∀ s, rid b = some s →
    m.lb.filter (named k s) = [whole k s (g.leader b.addr)]
  rewired : ∀ c ∈ g.lc, ¬ g.hook c.wire → g.image c.wire ∈ wires m.lc
  unhooked : ∀ w ∈ wires m.lc, ¬ g.hook w
  single : ∀ c ∈ g.lc, ¬ g.hook c.wire → g.image c.wire ≠ c.wire →
    (wires m.lc).count (g.image c.wire) = 1
  kept : m.lc.filter (·.clear g.parts) = g.lc.filter (·.clear g.parts)

/-- The merge ends, and no traversal has gone on from an element that is gone. -/
def Meets : Prop := ∃ m, merge k g.lb g.lc g.lv = .ok m ∧ g.Merged m

/-- The graphs that are merged as they should. -/
structure Sound : Prop where
  fit : Fit k g.lb
  fresh : ∀ b ∈ g.lb, ∀ p ∈ g.lb, ∀ s, hasRid k s p = true → named k s b = false
  safe : safeAll (moves k g.lb) g.lc = true
  apart : (∃ b r, .wire b r ∈ moves k g.lb) → (wires (g.lc.filter (·.clear g.parts))).Nodup

/-! ## Groups -/

variable {g} {s : Text} {b p q : GBrick} {a r x : Nat} {lb : List GBrick}

theorem mem_members : a ∈ members k s lb ↔ ∃ b ∈ lb, hasRid k s b = true ∧ b.addr = a := by
  simp only [members, List.mem_map, List.mem_filter, and_assoc]

theorem mem_parts : a ∈ g.parts ↔ ∃ b ∈ g.lb, isPart k b = true ∧ b.addr = a := by
  simp only [parts, List.mem_map, List.mem_filter, and_assoc]

theorem parts_of_members (h : a ∈ members k s g.lb) : a ∈ g.parts := by
  obtain ⟨b, hb, hrid, ha⟩ := mem_members.mp h
  exact mem_parts.mpr ⟨b, hb, (hasRid_iff.mp hrid).1, ha⟩

theorem same_brick (hp : p ∈ g.lb) (hq : q ∈ g.lb) (h : p.addr = q.addr) : p = q :=
  List.inj_on_of_nodup_map g.distinct hp hq h

theorem members_nodup : (members k s g.lb).Nodup := g.distinct.sublist (List.filter_sublist.map _)

/-- A brick is in one group only. -/
theorem same_group {s' : Text} (h : a ∈ members k s g.lb) (h' : a ∈ members k s' g.lb) : s = s' := by
  obtain ⟨b, hb, hrid, ha⟩ := mem_members.mp h
  obtain ⟨b', hb', hrid', ha'⟩ := mem_members.mp h'
  rw [same_brick hb hb' (ha.trans ha'.symm)] at hrid
  exact Option.some.inj ((hasRid_iff.mp hrid).2.symm.trans (hasRid_iff.mp hrid').2)

theorem mem_moves_wire {b : Nat} : .wire b r ∈ moves k lb ↔
    ∃ s bs, members k s lb = r :: bs ∧ b ∈ bs := by
  simp only [moves, List.mem_flatMap]
  constructor
  · rintro ⟨s, -, hw⟩
    cases hm : members k s lb with
    | nil => rw [hm] at hw; cases hw
    | cons a bs =>
      rw [hm, movesOf, List.mem_cons, List.mem_map] at hw
      rcases hw with hw | ⟨b', hb', hw⟩
      · cases hw
      · cases hw
        exact ⟨s, bs, hm, hb'⟩
  · rintro ⟨s, bs, hm, hb⟩
    have hr : r ∈ members k s lb := hm ▸ List.mem_cons_self
    obtain ⟨p, hp, hrid, -⟩ := mem_members.mp hr
    refine ⟨s, mem_rids.mpr ⟨p, hp, hrid⟩, ?_⟩
    rw [hm, movesOf]
    exact List.mem_cons_of_mem _ (List.mem_map.mpr ⟨b, hb, rfl⟩)

theorem mem_moves_addr : a ∈ (moves k lb).map Move.addr ↔ ∃ s, a ∈ members k s lb := by
  have hof : ∀ l, (movesOf l).map Move.addr = l := by
    intro l
    cases l with
    | nil => rfl
    | cons a bs => simp [movesOf, Move.addr, Function.comp_def]
  simp only [moves, List.map_flatMap, List.mem_flatMap, hof]
  constructor
  · rintro ⟨s, -, ha⟩
    exact ⟨s, ha⟩
  · rintro ⟨s, ha⟩
    obtain ⟨p, hp, hrid, -⟩ := mem_members.mp ha
    exact ⟨s, mem_rids.mpr ⟨p, hp, hrid⟩, ha⟩

theorem parts_ne_zero (h : a ∈ g.parts) : a ≠ 0 := by
  obtain ⟨b, hb, hp, rfl⟩ := mem_parts.mp h
  exact g.main b hb hp

theorem orderly : Orderly (moves k g.lb) where
  main := by
    intro b r hw
    obtain ⟨s, bs, hm, hb⟩ := mem_moves_wire.mp hw
    exact ⟨parts_ne_zero (parts_of_members (hm ▸ List.mem_cons_of_mem _ hb)),
      parts_ne_zero (parts_of_members (hm ▸ List.mem_cons_self))⟩
  once := by
    rintro b r hw b' r' hw' rfl
    obtain ⟨s, bs, hm, -⟩ := mem_moves_wire.mp hw
    obtain ⟨s', bs', hm', hb'⟩ := mem_moves_wire.mp hw'
    have hr : r ∈ members k s g.lb := hm ▸ List.mem_cons_self
    have hs : s = s' := same_group hr (hm' ▸ List.mem_cons_of_mem _ hb')
    subst hs
    rw [hm] at hm'
    cases hm'
    exact (List.nodup_cons.mp (hm ▸ members_nodup)).1 hb'

theorem leader_of_part (hp : p ∈ g.lb) (hpart : hasRid k s p = true) :
    (members k s g.lb).head? = some (g.leader p.addr) := by
  obtain ⟨hpart', hrid⟩ := hasRid_iff.mp hpart
  have hfind : (g.lb.find? fun b => isPart k b ∧ b.addr = p.addr) = some p := by
    cases hf : g.lb.find? fun b => isPart k b ∧ b.addr = p.addr with
    | none =>
      have := List.find?_eq_none.mp hf p hp
      simp [hpart'] at this
    | some q =>
      have hq := List.find?_some hf
      rw [same_brick (List.mem_of_find?_eq_some hf) hp (of_decide_eq_true hq).2]
  have hin : p.addr ∈ members k s g.lb := mem_members.mpr ⟨p, hp, hpart, rfl⟩
  cases hm : members k s g.lb with
  | nil => rw [hm] at hin; cases hin
  | cons a bs =>
    rw [leader, hfind, Option.bind_some, hrid, Option.bind_some, hm]
    rfl

theorem leader_of_other (h : x ∉ g.parts) : g.leader x = x := by
  have hfind : (g.lb.find? fun b => isPart k b ∧ b.addr = x) = none := by
    refine List.find?_eq_none.mpr fun b hb hx => h ?_
    exact mem_parts.mpr ⟨b, hb, of_decide_eq_true hx⟩
  rw [leader, hfind]
  rfl

theorem movedTo_of_mem {ms : List Move} (hw : .wire x r ∈ ms)
    (huniq : ∀ r', .wire x r' ∈ ms → r' = r) : movedTo ms x = r := by
  induction ms with
  | nil => cases hw
  | cons m ms ih =>
    have htail : .wire x r ∈ ms → movedTo ms x = r :=
      fun hw => ih hw fun r' hr' => huniq r' (List.mem_cons_of_mem _ hr')
    cases m with
    | unhook a =>
      rw [List.mem_cons] at hw
      exact htail (hw.resolve_left (by simp))
    | wire b r' =>
      rw [movedTo]
      by_cases hx : x = b
      · subst hx
        rw [if_pos rfl]
        exact huniq r' List.mem_cons_self
      · rw [if_neg hx]
        rw [List.mem_cons] at hw
        refine htail (hw.resolve_left fun h => hx ?_)
        cases h
        rfl

theorem movedTo_moves (hfit : Fit k g.lb) (x : Nat) : movedTo (moves k g.lb) x = g.leader x := by
  by_cases hx : x ∈ g.parts
  · obtain ⟨p, hp, hpart, rfl⟩ := mem_parts.mp hx
    obtain ⟨s, hrid, -⟩ := hfit p hp hpart
    have hin : hasRid k s p = true := hasRid_iff.mpr ⟨hpart, hrid⟩
    have hmem : p.addr ∈ members k s g.lb := mem_members.mpr ⟨p, hp, hin, rfl⟩
    have hhead := leader_of_part hp hin
    cases hm : members k s g.lb with
    | nil => rw [hm] at hmem; cases hmem
    | cons a bs =>
      rw [hm, List.head?_cons, Option.some.injEq] at hhead
      -- a move of this brick is a move to the head of its own group
      have huniq : ∀ r', .wire p.addr r' ∈ moves k g.lb → r' = a ∧ p.addr ∈ bs := by
        intro r' hw
        obtain ⟨s', bs', hm', hb'⟩ := mem_moves_wire.mp hw
        have hs : s = s' := same_group hmem (hm' ▸ List.mem_cons_of_mem _ hb')
        subst hs
        rw [hm] at hm'
        cases hm'
        exact ⟨rfl, hb'⟩
      rw [← hhead]
      rw [hm, List.mem_cons] at hmem
      rcases hmem with hmem | hmem
      · rw [← hmem]
        refine movedTo_of_notMem fun r hw => ?_
        have hnd := (List.nodup_cons.mp (hm ▸ members_nodup)).1
        exact hnd (hmem ▸ (huniq r hw).2)
      · exact movedTo_of_mem (mem_moves_wire.mpr ⟨s, bs, hm, hmem⟩) fun r' hw => (huniq r' hw).1
  · rw [leader_of_other hx]
    refine movedTo_of_notMem fun r hw => hx ?_
    obtain ⟨s, bs, hm, hb⟩ := mem_moves_wire.mp hw
    exact parts_of_members (hm ▸ List.mem_cons_of_mem _ hb)

theorem hooked_iff (hfit : Fit k g.lb) (w : Wire) : w.hooked (moves k g.lb) ↔ g.hook w := by
  refine and_congr_right fun _ => ?_
  rw [mem_moves_addr]
  constructor
  · rintro ⟨s, ha⟩
    exact parts_of_members ha
  · intro ha
    obtain ⟨p, hp, hpart, haddr⟩ := mem_parts.mp ha
    obtain ⟨s, hrid, -⟩ := hfit p hp hpart
    exact ⟨s, mem_members.mpr ⟨p, hp, hasRid_iff.mpr ⟨hpart, hrid⟩, haddr⟩⟩

theorem mem_wires_merged (hfit : Fit k g.lb) {w : Wire} :
    w ∈ wires (merged k g.lb g.lc g.lv).lc ↔ ∃ v ∈ wires g.lc, ¬ g.hook v ∧ g.image v = w := by
  simp only [merged, mem_wires_applyAll orderly, hooked_iff hfit, Wire.image, image,
    movedTo_moves hfit]

/-! ## The whole bricks -/

theorem turn_part (hin : hasRid k s b = true) : turn k lb b =
    if (members k s lb).head? = some b.addr then some (whole k s b.addr) else none := by
  rw [turn, if_pos (hasRid_iff.mp hin).1, (hasRid_iff.mp hin).2, Option.bind_some]

theorem turn_addr {w : GBrick} (h : turn k lb b = some w) : w.addr = b.addr := by
  unfold turn at h
  split at h
  · obtain ⟨s, -, hs⟩ := Option.bind_eq_some_iff.mp h
    split at hs
    · rw [← Option.some.inj hs]
      rfl
    · cases hs
  · rw [Option.some.inj h]

theorem filterMap_addr {f : GBrick → Option GBrick} (hf : ∀ b w, f b = some w → w.addr = b.addr)
    (l : List GBrick) : ((l.filterMap f).map GBrick.addr).Sublist (l.map GBrick.addr) := by
  induction l with
  | nil => exact List.Sublist.refl _
  | cons b l ih =>
    cases h : f b with
    | none =>
      rw [List.filterMap_cons_none h]
      exact ih.cons _
    | some w =>
      rw [List.filterMap_cons_some h, List.map_cons, List.map_cons, hf b w h]
      exact ih.cons_cons _

theorem named_whole : named k s (whole k s a) = true := by
  simp [named, whole]

theorem named_inj {s' : Text} (h : named k s (whole k s' a) = true) : s' = s := by
  have hparam : ridParam s' = ridParam s := (of_decide_eq_true h).2
  exact List.append_cancel_left hparam

/-- A brick under the name of the whole ones is no part. -/
theorem isPart_of_named (h : named k s b = true) : isPart k b = false := by
  have hname : b.name = k.whole := (of_decide_eq_true h).1
  rw [isPart, hname]
  cases k <;> rfl

theorem leader_mem (hp : p ∈ g.lb) (hin : hasRid k s p = true) :
    ∃ q ∈ g.lb, hasRid k s q = true ∧ q.addr = g.leader p.addr :=
  mem_members.mp (List.mem_of_mem_head? (leader_of_part hp hin))

theorem filter_named (hp : p ∈ g.lb) (hin : hasRid k s p = true)
    (hfresh : ∀ b ∈ g.lb, named k s b = false) :
    (g.lb.filterMap (turn k g.lb)).filter (named k s) = [whole k s (g.leader p.addr)] := by
  have hhead := leader_of_part hp hin
  have hall : ∀ w ∈ (g.lb.filterMap (turn k g.lb)).filter (named k s),
      w = whole k s (g.leader p.addr) := by
    intro w hw
    obtain ⟨hw, hname⟩ := List.mem_filter.mp hw
    obtain ⟨b, hb, hturn⟩ := List.mem_filterMap.mp hw
    unfold turn at hturn
    split at hturn
    · obtain ⟨s', hrid, hs'⟩ := Option.bind_eq_some_iff.mp hturn
      split at hs'
      · rename_i hb'
        cases hs'
        cases named_inj hname
        rw [hhead] at hb'
        rw [Option.some.inj hb']
      · cases hs'
    · cases hturn
      rw [hfresh w hb] at hname
      cases hname
  have hmem : whole k s (g.leader p.addr) ∈ (g.lb.filterMap (turn k g.lb)).filter (named k s) := by
    obtain ⟨q, hq, hrid, haddr⟩ := leader_mem hp hin
    refine List.mem_filter.mpr ⟨List.mem_filterMap.mpr ⟨q, hq, ?_⟩, named_whole⟩
    rw [turn_part hrid, haddr, if_pos hhead]
  have hnd : ((g.lb.filterMap (turn k g.lb)).filter (named k s)).Nodup :=
    (List.Nodup.of_map _ (g.distinct.sublist (filterMap_addr (fun _ _ => turn_addr) _))).filter _
  rw [List.eq_replicate_of_mem hall] at hnd hmem ⊢
  have hle := List.nodup_replicate.mp hnd
  have hpos := List.length_pos_of_mem hmem
  rw [List.length_replicate] at hpos
  rw [Nat.le_antisymm hle hpos]
  rfl

/-! ## The merge -/

theorem Sound.merged (h : g.Sound) : g.Merged (merged k g.lb g.lc g.lv) where
  one := by
    intro b hb hpart s hrid
    have hin : hasRid k s b = true := hasRid_iff.mpr ⟨hpart, hrid⟩
    exact filter_named hb hin fun b' hb' => h.fresh b' hb' b hb s hin
  rewired := fun c hc hhook =>
    (mem_wires_merged h.fit).mpr ⟨c.wire, List.mem_map.mpr ⟨c, hc, rfl⟩, hhook, rfl⟩
  unhooked := by
    intro w hw hhook
    obtain ⟨v, hv, hv', rfl⟩ := (mem_wires_merged h.fit).mp hw
    refine hv' ⟨?_, ?_⟩
    · by_contra hsrc
      have hzero : g.leader v.1 = 0 := hhook.1
      by_cases hp : v.1 ∈ g.parts
      · obtain ⟨p, hp, hpart, haddr⟩ := mem_parts.mp hp
        obtain ⟨s, hrid, -⟩ := h.fit p hp hpart
        obtain ⟨q, hq, hq', hqa⟩ := leader_mem hp (hasRid_iff.mpr ⟨hpart, hrid⟩)
        exact g.main q hq (hasRid_iff.mp hq').1 (hqa.trans (haddr ▸ hzero))
      · exact hsrc (leader_of_other hp ▸ hzero)
    · by_contra hdst
      have hpart : g.leader v.2.1 ∈ g.parts := hhook.2
      rw [leader_of_other hdst] at hpart
      exact hdst hpart
  single := by
    intro c hc hhook hne
    have hmem : g.image c.wire ∈ wires (NetConnect.merged k g.lb g.lc g.lv).lc :=
      (mem_wires_merged h.fit).mpr ⟨c.wire, List.mem_map.mpr ⟨c, hc, rfl⟩, hhook, rfl⟩
    -- some brick is moved
    have hmove : ∃ b r, .wire b r ∈ moves k g.lb := by
      by_contra hno
      have hstay : ∀ x, g.leader x = x := by
        intro x
        rw [← movedTo_moves h.fit]
        exact movedTo_of_notMem fun r hr => hno ⟨x, r, hr⟩
      exact hne (by simp only [image, hstay])
    obtain ⟨b, r, hw⟩ := hmove
    exact List.count_eq_one_of_mem (nodup_of_wire hw) hmem
  kept := by
    refine filter_clear_applyAll (fun m hm => ?_) (fun b r hw => ?_) h.apart
    · obtain ⟨s, ha⟩ := mem_moves_addr.mp (List.mem_map.mpr ⟨m, hm, rfl⟩)
      exact parts_of_members ha
    · obtain ⟨s, bs, hm, -⟩ := mem_moves_wire.mp hw
      exact parts_of_members (hm ▸ List.mem_cons_self)

theorem Merged.fresh (h : g.Merged (merged k g.lb g.lc g.lv)) (hb : b ∈ g.lb) (hp : p ∈ g.lb)
    (hin : hasRid k s p = true) : named k s b = false := by
  by_contra hname
  rw [Bool.not_eq_false] at hname
  have hturn : turn k g.lb b = some b := if_neg (Bool.eq_false_iff.mp (isPart_of_named hname))
  have hmem : b ∈ (g.lb.filterMap (turn k g.lb)).filter (named k s) :=
    List.mem_filter.mpr ⟨List.mem_filterMap.mpr ⟨b, hb, hturn⟩, hname⟩
  have hone := h.one p hp (hasRid_iff.mp hin).1 s (hasRid_iff.mp hin).2
  rw [NetConnect.merged] at hone
  rw [hone, List.mem_singleton] at hmem
  obtain ⟨q, hq, hq', haddr⟩ := leader_mem hp hin
  have hqb : q = b := same_brick hq hb (haddr.trans (hmem ▸ rfl))
  have hpart := isPart_of_named hname
  rw [← hqb, (hasRid_iff.mp hq').1] at hpart
  cases hpart

/-- **A graph is merged as it should** exactly when it is sound. -/
theorem merges_iff : g.Meets ↔ g.Sound := by
  constructor
  · rintro ⟨m, hm, h⟩
    obtain ⟨hfit, hsafe, rfl⟩ := (merge_ok g.distinct).mp hm
    refine ⟨hfit, fun b hb p hp s hin => h.fresh hb hp hin, hsafe, ?_⟩
    rintro ⟨b, r, hw⟩
    have hnd : (wires (merged k g.lb g.lc g.lv).lc).Nodup := nodup_of_wire hw
    rw [← h.kept]
    exact hnd.sublist (List.filter_sublist.map _)
  · intro h
    exact ⟨_, (merge_ok g.distinct).mpr ⟨h.fit, h.safe, rfl⟩, h.merged⟩

/-- Both parts of a group are wired to the same output, and the lists have them in turn. -/
def twin (k : Kind) : Graph k where
  lb := [⟨1, k.part ++ "client".toList, ridParam "7".toList⟩,
    ⟨2, k.part ++ "server".toList, ridParam "7".toList⟩, ⟨3, "control".toList, []⟩]
  lc := [⟨[], "out".toList, 3, "in".toList, 2⟩, ⟨[], "out".toList, 3, "in".toList, 1⟩]
  lv := []
  distinct := by simp
  main := by simp

/-- The connection behind the one that has been moved is the duplicate. -/
theorem twin_freed : (¬ (twin .remote).Meets ∧ ¬ (twin .mirror).Meets) ∧
    merge .remote (twin .remote).lb (twin .remote).lc [] = .error .freed ∧
    merge .mirror (twin .mirror).lb (twin .mirror).lc [] = .error .freed := by
  have hr : merge .remote (twin .remote).lb (twin .remote).lc [] = .error .freed := by rfl
  have hm : merge .mirror (twin .mirror).lb (twin .mirror).lc [] = .error .freed := by rfl
  refine ⟨⟨?_, ?_⟩, hr, hm⟩
  · rintro ⟨m, h, -⟩
    cases hr.symm.trans h
  · rintro ⟨m, h, -⟩
    cases hm.symm.trans h

end Graph

end Athomux.NetConnect
