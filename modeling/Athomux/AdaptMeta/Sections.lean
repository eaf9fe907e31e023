import Athomux.AdaptMeta.Spec

/-!
# The sections stay apart
-/

open Lib

namespace Athomux.AdaptMeta

variable {s t : Sys} {out o : Out} {b : UInt8}

/-- What every operation keeps. -/
structure Kept (s : Sys) : Prop where
  separate : Separate s
  control : defaultTransfer ≤ s.normalStart
  le : s.normalStart ≤ s.normalEnd
  inside : s.normalEnd < addrSpace

theorem start_kept : Kept start where
  separate := ⟨fun _ _ h => (by cases h), fun _ _ h => (by cases h)⟩
  control := by decide
  le := le_rfl
  inside := by decide

/-- Behind the sections there is nothing. -/
theorem Kept.beyond (h : Kept s) {a : Nat} (ha : s.normalEnd ≤ a) : s.store a = none := by
  rcases hs : s.store a with _ | ⟨_ | _, b⟩
  · rfl
  · have := (h.separate.normal_in a b hs).2
    omega
  · have := (h.separate.meta_in a b hs).2
    have := h.le
    omega

/-! ## Ranges -/

section Ranges

variable {m : PartialStore (Out × UInt8)} {addr len a : Nat}

theorem apply_outside (op : Op) (ha : ¬(addr ≤ a ∧ a < addr + len)) :
    op.apply out m addr len a = m a := by
  cases op with
  | keep => rfl
  | gadr => rfl
  | write buf => exact if_neg ha
  | create fill => exact if_neg ha
  | gadrCreate _ _ fill => exact if_neg ha
  | delete => exact if_neg ha

/-- Data that are there afterwards were there before, or are new in the range. -/
theorem apply_some {op : Op} (h : op.apply out m addr len a = some (o, b)) :
    (∃ c, m a = some (o, c)) ∨ o = out ∧ addr ≤ a ∧ a < addr + len := by
  by_cases ha : addr ≤ a ∧ a < addr + len
  · cases op with
    | keep => exact Or.inl ⟨b, h⟩
    | gadr => exact Or.inl ⟨b, h⟩
    | write buf =>
      simp only [Op.apply, if_pos ha] at h
      obtain ⟨⟨o', c⟩, hc, heq⟩ := Option.map_eq_some_iff.mp h
      obtain ⟨rfl, -⟩ := Prod.mk.inj heq
      exact Or.inl ⟨c, hc⟩
    | create fill =>
      rw [Op.apply, fillRange, if_pos ha] at h
      exact Or.inr ⟨(Prod.mk.inj (Option.some.inj h)).1.symm, ha⟩
    | gadrCreate _ _ fill =>
      rw [Op.apply, fillRange, if_pos ha] at h
      exact Or.inr ⟨(Prod.mk.inj (Option.some.inj h)).1.symm, ha⟩
    | delete =>
      rw [Op.apply, PartialStore.clear, if_pos ha] at h
      cases h
  · rw [apply_outside op ha] at h
    exact Or.inl ⟨b, h⟩

theorem fillRange_eq (fill : Nat → UInt8) :
    fillRange m out addr len fill = Op.apply out m addr len (.create fill) := rfl

/-- Data that are there after a move come from the range, or were there outside of it. -/
theorem moveRange_some {offs : Int} {x : Out × UInt8} (h : moveRange m addr len offs a = some x) :
    (∃ c, addr ≤ c ∧ c < addr + len ∧ (a : Int) = c + offs ∧ m c = some x) ∨
      ¬(addr ≤ a ∧ a < addr + len) ∧ m a = some x := by
  rw [moveRange] at h
  split_ifs at h with hdst hsrc
  · exact Or.inl ⟨(a - offs).toNat, by omega, by omega, by omega, h⟩
  · exact Or.inr ⟨hsrc, h⟩

theorem moveRange_along {offs : Int} {c : Nat} (hlow : addr ≤ c) (hhigh : c < addr + len)
    (ha : (a : Int) = c + offs) : moveRange m addr len offs a = m c := by
  rw [moveRange, if_pos (by omega)]
  congr 1
  omega

theorem moveRange_outside {offs : Int} (hdst : ¬(addr + offs ≤ a ∧ (a : Int) < addr + len + offs))
    (hsrc : ¬(addr ≤ a ∧ a < addr + len)) : moveRange m addr len offs a = m a := by
  rw [moveRange, if_neg hdst, if_neg hsrc]

end Ranges

/-! ## The normal section -/

/-- Data in front of `border` belong to the section behind it. -/
theorem reach_kept {m : PartialStore (Out × UInt8)} (h : Kept s) {border : Nat}
    (hborder : border < addrSpace)
    (hmeta : ∀ a b, m a = some (.metaOut, b) → defaultTransfer ≤ a ∧ a < s.normalStart)
    (hnormal : ∀ a b, m a = some (.normalOut, b) →
      s.normalStart ≤ a ∧ (a < s.normalEnd ∨ a < border)) :
    Kept (Sys.reach { s with store := m } border) := by
  unfold Sys.reach
  split_ifs with hend
  · refine ⟨⟨hmeta, fun a b hb => ?_⟩, h.control, h.le.trans hend, hborder⟩
    obtain ⟨hlow, hhigh⟩ := hnormal a b hb
    exact ⟨hlow, hhigh.elim (fun hlt => Nat.lt_of_lt_of_le hlt hend) id⟩
  · refine ⟨⟨hmeta, fun a b hb => ?_⟩, h.control, h.le, h.inside⟩
    obtain ⟨hlow, hhigh⟩ := hnormal a b hb
    exact ⟨hlow, hhigh.elim id fun hlt => Nat.lt_trans hlt (Nat.lt_of_not_le hend)⟩

theorem normal_kept (h : Kept s) {x : Request}
    (hfair : x.ok = true → x.Fits s.normalStart (addrSpace - 1)) : Kept (s.normal x).2 := by
  unfold Sys.normal
  split_ifs with hok
  · obtain ⟨haddr, hstop⟩ := hfair hok
    have hspace : 0 < addrSpace := Nat.zero_lt_of_lt h.inside
    have hstart : add64 x.logAddr s.normalStart = x.logAddr + s.normalStart :=
      add64_eq (by omega)
    simp only [hstart, haddr]
    have hborder : add64 (x.logAddr + s.normalStart) (x.op.len x.logLen) =
        x.logAddr + s.normalStart + x.op.len x.logLen := add64_eq (by omega)
    rw [hborder]
    refine reach_kept h (by omega) (fun a b hb => ?_) fun a b hb => ?_
    · rcases apply_some hb with ⟨c, hc⟩ | ⟨hout, -⟩
      · exact h.separate.meta_in a c hc
      · cases hout
    · rcases apply_some hb with ⟨c, hc⟩ | ⟨-, hlow, hhigh⟩
      · exact (h.separate.normal_in a c hc).imp_right Or.inl
      · exact ⟨by omega, Or.inr hhigh⟩
  · exact h

theorem normalMove_kept (h : Kept s) {logAddr logLen : Nat} {offs : Option Int}
    (hfair : Fair s (.normalMove logAddr logLen offs)) : Kept (s.normalMove logAddr logLen offs) := by
  cases offs with
  | none => exact h
  | some d =>
    obtain ⟨hrange, hlow, hhigh⟩ := hfair d rfl
    have hstart : add64 logAddr s.normalStart = logAddr + s.normalStart := add64_eq (by omega)
    have hborder : add64 (logAddr + s.normalStart) logLen = logAddr + s.normalStart + logLen :=
      add64_eq hrange
    have hup : 0 < d → (addOffs (logAddr + s.normalStart + logLen) d : Int) =
        logAddr + s.normalStart + logLen + d := by
      intro hd
      rw [addOffs, Int.emod_eq_of_lt (by omega) (by omega), Int.toNat_of_nonneg (by omega)]
      omega
    unfold Sys.normalMove
    simp only [hstart, hborder]
    refine reach_kept h ?_ (fun a b hb => ?_) fun a b hb => ?_
    · split_ifs with hd
      · have := hup hd
        omega
      · exact hrange
    · rcases moveRange_some hb with ⟨c, hc, -, -, hcm⟩ | ⟨-, hm⟩
      · have := (h.separate.meta_in c b hcm).2
        omega
      · exact h.separate.meta_in a b hm
    · rcases moveRange_some hb with ⟨c, hc, hcl, hac, hcm⟩ | ⟨-, hm⟩
      · refine ⟨by omega, Or.inr ?_⟩
        split_ifs with hd
        · have := hup hd
          omega
        · omega
      · exact (h.separate.normal_in a b hm).imp_right Or.inl

/-! ## The meta section -/

theorem view_congr (hstart : t.normalStart = s.normalStart)
    (h : ∀ a, s.normalStart ≤ a → t.store a = s.store a) (addr : Nat) : t.view addr = s.view addr := by
  unfold Sys.view
  rw [hstart, h _ (Nat.le_add_right _ _)]

/-- An operation on a range of the meta section. -/
theorem apply_kept (h : Kept s) (op : Op) {addr len : Nat} (hlow : defaultTransfer ≤ addr)
    (hhigh : addr + len ≤ s.normalStart) :
    Kept { s with store := op.apply .metaOut s.store addr len } ∧
      ∀ n, Sys.view { s with store := op.apply .metaOut s.store addr len } n = s.view n := by
  refine ⟨⟨⟨fun a b hb => ?_, fun a b hb => ?_⟩, h.control, h.le, h.inside⟩,
    view_congr rfl fun a ha => apply_outside op (by omega)⟩
  · rcases apply_some hb with ⟨c, hc⟩ | ⟨-, hin⟩
    · exact h.separate.meta_in a c hc
    · exact ⟨hlow.trans hin.1, hin.2.trans_le hhigh⟩
  · rcases apply_some hb with ⟨c, hc⟩ | ⟨hout, -⟩
    · exact h.separate.normal_in a c hc
    · cases hout

theorem metaOp_kept (h : Kept s) {x : Request} (hfair : Fair s (.metaOp x)) :
    Kept (s.metaOp x).2 ∧ ∀ n, (s.metaOp x).2.view n = s.view n := by
  unfold Sys.metaOp
  split_ifs with hcheck hok
  · exact ⟨h, fun _ => rfl⟩
  · obtain ⟨haddr, hstop⟩ := hfair (Nat.le_of_not_lt hcheck) hok
    have hinside := h.inside
    have hle := h.le
    have hplace : add64 x.logAddr defaultTransfer = x.logAddr + defaultTransfer :=
      add64_eq (by omega)
    simp only [hplace, haddr]
    exact apply_kept h x.op (by omega) hstop
  · exact ⟨h, fun _ => rfl⟩

theorem addOffs_eq {addr : Nat} {d : Int} (hlow : 0 ≤ addr + d)
    (hhigh : addr + d < (addrSpace : Int)) : (addOffs addr d : Int) = addr + d := by
  rw [addOffs, Int.emod_eq_of_lt hlow hhigh, Int.toNat_of_nonneg hlow]

/-- All of the normal section is moved. -/
theorem advance_kept (h : Kept s) {d : Int} (hd : 0 ≤ d)
    (hend : s.normalEnd + d < (addrSpace : Int)) :
    Kept ({ s with
      store := moveRange s.store s.normalStart (s.normalEnd - s.normalStart) d }.advance d) ∧
        ∀ n, Sys.view ({ s with
          store := moveRange s.store s.normalStart (s.normalEnd - s.normalStart) d }.advance d) n =
            s.view n := by
  have hle := h.le
  have hcontrol := h.control
  have hstart := addOffs_eq (show 0 ≤ (s.normalStart : Int) + d by omega) (by omega)
  have hstop := addOffs_eq (show 0 ≤ (s.normalEnd : Int) + d by omega) hend
  refine ⟨⟨⟨fun a b hb => ?_, fun a b hb => ?_⟩, ?_, ?_, ?_⟩, fun n => ?_⟩
  · simp only [Sys.advance] at hb ⊢
    rcases moveRange_some hb with ⟨c, hc, -, -, hcm⟩ | ⟨-, hm⟩
    · have := (h.separate.meta_in c b hcm).2
      omega
    · obtain ⟨hlow, hhigh⟩ := h.separate.meta_in a b hm
      omega
  · simp only [Sys.advance] at hb ⊢
    rcases moveRange_some hb with ⟨c, hc, hcl, hac, -⟩ | ⟨hout, hm⟩
    · omega
    · obtain ⟨hlow, hhigh⟩ := h.separate.normal_in a b hm
      omega
  · simp only [Sys.advance]
    omega
  · simp only [Sys.advance]
    omega
  · simp only [Sys.advance]
    omega
  · unfold Sys.view
    congr 1
    simp only [Sys.advance]
    by_cases hn : s.normalStart + n < s.normalEnd
    · exact moveRange_along (Nat.le_add_right _ _) (by omega) (by omega)
    · rw [h.beyond (Nat.le_of_not_lt hn), moveRange_outside (by omega) (by omega)]
      exact h.beyond (by omega)

/-- Nothing is there to be moved. -/
theorem advance_empty (h : Kept s) (hempty : s.normalStart = s.normalEnd) {d : Int} (hd : 0 ≤ d)
    (hend : s.normalEnd + d < (addrSpace : Int)) :
    Kept (s.advance d) ∧ ∀ n, (s.advance d).view n = s.view n := by
  have hnone : moveRange s.store s.normalStart (s.normalEnd - s.normalStart) d = s.store := by
    funext a
    exact moveRange_outside (by omega) (by omega)
  have hkept := advance_kept h hd hend
  rwa [hnone] at hkept

/-- A shift keeps what is seen through the output, and makes room up to the border. -/
theorem shift_kept (h : Kept s) {border : Nat} {offs : Option Int} (hfair : Shifts s border offs)
    (hrun : s.shift border offs = some t) :
    Kept t ∧ (∀ n, t.view n = s.view n) ∧ border ≤ t.normalStart := by
  have hle := h.le
  have hinside := h.inside
  have hsize : s.size = s.normalEnd - s.normalStart := sub64_eq hle hinside
  rw [Sys.shift] at hrun
  split_ifs at hrun with hlt hzero
  · obtain rfl := Option.some.inj hrun
    have hempty : s.normalStart = s.normalEnd := by omega
    obtain ⟨hroom, -⟩ := hfair hlt (Or.inl hempty)
    have hdelta : s.delta border = border - s.normalStart + gap := by
      rw [Sys.delta, sub64_eq hlt.le (by omega), add64_eq (by omega)]
    obtain ⟨hkept, hview⟩ :=
      advance_empty h hempty (Int.natCast_nonneg (s.delta border)) (by omega)
    refine ⟨hkept, hview, ?_⟩
    have hstart := addOffs_eq
      (show 0 ≤ (s.normalStart : Int) + (s.delta border : Nat) by omega) (by omega)
    simp only [Sys.advance]
    omega
  · obtain ⟨d, rfl, rfl⟩ := Option.map_eq_some_iff.mp hrun
    obtain ⟨hroom, hoffs⟩ := hfair hlt (Or.inr rfl)
    obtain rfl := Option.some.inj (hoffs (by omega))
    rw [hsize]
    obtain ⟨hkept, hview⟩ := advance_kept h
      (Int.natCast_nonneg (border - s.normalStart + gap)) (by omega)
    refine ⟨hkept, hview, ?_⟩
    have hstart := addOffs_eq
      (show 0 ≤ (s.normalStart : Int) + (border - s.normalStart + gap : Nat) by omega) (by omega)
    simp only [Sys.advance]
    omega
  · obtain rfl := Option.some.inj hrun
    exact ⟨h, fun _ => rfl, Nat.le_of_not_lt hlt⟩

theorem metaCreate_kept (h : Kept s) {logAddr logLen : Nat} {offs : Option Int} {ok : Bool}
    {fill : Nat → UInt8} (hfair : Fair s (.metaCreate logAddr logLen offs ok fill)) :
    Kept (s.metaCreate logAddr logLen offs ok fill) ∧
      ∀ n, (s.metaCreate logAddr logLen offs ok fill).view n = s.view n := by
  obtain ⟨hshifts, hroom⟩ := hfair
  unfold Sys.metaCreate
  rcases hshift : s.shift (add64 (add64 logAddr logLen) defaultTransfer) offs with _ | t
  · exact ⟨h, fun _ => rfl⟩
  · obtain ⟨ht, hview, hborder⟩ := shift_kept h hshifts hshift
    cases ok with
    | false => exact ⟨ht, hview⟩
    | true =>
      have hsum := hroom rfl
      rw [add64_eq (show logAddr + logLen < addrSpace by omega), add64_eq hsum] at hborder
      have hplace : add64 logAddr defaultTransfer = logAddr + defaultTransfer :=
        add64_eq (by omega)
      simp only [if_true, hplace, fillRange_eq]
      obtain ⟨hkept, hsame⟩ := apply_kept ht (.create fill)
        (show defaultTransfer ≤ logAddr + defaultTransfer by omega)
        (show logAddr + defaultTransfer + logLen ≤ t.normalStart by omega)
      exact ⟨hkept, fun n => (hsame n).trans (hview n)⟩

theorem metaMove_kept (h : Kept s) {logAddr logLen : Nat} {offsetMax : Int}
    {offs moved : Option Int} (hfair : Fair s (.metaMove logAddr logLen offsetMax offs moved)) :
    Kept (s.metaMove logAddr logLen offsetMax offs moved) ∧
      ∀ n, (s.metaMove logAddr logLen offsetMax offs moved).view n = s.view n := by
  obtain ⟨hshifts, hmoves⟩ := hfair
  unfold Sys.metaMove
  rcases hshift : s.shift (moveBorder logAddr logLen offsetMax) offs with _ | t
  · exact ⟨h, fun _ => rfl⟩
  · obtain ⟨ht, hview, hborder⟩ := shift_kept h hshifts hshift
    cases moved with
    | none => exact ⟨ht, hview⟩
    | some d =>
      obtain ⟨hsum, hlow, hhigh⟩ := hmoves d rfl
      have hmax : (moveBorder logAddr logLen offsetMax : Int) =
          logAddr + logLen + defaultTransfer + max 0 offsetMax := by
        have hsum₁ : add64 logAddr logLen = logAddr + logLen := add64_eq (by omega)
        have hsum₂ : add64 (logAddr + logLen) defaultTransfer = logAddr + logLen + defaultTransfer :=
          add64_eq (by omega)
        simp only [moveBorder, hsum₁, hsum₂]
        split_ifs with hpos
        · rw [addOffs_eq (by omega) (by omega)]
          omega
        · omega
      have hplace : add64 logAddr defaultTransfer = logAddr + defaultTransfer :=
        add64_eq (by omega)
      simp only [hplace]
      have hcontrol := ht.control
      refine ⟨⟨⟨fun a b hb => ?_, fun a b hb => ?_⟩, ht.control, ht.le, ht.inside⟩, fun n => ?_⟩
      · rcases moveRange_some hb with ⟨c, hc, hcl, hac, -⟩ | ⟨-, hm⟩
        · show defaultTransfer ≤ a ∧ a < t.normalStart
          omega
        · exact ht.separate.meta_in a b hm
      · rcases moveRange_some hb with ⟨c, hc, hcl, hac, hcm⟩ | ⟨-, hm⟩
        · have := (ht.separate.normal_in c b hcm).1
          omega
        · exact ht.separate.normal_in a b hm
      · refine Eq.trans ?_ (hview n)
        refine view_congr ?_ (fun a ha => ?_) n
        · rfl
        · exact moveRange_outside (by omega) (by omega)

/-! ## Runs -/

theorem step_kept (h : Kept s) {e : Event} (hfair : Fair s e) (hstep : step s e = some t) :
    Kept t ∧ (e.OfMeta → ∀ n, t.view n = s.view n) := by
  cases e with
  | normal x =>
    obtain rfl := Option.some.inj hstep
    exact ⟨normal_kept h hfair, False.elim⟩
  | normalMove logAddr logLen offs =>
    obtain rfl := Option.some.inj hstep
    exact ⟨normalMove_kept h hfair, False.elim⟩
  | metaOp x =>
    obtain rfl := Option.some.inj hstep
    exact (metaOp_kept h hfair).imp_right fun hview _ => hview
  | metaCreate logAddr logLen offs ok fill =>
    obtain rfl := Option.some.inj hstep
    exact (metaCreate_kept h hfair).imp_right fun hview _ => hview
  | metaMove logAddr logLen offsetMax offs moved =>
    obtain rfl := Option.some.inj hstep
    exact (metaMove_kept h hfair).imp_right fun hview _ => hview

theorem reach_kept_start (h : Reach step (· = start) Fair s) : Kept s :=
  h.invariant (fun _ h0 => h0 ▸ start_kept) fun _ _ _ hs hfair hstep => (step_kept hs hfair hstep).1

/-! ## Addresses that are allotted -/

/-- What is allotted is the range of the operation. -/
theorem allotted_eq {op : Op} {addr len a n : Nat} (h : op.allotted = some (addr, len)) :
    op.addr a = addr ∧ op.len n = len := by
  cases op with
  | gadr addr' len' =>
    obtain ⟨rfl, rfl⟩ := Prod.mk.inj (Option.some.inj h)
    exact ⟨rfl, rfl⟩
  | gadrCreate addr' len' fill =>
    obtain ⟨rfl, rfl⟩ := Prod.mk.inj (Option.some.inj h)
    exact ⟨rfl, rfl⟩
  | keep => cases h
  | write buf => cases h
  | create fill => cases h
  | delete => cases h

theorem reach_end (s : Sys) (border : Nat) : border ≤ (s.reach border).normalEnd := by
  unfold Sys.reach
  split_ifs with hend
  · exact le_rfl
  · exact Nat.le_of_lt (Nat.lt_of_not_le hend)

theorem normal_denotes (h : Kept s) {x : Request} (hfair : Fair s (.normal x)) :
    (s.normal x).1.Denotes s.normalStart (s.normal x).2.normalEnd x := by
  intro addr len hallotted hsuccess
  have hinside := h.inside
  cases hok : x.ok with
  | false =>
    simp only [Sys.normal, hok, Bool.false_eq_true, if_false] at hsuccess
  | true =>
    obtain ⟨hplace, hstop⟩ := hfair hok
    obtain ⟨haddr, hlen⟩ := @allotted_eq x.op addr len (x.logAddr + s.normalStart) x.logLen hallotted
    rw [haddr] at hplace
    rw [hlen] at hstop
    obtain ⟨haddr', hlen'⟩ :=
      @allotted_eq x.op addr len (add64 x.logAddr s.normalStart) x.logLen hallotted
    have hborder : add64 addr len = addr + len := add64_eq (by omega)
    simp only [Sys.normal, hok, if_true, haddr', hlen', hborder]
    exact ⟨hplace.symm, trivial, reach_end _ _⟩

theorem metaOp_denotes {x : Request} (hfair : Fair s (.metaOp x)) :
    (s.metaOp x).1.Denotes defaultTransfer s.normalStart x := by
  intro addr len hallotted hsuccess
  unfold Sys.metaOp at hsuccess ⊢
  split_ifs at hsuccess ⊢ with hcheck hok
  obtain ⟨hplace, hstop⟩ := hfair (Nat.le_of_not_lt hcheck) hok
  obtain ⟨haddr, hlen⟩ := @allotted_eq x.op addr len (x.logAddr + defaultTransfer) x.logLen hallotted
  rw [haddr] at hplace
  rw [hlen] at hstop ⊢
  exact ⟨hplace.symm, rfl, by omega⟩

/-- **The sections of `adapt_meta`.** In every run whose steps are fair, each output has its data in
its own section, no operation of the meta section changes what is seen in the normal one, and an
address that is returned is the one that `:<in` has allotted, in its section. -/
theorem sections_kept (h : Reach step (· = start) Fair s) :
    Separate s ∧
      (∀ e t, e.OfMeta → Fair s e → step s e = some t → ∀ n, t.view n = s.view n) ∧
      (∀ x, Fair s (.normal x) → (s.normal x).1.Denotes s.normalStart (s.normal x).2.normalEnd x) ∧
      ∀ x, Fair s (.metaOp x) → (s.metaOp x).1.Denotes defaultTransfer s.normalStart x := by
  have hkept := reach_kept_start h
  refine ⟨hkept.separate, fun e t hmeta hfair hstep => (step_kept hkept hfair hstep).2 hmeta,
    fun x => normal_denotes hkept, fun x => metaOp_denotes⟩

/-- Three bytes at the beginning of the normal section. -/
def three : Request := ⟨.create fun _ => 7, 0, 3, true⟩

/-- The meta section grows over them. -/
def growth : Event := .metaCreate 0 gap (some (gap + defaultTransfer)) true fun _ => 9

theorem sections_kept_three :
    (Sys.metaCreate (start.normal three).2 0 gap (some (gap + defaultTransfer)) true
      fun _ => 9).view = (start.normal three).2.view := by
  refine funext ((sections_kept (.next (.start rfl) (e := .normal three) ?_ rfl)).2.1 growth _
    trivial ?_ rfl)
  · exact fun _ => ⟨rfl, by decide⟩
  · exact ⟨fun _ _ => ⟨by decide, fun _ => rfl⟩, fun _ => by decide⟩

/-- The address that `:<in` allots is lost, and an address near the end of the normal section comes
round to the control block and the meta section. -/
theorem sections_not_kept :
    ¬(start.normal ⟨.gadr (gap + 100) 10, 0, 10, true⟩).1.Denotes start.normalStart
        (start.normal ⟨.gadr (gap + 100) 10, 0, 10, true⟩).2.normalEnd
          ⟨.gadr (gap + 100) 10, 0, 10, true⟩ ∧
      ¬Separate (start.normal ⟨.create fun _ => 7, addrSpace - gap, 3, true⟩).2 := by
  refine ⟨fun h => ?_, fun h => ?_⟩
  · exact absurd (h _ _ rfl rfl).1 (by decide)
  · exact absurd (h.normal_in 0 7 rfl).1 (by decide)

end Athomux.AdaptMeta
