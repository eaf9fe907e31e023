import Mathlib.Data.List.Nodup
import Athomux.NetConnect.Merge

/-!
# One rewiring

Where `rewire_nc` does not lose its next element, it leaves the renamed connections without the
hooks, one for each wire.
-/

namespace Athomux.NetConnect

variable {b r : Nat} {c d tc : GConn} {l done rest lc : List GConn}

/-! ## Wires -/

/-- Both endpoints with the names of the connectors. -/
abbrev Wire := Nat × Nat × Text × Text

def GConn.wire (c : GConn) : Wire := (c.srcAddr, c.dstAddr, c.srcName, c.dstName)

theorem sameWire_iff : c.sameWire d = true ↔ c.wire = d.wire := by
  simp [GConn.sameWire, GConn.wire]

theorem sameWire_comm : c.sameWire d = d.sameWire c := by
  rw [Bool.eq_iff_iff, sameWire_iff, sameWire_iff]
  exact eq_comm

def wires (l : List GConn) : List Wire := l.map GConn.wire

theorem nodup_wires_nil : (wires []).Nodup := List.nodup_nil

/-- A connection of the same wire is there already. -/
def known (done : List GConn) (c : GConn) : Bool := done.any c.sameWire

theorem known_iff : known done c = true ↔ c.wire ∈ wires done := by
  rw [known, List.any_eq_true, wires, List.mem_map]
  exact ⟨fun ⟨d, hd, h⟩ => ⟨d, hd, (sameWire_iff.mp h).symm⟩,
    fun ⟨d, hd, h⟩ => ⟨d, hd, sameWire_iff.mpr h.symm⟩⟩

theorem removeDw_cons (found : Bool) (c : GConn) (cs : List GConn) :
    removeDw tc found (c :: cs) =
      if c.sameWire tc then
        if found then removeDw tc found cs
        else (c :: (removeDw tc true cs).1, (removeDw tc true cs).2)
      else (c :: (removeDw tc found cs).1, (removeDw tc found cs).2) := rfl

theorem removeDw_true (l : List GConn) :
    removeDw tc true l = (l.filter fun c => !c.sameWire tc, true) := by
  induction l with
  | nil => rfl
  | cons c l ih =>
    rw [removeDw_cons, ih]
    by_cases h : c.sameWire tc = true <;> simp [h]

/-- Nothing is removed from a list without duplicates. -/
theorem removeDw_false (h : (wires l).Nodup) : removeDw tc false l = (l, known l tc) := by
  induction l with
  | nil => rfl
  | cons c l ih =>
    obtain ⟨hc, hl⟩ := List.nodup_cons.mp h
    rw [removeDw_cons]
    by_cases hsame : c.sameWire tc = true
    · have hrest : l.filter (fun d => !d.sameWire tc) = l := by
        refine List.filter_eq_self.mpr fun d hd => ?_
        have hne : ¬ d.sameWire tc = true := fun hd' =>
          hc (List.mem_map.mpr ⟨d, hd, (sameWire_iff.mp hd').trans (sameWire_iff.mp hsame).symm⟩)
        simpa using hne
      have hknown : known (c :: l) tc = true :=
        known_iff.mpr (by rw [← sameWire_iff.mp hsame]; exact List.mem_cons_self)
      simp [hsame, removeDw_true, hrest, hknown]
    · have hknown : known (c :: l) tc = known l tc := by
        rw [sameWire_comm] at hsame
        simp [known, hsame]
      simp [hsame, ih hl, hknown]

theorem removeDw_self (found : Bool) :
    removeDw tc found [tc] = (if found then [] else [tc], true) := by
  have hself : tc.sameWire tc = true := sameWire_iff.mpr rfl
  rw [removeDw_cons, if_pos hself]
  cases found <;> rfl

/-! ## What a rewiring does -/

/-- The list that remains. -/
def tidy (baddr raddr : Nat) : List GConn → List GConn → List GConn
  | done, [] => done
  | done, c :: rest =>
    if c.isHook baddr || known done c || known done (c.rename baddr raddr) then
      tidy baddr raddr done rest
    else tidy baddr raddr (done ++ [c.rename baddr raddr]) rest

/-- A renamed connection becomes a duplicate of the one behind it. -/
def collides (baddr raddr : Nat) : List GConn → List GConn → Bool
  | _, [] => false
  | done, c :: rest =>
    if c.isHook baddr || known done c || known done (c.rename baddr raddr) then
      collides baddr raddr done rest
    else
      (rest.find? fun n => !known done n).any (c.rename baddr raddr).sameWire ||
        collides baddr raddr (done ++ [c.rename baddr raddr]) rest

theorem known_append : known (done ++ [tc]) c = (known done c || c.sameWire tc) := by
  simp [known]

theorem nodup_append (h : (wires done).Nodup) (hnew : known done tc = false) :
    (wires (done ++ [tc])).Nodup := by
  have hmem : tc.wire ∉ wires done := by
    rw [← known_iff, hnew]
    exact Bool.false_ne_true
  rw [wires, List.map_append, List.map_singleton, List.nodup_append]
  refine ⟨h, List.nodup_singleton _, fun w hw v hv heq => hmem ?_⟩
  rwa [← List.mem_singleton.mp hv, ← heq]

/-- The element behind the current one is the first one that has not been removed yet. -/
theorem rewireLoop_eq {fuel : Nat} (hdone : (wires done).Nodup)
    (hfuel : (rest.filter fun n => !known done n).length < fuel) :
    rewireLoop b r fuel done (rest.filter fun n => !known done n) =
      if collides b r done rest then .error .freed else .ok (tidy b r done rest) := by
  induction rest generalizing done fuel with
  | nil =>
    obtain ⟨f, rfl⟩ : ∃ f, fuel = f + 1 := ⟨fuel - 1, by omega⟩
    rfl
  | cons c rest ih =>
    by_cases hknown : known done c = true
    · rw [List.filter_cons_of_neg (by simp [hknown])] at hfuel ⊢
      rw [ih hdone hfuel, collides, tidy]
      simp [hknown]
    · rw [List.filter_cons_of_pos (by simp [hknown])] at hfuel ⊢
      obtain ⟨f, rfl⟩ : ∃ f, fuel = f + 1 := ⟨fuel - 1, by omega⟩
      rw [List.length_cons] at hfuel
      rw [rewireLoop, collides, tidy]
      by_cases hhook : c.isHook b = true
      · simp only [hhook, if_true, Bool.true_or]
        exact ih hdone (by omega)
      · simp only [hhook, hknown, Bool.false_eq_true, if_false, Bool.false_or, removeDw_false hdone,
          removeDw_self, removeDw_true]
        by_cases htc : known done (c.rename b r) = true
        · -- the current one is the duplicate, and there are no others
          have hfresh : ∀ n ∈ rest.filter (fun n => !known done n),
              (c.rename b r).sameWire n = false := by
            intro n hn
            have hn' : ¬ known done n = true := by simpa using (List.mem_filter.mp hn).2
            by_contra hs
            rw [Bool.not_eq_false, sameWire_iff] at hs
            rw [known_iff, ← hs, ← known_iff] at hn'
            exact hn' htc
          have hrest : (rest.filter fun n => !known done n).filter
              (fun n => !n.sameWire (c.rename b r)) = rest.filter fun n => !known done n := by
            refine List.filter_eq_self.mpr fun n hn => ?_
            rw [sameWire_comm, hfresh n hn]
            rfl
          have hhead : (rest.filter fun n => !known done n).head?.any
              (c.rename b r).sameWire = false := by
            cases hl : rest.filter fun n => !known done n with
            | nil => rfl
            | cons n l => exact hfresh n (hl ▸ List.mem_cons_self)
          simp only [htc, hhead, hrest, Bool.false_eq_true, if_false, if_true, List.append_nil]
          exact ih hdone (by omega)
        · rw [Bool.not_eq_true] at htc
          have hhead : (rest.filter fun n => !known done n).head?.any (c.rename b r).sameWire =
              (rest.find? fun n => !known done n).any (c.rename b r).sameWire := by
            rw [List.head?_filter]
          have hrest : (rest.filter fun n => !known done n).filter
              (fun n => !n.sameWire (c.rename b r)) =
              rest.filter fun n => !known (done ++ [c.rename b r]) n := by
            rw [List.filter_filter]
            refine List.filter_congr fun n _ => ?_
            rw [known_append, Bool.not_or, Bool.and_comm]
          have hlen : (rest.filter fun n => !known (done ++ [c.rename b r]) n).length ≤
              (rest.filter fun n => !known done n).length := by
            rw [← hrest]
            exact List.length_filter_le _ _
          simp only [htc, hhead, hrest, Bool.false_eq_true, if_false]
          by_cases hnext : (rest.find? fun n => !known done n).any (c.rename b r).sameWire = true
          · simp [hnext]
          · simp only [hnext, Bool.false_eq_true, if_false, Bool.false_or]
            exact ih (nodup_append hdone htc) (by omega)

theorem rewireNc_eq (b r : Nat) (lc : List GConn) :
    rewireNc b r lc = if collides b r [] lc then .error .freed else .ok (tidy b r [] lc) := by
  have hall : lc.filter (fun n => !known [] n) = lc := List.filter_eq_self.mpr fun _ _ => rfl
  have hloop : rewireLoop b r (lc.length + 1) [] (lc.filter fun n => !known [] n) =
      if collides b r [] lc then .error .freed else .ok (tidy b r [] lc) :=
    rewireLoop_eq nodup_wires_nil (hall.symm ▸ Nat.lt_succ_self lc.length)
  rwa [hall] at hloop

theorem nodup_tidy (hdone : (wires done).Nodup) : (wires (tidy b r done rest)).Nodup := by
  induction rest generalizing done with
  | nil => exact hdone
  | cons c rest ih =>
    rw [tidy]
    split
    · exact ih hdone
    · rename_i h
      rw [Bool.not_eq_true, Bool.or_eq_false_iff] at h
      exact ih (nodup_append hdone h.2)

/-! ## The wires afterwards -/

def Wire.Hook (b : Nat) (w : Wire) : Prop := w.1 = 0 ∧ w.2.1 = b

def redirect (b r x : Nat) : Nat := if x = b then r else x

def Wire.rename (b r : Nat) (w : Wire) : Wire := (redirect b r w.1, redirect b r w.2.1, w.2.2)

theorem isHook_iff : c.isHook b = true ↔ c.wire.Hook b := by
  simp [GConn.isHook, Wire.Hook, GConn.wire]

theorem wire_rename : (c.rename b r).wire = c.wire.rename b r := rfl

theorem redirect_idem (hbr : b ≠ r) (x : Nat) : redirect b r (redirect b r x) = redirect b r x := by
  unfold redirect
  by_cases hx : x = b
  · rw [if_pos hx, if_neg hbr.symm]
  · rw [if_neg hx, if_neg hx]

theorem rename_idem (hbr : b ≠ r) (w : Wire) : (w.rename b r).rename b r = w.rename b r := by
  simp [Wire.rename, redirect_idem hbr]

theorem mem_wires_tidy {w : Wire} (hbr : b ≠ r) (hdone : ∀ v ∈ wires done, v.rename b r = v) :
    w ∈ wires (tidy b r done rest) ↔
      w ∈ wires done ∨ ∃ v ∈ wires rest, ¬ v.Hook b ∧ v.rename b r = w := by
  induction rest generalizing done with
  | nil => simp [tidy, wires]
  | cons c rest ih =>
    have hsplit : (∃ v ∈ wires (c :: rest), ¬ v.Hook b ∧ v.rename b r = w) ↔
        (¬ c.wire.Hook b ∧ c.wire.rename b r = w) ∨
          ∃ v ∈ wires rest, ¬ v.Hook b ∧ v.rename b r = w := by
      simp [wires]
    rw [tidy, hsplit]
    by_cases hhook : c.wire.Hook b
    · simp [isHook_iff.mpr hhook, ih hdone, hhook]
    · have hhook' : c.isHook b = false := by
        rw [← Bool.not_eq_true, isHook_iff]
        exact hhook
      by_cases hin : c.wire.rename b r ∈ wires done
      · have hknown : known done (c.rename b r) = true := known_iff.mpr hin
        simp only [hknown, Bool.or_true, if_true, ih hdone]
        refine or_congr_right' fun hw => ⟨Or.inr, fun h => h.resolve_left fun h' => hw (h'.2 ▸ hin)⟩
      · have hknown : known done (c.rename b r) = false := by
          rw [← Bool.not_eq_true, known_iff]
          exact hin
        have hplain : known done c = false := by
          rw [← Bool.not_eq_true, known_iff]
          intro h
          rw [hdone _ h] at hin
          exact hin h
        have hdone' : ∀ v ∈ wires (done ++ [c.rename b r]), v.rename b r = v := by
          intro v hv
          rw [wires, List.map_append, List.mem_append] at hv
          rcases hv with hv | hv
          · exact hdone v hv
          · rw [List.map_singleton, List.mem_singleton] at hv
            rw [hv]
            exact rename_idem hbr c.wire
        have happ : w ∈ wires (done ++ [c.rename b r]) ↔
            w ∈ wires done ∨ c.wire.rename b r = w := by
          simp [wires, wire_rename, eq_comm]
        simp only [hhook', hplain, hknown, Bool.or_false, Bool.false_eq_true, if_false, ih hdone', happ,
          hhook, not_false_eq_true, true_and, or_assoc]

/-! ## Connections that end elsewhere -/

/-- Neither endpoint is one of the addresses. -/
def GConn.clear (s : List Nat) (c : GConn) : Bool := c.srcAddr ∉ s ∧ c.dstAddr ∉ s

theorem redirect_mem {s : List Nat} (hb : b ∈ s) (hr : r ∈ s) (x : Nat) :
    redirect b r x ∈ s ↔ x ∈ s := by
  unfold redirect
  by_cases hx : x = b
  · simp [hx, hb, hr]
  · rw [if_neg hx]

theorem clear_rename {s : List Nat} (hb : b ∈ s) (hr : r ∈ s) (c : GConn) :
    (c.rename b r).clear s = c.clear s := by
  have hsrc := redirect_mem hb hr c.srcAddr
  have hdst := redirect_mem hb hr c.dstAddr
  simp only [GConn.clear, decide_eq_decide]
  exact and_congr (not_congr hsrc) (not_congr hdst)

theorem rename_of_clear {s : List Nat} (hb : b ∈ s) (hc : c.clear s = true) :
    c.rename b r = c := by
  obtain ⟨hsrc, hdst⟩ := of_decide_eq_true hc
  have hsrc' : c.srcAddr ≠ b := fun h => hsrc (h ▸ hb)
  have hdst' : c.dstAddr ≠ b := fun h => hdst (h ▸ hb)
  simp [GConn.rename, hsrc', hdst']

theorem not_hook_of_clear {s : List Nat} (hb : b ∈ s) (hc : c.clear s = true) :
    c.isHook b = false := by
  have hdst : c.dstAddr ≠ b := fun h => (of_decide_eq_true hc).2 (h ▸ hb)
  simp [GConn.isHook, hdst]

theorem clear_congr {s : List Nat} (h : c.wire = d.wire) : c.clear s = d.clear s := by
  simp only [GConn.wire, Prod.mk.injEq] at h
  simp only [GConn.clear, h.1, h.2.1]

/-- They all stay, where no two of them are on the same wire. -/
theorem filter_clear_tidy {s : List Nat} (hb : b ∈ s) (hr : r ∈ s)
    (hnd : (wires (rest.filter (·.clear s))).Nodup)
    (hnew : ∀ c ∈ rest, c.clear s = true → known done c = false) :
    (tidy b r done rest).filter (·.clear s) =
      done.filter (·.clear s) ++ rest.filter (·.clear s) := by
  induction rest generalizing done with
  | nil => simp [tidy]
  | cons c rest ih =>
    rw [tidy]
    by_cases hc : c.clear s = true
    · have hknown := hnew c List.mem_cons_self hc
      rw [List.filter_cons_of_pos hc] at hnd
      obtain ⟨hfirst, hnd⟩ := List.nodup_cons.mp hnd
      have hnew' : ∀ n ∈ rest, n.clear s = true → known (done ++ [c]) n = false := by
        intro n hn hn'
        have hother : n.sameWire c = false := by
          rw [← Bool.not_eq_true, sameWire_iff]
          exact fun h => hfirst (List.mem_map.mpr ⟨n, List.mem_filter.mpr ⟨hn, hn'⟩, h⟩)
        rw [known_append, hnew n (List.mem_cons_of_mem _ hn) hn', hother]
        rfl
      simp only [not_hook_of_clear hb hc, rename_of_clear hb hc, hknown, Bool.or_self,
        Bool.false_eq_true, if_false, ih hnd hnew']
      simp [hc]
    · rw [List.filter_cons_of_neg hc] at hnd ⊢
      split
      · exact ih hnd fun n hn => hnew n (List.mem_cons_of_mem _ hn)
      · have hc' : ¬ (c.rename b r).clear s = true := by rwa [clear_rename hb hr]
        have hnew' : ∀ n ∈ rest, n.clear s = true → known (done ++ [c.rename b r]) n = false := by
          intro n hn hn'
          have hother : n.sameWire (c.rename b r) = false := by
            rw [← Bool.not_eq_true, sameWire_iff]
            exact fun h => hc' (clear_congr h ▸ hn')
          rw [known_append, hnew n (List.mem_cons_of_mem _ hn) hn', hother]
          rfl
        rw [ih hnd hnew']
        simp [hc']

end Athomux.NetConnect
