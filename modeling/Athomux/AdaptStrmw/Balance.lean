import Athomux.AdaptStrmw.Spec

/-! # Regions, buffers and bytes of the writable stream -/

open Lib

namespace Athomux.AdaptStrmw

open AdaptComplete (Request Reply Result Call Honest honest_start Contiguous)

variable {s t : Sys} {turn : Turn} {r : Region} {req : Request} {replies : Nat → Reply} {n : Nat}

/-! ## `#adapt_complete2` -/

theorem movedBy_mono {replies : Nat → Reply} {k m : Nat} (h : k ≤ m) :
    AdaptComplete.movedBy replies k ≤ AdaptComplete.movedBy replies m := by
  induction m, h using Nat.le_induction with
  | base => exact Nat.le_refl _
  | succ m _ ih => exact Nat.le_trans ih (Nat.le_add_right _ _)

/-- With fine calls for all of it, the loop stays honest, and has all in some turn. -/
theorem honest_all (hlen : req.logLen < addrSpace) (hfine : ∀ k < n, req.Fine replies k)
    (hall : AdaptComplete.movedBy replies n = req.logLen) :
    ∃ m s, req.before replies m = some s ∧ Honest req replies m s ∧ s.sum = req.logLen := by
  have hgoes : ∀ k ≤ n, (∃ s, req.before replies k = some s ∧ Honest req replies k s) ∨
      ∃ m s, req.before replies m = some s ∧ Honest req replies m s ∧ s.sum = req.logLen := by
    intro k
    induction k with
    | zero => exact fun _ => Or.inl ⟨req.start, rfl, honest_start⟩
    | succ k ih =>
      intro hk
      rcases ih (by omega) with ⟨s, hs, hhonest⟩ | hfull
      · have hrest := hhonest.rest
        have hsum := hhonest.sum
        by_cases hlt : s.sum < req.logLen
        · have hfine' := hfine k (by omega)
          have hsuccess := hhonest.call_success.mpr (AdaptComplete.not_noticed_of_fine hfine')
          have hturn : req.turn s (replies k) = some (s.call (replies k)).advance := by
            rw [Request.turn, if_pos hlt, if_pos hsuccess]
          have hmoved : AdaptComplete.movedBy replies (k + 1) ≤ req.logLen :=
            hall ▸ movedBy_mono hk
          rw [AdaptComplete.movedBy] at hmoved
          refine Or.inl ⟨_, ?_, hhonest.next hlen (by omega) (AdaptComplete.left_of_fine hfine') hturn⟩
          rw [Request.before, hs]
          exact hturn
        · exact Or.inr ⟨k, s, hs, hhonest, by omega⟩
      · exact Or.inr hfull
  rcases hgoes n (Nat.le_refl n) with ⟨s, hs, hhonest⟩ | hfull
  · exact ⟨n, s, hs, hhonest, hhonest.sum.trans hall⟩
  · exact hfull

/-- There is one turn in which the loop ends. -/
theorem last_unique {k m : Nat} {s u : AdaptComplete.State} (hs : req.before replies k = some s)
    (hk : req.turn s (replies k) = none) (hu : req.before replies m = some u)
    (hm : req.turn u (replies m) = none) : k = m := by
  have hnext : ∀ {i j : Nat} {v w : AdaptComplete.State}, req.before replies i = some v →
      req.turn v (replies i) = none → req.before replies j = some w → ¬ i < j := by
    intro i j v w hv hi hw hlt
    obtain ⟨x, hx⟩ := AdaptComplete.before_le hlt hw
    rw [Request.before, hv, Option.bind_some, hi] at hx
    cases hx
  have := hnext hs hk hu
  have := hnext hu hm hs
  omega

/-- The bytes of contiguous calls are those of the buffer. -/
theorem bytes_contiguous {logAddr physAddr : Nat} {calls : List Call} (phys : ByteMem)
    (h : Contiguous logAddr physAddr calls)
    (hfits : physAddr + AdaptComplete.total calls ≤ addrSpace) :
    (calls.flatMap fun c => phys.load c.physAddr c.moved) =
      phys.load physAddr (AdaptComplete.total calls) := by
  induction calls generalizing logAddr physAddr with
  | nil => rfl
  | cons c calls ih =>
    obtain ⟨-, hphys, hrest⟩ := h
    have htotal : AdaptComplete.total (c :: calls) = c.moved + AdaptComplete.total calls := by
      simp [AdaptComplete.total]
    rw [htotal] at hfits ⊢
    rw [List.flatMap_cons, ByteMem.load_add, hphys]
    rcases Nat.lt_or_ge (physAddr + c.moved) addrSpace with hlt | hge
    · rw [add64_eq hlt] at hrest
      rw [ih hrest (by omega)]
    · -- the buffer ends at the end of the memory, so there is nothing behind it
      have hzero : AdaptComplete.total calls = 0 := by omega
      have hend := add64_lt physAddr c.moved
      rw [ih hrest (by omega), hzero]
      rfl

/-- A fine turn sends its buffer. -/
theorem transwait_fine (h : turn.Fine) (hlen : turn.bufLen < addrSpace)
    (hfits : turn.bufStart + turn.bufLen ≤ addrSpace) {result : Result}
    (hresult : turn.transwait = some result) :
    result.success = true ∧
      turn.bytes result.calls = turn.phys.load turn.bufStart turn.bufLen := by
  obtain ⟨-, n, hfine, hall⟩ := h
  have hreq : turn.request.logLen < addrSpace := hlen
  obtain ⟨m, u, hu, hhonest, hfull⟩ := honest_all hreq hfine hall
  have hend := AdaptComplete.turn_full hfull (turn.replies m)
  obtain ⟨s, hs, hleave⟩ := Option.bind_eq_some_iff.mp hresult
  split at hleave
  · rename_i hlast
    obtain rfl := last_unique hs hlast hu hend
    rw [hs] at hu
    cases hu
    cases hleave
    have hcalls : (turn.request.leave u (turn.replies turn.last)).calls = u.calls :=
      if_neg (Nat.not_lt.mpr hfull.ge)
    have htotal : AdaptComplete.total u.calls = turn.bufLen :=
      hhonest.total.trans (hhonest.sum.symm.trans hfull)
    refine ⟨decide_eq_true hfull, ?_⟩
    rw [hcalls, Turn.bytes, bytes_contiguous turn.phys hhonest.contiguous (by rw [htotal]; exact hfits),
      htotal]
    rfl
  · cases hleave

/-! ## The loop of `$padr` -/

/-- What the loop changes: the buffers that it gets it puts again, and what it has sent is a part of the
region. -/
structure Sends (s t : Sys) (r : Region) (sum : Nat) (done : Bool) : Prop where
  addrs : t.addrs = s.addrs
  store : t.store = s.store
  held : t.held = s.held
  sent : t.sent = s.sent
  bufs : Ledger.Settles t.bufs []
  stream : ∃ n, t.stream = s.stream ++ s.mem.load (r.start + sum) n ∧
    (done = true → sum + n = r.len)

theorem send_sends {turns : List Turn} {sum : Nat} {done : Bool} (hr : r.stop ≤ addrSpace)
    (hlen : r.len < addrSpace) (hsum : sum ≤ r.len) (hbufs : Ledger.Settles s.bufs [])
    (hfine : ∀ turn ∈ turns, turn.Fine) (h : s.send r sum turns = some (done, t)) :
    Sends s t r sum done := by
  induction turns generalizing s sum with
  | nil =>
    rw [Sys.send] at h
    split at h
    · cases h
    · cases h
      refine ⟨rfl, rfl, rfl, rfl, hbufs, 0, (List.append_nil _).symm, fun _ => ?_⟩
      omega
  | cons turn turns ih =>
    obtain ⟨hturn, hfine⟩ := List.forall_mem_cons.mp hfine
    rw [Sys.send] at h
    split at h
    · rename_i hlt
      have haddr : add64 r.start sum = r.start + sum := add64_eq (by unfold Region.stop at hr; omega)
      have hsub : sub64 r.len sum = r.len - sum := sub64_eq hsum hlen
      rw [haddr, hsub] at h
      dsimp only at h
      split at h
      · rename_i hdelivers
        obtain ⟨hle, hbuf, hphys⟩ := hdelivers hturn.1
        obtain ⟨result, hresult, h⟩ := Option.bind_eq_some_iff.mp h
        obtain ⟨hsuccess, hbytes⟩ := transwait_fine hturn (by omega) hbuf hresult
        simp only [hturn.1, if_true, hsuccess, ne_eq, not_true_eq_false, if_false, hbytes, hphys] at h
        have hputs : Ledger.Settles ((s.bufs ++ [Booking.take (⟨r.start + sum, turn.bufLen⟩ : Region)]) ++
            [Booking.give ⟨r.start + sum, turn.bufLen⟩]) [] := hbufs.take.give
        cases hput : turn.put with
        | false =>
          simp only [hput, Bool.false_eq_true, not_false_eq_true, if_true] at h
          cases h
          exact ⟨rfl, rfl, rfl, rfl, hputs, turn.bufLen, rfl, fun hdone => absurd hdone (by simp)⟩
        | true =>
          simp only [hput, not_true_eq_false, if_false] at h
          have hnext : add64 sum turn.bufLen = sum + turn.bufLen := add64_eq (by omega)
          rw [hnext] at h
          obtain ⟨haddrs, hstore, hheld, hsent, hbufs', n, hstream, hdone⟩ :=
            ih (by omega) hputs hfine h
          refine ⟨haddrs, hstore, hheld, hsent, hbufs', turn.bufLen + n, ?_, fun hd => ?_⟩
          · rw [hstream, ByteMem.load_add, List.append_assoc, Nat.add_assoc]
          · have := hdone hd
            omega
      · cases h
    · cases h

/-! ## Runs -/

structure Inv (s : Sys) : Prop where
  balanced : Balanced s
  inside : ∀ r ∈ s.held, r.stop ≤ addrSpace ∧ r.len < addrSpace

theorem inv_start : Inv start := by
  refine ⟨⟨Ledger.Settles.nil, Ledger.Settles.nil, Ledger.Settles.nil, ?_⟩, ?_⟩
  · exact fun x hx => absurd hx List.not_mem_nil
  · exact fun r hr => absurd hr List.not_mem_nil

theorem Inv.gadr (h : Inv s) {x : Gadr} (hx : x.region.stop ≤ addrSpace ∧ x.region.len < addrSpace)
    (hok : x.reader = true ∨ x.gadr = false ∨ x.create = true) : Inv (s.gadr x) := by
  unfold Sys.gadr
  split
  · exact h
  · rename_i hreader
    split
    · exact h
    · rename_i hgadr
      have hcreate : x.create = true :=
        (hok.resolve_left (by simpa using hreader)).resolve_left (by simpa using hgadr)
      simp only [hcreate, ne_eq, not_true_eq_false, if_false]
      obtain ⟨haddrs, hstore, hbufs, hsent⟩ := h.balanced
      exact ⟨⟨haddrs.take, hstore.take, hbufs, hsent⟩, List.forall_mem_cons.mpr ⟨hx, h.inside⟩⟩

/-- A region that a caller gives back. -/
theorem settles_give {es : List (Booking Region)} {l : List Region} (h : Ledger.Settles es l)
    (hr : r ∈ l) : Ledger.Settles (es ++ [Booking.give r]) (l.erase r) :=
  (h.perm (List.perm_cons_erase hr)).give

theorem Inv.padr (h : Inv s) (hr : r ∈ s.held) {reader deletepadr : Bool} {turns : List Turn}
    (hok : reader = true ∨ ∀ turn ∈ turns, turn.Fine)
    (ht : s.padr r reader turns deletepadr = some t) : Inv t := by
  unfold Sys.padr at ht
  split at ht
  · cases ht
    exact h
  · rename_i hreader
    have hfine := hok.resolve_left (by simpa using hreader)
    obtain ⟨⟨done, u⟩, hsend, rfl⟩ := Option.map_eq_some_iff.mp ht
    obtain ⟨hinside, hlen⟩ := h.inside r hr
    obtain ⟨haddrs, hstore, hheld, hsent, hbufs, n, hstream, hdone⟩ :=
      send_sends hinside hlen (Nat.zero_le _) h.balanced.bufs hfine hsend
    have hkept : Inv u := by
      refine ⟨⟨?_, ?_, hbufs, hsent ▸ h.balanced.sent⟩, hheld ▸ h.inside⟩
      · rw [haddrs, hheld]
        exact h.balanced.addrs
      · rw [hstore, hheld]
        exact h.balanced.store
    dsimp only
    split
    · exact hkept
    · rename_i hend
      split
      · exact hkept
      · have hall := hdone (by simpa using hend)
        obtain ⟨haddrs', hstore', -, hsent'⟩ := hkept.balanced
        have hr' : r ∈ u.held := hheld ▸ hr
        refine ⟨⟨settles_give haddrs' hr', settles_give hstore' hr', hbufs, ?_⟩, ?_⟩
        · refine List.forall_mem_cons.mpr ⟨?_, hsent'⟩
          rw [hstream, List.drop_left, Nat.add_zero, show n = r.len by omega]
        · exact fun q hq => hkept.inside q (List.mem_of_mem_erase hq)

theorem inv_step {e : Event} (h : Inv s) (hok : Allowed s e) (ht : step s e = some t) : Inv t := by
  cases e with
  | gadr x =>
    rw [step] at ht
    split at ht
    · rename_i hx
      cases ht
      exact h.gadr hx hok
    · cases ht
  | padr r reader turns deletepadr =>
    rw [step] at ht
    split at ht
    · rename_i hr
      exact h.padr hr hok ht
    · cases ht
  | write mem =>
    cases ht
    exact ⟨⟨h.balanced.addrs, h.balanced.store, h.balanced.bufs, h.balanced.sent⟩, h.inside⟩

/-- In a run whose steps are allowed, all is balanced. -/
theorem balanced_run (h : Reach step (· = start) Allowed s) : Balanced s := by
  have hinv : Inv s := h.invariant (by rintro _ rfl; exact inv_start) fun _ _ _ => inv_step
  exact hinv.balanced

/-- A region of 3 bytes at 64. -/
def region : Region := ⟨64, 3⟩

/-- Its bytes come in one buffer at 4096, and `:<pstrmw` takes them in two calls. -/
def wholeTurn : Turn :=
  ⟨true, 4096, 3, fun x => if 4096 ≤ x then 7 else 0, 0,
    fun n => if n = 0 then .done 2 else .done 1, 2, true⟩

theorem balanced_region :
    ∃ s, run step anyEvent start [.gadr ⟨false, true, region, true, true⟩, .write fun _ => 7,
        .padr region false [wholeTurn] true] = some s ∧
      s.stream = [7, 7, 7] ∧ Balanced s := by
  refine ⟨_, rfl, by decide, balanced_run ?_⟩
  have h : Reach step (· = start) Allowed start := .start rfl
  have hgadr := Reach.next (e := Event.gadr ⟨false, true, region, true, true⟩) h
    (Or.inr (Or.inr rfl)) rfl
  have hwrite := Reach.next (e := Event.write fun _ => 7) hgadr trivial rfl
  refine Reach.next (e := Event.padr region false [wholeTurn] true) hwrite (Or.inr ?_) rfl
  rintro _ (_ | ⟨_, ⟨⟩⟩)
  refine ⟨rfl, 2, fun k _ => ?_, rfl⟩
  rcases k with _ | k <;> trivial

theorem not_balanced_of_run {events : List Event} {p : Sys → Bool}
    (hp : ∀ s, Balanced s → p s = true)
    (h : (run step anyEvent start events).map p = some false) :
    ∃ s, run step anyEvent start events = some s ∧ Reach step (· = start) anyEvent s ∧
      ¬ Balanced s := by
  obtain ⟨s, hs, hfalse⟩ := Option.map_eq_some_iff.mp h
  refine ⟨s, hs, Reach.of_run (.start rfl) hs, fun hb => ?_⟩
  rw [hp s hb] at hfalse
  cases hfalse

/-- `$create` fails, and the caller gets the region. -/
def noStorage : List Event := [.gadr ⟨false, true, region, false, true⟩]

/-- `:<pstrmw` fails, and the buffer is not put. -/
def noStream : List Event :=
  [.gadr ⟨false, true, region, true, true⟩,
    .padr region false [⟨true, 4096, 3, fun _ => 0, 0, fun _ => .clear, 0, true⟩] true]

theorem regions_and_buffers_left :
    (∃ s, run step anyEvent start noStorage = some s ∧ Reach step (· = start) anyEvent s ∧
      ¬ Balanced s) ∧
    ∃ s, run step anyEvent start noStream = some s ∧ Reach step (· = start) anyEvent s ∧
      ¬ Balanced s := by
  constructor
  · refine not_balanced_of_run (p := fun s => decide (Ledger.Sound [] s.store))
      (fun s h => decide_eq_true h.store.1) (by decide)
  · refine not_balanced_of_run (p := fun s => (Ledger.outstanding [] s.bufs).isEmpty)
      (fun s h => ?_) (by decide)
    rw [List.perm_nil.mp h.bufs.2]
    rfl

end Athomux.AdaptStrmw
