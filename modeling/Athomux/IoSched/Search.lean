import Athomux.IoSched.Elevator
import Athomux.Lib.Sorted

/-!
# Where the elevator puts a request

Both searches go through the slots of a zone, which are 64 bytes apart, with the address of the last
slot in place of the address behind it.
-/

open Lib

namespace Athomux

open IoQueue

/-! ## `linear_search` -/

namespace SchedArgs

variable (x : SchedArgs)

/-- The request is for the same data at the same place. -/
def Identical (r : IoRequest) : Prop := r.logAddr = x.logAddr ∧ x.Same r

instance (r : IoRequest) : Decidable (x.Identical r) :=
  inferInstanceAs (Decidable (_ ∧ _))

/-- `linear_search2`, to `success` and `next`. -/
def linearSearch2 (get : Nat → Option IoRequest) : Nat → Nat → Nat → Nat → Option (Bool × Nat)
  | 0, _, _, _ => none
  | n + 1, check, last, next =>
    if offsLt last check then some (false, if next < check then check else next)
    else
      match get check with
      | none => none
      | some req =>
        if x.logAddr < req.logAddr ∨ x.Identical req then
          some (decide (req.logAddr = x.logAddr), check)
        else linearSearch2 get n (add64 check ioqueueRequestSize) last next

def linearSearch (get : Nat → Option IoRequest) (n first last check next : Nat) :
    Option (Bool × Nat) :=
  if first ≤ last then
    if first ≤ check ∧ check ≤ last then
      (x.linearSearch2 get n check last next).bind fun r =>
        if r.1 then some r
        else x.linearSearch2 get n first (sub64 check ioqueueRequestSize) r.2
    else x.linearSearch2 get n first last next
  else some (false, next)

end SchedArgs

/-! ## Zones -/

namespace IoSched

/-- Where a zone lies. It does not come round to its first slot again. -/
structure Place where
  first : Nat
  slots : Nat
  first_lt : first < addrSpace
  fits : ioqueueRequestSize * slots ≤ addrSpace

namespace Place

variable (p : Place)

def slot (k : Nat) : Nat := add64 p.first (ioqueueRequestSize * k)

/-- The address in front of a slot. -/
def before (k : Nat) : Nat := sub64 (p.slot k) ioqueueRequestSize

/-- A hint is a slot, or the address behind the last one. The searches do without a hint that lies
outside. -/
def Hint (check : Nat) : Prop :=
  check < p.first ∨ p.before p.slots < check ∨ ∃ k ≤ p.slots, check = p.slot k

/-- The slots, the address in front of them and the one behind them are in order as signed numbers,
and the slots with the one behind them also as unsigned ones. -/
def OneSide : Prop :=
  p.first + ioqueueRequestSize * p.slots < 2 ^ 63 ∨
    2 ^ 63 + ioqueueRequestSize ≤ p.first ∧
      p.first + ioqueueRequestSize * p.slots < addrSpace

end Place

/-- A zone with its requests, which are sorted. -/
structure Zone (p : Place) where
  get : Nat → Option IoRequest
  requests : List IoRequest
  length_eq : requests.length = p.slots
  get_slot : ∀ k r, requests[k]? = some r → get (p.slot k) = some r
  sorted : (requests.map (·.logAddr)).Pairwise (· ≤ ·)

variable {p : Place}

/-- Success says that an identical request is there, and points to one. Else the request can be
inserted at a slot or behind the last one. -/
def Finds (x : SchedArgs) (z : Zone p) (r : Bool × Nat) : Prop :=
  (r.1 = true ↔ ∃ q ∈ z.requests, x.Identical q) ∧
    (r.1 = true → ∃ k q, z.requests[k]? = some q ∧ x.Identical q ∧ r.2 = p.slot k) ∧
      (r.1 = false → ∃ k ≤ p.slots, r.2 = p.slot k ∧
        ((z.requests.map (·.logAddr)).insertIdx k x.logAddr).Pairwise (· ≤ ·))

/-- Both searches end and find the request or a position for it, for all requests of a zone at this
place. -/
def Searches (p : Place) : Prop :=
  ∀ (x : SchedArgs) (z : Zone p) (check : Nat), p.Hint check → ∃ r s,
    Finds x z r ∧ Finds x z s ∧ r.1 = s.1 ∧ ∀ n > p.slots,
      x.binarySearch z.get n p.first (p.before p.slots) check (p.slot p.slots) = some r ∧
        x.linearSearch z.get n p.first (p.before p.slots) check (p.slot p.slots) = some s

/-! ## Addresses -/

namespace Place

variable (h : p.OneSide) {a b k : Nat}

theorem slot_zero (p : Place) : p.slot 0 = p.first := by
  have := p.first_lt
  rw [slot, Nat.mul_zero, add64_eq (by omega), Nat.add_zero]

theorem slot_succ (p : Place) (k : Nat) : add64 (p.slot k) ioqueueRequestSize = p.slot (k + 1) := by
  simp only [slot, add64, addrSpace, ioqueueRequestSize]
  omega

theorem before_succ (p : Place) (k : Nat) : p.before (k + 1) = p.slot k := by
  simp only [before, slot, sub64, add64, addrSpace, ioqueueRequestSize]
  omega

include h

theorem slot_eq (hk : k ≤ p.slots) : p.slot k = p.first + ioqueueRequestSize * k := by
  simp only [OneSide, addrSpace, ioqueueRequestSize] at h
  simp only [slot, add64, addrSpace, ioqueueRequestSize]
  omega

theorem offsLt_before (ha : a ≤ p.slots) (hb : b ≤ p.slots) :
    offsLt (p.before b) (p.slot a) ↔ b ≤ a := by
  rw [before, slot_eq h ha, slot_eq h hb]
  simp only [OneSide, addrSpace, ioqueueRequestSize] at h
  simp only [offsLt, add64, sub64, addrSpace, ioqueueRequestSize]
  omega

theorem before_lt (ha : a ≤ p.slots) (hb : b < p.slots) :
    p.before (b + 1) < p.slot a ↔ b < a := by
  rw [before_succ, slot_eq h ha, slot_eq h (by omega), ioqueueRequestSize]
  omega

/-- The middle is inside. -/
theorem middle_eq (hab : a < b) (hb : b ≤ p.slots) :
    SchedArgs.middle (p.slot a) (p.before b) = p.slot (a + (b - a - 1) / 2) := by
  rw [before, slot_eq h (by omega), slot_eq h hb, slot_eq h (by omega)]
  simp only [OneSide, addrSpace, ioqueueRequestSize] at h
  simp only [SchedArgs.middle, add64, sub64, addrSpace, ioqueueRequestSize]
  omega

end Place

/-! ## Positions -/

variable {x : SchedArgs} {z : Zone p}

/-- The request is not there and fits in at `k`. -/
structure Fits (x : SchedArgs) (z : Zone p) (k : Nat) : Prop where
  inside : k ≤ p.slots
  before : ∀ j q, j < k → z.requests[j]? = some q → q.logAddr ≤ x.logAddr
  behind : ∀ j q, k ≤ j → z.requests[j]? = some q → x.logAddr ≤ q.logAddr
  new : ∀ q ∈ z.requests, ¬x.Identical q

theorem Fits.finds {k : Nat} (h : Fits x z k) : Finds x z (false, p.slot k) := by
  refine ⟨⟨fun h => absurd h (by simp), fun ⟨q, hq, hid⟩ => absurd hid (h.new q hq)⟩,
    fun h => absurd h (by simp), fun _ => ⟨k, h.inside, rfl, pairwise_insertIdx z.sorted ?_ ?_⟩⟩
  · intro i a hi ha
    obtain ⟨q, hq, rfl⟩ := Option.map_eq_some_iff.mp (List.getElem?_map ▸ ha)
    exact h.before i q hi hq
  · intro i a hi ha
    obtain ⟨q, hq, rfl⟩ := Option.map_eq_some_iff.mp (List.getElem?_map ▸ ha)
    exact h.behind i q hi hq

theorem finds_identical {k : Nat} {q : IoRequest} (hq : z.requests[k]? = some q)
    (hid : x.Identical q) : Finds x z (true, p.slot k) :=
  ⟨⟨fun _ => ⟨q, List.mem_of_getElem? hq, hid⟩, fun _ => rfl⟩, fun _ => ⟨k, q, hq, hid, rfl⟩,
    fun h => absurd h (by simp)⟩

namespace Zone

variable (z)

theorem exists_request {k : Nat} (hk : k < p.slots) :
    ∃ q, z.requests[k]? = some q ∧ z.get (p.slot k) = some q := by
  have hlt : k < z.requests.length := z.length_eq ▸ hk
  exact ⟨_, List.getElem?_eq_getElem hlt, z.get_slot k _ (List.getElem?_eq_getElem hlt)⟩

theorem lt_slots {k : Nat} {q : IoRequest} (hq : z.requests[k]? = some q) : k < p.slots :=
  z.length_eq ▸ (List.getElem?_eq_some_iff.mp hq).1

theorem logAddr_le {i j : Nat} {q r : IoRequest} (hij : i ≤ j) (hq : z.requests[i]? = some q)
    (hr : z.requests[j]? = some r) : q.logAddr ≤ r.logAddr :=
  le_of_sorted z.sorted hij (by rw [List.getElem?_map, hq]; rfl)
    (by rw [List.getElem?_map, hr]; rfl)

end Zone

/-! ## `linear_search` finds a position -/

/-- From `a` on, the first request above the wanted one is at `c`, and no request in between is
identical. -/
structure Above (x : SchedArgs) (z : Zone p) (a c : Nat) : Prop where
  le : a ≤ c
  inside : c ≤ p.slots
  low : ∀ j q, a ≤ j → j < c → z.requests[j]? = some q → q.logAddr ≤ x.logAddr ∧ ¬x.Identical q
  high : ∀ j q, c ≤ j → z.requests[j]? = some q → x.logAddr < q.logAddr

theorem Above.fits {c : Nat} (h : Above x z 0 c) : Fits x z c where
  inside := h.inside
  before j q hj hq := (h.low j q (Nat.zero_le j) hj hq).1
  behind j q hj hq := Nat.le_of_lt (h.high j q hj hq)
  new q hq hid := by
    obtain ⟨j, hj⟩ := List.mem_iff_getElem?.mp hq
    rcases Nat.lt_or_ge j c with hlt | hge
    · exact (h.low j q (Nat.zero_le j) hlt hj).2 hid
    · have := h.high j q hge hj
      have := hid.1
      omega

theorem Above.none (x : SchedArgs) (z : Zone p) : Above x z p.slots p.slots where
  le := le_rfl
  inside := le_rfl
  low _ _ hle hlt _ := absurd hlt (by omega)
  high _ _ hle hq := absurd (z.lt_slots hq) (by omega)

/-- What a search over the slots from `a` on has. -/
def Scanned (x : SchedArgs) (z : Zone p) (a : Nat) (r : Bool × Nat) : Prop :=
  (∃ k q, z.requests[k]? = some q ∧ x.Identical q ∧ r = (true, p.slot k)) ∨
    ∃ c, Above x z a c ∧ r = (false, p.slot c)

theorem Scanned.finds {r : Bool × Nat} (h : Scanned x z 0 r) : Finds x z r := by
  rcases h with ⟨k, q, hq, hid, rfl⟩ | ⟨c, hc, rfl⟩
  · exact finds_identical hq hid
  · exact hc.fits.finds

/-- By induction on the number of slots up to `b`, behind which the position is known. -/
theorem linearSearch2_spec (hside : p.OneSide) {b e : Nat} (hbe : Above x z b e) :
    ∀ m a, a + m = b → ∃ r, Scanned x z a r ∧ ∀ n > m,
      x.linearSearch2 z.get n (p.slot a) (p.before b) (p.slot e) = some r := by
  have hb : b ≤ p.slots := hbe.le.trans hbe.inside
  intro m
  induction m with
  | zero =>
    intro a ha
    obtain rfl : a = b := by omega
    refine ⟨(false, p.slot e), Or.inr ⟨e, hbe, rfl⟩, fun n hn => ?_⟩
    obtain ⟨n, rfl⟩ : ∃ k, n = k + 1 := ⟨n - 1, by omega⟩
    have hle : ¬p.slot e < p.slot a := by
      rw [Place.slot_eq hside hb, Place.slot_eq hside hbe.inside, ioqueueRequestSize]
      have := hbe.le
      omega
    rw [SchedArgs.linearSearch2, if_pos ((Place.offsLt_before hside hb hb).mpr le_rfl), if_neg hle]
  | succ m ih =>
    intro a ha
    have hin : ¬offsLt (p.before b) (p.slot a) := by
      rw [Place.offsLt_before hside (by omega) hb]
      omega
    obtain ⟨q, hq, hget⟩ := z.exists_request (show a < p.slots by omega)
    by_cases hstop : x.logAddr < q.logAddr ∨ x.Identical q
    · refine ⟨(decide (q.logAddr = x.logAddr), p.slot a), ?_, fun n hn => ?_⟩
      · rcases hstop with habove | hid
        · refine Or.inr ⟨a, ⟨le_rfl, by omega, fun j _ _ _ => by omega, fun j r hj hr => ?_⟩, ?_⟩
          · exact habove.trans_le (z.logAddr_le hj hq hr)
          · rw [decide_eq_false (Nat.ne_of_gt habove)]
        · exact Or.inl ⟨a, q, hq, hid, by rw [decide_eq_true hid.1]⟩
      · obtain ⟨n, rfl⟩ : ∃ k, n = k + 1 := ⟨n - 1, by omega⟩
        rw [SchedArgs.linearSearch2, if_neg hin, hget]
        exact if_pos hstop
    · obtain ⟨r, hr, hrun⟩ := ih (a + 1) (by omega)
      refine ⟨r, ?_, fun n hn => ?_⟩
      · rcases hr with hfound | ⟨c, hc, rfl⟩
        · exact Or.inl hfound
        · refine Or.inr ⟨c, ⟨by have := hc.le; omega, hc.inside, fun j r haj hjc hjr => ?_,
            hc.high⟩, rfl⟩
          rcases Nat.eq_or_lt_of_le haj with rfl | hlt
          · obtain rfl : q = r := Option.some.inj (hq.symm.trans hjr)
            exact ⟨Nat.le_of_not_lt fun h => hstop (Or.inl h), fun h => hstop (Or.inr h)⟩
          · exact hc.low j r hlt hjc hjr
      · obtain ⟨n, rfl⟩ : ∃ k, n = k + 1 := ⟨n - 1, by omega⟩
        rw [SchedArgs.linearSearch2, if_neg hin, hget]
        simp only [if_neg hstop, Place.slot_succ]
        exact hrun n (by omega)

/-- The second search begins where the first one has left `next`. -/
theorem linearSearch_spec (hside : p.OneSide) {check : Nat} (hint : p.Hint check) :
    ∃ r, Finds x z r ∧ ∀ n > p.slots,
      x.linearSearch z.get n p.first (p.before p.slots) check (p.slot p.slots) = some r := by
  by_cases hle : p.first ≤ p.before p.slots
  · by_cases hin : p.first ≤ check ∧ check ≤ p.before p.slots
    · obtain ⟨k, hk, rfl⟩ : ∃ k ≤ p.slots, check = p.slot k := by
        rcases hint with h | h | h
        · omega
        · omega
        · exact h
      obtain ⟨r, hr, hrun⟩ :=
        linearSearch2_spec hside (Above.none x z) (p.slots - k) k (by omega)
      rcases hr with ⟨j, q, hq, hid, rfl⟩ | ⟨c, hc, rfl⟩
      · refine ⟨_, finds_identical hq hid, fun n hn => ?_⟩
        rw [SchedArgs.linearSearch, if_pos hle, if_pos hin, hrun n (by omega)]
        rfl
      · obtain ⟨s, hs, hrun'⟩ := linearSearch2_spec hside hc k 0 (by omega)
        refine ⟨s, hs.finds, fun n hn => ?_⟩
        rw [SchedArgs.linearSearch, if_pos hle, if_pos hin, hrun n (by omega)]
        rw [Place.slot_zero] at hrun'
        exact hrun' n (by omega)
    · obtain ⟨r, hr, hrun⟩ := linearSearch2_spec hside (Above.none x z) p.slots 0 (by omega)
      refine ⟨r, hr.finds, fun n hn => ?_⟩
      rw [SchedArgs.linearSearch, if_pos hle, if_neg hin]
      rw [Place.slot_zero] at hrun
      exact hrun n hn
  · have hzero : p.slots = 0 := by
      by_contra hne
      obtain ⟨k, hk⟩ := Nat.exists_eq_succ_of_ne_zero hne
      rw [hk, Place.before_succ, Place.slot_eq hside (by omega)] at hle
      omega
    refine ⟨(false, p.slot p.slots), ?_, fun n _ => ?_⟩
    · have := Above.none x z
      rw [hzero] at this ⊢
      exact this.fits.finds
    · rw [SchedArgs.linearSearch, if_neg hle]

/-! ## `binary_search` finds a position -/

theorem scanBackward_stop {get : Nat → Option IoRequest} {first c : Nat} (n : Nat)
    (h : offsLt (p.before c) first) :
    x.scanBackward get first (n + 1) (p.slot c) = some .stopped := by
  rw [SchedArgs.scanBackward]
  exact if_pos h

theorem scanBackward_turn {get : Nat → Option IoRequest} {first c : Nat} {q : IoRequest} (n : Nat)
    (h : ¬offsLt (p.before c) first) (hget : get (p.before c) = some q) :
    x.scanBackward get first (n + 1) (p.slot c) =
      if q.logAddr ≠ x.logAddr then some .stopped
      else if x.Same q then some (.found (p.before c))
      else x.scanBackward get first n (p.before c) := by
  rw [SchedArgs.scanBackward]
  rw [Place.before] at h hget ⊢
  simp only [if_neg h, hget]

theorem scanForward_turn {get : Nat → Option IoRequest} {last c : Nat} {q : IoRequest} (n : Nat)
    (h : ¬last < p.slot (c + 1)) (hget : get (p.slot (c + 1)) = some q) :
    x.scanForward get last (n + 1) (p.slot c) =
      if q.logAddr ≠ x.logAddr then some (false, p.slot (c + 1))
      else if x.Same q then some (true, p.slot (c + 1))
      else x.scanForward get last n (p.slot (c + 1)) := by
  rw [SchedArgs.scanForward]
  simp only [Place.slot_succ, if_neg h, hget]

/-- The search backwards from `c` has found an identical request or has met all that could be one. -/
theorem scanBackward_spec (hside : p.OneSide) {a : Nat} : ∀ c, a ≤ c → c ≤ p.slots →
    (∀ j q, j < c → z.requests[j]? = some q → q.logAddr ≤ x.logAddr) →
    ∃ out, (∀ n > c - a, x.scanBackward z.get (p.slot a) n (p.slot c) = some out) ∧
      ((∃ k q, z.requests[k]? = some q ∧ x.Identical q ∧ out = .found (p.slot k)) ∨
        (∀ j q, a ≤ j → j < c → z.requests[j]? = some q → ¬x.Identical q) ∧ out = .stopped) := by
  intro c
  induction c with
  | zero =>
    intro ha hc hle
    refine ⟨.stopped, fun n hn => ?_, Or.inr ⟨fun j q _ hj => absurd hj (by omega), rfl⟩⟩
    obtain ⟨n, rfl⟩ : ∃ k, n = k + 1 := ⟨n - 1, by omega⟩
    exact scanBackward_stop n
      ((Place.offsLt_before hside (ha.trans hc) hc).mpr (Nat.zero_le a))
  | succ c ih =>
    intro ha hc hle
    rcases Nat.eq_or_lt_of_le ha with rfl | hlt
    · refine ⟨.stopped, fun n hn => ?_, Or.inr ⟨fun j q _ hj => absurd hj (by omega), rfl⟩⟩
      obtain ⟨n, rfl⟩ : ∃ k, n = k + 1 := ⟨n - 1, by omega⟩
      exact scanBackward_stop n ((Place.offsLt_before hside hc hc).mpr le_rfl)
    have hin : ¬offsLt (p.before (c + 1)) (p.slot a) := by
      rw [Place.offsLt_before hside (by omega) hc]
      omega
    obtain ⟨q, hq, hget⟩ := z.exists_request (show c < p.slots by omega)
    rw [← Place.before_succ] at hget
    by_cases haddr : q.logAddr = x.logAddr
    · by_cases hsame : x.Same q
      · refine ⟨.found (p.slot c), fun n hn => ?_, Or.inl ⟨c, q, hq, ⟨haddr, hsame⟩, rfl⟩⟩
        obtain ⟨n, rfl⟩ : ∃ k, n = k + 1 := ⟨n - 1, by omega⟩
        rw [scanBackward_turn n hin hget, if_neg (not_not.mpr haddr), if_pos hsame,
          Place.before_succ]
      · obtain ⟨out, hrun, hout⟩ := ih (by omega) (by omega) fun j r hj => hle j r (by omega)
        refine ⟨out, fun n hn => ?_, hout.imp_right fun ⟨hnew, hstop⟩ => ⟨fun j r haj hj hr => ?_,
          hstop⟩⟩
        · obtain ⟨n, rfl⟩ : ∃ k, n = k + 1 := ⟨n - 1, by omega⟩
          rw [scanBackward_turn n hin hget, if_neg (not_not.mpr haddr), if_neg hsame,
            Place.before_succ]
          exact hrun n (by omega)
        · rcases Nat.eq_or_lt_of_le (Nat.le_of_lt_succ hj) with rfl | hlt'
          · obtain rfl : q = r := Option.some.inj (hq.symm.trans hr)
            exact fun hid => hsame hid.2
          · exact hnew j r haj hlt' hr
    · -- All slots in front hold smaller addresses.
      refine ⟨.stopped, fun n hn => ?_, Or.inr ⟨fun j r _ hj hr hid => haddr ?_, rfl⟩⟩
      · obtain ⟨n, rfl⟩ : ∃ k, n = k + 1 := ⟨n - 1, by omega⟩
        rw [scanBackward_turn n hin hget, if_pos haddr]
      · have := z.logAddr_le (Nat.le_of_lt_succ hj) hr hq
        have := hle c q (by omega) hq
        have := hid.1
        omega

/-- The search forwards from `c` has found an identical request, or has met all up to `k` that could
be one. -/
theorem scanForward_spec (hside : p.OneSide) {b : Nat} (hb : b + 1 ≤ p.slots) :
    ∀ m c, c + m = b → ∃ out,
      (∀ n > m, x.scanForward z.get (p.before (b + 1)) n (p.slot c) = some out) ∧
      ((∃ k q, z.requests[k]? = some q ∧ x.Identical q ∧ out = (true, p.slot k)) ∨
        ∃ k, c < k ∧ k ≤ b + 1 ∧ out = (false, p.slot k) ∧
          (∀ j q, c < j → j < k → z.requests[j]? = some q →
            q.logAddr = x.logAddr ∧ ¬x.Identical q) ∧
          ∀ q, k < b + 1 → z.requests[k]? = some q → q.logAddr ≠ x.logAddr) := by
  intro m
  induction m with
  | zero =>
    intro c hc
    obtain rfl : c = b := by omega
    refine ⟨(false, p.slot (c + 1)), fun n hn => ?_, Or.inr ⟨c + 1, by omega, le_rfl, rfl,
      fun j q _ hj => by omega, fun q hj => by omega⟩⟩
    obtain ⟨n, rfl⟩ : ∃ k, n = k + 1 := ⟨n - 1, by omega⟩
    rw [SchedArgs.scanForward]
    simp only [Place.slot_succ]
    exact if_pos ((Place.before_lt hside hb (by omega)).mpr (by omega))
  | succ m ih =>
    intro c hc
    have hin : ¬p.before (b + 1) < p.slot (c + 1) := by
      rw [Place.before_lt hside (by omega) (by omega)]
      omega
    obtain ⟨q, hq, hget⟩ := z.exists_request (show c + 1 < p.slots by omega)
    by_cases haddr : q.logAddr = x.logAddr
    · by_cases hsame : x.Same q
      · refine ⟨(true, p.slot (c + 1)), fun n hn => ?_,
          Or.inl ⟨c + 1, q, hq, ⟨haddr, hsame⟩, rfl⟩⟩
        obtain ⟨n, rfl⟩ : ∃ k, n = k + 1 := ⟨n - 1, by omega⟩
        rw [scanForward_turn n hin hget, if_neg (not_not.mpr haddr), if_pos hsame]
      · obtain ⟨out, hrun, hout⟩ := ih (c + 1) (by omega)
        refine ⟨out, fun n hn => ?_, hout.imp_right fun ⟨k, hck, hkb, ho, hmid, hend⟩ =>
          ⟨k, by omega, hkb, ho, fun j r hcj hjk hr => ?_, hend⟩⟩
        · obtain ⟨n, rfl⟩ : ∃ k, n = k + 1 := ⟨n - 1, by omega⟩
          rw [scanForward_turn n hin hget, if_neg (not_not.mpr haddr), if_neg hsame]
          exact hrun n (by omega)
        · rcases Nat.eq_or_lt_of_le (Nat.succ_le_of_lt hcj) with rfl | hlt
          · obtain rfl : q = r := Option.some.inj (hq.symm.trans hr)
            exact ⟨haddr, fun hid => hsame hid.2⟩
          · exact hmid j r hlt hjk hr
    · refine ⟨(false, p.slot (c + 1)), fun n hn => ?_, Or.inr ⟨c + 1, by omega, by omega, rfl,
        fun j r _ hj => by omega, fun r _ hr => ?_⟩⟩
      · obtain ⟨n, rfl⟩ : ∃ k, n = k + 1 := ⟨n - 1, by omega⟩
        rw [scanForward_turn n hin hget, if_pos haddr]
      · obtain rfl : q = r := Option.some.inj (hq.symm.trans hr)
        exact haddr

/-- What is known at the beginning of a turn: the requests in front of `a` are below the wanted one,
those from `b` on are above it. -/
structure Narrowed (x : SchedArgs) (z : Zone p) (a b : Nat) : Prop where
  le : a ≤ b
  inside : b ≤ p.slots
  low : ∀ j q, j < a → z.requests[j]? = some q → q.logAddr < x.logAddr
  high : ∀ j q, b ≤ j → z.requests[j]? = some q → x.logAddr < q.logAddr

theorem Narrowed.all (x : SchedArgs) (z : Zone p) : Narrowed x z 0 p.slots where
  le := Nat.zero_le _
  inside := le_rfl
  low _ _ hj _ := absurd hj (by omega)
  high _ _ hle hq := absurd (z.lt_slots hq) (by omega)

variable {a b c : Nat} {q : IoRequest}

theorem Narrowed.smaller (h : Narrowed x z a b) (hcb : c < b) (hq : z.requests[c]? = some q)
    (hlt : q.logAddr < x.logAddr) : Narrowed x z (c + 1) b where
  le := hcb
  inside := h.inside
  low _ _ hj hr := (z.logAddr_le (Nat.le_of_lt_succ hj) hr hq).trans_lt hlt
  high := h.high

theorem Narrowed.bigger (h : Narrowed x z a b) (hac : a ≤ c) (hcb : c < b)
    (hq : z.requests[c]? = some q) (hlt : x.logAddr < q.logAddr) : Narrowed x z a c where
  le := hac
  inside := hcb.le.trans h.inside
  low := h.low
  high _ _ hj hr := hlt.trans_le (z.logAddr_le hj hq hr)

theorem Narrowed.empty (h : Narrowed x z b b) : Fits x z b where
  inside := h.inside
  before j q hj hq := (h.low j q hj hq).le
  behind j q hj hq := (h.high j q hj hq).le
  new q hq hid := by
    obtain ⟨j, hj⟩ := List.mem_iff_getElem?.mp hq
    have := hid.1
    rcases Nat.lt_or_ge j b with hlt | hge
    · have := h.low j q hlt hj
      omega
    · have := h.high j q hge hj
      omega

/-- Both scans from `c` have met nothing identical. -/
theorem Narrowed.scanned (h : Narrowed x z a b) (hq : z.requests[c]? = some q)
    (haddr : q.logAddr = x.logAddr) (hsame : ¬x.Same q)
    (hback : ∀ j r, a ≤ j → j < c → z.requests[j]? = some r → ¬x.Identical r) {k : Nat}
    (hck : c < k) (hkb : k ≤ b)
    (hmid : ∀ j r, c < j → j < k → z.requests[j]? = some r →
      r.logAddr = x.logAddr ∧ ¬x.Identical r)
    (hend : ∀ r, k < b → z.requests[k]? = some r → r.logAddr ≠ x.logAddr) : Fits x z k := by
  have hhigh : ∀ j r, k ≤ j → z.requests[j]? = some r → x.logAddr < r.logAddr := by
    intro j r hkj hr
    rcases Nat.lt_or_ge k b with hlt | hge
    · obtain ⟨s, hs, -⟩ := z.exists_request (hlt.trans_le h.inside)
      have := hend s hlt hs
      have := z.logAddr_le hck.le hq hs
      have := z.logAddr_le hkj hs hr
      omega
    · exact h.high j r (by omega) hr
  refine ⟨hkb.trans h.inside, fun j r hj hr => ?_, fun j r hj hr => (hhigh j r hj hr).le,
    fun r hr hid => ?_⟩
  · rcases Nat.lt_or_ge c j with hlt | hge
    · exact (hmid j r hlt hj hr).1.le
    · exact (z.logAddr_le hge hr hq).trans haddr.le
  · obtain ⟨j, hj⟩ := List.mem_iff_getElem?.mp hr
    have := hid.1
    rcases Nat.lt_trichotomy c j with hlt | rfl | hgt
    · rcases Nat.lt_or_ge j k with hjk | hkj
      · exact (hmid j r hlt hjk hj).2 hid
      · have := hhigh j r hkj hj
        omega
    · obtain rfl : q = r := Option.some.inj (hq.symm.trans hj)
      exact hsame hid.2
    · rcases Nat.lt_or_ge j a with hja | haj
      · have := h.low j r hja hj
        omega
      · exact hback j r haj hgt hj hid

/-- A turn at a request with the wanted address is the last one. -/
theorem searchLoop_met (hside : p.OneSide) (h : Narrowed x z a b) (hac : a ≤ c) (hcb : c < b)
    (hq : z.requests[c]? = some q) (haddr : q.logAddr = x.logAddr) (next : Nat) :
    ∃ r, Finds x z r ∧ ∀ n > b - a,
      x.searchLoop z.get n (p.slot a) (p.before b) (p.slot c) next = some r := by
  have hin : ¬offsLt (p.before b) (p.slot a) := by
    rw [Place.offsLt_before hside (by have := h.inside; omega) h.inside]
    omega
  have hget := z.get_slot c q hq
  by_cases hsame : x.Same q
  · refine ⟨_, finds_identical hq ⟨haddr, hsame⟩, fun n hn => ?_⟩
    obtain ⟨n, rfl⟩ : ∃ k, n = k + 1 := ⟨n - 1, by omega⟩
    rw [SchedArgs.searchLoop]
    simp only [if_neg hin, hget, haddr, lt_irrefl, if_false, if_pos hsame]
  obtain ⟨out, hrun, hout⟩ := scanBackward_spec (x := x) (z := z) hside c hac
    (hcb.le.trans h.inside) fun j r hj hr => (z.logAddr_le hj.le hr hq).trans haddr.le
  rcases hout with ⟨k, r, hr, hid, rfl⟩ | ⟨hback, rfl⟩
  · refine ⟨_, finds_identical hr hid, fun n hn => ?_⟩
    obtain ⟨n, rfl⟩ : ∃ k, n = k + 1 := ⟨n - 1, by omega⟩
    rw [SchedArgs.searchLoop]
    simp only [if_neg hin, hget, haddr, lt_irrefl, if_false, if_neg hsame, hrun n (by omega)]
  obtain ⟨d, rfl⟩ := Nat.exists_eq_succ_of_ne_zero (show b ≠ 0 by omega)
  obtain ⟨out, hrun', hout⟩ := scanForward_spec (x := x) (z := z) hside h.inside (d - c) c (by omega)
  have hend : ∀ n > d + 1 - a,
      x.searchLoop z.get n (p.slot a) (p.before (d + 1)) (p.slot c) next = some out := by
    intro n hn
    obtain ⟨n, rfl⟩ : ∃ k, n = k + 1 := ⟨n - 1, by omega⟩
    rw [SchedArgs.searchLoop]
    simp only [if_neg hin, hget, haddr, lt_irrefl, if_false, if_neg hsame, hrun n (by omega)]
    exact hrun' n (by omega)
  rcases hout with ⟨k, r, hr, hid, rfl⟩ | ⟨k, hck, hkb, rfl, hmid, hlast⟩
  · exact ⟨_, finds_identical hr hid, hend⟩
  · exact ⟨_, (h.scanned hq haddr hsame hback hck hkb hmid hlast).finds, hend⟩

/-- By induction on the number of slots that are left. -/
theorem searchLoop_spec (hside : p.OneSide) : ∀ m a b check, b - a ≤ m → Narrowed x z a b →
    (a < b → ∃ c, a ≤ c ∧ c < b ∧ check = p.slot c) →
    ∃ r, Finds x z r ∧ ∀ n > b - a,
      x.searchLoop z.get n (p.slot a) (p.before b) check (p.slot b) = some r := by
  intro m
  induction m with
  | zero =>
    intro a b check hm h _
    obtain rfl : a = b := by have := h.le; omega
    refine ⟨_, h.empty.finds, fun n hn => ?_⟩
    obtain ⟨n, rfl⟩ : ∃ k, n = k + 1 := ⟨n - 1, by omega⟩
    rw [SchedArgs.searchLoop]
    exact if_pos ((Place.offsLt_before hside h.inside h.inside).mpr le_rfl)
  | succ m ih =>
    intro a b check hm h hcheck
    rcases Nat.eq_or_lt_of_le h.le with rfl | hab
    · exact ih a a check (by omega) h fun hlt => absurd hlt (by omega)
    obtain ⟨c, hac, hcb, rfl⟩ := hcheck hab
    have hbn := h.inside
    obtain ⟨q, hq, hget⟩ := z.exists_request (hcb.trans_le hbn)
    have hin : ¬offsLt (p.before b) (p.slot a) := by
      rw [Place.offsLt_before hside (by omega) hbn]
      omega
    have hmiddle : ∀ a' b', a' < b' → b' ≤ p.slots → ∃ c', a' ≤ c' ∧ c' < b' ∧
        SchedArgs.middle (p.slot a') (p.before b') = p.slot c' := fun a' b' hlt hle =>
      ⟨a' + (b' - a' - 1) / 2, by omega, by omega, Place.middle_eq hside hlt hle⟩
    rcases Nat.lt_trichotomy q.logAddr x.logAddr with hlt | heq | hgt
    · obtain ⟨r, hr, hrun⟩ := ih (c + 1) b (SchedArgs.middle (p.slot (c + 1)) (p.before b))
        (by omega) (h.smaller hcb hq hlt) fun hlt' => hmiddle _ _ hlt' hbn
      refine ⟨r, hr, fun n hn => ?_⟩
      obtain ⟨n, rfl⟩ : ∃ k, n = k + 1 := ⟨n - 1, by omega⟩
      rw [SchedArgs.searchLoop]
      simp only [if_neg hin, hget, if_pos hlt, Place.slot_succ]
      exact hrun n (by omega)
    · exact searchLoop_met hside h hac hcb hq heq _
    · obtain ⟨r, hr, hrun⟩ := ih a c (SchedArgs.middle (p.slot a) (p.before c))
        (by omega) (h.bigger hac hcb hq hgt) fun hlt' => hmiddle _ _ hlt' (by omega)
      refine ⟨r, hr, fun n hn => ?_⟩
      obtain ⟨n, rfl⟩ : ∃ k, n = k + 1 := ⟨n - 1, by omega⟩
      rw [SchedArgs.searchLoop]
      simp only [if_neg hin, hget, if_neg (Nat.lt_asymm hgt), if_pos hgt]
      exact hrun n (by omega)

/-- The first turn is at the hint, or in the middle. -/
theorem exists_start (hside : p.OneSide) {check : Nat} (hint : p.Hint check) (hlt : 0 < p.slots) :
    ∃ c, 0 ≤ c ∧ c < p.slots ∧
      (if check < p.first ∨ p.before p.slots < check then
        SchedArgs.middle p.first (p.before p.slots) else check) = p.slot c := by
  split_ifs with hout
  · refine ⟨0 + (p.slots - 0 - 1) / 2, by omega, by omega, ?_⟩
    rw [← Place.middle_eq hside hlt le_rfl, Place.slot_zero]
  · rcases hint with h | h | ⟨k, hk, rfl⟩
    · exact absurd (Or.inl h) hout
    · exact absurd (Or.inr h) hout
    · refine ⟨k, Nat.zero_le k, Nat.lt_of_le_of_ne hk ?_, rfl⟩
      rintro rfl
      obtain ⟨d, hd⟩ := Nat.exists_eq_succ_of_ne_zero (show p.slots ≠ 0 by omega)
      refine hout (Or.inr ?_)
      rw [hd, Place.before_lt hside (by omega) (by omega)]
      omega

theorem binarySearch_spec (hside : p.OneSide) {check : Nat} (hint : p.Hint check) :
    ∃ r, Finds x z r ∧ ∀ n > p.slots,
      x.binarySearch z.get n p.first (p.before p.slots) check (p.slot p.slots) = some r := by
  obtain ⟨r, hr, hrun⟩ := searchLoop_spec (x := x) (z := z) hside p.slots 0 p.slots _ (by omega)
    (Narrowed.all x z) (exists_start hside hint)
  rw [Place.slot_zero] at hrun
  exact ⟨r, hr, fun n hn => hrun n (by omega)⟩

theorem searches_of_oneSide (hside : p.OneSide) : Searches p := by
  intro x z check hint
  obtain ⟨r, hr, hrun⟩ := binarySearch_spec (x := x) (z := z) hside hint
  obtain ⟨s, hs, hrun'⟩ := linearSearch_spec (x := x) (z := z) hside hint
  refine ⟨r, s, hr, hs, ?_, fun n hn => ⟨hrun n hn, hrun' n hn⟩⟩
  rw [Bool.eq_iff_iff, hr.1, hs.1]

end IoSched

end Athomux
