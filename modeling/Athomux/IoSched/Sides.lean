import Athomux.IoSched.Search

/-!
# Where the searches of the elevator go wrong

The loop compares addresses as signed numbers, the hint and the end of the search forwards are
compared as unsigned ones.
-/

open Lib

namespace Athomux

open IoQueue

namespace IoSched

variable {p : Place}

/-! ## Zones for a place -/

/-- Which slot of the place an address is, if it is one. -/
def Place.index (p : Place) (addr : Nat) : Nat := sub64 addr p.first / ioqueueRequestSize

theorem Place.index_slot {k : Nat} (hk : ioqueueRequestSize * k < addrSpace) :
    p.index (p.slot k) = k := by
  have := p.first_lt
  simp only [addrSpace, ioqueueRequestSize] at this hk
  simp only [Place.index, Place.slot, sub64, add64, addrSpace, ioqueueRequestSize]
  omega

/-- The slots hold the requests `f`, and the other addresses hold `out`. -/
def Place.store (p : Place) (f : Nat → IoRequest) (out : Nat → Option IoRequest) (addr : Nat) :
    Option IoRequest :=
  if p.index addr < p.slots then some (f (p.index addr)) else out addr

def Place.contents (p : Place) (f : Nat → IoRequest) : List IoRequest :=
  (List.range p.slots).map f

variable {f : Nat → IoRequest} {out : Nat → Option IoRequest}

theorem store_slot {k : Nat} (hk : k < p.slots) : p.store f out (p.slot k) = some (f k) := by
  have hfits := p.fits
  have hindex : p.index (p.slot k) = k := Place.index_slot (by
    rw [ioqueueRequestSize] at hfits ⊢
    omega)
  rw [Place.store, hindex, if_pos hk]

theorem store_outside {addr : Nat} (h : p.slots ≤ p.index addr) :
    p.store f out addr = out addr := if_neg (Nat.not_lt.mpr h)

theorem contents_length : (p.contents f).length = p.slots := by
  rw [Place.contents, List.length_map, List.length_range]

theorem store_contents (k : Nat) (r : IoRequest) (h : (p.contents f)[k]? = some r) :
    p.store f out (p.slot k) = some r := by
  obtain ⟨hk, rfl⟩ := List.getElem?_eq_some_iff.mp h
  rw [store_slot (contents_length ▸ hk)]
  simp only [Place.contents, List.getElem_map, List.getElem_range]

theorem contents_sorted (hf : ∀ i j, i ≤ j → (f i).logAddr ≤ (f j).logAddr) :
    ((p.contents f).map (·.logAddr)).Pairwise (· ≤ ·) := by
  rw [Place.contents, List.pairwise_map, List.pairwise_map]
  exact List.pairwise_lt_range.imp fun h => hf _ _ h.le

/-- The zone with the requests `f`. -/
def Place.zone (p : Place) (f : Nat → IoRequest)
    (hf : ∀ i j, i ≤ j → (f i).logAddr ≤ (f j).logAddr) (out : Nat → Option IoRequest) : Zone p :=
  ⟨p.store f out, p.contents f, contents_length, store_contents, contents_sorted hf⟩

theorem zone_slot {hf : ∀ i j, i ≤ j → (f i).logAddr ≤ (f j).logAddr} {k : Nat} (hk : k < p.slots) :
    (p.zone f hf out).get (p.slot k) = some (f k) := store_slot hk

theorem zone_outside {hf : ∀ i j, i ≤ j → (f i).logAddr ≤ (f j).logAddr} {addr : Nat}
    (h : p.slots ≤ p.index addr) : (p.zone f hf out).get addr = out addr := store_outside h

/-! ## Requests -/

def probe : SchedArgs := ⟨1, 8, 4096, .read, .normal⟩

def request (logAddr logLen : Nat) : IoRequest :=
  ⟨logAddr, logLen, 4096, .read, .normal, 0, none⟩

theorem identical_iff (addr len : Nat) :
    probe.Identical (request addr len) ↔ addr = 1 ∧ len = 8 := by
  simp [SchedArgs.Identical, SchedArgs.Same, probe, request]

/-- All requests are identical. -/
def Place.full (p : Place) : Zone p := p.zone (fun _ => request 1 8) (fun _ _ _ => le_rfl) fun _ => none

theorem finds_full (hne : 0 < p.slots) {r : Bool × Nat} (h : Finds probe p.full r) :
    r.1 = true :=
  h.1.mpr ⟨request 1 8, List.mem_map.mpr ⟨0, List.mem_range.mpr hne, rfl⟩,
    (identical_iff 1 8).mpr ⟨rfl, rfl⟩⟩

theorem hint_slot (p : Place) {k : Nat} (hk : k ≤ p.slots) : p.Hint (p.slot k) :=
  Or.inr (Or.inr ⟨k, hk, rfl⟩)

/-! ## The signs of the addresses -/

/-- `linear_search` does without a zone whose last address is below its first one. -/
theorem not_searches_of_lt (hne : 0 < p.slots) (hlt : p.before p.slots < p.first) :
    ¬Searches p := by
  intro h
  obtain ⟨r, s, -, hs, -, hrun⟩ := h probe p.full _ (hint_slot p hne.le)
  have hlinear := (hrun _ (Nat.lt_succ_self _)).2
  rw [SchedArgs.linearSearch, if_neg (Nat.not_le.mpr hlt)] at hlinear
  obtain rfl := Option.some.inj hlinear
  exact absurd (finds_full hne hs) (by simp)

/-- `binary_search` does without a zone whose last address is below its first one when they are
signed. -/
theorem not_searches_of_offsLt (hne : 0 < p.slots) (hlt : offsLt (p.before p.slots) p.first) :
    ¬Searches p := by
  intro h
  obtain ⟨r, s, hr, -, -, hrun⟩ := h probe p.full _ (hint_slot p hne.le)
  have hbinary := (hrun _ (Nat.lt_succ_self _)).1
  rw [SchedArgs.binarySearch, SchedArgs.searchLoop, if_pos hlt] at hbinary
  obtain rfl := Option.some.inj hbinary
  exact absurd (finds_full hne hr) (by simp)

/-- With no slots left, the search goes on when the first address is the lowest signed one. -/
theorem searchLoop_lost {x : SchedArgs} {get : Nat → Option IoRequest} {first : Nat} (n next : Nat)
    (hlow : 2 ^ 63 ≤ first) (hhigh : first < 2 ^ 63 + ioqueueRequestSize)
    (hget : get (first - 2 ^ 63 + (2 ^ 64 - ioqueueRequestSize)) = none) :
    x.searchLoop get (n + 1) first (sub64 first ioqueueRequestSize)
      (SchedArgs.middle first (sub64 first ioqueueRequestSize)) next = none := by
  rw [ioqueueRequestSize] at hhigh hget
  have hin : ¬offsLt (sub64 first ioqueueRequestSize) first := by
    simp only [offsLt, add64, sub64, addrSpace, ioqueueRequestSize]
    omega
  have hmiddle : SchedArgs.middle first (sub64 first ioqueueRequestSize) =
      first - 2 ^ 63 + (2 ^ 64 - 64) := by
    simp only [SchedArgs.middle, add64, sub64, addrSpace, ioqueueRequestSize]
    omega
  rw [SchedArgs.searchLoop, if_neg hin, hmiddle, hget]

/-- All requests are at one address, and there is nothing at other slots. -/
def Place.level (p : Place) (addr : Nat) : Zone p :=
  p.zone (fun _ => request addr 8) (fun _ _ _ => le_rfl) fun _ => none

/-- An empty zone at the lowest signed address. -/
theorem not_searches_empty (hzero : p.slots = 0) (hlow : 2 ^ 63 ≤ p.first)
    (hhigh : p.first < 2 ^ 63 + ioqueueRequestSize) : ¬Searches p := by
  intro h
  obtain ⟨r, s, -, -, -, hrun⟩ := h probe (p.level 0) _ (hint_slot p (Nat.zero_le _))
  have hbinary := (hrun (p.slots + 1) (Nat.lt_succ_self _)).1
  have hlast : p.before p.slots = sub64 p.first ioqueueRequestSize := by
    rw [hzero, Place.before, Place.slot_zero]
  have hout : p.slot 0 < p.first ∨ p.before p.slots < p.slot 0 := by
    rw [ioqueueRequestSize] at hhigh
    rw [hlast, Place.slot_zero]
    simp only [sub64, addrSpace, ioqueueRequestSize]
    omega
  rw [SchedArgs.binarySearch, if_pos hout, hlast, searchLoop_lost _ _ hlow hhigh
    (zone_outside (hzero ▸ Nat.zero_le _))] at hbinary
  exact absurd hbinary (by simp)

/-- The search goes on behind the last slot when the address there is the lowest signed one. -/
theorem not_searches_behind {d : Nat} (hd : p.slots = d + 1) (hle : p.first ≤ p.slot d)
    (hsigned : ¬offsLt (p.slot d) p.first) (hlow : 2 ^ 63 ≤ p.slot (d + 1))
    (hhigh : p.slot (d + 1) < 2 ^ 63 + ioqueueRequestSize)
    (hout : p.slots ≤ p.index (p.slot (d + 1) - 2 ^ 63 + (2 ^ 64 - ioqueueRequestSize))) :
    ¬Searches p := by
  intro h
  obtain ⟨r, s, -, -, -, hrun⟩ := h probe (p.level 0) _ (hint_slot p (show d ≤ p.slots by omega))
  have hbinary := (hrun (p.slots + 2) (by omega)).1
  have hlast : p.before p.slots = p.slot d := by rw [hd, Place.before_succ]
  have hin : ¬(p.slot d < p.first ∨ p.slot d < p.slot d) := by omega
  have hget : (p.level 0).get (p.slot d) = some (request 0 8) := zone_slot (by omega)
  have hlt : (request 0 8).logAddr < probe.logAddr := Nat.zero_lt_one
  have hnone : (p.level 0).get
      (p.slot (d + 1) - 2 ^ 63 + (2 ^ 64 - ioqueueRequestSize)) = none := zone_outside hout
  have hlost := searchLoop_lost (x := probe) p.slots (p.slot p.slots) hlow hhigh hnone
  rw [← Place.before, Place.before_succ] at hlost
  rw [SchedArgs.binarySearch, hlast, if_neg hin, SchedArgs.searchLoop, if_neg hsigned, hget]
    at hbinary
  simp only [if_pos hlt, Place.slot_succ, hlost] at hbinary
  exact absurd hbinary (by simp)

/-- The search goes on in front of the first slot when that is the lowest signed address. -/
theorem not_searches_front (hne : 0 < p.slots) (hle : p.first ≤ p.before p.slots)
    (hsigned : ¬offsLt (p.before p.slots) p.first) (hlow : 2 ^ 63 ≤ p.first)
    (hhigh : p.first < 2 ^ 63 + ioqueueRequestSize)
    (hout : p.slots ≤ p.index (p.first - 2 ^ 63 + (2 ^ 64 - ioqueueRequestSize))) :
    ¬Searches p := by
  intro h
  obtain ⟨r, s, -, -, -, hrun⟩ := h probe (p.level 2) _ (hint_slot p hne.le)
  have hbinary := (hrun (p.slots + 2) (by omega)).1
  have hin : ¬(p.slot 0 < p.first ∨ p.before p.slots < p.slot 0) := by
    rw [Place.slot_zero]
    omega
  have hget : (p.level 2).get p.first = some (request 2 8) := by
    rw [← Place.slot_zero]
    exact zone_slot hne
  have hgt : probe.logAddr < (request 2 8).logAddr := Nat.one_lt_two
  have hnone : (p.level 2).get (p.first - 2 ^ 63 + (2 ^ 64 - ioqueueRequestSize)) = none :=
    zone_outside hout
  have hlost := searchLoop_lost (x := probe) p.slots p.first hlow hhigh hnone
  rw [SchedArgs.binarySearch, if_neg hin, Place.slot_zero, SchedArgs.searchLoop, if_neg hsigned,
    hget] at hbinary
  simp only [if_neg (Nat.lt_asymm hgt), if_pos hgt, hlost] at hbinary
  exact absurd hbinary (by simp)

/-! ## The end of the address space -/

/-- The last request is at the wanted address, those in front of it are below. -/
def Place.ascending (d k : Nat) : IoRequest := if k < d then request 0 8 else request 1 16

theorem ascending_mono (d : Nat) (i j : Nat) (hij : i ≤ j) :
    (Place.ascending d i).logAddr ≤ (Place.ascending d j).logAddr := by
  unfold Place.ascending
  split_ifs with hi hj
  · exact le_rfl
  · exact Nat.zero_le 1
  · omega
  · exact le_rfl

/-- Behind the last slot there is an identical request of another zone. -/
def Place.followed (p : Place) (d : Nat) : Zone p :=
  p.zone (Place.ascending d) (ascending_mono d) fun addr =>
    some (if addr = p.slot (d + 1) then request 1 8 else request 0 8)

theorem followed_low {d k : Nat} (hd : p.slots = d + 1) (hk : k < d) :
    (p.followed d).get (p.slot k) = some (request 0 8) := by
  refine (zone_slot (by omega)).trans ?_
  rw [Place.ascending, if_pos hk]

/-- There is nothing at the wanted address in front of the last slot. -/
theorem followed_before {d : Nat} (hd : p.slots = d + 1)
    (hslot : p.slot d = p.first + ioqueueRequestSize * d) (hlow : 2 ^ 63 ≤ p.first) :
    (p.followed d).get (p.before d) = some (request 0 8) := by
  cases d with
  | zero =>
    have hfirst := p.first_lt
    rw [addrSpace] at hfirst
    refine (zone_outside ?_).trans ?_
    · rw [hd, Place.before, hslot]
      simp only [Place.index, sub64, addrSpace, ioqueueRequestSize]
      omega
    · rw [if_neg]
      rw [← Place.slot_succ, Place.before, hslot]
      simp only [sub64, add64, addrSpace, ioqueueRequestSize]
      omega
  | succ d =>
    rw [Place.before_succ]
    exact followed_low hd (Nat.lt_succ_self d)

/-- The search forwards goes on at zero. -/
theorem not_searches_end {d : Nat} (hd : p.slots = d + 1)
    (hslot : p.slot d = p.first + ioqueueRequestSize * d)
    (hsigned : ¬offsLt (p.slot d) p.first) (hlow : 2 ^ 63 ≤ p.first)
    (hend : addrSpace ≤ p.slot d + ioqueueRequestSize) : ¬Searches p := by
  intro h
  have hlt : p.slot d < addrSpace := add64_lt _ _
  obtain ⟨r, s, hr, -, -, hrun⟩ := h probe (p.followed d) _ (hint_slot p (show d ≤ p.slots by omega))
  have hbinary := (hrun (p.slots + 2) (by omega)).1
  have hlast : p.before p.slots = p.slot d := by rw [hd, Place.before_succ]
  have hin : ¬(p.slot d < p.first ∨ p.slot d < p.slot d) := by
    rw [ioqueueRequestSize] at hslot
    omega
  have hget : (p.followed d).get (p.slot d) = some (request 1 16) := by
    refine (zone_slot (by omega)).trans ?_
    rw [Place.ascending, if_neg (Nat.lt_irrefl d)]
  have hback : probe.scanBackward (p.followed d).get p.first (p.slots + 1) (p.slot d) =
      some .stopped := by
    by_cases hstop : offsLt (p.before d) p.first
    · exact scanBackward_stop _ hstop
    · rw [scanBackward_turn _ hstop (followed_before hd hslot hlow)]
      exact if_pos Nat.zero_ne_one
  have hforward : probe.scanForward (p.followed d).get (p.slot d) (p.slots + 1) (p.slot d) =
      some (true, p.slot (d + 1)) := by
    have hnext : p.slot (d + 1) ≤ p.slot d := by
      rw [← Place.slot_succ]
      simp only [add64, addrSpace, ioqueueRequestSize] at hend hlt ⊢
      omega
    have hbehind : (p.followed d).get (p.slot (d + 1)) = some (request 1 8) := by
      refine (zone_outside ?_).trans (by rw [if_pos rfl])
      rw [Place.index_slot, hd]
      rw [addrSpace, ioqueueRequestSize] at *
      omega
    rw [scanForward_turn _ (Nat.not_lt.mpr hnext) hbehind]
    rfl
  rw [SchedArgs.binarySearch, hlast, if_neg hin, SchedArgs.searchLoop, if_neg hsigned, hget]
    at hbinary
  have haddr : (request 1 16).logAddr = probe.logAddr := rfl
  have hsame : ¬probe.Same (request 1 16) := fun hsame =>
    absurd ((identical_iff 1 16).mp ⟨haddr, hsame⟩).2 (by decide)
  simp only [haddr, lt_irrefl, if_false, if_neg hsame, hback, hforward] at hbinary
  obtain rfl := Option.some.inj hbinary
  obtain ⟨q, hq, hid⟩ := hr.1.mp rfl
  obtain ⟨k, -, rfl⟩ := List.mem_map.mp hq
  rw [Place.ascending] at hid
  split_ifs at hid
  · exact absurd ((identical_iff 0 8).mp hid).1 (by decide)
  · exact absurd ((identical_iff 1 16).mp hid).2 (by decide)

/-! ## The places of the searches -/

theorem not_searches (hside : ¬p.OneSide) : ¬Searches p := by
  have hfirst := p.first_lt
  have hfits := p.fits
  simp only [Place.OneSide, addrSpace, ioqueueRequestSize, not_or, not_and, not_lt] at hside hfirst hfits
  rcases Nat.eq_zero_or_pos p.slots with hzero | hne
  · exact not_searches_empty hzero (by omega) (by rw [ioqueueRequestSize]; omega)
  obtain ⟨d, hd⟩ := Nat.exists_eq_succ_of_ne_zero hne.ne'
  have hlast : p.before p.slots = p.slot d := by rw [hd, Place.before_succ]
  by_cases hlt : p.before p.slots < p.first
  · exact not_searches_of_lt hne hlt
  by_cases hsigned : offsLt (p.before p.slots) p.first
  · exact not_searches_of_offsLt hne hsigned
  have hslot : p.slot d = p.first + ioqueueRequestSize * d := by
    rw [hlast] at hlt
    revert hlt
    simp only [Place.slot, add64, addrSpace, ioqueueRequestSize]
    omega
  have hsame : p.first < 2 ^ 63 ↔ p.slot d < 2 ^ 63 := by
    rw [hlast] at hlt hsigned
    revert hsigned
    simp only [offsLt, add64, addrSpace]
    have : p.slot d < 2 ^ 64 := add64_lt _ _
    omega
  have hslot' : p.slot d = p.first + 64 * d := hslot
  rcases Nat.lt_or_ge p.first (2 ^ 63) with hhalf | hhalf
  · have hnext : p.slot (d + 1) = p.first + 64 * (d + 1) := by
      simp only [Place.slot, add64, addrSpace, ioqueueRequestSize]
      omega
    refine not_searches_behind hd (by omega) (hlast ▸ hsigned) (by omega)
      (by rw [ioqueueRequestSize]; omega) ?_
    rw [hnext]
    simp only [Place.index, sub64, addrSpace, ioqueueRequestSize]
    omega
  · rcases Nat.lt_or_ge (p.slot d + 64) (2 ^ 64) with hend | hend
    · refine not_searches_front hne (Nat.not_lt.mp hlt) hsigned hhalf
        (by rw [ioqueueRequestSize]; omega) ?_
      simp only [Place.index, sub64, addrSpace, ioqueueRequestSize]
      omega
    · exact not_searches_end hd hslot (hlast ▸ hsigned) hhalf hend

/-- **The searches of the elevator.** For every request and every hint, both searches find the request
in a sorted zone or a position for it exactly at the places whose addresses, from the one in front of
the zone to the one behind it, are on one side of the middle of the address space. -/
theorem searches_iff (p : Place) : Searches p ↔ p.OneSide :=
  ⟨fun h => by_contra fun hside => not_searches hside h, searches_of_oneSide⟩

/-- A place with a slot on each side. -/
def crossing : Place :=
  ⟨9223372036854775744, 2, Nat.lt_of_sub_pos (Nat.succ_pos _), Nat.le_of_sub_eq_zero rfl⟩

/-- Both slots hold the wanted request, the hint points to the first one, and the binary search does
not find it. -/
theorem crossing_missed :
    (∀ q ∈ crossing.full.requests, probe.Identical q) ∧
      (∀ n, probe.binarySearch crossing.full.get (n + 1) crossing.first
        (crossing.before crossing.slots) crossing.first (crossing.slot crossing.slots) =
          some (false, 9223372036854775872)) ∧
      ¬Searches crossing := by
  refine ⟨fun q hq => ?_, fun n => ?_, not_searches ?_⟩
  · obtain ⟨k, -, rfl⟩ := List.mem_map.mp hq
    exact (identical_iff 1 8).mpr ⟨rfl, rfl⟩
  · have hlt : offsLt (crossing.before crossing.slots) crossing.first := by decide
    rw [SchedArgs.binarySearch, SchedArgs.searchLoop, if_pos hlt]
    rfl
  · rintro (h | ⟨h, -⟩)
    · exact absurd h (by decide)
    · exact absurd h (by decide)

end IoSched

end Athomux
