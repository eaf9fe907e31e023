import Athomux.AdaptComplete.Spec

/-!
# When the loop does its work

As long as every call succeeds, or fails with nothing in `@phys_len`, the loop knows what it has. The
first failure that is taken for a success moves the arguments on without data.
-/

namespace Athomux.AdaptComplete

variable {req : Request} {replies : Nat → Reply} {s u : State} {n : Nat}

/-! ## Contiguous calls -/

/-- The address behind the calls. -/
def place (addr : Nat) (calls : List Call) : Nat := calls.foldl (fun a c => add64 a c.moved) addr

theorem place_snoc (addr : Nat) (calls : List Call) (c : Call) :
    place addr (calls ++ [c]) = add64 (place addr calls) c.moved := by
  simp [place]

theorem total_snoc (calls : List Call) (c : Call) : total (calls ++ [c]) = total calls + c.moved := by
  simp [total]

theorem contiguous_append {logAddr physAddr : Nat} {calls more : List Call} :
    Contiguous logAddr physAddr (calls ++ more) ↔ Contiguous logAddr physAddr calls ∧
      Contiguous (place logAddr calls) (place physAddr calls) more := by
  induction calls generalizing logAddr physAddr with
  | nil => simp [Contiguous, place]
  | cons c cs ih =>
    simp only [List.cons_append, Contiguous, ih, and_assoc]
    rfl

/-! ## The calls -/

theorem call_calls (s : State) (reply : Reply) :
    (s.call reply).calls = s.calls ++ [⟨s.logAddr, s.physAddr, reply.moved⟩] := by
  cases reply with
  | done len => rfl
  | fail physLen => cases physLen <;> rfl
  | clear => rfl

theorem call_physLen (s : State) (reply : Reply) :
    (s.call reply).physLen = reply.returned.getD s.physLen := by
  cases reply with
  | done len => rfl
  | fail physLen => cases physLen <;> rfl
  | clear => rfl

/-- The fields that a call leaves alone. -/
theorem call_kept (s : State) (reply : Reply) : (s.call reply).logAddr = s.logAddr ∧
    (s.call reply).logLen = s.logLen ∧ (s.call reply).physAddr = s.physAddr ∧
      (s.call reply).sum = s.sum := by
  cases reply with
  | done len => exact ⟨rfl, rfl, rfl, rfl⟩
  | fail physLen => cases physLen <;> exact ⟨rfl, rfl, rfl, rfl⟩
  | clear => exact ⟨rfl, rfl, rfl, rfl⟩

theorem turn_eq_some {reply : Reply} (h : req.turn s reply = some u) :
    s.sum < req.logLen ∧ (s.call reply).success = true ∧ u = (s.call reply).advance := by
  unfold Request.turn at h
  split at h
  · rename_i hlt
    split at h
    · rename_i hsuccess
      cases h
      exact ⟨hlt, hsuccess, rfl⟩
    · cases h
  · cases h

theorem turn_calls {reply : Reply} (h : req.turn s reply = some u) :
    u.calls = s.calls ++ [⟨s.logAddr, s.physAddr, reply.moved⟩] := by
  obtain ⟨-, -, rfl⟩ := turn_eq_some h
  exact call_calls s reply

/-- A turn is reached through the turns before it. -/
theorem before_le {k m : Nat} (hkm : k ≤ m) {v : State} (hv : req.before replies m = some v) :
    ∃ w, req.before replies k = some w := by
  induction m, hkm using Nat.le_induction generalizing v with
  | base => exact ⟨v, hv⟩
  | succ m _ ih =>
    obtain ⟨w, hw, -⟩ := Option.bind_eq_some_iff.mp hv
    exact ih hw

/-- What was called stays called. -/
theorem calls_extend {k m : Nat} {s u : State} (hkm : k ≤ m) (hs : req.before replies k = some s)
    (hu : req.before replies m = some u) : s.calls <+: u.calls := by
  induction m, hkm using Nat.le_induction generalizing u with
  | base =>
    rw [hs] at hu
    cases hu
    exact List.prefix_refl _
  | succ m _ ih =>
    obtain ⟨v, hv, hturn⟩ := Option.bind_eq_some_iff.mp hu
    rw [turn_calls hturn]
    exact (ih hv).trans (List.prefix_append _ _)

theorem leave_extends (req : Request) (s : State) (reply : Reply) :
    s.calls <+: (req.leave s reply).calls := by
  unfold Request.leave
  simp only
  split
  · rw [call_calls]
    exact List.prefix_append _ _
  · exact List.prefix_refl _

/-! ## The loop that knows what it has -/

structure Honest (req : Request) (replies : Nat → Reply) (n : Nat) (s : State) : Prop where
  contiguous : Contiguous req.logAddr req.physAddr s.calls
  logAddr : s.logAddr = place req.logAddr s.calls
  physAddr : s.physAddr = place req.physAddr s.calls
  sum : s.sum = movedBy replies n
  total : total s.calls = movedBy replies n
  rest : s.sum + s.logLen = req.logLen
  physLen : s.physLen = left req.physLen replies n
  success : s.success = decide (n ≠ 0)

theorem honest_start : Honest req replies 0 req.start where
  contiguous := trivial
  logAddr := rfl
  physAddr := rfl
  sum := rfl
  total := rfl
  rest := Nat.zero_add _
  physLen := rfl
  success := rfl

/-- The success that the loop sees behind a call. -/
theorem Honest.call_success (h : Honest req replies n s) :
    (s.call (replies n)).success = true ↔ ¬Noticed replies n := by
  unfold Noticed
  cases hr : replies n with
  | done len => simp [State.call]
  | fail physLen =>
    cases physLen with
    | none => simp [State.call, h.success]
    | some len => simp [State.call, h.success]
  | clear => simp [State.call]

theorem Honest.call_left (h : Honest req replies n s) :
    (s.call (replies n)).physLen = left req.physLen replies (n + 1) := by
  rw [call_physLen, h.physLen, left]

/-- A fine call moves all on by what it has transferred. -/
theorem Honest.next (h : Honest req replies n s) (hlen : req.logLen < addrSpace)
    (hmoved : (replies n).moved ≤ s.logLen)
    (hleft : left req.physLen replies (n + 1) = (replies n).moved)
    (hturn : req.turn s (replies n) = some u) : Honest req replies (n + 1) u := by
  have hcalls := turn_calls hturn
  obtain ⟨hlt, hsuccess, rfl⟩ := turn_eq_some hturn
  obtain ⟨hlog, hloglen, hphys, hsum⟩ := call_kept s (replies n)
  have hrest := h.rest
  have hadd : add64 s.sum (replies n).moved = s.sum + (replies n).moved := add64_eq (by omega)
  have hsub : sub64 s.logLen (replies n).moved = s.logLen - (replies n).moved :=
    sub64_eq hmoved (by omega)
  constructor
  · rw [hcalls, contiguous_append]
    exact ⟨h.contiguous, h.logAddr, h.physAddr, trivial⟩
  · rw [hcalls, place_snoc, ← h.logAddr, State.advance, hlog, h.call_left, hleft]
  · rw [hcalls, place_snoc, ← h.physAddr, State.advance, hphys, h.call_left, hleft]
  · rw [State.advance, hsum, h.call_left, hleft, hadd, movedBy, h.sum]
  · rw [hcalls, total_snoc, h.total, movedBy]
  · simp only [State.advance, hsum, hloglen, h.call_left, hleft, hadd, hsub]
    omega
  · exact h.call_left
  · simpa [State.advance] using hsuccess

theorem Honest.moved_le (h : req.Bounded replies) (hs : req.before replies n = some s)
    (hlt : s.sum < req.logLen) : (replies n).moved ≤ s.logLen := by
  cases hr : replies n with
  | done len => exact h n s len hs hlt (by rw [hr]; rfl)
  | fail physLen => exact Nat.zero_le _
  | clear => exact Nat.zero_le _

/-- What a fine call leaves in `@phys_len` is what it has transferred. -/
theorem left_of_fine (h : req.Fine replies n) :
    left req.physLen replies (n + 1) = (replies n).moved := by
  unfold Request.Fine at h
  cases hr : replies n with
  | done len => simp [left, hr, Reply.returned, Reply.moved]
  | fail physLen =>
    rw [hr] at h
    exact h.2
  | clear =>
    rw [hr] at h
    cases h

theorem not_noticed_of_fine (h : req.Fine replies n) : ¬Noticed replies n := by
  unfold Request.Fine at h
  unfold Noticed
  cases hr : replies n with
  | done len => simp
  | fail physLen =>
    rw [hr] at h
    exact h.1
  | clear =>
    rw [hr] at h
    cases h

/-! ## Finite work -/

theorem turn_noticed (h : Honest req replies n s) (hnoticed : Noticed replies n) :
    req.turn s (replies n) = none := by
  unfold Request.turn
  have hfail : ¬(s.call (replies n)).success = true := fun hs => h.call_success.mp hs hnoticed
  rw [if_neg hfail, ite_self]

theorem turn_full (h : s.sum = req.logLen) (reply : Reply) : req.turn s reply = none := by
  rw [Request.turn, if_neg (by omega)]

/-- The loop stays honest, or has all at some turn. -/
theorem honest_until (hlen : req.logLen < addrSpace) (hbound : req.Bounded replies) :
    ∀ n, (∀ k < n, req.Fine replies k) →
      (∃ s, req.before replies n = some s ∧ Honest req replies n s) ∨
        ∃ m s, req.before replies m = some s ∧ Honest req replies m s ∧ s.sum = req.logLen
  | 0, _ => Or.inl ⟨req.start, rfl, honest_start⟩
  | n + 1, hfine => by
    rcases honest_until hlen hbound n fun k hk => hfine k (by omega) with ⟨s, hs, hhonest⟩ | hfull
    · by_cases hlt : s.sum < req.logLen
      · have hfine' := hfine n (Nat.lt_succ_self n)
        have hsuccess := hhonest.call_success.mpr (not_noticed_of_fine hfine')
        have hturn : req.turn s (replies n) = some (s.call (replies n)).advance := by
          rw [Request.turn, if_pos hlt, if_pos hsuccess]
        refine Or.inl ⟨_, ?_, hhonest.next hlen (Honest.moved_le hbound hs hlt) (left_of_fine hfine') hturn⟩
        rw [Request.before, hs]
        exact hturn
      · have hrest := hhonest.rest
        exact Or.inr ⟨n, s, hs, hhonest, by omega⟩
    · exact Or.inr hfull

theorem completes_full (hs : req.before replies n = some s) (h : Honest req replies n s)
    (hfull : s.sum = req.logLen) : req.Completes replies := by
  have hcalls : (req.leave s (replies n)).calls = s.calls := by
    simp only [Request.leave, if_neg (show ¬s.sum < req.logLen by omega)]
  refine ⟨_, ⟨n, s, hs, turn_full hfull _, rfl⟩, ?_, ?_, ?_⟩
  · rw [hcalls]
    exact h.contiguous
  · rw [hcalls, h.total, ← h.sum]
    rfl
  · rw [hcalls, h.total, ← h.sum]
    exact decide_eq_true_iff

/-- A failure that is noticed ends the loop with what was transferred before. -/
theorem completes_noticed (hs : req.before replies n = some s) (h : Honest req replies n s)
    (hlt : s.sum < req.logLen) (hnoticed : Noticed replies n) : req.Completes replies := by
  have hmoved : (replies n).moved = 0 := by
    unfold Noticed at hnoticed
    cases hr : replies n with
    | done len =>
      rw [hr] at hnoticed
      cases hnoticed
    | fail physLen => rfl
    | clear => rfl
  have hcalls : (req.leave s (replies n)).calls = s.calls ++ [⟨s.logAddr, s.physAddr, 0⟩] := by
    simp only [Request.leave, if_pos hlt, call_calls, hmoved]
  have htotal : total (req.leave s (replies n)).calls = s.sum := by
    rw [hcalls, total_snoc, h.total, h.sum]
    rfl
  refine ⟨_, ⟨n, s, hs, turn_noticed h hnoticed, rfl⟩, ?_, ?_, ?_⟩
  · rw [hcalls, contiguous_append]
    exact ⟨h.contiguous, h.logAddr, h.physAddr, trivial⟩
  · rw [htotal]
    rfl
  · rw [htotal]
    exact decide_eq_true_iff

theorem completes_of_finite (hlen : req.logLen < addrSpace) (hbound : req.Bounded replies)
    (h : req.Finite replies) : req.Completes replies := by
  obtain ⟨n, hfine, hend⟩ := h
  rcases honest_until hlen hbound n hfine with ⟨s, hs, hhonest⟩ | ⟨m, s, hs, hhonest, hfull⟩
  · by_cases hlt : s.sum < req.logLen
    · have hnoticed : Noticed replies n := by
        refine hend.resolve_left fun hmoved => ?_
        have := hhonest.sum
        omega
      exact completes_noticed hs hhonest hlt hnoticed
    · have hrest := hhonest.rest
      exact completes_full hs hhonest (by omega)
  · exact completes_full hs hhonest hfull

/-! ## A failure that is not noticed -/

theorem add64_ne {a v : Nat} (hv : v ≠ 0) (hlt : v < addrSpace) : add64 a v ≠ add64 a 0 := by
  unfold add64 addrSpace at *
  omega

/-- A call that fails without notice behind another one, and leaves a length. -/
theorem not_honest (hlen : req.logLen < addrSpace) (h : Honest req replies n s)
    (hturn : req.turn s (replies n) = some u) (hmoved : (replies n).moved = 0)
    (hleft : left req.physLen replies (n + 1) ≠ 0)
    (hsmall : left req.physLen replies (n + 1) < addrSpace) {m : Nat} {v : State}
    (hu : req.before replies (n + 1) = some u) (hm : n + 1 ≤ m) (hv : req.before replies m = some v)
    (hcont : Contiguous req.logAddr req.physAddr (req.leave v (replies m)).calls)
    (hphys : (req.leave v (replies m)).physLen = total (req.leave v (replies m)).calls) : False := by
  have hcalls := turn_calls hturn
  obtain ⟨hlt, -, rfl⟩ := turn_eq_some hturn
  have haddr : (s.call (replies n)).advance.logAddr = add64 s.logAddr (left req.physLen replies (n + 1)) := by
    rw [State.advance, (call_kept s (replies n)).1, h.call_left]
  have hsum : (s.call (replies n)).advance.sum = add64 s.sum (left req.physLen replies (n + 1)) := by
    rw [State.advance, (call_kept s (replies n)).2.2.2, h.call_left]
  have hplace : place req.logAddr (s.call (replies n)).advance.calls = add64 s.logAddr 0 := by
    rw [hcalls, place_snoc, ← h.logAddr, hmoved]
  -- a further call is made behind the gap
  have hgap {moved : Nat} {calls : List Call} (hpre : (s.call (replies n)).advance.calls ++
      [⟨(s.call (replies n)).advance.logAddr, (s.call (replies n)).advance.physAddr, moved⟩] <+: calls)
      (hcalls : Contiguous req.logAddr req.physAddr calls) : False := by
    obtain ⟨more, rfl⟩ := hpre
    have hc := (contiguous_append.mp (contiguous_append.mp hcalls).1).2.1
    simp only at hc
    rw [haddr, hplace] at hc
    exact add64_ne hleft hsmall hc
  rcases Nat.eq_or_lt_of_le hm with rfl | hlater
  · rw [hu] at hv
    cases hv
    unfold Request.leave at hcont hphys
    simp only at hcont hphys
    split at hcont
    · rw [call_calls] at hcont
      exact hgap (List.prefix_refl _) hcont
    · rename_i hdone
      rw [if_neg hdone, hsum, hcalls, total_snoc, h.total, ← h.sum, hmoved] at hphys
      have hzero : add64 s.sum 0 = s.sum + 0 := add64_eq (by omega)
      exact add64_ne hleft hsmall (hphys.trans hzero.symm)
  · obtain ⟨w, hw⟩ := before_le hlater hv
    have hw' := hw
    rw [Request.before, hu, Option.bind_some] at hw'
    refine @hgap (replies (n + 1)).moved _ ?_ hcont
    rw [← turn_calls hw']
    exact (calls_extend hlater hw hv).trans (leave_extends _ _ _)

/-- A length that is left in `@phys_len` is one of a call. -/
theorem left_lt (hlen : req.logLen < addrSpace) (hbound : req.Bounded replies)
    (hs : req.before replies n = some s) (h : Honest req replies n s) (hlt : s.sum < req.logLen)
    (hleft : left req.physLen replies n < addrSpace) :
    left req.physLen replies (n + 1) < addrSpace := by
  rw [left]
  cases hr : (replies n).returned with
  | none => exact hleft
  | some len =>
    have hle := hbound n s len hs hlt hr
    have hrest := h.rest
    simp only [Option.getD_some]
    omega

/-- A turn that another one follows was fine, if all comes out right. -/
theorem fine_of_continued (hlen : req.logLen < addrSpace) (h : Honest req replies n s)
    (hturn : req.turn s (replies n) = some u)
    (hsmall : left req.physLen replies (n + 1) < addrSpace) {m : Nat} {v : State}
    (hu : req.before replies (n + 1) = some u) (hm : n + 1 ≤ m) (hv : req.before replies m = some v)
    (hcont : Contiguous req.logAddr req.physAddr (req.leave v (replies m)).calls)
    (hphys : (req.leave v (replies m)).physLen = total (req.leave v (replies m)).calls) :
    req.Fine replies n := by
  have hnoticed := h.call_success.mp (turn_eq_some hturn).2.1
  unfold Noticed at hnoticed
  unfold Request.Fine
  cases hr : replies n with
  | done len => trivial
  | fail physLen =>
    rw [hr] at hnoticed
    refine ⟨hnoticed, ?_⟩
    by_contra hleft
    exact not_honest hlen h hturn (by rw [hr]; rfl) hleft hsmall hu hm hv hcont hphys
  | clear =>
    rw [hr] at hnoticed
    exact hnoticed trivial

theorem finite_of_completes (hlen : req.logLen < addrSpace) (hphys : req.physLen < addrSpace)
    (hbound : req.Bounded replies) (h : req.Completes replies) : req.Finite replies := by
  obtain ⟨r, ⟨m, v, hv, hend, rfl⟩, hcont, hlast, -⟩ := h
  have hhonest : ∀ k ≤ m, (∀ j < k, req.Fine replies j) ∧ left req.physLen replies k < addrSpace ∧
      ∀ s, req.before replies k = some s → Honest req replies k s := by
    intro k
    induction k with
    | zero =>
      intro _
      refine ⟨fun j hj => absurd hj (Nat.not_lt_zero j), hphys, fun s hs => ?_⟩
      cases hs
      exact honest_start
    | succ k ih =>
      intro hk
      obtain ⟨hfine, hleft, hstate⟩ := ih (by omega)
      obtain ⟨u, hu⟩ := before_le hk hv
      obtain ⟨s, hs, hturn⟩ := Option.bind_eq_some_iff.mp hu
      have hs' := hstate s hs
      obtain ⟨hlt, hsuccess, -⟩ := turn_eq_some hturn
      have hsmall := left_lt hlen hbound hs hs' hlt hleft
      have hfine' : req.Fine replies k :=
        fine_of_continued hlen hs' hturn hsmall hu hk hv hcont hlast
      refine ⟨fun j hj => ?_, hsmall, fun u' hu' => ?_⟩
      · rcases Nat.lt_succ_iff_lt_or_eq.mp hj with hj | rfl
        · exact hfine j hj
        · exact hfine'
      · rw [hu] at hu'
        cases hu'
        exact hs'.next hlen (Honest.moved_le hbound hs hlt) (left_of_fine hfine') hturn
  obtain ⟨hfine, -, hstate⟩ := hhonest m (le_refl m)
  have hv' := hstate v hv
  refine ⟨m, hfine, ?_⟩
  by_cases hlt : v.sum < req.logLen
  · refine Or.inr ?_
    by_contra hnoticed
    rw [Request.turn, if_pos hlt, if_pos (hv'.call_success.mpr hnoticed)] at hend
    cases hend
  · have hrest := hv'.rest
    have hsum := hv'.sum
    exact Or.inl (by omega)

/-- **Completing.** For a device that returns at most what is asked for, the loop ends with the pieces
side by side, their length and the right success exactly when the device works in finitely many calls,
and no failure behind a success leaves a length without being noticed. -/
theorem completes_iff (hlen : req.logLen < addrSpace) (hphys : req.physLen < addrSpace)
    (hbound : req.Bounded replies) : req.Completes replies ↔ req.Finite replies :=
  ⟨finite_of_completes hlen hphys hbound, completes_of_finite hlen hbound⟩

/-- 20 bytes that come in two pieces. -/
theorem completes_pieces : (⟨0, 20, 4096, 0⟩ : Request).Completes
      (fun n => if n = 0 then .done 15 else .done 5) ↔
    (⟨0, 20, 4096, 0⟩ : Request).Finite (fun n => if n = 0 then .done 15 else .done 5) := by
  refine completes_iff (by decide) (by decide) fun n s len hs hlt hlen => ?_
  match n, hs with
  | 0, hs =>
    cases hs
    cases hlen
    decide
  | 1, hs =>
    obtain rfl : _ = s := Option.some.inj hs
    cases hlen
    decide
  | 2, hs =>
    obtain rfl : _ = s := Option.some.inj hs
    exact absurd hlt (by decide)
  | n + 3, hs =>
    obtain ⟨w, hw⟩ := before_le (show 3 ≤ n + 3 by omega) hs
    cases hw

/-- A device that answers 10 of 20 bytes, and then fails and leaves its arguments as they are. -/
def brokenOff : Nat → Reply := fun n => if n = 0 then .done 10 else .fail none

theorem brokenOff_bounded : (⟨0, 20, 4096, 0⟩ : Request).Bounded brokenOff := by
  intro n s len hs hlt hlen
  cases n with
  | zero =>
    cases hs
    cases hlen
    decide
  | succ n => cases hlen

theorem zeros_bounded : (⟨0, 20, 4096, 0⟩ : Request).Bounded fun _ => .done 0 := by
  intro n s len _ _ hlen
  cases hlen
  exact Nat.zero_le _

/-- The 10 bytes are counted again, and the request succeeds. A device that transfers nothing is called
forever. -/
theorem failure_not_noticed :
    ((⟨0, 20, 4096, 0⟩ : Request).Bounded brokenOff ∧
      (⟨0, 20, 4096, 0⟩ : Request).Ends brokenOff ⟨true, 20, [⟨0, 4096, 10⟩, ⟨10, 4106, 0⟩]⟩ ∧
        ¬(⟨0, 20, 4096, 0⟩ : Request).Completes brokenOff) ∧
    (⟨0, 20, 4096, 0⟩ : Request).Bounded (fun _ => .done 0) ∧
      ¬(⟨0, 20, 4096, 0⟩ : Request).Completes (fun _ => .done 0) := by
  refine ⟨⟨brokenOff_bounded, ?_, fun h => ?_⟩, zeros_bounded, fun h => ?_⟩
  · exact ⟨2, ⟨20, 0, 4116, 10, true, 20, [⟨0, 4096, 10⟩, ⟨10, 4106, 0⟩]⟩, by decide, by decide, by decide⟩
  · obtain ⟨n, hfine, hend⟩ := finite_of_completes (by decide) (by decide) brokenOff_bounded h
    match n, hend with
    | 0, hend => exact hend.elim (by decide) id
    | 1, hend => exact hend.elim (by decide) (fun h => absurd h one_ne_zero)
    | n + 2, _ => exact absurd (hfine 1 (by omega)).2 (by decide)
  · obtain ⟨n, -, hend⟩ := finite_of_completes (by decide) (by decide) zeros_bounded h
    have hzero : ∀ n, movedBy (fun _ => .done 0) n = 0 := by
      intro n
      induction n with
      | zero => rfl
      | succ n ih => rw [movedBy, ih, Reply.moved]
    rw [hzero] at hend
    exact hend.elim (by decide) id

end Athomux.AdaptComplete
