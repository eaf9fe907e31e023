import Athomux.AdaptComplete.Spec
import Mathlib.Data.List.Range

/-!
# Requests in several parts

`#adapt_limit` makes sub-requests of a limited length, and `#adapt_complete` asks again for what is
missing. Both go on until a call of `:<in` fails, and count what has come.
-/

namespace Athomux.AdaptLimit

open AdaptComplete (Request)

/-- `ADAPT_LIMIT_LIMIT`, which is `DEFAULT_TRANSFER`. -/
def adaptLimitLimit : Nat := 4096

/-- A call of `:<in`, with what it has transferred unless it fails. -/
structure Call where
  logAddr : Nat
  physAddr : Nat
  logLen : Nat
  moved : Option Nat
  deriving DecidableEq

/-- `myargs` and `mylen`, and the calls so far. -/
structure State where
  logAddr : Nat
  physAddr : Nat
  logLen : Nat
  mylen : Nat
  calls : List Call
  deriving DecidableEq

/-- The call of `:<in` with `myargs`. -/
def State.call (s : State) (moved : Option Nat) : State :=
  { s with calls := s.calls ++ [⟨s.logAddr, s.physAddr, s.logLen, moved⟩] }

/-- `myargs.log_addr` and `myargs.phys_addr` go on by `n`. -/
def State.advance (s : State) (n : Nat) : State :=
  { s with logAddr := add64 s.logAddr n, physAddr := add64 s.physAddr n }

/-- What is in front of the loop, and a turn of it with whether another one follows. -/
structure Adapter where
  start : Request → State
  turn : Request → State → Option Nat → State × Bool

/-- `$trans` of `#adapt_limit`. -/
def adaptLimit : Adapter where
  start req :=
    ⟨req.logAddr, req.physAddr,
      if adaptLimitLimit < req.logLen then adaptLimitLimit else req.logLen, 0, []⟩
  turn req s
    | none => (s.call none, false)
    | some n =>
      let t := { s.call (some n) with mylen := add64 s.mylen n }
      if t.mylen < req.logLen then (t.advance n, true) else (t, false)

/-- `$trans` of `#adapt_complete`. -/
def adaptComplete : Adapter where
  start req := ⟨req.logAddr, req.physAddr, req.logLen, 0, []⟩
  turn _ s
    | none => (s.call none, false)
    | some n =>
      let t := { s.call (some n) with mylen := add64 s.mylen n }
      if n < t.logLen then ({ t with logLen := sub64 t.logLen n }.advance n, true) else (t, false)

namespace Adapter

variable (a : Adapter) (req : Request) (replies : Nat → Option Nat)

/-- The state before turn `n`. -/
def before : Nat → Option State
  | 0 => some (a.start req)
  | n + 1 => (before n).bind fun s =>
    if (a.turn req s (replies n)).2 then some (a.turn req s (replies n)).1 else none

/-- The loop ends in `f`. -/
def Ends (f : State) : Prop :=
  ∃ n s, a.before req replies n = some s ∧ a.turn req s (replies n) = (f, false)

/-- A call that succeeds has transferred something, and not more than was requested. -/
def Works : Prop :=
  ∀ n s m, a.before req replies n = some s → replies n = some m → 1 ≤ m ∧ m ≤ s.logLen

end Adapter

/-- `@success` and `@phys_len` at the end. `@success` was `FALSE` before. -/
def State.result (req : Request) (f : State) : Bool × Nat :=
  if f.mylen ≠ 0 then (true, f.mylen) else (false, req.physLen)

/-! ## What the adapters are for -/

def total (calls : List Call) : Nat := (calls.map fun c => c.moved.getD 0).sum

/-- Each call goes on where the ones before it have come to, and stays inside of the request. The
length that is returned is what was transferred, and less than the request only if the last one has
failed. -/
structure Completes (req : Request) (f : State) : Prop where
  starts : ∀ k c, f.calls[k]? = some c → c.logAddr = add64 req.logAddr (total (f.calls.take k)) ∧
    c.physAddr = add64 req.physAddr (total (f.calls.take k))
  inside : ∀ k c, f.calls[k]? = some c → total (f.calls.take k) + c.logLen ≤ req.logLen
  physLen : (f.result req).2 = total f.calls
  short : total f.calls < req.logLen → ∃ c, f.calls.getLast? = some c ∧ c.moved = none

/-! ## The devices -/

/-- What the first `n` calls transfer. -/
def got (replies : Nat → Option Nat) : Nat → Nat
  | 0 => 0
  | n + 1 => got replies n + (replies n).getD 0

/-- No sub-request starts so late that it goes over the end. -/
def NoneOver (req : Request) (replies : Nat → Option Nat) (len : Nat → Nat) : Prop :=
  ∀ n, (∀ k < n, replies k ≠ none) → got replies n < req.logLen → got replies n + len n ≤ req.logLen

/-- If nothing is transferred at all, `@phys_len` was 0 before. -/
def ZeroKept (req : Request) (replies : Nat → Option Nat) : Prop :=
  replies 0 = none → req.physLen = 0

/-! ## The calls -/

section

variable (req : Request) (replies : Nat → Option Nat) (len : Nat → Nat)

def callAt (k : Nat) : Call :=
  ⟨add64 req.logAddr (got replies k), add64 req.physAddr (got replies k), len k, replies k⟩

def callsTo (n : Nat) : List Call := (List.range n).map (callAt req replies len)

/-- The state before turn `n`, as long as no call goes over the end. -/
def stateAt (n : Nat) : State :=
  ⟨add64 req.logAddr (got replies n), add64 req.physAddr (got replies n), len n, got replies n,
    callsTo req replies len n⟩

end

variable {a : Adapter} {req : Request} {replies : Nat → Option Nat} {len : Nat → Nat} {n m k : Nat}
  {s u f : State}

theorem callsTo_succ : callsTo req replies len (n + 1) =
    callsTo req replies len n ++ [callAt req replies len n] := by
  rw [callsTo, List.range_succ, List.map_append]
  rfl

theorem total_append (l l' : List Call) : total (l ++ l') = total l + total l' := by
  simp [total]

theorem total_callsTo : total (callsTo req replies len n) = got replies n := by
  induction n with
  | zero => rfl
  | succ n ih =>
    rw [callsTo_succ, total_append, ih]
    rfl

theorem take_callsTo (hk : k ≤ n) :
    (callsTo req replies len n).take k = callsTo req replies len k := by
  rw [callsTo, ← List.map_take, List.take_range, Nat.min_eq_left hk]
  rfl

theorem getElem?_callsTo {c : Call} (h : (callsTo req replies len n)[k]? = some c) :
    k < n ∧ c = callAt req replies len k := by
  unfold callsTo at h
  rw [List.getElem?_map, Option.map_eq_some_iff] at h
  obtain ⟨i, hi, rfl⟩ := h
  obtain ⟨hlt, rfl⟩ := List.getElem?_eq_some_iff.mp hi
  rw [List.length_range] at hlt
  rw [List.getElem_range]
  exact ⟨hlt, rfl⟩

/-! ## A turn -/

/-- The turns of an adapter whose call `n` has length `len n`. -/
structure Steps (a : Adapter) (req : Request) (replies : Nat → Option Nat) (len : Nat → Nat) :
    Prop where
  first : len 0 ≤ req.logLen
  start : a.start req = stateAt req replies len 0
  fails : ∀ s, a.turn req s none = (s.call none, false)
  calls : ∀ s r, (a.turn req s r).1.calls = (s.call r).calls
  goes : ∀ n m, replies n = some m → m ≤ len n → got replies n + len n ≤ req.logLen →
    got replies n + m < req.logLen →
      a.turn req (stateAt req replies len n) (some m) = (stateAt req replies len (n + 1), true)
  ends : ∀ n m, replies n = some m → m ≤ len n → got replies n + len n ≤ req.logLen →
    req.logLen ≤ got replies n + m →
      (a.turn req (stateAt req replies len n) (some m)).2 = false ∧
        (a.turn req (stateAt req replies len n) (some m)).1.mylen = got replies n + m

theorem stateAt_call : ((stateAt req replies len n).call (replies n)).calls =
    callsTo req replies len (n + 1) := by
  rw [callsTo_succ]
  rfl

theorem got_succ (h : replies n = some m) : got replies (n + 1) = got replies n + m := by
  rw [got, h]
  rfl

theorem add64_add (x y z : Nat) : add64 (add64 x y) z = add64 x (y + z) := by
  unfold add64
  rw [Nat.mod_add_mod, Nat.add_assoc]

/-- The fields of the arguments are 64 bits wide. -/
structure Wide (req : Request) : Prop where
  logAddr : req.logAddr < addrSpace
  physAddr : req.physAddr < addrSpace
  logLen : req.logLen < addrSpace

theorem add64_zero {x : Nat} (hx : x < addrSpace) : add64 x 0 = x := add64_eq hx

/-- The length of every sub-request of `#adapt_limit`. -/
def limitLen (req : Request) : Nat → Nat := fun _ =>
  if adaptLimitLimit < req.logLen then adaptLimitLimit else req.logLen

theorem limit_steps (h : Wide req) : Steps adaptLimit req replies (limitLen req) := by
  have hlen := h.logLen
  constructor
  · unfold limitLen
    split <;> omega
  · rw [stateAt, got, add64_zero h.logAddr, add64_zero h.physAddr, limitLen]
    rfl
  · exact fun s => rfl
  · intro s r
    cases r with
    | none => rfl
    | some n =>
      simp only [adaptLimit]
      split <;> rfl
  · intro n m hr hm hin hlt
    have hsum : add64 (got replies n) m = got replies n + m := add64_eq (by omega)
    simp only [adaptLimit, State.call, stateAt, hsum, if_pos hlt, State.advance, add64_add,
      got_succ hr, callsTo_succ, callAt, hr, limitLen]
  · intro n m hr hm hin hge
    have hsum : add64 (got replies n) m = got replies n + m := add64_eq (by omega)
    simp only [adaptLimit, State.call, stateAt, hsum, if_neg (Nat.not_lt.mpr hge), and_self]

theorem complete_steps (h : Wide req) :
    Steps adaptComplete req replies fun k => req.logLen - got replies k := by
  have hlen := h.logLen
  constructor
  · exact Nat.sub_le _ _
  · rw [stateAt, got, add64_zero h.logAddr, add64_zero h.physAddr]
    rfl
  · exact fun s => rfl
  · intro s r
    cases r with
    | none => rfl
    | some n =>
      simp only [adaptComplete]
      split <;> rfl
  · intro n m hr hm hin hlt
    have hsum : add64 (got replies n) m = got replies n + m := add64_eq (by omega)
    have hrest : sub64 (req.logLen - got replies n) m = req.logLen - (got replies n + m) := by
      rw [sub64_eq hm (by omega)]
      omega
    have hmore : m < req.logLen - got replies n := by omega
    simp only [adaptComplete, State.call, stateAt, hsum, if_pos hmore, State.advance, add64_add,
      got_succ hr, callsTo_succ, callAt, hr, hrest]
  · intro n m hr hm hin hge
    have hsum : add64 (got replies n) m = got replies n + m := add64_eq (by omega)
    have hall : ¬ m < req.logLen - got replies n := by omega
    simp only [adaptComplete, State.call, stateAt, hsum, if_neg hall, and_self]

/-! ## The loop -/

/-- No call before turn `n` fails, or goes over the end. -/
structure Smooth (req : Request) (replies : Nat → Option Nat) (len : Nat → Nat) (n : Nat) : Prop where
  done : ∀ k < n, replies k ≠ none
  inside : ∀ k < n, got replies k + len k ≤ req.logLen
  more : n ≠ 0 → got replies n < req.logLen

theorem got_mono {j : Nat} (h : j ≤ k) : got replies j ≤ got replies k := by
  induction k, h using Nat.le_induction with
  | base => exact Nat.le_refl _
  | succ k _ ih => exact ih.trans (Nat.le_add_right _ _)

theorem Smooth.prev (h : Smooth req replies len (n + 1)) : Smooth req replies len n where
  done k hk := h.done k (by omega)
  inside k hk := h.inside k (by omega)
  more _ := lt_of_le_of_lt (got_mono (Nat.le_succ n)) (h.more (Nat.succ_ne_zero n))

theorem before_eq (hs : Steps a req replies len) (hw : a.Works req replies) :
    ∀ n, Smooth req replies len n → a.before req replies n = some (stateAt req replies len n)
  | 0, _ => by rw [Adapter.before, hs.start]
  | n + 1, h => by
    have hn := before_eq hs hw n h.prev
    obtain ⟨m, hm⟩ := Option.ne_none_iff_exists'.mp (h.done n (Nat.lt_succ_self n))
    have hle : m ≤ len n := (hw n _ m hn hm).2
    have hmore := h.more (Nat.succ_ne_zero n)
    rw [got_succ hm] at hmore
    have hturn := hs.goes n m hm hle (h.inside n (Nat.lt_succ_self n)) hmore
    rw [Adapter.before, hn, Option.bind_some, hm, hturn]
    rfl

/-- A turn is reached through the turns before it. -/
theorem before_le (hkm : k ≤ m) {v : State} (hv : a.before req replies m = some v) :
    ∃ w, a.before req replies k = some w := by
  induction m, hkm using Nat.le_induction generalizing v with
  | base => exact ⟨v, hv⟩
  | succ m _ ih =>
    obtain ⟨w, hw, -⟩ := Option.bind_eq_some_iff.mp hv
    exact ih hw

/-- What was called stays called. -/
theorem calls_extend (hs : Steps a req replies len) (hkm : k ≤ m) (hk : a.before req replies k = some s)
    (hm : a.before req replies m = some u) :
    s.calls <+: u.calls := by
  induction m, hkm using Nat.le_induction generalizing u with
  | base =>
    rw [hk] at hm
    cases hm
    exact List.prefix_refl _
  | succ m _ ih =>
    obtain ⟨v, hv, hturn⟩ := Option.bind_eq_some_iff.mp hm
    split at hturn
    · cases hturn
      rw [hs.calls]
      exact (ih hv).trans (List.prefix_append _ _)
    · cases hturn

/-- The call of a turn that is reached is among the calls at the end. -/
theorem call_of_ends (hs : Steps a req replies len) (hn : a.before req replies n = some s)
    (hu : a.before req replies m = some u) (hend : a.turn req u (replies m) = (f, false)) :
    n ≤ m ∧ (s.call (replies n)).calls <+: f.calls := by
  have hstop : a.before req replies (m + 1) = none := by
    rw [Adapter.before, hu, Option.bind_some, hend]
    rfl
  have hle : n ≤ m := by
    by_contra hlt
    obtain ⟨w, hw⟩ := before_le (show m + 1 ≤ n by omega) hn
    rw [hstop] at hw
    cases hw
  have hf : (u.call (replies m)).calls = f.calls := by
    rw [← hs.calls, hend]
  refine ⟨hle, ?_⟩
  rcases Nat.eq_or_lt_of_le hle with rfl | hlt
  · rw [hn] at hu
    cases hu
    exact hf ▸ List.prefix_refl _
  · obtain ⟨w, hw⟩ := before_le (show n + 1 ≤ m by omega) hu
    have hnext := hw
    rw [Adapter.before, hn, Option.bind_some] at hnext
    split at hnext
    · have hcalls := hs.calls s (replies n)
      rw [Option.some.inj hnext] at hcalls
      rw [← hcalls, ← hf]
      exact (calls_extend hs (show n + 1 ≤ m by omega) hw hu).trans (List.prefix_append _ _)
    · cases hnext

/-- The loop ends at the first call that fails or brings all. -/
theorem exists_end (hs : Steps a req replies len) (hw : a.Works req replies)
    (hover : NoneOver req replies len) :
    ∃ n, Smooth req replies len n ∧ (replies n = none ∨ req.logLen ≤ got replies (n + 1)) := by
  by_contra hno
  push Not at hno
  have hall : ∀ n, Smooth req replies len n ∧ n ≤ got replies n := by
    intro n
    induction n with
    | zero =>
      exact ⟨⟨fun k hk => absurd hk (Nat.not_lt_zero k), fun k hk => absurd hk (Nat.not_lt_zero k),
        fun h => absurd rfl h⟩, Nat.le_refl 0⟩
    | succ n ih =>
      obtain ⟨hsmooth, hle⟩ := ih
      obtain ⟨hdone, hlt⟩ := hno n hsmooth
      obtain ⟨m, hm⟩ := Option.ne_none_iff_exists'.mp hdone
      have hpos := (hw n _ m (before_eq hs hw n hsmooth) hm).1
      have hgot := got_succ hm
      have hin : got replies n + len n ≤ req.logLen :=
        hover n hsmooth.done (by omega)
      refine ⟨⟨fun k hk => ?_, fun k hk => ?_, fun _ => hlt⟩, by omega⟩
      · rcases Nat.lt_succ_iff_lt_or_eq.mp hk with hk | rfl
        · exact hsmooth.done k hk
        · exact hdone
      · rcases Nat.lt_succ_iff_lt_or_eq.mp hk with hk | rfl
        · exact hsmooth.inside k hk
        · exact hin
  have hend := hall (req.logLen + 1)
  have hmore := hend.1.more (Nat.succ_ne_zero _)
  omega

theorem Smooth.le_got (hs : Steps a req replies len) (hw : a.Works req replies) :
    ∀ n, Smooth req replies len n → n ≤ got replies n
  | 0, _ => Nat.le_refl 0
  | n + 1, h => by
    have hle := Smooth.le_got hs hw n h.prev
    obtain ⟨m, hm⟩ := Option.ne_none_iff_exists'.mp (h.done n (Nat.lt_succ_self n))
    have hpos := (hw n _ m (before_eq hs hw n h.prev) hm).1
    rw [got_succ hm]
    omega

/-- What the calls up to `n` are like, when the loop ends with call `n`. -/
theorem completes_of_calls (hcalls : f.calls = callsTo req replies len (n + 1))
    (hin : ∀ k ≤ n, got replies k + len k ≤ req.logLen)
    (hphys : (f.result req).2 = got replies (n + 1))
    (hshort : got replies (n + 1) < req.logLen → replies n = none) : Completes req f := by
  refine ⟨fun k c hc => ?_, fun k c hc => ?_, ?_, fun hlt => ?_⟩
  · rw [hcalls] at hc ⊢
    obtain ⟨hk, rfl⟩ := getElem?_callsTo hc
    rw [take_callsTo hk.le, total_callsTo]
    exact ⟨rfl, rfl⟩
  · rw [hcalls] at hc ⊢
    obtain ⟨hk, rfl⟩ := getElem?_callsTo hc
    rw [take_callsTo hk.le, total_callsTo]
    exact hin k (Nat.lt_succ_iff.mp hk)
  · rw [hcalls, total_callsTo, hphys]
  · rw [hcalls, total_callsTo] at hlt
    refine ⟨callAt req replies len n, ?_, hshort hlt⟩
    rw [hcalls, callsTo_succ, List.getLast?_concat]

theorem completes_of_noneOver (hs : Steps a req replies len) (hw : a.Works req replies)
    (hover : NoneOver req replies len) (hzero : ZeroKept req replies) :
    ∃ f n, a.Ends req replies f ∧ f.calls = callsTo req replies len n ∧ Completes req f := by
  obtain ⟨n, hsmooth, hend⟩ := exists_end hs hw hover
  have hbefore := before_eq hs hw n hsmooth
  have hlast : got replies n + len n ≤ req.logLen := by
    by_cases hlt : got replies n < req.logLen
    · exact hover n hsmooth.done hlt
    · have hn : n = 0 := by
        by_contra hne
        exact hlt (hsmooth.more hne)
      subst hn
      rw [got, Nat.zero_add]
      exact hs.first
  have hin : ∀ k ≤ n, got replies k + len k ≤ req.logLen := by
    intro k hk
    rcases Nat.lt_or_eq_of_le hk with hk | rfl
    · exact hsmooth.inside k hk
    · exact hlast
  cases hr : replies n with
  | none =>
    have hcalls : ((stateAt req replies len n).call none).calls = callsTo req replies len (n + 1) := by
      rw [← hr, stateAt_call]
    have hgot : got replies (n + 1) = got replies n := by rw [got, hr, Option.getD_none, Nat.add_zero]
    refine ⟨_, n + 1, ⟨n, _, hbefore, by rw [hr, hs.fails]⟩, hcalls,
      completes_of_calls hcalls hin ?_ fun _ => hr⟩
    rw [hgot]
    unfold State.result
    split
    · rfl
    · rename_i hnot
      have hnone : got replies n = 0 := not_not.mp hnot
      have hn : n = 0 := Nat.le_zero.mp (hnone ▸ Smooth.le_got hs hw n hsmooth)
      subst hn
      rw [hnone]
      exact hzero hr
  | some m =>
    obtain ⟨hpos, hle⟩ := hw n _ m hbefore hr
    have hfull : req.logLen ≤ got replies n + m := by
      rw [← got_succ hr]
      exact hend.resolve_left (by rw [hr]; exact Option.some_ne_none m)
    obtain ⟨hstop, hmylen⟩ := hs.ends n m hr hle hlast hfull
    have hcalls : (a.turn req (stateAt req replies len n) (some m)).1.calls =
        callsTo req replies len (n + 1) := by
      rw [hs.calls, ← hr, stateAt_call]
    refine ⟨_, n + 1, ⟨n, _, hbefore, by rw [hr, ← hstop]⟩, hcalls,
      completes_of_calls hcalls hin ?_ fun hlt => ?_⟩
    · rw [got_succ hr, State.result, hmylen, if_pos (by omega)]
    · rw [got_succ hr] at hlt
      omega

theorem noneOver_of_completes (hs : Steps a req replies len) (hw : a.Works req replies)
    (hend : a.Ends req replies f) (h : Completes req f) : NoneOver req replies len := by
  obtain ⟨m, u, hu, hturn⟩ := hend
  intro n
  induction n using Nat.strong_induction_on with
  | _ n ih =>
    intro hdone hlt
    have hsmooth : Smooth req replies len n := by
      refine ⟨hdone, fun k hk => ?_, fun _ => hlt⟩
      exact ih k hk (fun j hj => hdone j (by omega)) (lt_of_le_of_lt (got_mono hk.le) hlt)
    have hbefore := before_eq hs hw n hsmooth
    obtain ⟨-, hpre⟩ := call_of_ends hs hbefore hu hturn
    rw [stateAt_call] at hpre
    obtain ⟨more, hmore⟩ := hpre
    have hlen : (callsTo req replies len n).length = n := by
      rw [callsTo, List.length_map, List.length_range]
    have hcall : f.calls[n]? = some (callAt req replies len n) := by
      rw [← hmore, callsTo_succ, List.append_assoc, List.getElem?_append_right hlen.le, hlen,
        Nat.sub_self]
      rfl
    have htake : f.calls.take n = callsTo req replies len n := by
      rw [← hmore, callsTo_succ, List.append_assoc, List.take_left' hlen]
    have hin := h.inside n _ hcall
    rw [htake, total_callsTo] at hin
    exact hin

theorem zeroKept_of_completes (hs : Steps a req replies len) (hend : a.Ends req replies f)
    (h : Completes req f) : ZeroKept req replies := by
  obtain ⟨m, u, hu, hturn⟩ := hend
  intro hnone
  have hstop : a.before req replies 1 = none := by
    rw [Adapter.before, Adapter.before, Option.bind_some, hnone, hs.fails]
    rfl
  have hm : m = 0 := by
    by_contra hne
    obtain ⟨w, hw⟩ := before_le (show 1 ≤ m by omega) hu
    rw [hstop] at hw
    cases hw
  subst hm
  obtain rfl : a.start req = u := Option.some.inj hu
  rw [hnone, hs.fails, hs.start] at hturn
  obtain rfl := congrArg Prod.fst hturn
  have hphys := h.physLen
  have hcalls : ((stateAt req replies len 0).call none).calls = callsTo req replies len 1 := by
    rw [← hnone, stateAt_call]
  rw [hcalls, total_callsTo, got, got, hnone] at hphys
  exact hphys

/-- The loop does its work exactly when no sub-request starts too late and `@phys_len` is not left over. -/
theorem completion_iff (hs : Steps a req replies len) (hw : a.Works req replies) :
    (∃ f, a.Ends req replies f ∧ Completes req f) ↔
      NoneOver req replies len ∧ ZeroKept req replies := by
  constructor
  · rintro ⟨f, hend, h⟩
    exact ⟨noneOver_of_completes hs hw hend h, zeroKept_of_completes hs hend h⟩
  · rintro ⟨hover, hzero⟩
    obtain ⟨f, n, hend, -, h⟩ := completes_of_noneOver hs hw hover hzero
    exact ⟨f, hend, h⟩

theorem limitLen_le (req : Request) (k : Nat) : limitLen req k ≤ adaptLimitLimit := by
  unfold limitLen
  split
  · exact Nat.le_refl _
  · omega

/-- **Sub-requests.** `#adapt_complete` never asks for too much. `#adapt_limit` does when it gets less
than it has asked for so that less than a whole sub-request is missing. -/
theorem sub_requests_iff (h : Wide req) {replies' : Nat → Option Nat}
    (hl : adaptLimit.Works req replies) (hc : adaptComplete.Works req replies') :
    ((∃ f, adaptLimit.Ends req replies f ∧ Completes req f ∧
        ∀ c ∈ f.calls, c.logLen ≤ adaptLimitLimit) ∧
      ∃ f, adaptComplete.Ends req replies' f ∧ Completes req f) ↔
    NoneOver req replies (limitLen req) ∧ ZeroKept req replies ∧ ZeroKept req replies' := by
  constructor
  · rintro ⟨⟨f, hf, hcf, -⟩, hcomplete⟩
    obtain ⟨hover, hzero⟩ := (completion_iff (limit_steps h) hl).mp ⟨f, hf, hcf⟩
    exact ⟨hover, hzero, ((completion_iff (complete_steps h) hc).mp hcomplete).2⟩
  · rintro ⟨hover, hzero, hzero'⟩
    obtain ⟨f, n, hf, hcalls, hcf⟩ := completes_of_noneOver (limit_steps h) hl hover hzero
    have hall : NoneOver req replies' fun n => req.logLen - got replies' n := fun n _ hlt =>
      (Nat.add_sub_of_le hlt.le).le
    have hcomplete := (completion_iff (complete_steps h) hc).mpr ⟨hall, hzero'⟩
    refine ⟨⟨f, hf, hcf, fun c hc => ?_⟩, hcomplete⟩
    rw [hcalls] at hc
    obtain ⟨k, -, rfl⟩ := List.mem_map.mp hc
    exact limitLen_le req k

/-- A device that has `first` bytes, and then `next` in each call. -/
def pieces (first next : Nat) : Nat → Option Nat := fun n => some (if n = 0 then first else next)

/-- 20 bytes for the buffer at 4096. -/
def twenty : Request := ⟨0, 20, 4096, 0⟩

theorem works_of_two (a : Adapter) {first next : Nat} {s : State}
    (hone : a.before twenty (pieces first next) 1 = some s)
    (htwo : a.before twenty (pieces first next) 2 = none)
    (hfirst : 1 ≤ first ∧ first ≤ (a.start twenty).logLen) (hnext : 1 ≤ next ∧ next ≤ s.logLen) :
    a.Works twenty (pieces first next) := by
  intro n u m hu hm
  match n with
  | 0 =>
    cases hu
    cases hm
    exact hfirst
  | 1 =>
    rw [hone] at hu
    cases hu
    cases hm
    exact hnext
  | n + 2 =>
    obtain ⟨w, hw⟩ := before_le (show 2 ≤ n + 2 by omega) hu
    rw [htwo] at hw
    cases hw

theorem sub_requests_twenty :
    ((∃ f, adaptLimit.Ends twenty (fun n => if n = 0 then some 20 else none) f ∧ Completes twenty f ∧
        ∀ c ∈ f.calls, c.logLen ≤ adaptLimitLimit) ∧
      ∃ f, adaptComplete.Ends twenty (pieces 15 5) f ∧ Completes twenty f) ↔
    NoneOver twenty (fun n => if n = 0 then some 20 else none) (limitLen twenty) ∧
      ZeroKept twenty (fun n => if n = 0 then some 20 else none) ∧ ZeroKept twenty (pieces 15 5) := by
  refine sub_requests_iff ⟨by decide, by decide, by decide⟩ ?_
    (works_of_two (s := ⟨15, 4111, 5, 15, [⟨0, 4096, 20, some 15⟩]⟩) _ (by decide) (by decide) (by decide) (by decide))
  intro n u m hu hm
  cases n with
  | zero =>
    cases hu
    cases hm
    decide
  | succ n => cases hm

/-- Of 20 bytes 10 are there, and the next sub-request is one of 20 bytes again. -/
theorem asks_too_much :
    adaptLimit.Works twenty (pieces 10 10) ∧
      ¬ ∃ f, adaptLimit.Ends twenty (pieces 10 10) f ∧ Completes twenty f := by
  have hworks : adaptLimit.Works twenty (pieces 10 10) :=
    works_of_two (s := ⟨10, 4106, 20, 10, [⟨0, 4096, 20, some 10⟩]⟩) _ (by decide) (by decide)
      (by decide) (by decide)
  refine ⟨hworks, fun ⟨f, hf, hc⟩ => ?_⟩
  have hsteps : Steps adaptLimit twenty (pieces 10 10) (limitLen twenty) :=
    limit_steps ⟨by decide, by decide, by decide⟩
  have hover := noneOver_of_completes hsteps hworks hf hc 1 (fun k _ => Option.some_ne_none _) (by decide)
  exact absurd hover (by decide)

end Athomux.AdaptLimit
