import Athomux.LrpcServer.Spec

/-!
# Marshalling

What is copied into the kernel stays in its page as long as there are no connectors: their places
are counted in structures, not in bytes.
-/

open Lib

namespace Athomux.LrpcServer

variable {ρ κ : Type} {c : Call ρ κ} {k : Copied ρ} {o : Outcome ρ κ} {pages : Nat → Nat}
  {buf order loglen n : Nat}

/-! ## The buffer -/

theorem orderLen_pos (order : Nat) : 0 < orderLen order := by
  unfold orderLen
  rw [Nat.shiftLeft_eq, Nat.one_mul]
  exact Nat.two_pow_pos _

/-- What the loop finds. -/
theorem tryOrders_some {x : Nat × Nat × Nat} (h : tryOrders pages n = some x) :
    x.1 ≠ 0 ∧ 0 < x.2.2 := by
  induction n with
  | zero => cases h
  | succ n ih =>
    unfold tryOrders at h
    by_cases hp : pages (n + 1) ≠ 0
    · rw [if_pos hp] at h
      cases h
      exact ⟨hp, orderLen_pos _⟩
    · rw [if_neg hp] at h
      exact ih h

theorem tryOrders_isSome :
    (tryOrders pages n).isSome = true ↔ ∃ order, 0 < order ∧ order ≤ n ∧ pages order ≠ 0 := by
  induction n with
  | zero =>
    constructor
    · intro h
      cases h
    · rintro ⟨order, hpos, hle, -⟩
      omega
  | succ n ih =>
    unfold tryOrders
    by_cases hp : pages (n + 1) ≠ 0
    · rw [if_pos hp]
      exact iff_of_true rfl ⟨n + 1, Nat.succ_pos n, Nat.le_refl _, hp⟩
    · rw [if_neg hp, ih]
      constructor
      · rintro ⟨order, hpos, hle, hne⟩
        exact ⟨order, hpos, by omega, hne⟩
      · rintro ⟨order, hpos, hle, hne⟩
        refine ⟨order, hpos, ?_, hne⟩
        have hnot : order ≠ n + 1 := by
          rintro rfl
          exact hp hne
        omega

theorem getBuffer_some {x : Nat × Nat × Nat} (h : getBuffer pages order loglen = some x)
    (hlen : 0 < loglen) : x.1 ≠ 0 ∧ 0 < x.2.2 := by
  unfold getBuffer at h
  by_cases hp : pages order ≠ 0
  · rw [if_pos hp] at h
    cases h
    exact ⟨hp, hlen⟩
  · rw [if_neg hp] at h
    exact tryOrders_some h

theorem getBuffer_isSome :
    (getBuffer c.pages (firstOrder c.args) loglen).isSome = true ↔ HasBuffer c := by
  unfold getBuffer HasBuffer
  by_cases hp : c.pages (firstOrder c.args) ≠ 0
  · rw [if_pos hp]
    exact iff_of_true rfl (.inl hp)
  · rw [if_neg hp, tryOrders_isSome, or_iff_right hp]

theorem firstLen_pos (h : Buffered c.args) : 0 < firstLen c.args := by
  unfold firstLen
  exact Nat.lt_min.mpr ⟨Nat.pos_of_ne_zero h.2.1, by decide⟩

/-! ## The pages -/

/-- What an outcome has after one that is `o` so far. -/
structure Ended (c : Call ρ κ) (o o' : Outcome ρ κ) : Prop where
  copies : o'.copies = o.copies
  param : o'.param = o.param
  freed : o'.freed.Perm o'.obtained

theorem callBrick_ended (c : Call ρ κ) (k : Copied ρ) (loglen : Nat)
    (h : o.obtained = freePages buf order ++ [(c.page, 0)]) :
    Ended c o (callBrick c k buf order loglen o) := by
  unfold callBrick
  cases (c.instances c.id).bind Instance.connect with
  | none => exact ⟨rfl, rfl, List.Perm.of_eq h.symm⟩
  | some brick => exact ⟨rfl, rfl, List.Perm.of_eq h.symm⟩

theorem freePages_of_ne (h : buf ≠ 0) : freePages buf order = [(buf, order)] := if_neg h

theorem callBuffered_ended (c : Call ρ κ) (k : Copied ρ) (h : o.obtained = [(c.page, 0)])
    (hb : Buffered c.args) : Ended c o (callBuffered c k o) := by
  unfold callBuffered
  cases hx : getBuffer c.pages (firstOrder c.args) (firstLen c.args) with
  | none => exact ⟨rfl, rfl, List.Perm.of_eq h.symm⟩
  | some x =>
    obtain ⟨buf, order, loglen⟩ := x
    have hfree : freePages buf order = [(buf, order)] :=
      freePages_of_ne (getBuffer_some hx (firstLen_pos hb)).1
    dsimp only
    by_cases hfail : c.bufferOk = false ∨ min loglen c.buffer.length = 0
    · rw [if_pos hfail, hfree]
      exact ⟨rfl, rfl, List.Perm.refl _⟩
    · rw [if_neg hfail]
      have hend := callBrick_ended c
        { k with args := { k.args with logLen := min loglen c.buffer.length, physAddr := buf } }
        (min loglen c.buffer.length) (show { o with obtained := [(buf, order), (c.page, 0)] }.obtained =
          freePages buf order ++ [(c.page, 0)] by rw [hfree]; rfl)
      exact ⟨hend.copies, hend.param, hend.freed⟩

theorem handlePage_ended (c : Call ρ κ) : Ended c (entered c) (handlePage c) := by
  unfold handlePage
  cases (copyIn c).2 with
  | none => exact ⟨rfl, rfl, List.Perm.refl _⟩
  | some k =>
    dsimp only
    by_cases hb : Buffered c.args
    · rw [if_pos hb]
      exact callBuffered_ended c k rfl hb
    · rw [if_neg hb]
      exact callBrick_ended c k 0 rfl

/-! ## The page -/

def Inside (c : Call ρ κ) (q : Region) : Prop := c.page ≤ q.start ∧ q.stop ≤ c.page + pageSize

/-- The two records have been copied. -/
def Entered (c : Call ρ κ) : Prop := c.faults.args = false ∧ c.faults.backup = false

theorem copyIn_entered (h : Entered c) :
    copyIn c =
      let x := copyConn c.page (2 * argsSize) c.args.conn1 c.faults.conn1
      let y := copyConn c.page x.pos c.args.conn2 c.faults.conn2
      match c.param with
      | none => (⟨c.page, argsSize⟩ :: ⟨c.page + argsSize, argsSize⟩ :: (x.copies ++ y.copies), none)
      | some s =>
        let p := strncpyFromUser s (pageSize - y.pos)
        let z := placeRes c.page (y.pos + p.1) { c.args with conn1 := x.ptr, conn2 := y.ptr } p.2
        (⟨c.page, argsSize⟩ :: ⟨c.page + argsSize, argsSize⟩ ::
          (x.copies ++ y.copies ++ ⟨c.page + y.pos, p.2.length⟩ :: z.1), some z.2) := by
  unfold copyIn
  rw [h.1, h.2]
  rfl

theorem copyConn_zero (page pos : Nat) (fault : Bool) :
    copyConn page pos 0 fault = ⟨0, pos, []⟩ := by
  unfold copyConn
  dsimp only
  rw [if_pos rfl]

/-- The copy of a connector starts 24 times as far as it should. -/
theorem mem_copyConn {page pos ptr : Nat} (fault : Bool) (h : ptr ≠ 0) :
    ⟨page + pos * connSize, connSize⟩ ∈ (copyConn page pos ptr fault).copies := by
  unfold copyConn
  dsimp only
  rw [if_neg h]
  cases fault <;> exact List.mem_singleton_self _

theorem copyConn_pos (page pos ptr : Nat) (fault : Bool) :
    pos ≤ (copyConn page pos ptr fault).pos := by
  unfold copyConn
  dsimp only
  split
  · exact Nat.le_refl _
  · split
    · exact Nat.le_refl _
    · exact Nat.le_add_right _ _

theorem mem_copyIn {q : Region} (h : Entered c)
    (hq : q ∈ (copyConn c.page (2 * argsSize) c.args.conn1 c.faults.conn1).copies ∨
      q ∈ (copyConn c.page (copyConn c.page (2 * argsSize) c.args.conn1 c.faults.conn1).pos
        c.args.conn2 c.faults.conn2).copies) : q ∈ (copyIn c).1 := by
  rw [copyIn_entered h]
  have hq := List.mem_append.mpr hq
  dsimp only
  cases c.param with
  | none => exact List.mem_cons_of_mem _ (List.mem_cons_of_mem _ hq)
  | some s => exact List.mem_cons_of_mem _ (List.mem_cons_of_mem _ (List.mem_append_left _ hq))

/-- A place that is counted in structures is outside of the page. -/
theorem not_inside {pos n : Nat} (h : 2 * argsSize ≤ pos) :
    ¬ Inside c ⟨c.page + pos * connSize, n⟩ := by
  unfold Inside Region.stop pageSize connSize
  unfold argsSize at h
  dsimp only
  omega

theorem copyIn_plain {s : CString} (h : Entered c) (h1 : c.args.conn1 = 0) (h2 : c.args.conn2 = 0)
    (hs : c.param = some s) :
    let p := strncpyFromUser s stringRoom
    let z := placeRes c.page (2 * argsSize + p.1) c.args p.2
    copyIn c = (⟨c.page, argsSize⟩ :: ⟨c.page + argsSize, argsSize⟩ ::
      ⟨c.page + 2 * argsSize, p.2.length⟩ :: z.1, some z.2) := by
  have hargs : { c.args with conn1 := 0, conn2 := 0 } = c.args := by
    calc { c.args with conn1 := 0, conn2 := 0 }
      _ = { c.args with conn1 := c.args.conn1, conn2 := c.args.conn2 } := by rw [h1, h2]
      _ = c.args := rfl
  rw [copyIn_entered h, h1, h2, copyConn_zero]
  dsimp only
  rw [copyConn_zero, hs, hargs]
  rfl

theorem strncpy_short {s : CString} (h : s.chars.length < n) :
    strncpyFromUser s n = (s.chars.length, s.chars ++ [0]) := if_pos h

/-- A parameter that is too long is cut where its NUL should be. -/
theorem strncpy_long {s : CString} (h : ¬ s.chars.length < n) :
    0 ∉ (strncpyFromUser s n).2 := by
  unfold strncpyFromUser
  rw [if_neg h]
  exact fun hmem => s.ended (List.mem_of_mem_take hmem)

theorem placeRes_zero {args : Args ρ} {pos page : Nat} (param : List Nat) (h : args.resConn = 0) :
    placeRes page pos args param = ([], ⟨args, param, 0⟩) := if_pos h

theorem placeRes_place {args : Args ρ} {pos page : Nat} (param : List Nat) (h : args.resConn ≠ 0)
    (hpos : pos < pageSize) :
    (placeRes page pos args param).1 = [⟨page + pos * connSize, pageSize - pos⟩] := by
  unfold placeRes
  dsimp only
  rw [if_neg h, if_neg (by omega)]

theorem placeRes_param (page pos : Nat) (args : Args ρ) (param : List Nat) :
    (placeRes page pos args param).2.param = param := by
  unfold placeRes
  dsimp only
  by_cases h : args.resConn = 0
  · rw [if_pos h]
  · rw [if_neg h]
    by_cases hlen : pageSize - pos = 0
    · rw [if_pos hlen]
    · rw [if_neg hlen]

/-- The places when there is room: the two records, and the parameter behind them. -/
theorem places_room {n : Nat} (h : n ≤ stringRoom) :
    let l : List Region :=
      [⟨c.page, argsSize⟩, ⟨c.page + argsSize, argsSize⟩, ⟨c.page + 2 * argsSize, n⟩]
    (∀ q ∈ l, Inside c q) ∧ l.Pairwise Region.Apart := by
  unfold stringRoom at h
  refine ⟨fun q hq => ?_, ?_⟩
  · simp only [List.mem_cons, List.not_mem_nil, or_false] at hq
    unfold Inside Region.stop
    rcases hq with rfl | rfl | rfl
    · exact ⟨Nat.le_refl _, Nat.add_le_add_left (show argsSize ≤ pageSize by decide) _⟩
    · refine ⟨Nat.le_add_right _ _, ?_⟩
      dsimp only
      rw [Nat.add_assoc]
      exact Nat.add_le_add_left (by decide) _
    · refine ⟨Nat.le_add_right _ _, ?_⟩
      have : 2 * argsSize ≤ pageSize := by decide
      dsimp only
      omega
  · simp only [List.pairwise_cons, List.mem_cons, List.not_mem_nil, or_false, forall_eq_or_imp,
      forall_eq, Region.apart_iff, Region.stop]
    refine ⟨⟨?_, ?_⟩, ?_, fun _ hf => hf.elim, .nil⟩
    · exact .inr (.inr (.inl (Nat.le_refl _)))
    · exact .inr (.inr (.inl (by omega)))
    · exact .inr (.inr (.inl (by omega)))

/-- What the handler places in the page has room there if and only if it should be there. -/
theorem copyIn_room (h : Entered c) :
    ((∀ q ∈ (copyIn c).1, Inside c q) ∧ (copyIn c).1.Pairwise Region.Apart ∧
      ∀ k, (copyIn c).2 = some k → 0 ∈ k.param) ↔ HasRoom c := by
  constructor
  · rintro ⟨hin, -, hends⟩
    have h1 : c.args.conn1 = 0 := by
      by_contra hne
      exact not_inside (Nat.le_refl _) (hin _ (mem_copyIn h (.inl (mem_copyConn _ hne))))
    have h2 : c.args.conn2 = 0 := by
      by_contra hne
      exact not_inside (copyConn_pos _ _ _ _) (hin _ (mem_copyIn h (.inr (mem_copyConn _ hne))))
    refine ⟨h1, h2, fun s hs => ?_⟩
    rw [copyIn_plain h h1 h2 hs] at hin hends
    have hshort : s.chars.length < stringRoom := by
      by_contra hlong
      have hzero := hends _ rfl
      rw [placeRes_param] at hzero
      exact strncpy_long hlong hzero
    refine ⟨hshort, ?_⟩
    by_contra hne
    have hpos : 2 * argsSize + s.chars.length < pageSize := by
      unfold stringRoom at hshort
      omega
    rw [strncpy_short hshort] at hin
    dsimp only at hin
    rw [placeRes_place _ hne hpos] at hin
    exact not_inside (Nat.le_add_right (2 * argsSize) s.chars.length)
      (hin _ (List.mem_append_right [_, _, _] (List.mem_singleton_self _)))
  · rintro ⟨h1, h2, hparam⟩
    cases hs : c.param with
    | none =>
      obtain ⟨hin, hapart⟩ := places_room (c := c) (n := 0) (Nat.zero_le _)
      have hcopy : copyIn c = ([⟨c.page, argsSize⟩, ⟨c.page + argsSize, argsSize⟩], none) := by
        rw [copyIn_entered h, h1, h2, copyConn_zero]
        dsimp only
        rw [copyConn_zero, hs]
        rfl
      rw [hcopy]
      refine ⟨fun q hq => hin q (List.mem_append_left [_] hq), ?_, fun k hk => by cases hk⟩
      exact (List.pairwise_append.mp hapart).1
    | some s =>
      obtain ⟨hshort, hres⟩ := hparam s hs
      have hlen : (s.chars ++ [0]).length ≤ stringRoom := by
        rw [List.length_append]
        exact hshort
      rw [copyIn_plain h h1 h2 hs, strncpy_short hshort]
      dsimp only
      rw [placeRes_zero _ hres]
      refine ⟨(places_room hlen).1, (places_room hlen).2, fun k hk => ?_⟩
      cases hk
      exact List.mem_append_right _ (List.mem_singleton_self 0)

/-! ## The answer -/

theorem returns_none (h : o.results = none) : Returns c o := fun p r _ hr => by
  rw [h] at hr
  cases hr

/-- Without connectors and without an array only `@phys_addr` is to be put right. -/
theorem back_plain {args : Args ρ} (h1 : args.conn1 = 0) (hres : args.resConn = 0) :
    backRes c.args (cutConns (backConns c.args args) n) = { args with conn2 := c.args.conn2 } := by
  have hconns : backConns c.args args = { args with conn2 := c.args.conn2 } := by
    unfold backConns
    rw [if_neg (not_not_intro h1)]
  have hcut : ¬ HasConns { args with conn2 := c.args.conn2 } := fun h => h.1 hres
  rw [hconns, cutConns, if_neg hcut, backRes, if_neg (not_not_intro hres)]

theorem backPhys_answered {r : Results ρ κ} {l a : Nat}
    (hk : k.args = { c.args with logLen := l, physAddr := a }) (hbuf : buf ≠ 0 ↔ Buffered c.args) :
    backPhys c.args (answered k.args r) buf = returned c.args r (decide (Buffered c.args)) := by
  unfold backPhys
  rw [hk]
  by_cases hb : Buffered c.args
  · rw [if_pos (hbuf.mpr hb), decide_eq_true hb]
    rfl
  · rw [if_neg (hbuf.not.mpr hb), decide_eq_false hb]
    rfl

/-- The caller gets the answer if and only if the copies to it do not fail. -/
theorem finish_returns {r : Results ρ κ} {l a : Nat} (h1 : c.args.conn1 = 0)
    (hres : c.args.resConn = 0) (hk : k.args = { c.args with logLen := l, physAddr := a })
    (hbuf : buf ≠ 0 ↔ Buffered c.args) (hlen : Buffered c.args → l = loglen) :
    Returns c (finish c k r buf order loglen o) ↔ CopiesOut c := by
  have hphys := backPhys_answered (r := r) hk hbuf
  have hargs : (finish c k r buf order loglen o).outArgs =
      copyOut c.faults.outArgs (returned c.args r (decide (Buffered c.args))) := by
    unfold finish
    dsimp only
    rw [hphys, back_plain]
    · rfl
    · exact h1
    · exact hres
  have hbuffer : (finish c k r buf order loglen o).outBuffer =
      if Buffered c.args ∧ c.args.direction = .read then
        copyOut c.faults.outBuffer (r.buffer.take (min loglen r.physLen)) else none := by
    unfold finish
    dsimp only
    rw [hphys]
    exact if_congr (and_congr_left' hbuf) rfl rfl
  constructor
  · intro h
    obtain ⟨hout, -, -, hread⟩ := h _ _ rfl rfl
    refine ⟨?_, fun hb hdir => ?_⟩
    · rw [hargs] at hout
      unfold copyOut at hout
      cases hf : c.faults.outArgs with
      | false => rfl
      | true =>
        rw [hf] at hout
        cases hout
    · have hread := hread hb hdir
      rw [hbuffer, if_pos ⟨hb, hdir⟩] at hread
      unfold copyOut at hread
      cases hf : c.faults.outBuffer with
      | false => rfl
      | true =>
        rw [hf] at hread
        cases hread
  · rintro ⟨hout, hread⟩ p r' hp hr
    cases hp
    cases hr
    refine ⟨?_, fun hne => absurd h1 hne, fun hne => absurd hres hne, fun hb hdir => ?_⟩
    · rw [hargs, hout]
      rfl
    · rw [hbuffer, if_pos ⟨hb, hdir⟩, hread hb hdir, hk]
      dsimp only
      rw [hlen hb]
      rfl

theorem callBrick_returns {l a : Nat} (h1 : c.args.conn1 = 0)
    (hres : c.args.resConn = 0) (hk : k.args = { c.args with logLen := l, physAddr := a })
    (hbuf : buf ≠ 0 ↔ Buffered c.args) (hlen : Buffered c.args → l = loglen)
    (ho : o.results = none) : Returns c (callBrick c k buf order loglen o) ↔
      (((c.instances c.id).bind Instance.connect).isSome = true → CopiesOut c) := by
  unfold callBrick
  cases (c.instances c.id).bind Instance.connect with
  | none => exact iff_of_true (returns_none ho) (fun h => by cases h)
  | some brick =>
    rw [Option.isSome_some, imp_iff_right rfl]
    exact finish_returns h1 hres hk hbuf hlen

theorem callBuffered_returns (h1 : c.args.conn1 = 0) (hres : c.args.resConn = 0)
    (hk : k.args = c.args) (hb : Buffered c.args) (ho : o.results = none) :
    Returns c (callBuffered c k o) ↔ (Called c → CopiesOut c) := by
  have hsome : (getBuffer c.pages (firstOrder c.args) (firstLen c.args)).isSome = true ↔ HasBuffer c :=
    getBuffer_isSome
  unfold callBuffered
  cases hx : getBuffer c.pages (firstOrder c.args) (firstLen c.args) with
  | none =>
    rw [hx] at hsome
    exact iff_of_true (returns_none ho) fun hc => by cases hsome.mpr (hc.2 hb).1
  | some x =>
    obtain ⟨buf, order, loglen⟩ := x
    rw [hx] at hsome
    obtain ⟨hbuf, hpos⟩ := getBuffer_some hx (firstLen_pos hb)
    dsimp only at hbuf hpos ⊢
    by_cases hfail : c.bufferOk = false ∨ min loglen c.buffer.length = 0
    · rw [if_pos hfail]
      refine iff_of_true (returns_none ho) fun hc => ?_
      obtain ⟨-, hok, hne⟩ := hc.2 hb
      rcases hfail with hfail | hfail
      · rw [hfail] at hok
        cases hok
      · have := List.length_pos_iff.mpr hne
        omega
    · rw [if_neg hfail]
      obtain ⟨hok, hlen⟩ := not_or.mp hfail
      have hne : c.buffer ≠ [] := by
        intro hnil
        rw [hnil] at hlen
        exact hlen (Nat.min_zero _)
      have hcall : Called c ↔ ((c.instances c.id).bind Instance.connect).isSome = true :=
        and_iff_left fun _ => ⟨hsome.mp rfl, by simpa using hok, hne⟩
      rw [hcall]
      refine callBrick_returns (a := buf) h1 hres ?_ (iff_of_true hbuf hb) (fun _ => rfl) ho
      dsimp only
      rw [hk]

theorem handlePage_returns (h : Entered c) (hroom : HasRoom c) :
    Returns c (handlePage c) ↔ (c.param.isSome = true → Called c → CopiesOut c) := by
  obtain ⟨h1, h2, hparam⟩ := hroom
  unfold handlePage
  cases hs : c.param with
  | none =>
    have hcopy : (copyIn c).2 = none := by
      rw [copyIn_entered h]
      dsimp only
      rw [hs]
    rw [hcopy]
    exact iff_of_true (returns_none rfl) fun hf => by cases hf
  | some s =>
    obtain ⟨hshort, hres⟩ := hparam s hs
    rw [copyIn_plain h h1 h2 hs, strncpy_short hshort]
    dsimp only
    rw [placeRes_zero _ hres, Option.isSome_some, imp_iff_right rfl]
    dsimp only
    by_cases hb : Buffered c.args
    · rw [if_pos hb]
      exact callBuffered_returns h1 hres rfl hb rfl
    · rw [if_neg hb]
      have hcall : Called c ↔ ((c.instances c.id).bind Instance.connect).isSome = true :=
        and_iff_left fun hb' => absurd hb' hb
      rw [hcall]
      exact callBrick_returns h1 hres rfl (iff_of_false (not_not_intro rfl) hb)
        (fun hb' => absurd hb' hb) rfl

/-! ## The handler -/

/-- The handler leaves before the parameter: there is nothing wrong. -/
theorem marshalled_early (h : ¬ Entered c) : Marshalled c (handlePage c) := by
  obtain ⟨hin, hapart⟩ := places_room (c := c) (n := 0) (Nat.zero_le _)
  have hcopy : (copyIn c).2 = none ∧ (copyIn c).1 <+:
      [⟨c.page, argsSize⟩, ⟨c.page + argsSize, argsSize⟩, ⟨c.page + 2 * argsSize, 0⟩] := by
    unfold copyIn
    dsimp only
    by_cases hargs : c.faults.args = true
    · rw [if_pos hargs]
      exact ⟨rfl, [_, _], rfl⟩
    · have hbackup : c.faults.backup = true := by
        by_contra hbackup
        exact h ⟨Bool.eq_false_iff.mpr hargs, Bool.eq_false_iff.mpr hbackup⟩
      rw [if_neg hargs, if_pos hbackup]
      exact ⟨rfl, [_], rfl⟩
  have hend := handlePage_ended c
  refine ⟨fun q hq => ?_, ?_, fun s hs => ?_, ?_, hend.freed⟩
  · rw [hend.copies] at hq
    exact hin q (hcopy.2.subset hq)
  · rw [hend.copies]
    exact hapart.sublist hcopy.2.sublist
  · rw [hend.param] at hs
    change (copyIn c).2.map Copied.param = some s at hs
    rw [hcopy.1] at hs
    cases hs
  · unfold handlePage
    rw [hcopy.1]
    exact returns_none rfl

theorem marshalled_entered (h : Entered c) : Marshalled c (handlePage c) ↔
    HasRoom c ∧ (c.param.isSome = true → Called c → CopiesOut c) := by
  have hend := handlePage_ended c
  constructor
  · intro hm
    have hapart : (entered c).copies.Pairwise Region.Apart := by
      rw [← hend.copies]
      exact hm.apart
    have hroom := (copyIn_room h).mp ⟨fun q hq => hm.inside q (hend.copies ▸ hq), hapart,
      fun k hk => hm.ends _ (hend.param.trans (congrArg (Option.map _) hk))⟩
    exact ⟨hroom, (handlePage_returns h hroom).mp hm.returns⟩
  · rintro ⟨hroom, hret⟩
    obtain ⟨hin, hapart, hends⟩ := (copyIn_room h).mpr hroom
    refine ⟨fun q hq => hin q ?_, ?_, fun s hs => ?_, (handlePage_returns h hroom).mpr hret,
      hend.freed⟩
    · rw [hend.copies] at hq
      exact hq
    · rw [hend.copies]
      exact hapart
    · rw [hend.param] at hs
      obtain ⟨k, hk, rfl⟩ := Option.map_eq_some_iff.mp hs
      exact hends k hk

/-- A brick that sets nothing. -/
def idle : Instance Unit Unit where
  id := 0
  connect := some fun args _ _ _ _ =>
    ⟨args.logLen, args.physAddr, args.physLen, args.connLen, (), (), [], []⟩

/-- `$instconn`, with a connector and without a parameter. -/
def oneConn : Call Unit Unit where
  id := 0
  instances := fun _ => some idle
  uArgs := 64
  argsOk := true
  uParam := 512
  paramOk := true
  args := ⟨.instconn, .stop, 0, 0, 0, 1024, 0, 0, 0, ()⟩
  conn1 := ()
  conn2 := ()
  param := some ⟨[], List.not_mem_nil⟩
  buffer := []
  bufferOk := true
  page := 65536
  pages := fun _ => 0
  faults := ⟨false, false, false, false, false, false, false, false⟩

end Athomux.LrpcServer
