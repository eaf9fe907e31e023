import Athomux.StratText.Reader

/-!
# Reading a graph

The recursion of `binfo`, for the lists of any of the strategy bricks.
-/

namespace Athomux.StratText

open NetConnect (Text)

/-- What `binfo` does on the lists `σ`. A brick is known as `ρ` to its connections. -/
structure Lists (σ ρ : Type) where
  /-- `$transwait` at an address. -/
  ask : Nat → σ → Option Text × σ
  /-- `new_vaddr`, where there is one. -/
  enter : Nat → σ → ρ × σ
  /-- `find_brick`. -/
  known : Nat → σ → Option ρ
  /-- `insert_brick`. -/
  addBrick : Nat → ρ → BrickText → σ → σ
  /-- `insert_conn`. -/
  addConn : Nat → ρ → OutConn → ρ → σ → σ

variable {σ τ ρ : Type}

/-- The connections of one brick, as far as `visit` succeeds. -/
def walkConns (visit : Nat → σ → Option (σ × Option ρ)) (add : OutConn → ρ → σ → σ) :
    List OutConn → σ → Option (σ × Bool)
  | [], s => some (s, true)
  | c :: cs, s =>
    (visit c.dst.addr s).bind fun r =>
      match r.2 with
      | some v => walkConns visit add cs (add c v r.1)
      | none => some (r.1, false)

/-- `binfo`, with at most `fuel` calls inside each other. -/
def binfo (L : Lists σ ρ) : Nat → Nat → σ → Option (σ × Option ρ)
  | 0, _, _ => none
  | fuel + 1, addr, s =>
    match L.ask addr s with
    | (none, s) => some (s, none)
    | (some buf, s) =>
      let v := (L.enter addr s).1
      let s := (L.enter addr s).2
      match readBrick buf with
      | none => some (s, none)
      | some b =>
        if (L.known addr s).isSome ∧ addr ≠ 0 then some (s, L.known addr s)
        else
          let s := if (L.known addr s).isSome then s else L.addBrick addr v b s
          let conns := readConns b
          (walkConns (binfo L fuel) (L.addConn addr v) conns.1 s).map fun r =>
            (r.1, if r.2 && conns.2 then some v else none)

/-! ## Invariants -/

/-- What each step keeps. `good` is what a text has to be for that. -/
structure Keeps (L : Lists σ ρ) (good : Text → Prop) (I : σ → Prop) : Prop where
  ask : ∀ a s, I s → I (L.ask a s).2 ∧ ∀ buf, (L.ask a s).1 = some buf → good buf
  enter : ∀ a s, I s → I (L.enter a s).2
  addBrick : ∀ a v buf b s, I s → good buf → readBrick buf = some b → I (L.addBrick a v b s)
  addConn : ∀ a v c w s, I s → I (L.addConn a v c w s)

variable {L : Lists σ ρ} {good : Text → Prop} {I : σ → Prop}

theorem walkConns_keeps {visit : Nat → σ → Option (σ × Option ρ)} {add : OutConn → ρ → σ → σ}
    (hvisit : ∀ a s r, I s → visit a s = some r → I r.1)
    (hadd : ∀ c v s, I s → I (add c v s)) {cs : List OutConn} {s : σ} {r : σ × Bool} (hs : I s)
    (h : walkConns visit add cs s = some r) : I r.1 := by
  induction cs generalizing s with
  | nil =>
    cases h
    exact hs
  | cons c cs ih =>
    obtain ⟨q, hq, h⟩ := Option.bind_eq_some_iff.mp h
    have hq' := hvisit _ _ _ hs hq
    cases hv : q.2 with
    | none =>
      rw [hv] at h
      cases h
      exact hq'
    | some v =>
      rw [hv] at h
      exact ih (hadd c v q.1 hq') h

/-- **What each step keeps** is kept by the whole reading. -/
theorem Keeps.binfo (hk : Keeps L good I) {fuel addr : Nat} {s : σ} {r : σ × Option ρ} (hs : I s)
    (h : binfo L fuel addr s = some r) : I r.1 := by
  induction fuel generalizing addr s r with
  | zero => cases h
  | succ fuel ih =>
    obtain ⟨hask, hgood⟩ := hk.ask addr s hs
    rw [StratText.binfo] at h
    rcases hl : L.ask addr s with ⟨_ | buf, s₁⟩
    · rw [hl] at h hask
      cases h
      exact hask
    · rw [hl] at h hask hgood
      have hin := hk.enter addr s₁ hask
      simp only at h
      cases hb : readBrick buf with
      | none =>
        rw [hb] at h
        cases h
        exact hin
      | some b =>
        rw [hb] at h
        simp only at h
        split at h
        · cases h
          exact hin
        · obtain ⟨q, hq, rfl⟩ := Option.map_eq_some_iff.mp h
          refine walkConns_keeps (fun a s r hs hr => ih hs hr)
            (fun c v s hs => hk.addConn addr _ c v s hs) ?_ hq
          split
          · exact hin
          · exact hk.addBrick addr _ buf b _ hin (hgood buf rfl) hb

/-! ## Two kinds of lists -/

/-- `f` takes each step on the lists `σ` to the step on the lists `τ`. -/
structure Maps (L : Lists σ ρ) (L' : Lists τ ρ) (f : σ → τ) : Prop where
  ask : ∀ a s, L'.ask a (f s) = ((L.ask a s).1, f (L.ask a s).2)
  enter : ∀ a s, L'.enter a (f s) = ((L.enter a s).1, f (L.enter a s).2)
  known : ∀ a s, L'.known a (f s) = L.known a s
  addBrick : ∀ a v b s, L'.addBrick a v b (f s) = f (L.addBrick a v b s)
  addConn : ∀ a v c w s, L'.addConn a v c w (f s) = f (L.addConn a v c w s)

theorem walkConns_map {f : σ → τ} {visit : Nat → σ → Option (σ × Option ρ)}
    {visit' : Nat → τ → Option (τ × Option ρ)} {add : OutConn → ρ → σ → σ}
    {add' : OutConn → ρ → τ → τ}
    (hvisit : ∀ a s, visit' a (f s) = (visit a s).map fun r => (f r.1, r.2))
    (hadd : ∀ c v s, add' c v (f s) = f (add c v s)) (cs : List OutConn) (s : σ) :
    walkConns visit' add' cs (f s) = (walkConns visit add cs s).map fun r => (f r.1, r.2) := by
  induction cs generalizing s with
  | nil => rfl
  | cons c cs ih =>
    rw [walkConns, walkConns, hvisit]
    rcases visit c.dst.addr s with _ | ⟨s₁, _ | v⟩
    · rfl
    · rfl
    · simp only [Option.map_some, Option.bind_some, hadd, ih]

/-- **The readings of two kinds of lists** correspond when their steps do. -/
theorem Maps.binfo {L' : Lists τ ρ} {f : σ → τ} (hm : Maps L L' f) (fuel addr : Nat) (s : σ) :
    binfo L' fuel addr (f s) = (binfo L fuel addr s).map fun r => (f r.1, r.2) := by
  induction fuel generalizing addr s with
  | zero => rfl
  | succ fuel ih =>
    rw [StratText.binfo, StratText.binfo, hm.ask]
    rcases L.ask addr s with ⟨_ | buf, s₁⟩
    · rfl
    · simp only [hm.enter, hm.known]
      cases readBrick buf with
      | none => rfl
      | some b =>
        simp only
        split
        · rfl
        · have hstart : (if (L.known addr (L.enter addr s₁).2).isSome = true then
              f (L.enter addr s₁).2
              else L'.addBrick addr (L.enter addr s₁).1 b (f (L.enter addr s₁).2)) =
              f (if (L.known addr (L.enter addr s₁).2).isSome = true then (L.enter addr s₁).2
                else L.addBrick addr (L.enter addr s₁).1 b (L.enter addr s₁).2) := by
            split
            · rfl
            · exact hm.addBrick addr _ b _
          rw [hstart, walkConns_map ih (fun c v s => hm.addConn addr _ c v s), Option.map_map,
            Option.map_map]
          rfl

end Athomux.StratText
