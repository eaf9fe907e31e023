import Mathlib.Data.List.Nodup
import Mathlib.Logic.Function.Basic

/-!
# Doubly linked lists

The cells are named by `ρ`. `none` stands for both ends: `nxt none` is the first
cell and `prv none` the last, so a list is a chain of neighbours from `none` to
`none`.
-/

namespace Lib

variable {ρ : Type}

structure Links (ρ : Type) where
  first : Option ρ
  last : Option ρ
  next : ρ → Option ρ
  prev : ρ → Option ρ

namespace Links

def nxt (k : Links ρ) : Option ρ → Option ρ
  | none => k.first
  | some r => k.next r

def prv (k : Links ρ) : Option ρ → Option ρ
  | none => k.last
  | some r => k.prev r

section Edits

variable [DecidableEq ρ]

def setNext (k : Links ρ) (r : ρ) (q : Option ρ) : Links ρ :=
  { k with next := Function.update k.next r q }

def setPrev (k : Links ρ) (r : ρ) (p : Option ρ) : Links ρ :=
  { k with prev := Function.update k.prev r p }

/-- What comes after `p`. -/
def setNxt (k : Links ρ) (p q : Option ρ) : Links ρ :=
  match p with
  | some p => k.setNext p q
  | none => { k with first := q }

/-- What comes before `q`. -/
def setPrv (k : Links ρ) (q p : Option ρ) : Links ρ :=
  match q with
  | some q => k.setPrev q p
  | none => { k with last := p }

/-- Links `r` in before `scan`, or at the end. -/
def insertBefore (k : Links ρ) (r : ρ) (scan : Option ρ) : Links ρ :=
  let p := k.prv scan
  (((k.setNext r scan).setPrev r p).setPrv scan (some r)).setNxt p (some r)

def unlink (k : Links ρ) (r : ρ) : Links ρ :=
  (k.setNxt (k.prev r) (k.next r)).setPrv (k.next r) (k.prev r)

end Edits

/-! ## Chains of neighbours -/

/-- Consecutive places point at each other. -/
def Chain (k : Links ρ) : List (Option ρ) → Prop
  | x :: y :: l => k.nxt x = y ∧ k.prv y = x ∧ Chain k (y :: l)
  | _ => True

theorem chain_append {k : Links ρ} (X : List (Option ρ)) (x : Option ρ) (Y : List (Option ρ)) :
    k.Chain (X ++ x :: Y) ↔ k.Chain (X ++ [x]) ∧ k.Chain (x :: Y) := by
  induction X with
  | nil => simp [Chain]
  | cons a X ih =>
    cases X with
    | nil => simp [Chain, and_assoc]
    | cons b X =>
      simp only [List.cons_append, Chain] at ih ⊢
      rw [ih]
      simp only [and_assoc]

/-- A chain looks at `nxt` of all places but the last, at `prv` of all but the first. -/
theorem Chain.congr {k k' : Links ρ} {l : List (Option ρ)} (h : k.Chain l)
    (hn : ∀ x ∈ l.dropLast, k'.nxt x = k.nxt x) (hp : ∀ x ∈ l.tail, k'.prv x = k.prv x) :
    k'.Chain l := by
  induction l with
  | nil => trivial
  | cons x l ih =>
    cases l with
    | nil => trivial
    | cons y l =>
      obtain ⟨h1, h2, h3⟩ := h
      refine ⟨(hn x (by simp)).trans h1, (hp y (by simp)).trans h2, ih h3 ?_ ?_⟩
      · intro z hz
        exact hn z (List.mem_cons_of_mem _ hz)
      · intro z hz
        exact hp z (List.mem_cons_of_mem _ hz)

/-- The cells of `l`, in order, from `first` to `last`. -/
structure Dll (k : Links ρ) (l : List ρ) : Prop where
  chain : k.Chain (none :: (l.map some ++ [none]))
  nodup : l.Nodup

/-- The places around the gap between `X` and `Y`. -/
theorem exists_gap (X Y : List ρ) : ∃ P Q, none :: X.map some = P ++ [X.getLast?] ∧
    Y.map some ++ [none] = Y.head? :: Q := by
  have hX : ∃ P, none :: X.map some = P ++ [X.getLast?] := by
    rcases List.eq_nil_or_concat X with rfl | ⟨X', x, rfl⟩
    · exact ⟨[], rfl⟩
    · exact ⟨none :: X'.map some, by simp⟩
  have hY : ∃ Q, Y.map some ++ [none] = Y.head? :: Q := by
    cases Y with
    | nil => exact ⟨[], rfl⟩
    | cons y Y' => exact ⟨Y'.map some ++ [none], by simp⟩
  obtain ⟨P, hP⟩ := hX
  obtain ⟨Q, hQ⟩ := hY
  exact ⟨P, Q, hP, hQ⟩

theorem chain_gap {k : Links ρ} (X Y : List ρ) :
    k.Chain (none :: ((X ++ Y).map some ++ [none])) ↔
      k.Chain (none :: X.map some) ∧ (k.nxt X.getLast? = Y.head? ∧ k.prv Y.head? = X.getLast?) ∧
        k.Chain (Y.map some ++ [none]) := by
  obtain ⟨P, Q, hP, hQ⟩ := exists_gap X Y
  have : none :: ((X ++ Y).map some ++ [none]) = P ++ X.getLast? :: Y.head? :: Q := by
    rw [List.map_append, List.append_assoc, hQ, ← List.cons_append, hP, List.append_assoc]
    rfl
  rw [this, chain_append, hP, hQ]
  simp only [Chain, and_assoc]

theorem Dll.next {k : Links ρ} {X : List ρ} {r : ρ} {Y : List ρ} (h : k.Dll (X ++ r :: Y)) :
    k.next r = Y.head? := by
  have := (chain_gap (X ++ [r]) Y).mp (by simpa using h.chain)
  simpa [nxt] using this.2.1.1

theorem Dll.prev {k : Links ρ} {X : List ρ} {r : ρ} {Y : List ρ} (h : k.Dll (X ++ r :: Y)) :
    k.prev r = X.getLast? := by
  have := (chain_gap X (r :: Y)).mp h.chain
  simpa [prv] using this.2.1.2

theorem Dll.first {k : Links ρ} {l : List ρ} (h : k.Dll l) : k.first = l.head? := by
  have := (chain_gap [] l).mp (by simpa using h.chain)
  simpa [nxt] using this.2.1.1

theorem Dll.last {k : Links ρ} {l : List ρ} (h : k.Dll l) : k.last = l.getLast? := by
  have := (chain_gap l []).mp (by simpa using h.chain)
  simpa [prv] using this.2.1.2

/-- The chain up to the gap, when `nxt` changes at the gap and at `r` only. -/
theorem Chain.congr_left {k k' : Links ρ} {X Y : List ρ} {r : ρ}
    (h : k.Chain (none :: X.map some)) (hnodup : (X ++ Y).Nodup) (hr : r ∉ X)
    (hn : ∀ x, x ≠ X.getLast? → x ≠ some r → k'.nxt x = k.nxt x)
    (hp : ∀ x, x ≠ Y.head? → x ≠ some r → k'.prv x = k.prv x) :
    k'.Chain (none :: X.map some) := by
  obtain ⟨P, -, hP, -⟩ := exists_gap X Y
  have hnd : (P ++ [X.getLast?]).Nodup := by
    rw [← hP]
    exact List.nodup_cons.mpr
      ⟨by simp, (List.nodup_append.mp hnodup).1.map (fun _ _ => Option.some.inj)⟩
  have hne : ∀ x ∈ none :: X.map some, x ≠ some r := by
    rintro x hx rfl
    exact hr (by simpa using hx)
  apply h.congr
  · intro x hx
    refine hn x ?_ (hne x (List.dropLast_subset _ hx))
    rw [hP, List.dropLast_concat] at hx
    rintro rfl
    exact (List.nodup_append.mp hnd).2.2 _ hx _ (List.mem_singleton_self _) rfl
  · intro x hx
    refine hp x ?_ (hne x (List.mem_of_mem_tail hx))
    rintro rfl
    rw [List.tail_cons, List.mem_map] at hx
    obtain ⟨y, hy, hhead⟩ := hx
    exact (List.nodup_append.mp hnodup).2.2 y hy y (List.mem_of_mem_head? hhead.symm) rfl

/-- The chain from the gap on. -/
theorem Chain.congr_right {k k' : Links ρ} {X Y : List ρ} {r : ρ}
    (h : k.Chain (Y.map some ++ [none])) (hnodup : (X ++ Y).Nodup) (hr : r ∉ Y)
    (hn : ∀ x, x ≠ X.getLast? → x ≠ some r → k'.nxt x = k.nxt x)
    (hp : ∀ x, x ≠ Y.head? → x ≠ some r → k'.prv x = k.prv x) :
    k'.Chain (Y.map some ++ [none]) := by
  obtain ⟨-, Q, -, hQ⟩ := exists_gap X Y
  have hnd : (Y.head? :: Q).Nodup := by
    rw [← hQ]
    refine List.nodup_append.mpr ⟨(List.nodup_append.mp hnodup).2.1.map (fun _ _ => Option.some.inj),
      List.nodup_singleton _, ?_⟩
    rintro x hx y hy rfl
    rw [List.mem_singleton] at hy
    simp [hy] at hx
  have hne : ∀ x ∈ Y.map some ++ [none], x ≠ some r := by
    rintro x hx rfl
    exact hr (by simpa using hx)
  apply h.congr
  · intro x hx
    refine hn x ?_ (hne x (List.dropLast_subset _ hx))
    rintro rfl
    rw [List.dropLast_concat, List.mem_map] at hx
    obtain ⟨y, hy, hlast⟩ := hx
    exact (List.nodup_append.mp hnodup).2.2 y (List.mem_of_mem_getLast? hlast.symm) y hy rfl
  · intro x hx
    refine hp x ?_ (hne x (List.mem_of_mem_tail hx))
    rw [hQ, List.tail_cons] at hx
    rintro rfl
    exact (List.nodup_cons.mp hnd).1 hx

section Edits

variable [DecidableEq ρ]

@[simp] theorem nxt_setNxt (k : Links ρ) (p q x : Option ρ) :
    (k.setNxt p q).nxt x = if x = p then q else k.nxt x := by
  cases p <;> cases x <;> simp [setNxt, setNext, nxt, Function.update_apply]

@[simp] theorem prv_setNxt (k : Links ρ) (p q : Option ρ) : (k.setNxt p q).prv = k.prv := by
  funext x
  cases p <;> cases x <;> rfl

@[simp] theorem prv_setPrv (k : Links ρ) (q p x : Option ρ) :
    (k.setPrv q p).prv x = if x = q then p else k.prv x := by
  cases q <;> cases x <;> simp [setPrv, setPrev, prv, Function.update_apply]

@[simp] theorem nxt_setPrv (k : Links ρ) (q p : Option ρ) : (k.setPrv q p).nxt = k.nxt := by
  funext x
  cases q <;> cases x <;> rfl

theorem nxt_insertBefore (k : Links ρ) (r : ρ) (scan x : Option ρ) :
    (k.insertBefore r scan).nxt x =
      if x = k.prv scan then some r else if x = some r then scan else k.nxt x := by
  have h : ((k.setNext r scan).setPrev r (k.prv scan)).nxt x = (k.setNxt (some r) scan).nxt x :=
    congrFun (nxt_setPrv (k.setNxt (some r) scan) (some r) (k.prv scan)) x
  rw [insertBefore, nxt_setNxt, nxt_setPrv, h, nxt_setNxt]

theorem prv_insertBefore (k : Links ρ) (r : ρ) (scan x : Option ρ) :
    (k.insertBefore r scan).prv x =
      if x = scan then some r else if x = some r then k.prv scan else k.prv x := by
  have h : ((k.setNext r scan).setPrev r (k.prv scan)).prv x =
      if x = some r then k.prv scan else (k.setNxt (some r) scan).prv x :=
    prv_setPrv (k.setNxt (some r) scan) (some r) (k.prv scan) x
  rw [insertBefore, prv_setNxt, prv_setPrv, h, prv_setNxt]

theorem nxt_unlink (k : Links ρ) (r : ρ) (x : Option ρ) :
    (k.unlink r).nxt x = if x = k.prev r then k.next r else k.nxt x := by
  rw [unlink, nxt_setPrv, nxt_setNxt]

theorem prv_unlink (k : Links ρ) (r : ρ) (x : Option ρ) :
    (k.unlink r).prv x = if x = k.next r then k.prev r else k.prv x := by
  rw [unlink, prv_setPrv, prv_setNxt]

theorem Dll.insertBefore {k : Links ρ} {X Y : List ρ} {r : ρ} (h : k.Dll (X ++ Y))
    (hr : r ∉ X ++ Y) : (k.insertBefore r Y.head?).Dll (X ++ r :: Y) := by
  obtain ⟨hX, ⟨-, hp⟩, hY⟩ := (chain_gap X Y).mp h.chain
  have hrX : r ∉ X := fun hm => hr (List.mem_append_left _ hm)
  have hrY : r ∉ Y := fun hm => hr (List.mem_append_right _ hm)
  have hlast : some r ≠ X.getLast? := fun heq => hrX (List.mem_of_mem_getLast? heq.symm)
  have hhead : some r ≠ Y.head? := fun heq => hrY (List.mem_of_mem_head? heq.symm)
  have hn : ∀ x, (k.insertBefore r Y.head?).nxt x =
      if x = X.getLast? then some r else if x = some r then Y.head? else k.nxt x := by
    intro x
    rw [nxt_insertBefore, hp]
  have hq : ∀ x, (k.insertBefore r Y.head?).prv x =
      if x = Y.head? then some r else if x = some r then X.getLast? else k.prv x := by
    intro x
    rw [prv_insertBefore, hp]
  have hn' : ∀ x, x ≠ X.getLast? → x ≠ some r → (k.insertBefore r Y.head?).nxt x = k.nxt x :=
    fun x h1 h2 => by rw [hn, if_neg h1, if_neg h2]
  have hq' : ∀ x, x ≠ Y.head? → x ≠ some r → (k.insertBefore r Y.head?).prv x = k.prv x :=
    fun x h1 h2 => by rw [hq, if_neg h1, if_neg h2]
  constructor
  · refine (chain_gap X (r :: Y)).mpr ⟨hX.congr_left h.nodup hrX hn' hq', ⟨?_, ?_⟩, ?_⟩
    · rw [hn, if_pos rfl]
      rfl
    · rw [List.head?_cons, hq, if_neg hhead, if_pos rfl]
    · obtain ⟨-, Q, -, hQ⟩ := exists_gap X Y
      have hY' := hY.congr_right h.nodup hrY hn' hq'
      rw [List.map_cons, List.cons_append]
      rw [hQ] at hY' ⊢
      exact ⟨by rw [hn, if_neg hlast, if_pos rfl], by rw [hq, if_pos rfl], hY'⟩
  · exact List.nodup_middle.mpr (List.nodup_cons.mpr ⟨hr, h.nodup⟩)

theorem Dll.unlink {k : Links ρ} {X Y : List ρ} {r : ρ} (h : k.Dll (X ++ r :: Y)) :
    (k.unlink r).Dll (X ++ Y) := by
  have hnd := List.nodup_cons.mp (List.nodup_middle.mp h.nodup)
  have hrX : r ∉ X := fun hm => hnd.1 (List.mem_append_left _ hm)
  have hrY : r ∉ Y := fun hm => hnd.1 (List.mem_append_right _ hm)
  obtain ⟨hX, -, hY⟩ := (chain_gap X (r :: Y)).mp h.chain
  have hY : k.Chain (Y.map some ++ [none]) := by
    obtain ⟨-, Q, -, hQ⟩ := exists_gap X Y
    rw [List.map_cons, List.cons_append] at hY
    rw [hQ] at hY ⊢
    exact hY.2.2
  have hn : ∀ x, (k.unlink r).nxt x = if x = X.getLast? then Y.head? else k.nxt x := by
    intro x
    rw [nxt_unlink, h.prev, h.next]
  have hq : ∀ x, (k.unlink r).prv x = if x = Y.head? then X.getLast? else k.prv x := by
    intro x
    rw [prv_unlink, h.prev, h.next]
  have hn' : ∀ x, x ≠ X.getLast? → x ≠ some r → (k.unlink r).nxt x = k.nxt x :=
    fun x h1 _ => by rw [hn, if_neg h1]
  have hq' : ∀ x, x ≠ Y.head? → x ≠ some r → (k.unlink r).prv x = k.prv x :=
    fun x h1 _ => by rw [hq, if_neg h1]
  refine ⟨(chain_gap X Y).mpr ⟨hX.congr_left hnd.2 hrX hn' hq', ⟨?_, ?_⟩,
    hY.congr_right hnd.2 hrY hn' hq'⟩, hnd.2⟩
  · rw [hn, if_pos rfl]
  · rw [hq, if_pos rfl]

/-- `insertBefore` leaves `next` alone outside of the list. -/
theorem Dll.next_insertBefore {k : Links ρ} {X Y : List ρ} {r x : ρ} (h : k.Dll (X ++ Y))
    (hx : x ∉ X) (hxr : x ≠ r) : (k.insertBefore r Y.head?).next x = k.next x := by
  obtain ⟨-, ⟨-, hp⟩, -⟩ := (chain_gap X Y).mp h.chain
  have := nxt_insertBefore k r Y.head? (some x)
  rw [hp, if_neg (fun heq => hx (List.mem_of_mem_getLast? heq.symm)), if_neg (by simpa)] at this
  exact this

theorem Dll.next_unlink {k : Links ρ} {X Y : List ρ} {r x : ρ} (h : k.Dll (X ++ r :: Y))
    (hx : x ∉ X) : (k.unlink r).next x = k.next x := by
  have := nxt_unlink k r (some x)
  rw [h.prev, if_neg (fun heq => hx (List.mem_of_mem_getLast? heq.symm))] at this
  exact this

end Edits

/-! ## Walking -/

/-- From `r` on, along `next`, to the first cell that meets `stop`. -/
def walk (next : ρ → Option ρ) (stop : ρ → Bool) : Nat → Option ρ → Option ρ
  | fuel + 1, some r => if stop r then some r else walk next stop fuel (next r)
  | _, _ => none

theorem Dll.walk_eq {k : Links ρ} {X Y : List ρ} (h : k.Dll (X ++ Y)) (stop : ρ → Bool)
    {fuel : Nat} (hfuel : Y.length ≤ fuel) :
    walk k.next stop fuel Y.head? = Y.find? stop := by
  induction Y generalizing X fuel with
  | nil => cases fuel <;> rfl
  | cons r Y ih =>
    obtain ⟨n, rfl⟩ : ∃ n, fuel = n + 1 := ⟨fuel - 1, by simp at hfuel; omega⟩
    rw [List.head?_cons, walk, h.next, List.find?_cons]
    cases stop r with
    | true => rfl
    | false =>
      simp only [Bool.false_eq_true, if_false]
      exact ih (X := X ++ [r]) (by simpa using h) (by simpa using hfuel)

end Links

/-! ## Singly linked chains -/

/-- `l` is what `next` reaches from `p`. -/
def NextPath (next : ρ → Option ρ) : Option ρ → List ρ → Prop
  | p, [] => p = none
  | p, r :: l => p = some r ∧ NextPath next (next r) l

theorem NextPath.congr {next next' : ρ → Option ρ} {p : Option ρ} {l : List ρ} (h : NextPath next p l)
    (heq : ∀ r ∈ l, next' r = next r) : NextPath next' p l := by
  induction l generalizing p with
  | nil => exact h
  | cons r l ih =>
    obtain ⟨h1, h2⟩ := h
    refine ⟨h1, ?_⟩
    rw [heq r List.mem_cons_self]
    exact ih h2 fun x hx => heq x (List.mem_cons_of_mem _ hx)

theorem Links.Dll.path {k : Links ρ} {X Y : List ρ} (h : k.Dll (X ++ Y)) :
    NextPath k.next Y.head? Y := by
  induction Y generalizing X with
  | nil => rfl
  | cons r Y ih =>
    refine ⟨rfl, ?_⟩
    rw [h.next]
    exact ih (X := X ++ [r]) (by simpa using h)

/-- The cells from `p` on. -/
def collect (next : ρ → Option ρ) : Nat → Option ρ → List ρ
  | fuel + 1, some r => r :: collect next fuel (next r)
  | _, _ => []

theorem NextPath.collect_eq {next : ρ → Option ρ} {p : Option ρ} {l : List ρ} (h : NextPath next p l)
    {fuel : Nat} (hfuel : l.length ≤ fuel) : collect next fuel p = l := by
  induction l generalizing p fuel with
  | nil => cases h; cases fuel <;> rfl
  | cons r l ih =>
    obtain ⟨n, rfl⟩ : ∃ n, fuel = n + 1 := ⟨fuel - 1, by simp at hfuel; omega⟩
    obtain ⟨rfl, h⟩ := h
    rw [collect, ih h (by simpa using hfuel)]

end Lib
