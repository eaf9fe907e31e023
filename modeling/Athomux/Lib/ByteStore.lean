import Athomux.Lib.Regions
import Mathlib.Logic.Nontrivial.Defs

/-!
# Stores of bytes

A store has something at every address. A part of it can be moved, and a part of it can be created
anew. What is in the part where a move has come from is not defined, and neither is what is in a new
one: it is taken from `fill`.
-/

namespace Lib

variable {α : Type} {r : Region} {addr len : Nat} {d : Int}

def moveBytes (mem fill : Nat → α) (addr len : Nat) (d : Int) : Nat → α := fun x =>
  if addr + d ≤ x ∧ (x : Int) < addr + len + d then mem (x - d).toNat
  else if addr ≤ x ∧ x < addr + len then fill x
  else mem x

def createBytes (mem fill : Nat → α) (addr len : Nat) : Nat → α := fun x =>
  if addr ≤ x ∧ x < addr + len then fill x else mem x

/-! ## What is kept

Each of these holds for all contents of the store.
-/

/-- The one byte that is not like the others. -/
def mark (a b : α) (x : Nat) : Nat → α := fun y => if y = x then a else b

theorem createBytes_stay (mem fill : Nat → α) {x : Nat} (hx : ¬ Region.Has ⟨addr, len⟩ x) :
    createBytes mem fill addr len x = mem x :=
  if_neg hx

theorem createBytes_zero (mem fill : Nat → α) (addr : Nat) : createBytes mem fill addr 0 = mem := by
  funext x
  rw [createBytes, if_neg (by omega)]

theorem createBytes_new {a b : α} (hab : a ≠ b) {mem : Nat → α} {x : Nat}
    (h : createBytes mem (fun _ => b) addr len x = a) : ¬ Region.Has ⟨addr, len⟩ x := by
  intro hin
  have hb : createBytes mem (fun _ => b) addr len x = b := if_pos hin
  exact hab (h.symm.trans hb)

/-- A part that is moved is found `d` behind. -/
theorem moveBytes_along (mem fill : Nat → α) {x : Nat} (hx : Region.Has ⟨addr, len⟩ x) {y : Nat}
    (hy : (y : Int) = x + d) : moveBytes mem fill addr len d y = mem x := by
  unfold Region.Has Region.stop at hx
  simp only at hx
  rw [moveBytes, if_pos (by omega)]
  congr 1
  omega

theorem moveBytes_stay (mem fill : Nat → α) {x : Nat} (hsrc : ¬ Region.Has ⟨addr, len⟩ x)
    (hdst : ¬ (addr + d ≤ x ∧ (x : Int) < addr + len + d)) :
    moveBytes mem fill addr len d x = mem x := by
  rw [moveBytes, if_neg hdst]
  exact if_neg hsrc

theorem moveBytes_zero (mem fill : Nat → α) (addr len : Nat) :
    moveBytes mem fill addr len 0 = mem := by
  funext x
  unfold moveBytes
  split
  · congr 1
  · rw [if_neg (by omega)]

/-- What is found at `y` comes from `x`, so it is moved there or left there. -/
theorem moveBytes_from {a b : α} (hab : a ≠ b) {x y : Nat}
    (h : moveBytes (mark a b x) (fun _ => b) addr len d y = a) :
    (Region.Has ⟨addr, len⟩ x ∧ (y : Int) = x + d) ∨
      (y = x ∧ ¬ Region.Has ⟨addr, len⟩ x ∧ ¬ (addr + d ≤ x ∧ (x : Int) < addr + len + d)) := by
  unfold Region.Has Region.stop
  unfold moveBytes mark at h
  simp only
  split at h
  · split at h
    · exact Or.inl (by omega)
    · exact absurd h hab.symm
  · split at h
    · exact absurd h hab.symm
    · split at h
      · exact Or.inr (by omega)
      · exact absurd h hab.symm

/-! ## A region that is read before and after

Something is moved by `d`, and then something is created anew. What was in `r` is read in `r'`.
-/

variable {r' : Region} {base n : Nat}

/-- The region is part of what is moved, and is read where it has been moved to. -/
theorem read_along (hlen : r'.len = r.len) (hstart : (r'.start : Int) = r.start + d)
    (hin : ∀ x, r.Has x → Region.Has ⟨base, n⟩ x) (hnew : r'.Apart ⟨addr, len⟩)
    (mem fill fill' : Nat → α) {i : Nat} (hi : i < r.len) :
    createBytes (moveBytes mem fill base n d) fill' addr len (r'.start + i) =
      mem (r.start + i) := by
  have hx : r.Has (r.start + i) := ⟨Nat.le_add_right _ _, Nat.add_lt_add_left hi _⟩
  have hx' : r'.Has (r'.start + i) := ⟨Nat.le_add_right _ _, Nat.add_lt_add_left (hlen ▸ hi) _⟩
  rw [createBytes_stay _ _ (hnew _ hx'), moveBytes_along mem fill (hin _ hx) (by omega)]

theorem read_stay (hdst : ∀ x, r.Has x → ¬ (base + d ≤ x ∧ (x : Int) < base + n + d))
    (hsrc : r.Apart ⟨base, n⟩) (hnew : r.Apart ⟨addr, len⟩) (mem fill fill' : Nat → α) {i : Nat}
    (hi : i < r.len) :
    createBytes (moveBytes mem fill base n d) fill' addr len (r.start + i) = mem (r.start + i) := by
  have hx : r.Has (r.start + i) := ⟨Nat.le_add_right _ _, Nat.add_lt_add_left hi _⟩
  rw [createBytes_stay _ _ (hnew _ hx), moveBytes_stay mem fill (hsrc _ hx) (hdst _ hx)]

/-- If a region is read as it was, whatever was in the store, nothing was created in it, and each of
its bytes was moved to where it is read, or left there. -/
theorem of_read {a b : α} (hab : a ≠ b) (hlen : r'.len = r.len)
    (h : ∀ x i, i < r.len → createBytes (moveBytes (mark a b x) (fun _ => b) base n d) (fun _ => b)
      addr len (r'.start + i) = mark a b x (r.start + i)) :
    r'.Apart ⟨addr, len⟩ ∧ ∀ i < r.len,
      (Region.Has ⟨base, n⟩ (r.start + i) ∧ ((r'.start + i : Nat) : Int) = (r.start + i : Nat) + d) ∨
      (r'.start = r.start ∧ ¬ Region.Has ⟨base, n⟩ (r.start + i) ∧
        ¬ (base + d ≤ (r.start + i : Nat) ∧ ((r.start + i : Nat) : Int) < base + n + d)) := by
  have hmark : ∀ i, i < r.len → createBytes (moveBytes (mark a b (r.start + i)) (fun _ => b) base n d)
      (fun _ => b) addr len (r'.start + i) = a := fun i hi => by
    rw [h _ i hi, mark, if_pos rfl]
  constructor
  · intro y hy
    obtain ⟨hlow, hhigh⟩ := hy
    unfold Region.stop at hhigh
    have hi : y - r'.start < r.len := by omega
    have hnew := createBytes_new hab (hmark _ hi)
    rwa [Nat.add_sub_cancel' hlow] at hnew
  · intro i hi
    have hnew := createBytes_new hab (hmark i hi)
    have hmoved := hmark i hi
    rw [createBytes_stay _ _ hnew] at hmoved
    rcases moveBytes_from hab hmoved with hin | ⟨heq, hout⟩
    · exact Or.inl hin
    · exact Or.inr ⟨by omega, hout⟩

/-! ### Shifting

What starts at `base` or behind it is read where it would be shifted to.
-/

/-- What starts at `base` or behind it is shifted with all of its bytes. No byte of the others is
shifted, or comes to lie under something that is. -/
def Spared (r : Region) (base n : Nat) (d : Int) : Prop :=
  if base ≤ r.start then ∀ x, r.Has x → Region.Has ⟨base, n⟩ x
  else r.Apart ⟨base, n⟩ ∧ ∀ x, r.Has x → ¬ (base + d ≤ x ∧ (x : Int) < base + n + d)

theorem Spared.read (hspared : Spared r base n d) (hlen : r'.len = r.len)
    (hstart : (r'.start : Int) = r.start + if base ≤ r.start then d else 0)
    (hnew : r'.Apart ⟨addr, len⟩) (mem fill fill' : Nat → α) {i : Nat} (hi : i < r.len) :
    createBytes (moveBytes mem fill base n d) fill' addr len (r'.start + i) =
      mem (r.start + i) := by
  unfold Spared at hspared
  split at hspared
  · rename_i hbehind
    rw [if_pos hbehind] at hstart
    exact read_along hlen hstart hspared hnew mem fill fill' hi
  · rename_i hbefore
    rw [if_neg hbefore, Int.add_zero] at hstart
    obtain rfl : r' = r := by
      cases r
      cases r'
      simp only [Region.mk.injEq]
      exact ⟨Int.ofNat_inj.mp hstart, hlen⟩
    exact read_stay hspared.2 hspared.1 hnew mem fill fill' hi

theorem spared_of_read {a b : α} (hab : a ≠ b) (hlen : r'.len = r.len)
    (hstart : (r'.start : Int) = r.start + if base ≤ r.start then d else 0) (hd : d ≠ 0)
    (h : ∀ x i, i < r.len → createBytes (moveBytes (mark a b x) (fun _ => b) base n d) (fun _ => b)
      addr len (r'.start + i) = mark a b x (r.start + i)) :
    Spared r base n d ∧ r'.Apart ⟨addr, len⟩ := by
  obtain ⟨hnew, hmoved⟩ := of_read hab hlen h
  refine ⟨?_, hnew⟩
  have hbyte : ∀ x, r.Has x → ∃ i < r.len, x = r.start + i := fun x hx =>
    ⟨x - r.start, by have := hx.2; unfold Region.stop at this; have := hx.1; omega,
      (Nat.add_sub_cancel' hx.1).symm⟩
  unfold Spared
  split
  · rename_i hbehind
    rw [if_pos hbehind] at hstart
    intro x hx
    obtain ⟨i, hi, rfl⟩ := hbyte x hx
    rcases hmoved i hi with ⟨hin, -⟩ | ⟨heq, -⟩
    · exact hin
    · omega
  · rename_i hbefore
    rw [if_neg hbefore] at hstart
    have hout : ∀ x, r.Has x → ¬ Region.Has ⟨base, n⟩ x ∧
        ¬ (base + d ≤ x ∧ (x : Int) < base + n + d) := by
      intro x hx
      obtain ⟨i, hi, rfl⟩ := hbyte x hx
      rcases hmoved i hi with ⟨-, heq⟩ | ⟨-, hout⟩
      · omega
      · exact hout
    exact ⟨fun x hx => (hout x hx).1, fun x hx => (hout x hx).2⟩

/-- What is not shifted at all has to be out of the way. -/
theorem stay_of_read {a b : α} (hab : a ≠ b) (hd : d ≠ 0)
    (h : ∀ x i, i < r.len → createBytes (moveBytes (mark a b x) (fun _ => b) base n d) (fun _ => b)
      addr len (r.start + i) = mark a b x (r.start + i)) :
    r.Apart ⟨base, n⟩ ∧ ∀ x, r.Has x → ¬ (base + d ≤ x ∧ (x : Int) < base + n + d) := by
  have hout : ∀ x, r.Has x → ¬ Region.Has ⟨base, n⟩ x ∧
      ¬ (base + d ≤ x ∧ (x : Int) < base + n + d) := by
    intro x hx
    have hi : x - r.start < r.len := by
      have := hx.2
      unfold Region.stop at this
      have := hx.1
      omega
    have hmoved := (of_read hab rfl h).2 _ hi
    rw [Nat.add_sub_cancel' hx.1] at hmoved
    rcases hmoved with ⟨-, heq⟩ | ⟨-, hout⟩
    · omega
    · exact hout
  exact ⟨fun x hx => (hout x hx).1, fun x hx => (hout x hx).2⟩

end Lib
