import Athomux.Lib.Regions
import Mathlib.Algebra.Order.Group.Nat
import Mathlib.Tactic.NormNum

/-! # Numbers as bytes, the lowest byte first -/

namespace Lib

def toBytes : Nat → Nat → List UInt8
  | 0, _ => []
  | n + 1, x => UInt8.ofNat (x % 256) :: toBytes n (x / 256)

def ofBytes (bytes : List UInt8) : Nat := bytes.foldr (fun b x => b.toNat + 256 * x) 0

@[simp] theorem toBytes_length (n x : Nat) : (toBytes n x).length = n := by
  induction n generalizing x with
  | zero => rfl
  | succ n ih => rw [toBytes, List.length_cons, ih]

theorem ofBytes_toBytes {n x : Nat} (hx : x < 256 ^ n) : ofBytes (toBytes n x) = x := by
  induction n generalizing x with
  | zero =>
    rw [pow_zero] at hx
    simp [toBytes, ofBytes]
    omega
  | succ n ih =>
    have hdiv : x / 256 < 256 ^ n := by
      rw [pow_succ] at hx
      exact Nat.div_lt_of_lt_mul (by rwa [Nat.mul_comm])
    have hrest := ih hdiv
    simp only [ofBytes] at hrest
    simp only [toBytes, ofBytes, List.foldr_cons, hrest, UInt8.toNat_ofNat']
    omega

theorem ofBytes_lt (bytes : List UInt8) : ofBytes bytes < 256 ^ bytes.length := by
  induction bytes with
  | nil => exact Nat.one_pos
  | cons b bytes ih =>
    have hb := b.toNat_lt
    simp only [ofBytes] at ih
    simp only [ofBytes, List.foldr_cons, List.length_cons, pow_succ]
    omega

end Lib

/-! ## Loads and stores of bytes -/

namespace Lib

abbrev ByteMem := Nat → UInt8

namespace ByteMem

def load (mem : ByteMem) (pos n : Nat) : List UInt8 := (List.range n).map fun i => mem (pos + i)

def store (mem : ByteMem) (pos : Nat) (bytes : List UInt8) : ByteMem := fun x =>
  if pos ≤ x ∧ x < pos + bytes.length then bytes.getD (x - pos) 0 else mem x

@[simp] theorem load_length (mem : ByteMem) (pos n : Nat) : (mem.load pos n).length = n := by
  unfold load
  rw [List.length_map, List.length_range]

theorem load_congr {mem mem' : ByteMem} {pos n : Nat}
    (h : ∀ i < n, mem' (pos + i) = mem (pos + i)) : mem'.load pos n = mem.load pos n := by
  unfold load
  apply List.map_congr_left
  intro i hi
  exact h i (List.mem_range.mp hi)

/-- The same bytes at another place. -/
theorem load_eq {mem mem' : ByteMem} {pos pos' n : Nat}
    (h : ∀ i < n, mem' (pos' + i) = mem (pos + i)) : mem'.load pos' n = mem.load pos n := by
  unfold load
  apply List.map_congr_left
  intro i hi
  exact h i (List.mem_range.mp hi)

theorem load_add (mem : ByteMem) (pos m n : Nat) :
    mem.load pos (m + n) = mem.load pos m ++ mem.load (pos + m) n := by
  unfold load
  rw [List.range_add, List.map_append, List.map_map]
  congr 1
  apply List.map_congr_left
  intro i _
  rw [Function.comp_apply, Nat.add_assoc]

theorem load_take (mem : ByteMem) {pos k n : Nat} (hk : k ≤ n) :
    (mem.load pos n).take k = mem.load pos k := by
  obtain ⟨d, rfl⟩ := Nat.exists_eq_add_of_le hk
  rw [load_add, List.take_left' (load_length mem pos k)]

theorem load_drop (mem : ByteMem) {pos k n : Nat} (hk : k ≤ n) :
    (mem.load pos n).drop k = mem.load (pos + k) (n - k) := by
  obtain ⟨d, rfl⟩ := Nat.exists_eq_add_of_le hk
  rw [load_add, List.drop_left' (load_length mem pos k), Nat.add_sub_cancel_left]

theorem store_apart (mem : ByteMem) {pos x : Nat} (bytes : List UInt8)
    (h : x < pos ∨ pos + bytes.length ≤ x) : mem.store pos bytes x = mem x :=
  if_neg (by omega)

theorem load_get (mem : ByteMem) (pos n : Nat) {i : Nat} (hi : i < (mem.load pos n).length) :
    (mem.load pos n)[i] = mem (pos + i) := by
  simp only [load, List.getElem_map, List.getElem_range]

theorem store_get (mem : ByteMem) (pos : Nat) (bytes : List UInt8) {i : Nat}
    (hi : i < bytes.length) : mem.store pos bytes (pos + i) = bytes[i] := by
  unfold store
  rw [if_pos (by omega), Nat.add_sub_cancel_left, List.getD_eq_getElem?_getD,
    List.getElem?_eq_getElem hi, Option.getD_some]

theorem load_store (mem : ByteMem) (pos : Nat) (bytes : List UInt8) :
    (mem.store pos bytes).load pos bytes.length = bytes := by
  apply List.ext_getElem
  · exact load_length _ _ _
  · intro i hi hi'
    rw [load_get, store_get mem pos bytes hi']

theorem load_store_apart (mem : ByteMem) {pos n pos' : Nat} (bytes : List UInt8)
    (h : pos + n ≤ pos' ∨ pos' + bytes.length ≤ pos) :
    (mem.store pos' bytes).load pos n = mem.load pos n :=
  load_congr fun _ _ => store_apart mem bytes (by omega)

end ByteMem

/-- Text ends with the first zero. -/
def TextEnds (mem : ByteMem) (pos stop : Nat) : Prop :=
  pos ≤ stop ∧ mem stop = 0 ∧ ∀ x, pos ≤ x → x < stop → mem x ≠ 0

theorem exists_textEnds {mem : ByteMem} {pos x : Nat} (hx : pos ≤ x) (hzero : mem x = 0) :
    ∃ stop, TextEnds mem pos stop ∧ stop ≤ x := by
  have hex : ∃ y, pos ≤ y ∧ mem y = 0 := ⟨x, hx, hzero⟩
  refine ⟨Nat.find hex, ⟨(Nat.find_spec hex).1, (Nat.find_spec hex).2, ?_⟩,
    Nat.find_min' hex ⟨hx, hzero⟩⟩
  intro y hy hlt hy0
  exact Nat.find_min hex hlt ⟨hy, hy0⟩

theorem TextEnds.unique {mem : ByteMem} {pos stop stop' : Nat} (h : TextEnds mem pos stop)
    (h' : TextEnds mem pos stop') : stop = stop' := by
  rcases Nat.lt_trichotomy stop stop' with hlt | heq | hlt
  · exact absurd h.2.1 (h'.2.2 stop h.1 hlt)
  · exact heq
  · exact absurd h'.2.1 (h.2.2 stop' h'.1 hlt)

end Lib
