import Athomux.Args
import Mathlib.Data.Set.Insert
import Mathlib.Data.Set.Lattice
import Mathlib.Tactic.NthRewrite

/-!
# The operations of an output

All operations that a brick can have at an output, the arguments that they share, and the addresses
that each one works on. The code of a brick is written for any monad: whatever `:<in` does is a
parameter.
-/

namespace Athomux

inductive OutputOp
  | outputInit
  | trans | wait | get | put | lock | unlock | gadr | padr
  | create | delete | move
  | transwait | gettranswait | transwaitput | putwait | createget | gadrcreate | gadrcreateget
  | gadrgettranswait | putpadr | putdelete | deletepadr | putdeletepadr | gadrtranswaitdeletepadr
  | gadrcreatetranswaitpadr
  | instbrick | deinstbrick | instconn | deinstconn | connect | disconnect | getconn | findconn
  deriving DecidableEq, Repr

/-- `struct args`, with the addresses of `conn1` and `conn2`. An `offs_t` is signed. -/
structure OutputArgs where
  logAddr : BitVec 64
  logLen : BitVec 64
  tryAddr : BitVec 64
  tryLen : BitVec 64
  offset : BitVec 64
  offsetMax : BitVec 64
  physLen : BitVec 64
  forwrite : Bool
  clear : Bool
  melt : Bool
  direction : Direction
  prio : Prio
  reader : Bool
  exclu : Bool
  action : Action
  success : Bool
  conn1 : BitVec 64
  conn2 : BitVec 64

/-- What serves the operations of an output. -/
abbrev Ops (m : Type → Type) := OutputOp → OutputArgs → m OutputArgs

abbrev Call := OutputOp × OutputArgs

/-- The same, and every call is noted. -/
def traced {σ : Type} (nest : Ops (StateM σ)) : Ops (StateM (σ × List Call)) := fun op a s =>
  let r := nest op a s.1
  (r.1, r.2, s.2 ++ [(op, a)])

/-- The calls of `:<in` that an operation makes. -/
def forwarded {σ : Type} (out : Ops (StateM (σ × List Call)) → Ops (StateM (σ × List Call)))
    (nest : Ops (StateM σ)) (op : OutputOp) (a : OutputArgs) (s : σ) : List Call :=
  (out (traced nest) op a (s, [])).2.2

/-! ## Addresses -/

/-- `n` addresses from `a` on. They go on at 0 behind the last one. -/
def span (a : BitVec 64) (n : Nat) : Set (BitVec 64) := {x | ∃ j < n, x = a + BitVec.ofNat 64 j}

/-- Where `$move` may put what it moves. The offset is up to `:<in`. -/
def moveTargets (a : OutputArgs) : Set (BitVec 64) :=
  {x | ∃ d : BitVec 64, a.offset.toInt ≤ d.toInt ∧ d.toInt ≤ a.offsetMax.toInt ∧
    x ∈ span (a.logAddr + d) a.logLen.toNat}

/-- The addresses that an operation works on. The ones that ask for an address get any. -/
def touched (op : OutputOp) (a : OutputArgs) : Set (BitVec 64) :=
  match op with
  | .outputInit => ∅
  | .lock | .unlock => span a.logAddr a.logLen.toNat ∪ span a.tryAddr a.tryLen.toNat
  | .move => span a.logAddr a.logLen.toNat ∪ moveTargets a
  | .gadr | .gadrcreate | .gadrcreateget | .gadrgettranswait | .gadrtranswaitdeletepadr
  | .gadrcreatetranswaitpadr => Set.univ
  | .instbrick | .deinstbrick => {a.logAddr}
  | .instconn | .deinstconn | .disconnect | .getconn | .findconn => {a.conn1}
  | .connect => {a.conn1, a.conn2}
  | .trans | .wait | .get | .put | .padr | .create | .delete | .transwait | .gettranswait
  | .transwaitput | .putwait | .createget | .putpadr | .putdelete | .deletepadr | .putdeletepadr =>
    span a.logAddr a.logLen.toNat

/-! ## The defaults

What `lib.c` puts for the combined operations that get or give back an address. The brick's own
operations are `ops`.
-/

section Missing

variable {m : Type → Type} [Monad m] (ops : Ops m)

/-- `second` is for the case that `first` has succeeded. -/
def ifSuccess (first : OutputArgs → m OutputArgs) (second : OutputArgs → m OutputArgs)
    (a : OutputArgs) : m OutputArgs := do
  let a ← first a
  if a.success then second a else pure a

def missingGadrcreate (a : OutputArgs) : m OutputArgs :=
  ifSuccess (ops .gadr) (fun a => ops .create { a with success := false }) { a with reader := false }

def missingGadrcreateget (a : OutputArgs) : m OutputArgs :=
  ifSuccess (ops .gadr) (fun a => ops .createget { a with success := false })
    { a with reader := false }

def missingGadrgettranswait (a : OutputArgs) : m OutputArgs :=
  ifSuccess (ops .gadr) (fun a => ops .gettranswait { a with success := false })
    { a with reader := true }

def missingPutpadr (a : OutputArgs) : m OutputArgs :=
  ifSuccess (ops .put) (fun a => ops .padr { a with success := false, reader := false })
    { a with prio := .background }

def missingDeletepadr (a : OutputArgs) : m OutputArgs :=
  ifSuccess (ops .delete) (fun a => ops .padr { a with success := false }) a

def missingPutdeletepadr (a : OutputArgs) : m OutputArgs :=
  ifSuccess (ops .putdelete) (fun a => ops .padr { a with success := false }) a

/-- `$transwait`, and what is for the case that all has been transferred. -/
def transferAll (rest : OutputArgs → m OutputArgs) (a : OutputArgs) : m OutputArgs := do
  let a ← ops .transwait { a with success := false, direction := .read }
  if !a.success || a.physLen != a.logLen then pure a
  else rest { a with success := false, logLen := a.physLen }

/-- What the last two begin with. -/
def forPhys (a : OutputArgs) : OutputArgs :=
  { a with logLen := a.physLen, tryLen := a.physLen, reader := true, exclu := true }

def missingGadrtranswaitdeletepadr (a : OutputArgs) : m OutputArgs :=
  ifSuccess (ops .gadr)
    (transferAll ops (ifSuccess (ops .delete) fun a => ops .padr { a with success := false }))
    (forPhys a)

def missingGadrcreatetranswaitpadr (a : OutputArgs) : m OutputArgs :=
  ifSuccess (ops .gadr)
    (fun a => ifSuccess (ops .create) (transferAll ops (ops .padr))
      { a with success := false, clear := false, melt := true })
    (forPhys a)

end Missing

end Athomux

/-! ## Windows in the address space -/

namespace Athomux
variable {a x : BitVec 64} {n : Nat}

theorem mem_span : x ∈ span a n ↔ (x - a).toNat < n := by
  constructor
  · rintro ⟨j, hj, rfl⟩
    rw [BitVec.add_comm, BitVec.add_sub_cancel, BitVec.toNat_ofNat]
    exact lt_of_le_of_lt (Nat.mod_le _ _) hj
  · intro h
    refine ⟨(x - a).toNat, h, ?_⟩
    rw [BitVec.ofNat_toNat, BitVec.setWidth_eq, BitVec.add_comm, BitVec.sub_add_cancel]

theorem ofNat_toInt_sub {d0 d : BitVec 64} (h : d0.toInt ≤ d.toInt) :
    BitVec.ofNat 64 (d.toInt - d0.toInt).toNat = d - d0 := by
  apply BitVec.eq_of_toInt_eq
  rw [BitVec.toInt_sub, BitVec.toInt_ofNat', Int.toNat_of_nonneg (by omega)]

theorem toInt_add_ofNat {d0 d1 : BitVec 64} {k : Nat} (h : d0.toInt + k ≤ d1.toInt) :
    (d0 + BitVec.ofNat 64 k).toInt = d0.toInt + k := by
  have h1 := @BitVec.toInt_lt 64 d1
  have h0 := @BitVec.le_toInt 64 d0
  rw [BitVec.toInt_add, BitVec.toInt_ofNat', Int.add_bmod_bmod]
  exact Int.bmod_eq_of_le (by omega) (by omega)

/-- Offsets one after the other take a region along. -/
theorem span_slide {d0 d1 : BitVec 64} (hd : d0.toInt ≤ d1.toInt) (hn : n ≠ 0) :
    {x | ∃ d : BitVec 64, d0.toInt ≤ d.toInt ∧ d.toInt ≤ d1.toInt ∧ x ∈ span (a + d) n} =
      span (a + d0) ((d1.toInt - d0.toInt).toNat + n) := by
  ext x
  constructor
  · rintro ⟨d, h0, h1, j, hj, rfl⟩
    refine ⟨(d.toInt - d0.toInt).toNat + j, by omega, ?_⟩
    have hd0 : d0 + (d - d0) = d := by rw [BitVec.add_comm, BitVec.sub_add_cancel]
    rw [BitVec.ofNat_add, ofNat_toInt_sub h0]
    nth_rewrite 1 [← hd0]
    simp only [BitVec.add_assoc]
  · rintro ⟨i, hi, rfl⟩
    obtain ⟨k, j, rfl, hk, hj⟩ : ∃ k j, i = k + j ∧ k ≤ (d1.toInt - d0.toInt).toNat ∧ j < n :=
      ⟨min i (d1.toInt - d0.toInt).toNat, i - min i (d1.toInt - d0.toInt).toNat, by omega, by omega,
        by omega⟩
    have hd0 := @toInt_add_ofNat d0 d1 k (by omega)
    refine ⟨d0 + BitVec.ofNat 64 k, by omega, by omega, j, hj, ?_⟩
    rw [BitVec.ofNat_add, ← BitVec.add_assoc, BitVec.add_assoc a]

/-- The addresses from `base` on, up to the end of the address space. -/
structure Window where
  base : BitVec 64
  size : BitVec 64

namespace Window

def addrs (w : Window) : Set (BitVec 64) :=
  {x | w.base.toNat ≤ x.toNat ∧ x.toNat < w.base.toNat + w.size.toNat}

/-- A region is inside a window, and does not wrap around. -/
def Holds (w : Window) (a : BitVec 64) (n : Nat) : Prop :=
  n = 0 ∨ (w.base.toNat ≤ a.toNat ∧ a.toNat + n ≤ w.base.toNat + w.size.toNat ∧
    a.toNat + n ≤ addrSpace)

instance (w : Window) (a : BitVec 64) (n : Nat) : Decidable (w.Holds a n) :=
  inferInstanceAs (Decidable (_ ∨ _))

variable {w : Window}

theorem span_subset : span a n ⊆ w.addrs ↔ w.Holds a n := by
  unfold Holds addrSpace
  constructor
  · intro h
    rcases Nat.eq_zero_or_pos n with h0 | hpos
    · exact .inl h0
    have hmem (j : Nat) (hj : j < n) : w.base.toNat ≤ (a.toNat + j) % 2 ^ 64 ∧
        (a.toNat + j) % 2 ^ 64 < w.base.toNat + w.size.toNat := by
      have := h ⟨j, hj, rfl⟩
      simpa [addrs] using this
    have hend := w.base.isLt
    have hsize := w.size.isLt
    have hfirst := hmem 0 hpos
    rw [Nat.add_zero, Nat.mod_eq_of_lt a.isLt] at hfirst
    refine .inr ⟨hfirst.1, ?_⟩
    by_contra hno
    -- the first address behind the window
    have := hmem (min (w.base.toNat + w.size.toNat) (2 ^ 64) - a.toNat) (by omega)
    omega
  · rintro (rfl | ⟨h0, h1, h2⟩) x ⟨j, hj, rfl⟩
    · exact absurd hj (Nat.not_lt_zero j)
    · have hlt : a.toNat + j < 2 ^ 64 := by omega
      have hto : (a + BitVec.ofNat 64 j).toNat = a.toNat + j := by
        rw [BitVec.toNat_add, BitVec.toNat_ofNat, Nat.add_mod_mod, Nat.mod_eq_of_lt hlt]
      refine ⟨?_, ?_⟩ <;> rw [hto] <;> omega

/-- The same for a region that is counted from the base of the window. -/
def Room (w : Window) (x : BitVec 64) (n : Nat) : Prop :=
  n = 0 ∨ (x.toNat + n ≤ w.size.toNat ∧ w.base.toNat + x.toNat + n ≤ addrSpace)

instance (w : Window) (x : BitVec 64) (n : Nat) : Decidable (w.Room x n) :=
  inferInstanceAs (Decidable (_ ∨ _))

theorem holds_add_base : w.Holds (a + w.base) n ↔ w.Room a n := by
  unfold Holds Room addrSpace
  rw [BitVec.toNat_add]
  have ha := a.isLt
  have hbase := w.base.isLt
  constructor
  · rintro (h | ⟨h0, h1, h2⟩)
    · exact .inl h
    · refine or_iff_not_imp_left.mpr fun hn => ?_
      omega
  · rintro (h | ⟨h0, h1⟩)
    · exact .inl h
    · refine or_iff_not_imp_left.mpr fun hn => ?_
      omega

end Window

/-! ## Where `$move` puts things -/

/-- The length of the region that the targets make up. -/
def OutputArgs.targetLen (a : OutputArgs) : Nat :=
  if a.logLen = 0 ∨ a.offsetMax.toInt < a.offset.toInt then 0
  else (a.offsetMax.toInt - a.offset.toInt).toNat + a.logLen.toNat

theorem moveTargets_eq (a : OutputArgs) :
    moveTargets a = span (a.logAddr + a.offset) a.targetLen := by
  unfold moveTargets OutputArgs.targetLen
  split
  · rename_i h
    ext x
    constructor
    · rintro ⟨d, h0, h1, hx⟩
      rcases h with h | h
      · rw [h] at hx
        exact absurd hx (by simp [mem_span])
      · omega
    · intro hx
      exact absurd hx (by simp [mem_span])
  · rename_i h
    obtain ⟨hlen, hoff⟩ := not_or.mp h
    exact span_slide (Int.not_lt.mp hoff) fun h0 => hlen (BitVec.eq_of_toNat_eq h0)

end Athomux
