import Athomux.FsSimple.Spec

/-!
# The range of the hash functions

The sums are taken with signed characters in an `int`, and `%` keeps the sign.
-/

namespace Athomux.FsSimple

/-- An index of a table. -/
def InTable (hash : Int) : Prop := 0 ≤ hash ∧ hash < hashMax

/-- The sum of `path_hash` before it is cut to an `int`. -/
def pathSum (name : Name) : Int :=
  (char name 0 * name.length + char name (name.length - 1)) * 4 + char name (name.length / 2)

/-- A sum whose 32 bits have no sign or are divisible by the size of the tables. -/
def SumFits (x : Int) : Prop := x % 2 ^ 32 < 2 ^ 31 ∨ x % 512 = 0

def NameFits (name : Name) : Prop :=
  if name.length ≤ 2 then name.headD 0 < 128 else SumFits (pathSum name)

def IndexFits (index : Int) : Prop := 0 ≤ index ∨ index % 512 = 0

def InfoFits (info : ConnInfo) : Prop :=
  SumFits (char info.name 0 + info.index + (info.addr / 4096 : Nat))

/-! ## The remainder -/

theorem tmod_hashMax (x : Int) :
    x.tmod hashMax = if 0 ≤ x ∨ x % 512 = 0 then x % 512 else x % 512 - 512 := by
  have hdvd : (512 : Int) ∣ x ↔ x % 512 = 0 := Int.dvd_iff_emod_eq_zero
  rw [hashMax, Int.tmod_eq_emod]
  by_cases h : 0 ≤ x ∨ x % 512 = 0
  · have h' : 0 ≤ x ∨ 512 ∣ x := h.imp_right hdvd.mpr
    rw [if_pos h, if_pos h']
    exact Int.sub_zero _
  · have h' : ¬(0 ≤ x ∨ 512 ∣ x) := fun hx => h (hx.imp_right hdvd.mp)
    rw [if_neg h, if_neg h']
    rfl

theorem tmod_inTable (x : Int) : InTable (x.tmod hashMax) ↔ 0 ≤ x ∨ x % 512 = 0 := by
  rw [tmod_hashMax]
  unfold InTable hashMax
  split
  · omega
  · omega

theorem int32_inTable (x : Int) : InTable ((int32 x).tmod hashMax) ↔ SumFits x := by
  rw [tmod_inTable, SumFits, int32]
  omega

/-! ## The hashes -/

theorem char_eq (name : Name) : 0 ≤ char name 0 ↔ name.headD 0 < 128 := by
  have hhead : name.getD 0 0 = name.headD 0 := by cases name <;> rfl
  unfold char
  rw [hhead, UInt8.lt_iff_toNat_lt]
  have := (name.headD 0).toNat_lt
  simp only [UInt8.reduceToNat]
  split <;> omega

theorem char_bounds (name : Name) (i : Nat) : -128 ≤ char name i ∧ char name i < 128 := by
  have h : (name.getD i 0).toNat < 256 := (name.getD i 0).toNat_lt
  have hchar : char name i = (name.getD i 0).toNat ∧ (name.getD i 0).toNat < 128 ∨
      char name i = (name.getD i 0).toNat - 256 ∧ 128 ≤ (name.getD i 0).toNat := by
    unfold char
    generalize (name.getD i 0).toNat = c
    simp only
    split <;> omega
  rcases hchar with ⟨heq, hlt⟩ | ⟨heq, hge⟩
  · rw [heq]
    omega
  · rw [heq]
    omega

theorem pathHash_inTable (name : Name) :
    InTable (pathHash name name.length) ↔ NameFits name := by
  unfold pathHash NameFits
  split
  · rw [tmod_inTable, ← char_eq]
    have := char_bounds name 0
    omega
  · exact int32_inTable (pathSum name)

theorem pathHash_one (name : Name) : pathHash name 1 = char name 0 := by
  have hb := char_bounds name 0
  rw [pathHash, if_pos (by decide), tmod_hashMax]
  split <;> omega

theorem vconnHash_inTable (info : ConnInfo) : InTable (vconnHash info) ↔ InfoFits info := by
  rw [vconnHash, pathHash_one, int32_inTable]
  rfl

/-- **The range of the hashes.** Each hash lies in its table exactly for the names, indices and
connections whose sum has no sign or is divisible by the size of the table. -/
theorem hashes_inTable_iff (name : Name) (index : Int) (info : ConnInfo) :
    (InTable (pathHash name name.length) ∧ InTable (indexHash index) ∧ InTable (vconnHash info)) ↔
      NameFits name ∧ IndexFits index ∧ InfoFits info := by
  rw [pathHash_inTable, vconnHash_inTable, indexHash, tmod_inTable]
  rfl

/-- The name `ä`, the index -1, and the input of that index. -/
theorem hashes_negative :
    pathHash [0xE4] 1 = -28 ∧ indexHash (-1) = -1 ∧ vconnHash ⟨0, -1, []⟩ = -1 ∧
      ¬InTable (-28) ∧ ¬InTable (-1) := by
  refine ⟨by decide, by decide, by decide, ?_, ?_⟩
  · rintro ⟨h, -⟩
    omega
  · rintro ⟨h, -⟩
    omega

end Athomux.FsSimple
