import Athomux.PtrCache.Spec

/-!
# The macros of the pointer cache with masks

A kernel has no division of 64 bits, and `PC__HASH` and the macros behind it are there with masks. For
sizes that are powers of two they are the ones with divisions.
-/

open BitVec

namespace Athomux.PcMacro

variable {w v i j k : Nat}

/-! ## Masks -/

theorem toNat_mask (hk : k < w) : (twoPow w k - 1).toNat = 2 ^ k - 1 := by
  have hone : (1 : BitVec w).toNat = 1 := Nat.mod_eq_of_lt (Nat.one_lt_two_pow (by omega))
  have hle : (1 : BitVec w) ≤ twoPow w k := by
    rw [BitVec.le_def, toNat_twoPow_of_lt hk, hone]
    exact Nat.one_le_two_pow
  rw [toNat_sub_of_le hle, toNat_twoPow_of_lt hk, hone]

theorem and_mask (hk : k < w) (x : BitVec w) : x &&& (twoPow w k - 1) = x % twoPow w k := by
  apply BitVec.eq_of_toNat_eq
  rw [toNat_and, toNat_mask hk, toNat_umod, toNat_twoPow_of_lt hk, Nat.and_two_pow_sub_one_eq_mod]

theorem and_not_mask (hk : k < w) (x : BitVec w) :
    x &&& ~~~(twoPow w k - 1) = x / twoPow w k * twoPow w k := by
  rw [udiv_twoPow_eq_of_lt hk, mul_twoPow_eq_shiftLeft]
  apply BitVec.eq_of_getLsbD_eq
  intro i hi
  have hmask : (twoPow w k - 1).getLsbD i = decide (i < k) := by
    rw [BitVec.getLsbD, toNat_mask hk, Nat.testBit_two_pow_sub_one]
  simp only [getLsbD_and, getLsbD_not, hmask, getLsbD_shiftLeft, getLsbD_ushiftRight, hi]
  by_cases hik : i < k
  · simp [hik]
  · simp [hik, Nat.add_sub_cancel' (Nat.le_of_not_lt hik)]

/-! ## The macros -/

section

variable (addr align offset len whole max : BitVec w)

/-- `PC__PRESENT`. -/
def present : BitVec w := 2

/-- `PC__HASH`. -/
def hash : BitVec w := addr / align % max

/-- `PC__BASE_ADDR2`. -/
def baseAddr2 : BitVec w := addr / whole * whole

/-- `PC__BASE_ADDR`. -/
def baseAddr : BitVec w := baseAddr2 addr whole ||| present

/-- `PC__BASE_OFFSET`. -/
def baseOffset : BitVec w := addr % whole

/-- `PC__BASE_LEN`. -/
def baseLen : BitVec w := (offset + len - 1) / whole * whole + whole

/-- `PC__HASH` of a kernel. `do_div` is the division. -/
def hashMask : BitVec w := addr / align &&& (max - 1)

/-- `PC__BASE_ADDR2` of a kernel. -/
def baseAddr2Mask : BitVec w := addr &&& ~~~(whole - 1)

/-- `PC__BASE_ADDR` of a kernel. -/
def baseAddrMask : BitVec w := baseAddr2Mask addr whole ||| present

/-- `PC__BASE_OFFSET` of a kernel. -/
def baseOffsetMask : BitVec w := addr &&& (whole - 1)

/-- `PC__BASE_LEN` of a kernel. -/
def baseLenMask : BitVec w := ((offset + len - 1) &&& ~~~(whole - 1)) + whole

end

theorem baseAddr2_add (addr whole : BitVec w) : baseAddr2 addr whole + baseOffset addr whole = addr := by
  apply BitVec.eq_of_toNat_eq
  have hle : addr.toNat / whole.toNat * whole.toNat ≤ addr.toNat := Nat.div_mul_le_self ..
  have hlt := addr.isLt
  rw [baseAddr2, baseOffset, toNat_add, toNat_mul, toNat_udiv, toNat_umod,
    Nat.mod_eq_of_lt (lt_of_le_of_lt hle hlt), Nat.div_add_mod', Nat.mod_eq_of_lt hlt]

/-- **Masks.** Addresses and lengths may have different widths, as on an i386. -/
theorem masks_agree (hj : j < w) (hk : k < w) (hv : j < v) :
    (∀ addr align : BitVec w,
      hashMask addr align (twoPow w k) = hash addr align (twoPow w k) ∧
      baseAddr2Mask addr (twoPow w j) = baseAddr2 addr (twoPow w j) ∧
      baseAddrMask addr (twoPow w j) = baseAddr addr (twoPow w j) ∧
      baseOffsetMask addr (twoPow w j) = baseOffset addr (twoPow w j) ∧
      baseAddr2 addr (twoPow w j) + baseOffset addr (twoPow w j) = addr) ∧
    ∀ offset len : BitVec v,
      baseLenMask offset len (twoPow v j) = baseLen offset len (twoPow v j) := by
  refine ⟨fun addr align => ?_, fun offset len => ?_⟩
  · have hbase : baseAddr2Mask addr (twoPow w j) = baseAddr2 addr (twoPow w j) := and_not_mask hj addr
    refine ⟨and_mask hk _, hbase, ?_, and_mask hj addr, baseAddr2_add addr _⟩
    rw [baseAddrMask, hbase, baseAddr]
  · rw [baseLenMask, and_not_mask hv, baseLen]

/-- `DEFAULT_TRANSFER` and 16 slots, with lengths of 32 bits. -/
theorem masks_agree_default :
    (12 < 64 ∧ 4 < 64 ∧ 12 < 32) ∧
    (∀ addr align : BitVec 64,
      hashMask addr align (twoPow 64 4) = hash addr align (twoPow 64 4) ∧
      baseAddr2Mask addr (twoPow 64 12) = baseAddr2 addr (twoPow 64 12) ∧
      baseAddrMask addr (twoPow 64 12) = baseAddr addr (twoPow 64 12) ∧
      baseOffsetMask addr (twoPow 64 12) = baseOffset addr (twoPow 64 12) ∧
      baseAddr2 addr (twoPow 64 12) + baseOffset addr (twoPow 64 12) = addr) ∧
    ∀ offset len : BitVec 32,
      baseLenMask offset len (twoPow 32 12) = baseLen offset len (twoPow 32 12) :=
  ⟨by decide, masks_agree (by decide) (by decide) (by decide)⟩

/-- The mark of `PC__BASE_ADDR` is in its sum with the offset. -/
theorem mark_in_sum :
    baseAddr (0 : BitVec 64) (twoPow 64 12) + baseOffset 0 (twoPow 64 12) ≠ 0 ∧
      baseAddrMask (0 : BitVec 64) (twoPow 64 12) + baseOffsetMask 0 (twoPow 64 12) ≠ 0 := by
  decide

/-! ## The cache -/

section

variable (c : PcConfig) (addr : BitVec 64)

theorem toNat_size {n : Nat} (h : n < addrSpace) : (BitVec.ofNat 64 n).toNat = n :=
  Nat.mod_eq_of_lt h

theorem toNat_hash (halign : c.align < addrSpace) (hmax : c.max < addrSpace) :
    (hash addr (.ofNat 64 c.align) (.ofNat 64 c.max)).toNat = c.hash addr.toNat := by
  rw [hash, toNat_umod, toNat_udiv, toNat_size halign, toNat_size hmax]
  rfl

theorem toNat_baseAddr2 (hwhole : c.whole < addrSpace) :
    (baseAddr2 addr (.ofNat 64 c.whole)).toNat = c.baseAddr2 addr.toNat := by
  have hle : addr.toNat / c.whole * c.whole ≤ addr.toNat := Nat.div_mul_le_self ..
  rw [baseAddr2, toNat_mul, toNat_udiv, toNat_size hwhole,
    Nat.mod_eq_of_lt (lt_of_le_of_lt hle addr.isLt)]
  rfl

theorem or_two (x : Nat) : x ||| 2 = PcElem.orPresent x := by
  have hdiv : (x ||| 2) / 2 ^ 2 = x / 2 ^ 2 ||| 2 / 2 ^ 2 := Nat.or_div_two_pow
  have hmod : (x ||| 2) % 2 ^ 2 = x % 2 ^ 2 ||| 2 % 2 ^ 2 := Nat.or_mod_two_pow
  have hlow : x % 4 ||| 2 = if x % 4 / 2 = 1 then x % 4 else x % 4 + 2 := by
    have hlt : x % 4 < 4 := Nat.mod_lt x (by decide)
    generalize x % 4 = y at hlt ⊢
    match y, hlt with
    | 0, _ | 1, _ | 2, _ | 3, _ => rfl
  norm_num only [Nat.or_zero] at hdiv hmod
  rw [hlow] at hmod
  unfold PcElem.orPresent
  split at hmod <;> split <;> omega

theorem toNat_baseAddr (hwhole : c.whole < addrSpace) :
    (baseAddr addr (.ofNat 64 c.whole)).toNat = c.baseAddr addr.toNat := by
  rw [baseAddr, toNat_or, toNat_baseAddr2 c addr hwhole]
  exact or_two _

theorem toNat_baseOffset (hwhole : c.whole < addrSpace) :
    (baseOffset addr (.ofNat 64 c.whole)).toNat = c.baseOffset addr.toNat := by
  rw [baseOffset, toNat_umod, toNat_size hwhole]
  rfl

theorem toNat_baseLen (hwhole : c.whole < addrSpace) (offset len : BitVec 64) :
    (baseLen offset len (.ofNat 64 c.whole)).toNat = c.baseLen offset.toNat len.toNat := by
  have hlast : (offset + len - 1).toNat = sub64 (add64 offset.toNat len.toNat) 1 := by
    rw [toNat_sub, toNat_add, Nat.add_comm]
    rfl
  have hlt : sub64 (add64 offset.toNat len.toNat) 1 / c.whole * c.whole < 2 ^ 64 :=
    lt_of_le_of_lt (Nat.div_mul_le_self ..) (sub64_lt _ _)
  rw [baseLen, toNat_add, toNat_mul, toNat_udiv, hlast, toNat_size hwhole,
    Nat.mod_eq_of_lt hlt]
  rfl

end

end Athomux.PcMacro
