import Athomux.BinStrat.Spec
import Mathlib.Data.List.Induction
import Mathlib.Data.Nat.Digits.Defs

/-!
# The overflow test of `convert_logaddr`

The loop gives up as soon as the number so far has its top bit. A digit is lost when the number so
far has one of its top four bits, so a literal wraps when every digit that is shifted out is below
8 and not all of them are 0.
-/

namespace Athomux.BinStrat

/-! ## Hexadecimal literals -/

/-- The digits that a text starts with, and the text behind them. -/
def hexRun : Text → List Nat × Text
  | [] => ([], [])
  | c :: text =>
    match hexDigit c with
    | none => ([], c :: text)
    | some d => (d :: (hexRun text).1, (hexRun text).2)

/-- The digits of a literal, with or without a prefix. -/
def literalDigits (text : Text) : List Nat := (hexRun (skipHexPrefix text)).1

/-- The number that digits stand for, the highest digit first. -/
def hexNumber (digits : List Nat) : Nat := Nat.ofDigits 16 digits.reverse

/-- A literal with its number, when there is one below 2^64, and the text behind it. -/
def hexLiteral (text : Text) : Option (BitVec 64 × Text) :=
  if literalDigits text = [] ∨ addrSpace ≤ hexNumber (literalDigits text) then none
  else some (BitVec.ofNat 64 (hexNumber (literalDigits text)), (hexRun (skipHexPrefix text)).2)

/-- The digits that do not fit behind the last sixteen. -/
def lead (digits : List Nat) : List Nat := digits.take (digits.length - 16)

/-- One of the digits in front of the last sixteen is 8 or more. Or all of them are 0, and no
character from 128 on follows the digits. -/
def LiteralSeen (text : Text) : Prop :=
  (∃ d ∈ lead (literalDigits text), 8 ≤ d) ∨
    (∀ d ∈ lead (literalDigits text), d = 0) ∧
      ((hexRun (skipHexPrefix text)).2.headD '\x00').toNat < 0x80

theorem hexDigit_lt {c : Char} {d : Nat} (h : hexDigit c = some d) : d < 16 := by
  unfold hexDigit at h
  split at h
  · rename_i hc
    have : c.toNat ≤ 57 := hc.2
    injection h
    omega
  · split at h
    · rename_i hc
      have : c.toNat ≤ 102 := hc.2
      injection h
      omega
    · split at h
      · rename_i hc
        have : c.toNat ≤ 70 := hc.2
        injection h
        omega
      · cases h

theorem hexDigit_ascii {c : Char} {d : Nat} (h : hexDigit c = some d) : c.toNat < 0x80 := by
  unfold hexDigit at h
  split at h
  · rename_i hc
    have : c.toNat ≤ 57 := hc.2
    omega
  · split at h
    · rename_i hc
      have : c.toNat ≤ 102 := hc.2
      omega
    · split at h
      · rename_i hc
        have : c.toNat ≤ 70 := hc.2
        omega
      · cases h

theorem hexRun_lt (text : Text) : ∀ d ∈ (hexRun text).1, d < 16 := by
  induction text with
  | nil => simp [hexRun]
  | cons c text ih =>
    rw [hexRun]
    rcases hc : hexDigit c with _ | d
    · simp
    · simpa using ⟨hexDigit_lt hc, ih⟩

/-! ## Numbers and their top digits -/

theorem hexNumber_snoc (digits : List Nat) (d : Nat) :
    hexNumber (digits ++ [d]) = hexNumber digits * 16 + d := by
  simp only [hexNumber, List.reverse_append, List.reverse_singleton, List.singleton_append,
    Nat.ofDigits_cons]
  omega

theorem hexNumber_append (ds es : List Nat) :
    hexNumber (ds ++ es) = hexNumber ds * 16 ^ es.length + hexNumber es := by
  simp [hexNumber, Nat.ofDigits_append, Nat.mul_comm, Nat.add_comm]

theorem hexNumber_lt {ds : List Nat} (h : ∀ d ∈ ds, d < 16) : hexNumber ds < 16 ^ ds.length := by
  simpa [hexNumber] using
    Nat.ofDigits_lt_base_pow_length (l := ds.reverse) (show 1 < 16 by decide) (by simpa using h)

theorem hexNumber_eq_zero {ds : List Nat} : hexNumber ds = 0 ↔ ∀ d ∈ ds, d = 0 := by
  induction ds using List.reverseRecOn with
  | nil => simp [hexNumber]
  | append_singleton ds d ih =>
    rw [hexNumber_snoc]
    simp only [List.mem_append, List.mem_singleton, or_imp, forall_and, forall_eq, ← ih]
    omega

/-- Digits fit into fifteen places, or have a top digit in the sixteenth. -/
theorem split_top (ds : List Nat) :
    ds.length ≤ 15 ∨ ∃ front d low, ds = front ++ d :: low ∧ low.length = 15 := by
  by_cases h : ds.length ≤ 15
  · exact Or.inl h
  · refine Or.inr ?_
    obtain ⟨d, low, hdrop⟩ : ∃ d low, ds.drop (ds.length - 16) = d :: low := by
      refine List.exists_cons_of_length_pos ?_
      rw [List.length_drop]
      omega
    refine ⟨lead ds, d, low, ?_, ?_⟩
    · rw [← hdrop, lead, List.take_append_drop]
    · have := congrArg List.length hdrop
      simp only [List.length_drop, List.length_cons] at this
      omega

theorem lead_short {ds : List Nat} (h : ds.length ≤ 16) : lead ds = [] := by
  simp [lead, Nat.sub_eq_zero_of_le h]

theorem lead_top {front low : List Nat} {d : Nat} (h : low.length = 15) :
    lead (front ++ d :: low) = front := by
  have : (front ++ d :: low).length - 16 = front.length := by simp [h]
  rw [lead, this, List.take_left']
  rfl

theorem lead_snoc_top {front low : List Nat} {d e : Nat} (h : low.length = 15) :
    lead (front ++ d :: low ++ [e]) = front ++ [d] := by
  have hlen : (front ++ d :: low ++ [e]).length - 16 = (front ++ [d]).length := by simp [h]
  rw [lead, hlen, show front ++ d :: low ++ [e] = (front ++ [d]) ++ (low ++ [e]) by simp,
    List.take_left' rfl]

theorem lead_extends (ds es : List Nat) : lead ds <+: lead (ds ++ es) := by
  refine List.prefix_of_prefix_length_le ((List.take_prefix _ _).trans (List.prefix_append ds es))
    (List.take_prefix _ _) ?_
  simp only [lead, List.length_take, List.length_append]
  omega

/-- The number of digits whose lead is shifted out has its top bit exactly when the next digit to
be shifted out is 8 or more. -/
theorem top_bit_iff {ds : List Nat} {e : Nat} (hlt : ∀ d ∈ ds, d < 16)
    (hlead : ∀ d ∈ lead ds, d < 8) :
    2 ^ 63 ≤ hexNumber ds % 2 ^ 64 ↔ ∃ d ∈ lead (ds ++ [e]), 8 ≤ d := by
  rcases split_top ds with hshort | ⟨front, d, low, rfl, hlow⟩
  · have hnum : hexNumber ds < 2 ^ 60 :=
      calc hexNumber ds < 16 ^ ds.length := hexNumber_lt hlt
        _ ≤ 16 ^ 15 := Nat.pow_le_pow_right (by decide) hshort
        _ = 2 ^ 60 := by norm_num
    rw [lead_short (by simp; omega)]
    simp only [List.not_mem_nil, false_and, exists_false, iff_false]
    omega
  · rw [lead_top hlow] at hlead
    rw [lead_snoc_top hlow]
    have hd : d < 16 := hlt d (by simp)
    have hlownum : hexNumber low < 16 ^ 15 := hlow ▸ hexNumber_lt fun x hx => hlt x (by simp [hx])
    have hnum : hexNumber (front ++ d :: low) % 2 ^ 64 = d * 2 ^ 60 + hexNumber low := by
      rw [show front ++ d :: low = (front ++ [d]) ++ low by simp, hexNumber_append,
        hexNumber_snoc, hlow]
      norm_num at hlownum ⊢
      omega
    rw [hnum]
    constructor
    · intro h
      refine ⟨d, by simp, ?_⟩
      norm_num at hlownum
      omega
    · rintro ⟨x, hx, h8⟩
      rcases List.mem_append.mp hx with hfront | hx
      · exact absurd (hlead x hfront) (by omega)
      · obtain rfl : x = d := by simpa using hx
        omega

theorem hexNumber_wraps {ds : List Nat} (hlt : ∀ d ∈ ds, d < 16) :
    hexNumber ds < 2 ^ 64 ↔ ∀ d ∈ lead ds, d = 0 := by
  have hsplit : hexNumber ds = hexNumber (lead ds) * 16 ^ (ds.drop (ds.length - 16)).length +
      hexNumber (ds.drop (ds.length - 16)) := by
    rw [← hexNumber_append, lead, List.take_append_drop]
  have hlow : hexNumber (ds.drop (ds.length - 16)) < 16 ^ (ds.drop (ds.length - 16)).length :=
    hexNumber_lt fun d hd => hlt d (List.mem_of_mem_drop hd)
  rw [← hexNumber_eq_zero]
  by_cases hlen : ds.length ≤ 16
  · have hnum : hexNumber ds < 2 ^ 64 :=
      calc hexNumber ds < 16 ^ ds.length := hexNumber_lt hlt
        _ ≤ 16 ^ 16 := Nat.pow_le_pow_right (by decide) hlen
        _ = 2 ^ 64 := by norm_num
    have hzero : hexNumber (lead ds) = 0 := by simp [lead_short hlen, hexNumber]
    exact iff_of_true hnum hzero
  · have h16 : (ds.drop (ds.length - 16)).length = 16 := by
      rw [List.length_drop]
      omega
    rw [h16] at hsplit hlow
    norm_num at hsplit hlow ⊢
    omega

/-! ## The loop -/

theorem ofNat_snoc (seen : List Nat) (d : Nat) :
    BitVec.ofNat 64 (hexNumber seen) * 0x10 + BitVec.ofNat 64 d =
      BitVec.ofNat 64 (hexNumber (seen ++ [d])) := by
  rw [hexNumber_snoc, BitVec.ofNat_add, BitVec.ofNat_mul]
  rfl

/-- Digits that were read already, without one that has made the loop give up. -/
structure Seen (seen : List Nat) : Prop where
  digit : ∀ d ∈ seen, d < 16
  low : ∀ d ∈ lead seen, d < 8

theorem Seen.not_top {seen : List Nat} (h : Seen seen) : ¬∃ d ∈ lead seen, 8 ≤ d :=
  fun ⟨d, hd, h8⟩ => absurd (h.low d hd) (by omega)

theorem Seen.snoc {seen : List Nat} {d : Nat} (h : Seen seen) (hd : d < 16)
    (htop : ¬ 2 ^ 63 ≤ hexNumber seen % 2 ^ 64) : Seen (seen ++ [d]) where
  digit := by simpa [or_imp, forall_and] using ⟨h.digit, hd⟩
  low x hx := Nat.lt_of_not_le fun h8 => htop ((top_bit_iff h.digit h.low).mpr ⟨x, hx, h8⟩)

/-- The next digit makes the loop give up. -/
theorem Seen.top {seen : List Nat} (h : Seen seen) (d : Nat) (ds : List Nat)
    (htop : 2 ^ 63 ≤ hexNumber seen % 2 ^ 64) : ∃ x ∈ lead (seen ++ d :: ds), 8 ≤ x := by
  obtain ⟨x, hx, h8⟩ := (top_bit_iff (e := d) h.digit h.low).mp htop
  exact ⟨x, by simpa using (lead_extends (seen ++ [d]) ds).subset hx, h8⟩

/-- The loop behind digits that were read already. -/
theorem logaddrLoop_behind (text : Text) (seen : List Nat) (h : Seen seen) :
    logaddrLoop (BitVec.ofNat 64 (hexNumber seen)) text =
      if ∃ d ∈ lead (seen ++ (hexRun text).1), 8 ≤ d then none
      else some (BitVec.ofNat 64 (hexNumber (seen ++ (hexRun text).1)), (hexRun text).2) := by
  induction text generalizing seen with
  | nil => simp only [logaddrLoop, hexRun, List.append_nil, if_neg h.not_top]
  | cons c text ih =>
    rw [logaddrLoop, hexRun]
    rcases hc : hexDigit c with _ | d
    · simp only [List.append_nil, if_neg h.not_top]
    · simp only [BitVec.toNat_ofNat]
      by_cases htop : 2 ^ 63 ≤ hexNumber seen % 2 ^ 64
      · rw [if_pos htop, if_pos (h.top d _ htop)]
      · rw [if_neg htop, ofNat_snoc, ih (seen ++ [d]) (h.snoc (hexDigit_lt hc) htop)]
        simp only [List.append_assoc, List.singleton_append]

/-- What the loop looks up is inside of the table when it gives up, or when the character behind the
digits is. -/
theorem loopLooks_behind (text : Text) (seen : List Nat) (h : Seen seen) :
    (∀ ch ∈ loopLooks (BitVec.ofNat 64 (hexNumber seen)) text, ch.toNat < 0x80) ↔
      (∃ d ∈ lead (seen ++ (hexRun text).1), 8 ≤ d) ∨
        ((hexRun text).2.headD '\x00').toNat < 0x80 := by
  induction text generalizing seen with
  | nil =>
    refine iff_of_true ?_ (Or.inr (by decide))
    rw [loopLooks]
    simp
  | cons c text ih =>
    rw [loopLooks, hexRun]
    rcases hc : hexDigit c with _ | d
    · simp only [List.append_nil, h.not_top, false_or, List.mem_singleton, forall_eq,
        List.headD_cons]
    · have hascii := hexDigit_ascii hc
      simp only [BitVec.toNat_ofNat]
      by_cases htop : 2 ^ 63 ≤ hexNumber seen % 2 ^ 64
      · rw [if_pos htop]
        exact iff_of_true (by simpa using hascii) (Or.inl (h.top d _ htop))
      · rw [if_neg htop, ofNat_snoc, List.forall_mem_cons,
          ih (seen ++ [d]) (h.snoc (hexDigit_lt hc) htop)]
        simp only [List.append_assoc, List.singleton_append, hascii, true_and]

theorem seen_nil : Seen [] := ⟨by simp, by simp [lead]⟩

theorem logaddrLoop_eq (text : Text) :
    logaddrLoop 0 text =
      if ∃ d ∈ lead (hexRun text).1, 8 ≤ d then none
      else some (BitVec.ofNat 64 (hexNumber (hexRun text).1), (hexRun text).2) :=
  logaddrLoop_behind text [] seen_nil

/-- `convert_logaddr` on every text. -/
theorem convertLogaddr_spec (text : Text) :
    convertLogaddr text =
      if literalDigits text = [] ∨ ∃ d ∈ lead (literalDigits text), 8 ≤ d then none
      else some (BitVec.ofNat 64 (hexNumber (literalDigits text)),
        (hexRun (skipHexPrefix text)).2) := by
  unfold convertLogaddr literalDigits
  rcases hbody : skipHexPrefix text with _ | ⟨c, rest⟩
  · simp [hexRun]
  · rcases hc : hexDigit c with _ | d
    · simp [hexRun, hc]
    · simp only [hc, Option.isNone_some, Bool.false_eq_true, if_false, logaddrLoop_eq]
      simp [hexRun, hc]

/-- **The overflow test.** `convert_logaddr` reads a text as the literal that stands there, and looks
nothing up outside of its table, exactly when a digit in front of the last sixteen is 8 or more, or
all of them are 0 and the digits end at a character of the table. -/
theorem convertLogaddr_exact_iff (text : Text) :
    ((∀ ch ∈ logaddrLooks text, ch.toNat < 0x80) ∧ convertLogaddr text = hexLiteral text) ↔
      LiteralSeen text := by
  have hwraps := hexNumber_wraps (hexRun_lt (skipHexPrefix text))
  have hlooks := loopLooks_behind (skipHexPrefix text) [] seen_nil
  rw [List.nil_append] at hlooks
  rw [convertLogaddr_spec, hexLiteral, LiteralSeen]
  change hexNumber (literalDigits text) < addrSpace ↔ ∀ d ∈ lead (literalDigits text), d = 0
    at hwraps
  change (∀ ch ∈ logaddrLooks text, ch.toNat < 0x80) ↔
    (∃ d ∈ lead (literalDigits text), 8 ≤ d) ∨ _ at hlooks
  rw [hlooks]
  by_cases hhigh : ∃ d ∈ lead (literalDigits text), 8 ≤ d
  · -- the loop gives up, and the literal is too large
    have hwide : ¬ hexNumber (literalDigits text) < addrSpace := by
      intro hfits
      obtain ⟨x, hx, h8⟩ := hhigh
      have := hwraps.mp hfits x hx
      omega
    simp [hhigh, Nat.le_of_not_lt hwide]
  · rw [← hwraps]
    rcases hnil : literalDigits text with _ | ⟨d, ds⟩
    · simp [lead, hexNumber, addrSpace]
    rw [← hnil]
    have hne : literalDigits text ≠ [] := by simp [hnil]
    by_cases hfits : hexNumber (literalDigits text) < addrSpace
    · simp [hfits, hhigh, Nat.not_le.mpr hfits]
    · simp [hhigh, hne, hfits, Nat.le_of_not_lt hfits]

/-- A one with sixteen zeros is read as 0. -/
theorem logaddr_wraps :
    convertLogaddr "10000000000000000".toList = some (0, []) ∧
      hexLiteral "10000000000000000".toList = none := by
  decide

end Athomux.BinStrat
