import Formula.Binary.Floating
import Formula.Proofs.Binary.Format
import Mathlib

/-!
# 64-bit numbers

The words of 64-bit numbers are those of the format, apart from NaN, which has one word only
(`toWord_ofWord`). So a 64-bit number is known by its exact value: two of them are equal if and only if
their values are (`beq_iff_value`), and a quotient that is such a value is rounded to a 64-bit number of
this value (`value_ofRatio`).

The laws of the machine types come with the whole library, not with a part of it. What is built on them
imports this module.
-/

namespace Formula.Floating

open BinaryFormat

/-- The exact value of a machine number. -/
def value {α : Type} [Floating α] (x : α) : Extended :=
  (decode x).value

variable {x y : Float} {a : Bool} {m num den w : ℕ} {e : ℤ}

/-! ## Words -/

theorem one_lt_specialExponent : 1 < double.specialExponent := by decide

theorem toWord_lt (x : Float) : toWord x < 2 * double.signWeight :=
  x.toBits.toNat_lt

theorem eq_of_toWord_eq (h : toWord x = toWord y) : x = y :=
  Float.toBits_inj.1 (UInt64.toNat_inj.1 h)

/-- The words of NaN are those that are decoded to NaN. -/
theorem isNaNBits_iff {b : UInt64} :
    @Float.Model.UnpackedFloat.isNaNBits .binary64 b.toBitVec = true ↔
      double.decode b.toNat = .nan := by
  have hexponent : @Float.Model.UnpackedFloat.unpackExponent .binary64 b.toBitVec = -1#11 ↔
      b.toNat / 2 ^ 52 % 2 ^ 11 = double.specialExponent := by
    rw [Float.Model.UnpackedFloat.unpackExponent_def, ← BitVec.toNat_inj, BitVec.extractLsb'_toNat,
      Nat.shiftRight_eq_div_pow]
    rfl
  have hfraction : @Float.Model.UnpackedFloat.unpackMantissa .binary64 b.toBitVec = 0#52 ↔
      b.toNat % 2 ^ 52 = 0 := by
    rw [Float.Model.UnpackedFloat.unpackMantissa_def, ← BitVec.toNat_inj, BitVec.extractLsb'_toNat]
    rfl
  rw [BinaryFormat.decode_eq_nan_iff]
  exact decide_eq_true_iff.trans (and_congr hexponent hfraction.not)

/-- A machine number keeps the word it is made of, unless this is a word of NaN. -/
theorem toWord_ofWord (hw : w < 2 * double.signWeight) (h : double.decode w ≠ .nan) :
    toWord (ofWord w : Float) = w := by
  have hword : (UInt64.ofNat w).toNat = w := UInt64.toNat_ofNat_of_lt hw
  have hbits : (Float.ofBits (UInt64.ofNat w)).toBits = UInt64.ofNat w := by
    apply UInt64.toBitVec_inj.1
    show Float.Model.UnpackedFloat.pack .binary64 (.unpack .binary64 (UInt64.ofNat w).toBitVec) = _
    rw [Float.Model.UnpackedFloat.pack_unpack, if_neg]
    rwa [isNaNBits_iff, hword]
  show (Float.ofBits (UInt64.ofNat w)).toBits.toNat = w
  rw [hbits, hword]

theorem decode_eq_nan_iff : decode x = .nan ↔ x = Float.nan := by
  constructor
  · intro h
    have hbits := Float.Model.UnpackedFloat.pack_unpack_of_valid x.toModel.valid
    have hnan := isNaNBits_iff.2 h
    rw [Float.Model.UnpackedFloat.pack_unpack] at hbits
    exact Float.toBits_inj.1 (UInt64.toBitVec_inj.1 (hbits.symm.trans (if_pos hnan)))
  · rintro rfl
    decide

theorem value_eq_nan_iff : value x = .nan ↔ x = Float.nan := by
  rw [← decode_eq_nan_iff, value]
  cases decode x <;> simp [Binary.value]

/-- What a machine number is decoded to if it is made of the word of a magnitude and a sign. -/
theorem decode_ofWord {d : Binary} (a : Bool) (hw : w < double.signWeight)
    (h : double.decode (double.withSign a w) = d) (hd : d ≠ .nan) :
    decode (ofWord (double.withSign a w) : Float) = d := by
  have hword := toWord_ofWord (withSign_lt a hw) (h ▸ hd)
  exact (congrArg double.decode hword).trans h

theorem value_infinity (a : Bool) : value (infinity a : Float) = .infinite a := by
  have h := decode_withSign_infinityWord double a
  exact congrArg Binary.value (decode_ofWord a double.infinityWord_lt h Binary.noConfusion)

theorem canonical_of_decode (h : decode x = .finite a m e) :
    double.Canonical m e ∧ toWord x = double.withSign a (double.magnitudeWord m e) :=
  BinaryFormat.canonical_of_decode one_lt_specialExponent (toWord_lt x) h

/-! ## Patterns -/

/-- Whether the sign is set in a pattern of 64 bits. -/
def signBit (b : UInt64) : Bool :=
  b.toNat / 2 ^ 63 == 1

/-- The exponent field of a pattern. -/
def exponentField (b : UInt64) : ℕ :=
  b.toNat / 2 ^ 52 % 2 ^ 11

/-- The fraction field of a pattern. -/
def fractionField (b : UInt64) : ℕ :=
  b.toNat % 2 ^ 52

/-- A 64-bit number is decoded to what its pattern is decoded to, also if this is one of the many patterns
of NaN, which it does not keep. -/
theorem decode_ofBits (b : UInt64) : decode (Float.ofBits b) = double.decode b.toNat := by
  by_cases h : double.decode b.toNat = .nan
  · rw [h, decode_eq_nan_iff]
    apply Float.toBits_inj.1
    apply UInt64.toBitVec_inj.1
    show Float.Model.UnpackedFloat.pack .binary64 (.unpack .binary64 b.toBitVec) = _
    rw [Float.Model.UnpackedFloat.pack_unpack, if_pos (isNaNBits_iff.2 h)]
    rfl
  · have hword := toWord_ofWord b.toNat_lt h
    have hofWord : (ofWord b.toNat : Float) = Float.ofBits b := by
      show Float.ofBits (UInt64.ofNat b.toNat) = _
      rw [UInt64.ofNat_toNat]
    rw [hofWord] at hword
    exact congrArg double.decode hword

/-- The number a pattern stands for, by its fields. -/
theorem decode_ofBits_eq (b : UInt64) :
    decode (Float.ofBits b) =
      if exponentField b = 2047 then
        if fractionField b = 0 then .infinite (signBit b) else .nan
      else if exponentField b = 0 then .finite (signBit b) (fractionField b) (-1074)
      else .finite (signBit b) (2 ^ 52 + fractionField b) (exponentField b - 1075) := by
  have hsign : b.toNat / 2 ^ 63 % 2 = b.toNat / 2 ^ 63 :=
    Nat.mod_eq_of_lt (Nat.div_lt_of_lt_mul b.toNat_lt)
  have hexponent (n : ℕ) : double.minExponent + n - 1 = n - 1075 := by
    rw [show double.minExponent = -1074 from rfl]
    omega
  rw [decode_ofBits, BinaryFormat.decode, hexponent, signBit, ← hsign]
  rfl

/-! ## Equality -/

theorem eq_zero_of_decode (h : decode x = .finite a 0 e) : x = if a then -0 else 0 := by
  obtain ⟨hc, hw⟩ := canonical_of_decode h
  have he : e = double.minExponent := hc.eq_or_le.resolve_right (by decide)
  apply eq_of_toWord_eq
  rw [hw, he]
  cases a <;> decide

theorem value_neg_zero : value (-0 : Float) = value (0 : Float) := by
  have hneg : decode (-0 : Float) = .finite true 0 (-1074) := by decide
  have hpos : decode (0 : Float) = .finite false 0 (-1074) := by decide
  rw [value, value, hneg, hpos, Binary.value, Binary.value, Fraction.signed_zero, Fraction.signed_zero]

/-- The value of a number determines it, up to the sign of zero. -/
theorem eq_or_zero_of_value_eq (h : value x = value y) :
    x = y ∨ (x = 0 ∧ y = -0) ∨ (x = -0 ∧ y = 0) := by
  obtain ⟨hx, hy⟩ | ⟨a, hx, hy⟩ | ⟨a, m, e, b, n, k, hx, hy, heq⟩ := Binary.value_eq_cases h
  · exact .inl ((decode_eq_nan_iff.1 hx).trans (decode_eq_nan_iff.1 hy).symm)
  · have hwx := eq_infinityWord_of_decode (toWord_lt x) hx
    have hwy := eq_infinityWord_of_decode (toWord_lt y) hy
    exact .inl (eq_of_toWord_eq (hwx.trans hwy.symm))
  · obtain ⟨hcx, hwx⟩ := canonical_of_decode hx
    obtain ⟨hcy, hwy⟩ := canonical_of_decode hy
    obtain ⟨rfl, rfl, rfl | rfl⟩ := hcx.eq_of_signed_eq hcy heq
    · exact .inl (eq_of_toWord_eq (hwx.trans hwy.symm))
    · rw [eq_zero_of_decode hx, eq_zero_of_decode hy]
      cases a <;> cases b <;> simp

/-- Machine numbers are equal if their values are, except for NaN. -/
theorem beq_iff_value : (x == y) = true ↔ value x = value y ∧ value x ≠ .nan := by
  rw [Float.beq_iff_ne_nan_and_eq, Ne, Ne, ← value_eq_nan_iff, ← value_eq_nan_iff]
  constructor
  · rintro ⟨hx, -, rfl | ⟨rfl, rfl⟩ | ⟨rfl, rfl⟩⟩
    · exact ⟨rfl, hx⟩
    · exact ⟨value_neg_zero.symm, hx⟩
    · exact ⟨value_neg_zero, hx⟩
  · rintro ⟨h, hx⟩
    exact ⟨hx, h ▸ hx, eq_or_zero_of_value_eq h⟩

/-! ## Rounding -/

/-- A quotient that fits in the bits and in the range of a 64-bit number is not changed by rounding. -/
theorem value_ofRatio (a : Bool) (hden : den ≠ 0) (h : (num : ℚ) / den = m * 2 ^ e) (hm : m < 2 ^ 53)
    (he : -1074 ≤ e) (hlt : (num : ℚ) / den < 2 ^ 1024) :
    value (ofRatio a num den : Float) = .finite (Fraction.signed a num / den) := by
  obtain ⟨n, k, hc, hvalue⟩ := exists_canonical one_lt_specialExponent hm he (by rwa [← h])
  have hratio : (ofRatio a num den : Float) =
      ofWord (double.withSign a (double.magnitudeWord n k)) := by
    rw [← hc.roundMagnitude_eq hden (h.trans hvalue.symm)]
    rfl
  have hlt' := hc.magnitudeWord_lt.trans double.infinityWord_lt
  rw [value, hratio, decode_ofWord a hlt' (hc.decode_withSign a) Binary.noConfusion, Binary.value,
    Extended.finite.injEq]
  cases a with
  | false => simpa [Fraction.signed] using hvalue.trans h.symm
  | true => simpa [Fraction.signed, neg_div] using hvalue.trans h.symm

end Formula.Floating
