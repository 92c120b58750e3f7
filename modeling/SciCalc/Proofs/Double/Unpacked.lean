/-
Finite doubles taken apart, as the operations on them see them: a significand of at most 53 bits and a power of
two, which together are its bits (`exists_unpack_word`). To cast a double to an integer is to leave out what is
behind the point (`toInt64_of_classify`).
-/
import SciCalc.Proofs.Double.Bits

namespace SciCalc.Double

open Float.Model Float.Model.UnpackedFloat

variable {x : Float} {negative : Bool} {units m : Nat}

/-- The sign of a double. -/
def signOf (negative : Bool) : Sign := if negative then .negative else .positive

theorem unpack_word_zero (negative : Bool) :
    UnpackedFloat.unpack .binary64 (word negative 0) = .zero (signOf negative) := by
  cases negative <;> rfl

/-- **A finite double that is not zero** is a significand times a power of two, not below the unit. Of its 53 bits
the significand has the first one, unless the power is the least. -/
theorem exists_unpack_word (hm : m < infinityBits) (hne : m ≠ 0) (negative : Bool) :
    ∃ (mantissa exponent : Nat) (h : 0 < mantissa), exponent * 2 ^ 52 + mantissa = m ∧
      (exponent = 0 ∨ 2 ^ 52 ≤ mantissa) ∧ mantissa < 2 ^ 53 ∧
      UnpackedFloat.unpack .binary64 (word negative m) =
        .finite (signOf negative) mantissa (exponent - 1074 : Int) h := by
  have hfield : (BitVec.ofNat 11 (m / 2 ^ 52)).toNat = m / 2 ^ 52 := by
    simp only [infinityBits, Nat.pow_eq] at hm
    exact Nat.mod_eq_of_lt (by omega)
  have hfraction : (BitVec.ofNat 52 m).toNat = m % 2 ^ 52 := BitVec.toNat_ofNat _ _
  have hones := exponent_word_ne_ones hm negative
  simp only [exponent_word hm] at hones
  simp only [UnpackedFloat.unpack, exponent_word hm, mantissa_word hm, sign_word hm, if_neg hones]
  by_cases hsub : m / 2 ^ 52 = 0
  · have hpos : 0 < m % 2 ^ 52 := by omega
    have hzero : BitVec.ofNat 11 (m / 2 ^ 52) = 0#_ := by rw [hsub]
    have hmantissa : BitVec.ofNat 52 m ≠ 0#_ := by
      intro hnone
      have hnat := congrArg BitVec.toNat hnone
      rw [hfraction] at hnat
      exact Nat.ne_of_gt hpos hnat
    refine ⟨m % 2 ^ 52, 0, hpos, by omega, .inl rfl, by omega, ?_⟩
    rw [if_pos hzero, dif_neg hmantissa, finite.injEq]
    refine ⟨rfl, hfraction, ?_⟩
    rw [hfield, hsub]
    rfl
  · have hne' : BitVec.ofNat 11 (m / 2 ^ 52) ≠ 0#_ := by
      intro hnone
      have hnat := congrArg BitVec.toNat hnone
      rw [hfield] at hnat
      exact hsub hnat
    have hmantissa : (1#1 ++ BitVec.ofNat 52 m).toNat = 2 ^ 52 + m % 2 ^ 52 := by
      rw [toNat_append, hfraction]
      rfl
    refine ⟨2 ^ 52 + m % 2 ^ 52, m / 2 ^ 52 - 1, by omega, by omega, .inr (by omega), by omega, ?_⟩
    rw [if_neg hne', finite.injEq]
    refine ⟨rfl, hmantissa, ?_⟩
    have hbias : (Format.binary64.exponentBias + Format.binary64.mantissaBitsWithoutImplicit : Int) = 1075 := rfl
    rw [hfield, hbias]
    omega

/-! ## Cast to an integer -/

theorem mantissa_shiftRight (em : ExtendedMantissa) (k : Nat) :
    (em >>> k).mantissa = em.mantissa / 2 ^ k := by
  induction k with
  | zero => exact (Nat.div_one _).symm
  | succ k ih =>
    have hstep : em >>> (k + 1) = (em >>> k).shiftRightOne := rfl
    rw [hstep, ExtendedMantissa.shiftRightOne, ih, Nat.div_div_eq_div_mul, Nat.pow_succ]

theorem roundToInt_units (s : Sign) (mantissa exponent : Nat) :
    roundToInt s mantissa (exponent - 1074 : Int) = s.apply (mantissa * 2 ^ exponent / unitsPerOne : Nat) := by
  obtain ⟨k, hk, hone⟩ := unitsPerOne_eq_two_pow
  have hup : (exponent - 1074 - 0 : Int).toNat = exponent - k := by omega
  have hdown : (0 - (exponent - 1074 - (exponent - k : Nat)) : Int).toNat = k - exponent := by omega
  have hsum : exponent + (k - exponent) = exponent - k + k := by omega
  have hpower : 2 ^ exponent * 2 ^ (k - exponent) = 2 ^ (exponent - k) * 2 ^ k := by
    rw [← Nat.pow_add, ← Nat.pow_add, hsum]
  have hquotient : mantissa * 2 ^ (exponent - k) / 2 ^ (k - exponent) = mantissa * 2 ^ exponent / unitsPerOne := by
    calc mantissa * 2 ^ (exponent - k) / 2 ^ (k - exponent)
        = mantissa * 2 ^ (exponent - k) * 2 ^ k / (2 ^ (k - exponent) * 2 ^ k) :=
          (Nat.mul_div_mul_right _ _ (Nat.two_pow_pos k)).symm
      _ = mantissa * 2 ^ exponent * 2 ^ (k - exponent) / (2 ^ k * 2 ^ (k - exponent)) := by
          rw [Nat.mul_assoc, ← hpower, Nat.mul_assoc, Nat.mul_comm (2 ^ (k - exponent))]
      _ = mantissa * 2 ^ exponent / unitsPerOne := by
          rw [Nat.mul_div_mul_right _ _ (Nat.two_pow_pos _), hone]
  simp only [roundToInt, decreaseExponent, shiftToExponent, hup, hdown, mantissa_shiftRight,
    ExtendedMantissa.ofMantissaAndAccuracy, Nat.shiftLeft_eq, hquotient]

/-- **To cast a finite double to an integer** is to leave out what is behind the point, where there is such an
integer. -/
theorem toInt64_of_classify (hx : classify x = .finite negative units) (h : units / unitsPerOne < 2 ^ 63) :
    x.toModel.toInt64.toInt = (signOf negative).apply (units / unitsPerOne : Nat) := by
  obtain ⟨m, hm, rfl, rfl⟩ := exists_word_of_classify hx
  have hinteger : ∀ low high, (Float.ofBits (.ofBitVec (word negative m))).toModel.unpack.toInt low high =
      (signOf negative).apply (unitsOfBits m / unitsPerOne : Nat) := by
    intro low high
    rw [unpack_ofBits (valid_word hm.le negative)]
    by_cases hzero : m = 0
    · have hunits : unitsOfBits 0 = 0 := rfl
      rw [hzero, unpack_word_zero, hunits, Nat.zero_div]
      cases negative <;> rfl
    · obtain ⟨mantissa, exponent, hpos, hbits, hlow, hhigh, hunpack⟩ := exists_unpack_word hm hzero negative
      rw [hunpack, UnpackedFloat.toInt, roundToInt_units, ← hbits, unitsOfBits_significand hlow hhigh.le]
  rw [Float.Model.toInt64, UnpackedFloat.toInt64, hinteger]
  have hmin : Int64.minValue.toInt = -2 ^ 63 := rfl
  have hmax : Int64.maxValue.toInt = 2 ^ 63 - 1 := rfl
  generalize unitsOfBits m / unitsPerOne = n at h ⊢
  have happly : (signOf negative).apply n = if negative then -(n : Int) else n := by cases negative <;> rfl
  rw [happly]
  refine Int64.toInt_ofIntClamp ?_ ?_
  · split <;> omega
  · split <;> omega

end SciCalc.Double
