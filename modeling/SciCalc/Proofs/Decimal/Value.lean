/-
A decimal is read as the double nearest to its value. The exponents that are told apart first change
nothing (`toDouble_eq_ofQuotient`): what lies there is infinite or nothing in any case. So it does not
matter how the value is written (`toDouble_shift`), and the decimal that is found for a double is read as
that double again (`toDouble_shortest`).
-/
import SciCalc.Decimal.Shortest
import SciCalc.Proofs.Double.Nearest

namespace SciCalc

open Double (nearestBits unitsPerOne)

namespace Decimal

/-! ## The value of a decimal -/

theorem two_pow_le_ten_pow (n : Nat) : 2 ^ (3 * n) ≤ 10 ^ n := by
  rw [Nat.pow_mul]
  exact Nat.pow_le_pow_left (by decide) n

theorem ofQuotient_of_large {digits n : Nat} (hdigits : digits ≠ 0) (hn : 400 < n) :
    Double.ofQuotient false (digits * 10 ^ n) 1 = Double.infinity := by
  have hle : 1 * 2 ^ (3 * n) ≤ digits * 10 ^ n :=
    Nat.mul_le_mul (Nat.one_le_iff_ne_zero.mpr hdigits) (two_pow_le_ten_pow n)
  exact Double.ofQuotient_of_bits
    (Double.nearestBits_eq_infinityBits Nat.one_pos (by omega) hle)

theorem ofQuotient_of_small {digits n : Nat} (hdigits : digits ≠ 0) (hn : digits.log2 + 401 < n) :
    Double.ofQuotient false digits (10 ^ n) = Double.ofNat 0 := by
  obtain ⟨k, hk, hone⟩ := Double.unitsPerOne_eq_two_pow
  have hlt : 2 * (digits * unitsPerOne) < 10 ^ n := by
    calc 2 * (digits * unitsPerOne) < 2 * (2 ^ (digits.log2 + 1) * unitsPerOne) := by
          refine Nat.mul_lt_mul_of_pos_left (Nat.mul_lt_mul_of_pos_right ?_ Double.unitsPerOne_pos) (by decide)
          exact (Nat.log2_lt hdigits).mp (Nat.lt_succ_self _)
      _ = 2 ^ (digits.log2 + 1 + k + 1) := by rw [hone, ← Nat.pow_add, Nat.mul_comm, ← Nat.pow_succ]
      _ ≤ 2 ^ (3 * n) := Nat.pow_le_pow_right (by decide) (by omega)
      _ ≤ 10 ^ n := two_pow_le_ten_pow n
  rw [Double.ofNat_zero]
  exact Double.ofQuotient_of_bits (Double.nearestBits_eq_zero hlt)

/-- **Only the value counts** for the double that a decimal is read as. -/
theorem toDouble_eq_ofQuotient (d : Decimal) :
    d.toDouble = Double.ofQuotient false (d.digits * 10 ^ d.exponent.toNat) (10 ^ (-d.exponent).toNat) := by
  simp only [toDouble, Nat.pow_eq]
  split
  · next hzero =>
    rw [hzero, Nat.zero_mul, Double.ofNat_zero]
    refine (Double.ofQuotient_of_bits (Double.nearestBits_eq_zero ?_)).symm
    rw [Nat.zero_mul]
    exact Nat.pow_pos (by decide)
  · next hne =>
    split
    · next hlarge =>
      have hden : (-d.exponent).toNat = 0 := by omega
      rw [hden, Nat.pow_zero, ofQuotient_of_large hne (by omega)]
    · split
      · next hsmall =>
        have hnum : d.exponent.toNat = 0 := by omega
        rw [hnum, Nat.pow_zero, Nat.mul_one, ofQuotient_of_small hne (by omega)]
      · rfl

/-- Zeros at the end of the digits may be counted in the power of ten. -/
theorem toDouble_shift (digits k : Nat) (e : Int) :
    (⟨digits * 10 ^ k, e⟩ : Decimal).toDouble = (⟨digits, e + k⟩ : Decimal).toDouble := by
  rw [toDouble_eq_ofQuotient, toDouble_eq_ofQuotient]
  refine Double.ofQuotient_eq (Nat.pow_pos (by decide)) (Nat.pow_pos (by decide)) ?_
  have hpower : k + e.toNat + (-(e + k)).toNat = (e + k).toNat + (-e).toNat := by omega
  rw [Nat.mul_assoc, Nat.mul_assoc, ← Nat.pow_add, ← Nat.pow_add, Nat.mul_assoc, ← Nat.pow_add,
    ← Nat.add_assoc, hpower]

/-! ## The shortest decimal -/

theorem toDouble_exact (units : Nat) : (exact units).toDouble = Double.ofUnits false units := by
  obtain ⟨k, hk, hone⟩ := Double.unitsPerOne_eq_two_pow
  have hexact : exact units = ⟨units * 5 ^ k, -(k : Int)⟩ := by
    rw [hk]
    rfl
  have hten : 10 ^ k = 5 ^ k * 2 ^ k := by rw [← Nat.mul_pow]
  rw [hexact, toDouble_eq_ofQuotient, Double.ofUnits]
  refine Double.ofQuotient_eq (Nat.pow_pos (by decide)) Double.unitsPerOne_pos ?_
  have hnum : (-(k : Int)).toNat = 0 := by omega
  have hden : (-(-(k : Int))).toNat = k := by omega
  rw [hnum, hden, hone, Nat.pow_zero, Nat.mul_one, hten, Nat.mul_assoc]

/-- **What is found for a double** is read as the double again. -/
theorem toDouble_shortest (tie : Tie) (units : Nat) :
    (shortest tie units).toDouble = Double.ofUnits false units := by
  simp only [shortest]
  split
  · next hzero =>
    rw [hzero, toDouble_eq_ofQuotient, Double.ofUnits]
    refine Double.ofQuotient_eq (Nat.pow_pos (by decide)) Double.unitsPerOne_pos ?_
    simp
  · cases hfound : (List.range 17).findSome? fun n => withDigits? tie units (n + 1) with
    | none => exact toDouble_exact units
    | some d =>
      obtain ⟨n, -, hn⟩ := List.exists_of_findSome?_eq_some hfound
      have hread := List.find?_some hn
      exact of_decide_eq_true hread

end Decimal
end SciCalc
