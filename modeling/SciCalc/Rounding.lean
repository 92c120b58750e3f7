/-
Rounding a quotient of naturals to the nearest natural, a tie going to the even neighbour. Doubles
are read and written by it, and so are decimals with a fixed number of places.
-/
namespace SciCalc

/-- The natural nearest to `num / den`, the even one where two are equally near. -/
def roundDiv (num den : Nat) : Nat :=
  let quotient := num / den
  let rest := num % den
  if 2 * rest < den then quotient
  else if den < 2 * rest then quotient + 1
  else quotient + quotient % 2

/-- The rounded quotient is within half a unit of the exact one. -/
theorem roundDiv_near {num den : Nat} (h : 0 < den) :
    2 * (roundDiv num den * den) ≤ 2 * num + den ∧ 2 * num ≤ 2 * (roundDiv num den * den) + den := by
  have hsum : num / den * den + num % den = num := Nat.div_add_mod' num den
  have hrest : num % den < den := Nat.mod_lt _ h
  have hup : (num / den + 1) * den = num / den * den + den := Nat.succ_mul _ _
  simp only [roundDiv]
  split
  · omega
  · split
    · omega
    · rcases Nat.mod_two_eq_zero_or_one (num / den) with he | he
      · simp only [he, Nat.add_zero]; omega
      · simp only [he]; omega

/-- A quotient half-way between two naturals is rounded to an even one. -/
theorem roundDiv_tie {num den : Nat} (h : 2 * (num % den) = den) : roundDiv num den % 2 = 0 := by
  simp only [roundDiv, h, Nat.lt_irrefl, ↓reduceIte]
  omega

/-- An exact quotient is left as it is. -/
theorem roundDiv_mul {quotient den : Nat} (h : 0 < den) : roundDiv (quotient * den) den = quotient := by
  simp [roundDiv, Nat.mul_div_cancel _ h, h]

end SciCalc
