/-
The order of doubles is that of their bits: those below the sign are counted up from zero by the positive doubles,
and down by the negative ones, which gives every double a rank. Numbers are compared by their ranks (`le_iff`,
`lt_iff`), and what is no number is below and above none. The two zeros have the same rank.
-/
import SciCalc.Proofs.Double.Unpacked

namespace SciCalc.Double

open Float.Model Float.Model.UnpackedFloat

variable {x y : Float} {negative negative' : Bool} {m m' : Nat}

/-- The bits of a double below its sign, with the sign. -/
def rank (x : Float) : Int :=
  (signOf (decide (signBit ≤ x.toBits.toNat))).apply (x.toBits.toNat % signBit : Nat)

theorem rank_word (hm : m ≤ infinityBits) (negative : Bool) :
    rank (.ofBits (.ofBitVec (word negative m))) = (signOf negative).apply m := by
  have hlt : m < signBit := Nat.lt_of_le_of_lt hm (by decide)
  rw [rank, toNat_toBits_word hm]
  cases negative with
  | true => simp [Nat.mod_eq_of_lt hlt]
  | false => simp [Nat.mod_eq_of_lt hlt, Nat.not_le.mpr hlt]

/-! ## Words -/

/-- **A double is a number** if it has the bits of a finite one, or those of infinity. -/
theorem exists_word (h : x ≠ Float.nan) :
    ∃ negative m, m ≤ infinityBits ∧ x = .ofBits (.ofBitVec (word negative m)) := by
  refine ⟨_, _, Nat.le_of_not_lt fun hlt => h ?_, eq_word x⟩
  have hexponent : (@unpackExponent .binary64 x.toBits.toBitVec).toNat = x.toBits.toNat / 2 ^ 52 % 2 ^ 11 := by
    change (x.toBits.toNat >>> 52) % 2 ^ 11 = _
    rw [Nat.shiftRight_eq_div_pow]
  have hmantissa : (@unpackMantissa .binary64 x.toBits.toBitVec).toNat = x.toBits.toNat % 2 ^ 52 := by
    change (x.toBits.toNat >>> 0) % 2 ^ 52 = _
    rw [Nat.shiftRight_zero]
  simp only [infinityBits, signBit, Nat.pow_eq] at hlt
  have hones : @unpackExponent .binary64 x.toBits.toBitVec = -1#_ := by
    have hall : 2047 = (-1#_ : BitVec Format.binary64.exponentBits).toNat := rfl
    refine BitVec.eq_of_toNat_eq (hexponent.trans (Eq.trans ?_ hall))
    omega
  have hfraction : @unpackMantissa .binary64 x.toBits.toBitVec ≠ 0#_ := by
    intro hzero
    rw [hzero] at hmantissa
    have hnone : x.toBits.toNat % 2 ^ 52 = 0 := hmantissa.symm
    omega
  exact Float.toBits_inj.mp (UInt64.toBitVec_inj.mp (x.toModel.valid.eq_packedNaN hones hfraction))

theorem unpack_word_infinityBits (negative : Bool) :
    UnpackedFloat.unpack .binary64 (word negative infinityBits) = .infinity (signOf negative) := by
  cases negative <;> rfl

/-- Powers are compared before significands, and so the bits are. -/
theorem compare_parts {mantissa mantissa' exponent exponent' : Nat} (hlow : exponent = 0 ∨ 2 ^ 52 ≤ mantissa)
    (hlow' : exponent' = 0 ∨ 2 ^ 52 ≤ mantissa') (hhigh : mantissa < 2 ^ 53) (hhigh' : mantissa' < 2 ^ 53) :
    (compare (exponent - 1074 : Int) (exponent' - 1074)).then (compare mantissa mantissa') =
      compare (exponent * 2 ^ 52 + mantissa) (exponent' * 2 ^ 52 + mantissa') := by
  rcases Nat.lt_trichotomy exponent exponent' with hlt | rfl | hgt
  · have hparts : compare (exponent - 1074 : Int) (exponent' - 1074) = .lt := Int.compare_eq_lt.mpr (by omega)
    rw [hparts]
    exact (Nat.compare_eq_lt.mpr (by omega)).symm
  · have hparts : compare (exponent - 1074 : Int) (exponent - 1074) = .eq := Int.compare_eq_eq.mpr rfl
    rw [hparts]
    rcases Nat.lt_trichotomy mantissa mantissa' with hlt | rfl | hgt
    · exact (Nat.compare_eq_lt.mpr hlt).trans (Nat.compare_eq_lt.mpr (by omega)).symm
    · exact (Nat.compare_eq_eq.mpr rfl).trans (Nat.compare_eq_eq.mpr rfl).symm
    · exact (Nat.compare_eq_gt.mpr hgt).trans (Nat.compare_eq_gt.mpr (by omega)).symm
  · have hparts : compare (exponent - 1074 : Int) (exponent' - 1074) = .gt := Int.compare_eq_gt.mpr (by omega)
    rw [hparts]
    exact (Nat.compare_eq_gt.mpr (by omega)).symm

theorem unpack_word (hm : m ≤ infinityBits) (negative : Bool) :
    (m = 0 ∧ UnpackedFloat.unpack .binary64 (word negative m) = .zero (signOf negative)) ∨
      (m = infinityBits ∧ UnpackedFloat.unpack .binary64 (word negative m) = .infinity (signOf negative)) ∨
      ∃ (mantissa exponent : Nat) (h : 0 < mantissa), exponent * 2 ^ 52 + mantissa = m ∧ m < infinityBits ∧
        (exponent = 0 ∨ 2 ^ 52 ≤ mantissa) ∧ mantissa < 2 ^ 53 ∧
        UnpackedFloat.unpack .binary64 (word negative m) =
          .finite (signOf negative) mantissa (exponent - 1074 : Int) h := by
  rcases hm.lt_or_eq with hlt | rfl
  · by_cases hzero : m = 0
    · exact .inl ⟨hzero, by rw [hzero, unpack_word_zero]⟩
    · obtain ⟨mantissa, exponent, hpos, hbits, hlow, hhigh, hunpack⟩ := exists_unpack_word hlt hzero negative
      exact .inr (.inr ⟨mantissa, exponent, hpos, hbits, hlt, hlow, hhigh, hunpack⟩)
  · exact .inr (.inl ⟨rfl, unpack_word_infinityBits negative⟩)

theorem compare_cast (a b : Nat) : compare (a : Int) (b : Int) = compare a b := by
  rcases Nat.lt_trichotomy a b with hlt | rfl | hgt
  · rw [Nat.compare_eq_lt.mpr hlt, Int.compare_eq_lt.mpr (by omega)]
  · rw [Nat.compare_eq_eq.mpr rfl, Int.compare_eq_eq.mpr rfl]
  · rw [Nat.compare_eq_gt.mpr hgt, Int.compare_eq_gt.mpr (by omega)]

theorem compare_neg (a b : Int) : compare (-a) (-b) = (compare a b).swap := by
  rcases Int.lt_trichotomy a b with hlt | rfl | hgt
  · rw [Int.compare_eq_lt.mpr hlt, Int.compare_eq_gt.mpr (by omega)]
    rfl
  · rw [Int.compare_eq_eq.mpr rfl, Int.compare_eq_eq.mpr rfl]
    rfl
  · rw [Int.compare_eq_gt.mpr hgt, Int.compare_eq_lt.mpr (by omega)]
    rfl

theorem apply_signOf (negative : Bool) (n : Int) : (signOf negative).apply n = if negative then -n else n := by
  cases negative <;> rfl

/-- **Words are compared** as their bits below the sign are, with the sign. -/
theorem compare_word (hm : m ≤ infinityBits) (hm' : m' ≤ infinityBits) (negative negative' : Bool) :
    UnpackedFloat.compare (UnpackedFloat.unpack .binary64 (word negative m))
        (UnpackedFloat.unpack .binary64 (word negative' m')) =
      some (compare ((signOf negative).apply m) ((signOf negative').apply m')) := by
  have less : ∀ {a b : Int}, a < b → some (compare a b) = some .lt :=
    fun h => congrArg some (Int.compare_eq_lt.mpr h)
  have greater : ∀ {a b : Int}, b < a → some (compare a b) = some .gt :=
    fun h => congrArg some (Int.compare_eq_gt.mpr h)
  rcases unpack_word hm negative with
      ⟨rfl, hu⟩ | ⟨rfl, hu⟩ | ⟨mantissa, exponent, hpos, hbits, hlt, hlow, hhigh, hu⟩ <;>
    rcases unpack_word hm' negative' with
      ⟨rfl, hu'⟩ | ⟨rfl, hu'⟩ | ⟨mantissa', exponent', hpos', hbits', hlt', hlow', hhigh', hu'⟩ <;>
    rw [hu, hu', apply_signOf, apply_signOf]
  · cases negative <;> cases negative' <;> rfl
  · cases negative <;> cases negative' <;> rfl
  · cases negative' with
    | false => exact (less (by simp; omega)).symm
    | true => exact (greater (by simp; omega)).symm
  · cases negative <;> cases negative' <;> rfl
  · cases negative <;> cases negative' <;> rfl
  · cases negative with
    | false => exact (greater (by cases negative' <;> simp <;> omega)).symm
    | true => exact (less (by cases negative' <;> simp <;> omega)).symm
  · cases negative with
    | false => exact (greater (by simp; omega)).symm
    | true => exact (less (by simp; omega)).symm
  · cases negative' with
    | false => exact (less (by cases negative <;> simp <;> omega)).symm
    | true => exact (greater (by cases negative <;> simp <;> omega)).symm
  · have hparts := compare_parts hlow hlow' hhigh hhigh'
    rw [hbits, hbits'] at hparts
    cases negative with
    | false =>
      cases negative' with
      | false => exact congrArg some (hparts.trans (compare_cast m m').symm)
      | true => exact (greater (by simp; omega)).symm
    | true =>
      cases negative' with
      | false => exact (less (by simp; omega)).symm
      | true =>
        have hswap : compare (-(m : Int)) (-(m' : Int)) = (compare m m').swap := by rw [compare_neg, compare_cast]
        exact congrArg some ((congrArg Ordering.swap hparts).trans hswap.symm)

/-! ## Doubles -/

theorem ne_nan_word (hm : m ≤ infinityBits) (negative : Bool) :
    Float.ofBits (.ofBitVec (word negative m)) ≠ Float.nan := by
  have hself := compare_word hm hm negative negative
  intro hnan
  rw [← unpack_ofBits (valid_word hm negative), hnan] at hself
  cases hself

theorem compare_nan (x : Float) :
    UnpackedFloat.compare Float.nan.toModel.unpack x.toModel.unpack = none ∧
      UnpackedFloat.compare x.toModel.unpack Float.nan.toModel.unpack = none := by
  have hnan : Float.nan.toModel.unpack = .notANumber := by rfl
  rw [hnan]
  exact ⟨rfl, by cases x.toModel.unpack <;> rfl⟩

/-- **Doubles are compared** by their ranks, if both are numbers. -/
theorem compare_rank (hx : x ≠ Float.nan) (hy : y ≠ Float.nan) :
    UnpackedFloat.compare x.toModel.unpack y.toModel.unpack = some (compare (rank x) (rank y)) := by
  obtain ⟨negative, m, hm, rfl⟩ := exists_word hx
  obtain ⟨negative', m', hm', rfl⟩ := exists_word hy
  rw [unpack_ofBits (valid_word hm negative), unpack_ofBits (valid_word hm' negative'), rank_word hm, rank_word hm',
    compare_word hm hm']

theorem compare_eq (x y : Float) :
    UnpackedFloat.compare x.toModel.unpack y.toModel.unpack =
      if x = Float.nan ∨ y = Float.nan then none else some (compare (rank x) (rank y)) := by
  by_cases hx : x = Float.nan
  · rw [if_pos (.inl hx), hx, (compare_nan y).1]
  · by_cases hy : y = Float.nan
    · rw [if_pos (.inr hy), hy, (compare_nan x).2]
    · rw [if_neg (not_or_intro hx hy), compare_rank hx hy]

theorem le_iff : x ≤ y ↔ x ≠ Float.nan ∧ y ≠ Float.nan ∧ rank x ≤ rank y := by
  have hle : x ≤ y ↔ (UnpackedFloat.compare x.toModel.unpack y.toModel.unpack).any Ordering.isLE = true :=
    decide_eq_true_iff
  rw [hle, compare_eq]
  split
  · next hnan =>
    refine iff_of_false Bool.false_ne_true fun ⟨hx, hy, _⟩ => ?_
    exact hnan.elim hx hy
  · next hnan =>
    obtain ⟨hx, hy⟩ := not_or.mp hnan
    rw [Option.any_some, Int.isLE_compare]
    exact ⟨fun hrank => ⟨hx, hy, hrank⟩, fun h => h.2.2⟩

theorem lt_iff : x < y ↔ x ≠ Float.nan ∧ y ≠ Float.nan ∧ rank x < rank y := by
  have hlt : x < y ↔ (UnpackedFloat.compare x.toModel.unpack y.toModel.unpack == some .lt) = true :=
    decide_eq_true_iff
  rw [hlt, compare_eq]
  split
  · next hnan =>
    refine iff_of_false Bool.false_ne_true fun ⟨hx, hy, _⟩ => ?_
    exact hnan.elim hx hy
  · next hnan =>
    obtain ⟨hx, hy⟩ := not_or.mp hnan
    rw [beq_iff_eq, Option.some_inj, Int.compare_eq_lt]
    exact ⟨fun hrank => ⟨hx, hy, hrank⟩, fun h => h.2.2⟩

theorem le_of_le_of_le {z : Float} (h : x ≤ y) (h' : y ≤ z) : x ≤ z := by
  rw [le_iff] at *
  exact ⟨h.1, h'.2.1, h.2.2.trans h'.2.2⟩

end SciCalc.Double
