/-
Products, sums and negatives. The product of two finite doubles is the double nearest to the product of their values
(`mul_of_classify`), and the sum of two positive ones is the double nearest to the sum (`add_of_classify`).

The significands are multiplied or added exactly. What comes out is shifted to the right until a significand of 53
bits is left, or until the unit is reached, and the bits that are shifted out decide how it is rounded
(`roundedMantissa_shiftRight`). With its place, the rounded significand makes up the bits of the result
(`pack_round`).
-/
import SciCalc.Proofs.Double.Unpacked

namespace SciCalc.Double

open Float.Model Float.Model.UnpackedFloat

variable {x y : Float} {negative negative' : Bool} {units units' m m' n k shift mantissa : Nat} {exponent : Int}

/-! ## Bits that are shifted out -/

/-- The first bit that is shifted out tells whether they make up a half, and the others whether anything more or
less than that. -/
theorem bits_shiftRight (n k : Nat) :
    let shifted := ExtendedMantissa.ofMantissaAndAccuracy n .exact >>> k
    (shifted.roundBit = true ↔ 2 ^ k ≤ 2 * (n % 2 ^ k)) ∧
      (shifted.stickyBit = true ↔ 2 * (n % 2 ^ k) ≠ 0 ∧ 2 * (n % 2 ^ k) ≠ 2 ^ k) := by
  induction k with
  | zero => exact ⟨by simp [Nat.mod_one]; rfl, by simp [Nat.mod_one]; rfl⟩
  | succ k ih =>
    obtain ⟨hround, hsticky⟩ := ih
    have hstep : ExtendedMantissa.ofMantissaAndAccuracy n .exact >>> (k + 1) =
        (ExtendedMantissa.ofMantissaAndAccuracy n .exact >>> k).shiftRightOne := rfl
    have hexact : (ExtendedMantissa.ofMantissaAndAccuracy n .exact).mantissa = n := rfl
    have hrest : n % 2 ^ k < 2 ^ k := Nat.mod_lt _ (Nat.two_pow_pos k)
    have hrest' : n % 2 ^ (k + 1) = n % 2 ^ k + 2 ^ k * (n / 2 ^ k % 2) := by rw [Nat.pow_succ, Nat.mod_mul]
    have hpower : 2 ^ (k + 1) = 2 * 2 ^ k := Nat.pow_succ'
    simp only [hstep, ExtendedMantissa.shiftRightOne, mantissa_shiftRight, hexact, bne_iff_ne, Bool.or_eq_true,
      hround, hsticky]
    rw [hrest', hpower]
    rcases Nat.mod_two_eq_zero_or_one (n / 2 ^ k) with hbit | hbit
    · rw [hbit]
      omega
    · rw [hbit]
      omega

/-- **A significand that is shifted to the right** is rounded as a quotient is. -/
theorem roundedMantissa_shiftRight (n k : Nat) :
    (ExtendedMantissa.ofMantissaAndAccuracy n .exact >>> k).roundedMantissa = roundDiv n (2 ^ k) := by
  have hmantissa : (ExtendedMantissa.ofMantissaAndAccuracy n .exact >>> k).mantissa = n / 2 ^ k :=
    mantissa_shiftRight _ k
  obtain ⟨hround, hsticky⟩ := bits_shiftRight n k
  generalize ExtendedMantissa.ofMantissaAndAccuracy n .exact >>> k = shifted at hmantissa hround hsticky
  obtain ⟨mantissa, roundBit, stickyBit⟩ := shifted
  simp only at hmantissa hround hsticky
  rw [hmantissa, roundDiv]
  cases roundBit with
  | false =>
    have hlt : 2 * (n % 2 ^ k) < 2 ^ k := Nat.lt_of_not_le fun hle => Bool.false_ne_true (hround.mpr hle)
    rw [if_pos hlt]
    cases stickyBit <;> rfl
  | true =>
    have hle : 2 ^ k ≤ 2 * (n % 2 ^ k) := hround.mp rfl
    rw [if_neg (Nat.not_lt.mpr hle)]
    cases stickyBit with
    | false =>
      have hhalf : ¬ 2 ^ k < 2 * (n % 2 ^ k) := by
        intro hlt
        have hpos := Nat.two_pow_pos k
        exact Bool.false_ne_true (hsticky.mpr ⟨by omega, by omega⟩)
      rw [if_neg hhalf]
      rfl
    | true =>
      have hmore := (hsticky.mp rfl).2
      rw [if_pos (by omega)]
      rfl

/-! ## Significands with their places -/

theorem word_infinityBits (negative : Bool) :
    word negative infinityBits = packedInfinity .binary64 (signOf negative) := by
  cases negative <;> rfl

theorem pack_finite (hpos : 0 < m) (hlow : shift = 0 ∨ 2 ^ 52 ≤ m) (hhigh : m < 2 ^ 53) (negative : Bool)
    (hexponent : exponent = shift - 1074) :
    UnpackedFloat.pack .binary64 (.finite (signOf negative) m exponent hpos) =
      word negative (min (shift * 2 ^ 52 + m) infinityBits) := by
  have hbias : (exponent + Format.binary64.exponentBias + Format.binary64.mantissaBitsWithoutImplicit).toNat =
      shift + 1 := by
    have hsum : (Format.binary64.exponentBias + Format.binary64.mantissaBitsWithoutImplicit : Int) = 1075 := rfl
    omega
  have hbits : Format.binary64.mantissaBits = 53 := rfl
  have hinfinity : infinityBits = 2047 * 2 ^ 52 := rfl
  simp only [UnpackedFloat.pack, hbias, hbits]
  split
  · next hlarge =>
    have hshift : 2046 ≤ shift := by
      have hle : 2 ^ 11 ≤ shift + 1 + 1 := hlarge
      omega
    rw [Nat.min_eq_right (by omega), word_infinityBits]
  · next hsmall =>
    have hshift : shift < 2046 := by
      have hlt : ¬ 2 ^ 11 ≤ shift + 1 + 1 := hsmall
      omega
    have hfinite : shift * 2 ^ 52 + m < infinityBits := by omega
    have hfraction : BitVec.ofNat 52 (shift * 2 ^ 52 + m) = BitVec.ofNat 52 m := by
      refine BitVec.eq_of_toNat_eq ?_
      rw [BitVec.toNat_ofNat, BitVec.toNat_ofNat, Nat.mul_add_mod_self_right]
    rw [Nat.min_eq_left hfinite.le, word_eq_packComponents hfinite, hfraction]
    have hlog := Nat.log2_lt (k := 52) hpos.ne'
    have hlog' := Nat.log2_lt (k := 53) hpos.ne'
    split
    · have hfield : (shift * 2 ^ 52 + m) / 2 ^ 52 = shift + 1 := by omega
      rw [hfield]
      rfl
    · have hfield : (shift * 2 ^ 52 + m) / 2 ^ 52 = 0 := by omega
      rw [hfield]
      rfl

theorem targetExponent_eq (mantissa : Nat) (exponent : Int) :
    Format.binary64.targetExponent (totalExponent mantissa exponent) = max (mantissa.log2 + exponent - 52) (-1074) := by
  have htarget : ∀ e, Format.binary64.targetExponent e = max (e - 53) (-1074) := fun _ => rfl
  rw [htarget, totalExponent]
  omega

/-- Rounding may carry into a bit of its own, which is shifted out again. -/
theorem shiftToTargetExponent_rounded (h : n ≤ 2 ^ 53) (shift : Nat) :
    shiftToTargetExponent .binary64 n (shift - 1074) .exact =
      if n = 2 ^ 53 then (.ofMantissaAndAccuracy (2 ^ 52) .exact, ((shift + 1 : Nat) - 1074 : Int))
      else (.ofMantissaAndAccuracy n .exact, (shift : Int) - 1074) := by
  rw [shiftToTargetExponent, shiftToExponent, targetExponent_eq]
  split
  · next hcarry =>
    have hlog : n.log2 = 53 := by rw [hcarry, Nat.log2_two_pow]
    have hamount : (max ((n.log2 : Int) + (shift - 1074) - 52) (-1074) - (shift - 1074)).toNat = 1 := by omega
    have hexponent : (shift - 1074 + (1 : Nat) : Int) = (shift + 1 : Nat) - 1074 := by omega
    rw [hamount, hexponent, hcarry]
    rfl
  · have hlog : n.log2 ≤ 52 := by
      by_cases hzero : n = 0
      · rw [hzero, Nat.log2_zero]
        exact Nat.zero_le _
      · exact Nat.lt_succ_iff.mp ((Nat.log2_lt hzero).mpr (by omega))
    have hamount : (max ((n.log2 : Int) + (shift - 1074) - 52) (-1074) - (shift - 1074)).toNat = 0 := by omega
    rw [hamount]
    exact congrArg _ (Int.add_zero _)

/-- What is made of a significand that is shifted, rounded and shifted again. -/
theorem roundWithAccuracy_eq {s : Sign} {first : ExtendedMantissa} {e e' : Int}
    (hfirst : shiftToTargetExponent .binary64 mantissa exponent .exact = (first, e))
    (hsecond : shiftToTargetExponent .binary64 first.roundedMantissa e .exact =
      (.ofMantissaAndAccuracy n .exact, e')) :
    roundWithAccuracy .binary64 s mantissa exponent .exact =
      if h : n = 0 then .zero s else .finite s n e' (Nat.pos_of_ne_zero h) := by
  simp only [roundWithAccuracy, hfirst, hsecond]
  rfl

/-- **A significand is rounded once.** The place of what is left of it is `shift`, counted from the unit, and `k`
bits do not belong to it. -/
theorem pack_round (hpos : 0 < mantissa) (negative : Bool)
    (hshift : (shift : Int) = max (mantissa.log2 + exponent + 1022) 0) (hk : exponent + k = shift - 1074) :
    UnpackedFloat.pack .binary64 (roundWithAccuracy .binary64 (signOf negative) mantissa exponent .exact) =
      word negative (min (shift * 2 ^ 52 + roundDiv mantissa (2 ^ k)) infinityBits) := by
  have hfirst : shiftToTargetExponent .binary64 mantissa exponent .exact =
      (ExtendedMantissa.ofMantissaAndAccuracy mantissa .exact >>> k, (shift - 1074 : Int)) := by
    have hamount : (Format.binary64.targetExponent (totalExponent mantissa exponent) - exponent).toNat = k := by
      rw [targetExponent_eq]
      omega
    rw [shiftToTargetExponent, shiftToExponent, hamount, hk]
  have hhigh : roundDiv mantissa (2 ^ k) ≤ 2 ^ 53 := by
    refine roundDiv_le (Nat.two_pow_pos k) ?_
    rw [← Nat.pow_add]
    exact (Nat.lt_log2_self.trans_le (Nat.pow_le_pow_right (by decide) (by omega))).le
  have hlow : shift = 0 ∨ 2 ^ 52 ≤ roundDiv mantissa (2 ^ k) := by
    refine or_iff_not_imp_left.mpr fun hne => le_trans ?_ div_le_roundDiv
    rw [Nat.le_div_iff_mul_le (Nat.two_pow_pos k), ← Nat.pow_add]
    exact (Nat.pow_le_pow_right (by decide) (by omega)).trans (Nat.log2_self_le hpos.ne')
  rw [← roundedMantissa_shiftRight] at hhigh hlow ⊢
  generalize ExtendedMantissa.ofMantissaAndAccuracy mantissa .exact >>> k = first at hfirst hhigh hlow ⊢
  have hsecond := shiftToTargetExponent_rounded hhigh shift
  by_cases hcarry : first.roundedMantissa = 2 ^ 53
  · rw [if_pos hcarry] at hsecond
    have hsum : (shift + 1) * 2 ^ 52 + 2 ^ 52 = shift * 2 ^ 52 + first.roundedMantissa := by omega
    rw [roundWithAccuracy_eq hfirst hsecond, dif_neg (Nat.two_pow_pos 52).ne', ← hsum]
    exact pack_finite _ (.inr (Nat.le_refl _)) (by decide) _ rfl
  · rw [if_neg hcarry] at hsecond
    rw [roundWithAccuracy_eq hfirst hsecond]
    by_cases hzero : first.roundedMantissa = 0
    · obtain rfl : shift = 0 := hlow.resolve_right (by omega)
      rw [dif_pos hzero, hzero, Nat.zero_mul, Nat.zero_add, Nat.zero_min]
      cases negative <;> rfl
    · rw [dif_neg hzero]
      exact pack_finite _ hlow (by omega) _ rfl

/-! ## Products -/

theorem log2_mul_two_pow (h : n ≠ 0) (k : Nat) : (n * 2 ^ k).log2 = n.log2 + k := by
  induction k with
  | zero => rw [Nat.pow_zero, Nat.mul_one, Nat.add_zero]
  | succ k ih =>
    have hne : n * 2 ^ k ≠ 0 := Nat.mul_ne_zero h (Nat.two_pow_pos k).ne'
    rw [Nat.pow_succ', Nat.mul_left_comm, Nat.log2_two_mul hne, ih, Nat.add_assoc]

theorem log2_div_two_pow (n k : Nat) : (n / 2 ^ k).log2 = n.log2 - k := by
  have hhalf : ∀ n : Nat, (n / 2).log2 = n.log2 - 1 := fun n => by
    rw [Nat.log2_def n]
    split
    · rfl
    · next hlt =>
      rw [Nat.div_eq_of_lt (Nat.lt_of_not_le hlt), Nat.log2_zero]
  induction k with
  | zero => rw [Nat.pow_zero, Nat.div_one, Nat.sub_zero]
  | succ k ih => rw [Nat.pow_succ, ← Nat.div_div_eq_div_mul, hhalf, ih, Nat.sub_sub]

theorem nearestBits_product (hn : n ≠ 0) (place : Nat) (hshift : shift = n.log2 + place - 1126)
    (hk : place + k = shift + 1074) :
    nearestBits (n * 2 ^ place) (unitsPerOne * unitsPerOne) =
      min (shift * 2 ^ 52 + roundDiv n (2 ^ k)) infinityBits := by
  obtain ⟨j, hj, hone⟩ := unitsPerOne_eq_two_pow
  have hquotient : (n * 2 ^ place * unitsPerOne / (unitsPerOne * unitsPerOne)).log2 - 52 = shift := by
    rw [Nat.mul_div_mul_right _ _ unitsPerOne_pos, hone, log2_div_two_pow, log2_mul_two_pow hn]
    omega
  have hround : roundDiv (n * 2 ^ place * unitsPerOne) (unitsPerOne * unitsPerOne * 2 ^ shift) =
      roundDiv n (2 ^ k) := by
    have hsum : j + shift = k + place := by omega
    have hden : unitsPerOne * unitsPerOne * 2 ^ shift = 2 ^ k * 2 ^ place * unitsPerOne := by
      rw [Nat.mul_right_comm, hone, ← Nat.pow_add 2 j shift, hsum, Nat.pow_add]
    rw [hden, roundDiv_mul_mul unitsPerOne_pos, roundDiv_mul_mul (Nat.two_pow_pos place)]
  simp only [nearestBits, hquotient, Nat.pow_eq, hround]

theorem signOf_mul (negative negative' : Bool) :
    signOf negative * signOf negative' = signOf (negative != negative') := by
  cases negative <;> cases negative' <;> rfl

theorem pack_zero (negative : Bool) :
    UnpackedFloat.pack .binary64 (.zero (signOf negative)) = word negative 0 := by
  cases negative <;> rfl

theorem nearestBits_zero (hden : 0 < n) : nearestBits 0 n = 0 := nearestBits_eq_zero (by rwa [Nat.zero_mul])

theorem pack_mul_word (hm : m < infinityBits) (hm' : m' < infinityBits) (negative negative' : Bool) :
    UnpackedFloat.pack .binary64 (UnpackedFloat.mul .binary64 (UnpackedFloat.unpack .binary64 (word negative m))
      (UnpackedFloat.unpack .binary64 (word negative' m'))) =
    word (negative != negative')
      (nearestBits (unitsOfBits m * unitsOfBits m') (unitsPerOne * unitsPerOne)) := by
  have hden : 0 < unitsPerOne * unitsPerOne := Nat.mul_pos unitsPerOne_pos unitsPerOne_pos
  have hnone : unitsOfBits 0 = 0 := rfl
  by_cases hzero : m = 0
  · rw [hzero, hnone, Nat.zero_mul, nearestBits_zero hden, unpack_word_zero, ← pack_zero, ← signOf_mul]
    by_cases hzero' : m' = 0
    · rw [hzero', unpack_word_zero]
      rfl
    · obtain ⟨mantissa, exponent, hpos, -, -, -, hunpack⟩ := exists_unpack_word hm' hzero' negative'
      rw [hunpack]
      rfl
  · obtain ⟨mantissa, exponent, hpos, rfl, hlow, hhigh, hunpack⟩ := exists_unpack_word hm hzero negative
    rw [hunpack]
    by_cases hzero' : m' = 0
    · rw [hzero', hnone, Nat.mul_zero, nearestBits_zero hden, unpack_word_zero, ← pack_zero, ← signOf_mul]
      rfl
    · obtain ⟨mantissa', exponent', hpos', rfl, hlow', hhigh', hunpack'⟩ := exists_unpack_word hm' hzero' negative'
      have hproduct : 0 < mantissa * mantissa' := Nat.mul_pos hpos hpos'
      have hunits : unitsOfBits (exponent * 2 ^ 52 + mantissa) * unitsOfBits (exponent' * 2 ^ 52 + mantissa') =
          mantissa * mantissa' * 2 ^ (exponent + exponent') := by
        rw [unitsOfBits_significand hlow hhigh.le, unitsOfBits_significand hlow' hhigh'.le, Nat.mul_mul_mul_comm,
          ← Nat.pow_add]
      -- at least one of the two has all its bits, or both are at the bottom of the range
      have hplace : exponent + exponent' ≤ 1074 ∨ 52 ≤ (mantissa * mantissa').log2 := by
        refine or_iff_not_imp_left.mpr fun hlarge => (Nat.le_log2 hproduct.ne').mpr ?_
        rcases hlow with rfl | hlow
        · exact (hlow'.resolve_left (by omega)).trans (Nat.le_mul_of_pos_left _ hpos)
        · exact hlow.trans (Nat.le_mul_of_pos_right _ hpos')
      obtain ⟨shift, hshift⟩ : ∃ shift, shift = (mantissa * mantissa').log2 + (exponent + exponent') - 1126 :=
        ⟨_, rfl⟩
      obtain ⟨k, hk⟩ : ∃ k, exponent + exponent' + k = shift + 1074 :=
        ⟨shift + 1074 - (exponent + exponent'), by omega⟩
      rw [hunpack', UnpackedFloat.mul, signOf_mul, hunits, nearestBits_product hproduct.ne' _ hshift hk]
      exact pack_round hproduct _ (by omega) (by omega)

theorem ofModel_pack (u : UnpackedFloat) :
    Float.ofModel (.pack u) = .ofBits (.ofBitVec (UnpackedFloat.pack .binary64 u)) := by
  have hvalid : Format.binary64.Valid (UnpackedFloat.pack .binary64 u) := by simp
  have hpack := pack_unpack_of_valid hvalid
  simp only [Float.ofBits, Float.Model.ofBits, Float.Model.pack, hpack]

/-- **A product** of finite doubles is the double nearest to the product of their values. -/
theorem mul_of_classify (hx : classify x = .finite negative units) (hy : classify y = .finite negative' units') :
    x * y = ofQuotient (negative != negative') (units * units') (unitsPerOne * unitsPerOne) := by
  obtain ⟨m, hm, rfl, rfl⟩ := exists_word_of_classify hx
  obtain ⟨m', hm', rfl, rfl⟩ := exists_word_of_classify hy
  calc Float.ofBits (.ofBitVec (word negative m)) * Float.ofBits (.ofBitVec (word negative' m'))
      = .ofModel (.pack (UnpackedFloat.mul .binary64
          (Float.ofBits (.ofBitVec (word negative m))).toModel.unpack
          (Float.ofBits (.ofBitVec (word negative' m'))).toModel.unpack)) := rfl
    _ = .ofBits (.ofBitVec (word (negative != negative')
          (nearestBits (unitsOfBits m * unitsOfBits m') (unitsPerOne * unitsPerOne)))) := by
        rw [unpack_ofBits (valid_word hm.le negative), unpack_ofBits (valid_word hm'.le negative'), ofModel_pack,
          pack_mul_word hm hm']
    _ = ofQuotient (negative != negative') (unitsOfBits m * unitsOfBits m') (unitsPerOne * unitsPerOne) := rfl

/-! ## Sums -/

theorem nearestBits_sum (hn : n ≠ 0) (place : Nat) (hshift : shift = n.log2 + place - 52)
    (hk : place + k = shift) :
    nearestBits (n * 2 ^ place) unitsPerOne = min (shift * 2 ^ 52 + roundDiv n (2 ^ k)) infinityBits := by
  have hround : roundDiv (n * 2 ^ place) (2 ^ shift) = roundDiv n (2 ^ k) := by
    rw [← hk, Nat.add_comm place, Nat.pow_add, roundDiv_mul_mul (Nat.two_pow_pos place)]
  rw [nearestBits_units, log2_mul_two_pow hn, ← hshift, Nat.pow_eq, Nat.pow_eq, hround]

/-- A significand whose power is not above that of its first 53 bits is not shifted to the left. -/
theorem round_eq (s : Sign) (h : exponent ≤ max (mantissa.log2 + exponent - 52) (-1074)) :
    UnpackedFloat.round .binary64 s mantissa exponent =
      roundWithAccuracy .binary64 s mantissa exponent .exact := by
  have hamount : (exponent - max (mantissa.log2 + exponent - 52) (-1074)).toNat = 0 := by omega
  simp only [UnpackedFloat.round, decreaseExponent, targetExponent_eq, hamount, Nat.shiftLeft_zero, Nat.cast_zero,
    Int.sub_zero]

theorem normalize_pos (hpos : 0 < n) (exponent : Int) (s : Sign) :
    UnpackedFloat.normalize .binary64 n exponent s = UnpackedFloat.round .binary64 .positive n exponent := by
  have hcompare : compare (n : Int) 0 = .gt := Int.compare_eq_gt.mpr (by omega)
  simp only [UnpackedFloat.normalize, hcompare, Int.toNat_natCast]

theorem add_finite {mantissa mantissa' : Nat} (exponent exponent' : Nat) (hpos : 0 < mantissa)
    (hpos' : 0 < mantissa') :
    UnpackedFloat.add .binary64 (.finite .positive mantissa (exponent - 1074 : Int) hpos)
        (.finite .positive mantissa' (exponent' - 1074 : Int) hpos') =
      UnpackedFloat.round .binary64 .positive
        (mantissa * 2 ^ (exponent - exponent') + mantissa' * 2 ^ (exponent' - exponent))
        (min exponent exponent' - 1074 : Int) := by
  have hmin : min (exponent - 1074 : Int) (exponent' - 1074) = min (exponent : Int) exponent' - 1074 := by omega
  have hleft : ((exponent : Int) - 1074 - (min (exponent : Int) exponent' - 1074)).toNat = exponent - exponent' := by
    omega
  have hright : ((exponent' : Int) - 1074 - (min (exponent : Int) exponent' - 1074)).toNat = exponent' - exponent := by
    omega
  have hsum : 0 < mantissa * 2 ^ (exponent - exponent') + mantissa' * 2 ^ (exponent' - exponent) :=
    Nat.add_pos_left (Nat.mul_pos hpos (Nat.two_pow_pos _)) _
  have happly : ∀ n : Int, Sign.positive.apply n = n := fun _ => rfl
  rw [← normalize_pos hsum _ .positive]
  simp only [UnpackedFloat.add, decreaseExponent, hmin, hleft, hright, Nat.shiftLeft_eq, happly, Nat.cast_add,
    Nat.cast_min]

theorem pack_add_word (hm : m < infinityBits) (hm' : m' < infinityBits) :
    UnpackedFloat.pack .binary64 (UnpackedFloat.add .binary64 (UnpackedFloat.unpack .binary64 (word false m))
      (UnpackedFloat.unpack .binary64 (word false m'))) =
    word false (nearestBits (unitsOfBits m + unitsOfBits m') unitsPerOne) := by
  have hnone : unitsOfBits 0 = 0 := rfl
  have hself : ∀ {m}, m < infinityBits →
      UnpackedFloat.pack .binary64 (UnpackedFloat.unpack .binary64 (word false m)) = word false m :=
    fun hm => pack_unpack_of_valid (valid_word hm.le false)
  by_cases hzero : m = 0
  · rw [hzero, hnone, Nat.zero_add, nearestBits_unitsOfBits hm'.le, unpack_word_zero]
    refine Eq.trans ?_ (hself hm')
    by_cases hzero' : m' = 0
    · rw [hzero']
      rfl
    · obtain ⟨mantissa, exponent, hpos, -, -, -, hunpack⟩ := exists_unpack_word hm' hzero' false
      rw [hunpack]
      rfl
  · obtain ⟨mantissa, exponent, hpos, hbits, hlow, hhigh, hunpack⟩ := exists_unpack_word hm hzero false
    by_cases hzero' : m' = 0
    · rw [hzero', hnone, Nat.add_zero, nearestBits_unitsOfBits hm.le, unpack_word_zero]
      refine Eq.trans ?_ (hself hm)
      rw [hunpack]
      rfl
    · obtain ⟨mantissa', exponent', hpos', rfl, hlow', hhigh', hunpack'⟩ := exists_unpack_word hm' hzero' false
      subst hbits
      rw [hunpack, hunpack']
      generalize hsum : mantissa * 2 ^ (exponent - exponent') + mantissa' * 2 ^ (exponent' - exponent) = n
      have hn : 0 < n := hsum ▸ Nat.add_pos_left (Nat.mul_pos hpos (Nat.two_pow_pos _)) _
      have hunits : unitsOfBits (exponent * 2 ^ 52 + mantissa) + unitsOfBits (exponent' * 2 ^ 52 + mantissa') =
          n * 2 ^ min exponent exponent' := by
        have hleft : exponent = exponent - exponent' + min exponent exponent' := by omega
        have hright : exponent' = exponent' - exponent + min exponent exponent' := by omega
        rw [unitsOfBits_significand hlow hhigh.le, unitsOfBits_significand hlow' hhigh'.le, ← hsum, Nat.add_mul,
          Nat.mul_assoc, Nat.mul_assoc, ← Nat.pow_add, ← Nat.pow_add, ← hleft, ← hright]
      -- both have all their bits, or one of them is at the bottom of the range
      have hplace : min exponent exponent' = 0 ∨ 52 ≤ n.log2 := by
        refine or_iff_not_imp_left.mpr fun hne => (Nat.le_log2 hn.ne').mpr ?_
        have hfirst : 2 ^ 52 ≤ mantissa := hlow.resolve_left (by omega)
        rw [← hsum]
        exact (hfirst.trans (Nat.le_mul_of_pos_right _ (Nat.two_pow_pos _))).trans (Nat.le_add_right _ _)
      obtain ⟨shift, hshift⟩ : ∃ shift, shift = n.log2 + min exponent exponent' - 52 := ⟨_, rfl⟩
      obtain ⟨k, hk⟩ : ∃ k, min exponent exponent' + k = shift := ⟨shift - min exponent exponent', by omega⟩
      have hadd := add_finite exponent exponent' hpos hpos'
      rw [hsum, round_eq _ (by omega)] at hadd
      rw [hunits, nearestBits_sum hn.ne' _ hshift hk]
      exact (congrArg _ hadd).trans (pack_round hn false (by omega) (by omega))

/-- **A sum** of positive doubles is the double nearest to the sum of their values. -/
theorem add_of_classify (hx : classify x = .finite false units) (hy : classify y = .finite false units') :
    x + y = ofUnits false (units + units') := by
  obtain ⟨m, hm, rfl, rfl⟩ := exists_word_of_classify hx
  obtain ⟨m', hm', rfl, rfl⟩ := exists_word_of_classify hy
  calc Float.ofBits (.ofBitVec (word false m)) + Float.ofBits (.ofBitVec (word false m'))
      = .ofModel (.pack (UnpackedFloat.add .binary64
          (Float.ofBits (.ofBitVec (word false m))).toModel.unpack
          (Float.ofBits (.ofBitVec (word false m'))).toModel.unpack)) := rfl
    _ = .ofBits (.ofBitVec (word false (nearestBits (unitsOfBits m + unitsOfBits m') unitsPerOne))) := by
        rw [unpack_ofBits (valid_word hm.le false), unpack_ofBits (valid_word hm'.le false), ofModel_pack,
          pack_add_word hm hm']
    _ = ofUnits false (unitsOfBits m + unitsOfBits m') := rfl

/-! ## Signs -/

theorem neg_unpack_word (hm : m < infinityBits) :
    UnpackedFloat.neg (UnpackedFloat.unpack .binary64 (word false m)) =
      UnpackedFloat.unpack .binary64 (word true m) := by
  have hones := exponent_word_ne_ones hm false
  rw [exponent_word hm] at hones
  simp only [UnpackedFloat.unpack, exponent_word hm, mantissa_word hm, sign_word hm, if_neg hones]
  split
  · split <;> rfl
  · rfl

/-- **The negative** of a finite double has the other sign. -/
theorem neg_of_classify (hx : classify x = .finite true units) : -ofUnits false units = x := by
  obtain ⟨m, hm, rfl, rfl⟩ := exists_word_of_classify hx
  calc -ofUnits false (unitsOfBits m)
      = -Float.ofBits (.ofBitVec (word false m)) := by rw [ofUnits_unitsOfBits hm]
    _ = .ofModel (.pack (UnpackedFloat.neg (Float.ofBits (.ofBitVec (word false m))).toModel.unpack)) := rfl
    _ = .ofBits (.ofBitVec (word true m)) := by
        rw [unpack_ofBits (valid_word hm.le false), neg_unpack_word hm, ofModel_pack,
          pack_unpack_of_valid (valid_word hm.le true)]

end SciCalc.Double
