/-
Whole numbers among the doubles. A natural below `2^53` is a double, exactly (`classify_ofNat`), and one more than
it is the next (`ofNat_add_one`). What is left of a double without the part behind its point is a double again
(`floor_word`), and the naturals up to it are the same as those up to the double (`ofNat_le_floor`).
-/
import SciCalc.Double.Factorial
import SciCalc.Proofs.Double.Arithmetic
import SciCalc.Proofs.Double.Order

namespace SciCalc.Double

variable {x : Float} {negative : Bool} {units m n k j : Nat}

/-! ## Units in order -/

theorem exists_significand (m : Nat) :
    ∃ shift s, shift * 2 ^ 52 + s = m ∧ (shift = 0 ∨ 2 ^ 52 ≤ s) ∧ s < 2 ^ 53 :=
  ⟨m / 2 ^ 52 - 1, m - (m / 2 ^ 52 - 1) * 2 ^ 52, by omega, by omega, by omega⟩

theorem strictMono_unitsOfBits : StrictMono unitsOfBits := by
  refine strictMono_nat_of_lt_succ fun m => ?_
  obtain ⟨shift, s, rfl, hlow, hhigh⟩ := exists_significand m
  rw [unitsOfBits_significand hlow hhigh.le, Nat.add_assoc,
    unitsOfBits_significand (hlow.imp_right fun h => Nat.le_succ_of_le h) hhigh]
  exact Nat.mul_lt_mul_of_pos_right (Nat.lt_succ_self s) (Nat.two_pow_pos shift)

theorem infinity_eq_word : infinity = .ofBits (.ofBitVec (word false infinityBits)) := rfl

theorem unitsOfBits_nearestBits_mul_two_pow (hk : k < 2 ^ 53)
    (h : nearestBits (k * 2 ^ j) unitsPerOne < infinityBits) :
    unitsOfBits (nearestBits (k * 2 ^ j) unitsPerOne) = k * 2 ^ j := by
  obtain ⟨shift, hlow, hunits⟩ := exists_unitsOfBits_nearestBits unitsPerOne_pos h
  have hshift : shift ≤ j := by
    rcases hlow with rfl | hlow
    · exact Nat.zero_le j
    · have hle : 2 ^ 52 * 2 ^ shift ≤ k * 2 ^ j := by
        refine Nat.le_of_mul_le_mul_right ?_ unitsPerOne_pos
        rwa [Nat.mul_assoc, Nat.mul_comm (2 ^ shift)]
      have hlt : 2 ^ (52 + shift) < 2 ^ (53 + j) := by
        rw [Nat.pow_add, Nat.pow_add]
        exact hle.trans_lt (Nat.mul_lt_mul_of_pos_right hk (Nat.two_pow_pos j))
      have hexponent := (Nat.pow_lt_pow_iff_right (by decide)).mp hlt
      omega
  have hexact : k * 2 ^ j * unitsPerOne = k * 2 ^ (j - shift) * (unitsPerOne * 2 ^ shift) := by
    rw [Nat.mul_comm unitsPerOne, ← Nat.mul_assoc, Nat.mul_assoc k (2 ^ (j - shift)), ← Nat.pow_add,
      Nat.sub_add_cancel hshift]
  rw [hunits, hexact, roundDiv_mul (Nat.mul_pos unitsPerOne_pos (Nat.two_pow_pos shift)), Nat.mul_assoc,
    ← Nat.pow_add, Nat.sub_add_cancel hshift]

/-! ## Naturals -/

theorem ofNat_eq_word (n : Nat) : ofNat n = .ofBits (.ofBitVec (word false (nearestBits n 1))) := rfl

theorem nearestBits_le (num den : Nat) : nearestBits num den ≤ infinityBits := Nat.min_le_right _ _

theorem rank_ofNat (n : Nat) : rank (ofNat n) = nearestBits n 1 := rank_word (nearestBits_le n 1) false

theorem ofNat_ne_nan (n : Nat) : ofNat n ≠ Float.nan := ne_nan_word (nearestBits_le n 1) false

theorem ofNat_eq_ofUnits (n : Nat) : ofNat n = ofUnits false (n * unitsPerOne) :=
  ofQuotient_eq Nat.one_pos unitsPerOne_pos (Nat.mul_one _).symm

theorem unitsOfBits_nearestBits_natural (h : n < 2 ^ 53) :
    nearestBits n 1 < infinityBits ∧ unitsOfBits (nearestBits n 1) = n * unitsPerOne := by
  obtain ⟨j, -, hone⟩ := unitsPerOne_eq_two_pow
  have hfinite : nearestBits n 1 < infinityBits :=
    nearestBits_lt_infinityBits Nat.one_pos (k := 53) (by decide) (by omega)
  have hbits : nearestBits n 1 = nearestBits (n * 2 ^ j) unitsPerOne := by
    rw [← nearestBits_mul_mul unitsPerOne_pos, Nat.one_mul, ← hone]
  rw [hbits] at hfinite ⊢
  exact ⟨hfinite, (unitsOfBits_nearestBits_mul_two_pow h hfinite).trans (by rw [hone])⟩

theorem nearestBits_natural_pos (h : 0 < n) : 0 < nearestBits n 1 := by
  obtain ⟨-, hunits⟩ := unitsOfBits_nearestBits_natural (n := 1) (by decide)
  have hone : nearestBits 1 1 ≠ 0 := by
    intro hzero
    rw [hzero, Nat.one_mul] at hunits
    exact unitsPerOne_pos.ne hunits
  exact (Nat.pos_of_ne_zero hone).trans_le (nearestBits_mono Nat.one_pos h)

/-- **A natural** below `2^53` is a double. -/
theorem classify_ofNat (h : n < 2 ^ 53) : classify (ofNat n) = .finite false (n * unitsPerOne) := by
  obtain ⟨hfinite, hunits⟩ := unitsOfBits_nearestBits_natural h
  rw [ofNat_eq_word, classify_word hfinite, hunits]

theorem ofNat_add_one (h : n < 2 ^ 53) : ofNat n + ofNat 1 = ofNat (n + 1) := by
  rw [add_of_classify (classify_ofNat h) (classify_ofNat (by decide)), ← Nat.add_mul, ← ofNat_eq_ofUnits]

/-! ## Kinds -/

theorem classify_word_infinityBits (negative : Bool) :
    classify (.ofBits (.ofBitVec (word negative infinityBits))) = .infinite negative := by
  have hbits := toNat_toBits_word (Nat.le_refl infinityBits) negative
  have hlt : infinityBits < signBit := by decide
  simp only [classify, hbits]
  cases negative with
  | true =>
    have hmod : (infinityBits + signBit) % signBit = infinityBits := by rw [Nat.add_mod_right, Nat.mod_eq_of_lt hlt]
    simp only [if_true, hmod, Nat.lt_irrefl, if_false, Nat.le_add_left, decide_true]
  | false =>
    have hsign : ¬ signBit ≤ infinityBits := Nat.not_le_of_lt hlt
    simp only [Bool.false_eq_true, if_false, Nat.add_zero, Nat.mod_eq_of_lt hlt, Nat.lt_irrefl, if_true,
      decide_eq_false hsign]

/-- Infinity has the bits that `2^1024` would have. The exponent has a name, so that nothing computes the power. -/
theorem unitsOfBits_infinityBits :
    ∃ k, k = 1024 ∧ unitsOfBits infinityBits = 2 ^ k * unitsPerOne ∧ factorCount infinity = 2 ^ k := by
  obtain ⟨j, hj, hone⟩ := unitsPerOne_eq_two_pow
  obtain ⟨k, hk⟩ : ∃ k, k = 1024 := ⟨_, rfl⟩
  refine ⟨k, hk, ?_, ?_⟩
  · have hbits : infinityBits = 2046 * 2 ^ 52 + 2 ^ 52 := rfl
    have hsum : 52 + 2046 = k + j := by omega
    rw [hbits, unitsOfBits_significand (.inr (Nat.le_refl _)) (by decide), hone, ← Nat.pow_add, ← Nat.pow_add, hsum]
  · rw [infinity_eq_word, factorCount, classify_word_infinityBits, hk]
    rfl

theorem isInf_word (hm : m ≤ infinityBits) (negative : Bool) :
    (Float.ofBits (.ofBitVec (word negative m))).isInf = decide (m = infinityBits) := by
  have hinf : (Float.ofBits (.ofBitVec (word negative m))).isInf =
      (Float.ofBits (.ofBitVec (word negative m))).toModel.unpack.isInf := rfl
  rw [hinf, unpack_ofBits (valid_word hm negative)]
  rcases unpack_word hm negative with ⟨rfl, hu⟩ | ⟨rfl, hu⟩ | ⟨_, _, _, -, hlt, -, -, hu⟩
  · rw [hu]
    rfl
  · rw [hu, decide_eq_true rfl]
    rfl
  · rw [hu, decide_eq_false hlt.ne]
    rfl

theorem isFinite_word (hm : m ≤ infinityBits) (negative : Bool) :
    (Float.ofBits (.ofBitVec (word negative m))).isFinite = decide (m < infinityBits) := by
  have hfinite : (Float.ofBits (.ofBitVec (word negative m))).isFinite =
      (Float.ofBits (.ofBitVec (word negative m))).toModel.unpack.isFinite := rfl
  rw [hfinite, unpack_ofBits (valid_word hm negative)]
  rcases unpack_word hm negative with ⟨rfl, hu⟩ | ⟨rfl, hu⟩ | ⟨_, _, _, -, hlt, -, -, hu⟩
  · rw [hu]
    rfl
  · rw [hu, decide_eq_false (Nat.lt_irrefl _)]
    rfl
  · rw [hu, decide_eq_true hlt]
    rfl

theorem isFinite_iff : x.isFinite = true ↔ ∃ negative units, classify x = .finite negative units := by
  constructor
  · intro hfinite
    have hx : x ≠ Float.nan := by
      rintro rfl
      cases hfinite
    obtain ⟨negative, m, hm, rfl⟩ := exists_word hx
    rw [isFinite_word hm, decide_eq_true_iff] at hfinite
    exact ⟨negative, unitsOfBits m, classify_word hfinite negative⟩
  · rintro ⟨negative, units, hx⟩
    obtain ⟨m, hm, -, rfl⟩ := exists_word_of_classify hx
    rw [isFinite_word hm.le, decide_eq_true hm]

theorem isNaN_iff_eq_nan : x.isNaN = true ↔ x = Float.nan := by
  rw [Float.isNaN_eq_decide_eq_nan, decide_eq_true_iff]

/-! ## The whole part -/

/-- The greatest whole number that is not above a double. -/
def floor (x : Float) : Float :=
  match classify x with
  | .finite false units => ofUnits false (units / unitsPerOne * unitsPerOne)
  | .finite true units => ofUnits true ((units + (unitsPerOne - 1)) / unitsPerOne * unitsPerOne)
  | _ => x

/-- A double of `2^53` and more has nothing behind its point. -/
theorem dvd_unitsOfBits_or_lt (m : Nat) : unitsPerOne ∣ unitsOfBits m ∨ unitsOfBits m / unitsPerOne < 2 ^ 53 := by
  obtain ⟨j, -, hone⟩ := unitsPerOne_eq_two_pow
  obtain ⟨shift, s, rfl, hlow, hhigh⟩ := exists_significand m
  rw [unitsOfBits_significand hlow hhigh.le, hone]
  rcases Nat.le_total j shift with hle | hle
  · exact .inl ((Nat.pow_dvd_pow 2 hle).mul_left s)
  · refine .inr ((Nat.div_lt_iff_lt_mul (Nat.two_pow_pos j)).mpr ?_)
    exact Nat.mul_lt_mul_of_lt_of_le hhigh (Nat.pow_le_pow_right (by decide) hle) (Nat.two_pow_pos j)

theorem exists_bits_whole (m : Nat) : ∃ m' ≤ m, unitsOfBits m' = unitsOfBits m / unitsPerOne * unitsPerOne := by
  rcases dvd_unitsOfBits_or_lt m with hdvd | hlt
  · exact ⟨m, Nat.le_refl m, (Nat.div_mul_cancel hdvd).symm⟩
  · obtain ⟨-, hunits⟩ := unitsOfBits_nearestBits_natural hlt
    refine ⟨_, strictMono_unitsOfBits.le_iff_le.mp ?_, hunits⟩
    rw [hunits]
    exact Nat.div_mul_le_self _ _

theorem floor_word (hm : m ≤ infinityBits) :
    ∃ m' ≤ m, unitsOfBits m' = unitsOfBits m / unitsPerOne * unitsPerOne ∧
      floor (.ofBits (.ofBitVec (word false m))) = .ofBits (.ofBitVec (word false m')) := by
  rcases hm.lt_or_eq with hlt | rfl
  · obtain ⟨m', hle, hunits⟩ := exists_bits_whole m
    refine ⟨m', hle, hunits, ?_⟩
    simp only [floor, classify_word hlt]
    rw [← hunits, ofUnits_unitsOfBits (hle.trans_lt hlt)]
  · obtain ⟨k, -, hunits, -⟩ := unitsOfBits_infinityBits
    refine ⟨infinityBits, Nat.le_refl _, ?_, ?_⟩
    · rw [hunits, Nat.mul_div_cancel _ unitsPerOne_pos]
    · rw [floor, classify_word_infinityBits]

theorem factorCount_word (hm : m ≤ infinityBits) :
    factorCount (.ofBits (.ofBitVec (word false m))) = unitsOfBits m / unitsPerOne := by
  rcases hm.lt_or_eq with hlt | rfl
  · rw [factorCount, classify_word hlt]
  · obtain ⟨k, -, hunits, hcount⟩ := unitsOfBits_infinityBits
    rw [← infinity_eq_word, hcount, hunits, Nat.mul_div_cancel _ unitsPerOne_pos]

theorem factorCount_word_true (hm : m ≤ infinityBits) : factorCount (.ofBits (.ofBitVec (word true m))) = 0 := by
  rcases hm.lt_or_eq with hlt | rfl
  · rw [factorCount, classify_word hlt]
  · rw [factorCount, classify_word_infinityBits]

theorem factorCount_nan : factorCount Float.nan = 0 := by rw [factorCount, classify_nan]

/-- **The naturals up to a double** are as many as its factors. -/
theorem ofNat_le_iff (hpos : 0 < n) (hn : n < 2 ^ 53) : ofNat n ≤ x ↔ n ≤ factorCount x := by
  obtain ⟨-, hunits⟩ := unitsOfBits_nearestBits_natural hn
  have hrank : 0 < nearestBits n 1 := nearestBits_natural_pos hpos
  rw [le_iff, rank_ofNat]
  by_cases hx : x = Float.nan
  · rw [hx, factorCount_nan]
    exact iff_of_false (fun h => h.2.1 rfl) (Nat.not_le_of_lt hpos)
  · rw [and_iff_right (ofNat_ne_nan n), and_iff_right hx]
    obtain ⟨negative, m, hm, rfl⟩ := exists_word hx
    rw [rank_word hm, apply_signOf]
    cases negative with
    | true =>
      rw [factorCount_word_true hm, if_pos rfl]
      omega
    | false =>
      rw [factorCount_word hm, if_neg Bool.false_ne_true, Nat.cast_le, ← strictMono_unitsOfBits.le_iff_le, hunits,
        Nat.le_div_iff_mul_le unitsPerOne_pos]

theorem floor_word_true (hm : m ≤ infinityBits) :
    ∃ m' ≤ infinityBits, floor (.ofBits (.ofBitVec (word true m))) = .ofBits (.ofBitVec (word true m')) := by
  rcases hm.lt_or_eq with hlt | rfl
  · refine ⟨_, nearestBits_le ((unitsOfBits m + (unitsPerOne - 1)) / unitsPerOne * unitsPerOne) unitsPerOne, ?_⟩
    rw [floor, classify_word hlt]
    rfl
  · refine ⟨infinityBits, Nat.le_refl _, ?_⟩
    rw [floor, classify_word_infinityBits]

theorem factorCount_floor (x : Float) : factorCount (floor x) = factorCount x := by
  by_cases hx : x = Float.nan
  · rw [hx, floor, classify_nan]
  · obtain ⟨negative, m, hm, rfl⟩ := exists_word hx
    cases negative with
    | false =>
      obtain ⟨m', hle, hunits, hfloor⟩ := floor_word hm
      rw [hfloor, factorCount_word (hle.trans hm), factorCount_word hm, hunits, Nat.mul_div_cancel _ unitsPerOne_pos]
    | true =>
      obtain ⟨m', hm', hfloor⟩ := floor_word_true hm
      rw [hfloor, factorCount_word_true hm', factorCount_word_true hm]

/-- **The naturals up to the whole part** of a double are those up to the double. -/
theorem ofNat_le_floor (hpos : 0 < n) (hn : n < 2 ^ 53) : ofNat n ≤ floor x ↔ ofNat n ≤ x := by
  rw [ofNat_le_iff hpos hn, ofNat_le_iff hpos hn, factorCount_floor]

/-! ## From zero up -/

theorem rank_zero : rank (ofNat 0) = 0 := by rw [rank_ofNat, nearestBits_zero Nat.one_pos, Nat.cast_zero]

/-- **A double that is not below zero** has no sign, or is the negative zero. -/
theorem zero_le_iff :
    ofNat 0 ≤ x ↔
      (∃ m ≤ infinityBits, x = .ofBits (.ofBitVec (word false m))) ∨ x = .ofBits (.ofBitVec (word true 0)) := by
  rw [le_iff, rank_zero, and_iff_right (ofNat_ne_nan 0)]
  refine ⟨fun ⟨hx, hrank⟩ => ?_, ?_⟩
  · obtain ⟨negative, m, hm, rfl⟩ := exists_word hx
    cases negative with
    | false => exact .inl ⟨m, hm, rfl⟩
    | true =>
      rw [rank_word hm, apply_signOf, if_pos rfl] at hrank
      obtain rfl : m = 0 := by omega
      exact .inr rfl
  · rintro (⟨m, hm, rfl⟩ | rfl)
    · refine ⟨ne_nan_word hm false, ?_⟩
      rw [rank_word hm]
      exact Int.natCast_nonneg m
    · refine ⟨ne_nan_word (Nat.zero_le _) true, ?_⟩
      rw [rank_word (Nat.zero_le _)]
      exact Int.le_refl 0

theorem not_lt_zero_iff : ¬ x < ofNat 0 ↔ x = Float.nan ∨ ofNat 0 ≤ x := by
  rw [lt_iff, le_iff, rank_zero, and_iff_right (ofNat_ne_nan 0), and_iff_right (ofNat_ne_nan 0)]
  by_cases hx : x = Float.nan
  · exact iff_of_true (fun h => h.1 hx) (.inl hx)
  · rw [and_iff_right hx, and_iff_right hx, or_iff_right hx, Int.not_lt]

theorem floor_negativeZero :
    floor (.ofBits (.ofBitVec (word true 0))) = .ofBits (.ofBitVec (word true 0)) := by
  have hzero : 0 < infinityBits := by decide
  have hwhole : (unitsOfBits 0 + (unitsPerOne - 1)) / unitsPerOne * unitsPerOne = unitsOfBits 0 := by
    have hnone : unitsOfBits 0 = 0 := rfl
    have hpos := unitsPerOne_pos
    rw [hnone, Nat.zero_add, Nat.div_eq_of_lt (by omega), Nat.zero_mul]
  simp only [floor, classify_word hzero, hwhole]
  exact ofUnits_unitsOfBits hzero true

theorem zero_le_floor (h : ofNat 0 ≤ x) : ofNat 0 ≤ floor x := by
  rcases zero_le_iff.mp h with ⟨m, hm, rfl⟩ | rfl
  · obtain ⟨m', hle, -, hfloor⟩ := floor_word hm
    exact zero_le_iff.mpr (.inl ⟨m', hle.trans hm, hfloor⟩)
  · rwa [floor_negativeZero]

/-- **The whole part is at most a natural** if no more naturals than that are up to it. -/
theorem floor_le_ofNat (h : ofNat 0 ≤ x) (hn : n < 2 ^ 53) : floor x ≤ ofNat n ↔ factorCount x ≤ n := by
  obtain ⟨-, hunits⟩ := unitsOfBits_nearestBits_natural hn
  rw [le_iff, and_iff_right (le_iff.mp (zero_le_floor h)).2.1, and_iff_right (ofNat_ne_nan n), rank_ofNat]
  rcases zero_le_iff.mp h with ⟨m, hm, rfl⟩ | rfl
  · obtain ⟨m', hle, hwhole, hfloor⟩ := floor_word hm
    have hrank : rank (floor (.ofBits (.ofBitVec (word false m)))) = m' := by
      rw [hfloor]
      exact rank_word (hle.trans hm) false
    rw [hrank, Nat.cast_le, ← strictMono_unitsOfBits.le_iff_le, hunits, hwhole, factorCount_word hm]
    exact Nat.mul_le_mul_right_iff unitsPerOne_pos
  · rw [floor_negativeZero, factorCount_word_true (Nat.zero_le _), rank_word (Nat.zero_le _)]
    exact iff_of_true (Int.natCast_nonneg _) (Nat.zero_le n)

theorem floor_beq_ofNat (h : ofNat 0 ≤ x) (hx : x.isFinite = true) : (floor x == ofNat (factorCount x)) = true := by
  rcases zero_le_iff.mp h with ⟨m, hm, rfl⟩ | rfl
  · obtain ⟨m', hle, hwhole, hfloor⟩ := floor_word hm
    rw [isFinite_word hm, decide_eq_true_iff] at hx
    rw [hfloor, factorCount_word hm, ofNat_eq_ofUnits, ← hwhole, ofUnits_unitsOfBits (hle.trans_lt hx)]
    exact beq_self_of_classify (classify_word (hle.trans_lt hx) false)
  · have hzero : ofNat 0 = .ofBits (.ofBitVec (word false 0)) := ofNat_zero
    rw [floor_negativeZero, factorCount_word_true (Nat.zero_le _), hzero]
    rfl

theorem factorCount_mono {y : Float} (h : ofNat 0 ≤ x) (hle : x ≤ y) : factorCount x ≤ factorCount y := by
  obtain ⟨-, hy, hrank⟩ := le_iff.mp hle
  obtain ⟨negative, m', hm', rfl⟩ := exists_word hy
  rcases zero_le_iff.mp h with ⟨m, hm, rfl⟩ | rfl
  · rw [rank_word hm, rank_word hm', apply_signOf, apply_signOf, if_neg Bool.false_ne_true] at hrank
    cases negative with
    | false =>
      rw [if_neg Bool.false_ne_true, Nat.cast_le] at hrank
      rw [factorCount_word hm, factorCount_word hm']
      exact Nat.div_le_div_right (strictMono_unitsOfBits.monotone hrank)
    | true =>
      rw [if_pos rfl] at hrank
      obtain rfl : m = 0 := by omega
      have hnone : unitsOfBits 0 = 0 := rfl
      rw [factorCount_word hm, hnone, Nat.zero_div]
      exact Nat.zero_le _
  · rw [factorCount_word_true (Nat.zero_le _)]
    exact Nat.zero_le _

end SciCalc.Double
