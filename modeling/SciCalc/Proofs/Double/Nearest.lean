/-
The double nearest to a quotient is as near to it as any other (`nearestBits_nearest`). It depends on the
quotient alone, not on how that is written (`nearestBits_mul_mul`), and a double is the nearest one to its own
value (`nearestBits_unitsOfBits`). Quotients far beyond the range of doubles are infinite or nothing.

Distances are between whole numbers: of the quotient `num / den` and a double of `units` it is that of
`num * unitsPerOne` and `units * den`, in parts of a unit.
-/
import Mathlib.Algebra.Group.Nat.Defs
import Mathlib.Data.Nat.Dist
import SciCalc.Double.Basic

namespace SciCalc

variable {num den c : Nat}

/-! ## Rounding -/

theorem roundDiv_mul_mul (hc : 0 < c) : roundDiv (num * c) (den * c) = roundDiv num den := by
  have hlt : ∀ a b : Nat, a * c < b * c ↔ a < b := fun a b => Nat.mul_lt_mul_right hc
  simp only [roundDiv, Nat.mul_div_mul_right _ _ hc, Nat.mul_mod_mul_right, ← Nat.mul_assoc, hlt]

theorem div_le_roundDiv : num / den ≤ roundDiv num den := by
  simp only [roundDiv]
  split
  · exact Nat.le_refl _
  · split <;> omega

theorem roundDiv_eq_zero (h : 2 * num < den) : roundDiv num den = 0 := by
  have hlt : num < den := by omega
  simp only [roundDiv, Nat.div_eq_of_lt hlt, Nat.mod_eq_of_lt hlt, if_pos h]

theorem mul_add_le_of_lt {k m : Nat} (h : k < m) (den : Nat) : k * den + den ≤ m * den := by
  have hle := Nat.mul_le_mul_right den (Nat.succ_le_of_lt h)
  rwa [Nat.succ_mul] at hle

/-- **A quotient is rounded to a natural as near to it as any other.** -/
theorem roundDiv_nearest (num : Nat) (hden : 0 < den) (k : Nat) :
    Nat.dist num (roundDiv num den * den) ≤ Nat.dist num (k * den) := by
  obtain ⟨hbelow, habove⟩ := @roundDiv_near num den hden
  unfold Nat.dist
  rcases Nat.lt_trichotomy k (roundDiv num den) with hlt | rfl | hgt
  · have hle := mul_add_le_of_lt hlt den
    omega
  · exact Nat.le_refl _
  · have hle := mul_add_le_of_lt hgt den
    omega

theorem roundDiv_eq_of_near {q : Nat} (h : 2 * Nat.dist num (q * den) < den) : roundDiv num den = q := by
  obtain ⟨hbelow, habove⟩ := @roundDiv_near num den (by omega)
  unfold Nat.dist at h
  rcases Nat.lt_trichotomy q (roundDiv num den) with hlt | rfl | hgt
  · have hle := mul_add_le_of_lt hlt den
    omega
  · rfl
  · have hle := mul_add_le_of_lt hgt den
    omega

theorem roundDiv_le {bound : Nat} (hden : 0 < den) (h : num ≤ bound * den) : roundDiv num den ≤ bound := by
  by_contra hlt
  have hle := mul_add_le_of_lt (Nat.lt_of_not_le hlt) den
  have hnear := (@roundDiv_near num den hden).1
  omega

namespace Double

/-- The exponent has a name, so that nothing computes the power. -/
theorem unitsPerOne_eq_two_pow : ∃ k, k = 1074 ∧ unitsPerOne = 2 ^ k := ⟨1074, rfl, rfl⟩

theorem unitsPerOne_pos : 0 < unitsPerOne := by
  obtain ⟨k, -, hk⟩ := unitsPerOne_eq_two_pow
  rw [hk]
  exact Nat.two_pow_pos k

/-! ## Quotients -/

/-- **Only the quotient counts** for the nearest double. -/
theorem nearestBits_mul_mul (hc : 0 < c) : nearestBits (num * c) (den * c) = nearestBits num den := by
  have hunits : num * c * unitsPerOne = num * unitsPerOne * c := Nat.mul_right_comm _ _ _
  have hden : ∀ shift, den * c * Nat.pow 2 shift = den * Nat.pow 2 shift * c := fun shift =>
    Nat.mul_right_comm _ _ _
  simp only [nearestBits, hunits, hden, Nat.mul_div_mul_right _ _ hc, roundDiv_mul_mul hc]

theorem nearestBits_eq_zero (h : 2 * (num * unitsPerOne) < den) : nearestBits num den = 0 := by
  have hlt : num * unitsPerOne < den := by omega
  have hshift : (num * unitsPerOne / den).log2 - 52 = 0 := by
    rw [Nat.div_eq_of_lt hlt]
    rfl
  have hround : roundDiv (num * unitsPerOne) (den * Nat.pow 2 0) = 0 :=
    roundDiv_eq_zero (by simpa using h)
  simp only [nearestBits, hshift, hround, Nat.zero_mul, Nat.zero_add, Nat.zero_min]

theorem nearestBits_eq_infinityBits {k : Nat} (hden : 0 < den) (hk : 1024 ≤ k)
    (h : den * 2 ^ k ≤ num) : nearestBits num den = infinityBits := by
  generalize hunits : num * unitsPerOne / den = units
  obtain ⟨j, hj, hone⟩ := unitsPerOne_eq_two_pow
  have hle : 2 ^ (k + j) ≤ units := by
    rw [← hunits, Nat.le_div_iff_mul_le hden]
    calc 2 ^ (k + j) * den = den * 2 ^ k * unitsPerOne := by
          rw [hone, Nat.mul_assoc, ← Nat.pow_add, Nat.mul_comm]
      _ ≤ num * unitsPerOne := Nat.mul_le_mul_right _ h
  have hne : units ≠ 0 := Nat.ne_of_gt (Nat.lt_of_lt_of_le (Nat.two_pow_pos _) hle)
  have hlog : k + j ≤ units.log2 := (Nat.le_log2 hne).mpr hle
  -- the significand has its 53 bits, and with them the sum is beyond all finite doubles
  have hround : 2 ^ 52 ≤ roundDiv (num * unitsPerOne) (den * Nat.pow 2 (units.log2 - 52)) := by
    refine Nat.le_trans ?_ div_le_roundDiv
    rw [← Nat.div_div_eq_div_mul, hunits, Nat.pow_eq, Nat.le_div_iff_mul_le (Nat.two_pow_pos _),
      ← Nat.pow_add, Nat.add_sub_cancel' (by omega)]
    exact Nat.log2_self_le hne
  simp only [nearestBits, hunits]
  refine Nat.min_eq_right ?_
  simp only [infinityBits, Nat.pow_eq] at hround ⊢
  omega

theorem ofQuotient_of_bits {bits : Nat} (h : nearestBits num den = bits) :
    ofQuotient false num den = .ofBits (.ofNat bits) := by
  rw [ofQuotient, h]
  rfl

theorem ofNat_zero : ofNat 0 = .ofBits (.ofNat 0) := ofQuotient_of_bits (nearestBits_eq_zero (by simp))

theorem ofQuotient_eq {num' den' : Nat} {negative : Bool} (hden : 0 < den) (hden' : 0 < den')
    (h : num * den' = num' * den) : ofQuotient negative num den = ofQuotient negative num' den' := by
  have hbits : nearestBits num den = nearestBits num' den' := by
    rw [← nearestBits_mul_mul hden', h, Nat.mul_comm den den', nearestBits_mul_mul hden]
  rw [ofQuotient, ofQuotient, hbits]

/-! ## Doubles -/

theorem nearestBits_units (units : Nat) :
    nearestBits units unitsPerOne =
      min ((units.log2 - 52) * Nat.pow 2 52 + roundDiv units (Nat.pow 2 (units.log2 - 52)))
        infinityBits := by
  have hden : ∀ shift, unitsPerOne * Nat.pow 2 shift = Nat.pow 2 shift * unitsPerOne := fun shift =>
    Nat.mul_comm _ _
  simp only [nearestBits, Nat.mul_div_cancel _ unitsPerOne_pos, hden, roundDiv_mul_mul unitsPerOne_pos]

/-- The steps of the significand below a double, and then its place among those of its size. -/
theorem round_unitsOfBits (bits : Nat) :
    ((unitsOfBits bits).log2 - 52) * Nat.pow 2 52 +
      roundDiv (unitsOfBits bits) (Nat.pow 2 ((unitsOfBits bits).log2 - 52)) = bits := by
  have hfraction : bits % 2 ^ 52 < 2 ^ 52 := Nat.mod_lt _ (by decide)
  have hbits : bits / 2 ^ 52 * 2 ^ 52 + bits % 2 ^ 52 = bits := Nat.div_add_mod' bits (2 ^ 52)
  simp only [unitsOfBits, Nat.pow_eq]
  by_cases hfield : bits / 2 ^ 52 = 0
  · have hlog : (bits % 2 ^ 52).log2 - 52 = 0 := by
      by_cases hzero : bits % 2 ^ 52 = 0
      · rw [hzero]
        rfl
      · have hlt := (Nat.log2_lt hzero).mpr hfraction
        omega
    have hround : roundDiv (bits % 2 ^ 52) 1 = bits % 2 ^ 52 := by
      rw [roundDiv, Nat.mod_one, Nat.div_one, if_pos (by decide)]
    rw [if_pos hfield, hlog, Nat.pow_zero, hround, ← hfield]
    exact hbits
  · obtain ⟨shift, hshift⟩ := Nat.exists_eq_succ_of_ne_zero hfield
    have hpos : 0 < 2 ^ shift := Nat.two_pow_pos _
    have hne : (2 ^ 52 + bits % 2 ^ 52) * 2 ^ shift ≠ 0 := Nat.ne_of_gt (Nat.mul_pos (by omega) hpos)
    have hlog : ((2 ^ 52 + bits % 2 ^ 52) * 2 ^ shift).log2 = 52 + shift := by
      refine (Nat.log2_eq_iff hne).mpr ⟨?_, ?_⟩
      · rw [Nat.pow_add]
        exact Nat.mul_le_mul_right _ (by omega)
      · rw [Nat.add_right_comm, Nat.pow_add]
        exact Nat.mul_lt_mul_of_pos_right (by omega) hpos
    have hround : roundDiv ((2 ^ 52 + bits % 2 ^ 52) * 2 ^ shift) (2 ^ shift) = 2 ^ 52 + bits % 2 ^ 52 :=
      roundDiv_mul hpos
    rw [if_neg hfield, hshift, Nat.succ_sub_one, hlog, Nat.add_sub_cancel_left, hround, ← Nat.add_assoc,
      ← Nat.succ_mul, ← hshift]
    exact hbits

/-- **A double is nearest to its own value.** -/
theorem nearestBits_unitsOfBits {bits : Nat} (h : bits ≤ infinityBits) :
    nearestBits (unitsOfBits bits) unitsPerOne = bits := by
  rw [nearestBits_units, round_unitsOfBits, Nat.min_eq_left h]

/-! ## Nearest of all -/

/-- The units of a significand at a place of it. Up to `2^53` it may be, and then the next place begins. -/
theorem unitsOfBits_significand {shift m : Nat} (hlow : shift = 0 ∨ 2 ^ 52 ≤ m) (hhigh : m ≤ 2 ^ 53) :
    unitsOfBits (shift * 2 ^ 52 + m) = m * 2 ^ shift := by
  simp only [unitsOfBits, Nat.pow_eq]
  by_cases hcarry : m = 2 ^ 53
  · have hfield : (shift * 2 ^ 52 + m) / 2 ^ 52 = shift + 2 := by omega
    have hfraction : (shift * 2 ^ 52 + m) % 2 ^ 52 = 0 := by omega
    rw [hfield, hfraction, if_neg (by omega), hcarry, Nat.add_zero, ← Nat.pow_add, ← Nat.pow_add]
    congr 1
    omega
  · by_cases hnormal : 2 ^ 52 ≤ m
    · have hfield : (shift * 2 ^ 52 + m) / 2 ^ 52 = shift + 1 := by omega
      have hfraction : (shift * 2 ^ 52 + m) % 2 ^ 52 = m - 2 ^ 52 := by omega
      rw [hfield, hfraction, if_neg (by omega), Nat.add_sub_cancel' hnormal, Nat.add_sub_cancel]
    · obtain rfl : shift = 0 := hlow.resolve_right hnormal
      have hfield : (0 * 2 ^ 52 + m) / 2 ^ 52 = 0 := by omega
      have hfraction : (0 * 2 ^ 52 + m) % 2 ^ 52 = m := by omega
      rw [hfield, hfraction, if_pos rfl, Nat.pow_zero, Nat.mul_one]

theorem le_significand (num : Nat) (hden : 0 < den) :
    num * unitsPerOne ≤ 2 ^ 53 * (den * 2 ^ ((num * unitsPerOne / den).log2 - 52)) := by
  generalize hunits : num * unitsPerOne / den = units
  have hlog : units + 1 ≤ 2 ^ (53 + (units.log2 - 52)) :=
    Nat.le_trans Nat.lt_log2_self (Nat.pow_le_pow_right (by decide) (by omega))
  calc num * unitsPerOne ≤ den * (units + 1) := by
        rw [← hunits]
        exact Nat.le_of_lt (Nat.lt_mul_div_succ _ hden)
    _ ≤ den * 2 ^ (53 + (units.log2 - 52)) := Nat.mul_le_mul_left _ hlog
    _ = 2 ^ 53 * (den * 2 ^ (units.log2 - 52)) := by rw [Nat.pow_add, Nat.mul_left_comm]

theorem significand_le (num den : Nat) :
    let shift := (num * unitsPerOne / den).log2 - 52
    shift = 0 ∨ 2 ^ 52 * (den * 2 ^ shift) ≤ num * unitsPerOne := by
  intro shift
  obtain ⟨units, hunits⟩ : ∃ units, num * unitsPerOne / den = units := ⟨_, rfl⟩
  have hshift : shift = units.log2 - 52 := by rw [← hunits]
  refine or_iff_not_imp_left.mpr fun hne => ?_
  have hlog : units.log2 = 52 + shift := by omega
  have hzero : units ≠ 0 := by
    rintro rfl
    rw [Nat.log2_zero] at hlog
    omega
  calc 2 ^ 52 * (den * 2 ^ shift) = 2 ^ units.log2 * den := by
        rw [hlog, Nat.pow_add, Nat.mul_assoc, Nat.mul_comm den]
    _ ≤ units * den := Nat.mul_le_mul_right _ (Nat.log2_self_le hzero)
    _ ≤ num * unitsPerOne := by
        rw [← hunits]
        exact Nat.div_mul_le_self _ _

theorem roundDiv_significand (num : Nat) (hden : 0 < den) :
    let shift := (num * unitsPerOne / den).log2 - 52
    let significand := roundDiv (num * unitsPerOne) (den * 2 ^ shift)
    (shift = 0 ∨ 2 ^ 52 ≤ significand) ∧ significand ≤ 2 ^ 53 := by
  intro shift significand
  have hpos : 0 < den * 2 ^ shift := Nat.mul_pos hden (Nat.two_pow_pos _)
  refine ⟨(significand_le num den).imp_right fun hle => ?_, roundDiv_le hpos (le_significand num hden)⟩
  exact Nat.le_trans ((Nat.le_div_iff_mul_le hpos).mpr hle) div_le_roundDiv

/-- The steps between doubles around a quotient. -/
theorem exists_unitsOfBits_nearestBits (hden : 0 < den) (h : nearestBits num den < infinityBits) :
    ∃ shift, (shift = 0 ∨ 2 ^ 52 * (den * 2 ^ shift) ≤ num * unitsPerOne) ∧
      unitsOfBits (nearestBits num den) =
        roundDiv (num * unitsPerOne) (den * 2 ^ shift) * 2 ^ shift := by
  have hbits : nearestBits num den = ((num * unitsPerOne / den).log2 - 52) * 2 ^ 52 +
      roundDiv (num * unitsPerOne) (den * 2 ^ ((num * unitsPerOne / den).log2 - 52)) := by
    simp only [nearestBits, Nat.pow_eq] at h ⊢
    omega
  obtain ⟨hlow, hhigh⟩ := roundDiv_significand num hden
  refine ⟨(num * unitsPerOne / den).log2 - 52, significand_le num den, ?_⟩
  rw [hbits]
  exact unitsOfBits_significand hlow hhigh

/-- A double is a multiple of such a step, or it is smaller than all that are that far apart. -/
theorem unitsOfBits_grid (bits shift : Nat) :
    (∃ k, unitsOfBits bits = k * 2 ^ shift) ∨ (shift ≠ 0 ∧ unitsOfBits bits < 2 ^ 52 * 2 ^ shift) := by
  have hfraction : bits % 2 ^ 52 < 2 ^ 52 := Nat.mod_lt _ (by decide)
  simp only [unitsOfBits, Nat.pow_eq]
  by_cases hfield : bits / 2 ^ 52 = 0
  · rw [if_pos hfield]
    cases shift with
    | zero => exact .inl ⟨bits % 2 ^ 52, by simp⟩
    | succ shift =>
      refine .inr ⟨Nat.succ_ne_zero _, Nat.lt_of_lt_of_le hfraction ?_⟩
      exact Nat.le_mul_of_pos_right _ (Nat.two_pow_pos _)
  · rw [if_neg hfield]
    obtain ⟨place, hplace⟩ := Nat.exists_eq_succ_of_ne_zero hfield
    rw [hplace, Nat.succ_sub_one]
    rcases Nat.lt_or_ge place shift with hlt | hge
    · refine .inr ⟨by omega, ?_⟩
      calc (2 ^ 52 + bits % 2 ^ 52) * 2 ^ place < 2 ^ 53 * 2 ^ place :=
            Nat.mul_lt_mul_of_pos_right (by omega) (Nat.two_pow_pos _)
        _ = 2 ^ 52 * 2 ^ (place + 1) := by
            rw [← Nat.pow_add, ← Nat.pow_add, Nat.add_comm place 1, ← Nat.add_assoc]
        _ ≤ 2 ^ 52 * 2 ^ shift := Nat.mul_le_mul_left _ (Nat.pow_le_pow_right (by decide) hlt)
    · refine .inl ⟨(2 ^ 52 + bits % 2 ^ 52) * 2 ^ (place - shift), ?_⟩
      rw [Nat.mul_assoc, ← Nat.pow_add, Nat.sub_add_cancel hge]

/-- **The nearest double** is as near to the quotient as any other. -/
theorem nearestBits_nearest (hden : 0 < den) (h : nearestBits num den < infinityBits) (bits : Nat) :
    Nat.dist (num * unitsPerOne) (unitsOfBits (nearestBits num den) * den) ≤
      Nat.dist (num * unitsPerOne) (unitsOfBits bits * den) := by
  obtain ⟨shift, hshift, hunits⟩ := exists_unitsOfBits_nearestBits hden h
  have hstep : ∀ k, k * 2 ^ shift * den = k * (den * 2 ^ shift) := fun k => by
    rw [Nat.mul_assoc, Nat.mul_comm (2 ^ shift)]
  have hpos : 0 < den * 2 ^ shift := Nat.mul_pos hden (Nat.two_pow_pos _)
  rw [hunits, hstep]
  rcases unitsOfBits_grid bits shift with ⟨k, hk⟩ | ⟨hne, hlt⟩
  · rw [hk, hstep]
    exact roundDiv_nearest _ hpos k
  · -- between the two there is the first double of these steps
    have hfirst := roundDiv_nearest (num * unitsPerOne) hpos (2 ^ 52)
    have hle := hshift.resolve_left hne
    have hbelow : unitsOfBits bits * den < 2 ^ 52 * (den * 2 ^ shift) := by
      rw [← hstep]
      exact Nat.mul_lt_mul_of_pos_right hlt hden
    unfold Nat.dist at hfirst ⊢
    omega

/-! ## Order -/

theorem roundDiv_mono {num' : Nat} (hden : 0 < den) (h : num ≤ num') : roundDiv num den ≤ roundDiv num' den := by
  by_contra hlt
  obtain ⟨hbelow, -⟩ := @roundDiv_near num den hden
  obtain ⟨-, habove⟩ := @roundDiv_near num' den hden
  have hstep := mul_add_le_of_lt (Nat.lt_of_not_le hlt) den
  -- the two are the same half between two multiples, and so are rounded to the same one
  obtain rfl : num = num' := by omega
  exact hlt (Nat.le_refl _)

theorem log2_mono {a b : Nat} (h : a ≤ b) : a.log2 ≤ b.log2 := by
  by_cases ha : a = 0
  · rw [ha, Nat.log2_zero]
    exact Nat.zero_le _
  · exact (Nat.le_log2 (by omega)).mpr (Nat.le_trans (Nat.log2_self_le ha) h)

/-- **A greater quotient** has no smaller nearest double. -/
theorem nearestBits_mono {num' : Nat} (hden : 0 < den) (h : num ≤ num') :
    nearestBits num den ≤ nearestBits num' den := by
  have hunits : num * unitsPerOne ≤ num' * unitsPerOne := Nat.mul_le_mul_right _ h
  have hlog : (num * unitsPerOne / den).log2 ≤ (num' * unitsPerOne / den).log2 :=
    log2_mono (Nat.div_le_div_right hunits)
  obtain ⟨-, hhigh⟩ := roundDiv_significand num hden
  obtain ⟨hlow, -⟩ := roundDiv_significand num' hden
  have hsum : ((num * unitsPerOne / den).log2 - 52) * 2 ^ 52 +
        roundDiv (num * unitsPerOne) (den * 2 ^ ((num * unitsPerOne / den).log2 - 52)) ≤
      ((num' * unitsPerOne / den).log2 - 52) * 2 ^ 52 +
        roundDiv (num' * unitsPerOne) (den * 2 ^ ((num' * unitsPerOne / den).log2 - 52)) := by
    rcases (Nat.sub_le_sub_right hlog 52).eq_or_lt with hshift | hshift
    · rw [hshift]
      exact Nat.add_le_add_left (roundDiv_mono (Nat.mul_pos hden (Nat.two_pow_pos _)) hunits) _
    · omega
  simp only [nearestBits, Nat.pow_eq]
  exact Nat.le_min.mpr ⟨Nat.le_trans (Nat.min_le_left _ _) hsum, Nat.min_le_right _ _⟩

theorem nearestBits_lt_infinityBits {k : Nat} (hden : 0 < den) (hk : k ≤ 1023) (h : num < den * 2 ^ k) :
    nearestBits num den < infinityBits := by
  obtain ⟨j, hj, hone⟩ := unitsPerOne_eq_two_pow
  have hround := (roundDiv_significand num hden).2
  have hlt : num * unitsPerOne / den < 2 ^ (k + j) := by
    rw [Nat.div_lt_iff_lt_mul hden, Nat.pow_add, ← hone, Nat.mul_right_comm, Nat.mul_comm (2 ^ k)]
    exact Nat.mul_lt_mul_of_pos_right h unitsPerOne_pos
  have hshift : (num * unitsPerOne / den).log2 - 52 ≤ 2044 := by
    by_cases hzero : num * unitsPerOne / den = 0
    · rw [hzero, Nat.log2_zero]
      omega
    · have hlog := (Nat.log2_lt hzero).mpr hlt
      omega
  have hmin : nearestBits num den ≤ ((num * unitsPerOne / den).log2 - 52) * 2 ^ 52 +
      roundDiv (num * unitsPerOne) (den * 2 ^ ((num * unitsPerOne / den).log2 - 52)) := Nat.min_le_left _ _
  have hbound : 2044 * 2 ^ 52 + 2 ^ 53 < infinityBits := by decide
  omega

end Double
end SciCalc
