/-
The text of a finite result is the canonical one of the result rounded to ten places, a tie going to the even last
digit (`clipboardText_canonical`). There are two ways to that text, one for whole numbers that are not too great
and one for the rest, but the second would do for all (`finiteText_eq_trimmedText`); the first is what a cast to an
integer gives (`toString_toInt64`).
-/
import SciCalc.Proofs.Decimal.Canonical
import SciCalc.Proofs.Double.Unpacked

namespace SciCalc

open Double (unitsPerOne unitsPerOne_pos)

variable {x : Float} {negative : Bool} {units num den : Nat} {q : ℚ} {n m : ℤ}

/-! ## Rounding -/

theorem roundDiv_half (hden : 0 < den) (h : 2 * num = 2 * (roundDiv num den * den) + den ∨
    2 * num + den = 2 * (roundDiv num den * den)) : roundDiv num den % 2 = 0 := by
  have hsum : num / den * den + num % den = num := Nat.div_add_mod' num den
  have hrest : num % den < den := Nat.mod_lt _ hden
  have hup : (num / den + 1) * den = num / den * den + den := Nat.succ_mul _ _
  rcases Nat.lt_trichotomy (2 * (num % den)) den with hlt | htie | hgt
  · have hround : roundDiv num den = num / den := by simp only [roundDiv, if_pos hlt]
    rw [hround] at h
    omega
  · exact roundDiv_tie htie
  · have hround : roundDiv num den = num / den + 1 := by
      simp only [roundDiv, if_neg (Nat.lt_asymm hgt), if_pos hgt]
    rw [hround] at h
    omega

theorem near_roundDiv (num : Nat) (hden : 0 < den) : |(num / den : ℚ) - roundDiv num den| ≤ 1 / 2 := by
  obtain ⟨hbelow, habove⟩ := @roundDiv_near num den hden
  have hpos : (0 : ℚ) < den := by exact_mod_cast hden
  have hbelow' : 2 * ((roundDiv num den : ℚ) * den) ≤ 2 * num + den := by exact_mod_cast hbelow
  have habove' : (2 * num : ℚ) ≤ 2 * (roundDiv num den * den) + den := by exact_mod_cast habove
  rw [abs_le]
  constructor
  · rw [neg_le_sub_iff_le_add, ← sub_le_iff_le_add, le_div_iff₀ hpos]
    linarith
  · rw [sub_le_iff_le_add, div_le_iff₀ hpos]
    linarith

theorem even_roundDiv (hden : 0 < den) (h : |(num / den : ℚ) - roundDiv num den| = 1 / 2) :
    Even (roundDiv num den : ℤ) := by
  have hpos : (den : ℚ) ≠ 0 := by exact_mod_cast hden.ne'
  have hhalf : 2 * num = 2 * (roundDiv num den * den) + den ∨ 2 * num + den = 2 * (roundDiv num den * den) := by
    rcases (abs_eq (by norm_num)).mp h with hup | hdown
    · left
      have hup' : (2 * num : ℚ) = 2 * (roundDiv num den * den) + den := by
        field_simp at hup
        linarith
      exact_mod_cast hup'
    · right
      have hdown' : (2 * num + den : ℚ) = 2 * (roundDiv num den * den) := by
        field_simp at hdown
        linarith
      exact_mod_cast hdown'
  rw [Int.even_coe_nat, Nat.even_iff]
  exact roundDiv_half hden hhalf

namespace Decimal

/-- So many units of the last place are as near to a number as any other multiple is. Where two are equally near,
it is the one with the even last digit. -/
structure NearestPlace (value : ℚ) (n : ℤ) : Prop where
  nearest : ∀ m : ℤ, |value - n / 10 ^ places| ≤ |value - m / 10 ^ places|
  even : ∀ m : ℤ, m ≠ n → |value - m / 10 ^ places| = |value - n / 10 ^ places| → Even n

theorem abs_sub_div (q : ℚ) (n : ℤ) :
    |q - n / 10 ^ places| = |q * 10 ^ places - n| / 10 ^ places := by
  have hten : (0 : ℚ) < 10 ^ places := by positivity
  rw [← abs_of_pos hten, ← abs_div, sub_div, abs_of_pos hten, mul_div_cancel_right₀ _ hten.ne']

theorem nearestPlace_iff :
    NearestPlace q n ↔ (∀ m : ℤ, |q * 10 ^ places - n| ≤ |q * 10 ^ places - m|) ∧
      ∀ m : ℤ, m ≠ n → |q * 10 ^ places - m| = |q * 10 ^ places - n| → Even n := by
  have hten : (0 : ℚ) < 10 ^ places := by positivity
  constructor
  · rintro ⟨hnearest, heven⟩
    simp only [abs_sub_div, div_le_div_iff_of_pos_right hten, div_left_inj' hten.ne'] at hnearest heven
    exact ⟨hnearest, heven⟩
  · rintro ⟨hnearest, heven⟩
    refine ⟨fun m => ?_, fun m hne heq => heven m hne ?_⟩
    · rw [abs_sub_div, abs_sub_div]
      exact div_le_div_of_nonneg_right (hnearest m) hten.le
    · rwa [abs_sub_div, abs_sub_div, div_left_inj' hten.ne'] at heq

theorem NearestPlace.unique (hn : NearestPlace q n) (hm : NearestPlace q m) : n = m := by
  by_contra hne
  obtain ⟨hnearest, heven⟩ := nearestPlace_iff.mp hn
  obtain ⟨hnearest', heven'⟩ := nearestPlace_iff.mp hm
  have heq := le_antisymm (hnearest m) (hnearest' n)
  obtain ⟨j, rfl⟩ := heven m (Ne.symm hne) heq.symm
  obtain ⟨k, rfl⟩ := heven' (j + j) hne heq
  -- the number is half-way between two even multiples, where there is a multiple itself
  have hmiddle : q * 10 ^ places = (j + k : ℤ) := by
    rcases abs_eq_abs.mp heq with hsame | hopposite
    · refine absurd ?_ hne
      exact_mod_cast sub_right_inj.mp hsame
    · push_cast at hopposite ⊢
      linarith
  have hzero := hnearest (j + k)
  rw [hmiddle, sub_self, abs_zero, abs_nonpos_iff, sub_eq_zero] at hzero
  have hsum : j + k = j + j := by exact_mod_cast hzero
  omega

theorem nearestPlace_of_near (hnear : |q * 10 ^ places - n| ≤ 1 / 2)
    (heven : |q * 10 ^ places - n| = 1 / 2 → Even n) : NearestPlace q n := by
  have hfar : ∀ m : ℤ, m ≠ n → 1 ≤ |q * 10 ^ places - m| + |q * 10 ^ places - n| := by
    intro m hne
    have hone : (1 : ℚ) ≤ |(m : ℚ) - n| := by exact_mod_cast Int.one_le_abs (sub_ne_zero.mpr hne)
    rw [← abs_sub_comm (m : ℚ)]
    exact hone.trans (abs_sub_le _ _ _)
  refine nearestPlace_iff.mpr ⟨fun m => ?_, fun m hne heq => heven ?_⟩
  · by_cases hne : m = n
    · rw [hne]
    · have hm := hfar m hne
      linarith
  · have hm := hfar m hne
    linarith

theorem NearestPlace.neg (h : NearestPlace q n) : NearestPlace (-q) (-n) := by
  have habs : ∀ m : ℤ, |-q - (m : ℚ) / 10 ^ places| = |q - ((-m : ℤ) : ℚ) / 10 ^ places| := by
    intro m
    rw [← abs_neg, Int.cast_neg]
    congr 1
    ring
  refine ⟨fun m => ?_, fun m hne heq => ?_⟩
  · rw [habs, habs, neg_neg]
    exact h.nearest (-m)
  · rw [habs, habs, neg_neg] at heq
    exact (h.even (-m) (fun hm => hne (neg_eq_iff_eq_neg.mp hm)) heq).neg

end Decimal

/-! ## Results -/

namespace Double

/-- The number that a finite double stands for. -/
def value (negative : Bool) (units : Nat) : ℚ := signed negative (units / unitsPerOne)

end Double

namespace Decimal

/-- The text of a finite result, if no whole number were written out as it is. -/
def trimmedText (negative : Bool) (units : Nat) : List Char :=
  let text := signText negative ++ dropLast '.' (dropLast '0' (roundedText units))
  if text = ['-', '0'] then ['0'] else text

/-- **The two ways to a text are one.** -/
theorem finiteText_eq_trimmedText (negative : Bool) (units : Nat) :
    finiteText negative units = trimmedText negative units := by
  rw [finiteText_eq, hasMinus, ← signText_append, text_placesNumeral]
  rfl

theorem toList_repr_apply (negative : Bool) (k : Nat) :
    ((Double.signOf negative).apply k).repr.toList = signText (negative && k != 0) ++ natText k := by
  cases negative with
  | false => exact Nat.toList_repr
  | true =>
    cases k with
    | zero => rfl
    | succ k =>
      have hrepr : ((Double.signOf true).apply (k + 1 : Nat)).repr = "-" ++ (k + 1).repr := rfl
      rw [hrepr, String.toList_append, Nat.toList_repr]
      rfl

theorem toString_toInt64 (hx : Double.classify x = .finite negative units) (hwhole : units % unitsPerOne = 0)
    (hlt : units < Nat.pow 10 15 * unitsPerOne) :
    (toString x.toModel.toInt64).toList = finiteText negative units := by
  have hquotient : units / unitsPerOne < Nat.pow 10 15 := (Nat.div_lt_iff_lt_mul unitsPerOne_pos).mpr hlt
  have hinteger := Double.toInt64_of_classify hx (Nat.lt_trans hquotient (by decide))
  have hzero : (units / unitsPerOne != 0) = (units != 0) := by
    have hunits : unitsPerOne * (units / unitsPerOne) = units := Nat.mul_div_cancel' (Nat.dvd_of_mod_eq_zero hwhole)
    have hproduct : unitsPerOne * (units / unitsPerOne) = 0 ↔ _ := mul_eq_zero
    rw [hunits, or_iff_right unitsPerOne_pos.ne'] at hproduct
    rw [bne, bne, Bool.not_inj_iff, Bool.eq_iff_iff, beq_iff_eq, beq_iff_eq, hproduct]
  have htext : toString x.toModel.toInt64 = x.toModel.toInt64.toInt.repr := rfl
  rw [finiteText, if_pos ⟨hwhole, hlt⟩, htext, hinteger, toList_repr_apply, hzero]

theorem whole_prefix (units : Nat) :
    (roundedText units).takeWhile (· ≠ '.') <+: dropLast '.' (dropLast '0' (roundedText units)) := by
  have hpoint : ∀ c ∈ natText (inPlaces units / Nat.pow 10 places), decide (c ≠ '.') = true := by
    intro c hc
    refine decide_eq_true ?_
    rintro rfl
    exact absurd (isDigit_of_mem_natText hc) (by decide)
  have hwhole : (roundedText units).takeWhile (· ≠ '.') = natText (inPlaces units / Nat.pow 10 places) := by
    rw [roundedText, ← inPlaces, List.takeWhile_append_of_pos hpoint, List.takeWhile_cons_of_neg (by simp),
      List.append_nil]
  have htext := text_placesNumeral (inPlaces units)
  rw [text_placesNumeral_append] at htext
  rw [hwhole]
  exact ⟨_, htext⟩

theorem nearestPlace_inPlaces (negative : Bool) (units : Nat) :
    NearestPlace (Double.value negative units) (if negative then -(inPlaces units : ℤ) else inPlaces units) := by
  have hquotient : (units / unitsPerOne : ℚ) * 10 ^ places =
      ((units * Nat.pow 10 places : Nat) : ℚ) / unitsPerOne := by
    rw [Nat.pow_eq, Nat.cast_mul, Nat.cast_pow, Nat.cast_ofNat, div_mul_eq_mul_div]
  have hpositive : NearestPlace (units / unitsPerOne) (inPlaces units) := by
    refine nearestPlace_of_near ?_ fun h => ?_
    · rw [hquotient, inPlaces, Int.cast_natCast]
      exact near_roundDiv _ unitsPerOne_pos
    · rw [hquotient, inPlaces, Int.cast_natCast] at h
      exact even_roundDiv unitsPerOne_pos h
  rw [Double.value, signed]
  cases negative with
  | false =>
    rw [if_neg Bool.false_ne_true, if_neg Bool.false_ne_true]
    exact hpositive
  | true =>
    rw [if_pos rfl, if_pos rfl]
    exact hpositive.neg

/-- **The text of a finite result** is the canonical one of the nearest multiple of the unit of the last place. A whole
number has it both ways, and no zero of a whole part is dropped. -/
theorem clipboardText_canonical (hx : Double.classify x = .finite negative units) :
    ∃ n : ℤ, (∀ m : ℤ, NearestPlace (Double.value negative units) m ↔ m = n) ∧
      (∀ text, CanonicalText text (n / 10 ^ places) ↔ text = clipboardText x) ∧
      clipboardText x = trimmedText negative units ∧
      (units % unitsPerOne = 0 → units < Nat.pow 10 15 * unitsPerOne →
        (toString x.toModel.toInt64).toList = trimmedText negative units) ∧
      (roundedText units).takeWhile (· ≠ '.') <+: dropLast '.' (dropLast '0' (roundedText units)) := by
  have hnearest := nearestPlace_inPlaces negative units
  have htext : clipboardText x = finiteText negative units := by simp only [clipboardText, hx]
  refine ⟨_, fun m => ⟨fun hm => hm.unique hnearest, fun hm => hm ▸ hnearest⟩, fun text => ?_, ?_,
    fun hwhole hlt => ?_, whole_prefix units⟩
  · rw [canonicalText_signed_iff, htext, finiteText_eq, hasMinus]
  · rw [htext, finiteText_eq_trimmedText]
  · rw [toString_toInt64 hx hwhole hlt, finiteText_eq_trimmedText]

/-- A double half-way between two multiples, below zero. -/
theorem clipboardText_canonical_tie :
    Double.classify (.ofBits 0xbf40000000000000) = .finite true (2 ^ 1063) ∧
      ∃ n : ℤ, (∀ m : ℤ, NearestPlace (Double.value true (2 ^ 1063)) m ↔ m = n) ∧
        ∀ text, CanonicalText text (n / 10 ^ places) ↔ text = "-0.0004882812".toList := by
  have hx : Double.classify (.ofBits 0xbf40000000000000) = .finite true (2 ^ 1063) := by decide +kernel
  have htext : clipboardText (.ofBits 0xbf40000000000000) = "-0.0004882812".toList := by decide +kernel
  obtain ⟨n, hnearest, hcanonical, -⟩ := clipboardText_canonical hx
  rw [htext] at hcanonical
  exact ⟨hx, n, hnearest, hcanonical⟩

end Decimal
end SciCalc
