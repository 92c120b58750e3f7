/-
Results rounded to ten places, and read again. A result's text is that of one number, its value in units of
the last place (`inPlaces`), whether the value is whole or not (`finiteText_eq`): a numeral, and a minus if
that number is negative and not zero.

The double that is read from the text need not be the one that was written, but it has the same text
(`finiteText_readAgain`). It is as near to the written number as the other, which was within half a unit of the
last place; and no double lies half-way between two such numbers but the one that was written.
-/
import Mathlib.Data.List.DropRight
import SciCalc.Decimal.Places
import SciCalc.Proofs.Decimal.Plain

namespace SciCalc.Decimal

open Double (infinityBits nearestBits unitsOfBits unitsPerOne unitsPerOne_pos)

variable {c d : Char} {cs ds : List Char} {n k units bits : Nat} {negative : Bool}

/-- A number of units in units of the last place, rounded. -/
def inPlaces (units : Nat) : Nat := roundDiv (units * Nat.pow 10 places) unitsPerOne

/-- The numeral of so many units of the last place, without zeros at the end. -/
def placesNumeral (n : Nat) : Numeral where
  whole := natText (n / Nat.pow 10 places)
  fraction := dropLast '0' (padded places (natText (n % Nat.pow 10 places)))
  exponent := none

/-- Whether a minus is written in front of a rounded value. Zero has none. -/
def hasMinus (negative : Bool) (units : Nat) : Bool := negative && inPlaces units != 0

/-- The bits of the double that is read from the text of a rounded one. -/
def readAgain (bits : Nat) : Nat := nearestBits (inPlaces (unitsOfBits bits)) (Nat.pow 10 places)

/-! ## Characters at the end -/

theorem dropLast_append_cons (h : d ≠ c) (cs ds : List Char) :
    dropLast c (cs ++ d :: ds) = cs ++ d :: dropLast c ds := by
  simp only [dropLast, List.reverse_append, List.reverse_cons, List.append_assoc, List.dropWhile_append]
  split
  · next hnil =>
    rw [List.isEmpty_iff.mp hnil]
    simp [h]
  · simp

theorem dropLast_append (cs : List Char) (hne : ds ≠ []) (h : c ∉ ds) : dropLast c (cs ++ ds) = cs ++ ds := by
  obtain ⟨front, last, rfl⟩ := (List.eq_nil_or_concat' ds).resolve_left hne
  have hlast : last ≠ c := fun heq => h (by simp [heq])
  rw [← List.append_assoc]
  exact List.rdropWhile_concat_neg _ _ _ (by simpa using hlast)

theorem mem_of_mem_dropLast (h : d ∈ dropLast c cs) : d ∈ cs := by
  rw [eq_dropLast_append c cs]
  exact List.mem_append_left _ h

/-! ## Digits -/

theorem natText_ne_nil (n : Nat) : natText n ≠ [] := Nat.toDigits_ne_nil

theorem natOfText_padded (ds : List Char) : natOfText (padded k ds) = natOfText ds :=
  natOfText_zeros_append _ _

theorem length_padded (h : ds.length ≤ k) : (padded k ds).length = k := by
  rw [padded, List.length_append, List.length_replicate]
  omega

theorem isDigit_of_mem_padded (h : c ∈ padded k (natText n)) : c.isDigit = true := by
  rcases List.mem_append.mp h with hzero | hmem
  · exact isDigit_of_mem_zeros hzero
  · exact isDigit_of_mem_natText hmem

theorem length_padded_mod (n : Nat) : (padded places (natText (n % Nat.pow 10 places))).length = places :=
  length_padded ((Nat.length_toDigits_le_iff (by decide) (by decide)).mpr (Nat.mod_lt _ (by decide)))

theorem wellFormed_placesNumeral (n : Nat) : (placesNumeral n).WellFormed where
  whole _ hc := isDigit_of_mem_natText hc
  fraction _ hc := isDigit_of_mem_padded (mem_of_mem_dropLast hc)
  ne_nil := .inl (natText_ne_nil _)
  exponent := by simp [placesNumeral]

theorem exists_digits_placesNumeral (n : Nat) :
    ∃ k, natOfText ((placesNumeral n).whole ++ (placesNumeral n).fraction) * 10 ^ k = n ∧
      (placesNumeral n).fraction.length + k = places := by
  have hcut := eq_dropLast_append '0' (padded places (natText (n % Nat.pow 10 places)))
  have hlength := length_padded_mod n
  refine ⟨_, ?_, by rwa [hcut, List.length_append, List.length_replicate] at hlength⟩
  calc natOfText ((placesNumeral n).whole ++ (placesNumeral n).fraction) * 10 ^ _
      = natOfText (natText (n / Nat.pow 10 places) ++ padded places (natText (n % Nat.pow 10 places))) := by
        rw [← natOfText_append_zeros, zeros, List.append_assoc]
        exact congrArg (fun fraction => natOfText (_ ++ fraction)) hcut.symm
    _ = n / 10 ^ places * 10 ^ places + n % 10 ^ places := by
        rw [natOfText_append, natOfText_padded, natOfText_natText, natOfText_natText, hlength]
        rfl
    _ = n := Nat.div_add_mod' n _

/-- **The numeral of so many units of the last place** is read as the double nearest to them. -/
theorem toDouble_placesNumeral (n : Nat) :
    (placesNumeral n).toDouble = Double.ofQuotient false n (Nat.pow 10 places) := by
  obtain ⟨k, hdigits, hlength⟩ := exists_digits_placesNumeral n
  have hdecimal : (placesNumeral n).toDecimal =
      ⟨natOfText ((placesNumeral n).whole ++ (placesNumeral n).fraction), -(places : Int) + k⟩ := by
    have hexponent : (0 : Int) - (placesNumeral n).fraction.length = -(places : Int) + k := by omega
    rw [← hexponent]
    rfl
  have hnum : (-(places : Int)).toNat = 0 := rfl
  have hden : (- -(places : Int)).toNat = places := rfl
  rw [Numeral.toDouble, hdecimal, ← toDouble_shift, hdigits, toDouble_eq_ofQuotient, hnum, hden, Nat.pow_zero,
    Nat.mul_one, Nat.pow_eq]

theorem notMem_of_digits (hds : ∀ c ∈ ds, c.isDigit = true) (h : c.isDigit = false) : c ∉ ds := by
  intro hmem
  rw [hds c hmem] at h
  cases h

theorem text_placesNumeral_append (n : Nat) :
    (placesNumeral n).text = (placesNumeral n).whole ++
      if (placesNumeral n).fraction = [] then [] else '.' :: (placesNumeral n).fraction :=
  List.append_nil _

/-- Zeros at the end are left out, and the point if nothing is behind it. -/
theorem text_placesNumeral (n : Nat) :
    (placesNumeral n).text = dropLast '.' (dropLast '0'
      (natText (n / Nat.pow 10 places) ++ '.' :: padded places (natText (n % Nat.pow 10 places)))) := by
  have hm := wellFormed_placesNumeral n
  have hwhole : '.' ∉ (placesNumeral n).whole := notMem_of_digits hm.whole rfl
  have hfraction : '.' ∉ (placesNumeral n).fraction := notMem_of_digits hm.fraction rfl
  rw [dropLast_append_cons (by decide), text_placesNumeral_append]
  change _ = dropLast '.' ((placesNumeral n).whole ++ '.' :: (placesNumeral n).fraction)
  by_cases hnil : (placesNumeral n).fraction = []
  · have hpoint : dropLast '.' ((placesNumeral n).whole ++ ['.']) = dropLast '.' (placesNumeral n).whole :=
      List.rdropWhile_concat_pos _ _ _ (by decide)
    have hkept := dropLast_append [] (natText_ne_nil _) hwhole
    rw [if_pos hnil, hnil, hpoint, List.append_nil]
    exact hkept.symm
  · have hkept := dropLast_append ((placesNumeral n).whole ++ ['.']) hnil hfraction
    simpa [hnil] using hkept.symm

theorem text_placesNumeral_mul (n : Nat) : (placesNumeral (n * Nat.pow 10 places)).text = natText n := by
  have hpos : 0 < Nat.pow 10 places := by decide
  have hfraction : dropLast '0' (padded places (natText 0)) = [] := by decide
  simp only [Numeral.text, placesNumeral, Nat.mul_div_cancel _ hpos, Nat.mul_mod_left, hfraction]
  simp

theorem text_placesNumeral_eq_zero_iff : (placesNumeral n).text = ['0'] ↔ n = 0 := by
  constructor
  · intro h
    obtain ⟨k, hdigits, -⟩ := exists_digits_placesNumeral n
    rw [text_placesNumeral_append] at h
    obtain ⟨hwhole, hpoint⟩ :=
      (List.append_eq_singleton_iff.mp h).resolve_left fun hnil => natText_ne_nil _ hnil.1
    have hfraction : (placesNumeral n).fraction = [] := by
      by_contra hne
      rw [if_neg hne] at hpoint
      cases hpoint
    rw [hwhole, hfraction] at hdigits
    rw [← hdigits]
    exact Nat.zero_mul _
  · rintro rfl
    rfl

theorem text_placesNumeral_ne_cons (n : Nat) (cs : List Char) : (placesNumeral n).text ≠ '-' :: cs := by
  intro h
  rw [text_placesNumeral_append] at h
  obtain ⟨c, ds, hwhole⟩ := List.exists_cons_of_ne_nil (l := (placesNumeral n).whole) (natText_ne_nil _)
  have hdigit := (wellFormed_placesNumeral n).whole c (hwhole ▸ List.mem_cons_self)
  rw [hwhole, List.cons_append] at h
  rw [(List.cons.inj h).1] at hdigit
  cases hdigit

/-! ## Results -/

theorem inPlaces_of_whole (h : units % unitsPerOne = 0) :
    inPlaces units = units / unitsPerOne * Nat.pow 10 places := by
  have hunits : units / unitsPerOne * unitsPerOne = units := Nat.div_mul_cancel (Nat.dvd_of_mod_eq_zero h)
  rw [inPlaces, ← hunits, Nat.mul_right_comm, roundDiv_mul unitsPerOne_pos, hunits]

theorem inPlaces_eq_zero_iff_of_whole (h : units % unitsPerOne = 0) : inPlaces units = 0 ↔ units = 0 := by
  have hunits : units / unitsPerOne * unitsPerOne = units := Nat.div_mul_cancel (Nat.dvd_of_mod_eq_zero h)
  rw [inPlaces_of_whole h]
  constructor
  · intro hzero
    have hquotient : units / unitsPerOne = 0 := (Nat.mul_eq_zero.mp hzero).resolve_right (by decide)
    rw [← hunits, hquotient, Nat.zero_mul]
  · rintro rfl
    rw [Nat.zero_div, Nat.zero_mul]

theorem signText_append (negative : Bool) (n : Nat) :
    (if signText negative ++ (placesNumeral n).text = ['-', '0'] then ['0']
      else signText negative ++ (placesNumeral n).text) =
      signText (negative && n != 0) ++ (placesNumeral n).text := by
  cases negative with
  | false => exact if_neg (text_placesNumeral_ne_cons n ['0'])
  | true =>
    by_cases hzero : n = 0
    · rw [hzero]
      rfl
    · have hsign : (true && n != 0) = true := by simpa using hzero
      rw [hsign]
      refine if_neg fun h => hzero (text_placesNumeral_eq_zero_iff.mp ?_)
      exact (List.cons.inj h).2

/-- **The text of a finite result** is the numeral of its value in units of the last place, with a minus if
that is negative and not zero. -/
theorem finiteText_eq (negative : Bool) (units : Nat) :
    finiteText negative units =
      signText (hasMinus negative units) ++ (placesNumeral (inPlaces units)).text := by
  by_cases hwhole : units % unitsPerOne = 0 ∧ units < Nat.pow 10 15 * unitsPerOne
  · have hzero : (units != 0) = (inPlaces units != 0) := by
      rw [bne, bne, Bool.not_inj_iff, Bool.eq_iff_iff, beq_iff_eq, beq_iff_eq]
      exact (inPlaces_eq_zero_iff_of_whole hwhole.1).symm
    rw [finiteText, if_pos hwhole, hasMinus, hzero, inPlaces_of_whole hwhole.1, text_placesNumeral_mul]
  · rw [finiteText, if_neg hwhole, hasMinus, ← signText_append, text_placesNumeral]
    rfl

/-! ## Read again -/

theorem readAgain_of_whole (hbits : bits < infinityBits) (h : unitsOfBits bits % unitsPerOne = 0) :
    readAgain bits = bits := by
  have hunits : unitsOfBits bits / unitsPerOne * unitsPerOne = unitsOfBits bits :=
    Nat.div_mul_cancel (Nat.dvd_of_mod_eq_zero h)
  have hten : 0 < Nat.pow 10 places := by decide
  calc readAgain bits
      = nearestBits (unitsOfBits bits / unitsPerOne * Nat.pow 10 places) (1 * Nat.pow 10 places) := by
        rw [readAgain, inPlaces_of_whole h, Nat.one_mul]
    _ = nearestBits (unitsOfBits bits / unitsPerOne) 1 := Double.nearestBits_mul_mul hten
    _ = nearestBits (unitsOfBits bits / unitsPerOne * unitsPerOne) (1 * unitsPerOne) :=
        (Double.nearestBits_mul_mul unitsPerOne_pos).symm
    _ = bits := by rw [hunits, Nat.one_mul, Double.nearestBits_unitsOfBits (Nat.le_of_lt hbits)]

theorem readAgain_lt (hbits : bits < infinityBits) : readAgain bits < infinityBits := by
  by_cases hwhole : unitsOfBits bits % unitsPerOne = 0
  · rwa [readAgain_of_whole hbits hwhole]
  · -- doubles from `2^52` on are whole numbers
    obtain ⟨k, -, hone⟩ := Double.unitsPerOne_eq_two_pow
    have hlt : unitsOfBits bits < 2 ^ 52 * unitsPerOne := by
      rw [hone] at hwhole ⊢
      refine ((Double.unitsOfBits_grid bits k).resolve_left ?_).2
      rintro ⟨j, hj⟩
      exact hwhole (by rw [hj, Nat.mul_mod_left])
    have hle : inPlaces (unitsOfBits bits) ≤ 2 ^ 52 * Nat.pow 10 places := by
      refine roundDiv_le unitsPerOne_pos ?_
      rw [Nat.mul_right_comm]
      exact Nat.mul_le_mul_right _ (Nat.le_of_lt hlt)
    refine Double.nearestBits_lt_infinityBits (k := 53) (by decide) (by decide) ?_
    exact Nat.lt_of_le_of_lt hle (by decide)

/-- One is not a multiple of the unit of the last place, for that has a factor of five. -/
theorem unitsPerOne_ne_mul_pow (n : Nat) : unitsPerOne ≠ n * Nat.pow 10 places := by
  intro h
  obtain ⟨k, -, hone⟩ := Double.unitsPerOne_eq_two_pow
  have hfive : 5 ∣ 2 ^ k := by
    rw [← hone, h]
    exact Nat.dvd_mul_left_of_dvd (by decide) n
  have hcoprime : Nat.Coprime 5 (2 ^ k) := Nat.Coprime.pow_right k (by decide)
  exact absurd (hcoprime.eq_one_of_dvd hfive) (by decide)

/-- **What is read has the same places**: it is as near to the rounded value as the double that was rounded,
and no other double is as far away as half a unit of the last place. -/
theorem inPlaces_readAgain (hbits : bits < infinityBits) :
    inPlaces (unitsOfBits (readAgain bits)) = inPlaces (unitsOfBits bits) := by
  have hten : 0 < Nat.pow 10 places := by decide
  have hnearest := Double.nearestBits_nearest hten (readAgain_lt hbits) bits
  have hround := @roundDiv_near (unitsOfBits bits * Nat.pow 10 places) _ unitsPerOne_pos
  rw [← readAgain] at hnearest
  rw [← inPlaces] at hround
  generalize unitsOfBits (readAgain bits) = units' at hnearest ⊢
  generalize unitsOfBits bits = units at hnearest hround ⊢
  by_cases hnear : 2 * Nat.dist (units' * Nat.pow 10 places) (inPlaces units * unitsPerOne) < unitsPerOne
  · exact roundDiv_eq_of_near hnear
  · -- both are half a unit away; on different sides they would be a whole one apart
    have hsame : units' * Nat.pow 10 places = units * Nat.pow 10 places := by
      have hbelow := unitsPerOne_ne_mul_pow (units' - units)
      have habove := unitsPerOne_ne_mul_pow (units - units')
      rw [Nat.sub_mul] at hbelow habove
      unfold Nat.dist at hnearest hnear
      omega
    rw [Nat.eq_of_mul_eq_mul_right hten hsame]

theorem hasMinus_readAgain (hbits : bits < infinityBits) (negative : Bool) :
    hasMinus (hasMinus negative (unitsOfBits bits)) (unitsOfBits (readAgain bits)) =
      hasMinus negative (unitsOfBits bits) := by
  rw [hasMinus, hasMinus, inPlaces_readAgain hbits, Bool.and_assoc, Bool.and_self]

/-- **What is read has the same text.** -/
theorem finiteText_readAgain (hbits : bits < infinityBits) (negative : Bool) :
    finiteText (hasMinus negative (unitsOfBits bits)) (unitsOfBits (readAgain bits)) =
      finiteText negative (unitsOfBits bits) := by
  rw [finiteText_eq, hasMinus_readAgain hbits, inPlaces_readAgain hbits, ← finiteText_eq]

theorem unitsOfBits_readAgain_ne_zero (hbits : bits < infinityBits)
    (h : hasMinus negative (unitsOfBits bits) = true) : unitsOfBits (readAgain bits) ≠ 0 := by
  intro hzero
  have hplaces := inPlaces_readAgain hbits
  have hnone : inPlaces 0 = 0 := (inPlaces_eq_zero_iff_of_whole (Nat.zero_mod _)).mpr rfl
  rw [hzero, hnone] at hplaces
  simp [hasMinus, ← hplaces] at h

end SciCalc.Decimal
