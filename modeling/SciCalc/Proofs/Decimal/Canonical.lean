/-
Canonical decimal texts. No digit in them could be left out: the whole part has no zero in front but its only
digit, the fraction has none at the end and no more digits than there are places, a point stands only before
digits, and zero has no minus.

A multiple of the unit of the last place has one such text (`canonicalText_iff`). It is that of its digits in
their places, without the zeros at the end.
-/
import Mathlib
import SciCalc.Proofs.Decimal.Places

namespace SciCalc

open Decimal (natOfText natText padded dropLast places placesNumeral signText zeros)

variable {c : Char} {ds es : List Char} {n : Nat} {m : Numeral} {text : List Char}

namespace Decimal

/-! ## Digits -/

theorem natOfText_concat (ds : List Char) (c : Char) :
    natOfText (ds ++ [c]) = natOfText ds * 10 + (c.toNat - 48) := by
  rw [natOfText_append, List.length_singleton, Nat.pow_one]
  simp [natOfText, Nat.ofDigitChars]

theorem toNat_sub_lt_of_isDigit (h : c.isDigit = true) : c.toNat - 48 < 10 := by
  have hhigh : c.toNat ≤ 57 := (Char.isDigit_iff_toNat.mp h).2
  omega

theorem natOfText_lt (hds : ∀ c ∈ ds, c.isDigit = true) : natOfText ds < 10 ^ ds.length := by
  induction ds using List.reverseRecOn with
  | nil => decide
  | append_singleton ds c ih =>
    have hfront := ih fun d hd => hds d (List.mem_append_left _ hd)
    have hlast := toNat_sub_lt_of_isDigit (hds c (List.mem_append_right _ List.mem_cons_self))
    rw [natOfText_concat, List.length_append, List.length_singleton, Nat.pow_succ]
    omega

theorem eq_of_natOfText_eq (hds : ∀ c ∈ ds, c.isDigit = true) (hes : ∀ c ∈ es, c.isDigit = true)
    (hlength : ds.length = es.length) (h : natOfText ds = natOfText es) : ds = es := by
  induction ds using List.reverseRecOn generalizing es with
  | nil => exact (List.length_eq_zero_iff.mp hlength.symm).symm
  | append_singleton ds c ih =>
    obtain ⟨es, d, rfl⟩ : ∃ front last, es = front ++ [last] := by
      refine (List.eq_nil_or_concat' es).resolve_left ?_
      rintro rfl
      simp at hlength
    have hc := hds c (List.mem_append_right _ List.mem_cons_self)
    have hd := hes d (List.mem_append_right _ List.mem_cons_self)
    have hclt := toNat_sub_lt_of_isDigit hc
    have hdlt := toNat_sub_lt_of_isDigit hd
    rw [natOfText_concat, natOfText_concat] at h
    have hfront : ds = es := by
      refine ih (fun x hx => hds x (List.mem_append_left _ hx)) (fun x hx => hes x (List.mem_append_left _ hx))
        (by simpa using hlength) (by omega)
    have hlast : c = d := by
      have hclow : 48 ≤ c.toNat := (Char.isDigit_iff_toNat.mp hc).1
      have hdlow : 48 ≤ d.toNat := (Char.isDigit_iff_toNat.mp hd).1
      exact Char.toNat_inj.mp (by omega)
    rw [hfront, hlast]

theorem padded_natText_natOfText (hds : ∀ c ∈ ds, c.isDigit = true) (hne : ds ≠ []) :
    padded ds.length (natText (natOfText ds)) = ds := by
  have hle : (natText (natOfText ds)).length ≤ ds.length :=
    (Nat.length_toDigits_le_iff (by decide) (List.length_pos_iff.mpr hne)).mpr (natOfText_lt hds)
  refine eq_of_natOfText_eq (fun c hc => isDigit_of_mem_padded hc) hds (length_padded hle) ?_
  rw [natOfText_padded, natOfText_natText]

theorem natText_natOfText (hds : ∀ c ∈ ds, c.isDigit = true) (hne : ds ≠ [])
    (hzero : ds.head? = some '0' → ds = ['0']) : natText (natOfText ds) = ds := by
  have hpadded := padded_natText_natOfText hds hne
  cases hk : ds.length - (natText (natOfText ds)).length with
  | zero => rwa [padded, hk] at hpadded
  | succ k =>
    rw [padded, hk, List.replicate_succ, List.cons_append] at hpadded
    rw [hzero (by rw [← hpadded]; rfl)]
    rfl

theorem natText_head (h : (natText n).head? = some '0') : natText n = ['0'] := by
  obtain ⟨ds, hds⟩ : ∃ ds, natText n = '0' :: ds := List.head?_eq_some_iff.mp h
  by_cases hnil : ds = []
  · rw [hds, hnil]
  · -- without the zero it would be the same natural, in fewer digits than it has
    have hdigits : ∀ c ∈ ds, c.isDigit = true := fun c hc =>
      isDigit_of_mem_natText (hds ▸ List.mem_cons_of_mem _ hc)
    have hvalue : natOfText ds = n := by
      rw [← natOfText_zeros_append 1, ← natOfText_natText n, hds]
      rfl
    have hle : (natText n).length ≤ ds.length := by
      refine (Nat.length_toDigits_le_iff (by decide) (List.length_pos_iff.mpr hnil)).mpr ?_
      rw [← hvalue]
      exact natOfText_lt hdigits
    rw [hds, List.length_cons] at hle
    omega

theorem getLast?_dropLast (c : Char) (cs : List Char) : (dropLast c cs).getLast? ≠ some c := by
  intro h
  obtain ⟨hne, hlast⟩ := List.mem_getLast?_eq_getLast h
  exact List.rdropWhile_last_not (fun d => decide (d = c)) cs hne (decide_eq_true hlast.symm)

theorem dropLast_append_zeros (h : ds.getLast? ≠ some '0') (k : Nat) : dropLast '0' (ds ++ zeros k) = ds := by
  induction k with
  | zero =>
    rw [zeros, List.replicate_zero, List.append_nil]
    rcases List.eq_nil_or_concat' ds with rfl | ⟨front, last, rfl⟩
    · rfl
    · exact List.rdropWhile_concat_neg _ _ _ (by simpa using h)
  | succ k ih =>
    rw [zeros, List.replicate_succ', ← List.append_assoc]
    exact (List.rdropWhile_concat_pos _ _ _ (by decide)).trans ih

end Decimal

/-! ## Numerals -/

/-- A numeral with no digit that could be left out. -/
structure Numeral.Canonical (m : Numeral) : Prop where
  whole : ∀ c ∈ m.whole, c.isDigit = true
  whole_ne_nil : m.whole ≠ []
  whole_head : m.whole.head? = some '0' → m.whole = ['0']
  fraction : ∀ c ∈ m.fraction, c.isDigit = true
  fraction_last : m.fraction.getLast? ≠ some '0'
  fraction_length : m.fraction.length ≤ places
  exponent : m.exponent = none

/-- The number of a decimal. -/
def Decimal.value (d : Decimal) : ℚ := d.digits * 10 ^ d.exponent

/-- A rational with a sign. -/
def signed (negative : Bool) (q : ℚ) : ℚ := if negative then -q else q

/-- **A canonical text** of a number: a canonical numeral, or a minus and one. Zero has no minus. -/
def CanonicalText (text : List Char) (value : ℚ) : Prop :=
  ∃ (negative : Bool) (m : Numeral), m.Canonical ∧ text = signText negative ++ m.text ∧ text ≠ ['-', '0'] ∧
    value = signed negative m.toDecimal.value

namespace Decimal

theorem canonical_placesNumeral (n : Nat) : (placesNumeral n).Canonical where
  whole := (wellFormed_placesNumeral n).whole
  whole_ne_nil := natText_ne_nil _
  whole_head := natText_head
  fraction := (wellFormed_placesNumeral n).fraction
  fraction_last := getLast?_dropLast _ _
  fraction_length := by
    obtain ⟨k, -, hlength⟩ := exists_digits_placesNumeral n
    omega
  exponent := rfl

/-- In units of the last place a canonical numeral stands for a whole number, and it is the numeral of that. -/
theorem exists_eq_placesNumeral (hm : m.Canonical) :
    ∃ n, m = placesNumeral n := by
  obtain ⟨k, hk⟩ : ∃ k, m.fraction.length + k = places := ⟨_, Nat.add_sub_cancel' hm.fraction_length⟩
  have hdigits : ∀ c ∈ m.fraction ++ zeros k, c.isDigit = true := fun c hc =>
    (List.mem_append.mp hc).elim (hm.fraction c) isDigit_of_mem_zeros
  have hlength : (m.fraction ++ zeros k).length = places := by
    rw [List.length_append, zeros, List.length_replicate, hk]
  have hlt : natOfText (m.fraction ++ zeros k) < Nat.pow 10 places := by
    have hlt := natOfText_lt hdigits
    rwa [hlength] at hlt
  have hvalue : natOfText (m.whole ++ (m.fraction ++ zeros k)) =
      natOfText (m.fraction ++ zeros k) + Nat.pow 10 places * natOfText m.whole := by
    rw [natOfText_append, hlength, Nat.add_comm, Nat.mul_comm]
    rfl
  have hwhole : natOfText (m.whole ++ (m.fraction ++ zeros k)) / Nat.pow 10 places = natOfText m.whole := by
    rw [hvalue, Nat.add_mul_div_left _ _ (by decide), Nat.div_eq_of_lt hlt, Nat.zero_add]
  have hfraction : natOfText (m.whole ++ (m.fraction ++ zeros k)) % Nat.pow 10 places =
      natOfText (m.fraction ++ zeros k) := by
    rw [hvalue, Nat.add_mul_mod_self_left, Nat.mod_eq_of_lt hlt]
  have hpadded : padded places (natText (natOfText (m.fraction ++ zeros k))) = m.fraction ++ zeros k := by
    have hne : m.fraction ++ zeros k ≠ [] := List.ne_nil_of_length_pos (by rw [hlength]; decide)
    have hpadded := padded_natText_natOfText hdigits hne
    rwa [hlength] at hpadded
  refine ⟨natOfText (m.whole ++ (m.fraction ++ zeros k)), ?_⟩
  rw [placesNumeral, hwhole, hfraction, hpadded, natText_natOfText hm.whole hm.whole_ne_nil hm.whole_head,
    dropLast_append_zeros hm.fraction_last, ← hm.exponent]

theorem value_toDecimal_placesNumeral (n : Nat) : (placesNumeral n).toDecimal.value = n / 10 ^ places := by
  obtain ⟨k, hdigits, hlength⟩ := exists_digits_placesNumeral n
  have hexponent : (placesNumeral n).toDecimal.exponent = -((placesNumeral n).fraction.length : ℤ) := by
    simp [Numeral.toDecimal, placesNumeral]
  have hvalue : (n : ℚ) = (placesNumeral n).toDecimal.digits * 10 ^ k := by
    exact_mod_cast hdigits.symm
  have hpower : (10 : ℚ) ^ places = 10 ^ (placesNumeral n).fraction.length * 10 ^ k := by
    rw [← pow_add, hlength]
  calc (placesNumeral n).toDecimal.value
      = (placesNumeral n).toDecimal.digits / 10 ^ (placesNumeral n).fraction.length := by
        rw [value, hexponent, zpow_neg, zpow_natCast, div_eq_mul_inv]
    _ = (placesNumeral n).toDecimal.digits * 10 ^ k / (10 ^ (placesNumeral n).fraction.length * 10 ^ k) :=
        (mul_div_mul_right _ _ (by positivity)).symm
    _ = n / 10 ^ places := by rw [hvalue, hpower]

/-- **A multiple of the unit of the last place has one canonical text.** -/
theorem canonicalText_iff (n : ℤ) :
    CanonicalText text (n / 10 ^ places) ↔
      text = signText (decide (n < 0)) ++ (placesNumeral n.natAbs).text := by
  have hsigned : ∀ negative (k : ℕ), (n : ℚ) / 10 ^ places = signed negative (k / 10 ^ places) ↔
      n = if negative then -(k : ℤ) else k := by
    intro negative k
    have hten : (10 : ℚ) ^ places ≠ 0 := by positivity
    cases negative with
    | true =>
      rw [signed, if_pos rfl, if_pos rfl, ← neg_div, div_left_inj' hten]
      norm_cast
    | false =>
      rw [signed, if_neg Bool.false_ne_true, if_neg Bool.false_ne_true, div_left_inj' hten]
      norm_cast
  constructor
  · rintro ⟨negative, m, hm, rfl, hzero, hvalue⟩
    obtain ⟨k, rfl⟩ := exists_eq_placesNumeral hm
    rw [value_toDecimal_placesNumeral, hsigned] at hvalue
    cases negative with
    | false =>
      have hn : n = k := by simpa using hvalue
      rw [hn, decide_eq_false (by omega), Int.natAbs_natCast]
    | true =>
      have hn : n = -(k : ℤ) := by simpa using hvalue
      have hne : k ≠ 0 := by
        rintro rfl
        exact hzero rfl
      rw [hn, decide_eq_true (by omega), Int.natAbs_neg, Int.natAbs_natCast]
  · rintro rfl
    refine ⟨decide (n < 0), placesNumeral n.natAbs, canonical_placesNumeral _, rfl, ?_, ?_⟩
    · intro hzero
      by_cases hn : n < 0
      · rw [decide_eq_true hn] at hzero
        have hnone := text_placesNumeral_eq_zero_iff.mp (List.cons.inj hzero).2
        omega
      · rw [decide_eq_false hn] at hzero
        exact text_placesNumeral_ne_cons _ _ hzero
    · rw [value_toDecimal_placesNumeral, hsigned]
      simp only [decide_eq_true_eq]
      omega

theorem canonicalText_signed_iff (negative : Bool) (k : ℕ) :
    CanonicalText text ((if negative then -(k : ℤ) else k : ℤ) / 10 ^ places) ↔
      text = signText (negative && k != 0) ++ (placesNumeral k).text := by
  have hsign : decide ((if negative then -(k : ℤ) else k) < 0) = (negative && k != 0) := by
    cases negative with
    | false => simp
    | true => rw [Bool.eq_iff_iff]; simp [Nat.pos_iff_ne_zero]
  have habs : (if negative then -(k : ℤ) else k).natAbs = k := by
    cases negative <;> simp
  rw [canonicalText_iff, hsign, habs]

end Decimal
end SciCalc
