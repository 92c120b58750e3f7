/-
A result that is copied can be typed again (`Report.evaluate_clipboard`). What is copied is a numeral, or the
negative of one, and so it has a value; that value need not be the result, which had perhaps more digits than
are copied, but it is displayed and copied like the result. Whole numbers come back as they were.

The text of a negative result is a subtraction from zero, and so it never stands for the negative zero.
-/
import SciCalc.Proofs.Decimal.Places
import SciCalc.Proofs.Double.Bits
import SciCalc.Proofs.Grammar.Evaluation
import SciCalc.Report

namespace SciCalc

open Decimal (hasMinus inPlaces placesNumeral readAgain signText)
open Double (infinityBits unitsOfBits unitsPerOne word)
open Token (Apart Laid)

variable {x : Float} {negative : Bool} {units bits : Nat}

/-- Tokens of a program with a value, in a text that is not typed but put together. -/
theorem evaluate_of_run {mode : AngleMode} {text : List Char} {ts : List Token} {p : Program}
    (hlaid : Laid ts text) (hts : ts.IsChain Apart) (hne : ts ≠ []) (hprogram : Program.ofTokens ts = .ok p)
    (hrun : p.run mode = .ok x) : evaluate mode (String.ofList text) = .ok x := by
  have htokens : Token.ofText (String.ofList text) = .ok ts :=
    Token.ofText_of_laid (by rwa [String.toList_ofList]) hts
  rw [evaluate_eq_run mode htokens hne hprogram, hrun, Except.mapError]

/-- The tokens of a numeral with a sign. -/
def signedTokens (negative : Bool) (x : Float) : List Token :=
  if negative then [.operator .sub, .number x] else [.number x]

theorem laid_signed {m : Numeral} {ts : List Token} {text : List Char} (hm : m.WellFormed) (negative : Bool)
    (hts : Laid ts text) (hchain : (Token.number m.toDouble :: ts).IsChain Apart) :
    Laid (signedTokens negative m.toDouble ++ ts) (signText negative ++ (m.text ++ text)) ∧
      (signedTokens negative m.toDouble ++ ts).IsChain Apart := by
  have hnumber : Laid (.number m.toDouble :: ts) (m.text ++ text) := @Laid.cons [] _ _ _ _ nofun (.number hm) hts
  cases negative with
  | false => exact ⟨hnumber, hchain⟩
  | true => exact ⟨@Laid.cons [] _ _ _ _ nofun (.operator .sub) hnumber, Token.isChain_sign_cons rfl hchain⟩

/-- **A numeral with a sign** has the value of the numeral, or that taken from zero. -/
theorem evaluate_numeral (mode : AngleMode) {m : Numeral} (hm : m.WellFormed) (negative : Bool) :
    evaluate mode (String.ofList (signText negative ++ m.text)) =
      .ok (if negative then Double.ofNat 0 - m.toDouble else m.toDouble) := by
  obtain ⟨hlaid, hchain⟩ := laid_signed hm negative (@Laid.nil [] nofun) (List.isChain_singleton _)
  rw [List.append_nil, List.append_nil] at hlaid
  rw [List.append_nil] at hchain
  cases negative with
  | false =>
    have hprogram : Program.ofTokens [.number m.toDouble] = .ok [.push m.toDouble] := rfl
    have hrun : Program.run mode [.push m.toDouble] = .ok m.toDouble := rfl
    rw [if_neg Bool.false_ne_true]
    exact evaluate_of_run hlaid hchain (List.cons_ne_nil _ _) hprogram hrun
  | true =>
    have hprogram : Program.ofTokens [.operator .sub, .number m.toDouble] =
        .ok [.push (Double.ofNat 0), .push m.toDouble, .operate .sub] := rfl
    have hrun : Program.run mode [.push (Double.ofNat 0), .push m.toDouble, .operate .sub] =
        .ok (Double.ofNat 0 - m.toDouble) := rfl
    rw [if_pos rfl]
    exact evaluate_of_run hlaid hchain (List.cons_ne_nil _ _) hprogram hrun

theorem value_placesNumeral (hbits : bits < infinityBits) (negative : Bool) :
    (if hasMinus negative (unitsOfBits bits) = true then
        Double.ofNat 0 - (placesNumeral (inPlaces (unitsOfBits bits))).toDouble
      else (placesNumeral (inPlaces (unitsOfBits bits))).toDouble) =
      .ofBits (.ofBitVec (word (hasMinus negative (unitsOfBits bits)) (readAgain bits))) := by
  have hfinite := Decimal.readAgain_lt hbits
  have hdouble : (placesNumeral (inPlaces (unitsOfBits bits))).toDouble =
      .ofBits (.ofBitVec (word false (readAgain bits))) := Decimal.toDouble_placesNumeral _
  rw [hdouble]
  cases hsign : hasMinus negative (unitsOfBits bits) with
  | false => rw [if_neg Bool.false_ne_true]
  | true =>
    rw [if_pos rfl, ← Double.ofUnits_unitsOfBits hfinite]
    exact Double.zero_sub_ofUnits (Double.classify_word hfinite true)
      (Decimal.unitsOfBits_readAgain_ne_zero hbits hsign)

/-- A whole number comes back. Only the sign of a zero is lost. -/
theorem beq_of_whole (hbits : bits < infinityBits) (negative : Bool) (h : unitsOfBits bits % unitsPerOne = 0) :
    (Float.ofBits (.ofBitVec (word (hasMinus negative (unitsOfBits bits)) (readAgain bits))) ==
      .ofBits (.ofBitVec (word negative bits))) = true := by
  rw [Decimal.readAgain_of_whole hbits h]
  by_cases hminus : hasMinus negative (unitsOfBits bits) = negative
  · rw [hminus]
    exact Double.beq_self_of_classify (Double.classify_word hbits negative)
  · -- a minus is left out in front of zero only
    cases negative with
    | false => exact absurd rfl hminus
    | true =>
      have hplaces : inPlaces (unitsOfBits bits) = 0 := by simpa [hasMinus] using hminus
      have hzero : unitsOfBits bits = 0 := (Decimal.inPlaces_eq_zero_iff_of_whole h).mp hplaces
      rw [Bool.eq_false_of_not_eq_true hminus, ← Double.ofUnits_unitsOfBits hbits,
        ← Double.ofUnits_unitsOfBits hbits, hzero]
      exact Double.ofUnits_zero_beq

namespace Report

theorem clipboard?_of_classify {r : Report} (hr : r.outcome = .ok x)
    (hx : Double.classify x = .finite negative units) :
    r.clipboard? = some (String.ofList (Decimal.finiteText negative units)) := by
  rw [clipboard?, value?, hr, Except.toOption, Option.map_some, Decimal.clipboardText, hx]

theorem display_of_classify {r : Report} (hr : r.outcome = .ok x)
    (hx : Double.classify x = .finite negative units) :
    r.display = String.ofList (Decimal.groupedText (Decimal.finiteText negative units)) := by
  rw [display, hr]
  simp only [Decimal.displayText, hx]

/-- **A copied result is typed again**: its text has a value in either angle mode, which is displayed and copied
like the result, and is the result if that is a whole number. -/
theorem evaluate_clipboard (r : Report) (hr : r.outcome = .ok x)
    (hx : Double.classify x = .finite negative units) :
    ∃ text y, r.clipboard? = some text ∧ (∀ mode, evaluate mode text = .ok y) ∧
      (∀ r' : Report, r'.outcome = .ok y → r'.clipboard? = some text ∧ r'.display = r.display) ∧
      (units % unitsPerOne = 0 → (y == x) = true) := by
  obtain ⟨bits, hbits, rfl, rfl⟩ := Double.exists_word_of_classify hx
  have hy := Double.classify_word (Decimal.readAgain_lt hbits) (hasMinus negative (unitsOfBits bits))
  have hwhole := beq_of_whole hbits negative
  have hvalue := value_placesNumeral hbits negative
  generalize Float.ofBits (.ofBitVec (word (hasMinus negative (unitsOfBits bits)) (readAgain bits))) = y
    at hy hwhole hvalue
  have htext := Decimal.finiteText_readAgain hbits negative
  refine ⟨String.ofList (Decimal.finiteText negative (unitsOfBits bits)), y,
    clipboard?_of_classify hr hx, fun mode => ?_, fun r' hr' => ⟨?_, ?_⟩, hwhole⟩
  · rw [Decimal.finiteText_eq, evaluate_numeral mode (Decimal.wellFormed_placesNumeral _), hvalue]
  · rw [clipboard?_of_classify hr' hy, htext]
  · rw [display_of_classify hr' hy, display_of_classify hr hx, htext]

/-- A negative whole number that has a text of all its digits. -/
theorem evaluate_clipboard_negative :
    Double.classify (.ofBits 0xc3b0000000000000) = .finite true (2 ^ 60 * unitsPerOne) ∧
      ∃ y, (∀ mode, evaluate mode "-1152921504606846976" = .ok y) ∧
        (y == .ofBits 0xc3b0000000000000) = true := by
  have hx : Double.classify (.ofBits 0xc3b0000000000000) = .finite true (2 ^ 60 * unitsPerOne) := by
    decide +kernel
  obtain ⟨text, y, htext, hy, -, hwhole⟩ :=
    evaluate_clipboard ⟨"-2^60", .ok (.ofBits 0xc3b0000000000000)⟩ rfl hx
  have hdigits : Decimal.finiteText true (2 ^ 60 * unitsPerOne) = "-1152921504606846976".toList := by
    decide +kernel
  have hcopied : text = "-1152921504606846976" := by
    rw [clipboard?_of_classify rfl hx, hdigits, String.ofList_toList] at htext
    exact (Option.some.inj htext).symm
  subst hcopied
  exact ⟨hx, y, hy, hwhole (Nat.mul_mod_left _ _)⟩

end Report
end SciCalc
