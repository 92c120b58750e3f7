/-
The plain text of a finite double is read as the double again (`exists_numeral_plainText`). Its digits, in
their places and filled up with zeros, are the text of a numeral with the value of the decimal that they
were taken from (`exists_numeral_text`), with a minus in front if the double is negative.
-/
import Mathlib.Data.List.TakeWhile
import SciCalc.Decimal.Layout
import SciCalc.Decimal.Places
import SciCalc.Proofs.Decimal.Value
import SciCalc.Proofs.Token.Numeral

namespace SciCalc.Decimal

open Numeral (wellFormed_of_whole wellFormed_of_fraction)

variable {cs ds : List Char} {d : Decimal} {n k : Nat}

/-! ## Digits -/

theorem natOfText_append (cs ds : List Char) :
    natOfText (cs ++ ds) = natOfText cs * 10 ^ ds.length + natOfText ds := by
  rw [natOfText, Nat.ofDigitChars_append, Nat.ofDigitChars_eq_ofDigitChars_zero, Nat.mul_comm]
  rfl

theorem natOfText_zeros (k : Nat) : natOfText (zeros k) = 0 := by
  rw [natOfText, zeros, Nat.ofDigitChars_replicate_zero, Nat.mul_zero]

theorem natOfText_zeros_append (k : Nat) (ds : List Char) : natOfText (zeros k ++ ds) = natOfText ds := by
  rw [natOfText_append, natOfText_zeros, Nat.zero_mul, Nat.zero_add]

theorem natOfText_append_zeros (ds : List Char) (k : Nat) :
    natOfText (ds ++ zeros k) = natOfText ds * 10 ^ k := by
  rw [natOfText_append, natOfText_zeros, Nat.add_zero, zeros, List.length_replicate]

theorem isDigit_of_mem_zeros {c : Char} (h : c ∈ zeros k) : c.isDigit = true := by
  rw [List.eq_of_mem_replicate h]
  rfl

theorem isDigit_of_mem_natText {c : Char} (h : c ∈ natText n) : c.isDigit = true :=
  Nat.isDigit_of_mem_toDigits (by decide) (by decide) h

theorem eq_dropLast_append (c : Char) (cs : List Char) :
    cs = dropLast c cs ++ List.replicate (cs.reverse.takeWhile (· = c)).length c := by
  have hend : (cs.reverse.takeWhile (· = c)).reverse =
      List.replicate (cs.reverse.takeWhile (· = c)).length c := by
    refine List.eq_replicate_iff.mpr ⟨List.length_reverse, fun d hd => ?_⟩
    have hmem := List.mem_takeWhile_imp (List.mem_reverse.mp hd)
    exact of_decide_eq_true hmem
  rw [dropLast, ← hend, ← List.reverse_append, List.takeWhile_append_dropWhile, List.reverse_reverse]

theorem natText_eq_significant (n : Nat) :
    natText n = (significant n).1 ++ zeros (significant n).2 := eq_dropLast_append '0' (natText n)

theorem natOfText_significant (n : Nat) :
    natOfText (significant n).1 * 10 ^ (significant n).2 = n := by
  rw [← natOfText_append_zeros, ← natText_eq_significant, natOfText_natText]

theorem isDigit_of_mem_significant {c : Char} (h : c ∈ (significant n).1) : c.isDigit = true := by
  have hmem : c ∈ natText n := by
    rw [natText_eq_significant]
    exact List.mem_append_left _ h
  exact isDigit_of_mem_natText hmem

theorem significant_ne_nil (h : n ≠ 0) : (significant n).1 ≠ [] := by
  intro hnil
  have hvalue := natOfText_significant n
  rw [hnil] at hvalue
  exact h (by rw [← hvalue, natOfText, Nat.ofDigitChars_nil, Nat.zero_mul])

/-! ## Places -/

/-- So many zeros behind a point. Without any there is no point. -/
def zeroTail (k : Nat) : List Char := if zeros k = [] then [] else '.' :: zeros k

/-- **Digits in their places** are the text of a numeral, whichever side of the point they stand, with zeros behind
the point of a whole number or none. In front of the point there is a zero alone, or the first of the digits. -/
theorem exists_numeral_positional (hne : ds ≠ []) (hds : ∀ c ∈ ds, c.isDigit = true) (point : Int) (k : Nat) :
    ∃ m : Numeral, m.WellFormed ∧ m.text = positionalText (zeroTail k) ds point ∧
      (m.whole = ['0'] ∨ m.whole ≠ [] ∧ m.whole.head? = ds.head?) ∧
      m.toDouble = (⟨natOfText ds, point - ds.length⟩ : Decimal).toDouble := by
  obtain ⟨d, es, hcons⟩ := List.exists_cons_of_ne_nil hne
  by_cases hfront : point ≤ 0
  · have hdigits : ∀ c ∈ zeros (-point).toNat ++ ds, c.isDigit = true := by
      intro c hc
      exact (List.mem_append.mp hc).elim isDigit_of_mem_zeros (hds c)
    have hfraction : zeros (-point).toNat ++ ds ≠ [] := List.append_ne_nil_of_right_ne_nil _ hne
    have hzero : ∀ c ∈ ['0'], c.isDigit = true := List.all_eq_true.mp rfl
    refine ⟨⟨['0'], zeros (-point).toNat ++ ds, none⟩, wellFormed_of_fraction hzero hdigits hfraction, ?_, .inl rfl, ?_⟩
    · simp [Numeral.text, positionalText, hfront, hne]
    · have hvalue : natOfText (['0'] ++ (zeros (-point).toNat ++ ds)) = natOfText ds :=
        natOfText_zeros_append ((-point).toNat + 1) ds
      have hlength : ((zeros (-point).toNat ++ ds).length : Int) = ds.length - point := by
        rw [List.length_append, zeros, List.length_replicate]
        omega
      simp only [Numeral.toDouble, Numeral.toDecimal, hvalue, hlength, Option.elim_none]
      congr 2
      omega
  · by_cases hinside : point < ds.length
    · have htake : ∀ c ∈ ds.take point.toNat, c.isDigit = true := fun c hc => hds c (List.mem_of_mem_take hc)
      have hdrop : ∀ c ∈ ds.drop point.toNat, c.isDigit = true := fun c hc => hds c (List.mem_of_mem_drop hc)
      have hfraction : ds.drop point.toNat ≠ [] := by
        rw [Ne, List.drop_eq_nil_iff]
        omega
      have hwhole : ds.take point.toNat ≠ [] ∧ (ds.take point.toNat).head? = ds.head? := by
        obtain ⟨n, hn⟩ : ∃ n, point.toNat = n + 1 := ⟨point.toNat - 1, by omega⟩
        rw [hn, hcons]
        exact ⟨List.cons_ne_nil _ _, rfl⟩
      refine ⟨⟨ds.take point.toNat, ds.drop point.toNat, none⟩, wellFormed_of_fraction htake hdrop hfraction, ?_,
        .inr hwhole, ?_⟩
      · rw [positionalText, if_neg hfront, if_pos hinside, Numeral.text, if_neg hfraction]
        simp
      · have hlength : ((ds.drop point.toNat).length : Int) = ds.length - point := by
          rw [List.length_drop]
          omega
        simp only [Numeral.toDouble, Numeral.toDecimal, List.take_append_drop, hlength, Option.elim_none]
        congr 2
        omega
    · obtain ⟨j, hj⟩ : ∃ j : Nat, point - ds.length = j := ⟨(point - ds.length).toNat, by omega⟩
      have hdigits : ∀ c ∈ ds ++ zeros j, c.isDigit = true := by
        intro c hc
        exact (List.mem_append.mp hc).elim (hds c) isDigit_of_mem_zeros
      have hwhole : ds ++ zeros j ≠ [] := List.append_ne_nil_of_left_ne_nil hne _
      have hhead : (ds ++ zeros j).head? = ds.head? := by
        rw [hcons]
        rfl
      have hm : Numeral.WellFormed ⟨ds ++ zeros j, zeros k, none⟩ :=
        ⟨hdigits, fun c hc => isDigit_of_mem_zeros hc, .inl hwhole, by simp⟩
      refine ⟨_, hm, ?_, .inr ⟨hwhole, hhead⟩, ?_⟩
      · rw [positionalText, if_neg hfront, if_neg hinside, hj, Int.toNat_natCast, Numeral.text, zeroTail,
          Option.elim_none, List.append_nil]
      · have hpower : (0 : Int) - k + (j + k : Nat) = j := by omega
        have hdecimal : Numeral.toDecimal ⟨ds ++ zeros j, zeros k, none⟩ = ⟨natOfText ds * 10 ^ (j + k), 0 - k⟩ := by
          have hzeros : (zeros k).length = k := List.length_replicate
          simp only [Numeral.toDecimal, natOfText_append_zeros, Nat.mul_assoc, ← Nat.pow_add, hzeros, Option.elim_none]
        rw [Numeral.toDouble, hdecimal, toDouble_shift, hpower, hj]

theorem exists_numeral_text (d : Decimal) :
    ∃ m : Numeral, m.WellFormed ∧ m.text = Style.plain.text d ∧ m.toDouble = d.toDouble := by
  by_cases hzero : d.digits = 0
  · have hone : ∀ c ∈ ['0'], c.isDigit = true := List.all_eq_true.mp rfl
    refine ⟨⟨['0'], [], none⟩, wellFormed_of_whole hone (List.cons_ne_nil _ _), ?_, ?_⟩
    · rw [Style.text, if_pos hzero]
      rfl
    · rw [Numeral.toDouble, toDouble, toDouble, if_pos hzero, if_pos (by decide)]
  · obtain ⟨m, hm, htext, -, hdouble⟩ := exists_numeral_positional (significant_ne_nil hzero)
      (fun c hc => isDigit_of_mem_significant hc)
      ((significant d.digits).1.length + (significant d.digits).2 + d.exponent) 0
    refine ⟨m, hm, ?_, ?_⟩
    · rw [htext, Style.text, if_neg hzero]
      rfl
    · have hpower : ((significant d.digits).1.length + (significant d.digits).2 + d.exponent : Int) -
          (significant d.digits).1.length = d.exponent + (significant d.digits).2 := by omega
      rw [hdouble, hpower, ← toDouble_shift, natOfText_significant]

/-! ## Doubles -/

/-- **The plain text of a finite double** is a numeral's, with a minus in front if it is negative, and is
read as the double again. -/
theorem exists_numeral_plainText {x : Float} {negative : Bool} {units : Nat}
    (hx : Double.classify x = .finite negative units) :
    ∃ m : Numeral, m.WellFormed ∧ plainText x = (if negative then ['-'] else []) ++ m.text ∧
      m.toDouble = Double.ofUnits false units := by
  obtain ⟨m, hm, htext, hdouble⟩ := exists_numeral_text (shortest Style.plain.tie units)
  refine ⟨m, hm, ?_, hdouble.trans (toDouble_shortest _ _)⟩
  simp only [plainText, hx, Style.signedText, htext]

end SciCalc.Decimal
