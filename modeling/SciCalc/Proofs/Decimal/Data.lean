/-
The text of a finite double as data is read as the double again, sign and all (`exists_numeral_dataText`). Both of
its forms are a numeral's: the digits in their places (`exists_numeral_positional`), and one digit before the point
with a power of ten (`exists_numeral_scientific`). There are digits before the point, without a superfluous zero.
-/
import SciCalc.Proofs.Decimal.Canonical

namespace SciCalc

open Decimal (zeros)

variable {ds : List Char} {m : Numeral} {n : Nat}

/-- There are digits in front of the point, with no superfluous zero. -/
structure Numeral.Unpadded (m : Numeral) : Prop where
  whole_ne_nil : m.whole ≠ []
  whole_head : m.whole.head? = some '0' → m.whole = ['0']

theorem Numeral.unpadded_of_head (hzero : ds.head? ≠ some '0')
    (h : m.whole = ['0'] ∨ m.whole ≠ [] ∧ m.whole.head? = ds.head?) : m.Unpadded := by
  rcases h with h | ⟨hne, hhead⟩
  · exact ⟨by rw [h]; exact List.cons_ne_nil _ _, fun _ => h⟩
  · exact ⟨hne, fun h => absurd (hhead.symm.trans h) hzero⟩

namespace Decimal

theorem head?_significant_ne_zero (h : n ≠ 0) : (significant n).1.head? ≠ some '0' := by
  intro hhead
  obtain ⟨ds, hds⟩ := List.head?_eq_some_iff.mp hhead
  have htext := natText_eq_significant n
  rw [hds, List.cons_append] at htext
  have hall : natText n = ['0'] := natText_head (by rw [htext]; rfl)
  refine h ?_
  rw [← natOfText_natText n, hall]
  rfl

/-- **One digit before the point** and a power of ten are the text of a numeral. -/
theorem exists_numeral_scientific (hne : ds ≠ []) (hds : ∀ c ∈ ds, c.isDigit = true) (power : Int) :
    ∃ m : Numeral, m.WellFormed ∧ m.text = scientificText ds power ∧
      (m.whole ≠ [] ∧ m.whole.head? = ds.head?) ∧
      m.toDouble = (⟨natOfText ds, power + 1 - ds.length⟩ : Decimal).toDouble := by
  obtain ⟨sign, hsign⟩ : ∃ sign, sign = if power < 0 then '-' else '+' := ⟨_, rfl⟩
  have hdigits : ∀ c ∈ natText power.natAbs, c.isDigit = true := fun c hc => isDigit_of_mem_natText hc
  have hexponent : Numeral.Exponent.WellFormed ⟨some sign, natText power.natAbs⟩ := by
    refine ⟨fun c hc => ?_, hdigits, natText_ne_nil _⟩
    obtain rfl : sign = c := Option.some_inj.mp hc
    rw [hsign]
    split
    · exact .inr rfl
    · exact .inl rfl
  obtain ⟨d, es, rfl⟩ := List.exists_cons_of_ne_nil hne
  have htake : ∀ c ∈ [d], c.isDigit = true := fun c hc => hds c (List.mem_singleton.mp hc ▸ List.mem_cons_self)
  have hdrop : ∀ c ∈ es, c.isDigit = true := fun c hc => hds c (List.mem_cons_of_mem _ hc)
  refine ⟨⟨[d], es, some ⟨some sign, natText power.natAbs⟩⟩, ⟨htake, hdrop, .inl (List.cons_ne_nil _ _), ?_⟩, ?_,
    ⟨List.cons_ne_nil _ _, rfl⟩, ?_⟩
  · rintro e he
    obtain rfl := Option.some_inj.mp he
    exact hexponent
  · rw [hsign]
    rfl
  · have hvalue : Numeral.Exponent.value ⟨some sign, natText power.natAbs⟩ = power := by
      rw [Numeral.Exponent.value, natOfText_natText, hsign]
      by_cases hneg : power < 0
      · rw [if_pos hneg, if_pos rfl]
        omega
      · have hplus : some '+' ≠ some '-' := by decide
        rw [if_neg hneg, if_neg hplus]
        omega
    have hpower : power - es.length = power + 1 - (d :: es).length := by
      rw [List.length_cons]
      omega
    rw [Numeral.toDouble, Numeral.toDecimal, Option.elim_some, hvalue, hpower]
    rfl

theorem exists_numeral_data (d : Decimal) :
    ∃ m : Numeral, m.WellFormed ∧ m.Unpadded ∧ m.text = Style.data.text d ∧ m.toDouble = d.toDouble := by
  by_cases hzero : d.digits = 0
  · have hdigits : ∀ c ∈ ['0'], c.isDigit = true := List.all_eq_true.mp rfl
    refine ⟨⟨['0'], ['0'], none⟩, ⟨hdigits, hdigits, .inl (List.cons_ne_nil _ _), nofun⟩,
      ⟨List.cons_ne_nil _ _, fun _ => rfl⟩, ?_, ?_⟩
    · rw [Style.text, if_pos hzero]
      rfl
    · rw [Numeral.toDouble, toDouble, toDouble, if_pos hzero, if_pos (by decide)]
  · have hne := significant_ne_nil hzero
    have hhead := head?_significant_ne_zero hzero
    have hds : ∀ c ∈ (significant d.digits).1, c.isDigit = true := fun c hc => isDigit_of_mem_significant hc
    obtain ⟨point, hpoint⟩ :
        ∃ point : Int, point = (significant d.digits).1.length + (significant d.digits).2 + d.exponent := ⟨_, rfl⟩
    have hdouble : (⟨natOfText (significant d.digits).1, point - (significant d.digits).1.length⟩ : Decimal).toDouble =
        d.toDouble := by
      have hpower : point - (significant d.digits).1.length = d.exponent + (significant d.digits).2 := by omega
      rw [hpower, ← toDouble_shift, natOfText_significant]
    rw [Style.text, if_neg hzero]
    by_cases hpositional : Style.data.positional (point - 1) = true
    · obtain ⟨m, hm, htext, hwhole, hm'⟩ := exists_numeral_positional hne hds point 1
      refine ⟨m, hm, Numeral.unpadded_of_head hhead hwhole, ?_, hm'.trans hdouble⟩
      simp only [← hpoint, if_pos hpositional]
      exact htext
    · obtain ⟨m, hm, htext, hwhole, hm'⟩ := exists_numeral_scientific hne hds (point - 1)
      rw [Int.sub_add_cancel] at hm'
      refine ⟨m, hm, Numeral.unpadded_of_head hhead (.inr hwhole), ?_, hm'.trans hdouble⟩
      simp only [← hpoint, if_neg hpositional]
      exact htext

/-- **The text of a finite double as data** is a numeral's, with a minus in front if it is negative, and is read as the
double again. -/
theorem exists_numeral_dataText {x : Float} {negative : Bool} {units : Nat}
    (hx : Double.classify x = .finite negative units) :
    ∃ m : Numeral, m.WellFormed ∧ m.Unpadded ∧
      dataText? x = some ((if negative then ['-'] else []) ++ m.text) ∧ m.toDouble = Double.ofUnits false units := by
  obtain ⟨m, hm, hunpadded, htext, hdouble⟩ := exists_numeral_data (shortest Style.data.tie units)
  refine ⟨m, hm, hunpadded, ?_, hdouble.trans (toDouble_shortest _ _)⟩
  simp only [dataText?, hx, Style.signedText, htext]

end Decimal
end SciCalc
