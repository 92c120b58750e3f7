/-
The double that a whole text is read as. More texts are numbers here than the scan takes: a sign may stand
in front, a point may be the last thing before the power of ten, the `e` may be a capital, and infinity
and what is no number have names, in any case. Of a numeral's text it is the numeral's own double
(`doubleOfText?_numeral`).
-/
import SciCalc.Proofs.Token.Numeral
import SciCalc.Text.Ascii

namespace SciCalc.Decimal

/-- The natural that a text of digits alone stands for. There must be one. -/
def digits? (cs : List Char) : Option Nat :=
  if cs ≠ [] ∧ cs.all Char.isDigit then some (natOfText cs) else none

/-- The power of ten that the end of a number stands for. -/
def power? : List Char → Option Int
  | [] => some 0
  | c :: cs =>
    if c = 'e' ∨ c = 'E' then
      match cs with
      | '-' :: ds => (digits? ds).map fun k => -(k : Int)
      | '+' :: ds => (digits? ds).map fun k => (k : Int)
      | ds => (digits? ds).map fun k => (k : Int)
    else none

/-- The decimal that a text without a sign stands for. -/
def ofText? (cs : List Char) : Option Decimal :=
  let whole := cs.takeWhile Char.isDigit
  let afterWhole := cs.dropWhile Char.isDigit
  let (fraction, rest) := match afterWhole with
    | '.' :: ds => (ds.takeWhile Char.isDigit, ds.dropWhile Char.isDigit)
    | ds => ([], ds)
  if whole = [] ∧ fraction = [] then none
  else (power? rest).map fun k => ⟨natOfText (whole ++ fraction), k - fraction.length⟩

/-- The double that a text without a sign stands for. -/
def unsignedOfText? (cs : List Char) : Option Float :=
  if Text.sameLetters cs "nan".toList then some Double.nan
  else if Text.sameLetters cs "inf".toList || Text.sameLetters cs "infinity".toList then
    some Double.infinity
  else (ofText? cs).map toDouble

/-- The double that a text stands for. -/
def doubleOfText? : List Char → Option Float
  | '-' :: cs => (unsignedOfText? cs).map (- ·)
  | '+' :: cs => unsignedOfText? cs
  | cs => unsignedOfText? cs

/-! ## Numerals -/

variable {n : Numeral}

theorem digits?_of_forall {cs : List Char} (hne : cs ≠ []) (h : ∀ c ∈ cs, c.isDigit = true) :
    digits? cs = some (natOfText cs) :=
  if_pos ⟨hne, List.all_eq_true.mpr h⟩

theorem power?_text {e : Numeral.Exponent} (he : e.WellFormed) : power? e.text = some e.value := by
  obtain ⟨sign, digits⟩ := e
  have hdigits : digits? digits = some (natOfText digits) := digits?_of_forall he.ne_nil he.digits
  match sign with
  | some c =>
    rcases he.sign c rfl with rfl | rfl
    · simp [power?, Numeral.Exponent.text, Numeral.Exponent.value, hdigits]
    · simp [power?, Numeral.Exponent.text, Numeral.Exponent.value, hdigits]
  | none =>
    obtain ⟨d, ds, rfl⟩ := List.exists_cons_of_ne_nil he.ne_nil
    have hd : d.isDigit = true := he.digits d List.mem_cons_self
    have hminus : d ≠ '-' := by rintro rfl; cases hd
    have hplus : d ≠ '+' := by rintro rfl; cases hd
    simp [power?, Numeral.Exponent.text, Numeral.Exponent.value, hdigits, hminus, hplus]

theorem head?_exponent (e : Option Numeral.Exponent) :
    ∀ c ∈ (e.elim [] Numeral.Exponent.text).head?, c.isDigit = false ∧ c ≠ '.' := by
  cases e with
  | none => exact fun c hc => by cases hc
  | some e =>
    intro c hc
    cases hc
    decide

theorem ofText?_numeral (hn : n.WellFormed) : ofText? n.text = some n.toDecimal := by
  have hpower : power? (n.exponent.elim [] Numeral.Exponent.text) =
      some (n.exponent.elim 0 Numeral.Exponent.value) := by
    cases he : n.exponent with
    | none => rfl
    | some e => exact power?_text (hn.exponent e he)
  have hexponent := head?_exponent n.exponent
  by_cases hfraction : n.fraction = []
  · have hne : n.whole ≠ [] := hn.ne_nil.resolve_right (not_not_intro hfraction)
    have htext : n.text = n.whole ++ n.exponent.elim [] Numeral.Exponent.text := by
      simp [Numeral.text, hfraction]
    obtain ⟨htake, hdrop⟩ := Numeral.takeWhile_append_of_head hn.whole fun c hc => (hexponent c hc).1
    rw [ofText?, htext]
    simp only [htake, hdrop]
    split
    · next ds heq => exact absurd rfl (hexponent '.' (by rw [heq]; rfl)).2
    · simp [hne, hpower, Numeral.toDecimal, hfraction]
  · have htext : n.text = n.whole ++ '.' :: (n.fraction ++ n.exponent.elim [] Numeral.Exponent.text) := by
      simp [Numeral.text, hfraction]
    have hpoint : ∀ c ∈ ('.' :: (n.fraction ++ n.exponent.elim [] Numeral.Exponent.text)).head?,
        c.isDigit = false := by
      intro c hc
      cases hc
      rfl
    obtain ⟨htake, hdrop⟩ := Numeral.takeWhile_append_of_head hn.whole hpoint
    obtain ⟨htake', hdrop'⟩ := Numeral.takeWhile_append_of_head hn.fraction fun c hc => (hexponent c hc).1
    rw [ofText?, htext]
    simp [htake, hdrop, htake', hdrop', hfraction, hpower, Numeral.toDecimal]

/-- The text of a numeral begins with a digit or a point, and so with no sign and no name. -/
theorem exists_text_eq_cons (hn : n.WellFormed) :
    ∃ c cs, n.text = c :: cs ∧ (c.isDigit = true ∨ c = '.') := by
  by_cases hwhole : n.whole = []
  · have hfraction : n.fraction ≠ [] := hn.ne_nil.resolve_left (not_not_intro hwhole)
    exact ⟨'.', _, by simp [Numeral.text, hwhole, hfraction]; rfl, .inr rfl⟩
  · obtain ⟨c, cs, heq⟩ := List.exists_cons_of_ne_nil hwhole
    exact ⟨c, _, by simp [Numeral.text, heq]; rfl, .inl (hn.whole c (heq ▸ List.mem_cons_self))⟩

theorem toLower_of_isDigit {c : Char} (h : c.isDigit = true) : c.toLower = c := by
  obtain ⟨-, hhigh⟩ := Char.isDigit_iff_toNat.mp h
  have hcapital : ¬ (c.val ≥ 'A'.val ∧ c.val ≤ 'Z'.val) := by
    rintro ⟨hlow, -⟩
    rw [ge_iff_le, UInt32.le_iff_toNat_le] at hlow
    exact absurd (Nat.le_trans hlow hhigh) (by decide)
  exact dif_neg hcapital

/-- **A numeral's text** is read as the numeral's double. -/
theorem doubleOfText?_numeral (hn : n.WellFormed) : doubleOfText? n.text = some n.toDouble := by
  have hnumber := ofText?_numeral hn
  obtain ⟨c, cs, htext, hc⟩ := exists_text_eq_cons hn
  have hlower : c.toLower = c := by
    rcases hc with hdigit | rfl
    · exact toLower_of_isDigit hdigit
    · rfl
  have hne : ∀ d : Char, d.isDigit = false → d ≠ '.' → c ≠ d := by
    rintro d hdigit hpoint rfl
    exact hc.elim (fun h => by rw [h] at hdigit; cases hdigit) hpoint
  rw [htext] at hnumber ⊢
  have hunsigned : unsignedOfText? (c :: cs) = some n.toDouble := by
    have hnan : c ≠ 'n' := hne 'n' rfl (by decide)
    have hinfinity : c ≠ 'i' := hne 'i' rfl (by decide)
    simp [unsignedOfText?, hnumber, Numeral.toDouble, Text.sameLetters, Text.lowerCase, hlower, hnan,
      hinfinity]
  rw [doubleOfText?, hunsigned]
  · rintro ds ⟨⟩
    exact hne '-' rfl (by decide) rfl
  · rintro ds ⟨⟩
    exact hne '+' rfl (by decide) rfl

end SciCalc.Decimal
