/-
A numeral is found again at the front of a text (`split?_text_append`): what is taken from its own text,
with anything behind it that does not go on with the number, is all of the numeral and no more.
-/
import SciCalc.Decimal.Numeral

namespace SciCalc.Numeral

variable {cs ds rest : List Char}

/-- A power of ten that can be typed. -/
structure Exponent.WellFormed (e : Exponent) : Prop where
  sign : ∀ c ∈ e.sign, c = '+' ∨ c = '-'
  digits : ∀ c ∈ e.digits, c.isDigit = true
  ne_nil : e.digits ≠ []

/-- A numeral that can be typed: there is a digit before the point or after it. -/
structure WellFormed (n : Numeral) : Prop where
  whole : ∀ c ∈ n.whole, c.isDigit = true
  fraction : ∀ c ∈ n.fraction, c.isDigit = true
  ne_nil : n.whole ≠ [] ∨ n.fraction ≠ []
  exponent : ∀ e ∈ n.exponent, e.WellFormed

theorem wellFormed_of_whole {whole : List Char} (hwhole : ∀ c ∈ whole, c.isDigit = true)
    (hne : whole ≠ []) : WellFormed ⟨whole, [], none⟩ :=
  ⟨hwhole, List.forall_mem_nil _, .inl hne, by simp⟩

theorem wellFormed_of_fraction {whole fraction : List Char} (hwhole : ∀ c ∈ whole, c.isDigit = true)
    (hfraction : ∀ c ∈ fraction, c.isDigit = true) (hne : fraction ≠ []) :
    WellFormed ⟨whole, fraction, none⟩ :=
  ⟨hwhole, hfraction, .inr hne, by simp⟩

/-- Whether a text does not go on with the number in front of it. -/
def Ends (rest : List Char) : Prop := ∀ c ∈ rest.head?, c.isDigit = false ∧ c ≠ '.' ∧ c ≠ 'e'

/-! ## The parts of a numeral -/

theorem takeWhile_append_of_head {p : Char → Bool} (hds : ∀ c ∈ ds, p c = true)
    (hrest : ∀ c ∈ rest.head?, p c = false) :
    (ds ++ rest).takeWhile p = ds ∧ (ds ++ rest).dropWhile p = rest := by
  rw [List.takeWhile_append_of_pos hds, List.dropWhile_append_of_pos hds]
  cases rest with
  | nil => simp
  | cons c rest => simp [hrest c rfl]

theorem splitDigits_append_of_head (hds : ∀ c ∈ ds, c.isDigit = true)
    (hrest : ∀ c ∈ rest.head?, c.isDigit = false) : splitDigits (ds ++ rest) = (ds, rest) := by
  obtain ⟨htake, hdrop⟩ := takeWhile_append_of_head hds hrest
  rw [splitDigits, htake, hdrop]

theorem splitDigits_append_of_forall (hds : ∀ c ∈ ds, c.isDigit = true) :
    splitDigits (ds ++ rest) = (ds ++ (splitDigits rest).1, (splitDigits rest).2) := by
  rw [splitDigits, List.takeWhile_append_of_pos hds, List.dropWhile_append_of_pos hds]
  rfl

theorem splitSign_append_of_head {sign : Option Char} (hsign : ∀ c ∈ sign, c = '+' ∨ c = '-')
    (hrest : ∀ c ∈ rest.head?, c.isDigit = true) : splitSign (sign.toList ++ rest) = (sign, rest) := by
  cases sign with
  | some c => rcases hsign c rfl with rfl | rfl <;> rfl
  | none =>
    -- a digit is neither of the two signs
    rw [Option.toList_none, List.nil_append, splitSign]
    · rintro cs rfl
      exact absurd (hrest '+' rfl) (by decide)
    · rintro cs rfl
      exact absurd (hrest '-' rfl) (by decide)

theorem splitExponent_of_head (h : rest.head? ≠ some 'e') : splitExponent rest = (none, rest) := by
  rw [splitExponent]
  rintro cs rfl
  exact h rfl

theorem splitExponent_text_append {e : Exponent} (he : e.WellFormed) (rest : List Char) :
    splitExponent (e.text ++ rest) =
      (some ⟨e.sign, e.digits ++ (splitDigits rest).1⟩, (splitDigits rest).2) := by
  have hdigit : ∀ c ∈ (e.digits ++ rest).head?, c.isDigit = true := by
    obtain ⟨d, ds, heq⟩ := List.exists_cons_of_ne_nil he.ne_nil
    intro c hc
    rw [heq] at hc
    cases hc
    exact he.digits _ (heq ▸ List.mem_cons_self)
  have htext : e.text ++ rest = 'e' :: (e.sign.toList ++ (e.digits ++ rest)) := by simp [Exponent.text]
  rw [htext, splitExponent]
  simp [splitSign_append_of_head he.sign hdigit, splitDigits_append_of_forall he.digits, he.ne_nil]

theorem splitExponent_text_append_of_head {e : Exponent} (he : e.WellFormed)
    (hrest : ∀ c ∈ rest.head?, c.isDigit = false) :
    splitExponent (e.text ++ rest) = (some e, rest) := by
  have hnone : splitDigits ([] ++ rest) = ([], rest) := splitDigits_append_of_head nofun hrest
  rw [List.nil_append] at hnone
  rw [splitExponent_text_append he, hnone, List.append_nil]

theorem splitFraction_of_head (h : rest.head? ≠ some '.') : splitFraction rest = ([], rest) := by
  rw [splitFraction]
  rintro cs rfl
  exact h rfl

theorem splitFraction_append_of_head (hds : ∀ c ∈ ds, c.isDigit = true)
    (hrest : ∀ c ∈ rest.head?, c.isDigit = false ∧ c ≠ '.') :
    splitFraction ((if ds = [] then [] else '.' :: ds) ++ rest) = (ds, rest) := by
  by_cases hnil : ds = []
  · rw [if_pos hnil, List.nil_append, splitFraction_of_head fun h => (hrest '.' h).2 rfl, hnil]
  · rw [if_neg hnil, List.cons_append, splitFraction]
    simp only [splitDigits_append_of_head hds fun c hc => (hrest c hc).1, if_neg hnil]

/-! ## The whole -/

theorem split?_of_parts {whole fraction afterWhole afterFraction : List Char}
    (hwhole : splitDigits cs = (whole, afterWhole))
    (hfraction : splitFraction afterWhole = (fraction, afterFraction))
    (hne : whole ≠ [] ∨ fraction ≠ []) :
    split? cs = some (⟨whole, fraction, (splitExponent afterFraction).1⟩,
      (splitExponent afterFraction).2) := by
  have hnot : ¬(whole = [] ∧ fraction = []) := fun hnil => hne.elim (· hnil.1) (· hnil.2)
  simp only [split?, hwhole, hfraction, if_neg hnot]

theorem split?_digits_append {whole fraction : List Char} (hwhole : ∀ c ∈ whole, c.isDigit = true)
    (hfraction : ∀ c ∈ fraction, c.isDigit = true) (hne : whole ≠ [] ∨ fraction ≠ [])
    (hrest : ∀ c ∈ rest.head?, c.isDigit = false ∧ c ≠ '.') :
    split? (whole ++ (if fraction = [] then [] else '.' :: fraction) ++ rest) =
      some (⟨whole, fraction, (splitExponent rest).1⟩, (splitExponent rest).2) := by
  have hpoint : ∀ c ∈ ((if fraction = [] then [] else '.' :: fraction) ++ rest).head?,
      c.isDigit = false := by
    intro c hc
    by_cases hnil : fraction = []
    · rw [if_pos hnil] at hc
      exact (hrest c hc).1
    · rw [if_neg hnil] at hc
      cases hc
      decide
  rw [List.append_assoc]
  exact split?_of_parts (splitDigits_append_of_head hwhole hpoint)
    (splitFraction_append_of_head hfraction hrest) hne

/-- **A numeral is found again** at the front of its own text. -/
theorem split?_text_append {n : Numeral} (hn : n.WellFormed) (hrest : Ends rest) :
    split? (n.text ++ rest) = some (n, rest) := by
  have hexponent : ∀ c ∈ (n.exponent.elim [] Exponent.text ++ rest).head?,
      c.isDigit = false ∧ c ≠ '.' := by
    intro c hc
    cases he : n.exponent with
    | none =>
      rw [he] at hc
      exact ⟨(hrest c hc).1, (hrest c hc).2.1⟩
    | some e =>
      rw [he] at hc
      cases hc
      decide
  have hsplit : splitExponent (n.exponent.elim [] Exponent.text ++ rest) = (n.exponent, rest) := by
    cases he : n.exponent with
    | none => exact splitExponent_of_head fun h => (hrest 'e' h).2.2 rfl
    | some e => exact splitExponent_text_append_of_head (hn.exponent e he) fun c hc => (hrest c hc).1
  rw [text, List.append_assoc, split?_digits_append hn.whole hn.fraction hn.ne_nil hexponent, hsplit]

theorem split?_of_head {c : Char} (hdigit : c.isDigit = false) (hpoint : c ≠ '.') :
    split? (c :: cs) = none := by
  have hwhole : splitDigits (c :: cs) = ([], c :: cs) := by simp [splitDigits, hdigit]
  have hfraction : splitFraction (c :: cs) = ([], c :: cs) :=
    splitFraction_of_head fun h => hpoint (Option.some.inj h)
  rw [split?]
  simp only [hwhole, hfraction, and_self, if_true]

theorem isDigit_or_of_mem_text {n : Numeral} (hn : n.WellFormed) {c : Char} (hc : c ∈ n.text) :
    c.isDigit = true ∨ c ∈ ['.', 'e', '+', '-'] := by
  rw [text, List.mem_append, List.mem_append] at hc
  rcases hc with (hwhole | hpoint) | hexponent
  · exact .inl (hn.whole c hwhole)
  · by_cases hnil : n.fraction = []
    · simp [hnil] at hpoint
    · rw [if_neg hnil, List.mem_cons] at hpoint
      rcases hpoint with rfl | hfraction
      · exact .inr (by decide)
      · exact .inl (hn.fraction c hfraction)
  · cases he : n.exponent with
    | none => simp [he] at hexponent
    | some e =>
      have hwf := hn.exponent e he
      simp only [he, Option.elim_some, Exponent.text, List.mem_cons, List.mem_append,
        Option.mem_toList] at hexponent
      rcases hexponent with rfl | hsign | hdigits
      · exact .inr (by decide)
      · rcases hwf.sign c hsign with rfl | rfl <;> exact .inr (by decide)
      · exact .inl (hwf.digits c hdigits)

theorem toNat_mem_text {n : Numeral} (hn : n.WellFormed) {c : Char} (hc : c ∈ n.text) :
    '+'.toNat ≤ c.toNat ∧ c.toNat ≤ 'e'.toNat := by
  rcases isDigit_or_of_mem_text hn hc with hdigit | hother
  · obtain ⟨hlow, hhigh⟩ := Char.isDigit_iff_toNat.mp hdigit
    exact ⟨Nat.le_trans (by decide) hlow, Nat.le_trans hhigh (by decide)⟩
  · have hall : ['.', 'e', '+', '-'].all (fun d => '+'.toNat ≤ d.toNat && d.toNat ≤ 'e'.toNat) = true := rfl
    simpa using List.all_eq_true.mp hall c hother

end SciCalc.Numeral
