/-
What the scan takes at a place of the text, by the character it begins with. Words, which are numbers and
names, go on as long as they can, so that they are found again in front of a text that does not go on
with them (`EndsWord`): white space, a sign, or the end. A sign is found in front of anything.
-/
import Mathlib.Data.List.TakeWhile
import SciCalc.Proofs.Token.Numeral
import SciCalc.Token.Scan

namespace SciCalc.Token

variable {t : Token} {c : Char} {cs blank lexeme rest : List Char} {offset : Nat}

/-! ## Kinds of characters -/

/-- The characters that are tokens by themselves. -/
def signs : List Char := ['(', ')', ',', '!', '+', '-', '*', '/', '%', '^']

theorem mem_signs_of_ofSymbol? (h : ofSymbol? c = some t) : c ∈ signs := by
  unfold ofSymbol? Operator.ofSymbol? at h
  split at h
  case h_5 =>
    split at h
    case h_7 => cases h
    all_goals decide
  all_goals decide

theorem not_word_of_mem_signs (h : c ∈ signs) : continuesName c = false ∧ c ≠ '.' := by
  have hall : signs.all (fun d => !continuesName d && d != '.') = true := by decide
  simpa using List.all_eq_true.mp hall c h

theorem isBlank_eq_false_of_mem_signs (h : c ∈ signs) : Text.isBlank c = false := by
  have hall : signs.all (fun d => !Text.isBlank d) = true := by decide
  simpa using List.all_eq_true.mp hall c h

theorem toNat_of_isAlpha (h : c.isAlpha = true) : 'A'.toNat ≤ c.toNat ∧ c.toNat ≤ 'z'.toNat := by
  rcases (Bool.or_eq_true _ _).mp h with hupper | hlower
  · obtain ⟨hlow, hhigh⟩ : 'A'.val ≤ c.val ∧ c.val ≤ 'Z'.val := of_decide_eq_true hupper
    rw [UInt32.le_iff_toNat_le] at hlow hhigh
    exact ⟨hlow, Nat.le_trans hhigh (by decide)⟩
  · obtain ⟨hlow, hhigh⟩ := (Bool.and_eq_true _ _).mp hlower
    have hlow' : 'a'.val ≤ c.val := of_decide_eq_true hlow
    have hhigh' : c.val ≤ 'z'.val := of_decide_eq_true hhigh
    rw [UInt32.le_iff_toNat_le] at hlow' hhigh'
    exact ⟨Nat.le_trans (by decide) hlow', hhigh'⟩

theorem toNat_of_continuesName (h : continuesName c = true) :
    '0'.toNat ≤ c.toNat ∧ c.toNat ≤ 'z'.toNat := by
  simp only [continuesName, Char.isAlphanum, Bool.or_eq_true, beq_iff_eq] at h
  rcases h with (hletter | hdigit) | rfl
  · obtain ⟨hlow, hhigh⟩ := toNat_of_isAlpha hletter
    exact ⟨Nat.le_trans (by decide) hlow, hhigh⟩
  · obtain ⟨hlow, hhigh⟩ := Char.isDigit_iff_toNat.mp hdigit
    exact ⟨hlow, Nat.le_trans hhigh (by decide)⟩
  · decide

theorem continuesName_of_isDigit (h : c.isDigit = true) : continuesName c = true := by
  simp [continuesName, Char.isAlphanum, h]

theorem continuesName_of_startsName (h : startsName c = true) : continuesName c = true := by
  simp only [startsName, continuesName, Char.isAlphanum, Bool.or_eq_true] at h ⊢
  exact h.imp_left Or.inl

theorem not_number_of_startsName (h : startsName c = true) : c.isDigit = false ∧ c ≠ '.' := by
  have hlow : 'A'.toNat ≤ c.toNat := by
    simp only [startsName, Bool.or_eq_true, beq_iff_eq] at h
    rcases h with hletter | rfl
    · exact (toNat_of_isAlpha hletter).1
    · decide
  refine ⟨Bool.eq_false_iff.mpr fun hdigit => ?_, ?_⟩
  · exact absurd (Nat.le_trans hlow (Char.isDigit_iff_toNat.mp hdigit).2) (by decide)
  · rintro rfl
    exact absurd hlow (by decide)

theorem isBlank_eq_false_of_ascii (hlow : ' '.toNat < c.toNat) (hhigh : c.toNat < 0x80) :
    Text.isBlank c = false := by
  have hspace : ' '.toNat = 0x20 := rfl
  refine Bool.eq_false_iff.mpr fun h => ?_
  obtain ⟨range, hmem, hle, hge⟩ := Text.inRanges_iff.mp h
  have hranges : ∀ range ∈ Text.blankRanges, range.2 ≤ 0x20 ∨ 0x80 ≤ range.1 := by decide
  rcases hranges range hmem with hr | hr <;> omega

theorem not_word_of_isBlank (h : Text.isBlank c = true) : continuesName c = false ∧ c ≠ '.' := by
  refine ⟨Bool.eq_false_iff.mpr fun hname => ?_, ?_⟩
  · obtain ⟨hlow, hhigh⟩ := toNat_of_continuesName hname
    rw [isBlank_eq_false_of_ascii (Nat.lt_of_lt_of_le (by decide) hlow)
      (Nat.lt_of_le_of_lt hhigh (by decide))] at h
    cases h
  · rintro rfl
    exact absurd h (by decide)

theorem split?_of_not_word (h : continuesName c = false ∧ c ≠ '.') :
    split? (c :: cs) = (ofSymbol? c).map fun t => (t, [c], cs) := by
  have hdigit : c.isDigit = false :=
    Bool.eq_false_iff.mpr fun hd => Bool.eq_false_iff.mp h.1 (continuesName_of_isDigit hd)
  have hname : startsName c = false :=
    Bool.eq_false_iff.mpr fun hs => Bool.eq_false_iff.mp h.1 (continuesName_of_startsName hs)
  simp only [split?, Numeral.split?_of_head hdigit h.2, hname, Bool.false_eq_true, if_false]

theorem isBlank_eq_false_of_split? {r : Token × List Char × List Char}
    (h : split? (c :: cs) = some r) : Text.isBlank c = false := by
  refine Bool.eq_false_iff.mpr fun hblank => ?_
  rw [split?_of_not_word (not_word_of_isBlank hblank)] at h
  obtain ⟨t, ht, -⟩ := Option.map_eq_some_iff.mp h
  rw [isBlank_eq_false_of_mem_signs (mem_signs_of_ofSymbol? ht)] at hblank
  cases hblank

/-! ## Tokens in front of a text -/

/-- Whether a text does not go on with the word in front of it. -/
def EndsWord (rest : List Char) : Prop := ∀ c ∈ rest.head?, continuesName c = false ∧ c ≠ '.'

theorem EndsWord.blank_append (h : EndsWord rest) (hblank : ∀ c ∈ blank, Text.isBlank c = true) :
    EndsWord (blank ++ rest) := by
  intro c hc
  cases blank with
  | nil => exact h c hc
  | cons d blank =>
    cases hc
    exact not_word_of_isBlank (hblank c List.mem_cons_self)

theorem EndsWord.numeral (h : EndsWord rest) : Numeral.Ends rest := by
  intro c hc
  obtain ⟨hname, hpoint⟩ := h c hc
  refine ⟨Bool.eq_false_iff.mpr fun hdigit => ?_, hpoint, ?_⟩
  · exact Bool.eq_false_iff.mp hname (continuesName_of_isDigit hdigit)
  · rintro rfl
    exact absurd hname (by decide)

theorem split?_numeral {n : Numeral} (hn : n.WellFormed) (hrest : EndsWord rest) :
    split? (n.text ++ rest) = some (number n.toDouble, n.text, rest) := by
  simp only [split?, Numeral.split?_text_append hn hrest.numeral]

theorem split?_name (hc : startsName c = true) (hcs : ∀ d ∈ cs, continuesName d = true)
    (hrest : EndsWord rest) :
    split? (c :: cs ++ rest) = some (identifier (String.ofList (c :: cs)), c :: cs, rest) := by
  have hdigit : c.isDigit = false ∧ c ≠ '.' := not_number_of_startsName hc
  obtain ⟨htake, hdrop⟩ := Numeral.takeWhile_append_of_head hcs fun d hd => (hrest d hd).1
  rw [List.cons_append]
  simp only [split?, Numeral.split?_of_head hdigit.1 hdigit.2, hc, if_true, htake, hdrop]

theorem split?_sign (h : ofSymbol? c = some t) : split? (c :: rest) = some (t, [c], rest) := by
  rw [split?_of_not_word (not_word_of_mem_signs (mem_signs_of_ofSymbol? h)), h]
  rfl

/-- **One step of the scan**: white space is skipped, and the token in front of the rest is taken. -/
theorem scan_append (hblank : ∀ c ∈ blank, Text.isBlank c = true)
    (h : split? (lexeme ++ rest) = some (t, lexeme, rest)) :
    scan offset (blank ++ (lexeme ++ rest)) =
      (scan (offset + Text.utf8Length blank + Text.utf8Length lexeme) rest).map (t :: ·) := by
  obtain ⟨c, cs, hlexeme⟩ := List.exists_cons_of_ne_nil (ne_nil_of_split? h)
  have hhead : ∀ d ∈ (lexeme ++ rest).head?, Text.isBlank d = false := by
    intro d hd
    rw [hlexeme] at h hd
    cases hd
    exact isBlank_eq_false_of_split? h
  obtain ⟨htake, hdrop⟩ := Numeral.takeWhile_append_of_head hblank hhead
  rw [scan]
  simp only [htake]
  split
  · next htrim =>
    rw [Text.trimStart, hdrop, hlexeme] at htrim
    cases htrim
  · next d ds htrim =>
    rw [Text.trimStart, hdrop] at htrim
    rw [htrim] at h
    split
    · next hsplit =>
      rw [h] at hsplit
      cases hsplit
    · next u us vs hsplit =>
      rw [h] at hsplit
      cases hsplit
      rfl

theorem scan_blank (h : ∀ c ∈ blank, Text.isBlank c = true) : scan offset blank = .ok [] := by
  rw [scan]
  split
  · rfl
  · next c cs htrim =>
    have hnil : Text.trimStart blank = [] := List.dropWhile_eq_nil_iff.mpr h
    rw [hnil] at htrim
    cases htrim

end SciCalc.Token
