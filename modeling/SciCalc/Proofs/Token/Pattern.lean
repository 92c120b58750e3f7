/-
The words of expressions as regular languages. Numbers are `[0-9]*\.?[0-9]+(e[+-]?[0-9]+)?`, which are
just the texts of numerals (`mem_number_iff`), and names are `[A-Za-z_][A-Za-z0-9_]*` (`mem_name_iff`).
-/
import Mathlib.Computability.Language
import SciCalc.Proofs.Token.Split

namespace SciCalc.Pattern

open Computability

variable {cs ds : List Char} {c : Char}

/-- The texts of one character that has a property. -/
def one (p : Char → Prop) : Language Char := {cs | ∃ c, p c ∧ cs = [c]}

/-- `[0-9]` -/
def digit : Language Char := one fun c => '0' ≤ c ∧ c ≤ '9'

/-- `[0-9]*\.?[0-9]+(e[+-]?[0-9]+)?` -/
def number : Language Char :=
  digit∗ * (1 + {['.']}) * (digit * digit∗) *
    (1 + {['e']} * (1 + one fun c => c = '+' ∨ c = '-') * (digit * digit∗))

/-- `[A-Za-z_][A-Za-z0-9_]*` -/
def name : Language Char :=
  one (fun c => ('A' ≤ c ∧ c ≤ 'Z') ∨ ('a' ≤ c ∧ c ≤ 'z') ∨ c = '_') *
    (one fun c => ('A' ≤ c ∧ c ≤ 'Z') ∨ ('a' ≤ c ∧ c ≤ 'z') ∨ ('0' ≤ c ∧ c ≤ '9') ∨ c = '_')∗

/-! ## Classes of characters -/

theorem mem_one_kstar {p : Char → Prop} : cs ∈ (one p)∗ ↔ ∀ c ∈ cs, p c := by
  rw [Language.mem_kstar]
  constructor
  · rintro ⟨parts, rfl, hparts⟩ c hc
    obtain ⟨part, hpart, hmem⟩ := List.mem_flatten.mp hc
    obtain ⟨d, hd, rfl⟩ := hparts part hpart
    rwa [List.mem_singleton.mp hmem]
  · intro h
    refine ⟨cs.map ([·]), by simp [← List.flatMap_def], ?_⟩
    intro part hpart
    obtain ⟨c, hc, rfl⟩ := List.mem_map.mp hpart
    exact ⟨c, h c hc, rfl⟩

theorem isDigit_iff : c.isDigit = true ↔ '0' ≤ c ∧ c ≤ '9' := by
  have hdigit : c.isDigit = (decide ('0' ≤ c) && decide (c ≤ '9')) := rfl
  rw [hdigit, Bool.and_eq_true, decide_eq_true_eq, decide_eq_true_eq]

theorem isUpper_iff : c.isUpper = true ↔ 'A' ≤ c ∧ c ≤ 'Z' := decide_eq_true_iff

theorem isLower_iff : c.isLower = true ↔ 'a' ≤ c ∧ c ≤ 'z' := by
  have hlower : c.isLower = (decide ('a' ≤ c) && decide (c ≤ 'z')) := rfl
  rw [hlower, Bool.and_eq_true, decide_eq_true_eq, decide_eq_true_eq]

theorem isAlpha_iff : c.isAlpha = true ↔ ('A' ≤ c ∧ c ≤ 'Z') ∨ ('a' ≤ c ∧ c ≤ 'z') := by
  have halpha : c.isAlpha = (c.isUpper || c.isLower) := rfl
  rw [halpha, Bool.or_eq_true, isUpper_iff, isLower_iff]

theorem startsName_iff :
    Token.startsName c = true ↔ ('A' ≤ c ∧ c ≤ 'Z') ∨ ('a' ≤ c ∧ c ≤ 'z') ∨ c = '_' := by
  simp [Token.startsName, isAlpha_iff, or_assoc]

theorem continuesName_iff :
    Token.continuesName c = true ↔
      ('A' ≤ c ∧ c ≤ 'Z') ∨ ('a' ≤ c ∧ c ≤ 'z') ∨ ('0' ≤ c ∧ c ≤ '9') ∨ c = '_' := by
  simp [Token.continuesName, Char.isAlphanum, isAlpha_iff, isDigit_iff, or_assoc]

theorem mem_digits_iff : cs ∈ digit∗ ↔ ∀ c ∈ cs, c.isDigit = true := by
  rw [digit, mem_one_kstar]
  simp only [isDigit_iff]

theorem mem_digits_one_iff : cs ∈ digit * digit∗ ↔ cs ≠ [] ∧ ∀ c ∈ cs, c.isDigit = true := by
  rw [Language.mem_mul]
  constructor
  · rintro ⟨_, ⟨c, hc, rfl⟩, ds, hds, rfl⟩
    exact ⟨List.cons_ne_nil _ _, List.forall_mem_cons.mpr ⟨isDigit_iff.mpr hc, mem_digits_iff.mp hds⟩⟩
  · rintro ⟨hne, h⟩
    obtain ⟨c, ds, rfl⟩ := List.exists_cons_of_ne_nil hne
    obtain ⟨hc, hds⟩ := List.forall_mem_cons.mp h
    exact ⟨[c], ⟨c, isDigit_iff.mp hc, rfl⟩, ds, mem_digits_iff.mpr hds, rfl⟩

/-! ## Words -/

theorem mem_name_iff :
    cs ∈ name ↔ ∃ c ds, cs = c :: ds ∧ Token.startsName c = true ∧
      ∀ d ∈ ds, Token.continuesName d = true := by
  simp only [startsName_iff, continuesName_iff]
  rw [name, Language.mem_mul]
  constructor
  · rintro ⟨_, ⟨c, hc, rfl⟩, ds, hds, rfl⟩
    exact ⟨c, ds, rfl, hc, mem_one_kstar.mp hds⟩
  · rintro ⟨c, ds, rfl, hc, hds⟩
    exact ⟨[c], ⟨c, hc, rfl⟩, ds, mem_one_kstar.mpr hds, rfl⟩

theorem mem_exponent_iff :
    cs ∈ 1 + {['e']} * (1 + one fun c => c = '+' ∨ c = '-') * (digit * digit∗) ↔
      ∃ e : Option Numeral.Exponent, (∀ x ∈ e, x.WellFormed) ∧ e.elim [] Numeral.Exponent.text = cs := by
  rw [Language.mem_add, Language.mem_one, Language.mem_mul]
  constructor
  · rintro (rfl | ⟨_, ⟨_, rfl, sign, hsign, rfl⟩, ds, hds, rfl⟩)
    · exact ⟨none, by simp, rfl⟩
    · obtain ⟨hne, hdigits⟩ := mem_digits_one_iff.mp hds
      rcases (Language.mem_add _ _ _).mp hsign with rfl | ⟨c, hc, rfl⟩
      · have hwf : Numeral.Exponent.WellFormed ⟨none, ds⟩ := ⟨by simp, hdigits, hne⟩
        exact ⟨some ⟨none, ds⟩, by simpa using hwf, rfl⟩
      · have hwf : Numeral.Exponent.WellFormed ⟨some c, ds⟩ := ⟨by simpa using hc, hdigits, hne⟩
        exact ⟨some ⟨some c, ds⟩, by simpa using hwf, rfl⟩
  · rintro ⟨e, he, rfl⟩
    cases e with
    | none => exact .inl rfl
    | some e =>
      have hwf := he e rfl
      have hsign : e.sign.toList ∈ (1 : Language Char) + one fun c => c = '+' ∨ c = '-' := by
        cases hs : e.sign with
        | none => exact .inl rfl
        | some c => exact .inr ⟨c, hwf.sign c hs, rfl⟩
      exact .inr ⟨_, ⟨_, rfl, _, hsign, rfl⟩, _, mem_digits_one_iff.mpr ⟨hwf.ne_nil, hwf.digits⟩, rfl⟩

/-- **The texts of numbers** are those of numerals. Without a point, the digits that must be there are
those of the whole part. -/
theorem mem_number_iff : cs ∈ number ↔ ∃ n : Numeral, n.WellFormed ∧ n.text = cs := by
  rw [number, Language.mem_mul]
  constructor
  · rintro ⟨_, ⟨_, ⟨whole, hwhole, point, hpoint, rfl⟩, ds, hds, rfl⟩, tail, htail, rfl⟩
    obtain ⟨e, he, rfl⟩ := mem_exponent_iff.mp htail
    obtain ⟨hne, hdigits⟩ := mem_digits_one_iff.mp hds
    have hw := mem_digits_iff.mp hwhole
    rcases (Language.mem_add _ _ _).mp hpoint with rfl | rfl
    · refine ⟨⟨whole ++ ds, [], e⟩, ⟨?_, List.forall_mem_nil _, .inl (by simp [hne]), he⟩, by simp [Numeral.text]⟩
      intro c hc
      exact (List.mem_append.mp hc).elim (hw c) (hdigits c)
    · exact ⟨⟨whole, ds, e⟩, ⟨hw, hdigits, .inr hne, he⟩, by simp [Numeral.text, hne]⟩
  · rintro ⟨n, hn, rfl⟩
    refine ⟨_, ?_, _, mem_exponent_iff.mpr ⟨n.exponent, hn.exponent, rfl⟩, rfl⟩
    by_cases hfraction : n.fraction = []
    · have hne : n.whole ≠ [] := hn.ne_nil.resolve_right (not_not_intro hfraction)
      rw [if_pos hfraction, List.append_nil, ← List.nil_append n.whole]
      exact ⟨[], ⟨[], mem_digits_iff.mpr (List.forall_mem_nil _), [], .inl rfl, rfl⟩, n.whole,
        mem_digits_one_iff.mpr ⟨hne, hn.whole⟩, rfl⟩
    · rw [if_neg hfraction]
      exact ⟨n.whole ++ ['.'], ⟨n.whole, mem_digits_iff.mpr hn.whole, ['.'], .inr rfl, rfl⟩, n.fraction,
        mem_digits_one_iff.mpr ⟨hfraction, hn.fraction⟩, by simp⟩

end SciCalc.Pattern
