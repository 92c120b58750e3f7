/-
What normalization does to the parts of a text. A character that is neither a sign on a key nor part of
a `pi` stays as it is, and a text may be cut anywhere but between the two letters of a `pi`
(`normalize_append`).
-/
import SciCalc.Func
import SciCalc.Keypad
import SciCalc.Text.Blank

namespace SciCalc.Keypad

variable {c : Char} {cs ds : List Char}

/-! ## Signs -/

theorem plain_of_forall_ne (h : ∀ glyph ∈ glyphs, c ≠ glyph.1) : plain c = c := by
  have hlookup : glyphs.lookup c = none := by
    rw [List.lookup_eq_none_iff]
    intro glyph hglyph
    simpa using h glyph hglyph
  rw [plain, hlookup, Option.getD_none]

theorem plain_of_ascii (h : c.toNat < 0x80) : plain c = c := by
  have hglyphs : ∀ glyph ∈ glyphs, 0x80 ≤ glyph.1.toNat := by decide
  refine plain_of_forall_ne fun glyph hglyph heq => ?_
  have hge := hglyphs glyph hglyph
  rw [← heq] at hge
  omega

theorem plain_of_isBlank (h : Text.isBlank c = true) : plain c = c := by
  have hglyphs : ∀ glyph ∈ glyphs, Text.isBlank glyph.1 = false := by decide
  refine plain_of_forall_ne fun glyph hglyph heq => ?_
  rw [heq, hglyphs glyph hglyph] at h
  cases h

theorem plain_eq_or (c : Char) : plain c = c ∨ (c, plain c) ∈ glyphs := by
  cases hlookup : glyphs.lookup c with
  | none => exact .inl (by rw [plain, hlookup, Option.getD_none])
  | some d =>
    have hplain : plain c = d := by rw [plain, hlookup, Option.getD_some]
    obtain ⟨before, after, hglyphs, -⟩ := List.lookup_eq_some_iff.mp hlookup
    rw [hplain, hglyphs]
    exact .inr (by simp)

theorem eq_of_plain_eq {d : Char} (h : plain c = d) (hd : ∀ glyph ∈ glyphs, glyph.2 ≠ d) : c = d := by
  rcases plain_eq_or c with hplain | hglyph
  · rw [← hplain, h]
  · exact absurd h (hd _ hglyph)

/-! ## Cutting a text -/

theorem expandPi_cons (h : c ≠ 'p') : expandPi (c :: cs) = c :: expandPi cs := by
  rw [expandPi]
  rintro ds heq -
  exact h heq

theorem normalize_cons (h : plain c ≠ 'p') : normalize (c :: cs) = plain c :: normalize cs :=
  expandPi_cons h

theorem normalize_cons_of_plain (hc : plain c = c) (hne : c ≠ 'p') :
    normalize (c :: cs) = c :: normalize cs := by
  rw [normalize_cons (by rwa [hc]), hc]

/-- The digits of pi do not start with an `i`, so that one in front was there before. -/
theorem head?_expandPi : (expandPi cs).head? = some 'i' ↔ cs.head? = some 'i' := by
  cases cs using expandPi.induct with
  | case1 cs =>
    have hdigits : piDigits = '3' :: piDigits.tail := by decide
    rw [expandPi, hdigits]
    simp
  | case2 c cs hpi =>
    rw [expandPi]
    · rfl
    · exact hpi
  | case3 => rfl

theorem expandPi_append (h : cs.getLast? = some 'p' → ds.head? ≠ some 'i') :
    expandPi (cs ++ ds) = expandPi cs ++ expandPi ds := by
  induction cs using expandPi.induct with
  | case1 cs ih =>
    have hlast : cs.getLast? = some 'p' → ds.head? ≠ some 'i' := fun hp => h (by simp [List.getLast?_cons, hp])
    simp only [List.cons_append, expandPi, ih hlast, List.append_assoc]
  | case2 c cs hpi ih =>
    have hlast : cs.getLast? = some 'p' → ds.head? ≠ some 'i' := fun hp => h (by simp [List.getLast?_cons, hp])
    rw [expandPi, List.cons_append, expandPi, ih hlast, List.cons_append]
    · -- the two letters would meet where the text is cut
      intro es hc hes
      cases cs with
      | nil => exact h (by rw [hc]; rfl) (by rw [← List.nil_append ds, hes]; rfl)
      | cons d cs =>
        simp only [List.cons_append, List.cons.injEq] at hes
        exact hpi cs hc (by rw [hes.1])
    · exact hpi
  | case3 => rfl

/-- **A text may be cut** anywhere but between the two letters of a `pi`. -/
theorem normalize_append_of_seam (h : cs.getLast? = some 'p' → ds.head? ≠ some 'i') :
    normalize (cs ++ ds) = normalize cs ++ normalize ds := by
  have hp : ∀ glyph ∈ glyphs, glyph.2 ≠ 'p' := by decide
  have hi : ∀ glyph ∈ glyphs, glyph.2 ≠ 'i' := by decide
  rw [normalize, List.map_append, expandPi_append]
  · rfl
  · intro hlast hhead
    rw [List.getLast?_map, Option.map_eq_some_iff] at hlast
    rw [List.head?_map, Option.map_eq_some_iff] at hhead
    obtain ⟨c, hc, hplain⟩ := hlast
    obtain ⟨d, hd, hplain'⟩ := hhead
    obtain rfl := eq_of_plain_eq hplain hp
    obtain rfl := eq_of_plain_eq hplain' hi
    exact h hc hd

theorem normalize_append (h : (normalize ds).head? ≠ some 'i') :
    normalize (cs ++ ds) = normalize cs ++ normalize ds := by
  refine normalize_append_of_seam fun _ hhead => h (head?_expandPi.mpr ?_)
  rw [List.head?_map, hhead]
  rfl

/-! ## What stays as it is -/

theorem normalize_blank_append (h : ∀ c ∈ cs, Text.isBlank c = true) :
    normalize (cs ++ ds) = cs ++ normalize ds := by
  induction cs with
  | nil => rfl
  | cons c cs ih =>
    obtain ⟨hc, hcs⟩ := List.forall_mem_cons.mp h
    have hne : c ≠ 'p' := by
      rintro rfl
      exact absurd hc (by decide)
    rw [List.cons_append, normalize_cons_of_plain (plain_of_isBlank hc) hne, ih hcs, List.cons_append]

theorem normalize_blank (h : ∀ c ∈ cs, Text.isBlank c = true) : normalize cs = cs := by
  have hnil : normalize (cs ++ []) = cs ++ [] := normalize_blank_append h
  rwa [List.append_nil] at hnil

theorem normalize_ascii (h : ∀ c ∈ cs, c.toNat < 0x80 ∧ c ≠ 'p') : normalize cs = cs := by
  induction cs with
  | nil => rfl
  | cons c cs ih =>
    obtain ⟨⟨hascii, hne⟩, hcs⟩ := List.forall_mem_cons.mp h
    rw [normalize_cons_of_plain (plain_of_ascii hascii) hne, ih hcs]

theorem normalize_name (f : Func) : normalize f.name.toList = f.name.toList := by
  cases f <;> decide

theorem normalize_pi : normalize ['p', 'i'] = piDigits := by decide

end SciCalc.Keypad
