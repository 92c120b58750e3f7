/-
Word characters, as the word for the last answer is bounded by them. In ASCII they are those that names go
on with, and reading a sign on a key as the plain one does not change whether a character is one of them
(`isWord_plain`). So a text that is normalized ends and starts in a word just as it does when it is typed
(`endsInWord_normalize`, `startsInWord_normalize`). The letters of the word itself are read only where they
are typed (`Literal`), so that it can be found in either text (`exists_cut_of_normalize`).
-/
import Mathlib.Data.List.Basic
import SciCalc.Answer
import SciCalc.Proofs.Token.Normalize
import SciCalc.Proofs.Token.Split

namespace SciCalc

variable {c d : Char} {cs ds : List Char}

namespace Text

/-- Whether a text ends with a word character. -/
def endsInWord (cs : List Char) : Bool := cs.getLast?.any isWord

@[simp] theorem endsInWord_nil : endsInWord [] = false := rfl

@[simp] theorem endsInWord_concat (cs : List Char) (c : Char) : endsInWord (cs ++ [c]) = isWord c := by
  simp [endsInWord]

@[simp] theorem startsInWord_nil : startsInWord [] = false := rfl

@[simp] theorem startsInWord_cons (c : Char) (cs : List Char) : startsInWord (c :: cs) = isWord c := rfl

theorem endsInWord_append (cs : List Char) (hne : ds ≠ []) : endsInWord (cs ++ ds) = endsInWord ds := by
  rw [endsInWord, endsInWord, List.getLast?_append_of_ne_nil cs hne]

theorem endsInWord_append_of_forall (cs : List Char) (hne : ds ≠ []) (h : ∀ d ∈ ds, isWord d = true) :
    endsInWord (cs ++ ds) = true := by
  rw [endsInWord_append cs hne, endsInWord, List.getLast?_eq_some_getLast hne]
  exact h _ (List.getLast_mem hne)

theorem isWord_of_ascii (h : c.toNat < 0x80) : isWord c = Token.continuesName c := by
  rw [isWord, if_pos h]
  rfl

theorem isWord_of_continuesName (h : Token.continuesName c = true) : isWord c = true := by
  have hz : 'z'.toNat < 0x80 := by decide
  rw [isWord_of_ascii (Nat.lt_of_le_of_lt (Token.toNat_of_continuesName h).2 hz), h]

end Text

namespace Keypad

/-! ## Normalized texts -/

theorem isWord_plain (c : Char) : Text.isWord (plain c) = Text.isWord c := by
  have hglyphs : ∀ glyph ∈ glyphs, Text.isWord glyph.2 = Text.isWord glyph.1 := by decide +kernel
  rcases plain_eq_or c with hplain | hglyph
  · rw [hplain]
  · exact hglyphs _ hglyph

theorem startsInWord_map_plain (cs : List Char) :
    Text.startsInWord (cs.map plain) = Text.startsInWord cs := by
  cases cs with
  | nil => rfl
  | cons c cs => exact isWord_plain c

theorem endsInWord_map_plain (cs : List Char) : Text.endsInWord (cs.map plain) = Text.endsInWord cs := by
  rw [Text.endsInWord, Text.endsInWord, List.getLast?_map]
  cases cs.getLast? with
  | none => rfl
  | some c => exact isWord_plain c

/-- The digits of pi stand for two letters, and start and end in a word as these do. -/
theorem startsInWord_expandPi (cs : List Char) : Text.startsInWord (expandPi cs) = Text.startsInWord cs := by
  cases cs using expandPi.induct with
  | case1 cs =>
    rw [expandPi]
    rfl
  | case2 c cs hpi =>
    rw [expandPi]
    · rfl
    · exact hpi
  | case3 => rfl

theorem expandPi_ne_nil (h : cs ≠ []) : expandPi cs ≠ [] := by
  cases cs using expandPi.induct with
  | case1 cs =>
    rw [expandPi]
    exact List.append_ne_nil_of_left_ne_nil (by decide) _
  | case2 c cs hpi =>
    rw [expandPi]
    · exact List.cons_ne_nil _ _
    · exact hpi
  | case3 => exact absurd rfl h

theorem endsInWord_expandPi (cs : List Char) : Text.endsInWord (expandPi cs) = Text.endsInWord cs := by
  induction cs using expandPi.induct with
  | case1 cs ih =>
    by_cases hnil : cs = []
    · subst hnil
      decide
    · rw [expandPi, Text.endsInWord_append _ (expandPi_ne_nil hnil), ih]
      exact (Text.endsInWord_append ['p', 'i'] hnil).symm
  | case2 c cs hpi ih =>
    rw [expandPi]
    · by_cases hnil : cs = []
      · subst hnil
        rfl
      · have hcons : ∀ ds, ds ≠ [] → Text.endsInWord (c :: ds) = Text.endsInWord ds := fun ds hne =>
          Text.endsInWord_append [c] hne
        rw [hcons _ (expandPi_ne_nil hnil), hcons _ hnil, ih]
    · exact hpi
  | case3 => rfl

/-- **Normalizing** a text does not change whether it starts or ends in a word. -/
theorem startsInWord_normalize (cs : List Char) :
    Text.startsInWord (normalize cs) = Text.startsInWord cs := by
  rw [normalize, startsInWord_expandPi, startsInWord_map_plain]

theorem endsInWord_normalize (cs : List Char) : Text.endsInWord (normalize cs) = Text.endsInWord cs := by
  rw [normalize, endsInWord_expandPi, endsInWord_map_plain]

/-! ## Letters -/

/-- Whether a character is read only where it is typed: as no sign, and in no digits of pi. -/
structure Literal (c : Char) : Prop where
  sign : ∀ glyph ∈ glyphs, glyph.2 ≠ c
  digit : c ∉ piDigits

theorem literal_answer : ∀ c ∈ ['a', 'n', 's'], Literal c := by
  intro c hc
  simp only [List.mem_cons, List.not_mem_nil, or_false] at hc
  rcases hc with rfl | rfl | rfl <;> exact ⟨by decide, by decide⟩

theorem exists_append_of_map_plain {word : List Char} (hword : ∀ c ∈ word, Literal c)
    (h : cs.map plain = word ++ ds) : ∃ es, cs = word ++ es ∧ es.map plain = ds := by
  induction word generalizing cs with
  | nil => exact ⟨cs, rfl, h⟩
  | cons c word ih =>
    obtain ⟨hc, hcs⟩ := List.forall_mem_cons.mp hword
    obtain ⟨b, rest, rfl, hb, hrest⟩ := List.map_eq_cons_iff.mp h
    obtain ⟨es, rfl, hes⟩ := ih hcs hrest
    exact ⟨es, by rw [eq_of_plain_eq hb hc.sign, List.cons_append], hes⟩

theorem exists_append_of_expandPi {word : List Char} (hword : ∀ c ∈ word, Literal c)
    (h : expandPi cs = word ++ ds) : ∃ es, cs = word ++ es ∧ expandPi es = ds := by
  induction word generalizing cs with
  | nil => exact ⟨cs, rfl, h⟩
  | cons c word ih =>
    obtain ⟨hc, hcs⟩ := List.forall_mem_cons.mp hword
    cases cs using expandPi.induct with
    | case1 cs =>
      rw [expandPi] at h
      have hthree : '3' = c := (List.cons.inj h).1
      exact absurd (by rw [← hthree]; decide) hc.digit
    | case2 b cs hpi =>
      rw [expandPi] at h
      · obtain ⟨rfl, hrest⟩ := List.cons.inj h
        obtain ⟨es, rfl, hes⟩ := ih hcs hrest
        exact ⟨es, rfl, hes⟩
      · exact hpi
    | case3 => cases h

/-- **A word of letters** that is read at the front of a text is typed there. -/
theorem exists_append_of_normalize {word : List Char} (hword : ∀ c ∈ word, Literal c)
    (h : normalize cs = word ++ ds) : ∃ es, cs = word ++ es ∧ normalize es = ds := by
  obtain ⟨read, hread, rfl⟩ := exists_append_of_expandPi hword h
  obtain ⟨es, rfl, rfl⟩ := exists_append_of_map_plain hword hread
  exact ⟨es, rfl, rfl⟩

theorem exists_cut_of_expandPi {front : List Char} (h : expandPi cs = front ++ c :: ds) (hc : Literal c) :
    ∃ before after, cs = before ++ c :: after ∧ expandPi before = front ∧ expandPi after = ds := by
  induction cs using expandPi.induct generalizing front with
  | case1 cs ih =>
    rw [expandPi] at h
    rcases List.append_eq_append_iff.mp h with ⟨es, rfl, hes⟩ | ⟨es, hpi, hes⟩
    · obtain ⟨before, after, rfl, rfl, rfl⟩ := ih hes
      exact ⟨'p' :: 'i' :: before, after, rfl, rfl, rfl⟩
    · cases es with
      | nil =>
        have hrest : expandPi cs = [] ++ c :: ds := hes.symm
        obtain ⟨before, after, rfl, hbefore, rfl⟩ := ih hrest
        refine ⟨'p' :: 'i' :: before, after, rfl, ?_, rfl⟩
        rw [expandPi, hbefore, List.append_nil, hpi, List.append_nil]
      | cons e es =>
        obtain ⟨rfl, -⟩ := List.cons.inj hes
        exact absurd (by rw [hpi]; simp) hc.digit
  | case2 b cs hpi ih =>
    rw [expandPi] at h
    · cases front with
      | nil =>
        obtain ⟨rfl, hds⟩ := List.cons.inj h
        exact ⟨[], cs, rfl, rfl, hds⟩
      | cons f front =>
        obtain ⟨rfl, hrest⟩ := List.cons.inj h
        obtain ⟨before, after, rfl, rfl, rfl⟩ := ih hrest
        refine ⟨b :: before, after, rfl, ?_, rfl⟩
        rw [expandPi]
        rintro es rfl rfl
        exact hpi _ rfl rfl
    · exact hpi
  | case3 => simp [expandPi] at h

/-- **A letter** that is read in a text is typed there, between what is read in front and behind. -/
theorem exists_cut_of_normalize {front : List Char} (h : normalize cs = front ++ c :: ds) (hc : Literal c) :
    ∃ before after, cs = before ++ c :: after ∧ normalize before = front ∧ normalize after = ds := by
  obtain ⟨before, after, hcs, rfl, rfl⟩ := exists_cut_of_expandPi h hc
  obtain ⟨typedBefore, typedRest, rfl, rfl, hrest⟩ := List.map_eq_append_iff.mp hcs
  obtain ⟨b, typedAfter, rfl, hb, rfl⟩ := List.map_eq_cons_iff.mp hrest
  rw [eq_of_plain_eq hb hc.sign]
  exact ⟨typedBefore, typedAfter, rfl, rfl, rfl⟩

end Keypad

end SciCalc
