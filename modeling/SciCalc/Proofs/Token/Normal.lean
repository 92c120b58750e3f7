/-
Normalized texts. They have no sign of a key and no `pi` in them (`normal_normalize`), although digits are put
into the text; and such texts are left as they are (`normalize_of_normal`). So a text and its normalized form
have the same tokens, and no name has a `pi` in it (`ofText_normalizeText`).
-/
import Mathlib.Data.List.Chain
import SciCalc.Proofs.Token.Longest
import SciCalc.Proofs.Token.Normalize

namespace SciCalc

namespace Keypad

variable {c : Char} {cs ds : List Char}

/-- Whether a text has neither a sign of a key nor a `pi` in it. -/
structure Normal (cs : List Char) : Prop where
  noSign : ∀ glyph ∈ glyphs, glyph.1 ∉ cs
  noPi : ¬['p', 'i'] <:+: cs

theorem Normal.of_isInfix (h : Normal cs) (hds : ds <:+: cs) : Normal ds where
  noSign glyph hglyph hmem := h.noSign glyph hglyph (hds.subset hmem)
  noPi hpi := h.noPi (hpi.trans hds)

theorem normalize_of_normal (h : Normal cs) : normalize cs = cs := by
  have hplain : cs.map plain = cs := by
    conv_rhs => rw [← List.map_id cs]
    exact List.map_congr_left fun c hc => plain_of_forall_ne fun glyph hglyph heq =>
      h.noSign glyph hglyph (heq ▸ hc)
  rw [normalize, hplain]
  have hpi := h.noPi
  clear hplain h
  induction cs using expandPi.induct with
  | case1 cs => exact absurd ⟨[], cs, rfl⟩ hpi
  | case2 c cs hnot ih =>
    rw [expandPi]
    · rw [ih fun hcs => hpi (hcs.trans (List.suffix_cons c cs).isInfix)]
    · exact hnot
  | case3 => rfl

theorem plain_ne_of_mem_glyphs (c : Char) : ∀ glyph ∈ glyphs, plain c ≠ glyph.1 := by
  have hkeys : ∀ glyph ∈ glyphs, plain glyph.1 ≠ glyph.1 := by decide
  have hplain : ∀ glyph ∈ glyphs, ∀ glyph' ∈ glyphs, glyph.2 ≠ glyph'.1 := by decide
  intro glyph hglyph heq
  rcases plain_eq_or c with hself | hmem
  · rw [hself] at heq
    exact hkeys glyph hglyph (by rw [← heq, hself])
  · exact hplain _ hmem glyph hglyph heq

theorem mem_expandPi (h : c ∈ expandPi cs) : c ∈ cs ∨ c ∈ piDigits := by
  induction cs using expandPi.induct with
  | case1 cs ih =>
    rw [expandPi, List.mem_append] at h
    rcases h with hdigit | hrest
    · exact .inr hdigit
    · exact (ih hrest).imp_left fun hmem => List.mem_cons_of_mem _ (List.mem_cons_of_mem _ hmem)
  | case2 d cs hpi ih =>
    rw [expandPi, List.mem_cons] at h
    · rcases h with rfl | hrest
      · exact .inl List.mem_cons_self
      · exact (ih hrest).imp_left (List.mem_cons_of_mem d)
    · exact hpi
  | case3 => cases h

/-- The letters of a `pi` do not come together where one is replaced: its digits neither begin with the one
letter nor end with the other. -/
theorem isChain_expandPi (cs : List Char) : (expandPi cs).IsChain fun c d => ¬(c = 'p' ∧ d = 'i') := by
  induction cs using expandPi.induct with
  | case1 cs ih =>
    rw [expandPi]
    have hlast : piDigits.getLast? ≠ some 'p' := by decide
    exact List.IsChain.append (by decide) ih fun c hc d _ hboth => hlast (hboth.1 ▸ hc)
  | case2 c cs hpi ih =>
    rw [expandPi]
    · refine ih.cons fun d hd hboth => ?_
      obtain ⟨rfl, rfl⟩ := hboth
      obtain ⟨rest, rfl⟩ := List.head?_eq_some_iff.mp (head?_expandPi.mp hd)
      exact hpi rest rfl rfl
    · exact hpi
  | case3 => exact .nil

/-- **A normalized text** has neither a sign of a key nor a `pi` in it. -/
theorem normal_normalize (cs : List Char) : Normal (normalize cs) where
  noSign glyph hglyph hmem := by
    rcases mem_expandPi hmem with hplain | hdigit
    · obtain ⟨c, -, hc⟩ := List.mem_map.mp hplain
      exact plain_ne_of_mem_glyphs c glyph hglyph hc
    · have hdigits : ∀ glyph ∈ glyphs, glyph.1 ∉ piDigits := by decide
      exact hdigits glyph hglyph hdigit
  noPi := by
    rintro ⟨before, after, heq⟩
    have hchain := isChain_expandPi (cs.map plain)
    rw [← normalize, ← heq, List.append_assoc] at hchain
    exact (List.isChain_cons_cons.mp hchain.right_of_append).1 ⟨rfl, rfl⟩

theorem normalize_normalize (cs : List Char) : normalize (normalize cs) = normalize cs :=
  normalize_of_normal (normal_normalize cs)

/-- **A text may be cut** just where no `pi` is cut. -/
theorem normalize_append_iff :
    normalize (cs ++ ds) = normalize cs ++ normalize ds ↔ ¬(cs.getLast? = some 'p' ∧ ds.head? = some 'i') := by
  constructor
  · rintro h ⟨hlast, hhead⟩
    obtain ⟨front, rfl⟩ := List.getLast?_eq_some_iff.mp hlast
    obtain ⟨rest, rfl⟩ := List.head?_eq_some_iff.mp hhead
    have hp : normalize (front ++ ['p']) = normalize front ++ ['p'] :=
      normalize_append_of_seam fun _ hi => by cases hi
    have hi : normalize ('i' :: rest) = 'i' :: normalize rest := normalize_cons (by decide)
    refine (normal_normalize (front ++ ['p'] ++ 'i' :: rest)).noPi ?_
    rw [h, hp, hi]
    exact ⟨normalize front, normalize rest, by simp⟩
  · intro h
    exact normalize_append_of_seam fun hlast hhead => h ⟨hlast, hhead⟩

end Keypad

namespace Token

open Keypad (normalize normalizeText)

variable {cs : List Char} {pieces : List Piece} {ts : List Token} {text name : String}

theorem Decomposed.of_mem (h : Decomposed cs pieces) :
    ∀ piece ∈ pieces, piece.lexeme <:+: cs ∧ ∃ rest, LexemeAt rest piece.lexeme piece.token := by
  induction h with
  | nil => nofun
  | @cons blank lexeme rest t pieces skipped taken others ih =>
    intro piece hpiece
    rcases List.mem_cons.mp hpiece with rfl | hmem
    · exact ⟨⟨blank, rest, by simp⟩, _, taken⟩
    · obtain ⟨hpart, htaken⟩ := ih piece hmem
      exact ⟨hpart.trans ⟨blank ++ lexeme, [], by simp⟩, htaken⟩

theorem isInfix_name (h : ofText text = .ok ts) (hname : .identifier name ∈ ts) :
    name.toList <:+: normalize text.toList := by
  obtain ⟨pieces, hpieces, rfl⟩ := exists_decomposed_of_scan h
  obtain ⟨piece, hmem, htoken⟩ := List.mem_map.mp hname
  obtain ⟨hpart, rest, htaken⟩ := hpieces.of_mem piece hmem
  rw [htoken] at htaken
  rwa [lexeme_of_identifier htaken] at hpart

/-- **Normalizing** a text takes all signs of the keys and each `pi` out of it. What is normalized stays as it
is, has the same tokens or the same error, and no name with a `pi` in it. Two texts are normalized one by one,
just if they do not meet in a `pi`. -/
theorem ofText_normalizeText (text : String) :
    (∀ key ∈ ['\u00d7', '\u00f7', '\u2212', '\u2013', '\u2012', '\ufe63', '\uff0d'],
      key ∉ (normalizeText text).toList) ∧
    ¬"pi".toList <:+: (normalizeText text).toList ∧
    normalizeText (normalizeText text) = normalizeText text ∧
    ofText (normalizeText text) = ofText text ∧
    (∀ ts, ofText text = .ok ts → ∀ name, .identifier name ∈ ts → ¬"pi".toList <:+: name.toList) ∧
    ∀ a b : String, normalizeText (a ++ b) = normalizeText a ++ normalizeText b ↔
      ¬(a.toList.getLast? = some 'p' ∧ b.toList.head? = some 'i') := by
  have hnormal := Keypad.normal_normalize text.toList
  have htext : ∀ text, (normalizeText text).toList = normalize text.toList := fun text => String.toList_ofList
  have hpi : "pi".toList = ['p', 'i'] := rfl
  refine ⟨fun key hkey => ?_, ?_, ?_, ?_, fun ts hts name hname => ?_, fun a b => ?_⟩
  · have hkeys : ['\u00d7', '\u00f7', '\u2212', '\u2013', '\u2012', '\ufe63', '\uff0d'] =
        Keypad.glyphs.map Prod.fst := rfl
    rw [hkeys] at hkey
    obtain ⟨glyph, hglyph, rfl⟩ := List.mem_map.mp hkey
    rw [htext]
    exact hnormal.noSign glyph hglyph
  · rw [htext, hpi]
    exact hnormal.noPi
  · rw [normalizeText, htext, Keypad.normalize_normalize]
    rfl
  · rw [ofText, htext, Keypad.normalize_normalize]
    rfl
  · rw [hpi]
    exact (hnormal.of_isInfix (isInfix_name hts hname)).noPi
  · rw [← Keypad.normalize_append_iff, ← String.toList_inj]
    simp only [htext, String.toList_append]

end Token

end SciCalc
