/-
A text is cut where the word for the last answer stands by itself, and the answer is put between the parts
(`Session.expand_cut`). The parts are told by the places of the cuts (`eq_of_seam_iff`), and so there is one way only to
cut a text.

What is put in does not go on with the words on its sides, for it is in parentheses. In front of the word, and behind
it, there was no word character either. So no other place can become one where the word stands by itself
(`not_alone_expandFrom`), and doing it again makes no difference.
-/
import SciCalc.Proofs.Answer.Expand
import SciCalc.Proofs.Decimal.Plain
import SciCalc.Session

namespace SciCalc

namespace Answer

open Text (startsInWord endsInWord)

variable {replacement front cs before after p q : List Char} {parts ps qs : List (List Char)} {c : Char}
  {inWord : Bool}

/-- The word for the last answer. -/
def word : List Char := ['a', 'n', 's']

/-- Whether the word stands by itself behind the front of a text, which is itself behind another. -/
structure AloneBehind (front cs before after : List Char) : Prop where
  eq : cs = before ++ (word ++ after)
  before : endsInWord (front ++ before) = false
  after : startsInWord after = false

/-- Whether the word stands by itself between the front of a text and its end. -/
abbrev Alone (cs before after : List Char) : Prop := AloneBehind [] cs before after

/-- Whether a text that is given by its parts, with the word between them, is cut between its front and its end. -/
def Seam (parts : List (List Char)) (before after : List Char) : Prop :=
  ∃ fronts ends, fronts ≠ [] ∧ ends ≠ [] ∧ parts = fronts ++ ends ∧
    before = word.intercalate fronts ∧ after = word.intercalate ends

/-- Whether a text is cut into parts just where the word stands by itself. -/
structure CutAtWords (cs : List Char) (parts : List (List Char)) : Prop where
  ne_nil : parts ≠ []
  joined : word.intercalate parts = cs
  seam_iff : ∀ before after, Seam parts before after ↔ Alone cs before after

/-! ## Places in a text -/

theorem aloneBehind_cons_iff : AloneBehind front (c :: cs) before after ↔
    (before = [] ∧ AloneBehind front (c :: cs) [] after) ∨
      ∃ rest, before = c :: rest ∧ AloneBehind (front ++ [c]) cs rest after := by
  constructor
  · intro h
    cases before with
    | nil => exact .inl ⟨rfl, h⟩
    | cons d rest =>
      obtain ⟨rfl, hcs⟩ := List.cons.inj h.eq
      refine .inr ⟨rest, rfl, hcs, ?_, h.after⟩
      rw [List.append_assoc]
      exact h.before
  · rintro (⟨rfl, h⟩ | ⟨rest, rfl, h⟩)
    · exact h
    · refine ⟨by rw [h.eq, List.cons_append], ?_, h.after⟩
      have hbefore := h.before
      rwa [List.append_assoc] at hbefore

/-- A word that stands by itself does not hide another. -/
theorem aloneBehind_word_iff (hfront : endsInWord front = false) (hcs : startsInWord cs = false) :
    AloneBehind front (word ++ cs) before after ↔
      (before = [] ∧ after = cs) ∨ ∃ rest, before = word ++ rest ∧ AloneBehind (front ++ word) cs rest after := by
  constructor
  · intro h
    match before, h with
    | [], h => exact .inl ⟨rfl, (List.append_cancel_left h.eq).symm⟩
    | [_], h => cases h.eq
    | [_, _], h => cases h.eq
    | _ :: _ :: _ :: rest, h =>
      obtain ⟨heq, hbefore, hafter⟩ := h
      cases heq
      refine .inr ⟨rest, rfl, rfl, ?_, hafter⟩
      rwa [List.append_assoc]
  · rintro (⟨rfl, rfl⟩ | ⟨rest, rfl, h⟩)
    · exact ⟨rfl, by rwa [List.append_nil], hcs⟩
    · refine ⟨by rw [h.eq, List.append_assoc], ?_, h.after⟩
      have hbefore := h.before
      rwa [List.append_assoc] at hbefore

/-! ## Cuts -/

theorem intercalate_cons_head (sep : List Char) (c : Char) (p : List Char) (ps : List (List Char)) :
    sep.intercalate ((c :: p) :: ps) = c :: sep.intercalate (p :: ps) := by
  cases ps with
  | nil => rw [List.intercalate_singleton, List.intercalate_singleton]
  | cons q ps => rw [List.intercalate_cons_cons, List.intercalate_cons_cons, List.cons_append, List.cons_append]

theorem not_seam_singleton : ¬ Seam [p] before after := by
  rintro ⟨fronts, ends, hfronts, hends, heq, -⟩
  cases fronts with
  | nil => exact hfronts rfl
  | cons q fronts =>
    obtain ⟨-, hnil⟩ := List.cons.inj heq
    exact hends (List.append_eq_nil_iff.mp hnil.symm).2

theorem seam_cons_cons_iff : Seam (p :: q :: ps) before after ↔
    (before = p ∧ after = word.intercalate (q :: ps)) ∨
      ∃ rest, before = p ++ (word ++ rest) ∧ Seam (q :: ps) rest after := by
  constructor
  · rintro ⟨fronts, ends, hfronts, hends, heq, rfl, rfl⟩
    match fronts with
    | [] => exact absurd rfl hfronts
    | [p'] =>
      obtain ⟨rfl, rfl⟩ := List.cons.inj heq
      exact .inl ⟨List.intercalate_singleton, rfl⟩
    | p' :: q' :: fronts =>
      obtain ⟨rfl, hrest⟩ := List.cons.inj heq
      refine .inr ⟨word.intercalate (q' :: fronts), ?_, q' :: fronts, ends, List.cons_ne_nil _ _, hends, hrest, rfl,
        rfl⟩
      rw [List.intercalate_cons_cons, List.append_assoc]
  · rintro (⟨rfl, rfl⟩ | ⟨rest, rfl, fronts, ends, hfronts, hends, heq, rfl, rfl⟩)
    · exact ⟨[before], q :: ps, List.cons_ne_nil _ _, List.cons_ne_nil _ _, rfl, List.intercalate_singleton.symm, rfl⟩
    · obtain ⟨q', fronts, rfl⟩ := List.exists_cons_of_ne_nil hfronts
      refine ⟨p :: q' :: fronts, ends, List.cons_ne_nil _ _, hends, by rw [heq]; rfl, ?_, rfl⟩
      rw [List.intercalate_cons_cons, List.append_assoc]

theorem seam_first (p q : List Char) (ps : List (List Char)) : Seam (p :: q :: ps) p (word.intercalate (q :: ps)) :=
  seam_cons_cons_iff.mpr (.inl ⟨rfl, rfl⟩)

theorem seam_cons_head_iff : Seam ((c :: p) :: ps) before after ↔
    ∃ rest, before = c :: rest ∧ Seam (p :: ps) rest after := by
  cases ps with
  | nil =>
    constructor
    · intro h
      exact absurd h not_seam_singleton
    · rintro ⟨rest, -, h⟩
      exact absurd h not_seam_singleton
  | cons q ps =>
    rw [seam_cons_cons_iff]
    simp only [seam_cons_cons_iff]
    constructor
    · rintro (⟨rfl, rfl⟩ | ⟨rest, rfl, h⟩)
      · exact ⟨p, rfl, .inl ⟨rfl, rfl⟩⟩
      · exact ⟨p ++ (word ++ rest), rfl, .inr ⟨rest, rfl, h⟩⟩
    · rintro ⟨rest, rfl, ⟨rfl, rfl⟩ | ⟨rest', rfl, h⟩⟩
      · exact .inl ⟨rfl, rfl⟩
      · exact .inr ⟨rest', rfl, h⟩

theorem append_word_ne (p rest : List Char) : p ++ (word ++ rest) ≠ p := by
  intro heq
  have hlength := congrArg List.length heq
  simp only [List.length_append, word, List.length_cons] at hlength
  omega

/-- The first cut is the one with the shortest front. -/
theorem head_eq_of_seam {p' q' : List Char} {after' : List Char} (hp : Seam (q :: q' :: qs) p after)
    (hq : Seam (p :: p' :: ps) q after') : p = q := by
  obtain ⟨heq, -⟩ | ⟨rest, heq, -⟩ := seam_cons_cons_iff.mp hp
  · exact heq
  · obtain ⟨heq', -⟩ | ⟨rest', heq', -⟩ := seam_cons_cons_iff.mp hq
    · exact heq'.symm
    · rw [heq', List.append_assoc, List.append_assoc] at heq
      exact absurd heq.symm (append_word_ne p _)

/-- **The parts of a text** are told by the places where it is cut. -/
theorem eq_of_seam_iff (hps : ps ≠ []) (hqs : qs ≠ []) (hjoined : word.intercalate ps = word.intercalate qs)
    (h : ∀ before after, Seam ps before after ↔ Seam qs before after) : ps = qs := by
  induction ps generalizing qs with
  | nil => exact absurd rfl hps
  | cons p ps ih =>
    match ps, qs with
    | _, [] => exact absurd rfl hqs
    | [], [q] =>
      rw [List.intercalate_singleton, List.intercalate_singleton] at hjoined
      rw [hjoined]
    | [], q :: q' :: qs =>
      have hseam := (h q _).mpr (seam_first q q' qs)
      exact absurd hseam not_seam_singleton
    | p' :: ps, [q] =>
      have hseam := (h p _).mp (seam_first p p' ps)
      exact absurd hseam not_seam_singleton
    | p' :: ps, q :: q' :: qs =>
      obtain rfl := head_eq_of_seam ((h p _).mp (seam_first p p' ps)) ((h q _).mpr (seam_first q q' qs))
      -- behind the first part, the places are those of the other parts
      have hrest : p' :: ps = q' :: qs := by
        refine ih (List.cons_ne_nil _ _) (List.cons_ne_nil _ _) ?_ fun before after => ?_
        · rw [List.intercalate_cons_cons, List.intercalate_cons_cons] at hjoined
          exact List.append_cancel_left hjoined
        · have hseam := h (p ++ (word ++ before)) after
          simp only [seam_cons_cons_iff, append_word_ne, false_and, false_or, List.append_cancel_left_eq,
            exists_eq_left'] at hseam
          exact hseam
      rw [hrest]

theorem CutAtWords.unique (hps : CutAtWords cs ps) (hqs : CutAtWords cs qs) : ps = qs :=
  eq_of_seam_iff hps.ne_nil hqs.ne_nil (hps.joined.trans hqs.joined.symm) fun before after =>
    (hps.seam_iff before after).trans (hqs.seam_iff before after).symm

/-! ## What is put between the parts -/

/-- **The parts of a text** have the word between them, and then what is put in its place. -/
theorem exists_parts (replacement cs : List Char) (hfront : endsInWord front = inWord) :
    ∃ p ps, replacement.intercalate (p :: ps) = expandFrom replacement inWord cs ∧
      word.intercalate (p :: ps) = cs ∧
      ∀ before after, Seam (p :: ps) before after ↔ AloneBehind front cs before after := by
  -- a character that begins no such word belongs to the first part
  have hkept : ∀ {front cs : List Char} {c : Char} {p : List Char} {ps : List (List Char)},
      (∀ after, ¬ AloneBehind front (c :: cs) [] after) →
      (∀ before after, Seam (p :: ps) before after ↔ AloneBehind (front ++ [c]) cs before after) →
      ∀ before after, Seam ((c :: p) :: ps) before after ↔ AloneBehind front (c :: cs) before after := by
    intro front cs c p ps hnot hseam before after
    simp only [seam_cons_head_iff, aloneBehind_cons_iff, hnot, and_false, false_or, hseam]
  fun_induction expandFrom replacement inWord cs generalizing front with
  | case1 inWord =>
    refine ⟨[], [], List.intercalate_singleton, List.intercalate_singleton, fun before after => ?_⟩
    constructor
    · intro h
      exact absurd h not_seam_singleton
    · intro h
      have heq := h.eq
      simp [word] at heq
  | case2 inWord cs hkeep ih =>
    have hletter : endsInWord (front ++ ['a']) = true := Text.endsInWord_concat _ _
    obtain ⟨p, ps, hexpand, hjoined, hseam⟩ := ih hletter
    refine ⟨'a' :: p, ps, ?_, ?_, hkept (fun after h => ?_) hseam⟩
    · rw [intercalate_cons_head, hexpand]
    · rw [intercalate_cons_head, hjoined]
    · have heq : word ++ cs = word ++ after := h.eq
      have hcs : cs = after := List.append_cancel_left heq
      have hbefore := h.before
      rw [List.append_nil, hfront] at hbefore
      rw [hbefore, hcs, h.after] at hkeep
      exact absurd hkeep (by decide)
  | case3 inWord cs hword ih =>
    simp only [Bool.or_eq_true, not_or, Bool.not_eq_true] at hword
    obtain ⟨hout, hcs⟩ := hword
    have hletter : endsInWord (front ++ word) = true := Text.endsInWord_append _ (List.cons_ne_nil _ _)
    obtain ⟨p, ps, hexpand, hjoined, hseam⟩ := ih hletter
    refine ⟨[], p :: ps, ?_, ?_, fun before after => ?_⟩
    · rw [List.intercalate_cons_cons, hexpand]
      rfl
    · rw [List.intercalate_cons_cons, hjoined]
      rfl
    · have hwhole : AloneBehind front ('a' :: 'n' :: 's' :: cs) before after ↔ _ :=
        aloneBehind_word_iff (hfront.trans hout) hcs
      rw [hwhole, seam_cons_cons_iff, hjoined]
      simp only [List.nil_append, hseam]
  | case4 inWord c cs hc ih =>
    obtain ⟨p, ps, hexpand, hjoined, hseam⟩ := ih (Text.endsInWord_concat front c)
    refine ⟨c :: p, ps, ?_, ?_, hkept (fun after h => ?_) hseam⟩
    · rw [intercalate_cons_head, hexpand]
    · rw [intercalate_cons_head, hjoined]
    · obtain ⟨rfl, hcs⟩ := List.cons.inj h.eq
      exact hc after rfl hcs

theorem expandFrom_eq_self (hfront : endsInWord front = inWord) (h : ∀ before after, ¬ AloneBehind front cs before after) :
    expandFrom replacement inWord cs = cs := by
  obtain ⟨p, ps, hexpand, hjoined, hseam⟩ := exists_parts replacement cs hfront
  cases ps with
  | nil =>
    rw [List.intercalate_singleton] at hexpand hjoined
    rw [← hexpand, hjoined]
  | cons q ps =>
    have hcut := (hseam p _).mp (seam_first p q ps)
    exact absurd hcut (h _ _)

/-! ## What is put in -/

theorem notMem_plainText (x : Float) : 's' ∉ Decimal.plainText x := by
  cases hx : Double.classify x with
  | notANumber =>
    simp only [Decimal.plainText, hx]
    decide
  | infinite negative =>
    simp only [Decimal.plainText, hx]
    cases negative <;> decide
  | finite negative units =>
    obtain ⟨m, hm, htext, -⟩ := Decimal.exists_numeral_plainText hx
    have hnumeral : 's' ∉ m.text := by
      intro hmem
      exact absurd (Numeral.toNat_mem_text hm hmem).2 (by decide)
    rw [htext]
    cases negative <;> simpa using hnumeral

theorem eq_nil_of_word {tail rest us : List Char} (hr : replacement = '(' :: (tail ++ [')'])) (hs : 's' ∉ tail)
    (hsuffix : us <:+ replacement) (h : word ++ after = us ++ rest) : us = [] := by
  obtain hnil | ⟨front, last, rfl⟩ := List.eq_nil_or_concat' us
  · exact hnil
  · have hlast : last = ')' := by
      obtain ⟨ds, hds⟩ := hsuffix
      rw [hr, ← List.append_assoc, ← List.cons_append] at hds
      exact (List.append_singleton_inj.mp hds).2
    have hnot : 's' ∉ replacement := by
      rw [hr]
      simpa using hs
    obtain hin | hover := List.prefix_or_prefix_of_prefix ⟨rest, h.symm⟩ (List.prefix_append word after)
    · have hmem : ')' ∈ word := hin.subset (by simp [hlast])
      exact absurd hmem (by decide)
    · have hmem : 's' ∈ front ++ [last] := hover.subset (by decide)
      exact absurd (hsuffix.subset hmem) hnot

theorem exists_behind_replacement {tail : List Char} (hr : replacement = '(' :: (tail ++ [')'])) (hs : 's' ∉ tail)
    (h : replacement ++ cs = before ++ (word ++ after)) :
    ∃ rest, before = replacement ++ rest ∧ cs = rest ++ (word ++ after) := by
  obtain hin | ⟨us, hus, heq⟩ := List.append_eq_append_iff.mp h
  · exact hin
  · obtain rfl := eq_nil_of_word hr hs ⟨before, hus.symm⟩ heq
    exact ⟨[], by rw [hus, List.append_nil, List.append_nil], heq.symm⟩

theorem startsInWord_expandFrom_inWord (cs : List Char) :
    startsInWord (expandFrom replacement true cs) = startsInWord cs := by
  cases cs with
  | nil => rfl
  | cons c cs => rw [expandFrom_inWord]; rfl

theorem not_alone_kept {seen : List Char} (hseen : endsInWord seen = inWord)
    (hkeep : (inWord || startsInWord cs) = true) :
    ¬ AloneBehind seen ('a' :: expandFrom replacement true ('n' :: 's' :: cs)) [] after := by
  intro h
  have hletters : ['n', 's'].all Text.isWord = true := by decide
  have hkept : expandFrom replacement true ('n' :: 's' :: cs) = ['n', 's'] ++ expandFrom replacement true cs :=
    expandFrom_inWord_append (List.all_eq_true.mp hletters)
  have heq := h.eq
  rw [hkept] at heq
  have hword : word ++ expandFrom replacement true cs = word ++ after := heq
  have hcs : startsInWord cs = false := by
    rw [← startsInWord_expandFrom_inWord cs, List.append_cancel_left hword]
    exact h.after
  have hbefore := h.before
  rw [List.append_nil, hseen] at hbefore
  rw [hbefore, hcs] at hkeep
  exact absurd hkeep (by decide)

/-- **No word is left** that stands by itself. Behind what is put in the text goes on as behind a word, but for the
parenthesis there; and it goes on with no word character. -/
theorem not_alone_expandFrom {tail : List Char} (hr : replacement = '(' :: (tail ++ [')'])) (hs : 's' ∉ tail)
    {seen : List Char} (hseen : endsInWord seen = inWord ∨ startsInWord cs = false) :
    ¬ AloneBehind seen (expandFrom replacement inWord cs) before after := by
  fun_induction expandFrom replacement inWord cs generalizing seen before with
  | case1 inWord =>
    intro h
    have heq := h.eq
    simp [word] at heq
  | case2 inWord cs hkeep ih =>
    intro h
    obtain ⟨rfl, hhere⟩ | ⟨rest, rfl, hrest⟩ := aloneBehind_cons_iff.mp h
    · have hletter : startsInWord ('a' :: 'n' :: 's' :: cs) = true := rfl
      have hin : endsInWord seen = inWord := hseen.resolve_right (by rw [hletter]; decide)
      exact not_alone_kept hin hkeep hhere
    · exact ih (.inl (Text.endsInWord_concat _ _)) hrest
  | case3 inWord cs hword ih =>
    simp only [Bool.or_eq_true, not_or, Bool.not_eq_true] at hword
    intro h
    obtain ⟨rest, rfl, heq⟩ := exists_behind_replacement hr hs h.eq
    have hbefore := h.before
    rw [← List.append_assoc] at hbefore
    exact ih (.inr hword.2) ⟨heq, hbefore, h.after⟩
  | case4 inWord c cs hc ih =>
    intro h
    obtain ⟨rfl, hhere⟩ | ⟨rest, rfl, hrest⟩ := aloneBehind_cons_iff.mp h
    · -- it would have been there before
      have hne : ∀ ds, c :: cs ≠ word ++ ds := by
        intro ds heq
        obtain ⟨rfl, hcs⟩ := List.cons.inj heq
        exact hc ds rfl hcs
      have hcons : expandFrom replacement inWord (c :: cs) = word ++ after := (expandFrom_cons hne).trans hhere.eq
      obtain ⟨ds, hds⟩ := isPrefix_of_expandFrom hr ⟨after, hcons.symm⟩ (by decide)
      exact hne ds hds.symm
    · exact ih (.inl (Text.endsInWord_concat _ _)) hrest

end Answer

namespace Session

/-- **The last answer is put in the place of its word**, just where that stands by itself. There is one way to cut a
text there; with the answer in parentheses between the parts, no place is left to cut, so that nothing changes if it is
put in again. Where there is none to begin with, the text stays as it is. -/
theorem expand_cut (s : Session) (text : String) :
    ∃ parts, (∀ parts', Answer.CutAtWords text.toList parts' ↔ parts' = parts) ∧
      (s.expand text).toList = ('(' :: (Decimal.plainText s.answer ++ [')'])).intercalate parts ∧
      (∀ before after, ¬ Answer.Alone (s.expand text).toList before after) ∧
      s.expand (s.expand text) = s.expand text ∧
      ((∀ before after, ¬ Answer.Alone text.toList before after) → s.expand text = text) := by
  obtain ⟨p, ps, hexpand, hjoined, hseam⟩ :=
    Answer.exists_parts (Answer.replacement s.answer) text.toList Text.endsInWord_nil
  have hcut : Answer.CutAtWords text.toList (p :: ps) := ⟨List.cons_ne_nil _ _, hjoined, hseam⟩
  have htext : ∀ text : String, (s.expand text).toList =
      Answer.expandFrom (Answer.replacement s.answer) false text.toList := fun text => String.toList_ofList
  have hself : ∀ text : String, (∀ before after, ¬ Answer.Alone text.toList before after) →
      s.expand text = text := by
    intro text hnone
    rw [← String.toList_inj, htext, Answer.expandFrom_eq_self Text.endsInWord_nil hnone]
  have hnone : ∀ before after, ¬ Answer.Alone (s.expand text).toList before after := by
    intro before after
    rw [htext]
    exact Answer.not_alone_expandFrom rfl (Answer.notMem_plainText s.answer) (.inl Text.endsInWord_nil)
  refine ⟨p :: ps, fun parts' => ⟨fun h => h.unique hcut, fun h => h ▸ hcut⟩, ?_, hnone, hself _ hnone, hself text⟩
  rw [htext, ← hexpand]
  rfl

end Session

end SciCalc
