/-
Which texts have tokens, and which ones (`ofText_eq_ok_iff`). A text has tokens just if it is made of
lexemes with white space anywhere between them, each of which is, of the text from there on, the longest
number, or else the longest name, or else a sign. There is one way at most to take a text apart like this.

What the scan takes in one step is such a lexeme (`split?_eq_some_iff`). For numbers this is the question
whether a numeral that is read part by part, each part as long as it can be, is the longest one as a whole
(`exists_split?_of_text`); the rest is an induction on the pieces of the text.
-/
import SciCalc.Proofs.Decimal.OfText
import SciCalc.Proofs.Token.Pattern

namespace SciCalc

/-! ## The longest number -/

namespace Numeral

variable {cs ds rest : List Char} {n : Numeral}

theorem isDigit_of_mem_splitFraction {c : Char} (hc : c ∈ (splitFraction cs).1) : c.isDigit = true := by
  unfold splitFraction at hc
  split at hc
  · simp only at hc
    split at hc
    · cases hc
    · exact List.mem_takeWhile_imp hc
  · cases hc

theorem eq_of_splitSign {c : Char} (hc : c ∈ (splitSign cs).1) : c = '+' ∨ c = '-' := by
  unfold splitSign at hc
  split at hc
  · exact .inl (Option.some.inj hc).symm
  · exact .inr (Option.some.inj hc).symm
  · cases hc

theorem wellFormed_of_splitExponent {e : Exponent} (he : e ∈ (splitExponent cs).1) : e.WellFormed := by
  unfold splitExponent at he
  split at he
  · simp only at he
    split at he
    · cases he
    · next hdigits =>
      cases he
      exact ⟨fun _ hc => eq_of_splitSign hc, fun _ hc => List.mem_takeWhile_imp hc, hdigits⟩
  · cases he

theorem wellFormed_of_split? (h : split? cs = some (n, rest)) : n.WellFormed := by
  simp only [split?] at h
  split at h
  · cases h
  · next hne =>
    simp only [Option.some.injEq, Prod.mk.injEq] at h
    obtain ⟨rfl, -⟩ := h
    exact ⟨fun _ hc => List.mem_takeWhile_imp hc, fun _ hc => isDigit_of_mem_splitFraction hc,
      Decidable.not_and_iff_or_not.mp hne, fun _ he => wellFormed_of_splitExponent he⟩

/-- **In front of any text, no less is taken than a numeral** that stands there. The last part of it that
is not empty may be longer, and then there may be parts behind it. -/
theorem exists_split?_of_text (hn : n.WellFormed) (rest : List Char) :
    ∃ m rest', split? (n.text ++ rest) = some (m, rest') ∧ n.text.length ≤ m.text.length := by
  obtain ⟨whole, fraction, exponent⟩ := n
  have hwhole : ∀ c ∈ whole, c.isDigit = true := hn.whole
  have hfraction : ∀ c ∈ fraction, c.isDigit = true := hn.fraction
  cases exponent with
  | some e =>
    have hhead : ∀ c ∈ (e.text ++ rest).head?, c.isDigit = false ∧ c ≠ '.' := by
      intro c hc
      cases hc
      decide
    have hsplit := split?_digits_append hwhole hfraction hn.ne_nil hhead
    rw [splitExponent_text_append (hn.exponent e rfl), ← List.append_assoc] at hsplit
    refine ⟨_, _, hsplit, ?_⟩
    simp [text, Exponent.text]
  | none =>
    by_cases hnil : fraction = []
    · have hne : whole ≠ [] := hn.ne_nil.resolve_right (not_not_intro hnil)
      have htext : text ⟨whole, fraction, none⟩ = whole := by simp [text, hnil]
      rw [htext]
      refine ⟨_, _, split?_of_parts (splitDigits_append_of_forall hwhole) rfl (.inl (by simp [hne])), ?_⟩
      simp only [text, List.length_append]
      omega
    · have htext : text ⟨whole, fraction, none⟩ = whole ++ '.' :: fraction := by simp [text, hnil]
      have hdigits : splitDigits (whole ++ ('.' :: fraction ++ rest)) = (whole, '.' :: fraction ++ rest) :=
        splitDigits_append_of_head hwhole fun c hc => by cases hc; rfl
      have hpoint : splitFraction ('.' :: fraction ++ rest) =
          (fraction ++ (splitDigits rest).1, (splitDigits rest).2) := by
        simp [splitFraction, splitDigits_append_of_forall hfraction, hnil]
      rw [htext, List.append_assoc]
      refine ⟨_, _, split?_of_parts hdigits hpoint (.inr (by simp [hnil])), ?_⟩
      simp [text, hnil]

end Numeral

/-! ## Lexemes -/

namespace Token

variable {cs ds lexeme lexeme' rest blank : List Char} {t t' : Token} {c : Char} {l : Language Char}
  {pieces pieces' : List Piece} {offset : Nat}

/-- Whether a text is the longest one of a language that stands at the front of another. -/
structure Longest (l : Language Char) (cs lexeme : List Char) : Prop where
  mem : lexeme ∈ l
  front : lexeme <+: cs
  longest : ∀ other ∈ l, other <+: cs → other.length ≤ lexeme.length

/-- The signs that are tokens by themselves. -/
def signTokens : List (Char × Token) :=
  [('^', .operator .pow), ('*', .operator .mul), ('/', .operator .div), ('+', .operator .add),
   ('%', .operator .rem), ('(', .leftParen), (')', .rightParen), (',', .comma), ('!', .factorial),
   ('-', .operator .sub)]

/-- Whether a token stands at the front of a text, and with which characters. A number comes before a
name, and a name before a sign. -/
inductive LexemeAt (cs : List Char) : List Char → Token → Prop where
  | number {lexeme : List Char} {x : Float} (taken : Longest Pattern.number cs lexeme)
      (read : Decimal.doubleOfText? lexeme = some x) : LexemeAt cs lexeme (.number x)
  | name {lexeme : List Char} (noNumber : ∀ other ∈ Pattern.number, ¬other <+: cs)
      (taken : Longest Pattern.name cs lexeme) : LexemeAt cs lexeme (.identifier (String.ofList lexeme))
  | sign {c : Char} {t : Token} (noNumber : ∀ other ∈ Pattern.number, ¬other <+: cs)
      (noName : ∀ other ∈ Pattern.name, ¬other <+: cs) (taken : [c] <+: cs)
      (listed : (c, t) ∈ signTokens) : LexemeAt cs [c] t

theorem Longest.unique (h : Longest l cs lexeme) (h' : Longest l cs lexeme') : lexeme = lexeme' :=
  (List.prefix_of_prefix_length_le h.front h'.front (h'.longest _ h.mem h.front)).eq_of_length_le
    (h.longest _ h'.mem h'.front)

theorem ofSymbol?_eq_some_iff : ofSymbol? c = some t ↔ (c, t) ∈ signTokens := by
  constructor
  · intro h
    have hc := mem_signs_of_ofSymbol? h
    simp only [signs, List.mem_cons, List.not_mem_nil, or_false] at hc
    rcases hc with rfl | rfl | rfl | rfl | rfl | rfl | rfl | rfl | rfl | rfl <;> cases h <;>
      simp [signTokens]
  · have hall : ∀ sign ∈ signTokens, ofSymbol? sign.1 = some sign.2 := by decide
    exact hall (c, t)

theorem longest_of_split? {n : Numeral} (h : Numeral.split? cs = some (n, rest)) :
    Longest Pattern.number cs n.text where
  mem := Pattern.mem_number_iff.mpr ⟨n, Numeral.wellFormed_of_split? h, rfl⟩
  front := ⟨rest, Numeral.text_append_of_split? h⟩
  longest := by
    rintro other hother ⟨rest', rfl⟩
    obtain ⟨m, hm, rfl⟩ := Pattern.mem_number_iff.mp hother
    obtain ⟨n', rest'', hsplit, hle⟩ := Numeral.exists_split?_of_text hm rest'
    rw [hsplit] at h
    cases h
    exact hle

theorem split?_eq_none_iff : Numeral.split? cs = none ↔ ∀ other ∈ Pattern.number, ¬other <+: cs := by
  constructor
  · rintro h other hother ⟨rest, rfl⟩
    obtain ⟨m, hm, rfl⟩ := Pattern.mem_number_iff.mp hother
    obtain ⟨n, rest', hsplit, -⟩ := Numeral.exists_split?_of_text hm rest
    rw [hsplit] at h
    cases h
  · intro h
    refine Option.eq_none_iff_forall_ne_some.mpr fun r hr => ?_
    have hlongest : Longest Pattern.number cs r.1.text := longest_of_split? hr
    exact h _ hlongest.mem hlongest.front

theorem longest_name (hc : startsName c = true) :
    Longest Pattern.name (c :: cs) (c :: cs.takeWhile continuesName) where
  mem := Pattern.mem_name_iff.mpr ⟨c, _, rfl, hc, fun _ hd => List.mem_takeWhile_imp hd⟩
  front := (List.prefix_cons_inj c).mpr (List.takeWhile_prefix _)
  longest := by
    rintro other hother ⟨rest, heq⟩
    obtain ⟨d, ds, rfl, -, hds⟩ := Pattern.mem_name_iff.mp hother
    cases heq
    rw [List.append_eq, List.takeWhile_append_of_pos hds]
    simp

theorem startsName_of_mem_name {other : List Char} (h : other ∈ Pattern.name) (hfront : other <+: c :: cs) :
    startsName c = true := by
  obtain ⟨d, ds, rfl, hd, -⟩ := Pattern.mem_name_iff.mp h
  obtain ⟨rest, heq⟩ := hfront
  cases heq
  exact hd

theorem lexemeAt_of_split? (h : split? cs = some (t, lexeme, rest)) : LexemeAt cs lexeme t := by
  unfold split? at h
  split at h
  · next n rest' hn =>
    cases h
    exact .number (longest_of_split? hn) (Decimal.doubleOfText?_numeral (Numeral.wellFormed_of_split? hn))
  · next hnone =>
    have hnumber := split?_eq_none_iff.mp hnone
    split at h
    · cases h
    · split at h
      · next hc =>
        cases h
        exact .name hnumber (longest_name hc)
      · next hc =>
        obtain ⟨u, hu, heq⟩ := Option.map_eq_some_iff.mp h
        cases heq
        refine .sign hnumber (fun other hother hfront => ?_) ⟨_, rfl⟩ (ofSymbol?_eq_some_iff.mp hu)
        exact hc (startsName_of_mem_name hother hfront)

theorem LexemeAt.split? (h : LexemeAt (lexeme ++ rest) lexeme t) :
    split? (lexeme ++ rest) = some (t, lexeme, rest) := by
  cases h with
  | number taken read =>
    obtain ⟨n, hn, rfl⟩ := Pattern.mem_number_iff.mp taken.mem
    obtain ⟨m, rest', hsplit, -⟩ := Numeral.exists_split?_of_text hn rest
    have htext : n.text = m.text := taken.unique (longest_of_split? hsplit)
    obtain rfl : rest' = rest := by
      have happend := Numeral.text_append_of_split? hsplit
      rw [htext] at happend
      exact List.append_cancel_left happend
    rw [htext, Decimal.doubleOfText?_numeral (Numeral.wellFormed_of_split? hsplit)] at read
    cases read
    rw [htext] at hsplit ⊢
    simp only [Token.split?, hsplit]
  | name noNumber taken =>
    obtain ⟨c, ds, rfl, hc, -⟩ := Pattern.mem_name_iff.mp taken.mem
    have hlongest : c :: ds = c :: (ds ++ rest).takeWhile continuesName :=
      taken.unique (longest_name hc)
    have htake : (ds ++ rest).takeWhile continuesName = ds := (List.cons.inj hlongest).2.symm
    have hdrop : (ds ++ rest).dropWhile continuesName = rest := by
      have happend := List.takeWhile_append_dropWhile (p := continuesName) (l := ds ++ rest)
      rw [htake] at happend
      exact List.append_cancel_left happend
    have hnone := split?_eq_none_iff.mpr noNumber
    rw [List.cons_append] at hnone ⊢
    simp only [Token.split?, hnone, hc, if_true, htake, hdrop]
  | @sign c _ noNumber noName taken listed =>
    have hc : startsName c = false := by
      refine Bool.eq_false_iff.mpr fun hc => ?_
      exact noName [c] (Pattern.mem_name_iff.mpr ⟨c, [], rfl, hc, List.forall_mem_nil _⟩) taken
    have hnone := split?_eq_none_iff.mpr noNumber
    rw [List.singleton_append] at hnone ⊢
    simp [Token.split?, hnone, hc, ofSymbol?_eq_some_iff.mpr listed]

/-- A lexeme of one text is a lexeme of another that it stands at the front of, if there are no words at the
front of that text but those that were there before. -/
theorem LexemeAt.of_fronts (h : LexemeAt cs lexeme t) (hlexeme : lexeme <+: ds)
    (hfronts : ∀ us, us ∈ Pattern.number ∨ us ∈ Pattern.name → us <+: ds → us <+: cs) :
    LexemeAt ds lexeme t := by
  have hlongest : ∀ l : Language Char, (∀ us ∈ l, us ∈ Pattern.number ∨ us ∈ Pattern.name) →
      Longest l cs lexeme → Longest l ds lexeme := fun l hl taken =>
    ⟨taken.mem, hlexeme, fun us hus hle => taken.longest us hus (hfronts us (hl us hus) hle)⟩
  have hnone : ∀ l : Language Char, (∀ us ∈ l, us ∈ Pattern.number ∨ us ∈ Pattern.name) →
      (∀ us ∈ l, ¬us <+: cs) → ∀ us ∈ l, ¬us <+: ds := fun l hl hno us hus hle =>
    hno us hus (hfronts us (hl us hus) hle)
  have hnumber : ∀ us ∈ Pattern.number, us ∈ Pattern.number ∨ us ∈ Pattern.name := fun _ => .inl
  have hname : ∀ us ∈ Pattern.name, us ∈ Pattern.number ∨ us ∈ Pattern.name := fun _ => .inr
  cases h with
  | number taken read => exact .number (hlongest _ hnumber taken) read
  | name noNumber taken => exact .name (hnone _ hnumber noNumber) (hlongest _ hname taken)
  | sign noNumber noName taken listed =>
    exact .sign (hnone _ hnumber noNumber) (hnone _ hname noName) hlexeme listed

theorem lexeme_of_identifier {name : String} (h : LexemeAt cs lexeme (.identifier name)) :
    lexeme = name.toList := by
  have hsigns : ∀ sign ∈ signTokens, sign.2 ≠ .identifier name := by simp [signTokens]
  generalize ht : Token.identifier name = u at h
  cases h with
  | number => cases ht
  | name =>
    rw [identifier.injEq] at ht
    rw [ht, String.toList_ofList]
  | sign noNumber noName taken listed => exact absurd ht.symm (hsigns _ listed)

/-- **What the scan takes** is the token at the front of the text. -/
theorem split?_eq_some_iff :
    split? cs = some (t, lexeme, rest) ↔ LexemeAt cs lexeme t ∧ lexeme ++ rest = cs := by
  constructor
  · exact fun h => ⟨lexemeAt_of_split? h, append_of_split? h⟩
  · rintro ⟨h, rfl⟩
    exact h.split?

/-! ## Whole texts -/

/-- A token of a text, with the white space in front of it and the characters it is written with. -/
structure Piece where
  blank : List Char
  lexeme : List Char
  token : Token

/-- Whether a text is made of these pieces, with white space or nothing behind the last one. -/
inductive Decomposed : List Char → List Piece → Prop where
  | nil {blank : List Char} (skipped : ∀ c ∈ blank, Text.isBlank c = true) : Decomposed blank []
  | cons {blank lexeme rest : List Char} {t : Token} {pieces : List Piece}
      (skipped : ∀ c ∈ blank, Text.isBlank c = true) (taken : LexemeAt (lexeme ++ rest) lexeme t)
      (others : Decomposed rest pieces) : Decomposed (blank ++ (lexeme ++ rest)) (⟨blank, lexeme, t⟩ :: pieces)

theorem decomposed_nil_iff : Decomposed cs [] ↔ ∀ c ∈ cs, Text.isBlank c = true :=
  ⟨fun h => by cases h; assumption, .nil⟩

theorem decomposed_cons_iff {piece : Piece} :
    Decomposed cs (piece :: pieces) ↔ piece.blank = cs.takeWhile Text.isBlank ∧
      ∃ rest, split? (Text.trimStart cs) = some (piece.token, piece.lexeme, rest) ∧
        Decomposed rest pieces := by
  constructor
  · rintro (_ | @⟨blank, lexeme, rest, t, _, skipped, taken, others⟩)
    have hsplit := taken.split?
    obtain ⟨c, ds, hlexeme⟩ := List.exists_cons_of_ne_nil (ne_nil_of_split? hsplit)
    have hhead : ∀ d ∈ (lexeme ++ rest).head?, Text.isBlank d = false := by
      intro d hd
      rw [hlexeme] at hsplit hd
      cases hd
      exact isBlank_eq_false_of_split? hsplit
    obtain ⟨htake, hdrop⟩ := Numeral.takeWhile_append_of_head skipped hhead
    rw [Text.trimStart, hdrop]
    exact ⟨htake.symm, rest, hsplit, others⟩
  · obtain ⟨blank, lexeme, t⟩ := piece
    rintro ⟨rfl, rest, hsplit, others⟩
    obtain ⟨taken, happend⟩ := split?_eq_some_iff.mp hsplit
    rw [← happend] at taken
    have skipped : ∀ c ∈ cs.takeWhile Text.isBlank, Text.isBlank c = true := fun _ hc =>
      List.mem_takeWhile_imp hc
    have hcons := Decomposed.cons skipped taken others
    rwa [happend, Text.trimStart, List.takeWhile_append_dropWhile] at hcons

/-- **A text is taken apart in one way** at most. -/
theorem Decomposed.unique (h : Decomposed cs pieces) (h' : Decomposed cs pieces') : pieces = pieces' := by
  have hnot : ∀ {cs piece pieces}, Decomposed cs [] → ¬Decomposed cs (piece :: pieces) := by
    intro cs piece pieces hnil hcons
    obtain ⟨-, rest, hsplit, -⟩ := decomposed_cons_iff.mp hcons
    rw [Text.trimStart, List.dropWhile_eq_nil_iff.mpr (decomposed_nil_iff.mp hnil)] at hsplit
    cases hsplit
  induction pieces generalizing cs pieces' with
  | nil =>
    cases pieces' with
    | nil => rfl
    | cons piece' pieces' => exact absurd h' (hnot h)
  | cons piece pieces ih =>
    cases pieces' with
    | nil => exact absurd h (hnot h')
    | cons piece' pieces' =>
      obtain ⟨hblank, rest, hsplit, others⟩ := decomposed_cons_iff.mp h
      obtain ⟨hblank', rest', hsplit', others'⟩ := decomposed_cons_iff.mp h'
      rw [hsplit, Option.some.injEq, Prod.mk.injEq, Prod.mk.injEq] at hsplit'
      obtain ⟨htoken, hlexeme, rfl⟩ := hsplit'
      have hpiece : piece = piece' := by
        obtain ⟨blank, lexeme, t⟩ := piece
        obtain ⟨blank', lexeme', t'⟩ := piece'
        simp only [Piece.mk.injEq]
        exact ⟨hblank.trans hblank'.symm, hlexeme, htoken⟩
      rw [hpiece, ih others others']

theorem exists_decomposed_of_scan {ts : List Token} (h : scan offset cs = .ok ts) :
    ∃ pieces, Decomposed cs pieces ∧ pieces.map Piece.token = ts := by
  fun_induction scan offset cs generalizing ts with
  | case1 offset cs htrim =>
    cases h
    exact ⟨[], .nil (List.dropWhile_eq_nil_iff.mp htrim), rfl⟩
  | case2 offset cs c after htrim hnone => cases h
  | case3 offset cs start =>
    rename_i c after htrim t lexeme rest hsplit ih
    obtain ⟨us, hus, rfl⟩ : ∃ us, scan (start + Text.utf8Length lexeme) rest = .ok us ∧ t :: us = ts := by
      cases hus : scan (start + Text.utf8Length lexeme) rest with
      | ok us => rw [hus] at h; exact ⟨us, rfl, Except.ok.inj h⟩
      | error e => rw [hus] at h; cases h
    obtain ⟨pieces, others, rfl⟩ := ih hus
    refine ⟨⟨cs.takeWhile Text.isBlank, lexeme, t⟩ :: pieces, ?_, rfl⟩
    exact decomposed_cons_iff.mpr ⟨rfl, rest, by rw [htrim]; exact hsplit, others⟩

theorem Decomposed.scan (h : Decomposed cs pieces) (offset : Nat) :
    scan offset cs = .ok (pieces.map Piece.token) := by
  induction h generalizing offset with
  | nil skipped => exact scan_blank skipped
  | cons skipped taken others ih =>
    rw [scan_append skipped taken.split?, ih]
    rfl

/-- **The texts that have tokens** are those that can be taken apart, and the tokens are those of the
pieces. A text is taken apart in one way at most, and every number in it has a double. -/
theorem ofText_eq_ok_iff (text : String) :
    (∀ ts, ofText text = .ok ts ↔
      ∃ pieces, Decomposed (Keypad.normalize text.toList) pieces ∧ pieces.map Piece.token = ts) ∧
    (∀ pieces pieces', Decomposed (Keypad.normalize text.toList) pieces →
      Decomposed (Keypad.normalize text.toList) pieces' → pieces = pieces') ∧
    ∀ lexeme ∈ Pattern.number, ∃ x, Decimal.doubleOfText? lexeme = some x := by
  refine ⟨fun ts => ⟨exists_decomposed_of_scan, ?_⟩, fun _ _ h h' => h.unique h', fun lexeme h => ?_⟩
  · rintro ⟨pieces, h, rfl⟩
    exact h.scan 0
  · obtain ⟨n, hn, rfl⟩ := Pattern.mem_number_iff.mp h
    exact ⟨_, Decimal.doubleOfText?_numeral hn⟩

end Token

end SciCalc
