/-
The tokens of a text with the last answer in it. Where the word stands by itself (`StandsAt`) there are the
tokens of a group, all others are the tokens of the text as it was typed (`exists_decomposed_expandFrom`).

The two texts are taken apart side by side, one piece of the typed text after the other. A piece in front of
a word is found again when the word has been replaced, since nothing changes up to the parenthesis, and no
number or name goes on with one (`LexemeAt.of_front`).
-/
import SciCalc.Proofs.Answer.Expand
import SciCalc.Proofs.Answer.Place
import SciCalc.Proofs.Decimal.Plain
import SciCalc.Proofs.Double.Bits
import SciCalc.Proofs.Program.Grouped
import SciCalc.Proofs.Token.Longest

namespace SciCalc

/-! ## Lexemes in front of a parenthesis -/

namespace Token

variable {cs lexeme rest rest' us : List Char} {t : Token}

theorem notMem_paren_of_mem_number (h : us ∈ Pattern.number) : '(' ∉ us := by
  obtain ⟨n, hn, rfl⟩ := Pattern.mem_number_iff.mp h
  intro hmem
  exact absurd (Numeral.toNat_mem_text hn hmem).1 (by decide)

theorem notMem_paren_of_mem_name (h : us ∈ Pattern.name) : '(' ∉ us := by
  obtain ⟨c, cs, rfl, hc, hcs⟩ := Pattern.mem_name_iff.mp h
  intro hmem
  rcases List.mem_cons.mp hmem with rfl | hmem
  · exact absurd hc (by decide)
  · exact absurd (hcs _ hmem) (by decide)

/-- A lexeme stays one where the text behind it is changed, if up to the first parenthesis that text was
there before. -/
theorem LexemeAt.of_front (h : LexemeAt (lexeme ++ rest) lexeme t)
    (hrest : ∀ us, us <+: rest' → '(' ∉ us → us <+: rest) : LexemeAt (lexeme ++ rest') lexeme t := by
  refine h.of_fronts (List.prefix_append _ _) fun us hword hus => ?_
  have hparen : '(' ∉ us := hword.elim notMem_paren_of_mem_number notMem_paren_of_mem_name
  rcases List.prefix_or_prefix_of_prefix hus (List.prefix_append lexeme rest') with hle | ⟨vs, rfl⟩
  · exact hle.trans (List.prefix_append lexeme rest)
  · have hvs : vs <+: rest' := (List.prefix_append_right_inj lexeme).mp hus
    have hparen' : '(' ∉ vs := fun hmem => hparen (List.mem_append_right _ hmem)
    exact (List.prefix_append_right_inj lexeme).mpr (hrest vs hvs hparen')

end Token

namespace Answer

open Text (startsInWord endsInWord)
open Token (Piece Decomposed LexemeAt Longest)

variable {x : Float} {negative : Bool} {units : Nat} {replacement typed front cs blank lexeme rest : List Char}
  {pieces : List Piece} {t : Token}

/-! ## What is put in its place -/

theorem ascii_replacement (hx : Double.classify x = .finite negative units) :
    ∀ c ∈ Answer.replacement x, c.toNat < 0x80 ∧ c ≠ 'p' := by
  obtain ⟨m, hm, htext, -⟩ := Decimal.exists_numeral_plainText hx
  have he : 'e'.toNat < 0x80 := by decide
  have hnumeral : ∀ c ∈ m.text, c.toNat < 0x80 ∧ c ≠ 'p' := by
    intro c hc
    obtain ⟨-, hle⟩ := Numeral.toNat_mem_text hm hc
    refine ⟨Nat.lt_of_le_of_lt hle he, ?_⟩
    rintro rfl
    exact absurd hle (by decide)
  intro c hc
  rw [Answer.replacement, htext] at hc
  cases negative with
  | true =>
    simp only [if_true, List.mem_cons, List.mem_append, List.not_mem_nil, or_false] at hc
    rcases hc with rfl | (rfl | hc) | rfl
    · decide
    · decide
    · exact hnumeral c hc
    · decide
  | false =>
    simp only [Bool.false_eq_true, if_false, List.nil_append, List.mem_cons, List.mem_append,
      List.not_mem_nil, or_false] at hc
    rcases hc with rfl | hc | rfl
    · decide
    · exact hnumeral c hc
    · decide

theorem decomposed_sign {c : Char} (hblank : ∀ c ∈ blank, Text.isBlank c = true)
    (hc : Token.ofSymbol? c = some t) (h : Decomposed cs pieces) :
    Decomposed (blank ++ c :: cs) (⟨blank, [c], t⟩ :: pieces) := by
  have hsplit : Token.split? ([c] ++ cs) = some (t, [c], cs) := Token.split?_sign hc
  have hcons := Decomposed.cons hblank (Token.lexemeAt_of_split? hsplit) h
  exact hcons

/-- **A group for the answer**, whose tokens are a program that leaves the answer. -/
theorem exists_decomposed_replacement (hx : Double.classify x = .finite negative units)
    (hzero : units = 0 → negative = false) (hblank : ∀ c ∈ blank, Text.isBlank c = true)
    (h : Decomposed cs pieces) :
    ∃ inside p, Decomposed (blank ++ (Answer.replacement x ++ cs))
        (⟨blank, ['('], .leftParen⟩ :: (inside ++ ⟨[], [')'], .rightParen⟩ :: pieces)) ∧
      Program.ofTokens (inside.map Piece.token) = .ok p ∧
      ∀ mode stack, p.exec mode stack = .ok (x :: stack) := by
  obtain ⟨m, hm, htext, hdouble⟩ := Decimal.exists_numeral_plainText hx
  have hnone : ∀ c ∈ ([] : List Char), Text.isBlank c = true := List.forall_mem_nil _
  have hends : Token.EndsWord (')' :: cs) := by
    intro c hc
    cases hc
    decide
  have hclose : Decomposed (')' :: cs) (⟨[], [')'], .rightParen⟩ :: pieces) :=
    decomposed_sign hnone rfl h
  have hnumber : Decomposed (m.text ++ ')' :: cs)
      (⟨[], m.text, .number m.toDouble⟩ :: ⟨[], [')'], .rightParen⟩ :: pieces) :=
    .cons hnone (Token.lexemeAt_of_split? (Token.split?_numeral hm hends)) hclose
  rw [Answer.replacement, htext]
  cases negative with
  | false =>
    refine ⟨[⟨[], m.text, .number m.toDouble⟩], [.push m.toDouble], ?_, rfl, fun mode stack => ?_⟩
    · have hopen : Decomposed (blank ++ '(' :: (m.text ++ ')' :: cs)) (⟨blank, ['('], .leftParen⟩ :: _) :=
        decomposed_sign hblank rfl hnumber
      simpa using hopen
    · rw [hdouble, ← Double.eq_ofUnits_of_classify hx]
      rfl
  | true =>
    have hne : units ≠ 0 := fun h => by cases hzero h
    refine ⟨[⟨[], ['-'], .operator .sub⟩, ⟨[], m.text, .number m.toDouble⟩],
      [.push (Double.ofNat 0), .push m.toDouble, .operate .sub], ?_, rfl, fun mode stack => ?_⟩
    · have hminus : Decomposed ('-' :: (m.text ++ ')' :: cs)) (⟨[], ['-'], .operator .sub⟩ :: _) :=
        decomposed_sign hnone rfl hnumber
      have hopen : Decomposed (blank ++ '(' :: '-' :: (m.text ++ ')' :: cs))
          (⟨blank, ['('], .leftParen⟩ :: _) := decomposed_sign hblank rfl hminus
      simpa using hopen
    · have hsub : Operator.sub.apply (Double.ofNat 0) m.toDouble = x := by
        rw [hdouble]
        exact Double.zero_sub_ofUnits hx hne
      rw [← hsub]
      rfl

/-! ## Lexemes of the typed text -/

theorem expandFrom_name (taken : Longest Pattern.name (lexeme ++ rest) lexeme)
    (hnot : ¬(lexeme = ['a', 'n', 's'] ∧ endsInWord front = false ∧ startsInWord rest = false)) :
    expandFrom replacement (endsInWord front) (lexeme ++ rest) =
      lexeme ++ expandFrom replacement true rest := by
  obtain ⟨c, cs, rfl, hc, hcs⟩ := Pattern.mem_name_iff.mp taken.mem
  have hword : Text.isWord c = true := Text.isWord_of_continuesName (Token.continuesName_of_startsName hc)
  have hwords : ∀ d ∈ cs, Text.isWord d = true := fun d hd => Text.isWord_of_continuesName (hcs d hd)
  have htail : expandFrom replacement true (cs ++ rest) = cs ++ expandFrom replacement true rest :=
    expandFrom_inWord_append hwords
  rw [List.cons_append, List.cons_append, ← htail]
  by_cases hans : ∃ es, c :: (cs ++ rest) = 'a' :: 'n' :: 's' :: es
  · obtain ⟨es, heq⟩ := hans
    obtain ⟨rfl, htext⟩ := List.cons.inj heq
    -- the name goes on as long as it can, and so it begins with the word
    have hlongest : 'a' :: cs = 'a' :: (cs ++ rest).takeWhile Token.continuesName :=
      taken.unique (Token.longest_name hc)
    have hname : cs = 'n' :: 's' :: es.takeWhile Token.continuesName := by
      rw [(List.cons.inj hlongest).2, htext]
      rfl
    have hes : es = es.takeWhile Token.continuesName ++ rest := by
      rw [hname] at htext
      simpa using htext.symm
    rw [htext]
    refine expandFrom_kept ?_
    cases hfront : endsInWord front with
    | true => exact .inl rfl
    | false =>
      right
      rw [hes]
      cases hmore : es.takeWhile Token.continuesName with
      | cons d ds =>
        have hd : Token.continuesName d = true := List.mem_takeWhile_imp (by rw [hmore]; simp)
        exact Text.isWord_of_continuesName hd
      | nil =>
        rw [hmore] at hname
        rw [List.nil_append]
        refine Bool.eq_true_of_not_eq_false fun hrest => hnot ⟨?_, hfront, hrest⟩
        rw [hname]
  · rw [expandFrom_cons fun es heq => hans ⟨es, heq⟩, hword]

theorem expandFrom_lexeme (taken : LexemeAt (lexeme ++ rest) lexeme t)
    (hnot : ¬(t = .identifier "ans" ∧ endsInWord front = false ∧ startsInWord rest = false)) :
    expandFrom replacement (endsInWord front) (lexeme ++ rest) =
      lexeme ++ expandFrom replacement (endsInWord (front ++ lexeme)) rest := by
  cases taken with
  | number taken read =>
    obtain ⟨n, hn, rfl⟩ := Pattern.mem_number_iff.mp taken.mem
    refine expandFrom_append fun c hc => ?_
    rintro rfl
    exact absurd (Numeral.isDigit_or_of_mem_text hn hc) (by decide)
  | name noNumber taken =>
    have hlast : endsInWord (front ++ lexeme) = true := by
      obtain ⟨c, cs, rfl, hc, hcs⟩ := Pattern.mem_name_iff.mp taken.mem
      refine Text.endsInWord_append_of_forall _ (List.cons_ne_nil _ _) (List.forall_mem_cons.mpr ⟨?_, ?_⟩)
      · exact Text.isWord_of_continuesName (Token.continuesName_of_startsName hc)
      · exact fun d hd => Text.isWord_of_continuesName (hcs d hd)
    rw [hlast]
    refine expandFrom_name taken fun h => hnot ⟨?_, h.2⟩
    rw [h.1]
  | sign noNumber noName taken listed =>
    have hsigns : ∀ sign ∈ Token.signTokens, sign.1 ≠ 'a' := by decide
    refine expandFrom_append fun c hc => ?_
    rw [List.mem_singleton.mp hc]
    exact hsigns _ listed

/-- **The typed text and the text with the answer in it**, side by side: the one is taken apart like the
other, with a group in the place of each word. -/
theorem exists_decomposed_expandFrom (hx : Double.classify x = .finite negative units)
    (hzero : units = 0 → negative = false) (h : Decomposed rest pieces)
    (hread : Keypad.normalize typed = front ++ rest) :
    ∃ pieces', Decomposed (expandFrom (Answer.replacement x) (endsInWord front) rest) pieces' ∧
      Token.Grouped (answered x typed front pieces) (pieces'.map Piece.token) := by
  have hblank : ∀ {blank : List Char}, (∀ c ∈ blank, Text.isBlank c = true) → ∀ c ∈ blank, c ≠ 'a' := by
    rintro blank skipped c hc rfl
    exact absurd (skipped _ hc) (by decide)
  induction h generalizing front with
  | @nil blank skipped =>
    have hkept : expandFrom (Answer.replacement x) (endsInWord front) (blank ++ []) =
        blank ++ expandFrom (Answer.replacement x) (endsInWord (front ++ blank)) [] :=
      expandFrom_append (hblank skipped)
    rw [List.append_nil] at hkept
    refine ⟨[], ?_, .nil⟩
    rw [hkept, expandFrom, List.append_nil]
    exact .nil skipped
  | @cons blank lexeme rest t pieces skipped taken others ih =>
    have hbehind : Keypad.normalize typed = front ++ blank ++ lexeme ++ rest := by rw [hread]; simp
    obtain ⟨pieces', hpieces, hgrouped⟩ := ih hbehind
    have hstands : t = .identifier "ans" → (StandsAt typed (front ++ blank) ↔
        endsInWord (front ++ blank) = false ∧ startsInWord rest = false) := by
      rintro rfl
      have hlexeme : lexeme = ['a', 'n', 's'] := Token.lexeme_of_identifier taken
      refine standsAt_iff ?_
      rw [hread, hlexeme]
      simp
    rw [expandFrom_append (hblank skipped)]
    by_cases hword : t = .identifier "ans" ∧ StandsAt typed (front ++ blank)
    · obtain ⟨rfl, hplace⟩ := hword
      obtain ⟨hfront, hrest⟩ := (hstands rfl).mp hplace
      have hlexeme : lexeme = ['a', 'n', 's'] := Token.lexeme_of_identifier taken
      have hlast : endsInWord (front ++ blank ++ lexeme) = true := by
        rw [hlexeme]
        exact Text.endsInWord_append_of_forall _ (List.cons_ne_nil _ _) (List.all_eq_true.mp rfl)
      have htext : expandFrom (Answer.replacement x) false (lexeme ++ rest) =
          Answer.replacement x ++ expandFrom (Answer.replacement x) true rest := by
        rw [hlexeme]
        exact expandFrom_word hrest
      rw [hlast] at hpieces
      rw [hfront, htext]
      obtain ⟨inside, p, hdecomposed, hprogram, hvalue⟩ :=
        exists_decomposed_replacement hx hzero skipped hpieces
      refine ⟨_, hdecomposed, ?_⟩
      have hgroup := Token.Grouped.group hprogram hvalue hgrouped
      rw [answered, if_pos ⟨rfl, hplace⟩]
      simpa using hgroup
    · have hnot : ¬(t = .identifier "ans" ∧ endsInWord (front ++ blank) = false ∧
          startsInWord rest = false) := fun h => hword ⟨h.1, (hstands h.1).mpr h.2⟩
      rw [expandFrom_lexeme taken hnot, answered, if_neg hword]
      refine ⟨_, .cons skipped (taken.of_front fun us => ?_) hpieces, .same t hgrouped⟩
      exact isPrefix_of_expandFrom rfl

end Answer
end SciCalc
