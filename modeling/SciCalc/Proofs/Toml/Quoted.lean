/-
Quoted texts as TOML's grammar has them, between single or double marks, on one line or on several. A quoted text is
read as what it stands for, and what is behind it is left (`quotedText?_of_isQuoted`).

The readers of the two kinds differ in what they make of a backslash, and in nothing else. What they share is an
`IsReader`, for which the induction over the grammar is done once (`IsReader.read_content`).
-/
import SciCalc.Proofs.Token.Numeral
import SciCalc.Toml.Quoted

namespace SciCalc.Toml

/-! ## The grammar -/

/-- A line end. -/
inductive IsNewline : List Char → Prop
  | feed : IsNewline ['\n']
  | pair : IsNewline ['\r', '\n']

/-- Spaces and tabs. -/
def IsSpaces (cs : List Char) : Prop := ∀ c ∈ cs, isSpace c = true

/-- Spaces, tabs and line ends. -/
inductive IsBlank : List Char → Prop
  | nil : IsBlank []
  | space {c cs} : isSpace c = true → IsBlank cs → IsBlank (c :: cs)
  | newline {e cs} : IsNewline e → IsBlank cs → IsBlank (e ++ cs)

/-- Whether a text goes on in the same line: it does not begin with a line end. -/
def IsUnbroken (cs : List Char) : Prop := ∀ c ∈ cs.head?, c ≠ '\n' ∧ c ≠ '\r'

/-- The marks that a text can stand between. -/
def IsMark (c : Char) : Prop := c = '"' ∨ c = '\''

instance (c : Char) : Decidable (IsMark c) := inferInstanceAs (Decidable (_ ∨ _))

/-- The letters and marks that stand for a character behind a backslash, each with its character. -/
def escapes : List (Char × Char) :=
  [('b', '\x08'), ('t', '\t'), ('n', '\n'), ('f', '\x0c'), ('r', '\r'), ('"', '"'), ('\\', '\\')]

/-- The escape of a character: a letter or mark that stands for it, or the digits of its code. -/
inductive IsEscape : List Char → Char → Prop
  | simple {letter c} : (letter, c) ∈ escapes → IsEscape ['\\', letter] c
  | code {letter count digits c} : (letter, count) ∈ [('u', 4), ('U', 8)] → digits.length = count →
      (∀ d ∈ digits, isDigitOf 16 d = true) → ofDigits 16 digits = c.toNat → IsEscape ('\\' :: letter :: digits) c

/-- A backslash at the end of a line, and the blanks that go away with it. -/
inductive IsJoint : List Char → Prop
  | mk {spaces e blanks} : IsSpaces spaces → IsNewline e → IsBlank blanks →
      IsJoint ('\\' :: (spaces ++ (e ++ blanks)))

/-- What stands between the marks of a quoted text, and what it stands for. -/
inductive IsContent (mark : Char) (multiline : Bool) : (text content : List Char) → Prop
  | nil : IsContent mark multiline [] []
  | plain {c text content} : c ≠ mark → (mark = '"' → c ≠ '\\') → isControl c = false →
      IsContent mark multiline text content → IsContent mark multiline (c :: text) (c :: content)
  | escape {e c text content} : mark = '"' → IsEscape e c →
      IsContent mark multiline text content → IsContent mark multiline (e ++ text) (c :: content)
  | newline {e text content} : multiline = true → IsNewline e →
      IsContent mark multiline text content → IsContent mark multiline (e ++ text) (e ++ content)
  /-- Up to two marks together do not close a text on several lines. -/
  | marks {n text content} : multiline = true → n ≤ 2 → text.head? ≠ some mark →
      IsContent mark multiline text content →
      IsContent mark multiline (List.replicate n mark ++ text) (List.replicate n mark ++ content)
  | joint {j text content} : mark = '"' → multiline = true → IsJoint j →
      IsUnbroken text → (∀ c ∈ text.head?, isSpace c = false) →
      IsContent mark multiline text content → IsContent mark multiline (j ++ text) content

/-- The marks around a text. -/
def marks (mark : Char) (multiline : Bool) : List Char := List.replicate (if multiline then 3 else 1) mark

/-- A quoted text, and what it stands for. On several lines, a line end right after the marks is no part of it. -/
inductive IsQuoted : List Char → List Char → Prop
  | line {mark text content} : IsMark mark → IsContent mark false text content →
      IsQuoted (marks mark false ++ (text ++ marks mark false)) content
  | lines {mark text content} : IsMark mark → IsContent mark true text content → IsUnbroken text →
      IsQuoted (marks mark true ++ (text ++ marks mark true)) content
  | below {mark e text content} : IsMark mark → IsContent mark true text content → IsNewline e →
      IsQuoted (marks mark true ++ (e ++ (text ++ marks mark true))) content

/-- What both readers of the rest of a quoted text do: they stop at what closes it, and take a character that may stand
for itself as it is. In front of the double marks, backslashes have their meaning, too. -/
structure IsReader (mark : Char) (multiline : Bool) (read : List Char → Option (List Char × List Char)) : Prop where
  close {cs r} : closing? mark multiline cs = some r → read cs = some r
  step {c cs content rest} : closing? mark multiline (c :: cs) = none → (mark = '"' → c ≠ '\\') →
    allowed multiline c cs = true → read cs = some (content, rest) → read (c :: cs) = some (c :: content, rest)
  escape {e c cs content rest} : mark = '"' → IsEscape e c → read cs = some (content, rest) →
    read (e ++ cs) = some (c :: content, rest)
  joint {j cs r} : mark = '"' → multiline = true → IsJoint j → IsUnbroken cs → (∀ c ∈ cs.head?, isSpace c = false) →
    read cs = some r → read (j ++ cs) = some r

/-! ## Where a text begins -/

variable {multiline : Bool} {mark c : Char} {cs digits e front rest text content : List Char} {n : Nat}

theorem forall_head?_append {p : Char → Prop} (hfront : ∀ c ∈ front.head?, p c) (hcs : ∀ c ∈ cs.head?, p c) :
    ∀ c ∈ (front ++ cs).head?, p c := by
  cases front with
  | nil => exact hcs
  | cons d front => exact hfront

theorem forall_head?_marks {p : Char → Prop} (hmark : p mark) (rest : List Char) :
    ∀ c ∈ (marks mark multiline ++ rest).head?, p c := by
  cases multiline <;> exact fun c hc => Option.some.inj hc ▸ hmark

theorem afterNewline?_append (he : IsNewline e) (cs : List Char) : afterNewline? (e ++ cs) = some cs := by
  cases he <;> rfl

theorem afterNewline?_of_isUnbroken (h : IsUnbroken cs) : afterNewline? cs = none := by
  rw [afterNewline?]
  · rintro cs rfl
    exact (h '\n' rfl).1 rfl
  · rintro cs rfl
    exact (h '\r' rfl).2 rfl

theorem IsMark.spec (h : IsMark mark) :
    isControl mark = false ∧ isSpace mark = false ∧ mark ≠ '\\' ∧ mark ≠ '\n' ∧ mark ≠ '\r' := by
  rcases h with rfl | rfl <;> decide

/-! ## What closes a text -/

theorem closing?_of_ne (h : c ≠ mark) : closing? mark multiline (c :: cs) = none := by
  cases multiline <;> simp [closing?, h]

theorem takeWhile_replicate_append (h : cs.head? ≠ some mark) :
    (List.replicate n mark ++ cs).takeWhile (· = mark) = List.replicate n mark := by
  refine (Numeral.takeWhile_append_of_head (by simp) ?_).1
  rintro c hc
  refine decide_eq_false fun heq => h ?_
  rw [hc, heq]

theorem closing?_few (hn : n < 3) (h : cs.head? ≠ some mark) :
    closing? mark true (List.replicate n mark ++ cs) = none := by
  simp only [closing?, takeWhile_replicate_append h, List.length_replicate, if_true, if_pos hn]

/-- Three marks close a text on several lines. Those in front of them are the text's. -/
theorem closing?_lines (hn : n ≤ 2) (h : rest.head? ≠ some mark) :
    closing? mark true (List.replicate n mark ++ (marks mark true ++ rest)) = some (List.replicate n mark, rest) := by
  have hmarks : List.replicate n mark ++ (marks mark true ++ rest) = List.replicate (n + 3) mark ++ rest := by
    rw [marks, if_pos rfl, ← List.append_assoc, List.replicate_append_replicate]
  have hmany : ¬n + 3 < 3 := by omega
  have hbelonging : min (n + 3 - 3) 2 = n := by omega
  have hrest : (List.replicate (n + 3) mark ++ rest).drop (n + 3) = rest := List.drop_left' List.length_replicate
  simp only [hmarks, closing?, takeWhile_replicate_append h, List.length_replicate, if_true, if_neg hmany, hbelonging,
    hrest]

theorem closing?_line (mark : Char) (rest : List Char) :
    closing? mark false (marks mark false ++ rest) = some ([], rest) := by
  simp [closing?, marks]

/-! ## Readers -/

variable {read : List Char → Option (List Char × List Char)}

theorem IsReader.read_marks (h : IsReader mark true read) (hmark : isControl mark = false) (hescape : mark ≠ '\\')
    (hn : n < 3) (hcs : cs.head? ≠ some mark) (hread : read cs = some (content, rest)) :
    read (List.replicate n mark ++ cs) = some (List.replicate n mark ++ content, rest) := by
  induction n with
  | zero => exact hread
  | succ n ih =>
    refine h.step (closing?_few hn hcs) (fun _ => hescape) ?_ (ih (Nat.lt_of_succ_lt hn))
    rw [allowed, hmark]
    rfl

theorem IsReader.read_newline (h : IsReader mark true read) (hmark : isControl mark = false) (he : IsNewline e)
    (hread : read cs = some (content, rest)) : read (e ++ cs) = some (e ++ content, rest) := by
  have hfeed : read ('\n' :: cs) = some ('\n' :: content, rest) := by
    refine h.step (closing?_of_ne ?_) (by simp) rfl hread
    rintro rfl
    cases hmark
  cases he with
  | feed => exact hfeed
  | pair =>
    refine h.step (closing?_of_ne ?_) (by simp) rfl hfeed
    rintro rfl
    cases hmark

/-- **The rest of a quoted text** is read up to the marks that close it. -/
theorem IsReader.read_content (h : IsReader mark multiline read) (hmark : IsMark mark)
    (hcontent : IsContent mark multiline text content) (hrest : rest.head? ≠ some mark) :
    read (text ++ (marks mark multiline ++ rest)) = some (content, rest) := by
  obtain ⟨hcontrol, hspaceless, hescape, hline⟩ := hmark.spec
  induction hcontent with
  | nil =>
    refine h.close ?_
    cases multiline with
    | false => exact closing?_line mark rest
    | true => exact closing?_lines (Nat.zero_le 2) hrest
  | @plain c text content hne hbackslash hplain _ ih =>
    refine h.step (closing?_of_ne hne) hbackslash ?_ ih
    rw [allowed, hplain]
    rfl
  | escape hquote he _ ih =>
    rw [List.append_assoc]
    exact h.escape hquote he ih
  | newline hlines he _ ih =>
    subst hlines
    rw [List.append_assoc]
    exact h.read_newline hcontrol he ih
  | @marks n text content hlines hn htext _ ih =>
    subst hlines
    rw [List.append_assoc]
    cases text with
    | nil =>
      have hclose : read (marks mark true ++ rest) = some ([], rest) :=
        h.close (closing?_lines (Nat.zero_le 2) hrest)
      rw [List.nil_append, hclose] at ih
      rw [List.nil_append, ← (Prod.mk.inj (Option.some.inj ih)).1, List.append_nil]
      exact h.close (closing?_lines hn hrest)
    | cons c text =>
      exact h.read_marks hcontrol hescape (Nat.lt_succ_of_le hn) htext ih
  | joint hquote hlines hj hunbroken hspace _ ih =>
    rw [List.append_assoc]
    exact h.joint hquote hlines hj (forall_head?_append hunbroken (forall_head?_marks hline rest))
      (forall_head?_append hspace (forall_head?_marks hspaceless rest)) ih

/-! ## Between single marks -/

theorem isReader_literalText? (multiline : Bool) : IsReader '\'' multiline (literalText? multiline) where
  close {cs r} h := by
    cases cs with
    | nil => cases multiline <;> cases h
    | cons c cs => rw [literalText?, h]
  step hclosing _ hallowed hread := by
    rw [literalText?, hclosing, if_pos hallowed, hread]
    rfl
  escape h := absurd h (by decide)
  joint h := absurd h (by decide)

/-! ## Between double marks -/

theorem escapedText?_digits {following code : Nat} (hdigits : ∀ d ∈ digits, isDigitOf 16 d = true)
    (hlength : digits.length = following + 1)
    (hcode : digits.foldl (fun n d => 16 * n + digitValue d) code = c.toNat)
    (hread : escapedText? multiline (.character false) cs = some (content, rest)) :
    escapedText? multiline (.digit following code) (digits ++ cs) = some (c :: content, rest) := by
  induction digits generalizing following code with
  | nil => cases hlength
  | cons d digits ih =>
    obtain ⟨hd, hdigits⟩ := List.forall_mem_cons.mp hdigits
    have hdigit : ¬(!isDigitOf 16 d) = true := by simp [hd]
    rw [List.cons_append, escapedText?, if_neg hdigit]
    cases following with
    | zero =>
      obtain rfl : digits = [] := List.length_eq_zero_iff.mp (Nat.succ.inj hlength)
      have hpoint : codePoint? (16 * code + digitValue d) = some c := by
        have hc : 16 * code + digitValue d = c.toNat := hcode
        have hvalid : c.toNat.isValidChar := c.valid
        rw [codePoint?, hc, if_pos hvalid, Char.ofNat_toNat]
      rw [if_pos rfl, hpoint, Option.bind_some, List.nil_append, hread]
      rfl
    | succ following =>
      rw [if_neg (Nat.succ_ne_zero following)]
      exact ih hdigits (Nat.succ.inj hlength) hcode

theorem escapedText?_backslash (multiline : Bool) (cs : List Char) :
    escapedText? multiline (.character false) ('\\' :: cs) = escapedText? multiline .escape cs := by
  rw [escapedText?, closing?_of_ne (by decide)]
  rfl

theorem escapedText?_escape (he : IsEscape e c)
    (hread : escapedText? multiline (.character false) cs = some (content, rest)) :
    escapedText? multiline (.character false) (e ++ cs) = some (c :: content, rest) := by
  cases he with
  | @simple letter c hletter =>
    have hmap : (escapedText? multiline (.character false) cs).map (fun r => (c :: r.1, r.2)) =
        some (c :: content, rest) := by rw [hread, Option.map_some]
    rw [List.cons_append, escapedText?_backslash, List.singleton_append]
    simp only [escapes, List.mem_cons, Prod.mk.injEq, List.not_mem_nil, or_false] at hletter
    rcases hletter with ⟨rfl, rfl⟩ | ⟨rfl, rfl⟩ | ⟨rfl, rfl⟩ | ⟨rfl, rfl⟩ | ⟨rfl, rfl⟩ | ⟨rfl, rfl⟩ | ⟨rfl, rfl⟩ <;>
      exact hmap
  | code hletter hlength hdigits hcode =>
    rw [List.cons_append, escapedText?_backslash, List.cons_append]
    simp only [List.mem_cons, Prod.mk.injEq, List.not_mem_nil, or_false] at hletter
    rcases hletter with ⟨rfl, rfl⟩ | ⟨rfl, rfl⟩ <;> exact escapedText?_digits hdigits hlength hcode hread

theorem escapedText?_blank {blanks : List Char} (h : IsBlank blanks) (cs : List Char) :
    escapedText? true (.character true) (blanks ++ cs) = escapedText? true (.character true) cs := by
  induction h with
  | nil => rfl
  | space hc _ ih => rw [List.cons_append, escapedText?, hc]; exact ih
  | newline he _ ih => cases he <;> exact ih

theorem escapedText?_unblank (hunbroken : IsUnbroken cs) (hspace : ∀ c ∈ cs.head?, isSpace c = false) :
    escapedText? true (.character true) cs = escapedText? true (.character false) cs := by
  cases cs with
  | nil => rfl
  | cons c cs =>
    have hnewline := afterNewline?_of_isUnbroken hunbroken
    rw [escapedText?, escapedText?, hnewline, hspace c rfl]
    rfl

theorem isBlank_append {spaces : List Char} (hspaces : IsSpaces spaces) (h : IsBlank cs) :
    IsBlank (spaces ++ cs) := by
  induction spaces with
  | nil => exact h
  | cons c spaces ih =>
    obtain ⟨hc, hspaces⟩ := List.forall_mem_cons.mp hspaces
    exact .space hc (ih hspaces)

theorem escapedText?_joint {j : List Char} (hj : IsJoint j) (cs : List Char) :
    escapedText? true (.character false) (j ++ cs) = escapedText? true (.character true) cs := by
  obtain @⟨spaces, e, blanks, hspaces, he, hblanks⟩ := hj
  have hnewline : (afterNewline? (skipSpace (spaces ++ (e ++ blanks) ++ cs))).isSome = true := by
    have hskip : skipSpace (spaces ++ (e ++ (blanks ++ cs))) = e ++ (blanks ++ cs) :=
      (Numeral.takeWhile_append_of_head hspaces (by cases he <;> rintro c ⟨⟩ <;> rfl)).2
    rw [List.append_assoc, List.append_assoc, hskip, afterNewline?_append he]
    rfl
  -- the first of the blanks is taken with the backslash
  obtain ⟨d, tail, hcons, hd, htail⟩ :
      ∃ d tail, spaces ++ (e ++ blanks) = d :: tail ∧ (isSpace d = true ∨ d = '\n' ∨ d = '\r') ∧ IsBlank tail := by
    cases spaces with
    | nil =>
      cases he with
      | feed => exact ⟨_, _, rfl, .inr (.inl rfl), hblanks⟩
      | pair => exact ⟨_, _, rfl, .inr (.inr rfl), .newline .feed hblanks⟩
    | cons c spaces =>
      obtain ⟨hc, hspaces⟩ := List.forall_mem_cons.mp hspaces
      exact ⟨c, _, rfl, .inl hc, isBlank_append hspaces (.newline he hblanks)⟩
  have hsimple : simpleEscape? d = none ∧ escapedDigits? d = none := by
    simp only [isSpace, Bool.or_eq_true, beq_iff_eq] at hd
    rcases hd with (rfl | rfl) | rfl | rfl <;> exact ⟨rfl, rfl⟩
  rw [hcons, List.cons_append] at hnewline
  rw [List.cons_append, escapedText?_backslash, hcons, List.cons_append, escapedText?, hsimple.1, hsimple.2]
  exact (if_pos hnewline).trans (escapedText?_blank htail cs)

theorem isReader_escapedText? (multiline : Bool) :
    IsReader '"' multiline (escapedText? multiline (.character false)) where
  close {cs r} h := by
    cases cs with
    | nil => cases multiline <;> cases h
    | cons c cs =>
      rw [escapedText?, h]
      rfl
  step hclosing hescape hallowed hread := by
    rw [escapedText?, hclosing]
    refine (if_neg (hescape rfl)).trans ((if_pos hallowed).trans ?_)
    rw [hread]
    rfl
  escape _ he hread := escapedText?_escape he hread
  joint _ hlines hj hunbroken hspace hread := by
    subst hlines
    rw [escapedText?_joint hj, escapedText?_unblank hunbroken hspace, hread]

/-! ## Quoted texts -/

theorem IsQuoted.exists_eq_cons (h : IsQuoted text content) :
    ∃ mark cs, text = mark :: cs ∧ IsMark mark := by
  cases h with
  | line hmark | lines hmark | below hmark => exact ⟨_, _, rfl, hmark⟩

theorem isQuoted_plain (h : ∀ c ∈ cs, c ≠ '"' ∧ c ≠ '\\' ∧ isControl c = false) :
    IsQuoted ('"' :: (cs ++ ['"'])) cs := by
  have hcontent : IsContent '"' false cs cs := by
    induction cs with
    | nil => exact .nil
    | cons c cs ih =>
      obtain ⟨⟨hmark, hbackslash, hcontrol⟩, h⟩ := List.forall_mem_cons.mp h
      exact .plain hmark (fun _ => hbackslash) hcontrol (ih h)
  exact .line (.inl rfl) hcontent

theorem IsContent.head?_ne (h : IsContent mark false text content) : text.head? ≠ some mark := by
  cases h with
  | nil => simp
  | plain hne => simpa using hne
  | escape hquote he => cases he <;> simp [hquote]
  | newline h | marks h | joint _ h => cases h

/-- Nothing in front of a text on one line looks like the three marks of a text on several. -/
theorem quotedText?_line (hmark : IsMark mark) (htext : text.head? ≠ some mark) (hrest : rest.head? ≠ some mark) :
    quotedText? (marks mark false ++ (text ++ (marks mark false ++ rest))) =
      lineText? (marks mark false ++ (text ++ (marks mark false ++ rest))) := by
  have hthree : ∀ cs, marks mark false ++ (text ++ (marks mark false ++ rest)) ≠ mark :: mark :: mark :: cs := by
    intro cs heq
    cases text with
    | nil =>
      obtain rfl : rest = mark :: cs := by simpa [marks] using heq
      exact hrest rfl
    | cons c text =>
      obtain ⟨rfl, -⟩ : c = mark ∧ text ++ (marks mark false ++ rest) = mark :: cs := by simpa [marks] using heq
      exact htext rfl
  rcases hmark with rfl | rfl
  · rw [quotedText?]
    · exact hthree
    · rintro cs ⟨⟩
  · rw [quotedText?]
    · rintro cs ⟨⟩
    · exact hthree

theorem exists_isReader (hmark : IsMark mark) :
    ∃ read : Bool → List Char → Option (List Char × List Char),
      (∀ multiline, IsReader mark multiline (read multiline)) ∧
      (∀ cs, lineText? (marks mark false ++ cs) = (read false cs).map fun r => (String.ofList r.1, r.2)) ∧
      ∀ cs, quotedText? (marks mark true ++ cs) =
        (read true (dropNewline cs)).map fun r => (String.ofList r.1, r.2) := by
  rcases hmark with rfl | rfl
  · exact ⟨fun multiline => escapedText? multiline (.character false), isReader_escapedText?, fun _ => rfl,
      fun _ => rfl⟩
  · exact ⟨literalText?, isReader_literalText?, fun _ => rfl, fun _ => rfl⟩

/-- **A quoted text** is read as what it stands for, up to the marks at its end. -/
theorem quotedText?_of_isQuoted (h : IsQuoted text content) (hrest : ∀ c ∈ rest.head?, ¬IsMark c) :
    quotedText? (text ++ rest) = some (String.ofList content, rest) := by
  cases h with
  | @line mark text content hmark hcontent =>
    have hrest : rest.head? ≠ some mark := fun h => hrest mark h hmark
    obtain ⟨read, hreader, hline, -⟩ := exists_isReader hmark
    rw [List.append_assoc, List.append_assoc, quotedText?_line hmark hcontent.head?_ne hrest, hline,
      (hreader false).read_content hmark hcontent hrest, Option.map_some]
  | @lines mark text content hmark hcontent hunbroken =>
    have hrest : rest.head? ≠ some mark := fun h => hrest mark h hmark
    obtain ⟨read, hreader, -, hlines⟩ := exists_isReader hmark
    obtain ⟨-, -, -, hline⟩ := hmark.spec
    have hunbroken : IsUnbroken (text ++ (marks mark true ++ rest)) :=
      forall_head?_append hunbroken (forall_head?_marks hline rest)
    rw [List.append_assoc, List.append_assoc, hlines, dropNewline, afterNewline?_of_isUnbroken hunbroken,
      Option.getD_none, (hreader true).read_content hmark hcontent hrest, Option.map_some]
  | @below mark e text content hmark hcontent he =>
    have hrest : rest.head? ≠ some mark := fun h => hrest mark h hmark
    obtain ⟨read, hreader, -, hlines⟩ := exists_isReader hmark
    rw [List.append_assoc, List.append_assoc, List.append_assoc, hlines, dropNewline, afterNewline?_append he,
      Option.getD_some, (hreader true).read_content hmark hcontent hrest, Option.map_some]

end SciCalc.Toml
