/-
Commands and expressions. A line at the prompt is a command if it is the name of one, or a memory command with its
operand (`typed_iff`); and such a line has no value as an expression, in any session (`ofLine_typed`). It begins with a
name that is not called: what is behind it is nothing at all, or a sign.

The name of a memory command can also be looked for by bytes, and the line cut behind them (`ofBytes?`). The cut is never
within a character, since the bytes in front of it are those of the name (`ofBytes?_eq`).
-/
import Mathlib
import SciCalc.Proofs.Answer.Cut
import SciCalc.Proofs.Token.Stray
import SciCalc.Prompt.Command

namespace SciCalc

namespace Text

variable {c d : Char} {cs ds us front rest : List Char} {n : Nat}

/-! ## Letters in either case -/

theorem eq_or_of_toLower_eq (h : c.toLower = d) : c = d ∨ c = d.toUpper := by
  by_cases hupper : c.isUpper = true
  · right
    rw [← h, Char.toUpper_toLower_eq_toUpper, Char.toUpper_eq_of_not_isLower (Char.not_isLower_of_isUpper hupper)]
  · left
    rw [← h, Char.toLower_eq_of_not_isUpper hupper]

theorem sameLetters_iff : sameLetters cs ds = true ↔ cs.map Char.toLower = ds.map Char.toLower := beq_iff_eq

theorem isInfix_of_sameLetters (h : sameLetters cs ds = true) (hus : us <:+: cs) :
    us.map Char.toLower <:+: ds.map Char.toLower := by
  rw [← sameLetters_iff.mp h]
  exact hus.map Char.toLower

theorem isAlpha_of_sameLetters (h : sameLetters cs ds = true) (hds : ∀ d ∈ ds, d.isAlpha = true) :
    ∀ c ∈ cs, c.isAlpha = true := by
  intro c hc
  have hlower : c.toLower ∈ ds.map Char.toLower := by
    rw [← sameLetters_iff.mp h]
    exact List.mem_map_of_mem hc
  obtain ⟨d, hd, heq⟩ := List.mem_map.mp hlower
  rw [← Char.isAlpha_toLower_eq_isAlpha, ← heq, Char.isAlpha_toLower_eq_isAlpha]
  exact hds d hd

/-! ## Bytes -/

/-- The text in front of so many bytes, if a character ends there. -/
def takeBytes? : Nat → List Char → Option (List Char)
  | 0, _ => some []
  | _ + 1, [] => none
  | bytes + 1, c :: cs =>
    if c.utf8Size ≤ bytes + 1 then (takeBytes? (bytes + 1 - c.utf8Size) cs).map (c :: ·) else none

theorem takeBytes?_append (front rest : List Char) : takeBytes? (utf8Length front) (front ++ rest) = some front := by
  induction front with
  | nil => cases rest <;> rfl
  | cons c front ih =>
    have hpos := c.utf8Size_pos
    obtain ⟨bytes, hbytes⟩ : ∃ bytes, c.utf8Size + utf8Length front = bytes + 1 :=
      Nat.exists_eq_succ_of_ne_zero (by omega)
    rw [utf8Length_cons, List.cons_append, hbytes, takeBytes?, if_pos (by omega), ← hbytes, Nat.add_sub_cancel_left, ih]
    rfl

theorem isPrefix_of_takeBytes? (h : takeBytes? n cs = some front) : front <+: cs := by
  fun_induction takeBytes? n cs generalizing front with
  | case1 cs =>
    cases h
    exact List.nil_prefix
  | case2 => cases h
  | case3 bytes c cs hle ih =>
    obtain ⟨front, hfront, rfl⟩ := Option.map_eq_some_iff.mp h
    exact List.cons_prefix_cons.mpr ⟨rfl, ih hfront⟩
  | case4 => cases h

end Text

/-! ## Names that are not called -/

namespace Token

variable {t : Token} {ts : List Token} {c : Char} {lexeme rest : List Char} {offset : Nat}

theorem scan_lexeme (h : split? (lexeme ++ rest) = some (t, lexeme, rest)) :
    scan offset (lexeme ++ rest) = (scan (offset + Text.utf8Length lexeme) rest).map (t :: ·) :=
  scan_append (List.forall_mem_nil _) h

theorem head?_of_scan (hsign : ofSymbol? c = some t) (h : scan offset (c :: rest) = .ok ts) :
    ts.head? = some t := by
  have hscan : scan offset ([c] ++ rest) = _ := scan_lexeme (split?_sign hsign)
  have hts := h.symm.trans hscan
  cases hrest : scan (offset + Text.utf8Length [c]) rest with
  | error e =>
    rw [hrest] at hts
    cases hts
  | ok us =>
    rw [hrest] at hts
    cases hts
    rfl

end Token

/-- A text has no value if it begins with a name, and no parenthesis opens behind that. -/
theorem exists_error_of_name {text : String} {c : Char} {cs rest : List Char}
    (htext : Keypad.normalize text.toList = c :: cs ++ rest) (hc : Token.startsName c = true)
    (hcs : ∀ d ∈ cs, Token.continuesName d = true) (hends : Token.EndsWord rest)
    (hcalled : ∀ offset ts, Token.scan offset rest = .ok ts → ts.head? ≠ some .leftParen) (mode : AngleMode) :
    ∃ e, evaluate mode text = .error e := by
  have hne : text ≠ "" := by
    rintro rfl
    cases htext
  have hscan : Token.ofText text = (Token.scan (0 + Text.utf8Length (c :: cs)) rest).map
      (Token.identifier (String.ofList (c :: cs)) :: ·) := by
    rw [Token.ofText, htext]
    exact Token.scan_lexeme (Token.split?_name hc hcs hends)
  cases hrest : Token.scan (0 + Text.utf8Length (c :: cs)) rest with
  | error e =>
    rw [hrest] at hscan
    exact ⟨.scan e, by simp only [evaluate, if_neg hne, programOfText, hscan, Except.map]⟩
  | ok ts =>
    rw [hrest] at hscan
    have hprogram : Program.ofTokens (.identifier (String.ofList (c :: cs)) :: ts) =
        .error (.unknownIdentifier (String.ofList (c :: cs))) := by
      simp only [Program.ofTokens, Program.ofTokensFrom, Program.step, if_neg (hcalled _ ts hrest)]
    refine ⟨.parse (.unknownIdentifier (String.ofList (c :: cs))), ?_⟩
    simp only [evaluate, if_neg hne, programOfText, hscan, Except.map, hprogram, Except.mapError]

theorem Keypad.normal_of_letters {cs : List Char} (hletters : ∀ c ∈ cs, c.isAlpha = true)
    (hpi : ¬ ['p', 'i'] <:+: cs) : Normal cs where
  noSign glyph hglyph hmem := by
    have hglyphs : ∀ glyph ∈ glyphs, 'z'.toNat < glyph.1.toNat := by decide
    have hlow := (Token.toNat_of_isAlpha (hletters _ hmem)).2
    have hhigh := hglyphs glyph hglyph
    omega
  noPi := hpi

theorem exists_error_of_letters {text : String} (hne : text.toList ≠ [])
    (hletters : ∀ c ∈ text.toList, c.isAlpha = true) (hpi : ¬ ['p', 'i'] <:+: text.toList) (mode : AngleMode) :
    ∃ e, evaluate mode text = .error e := by
  have hstarts : ∀ c ∈ text.toList, Token.startsName c = true := by
    intro c hc
    rw [Token.startsName, hletters c hc, Bool.true_or]
  obtain ⟨c, cs, htext⟩ := List.exists_cons_of_ne_nil hne
  have hnormal : Keypad.normalize text.toList = c :: cs ++ [] := by
    rw [Keypad.normalize_of_normal (Keypad.normal_of_letters hletters hpi), htext, List.append_nil]
  rw [htext] at hstarts
  obtain ⟨hc, hcs⟩ := List.forall_mem_cons.mp hstarts
  have hends : Token.EndsWord [] := by
    intro d hd
    cases hd
  refine exists_error_of_name hnormal hc (fun d hd => Token.continuesName_of_startsName (hcs d hd)) hends ?_ mode
  intro offset ts hts hcalled
  rw [Token.scan_blank (List.forall_mem_nil _)] at hts
  cases hts
  cases hcalled

namespace Command

variable {line operand replacement : List Char} {c sign : Char} {r : Option (List Char)} {command : Command}

/-- Whether a line is a command: the name of one in either case, or a memory command with its operand. -/
inductive Typed : List Char → Prop where
  | keyword {line : List Char} {known : String × Command} (hknown : known ∈ keywords)
      (hsame : Text.sameLetters line known.1.toList = true) : Typed line
  | memory {c sign : Char} {operand : List Char} (hc : c = 'm' ∨ c = 'M') (hsign : sign = '+' ∨ sign = '-') :
      Typed (c :: sign :: operand)

/-- Whether a command has an expression with it. -/
def takesText : Command → Bool
  | memoryAdd _ | memorySubtract _ | evaluate _ => true
  | _ => false

/-- What is behind a name at the front of a line, which is looked for in as many bytes as it has. There may be no such
name, or else no character that begins behind those bytes. -/
def behind? (name line : List Char) : Option (Option (List Char)) :=
  match Text.takeBytes? (Text.utf8Length name) line with
  | some front =>
    if Text.sameLetters front name then some (Text.dropBytes? (Text.utf8Length name) line) else none
  | none => none

/-- What a line asks for, where the operand of a memory command is cut off by bytes. If it cannot be cut, there is
nothing that the line asks for. -/
def ofBytes? (line : List Char) : Option Command :=
  match keyword? line with
  | some command => some command
  | none =>
    match behind? ['m', '+'] line with
    | some operand => operand.map fun operand => memoryAdd (String.ofList operand)
    | none =>
      match behind? ['m', '-'] line with
      | some operand => operand.map fun operand => memorySubtract (String.ofList operand)
      | none => some (evaluate (String.ofList line))

/-! ## Lines that are commands -/

theorem keyword?_eq_some (h : keyword? line = some command) :
    ∃ known ∈ keywords, Text.sameLetters line known.1.toList = true ∧ known.2 = command := by
  obtain ⟨known, hfind, rfl⟩ := Option.map_eq_some_iff.mp h
  have hsame := List.find?_some hfind
  exact ⟨known, List.mem_of_find?_eq_some hfind, hsame, rfl⟩

theorem takesText_of_keyword? (h : keyword? line = some command) : command.takesText = false := by
  have hkeywords : ∀ known ∈ keywords, known.2.takesText = false := by decide
  obtain ⟨known, hknown, -, rfl⟩ := keyword?_eq_some h
  exact hkeywords known hknown

theorem ofOtherLine_eq_or (line : List Char) :
    ofOtherLine line = evaluate (String.ofList line) ∨
      ∃ c sign operand, (c = 'm' ∨ c = 'M') ∧ line = c :: sign :: operand ∧
        (sign = '+' ∧ ofOtherLine line = memoryAdd (String.ofList operand) ∨
          sign = '-' ∧ ofOtherLine line = memorySubtract (String.ofList operand)) := by
  fun_cases ofOtherLine line with
  | case1 c operand hc => exact .inr ⟨c, '+', operand, hc, rfl, .inl ⟨rfl, rfl⟩⟩
  | case2 => exact .inl rfl
  | case3 c operand hc => exact .inr ⟨c, '-', operand, hc, rfl, .inr ⟨rfl, rfl⟩⟩
  | case4 => exact .inl rfl
  | case5 => exact .inl rfl

theorem ofOtherLine_plus (hc : c = 'm' ∨ c = 'M') :
    ofOtherLine (c :: '+' :: operand) = memoryAdd (String.ofList operand) := if_pos hc

theorem ofOtherLine_minus (hc : c = 'm' ∨ c = 'M') :
    ofOtherLine (c :: '-' :: operand) = memorySubtract (String.ofList operand) := if_pos hc

/-- **The lines that are commands** are those that are not evaluated. -/
theorem typed_iff : Typed line ↔ ofLine line ≠ evaluate (String.ofList line) := by
  rw [ofLine]
  cases hkeyword : keyword? line with
  | some command =>
    obtain ⟨known, hknown, hsame, -⟩ := keyword?_eq_some hkeyword
    constructor
    · intro _ heq
      have htext := takesText_of_keyword? hkeyword
      rw [Option.getD_some] at heq
      rw [heq] at htext
      cases htext
    · intro _
      exact .keyword hknown hsame
  | none =>
    rw [Option.getD_none]
    constructor
    · intro h
      cases h with
      | keyword hknown hsame =>
        have hnone := List.find?_eq_none.mp (Option.map_eq_none_iff.mp hkeyword) _ hknown
        exact absurd hsame hnone
      | memory hc hsign =>
        obtain rfl | rfl := hsign
        · rw [ofOtherLine_plus hc]
          nofun
        · rw [ofOtherLine_minus hc]
          nofun
    · intro h
      obtain heq | ⟨c, sign, operand, hc, rfl, ⟨hsign, -⟩ | ⟨hsign, -⟩⟩ := ofOtherLine_eq_or line
      · exact absurd heq h
      · exact .memory hc (.inl hsign)
      · exact .memory hc (.inr hsign)

theorem eq_of_ofLine_memory {text : String} (h : ofLine line = memoryAdd text ∨ ofLine line = memorySubtract text) :
    ∃ c sign, (c = 'm' ∨ c = 'M') ∧ (sign = '+' ∨ sign = '-') ∧ line = c :: sign :: text.toList := by
  have htext : (ofLine line).takesText = true := by
    obtain h | h := h <;> rw [h] <;> rfl
  rw [ofLine] at h htext
  cases hkeyword : keyword? line with
  | some command =>
    rw [hkeyword, Option.getD_some, takesText_of_keyword? hkeyword] at htext
    cases htext
  | none =>
    rw [hkeyword, Option.getD_none] at h
    obtain heq | ⟨c, sign, operand, hc, hline, ⟨hsign, heq⟩ | ⟨hsign, heq⟩⟩ := ofOtherLine_eq_or line
    · rw [heq] at h
      obtain h | h := h <;> cases h
    · rw [heq] at h
      obtain h | h := h
      · cases h
        exact ⟨c, sign, hc, .inl hsign, by rw [hline, String.toList_ofList]⟩
      · cases h
    · rw [heq] at h
      obtain h | h := h
      · cases h
      · cases h
        exact ⟨c, sign, hc, .inr hsign, by rw [hline, String.toList_ofList]⟩

/-! ## Expressions -/

/-- The answer may be put in the place of its word: a command stays one. -/
theorem Typed.expandFrom (h : Typed line) : Typed (Answer.expandFrom replacement false line) := by
  cases h with
  | keyword hknown hsame =>
    have hword : ∀ known ∈ keywords, ¬ Answer.word.map Char.toLower <:+: known.1.toList.map Char.toLower := by decide
    have hkept : Answer.expandFrom replacement false line = line := by
      refine Answer.expandFrom_eq_self Text.endsInWord_nil fun before after halone => ?_
      refine hword _ hknown (Text.isInfix_of_sameLetters hsame ⟨before, after, ?_⟩)
      rw [halone.eq, List.append_assoc]
    rw [hkept]
    exact .keyword hknown hsame
  | @memory c sign operand hc hsign =>
    have hletter : c ≠ 'a' := by
      obtain rfl | rfl := hc <;> decide
    have hplain : sign ≠ 'a' := by
      obtain rfl | rfl := hsign <;> decide
    rw [Answer.expandFrom_cons_of_ne hletter, Answer.expandFrom_cons_of_ne hplain]
    exact .memory hc hsign

/-- **A command is no expression.** It begins with a name, which is all of it or has a sign behind it. -/
theorem Typed.exists_error (h : Typed line) (mode : AngleMode) :
    ∃ e, SciCalc.evaluate mode (String.ofList line) = .error e := by
  cases h with
  | @keyword _ known hknown hsame =>
    have hletters : ∀ known ∈ keywords, known.1.toList.all Char.isAlpha = true := by decide
    have hpi : ∀ known ∈ keywords, ¬ ['p', 'i'].map Char.toLower <:+: known.1.toList.map Char.toLower := by decide
    have hnil : ∀ known ∈ keywords, ¬ Text.sameLetters [] known.1.toList = true := by decide
    refine exists_error_of_letters ?_ ?_ ?_ mode
    · rw [String.toList_ofList]
      rintro rfl
      exact hnil known hknown hsame
    · rw [String.toList_ofList]
      exact Text.isAlpha_of_sameLetters hsame (List.all_eq_true.mp (hletters known hknown))
    · rw [String.toList_ofList]
      intro hinfix
      exact hpi known hknown (Text.isInfix_of_sameLetters hsame hinfix)
  | @memory c sign operand hc hsign =>
    have hletter : c.toNat < 0x80 ∧ c ≠ 'p' ∧ Token.startsName c = true := by
      obtain rfl | rfl := hc <;> decide
    have hplain : sign.toNat < 0x80 ∧ sign ≠ 'p' ∧ sign ∈ Token.signs := by
      obtain rfl | rfl := hsign <;> decide
    obtain ⟨op, hop⟩ : ∃ op, Token.ofSymbol? sign = some (.operator op) := by
      obtain rfl | rfl := hsign <;> exact ⟨_, rfl⟩
    have htext : Keypad.normalize (String.ofList (c :: sign :: operand)).toList =
        c :: [] ++ sign :: Keypad.normalize operand := by
      rw [String.toList_ofList, Keypad.normalize_cons_of_plain (Keypad.plain_of_ascii hletter.1) hletter.2.1,
        Keypad.normalize_cons_of_plain (Keypad.plain_of_ascii hplain.1) hplain.2.1]
      rfl
    have hends : Token.EndsWord (sign :: Keypad.normalize operand) := by
      intro d hd
      cases hd
      exact Token.not_word_of_mem_signs hplain.2.2
    refine exists_error_of_name htext hletter.2.2 (List.forall_mem_nil _) hends ?_ mode
    intro offset ts hts hcalled
    rw [Token.head?_of_scan hop hts] at hcalled
    cases hcalled

/-! ## Cutting by bytes -/

theorem behind?_append (name front rest : List Char) (hsame : Text.sameLetters front name = true)
    (hsize : Text.utf8Length front = Text.utf8Length name) : behind? name (front ++ rest) = some (some rest) := by
  have htake := Text.takeBytes?_append front rest
  have hdrop := Text.dropBytes?_append front rest
  rw [hsize] at htake hdrop
  simp only [behind?, htake, hsame, if_true, hdrop]

theorem exists_front_of_behind? {name : List Char} (h : behind? name line = some r) :
    ∃ front rest, Text.sameLetters front name = true ∧ line = front ++ rest := by
  unfold behind? at h
  split at h
  · next front hfront =>
    split at h
    · next hsame =>
      obtain ⟨rest, hline⟩ := Text.isPrefix_of_takeBytes? hfront
      exact ⟨front, rest, hsame, hline.symm⟩
    · cases h
  · cases h

/-- The name of a memory command is found by bytes where it is typed, and a character begins behind it. -/
theorem behind?_memory_iff (hsign : sign = '+' ∨ sign = '-') :
    behind? ['m', sign] line = some r ↔
      ∃ c operand, (c = 'm' ∨ c = 'M') ∧ line = c :: sign :: operand ∧ r = some operand := by
  have hbehind : ∀ c operand, c = 'm' ∨ c = 'M' → behind? ['m', sign] (c :: sign :: operand) = some (some operand) := by
    intro c operand hc
    refine behind?_append ['m', sign] [c, sign] operand ?_ ?_
    · obtain rfl | rfl := hc <;> obtain rfl | rfl := hsign <;> decide
    · obtain rfl | rfl := hc <;> rfl
  constructor
  · intro h
    obtain ⟨front, rest, hsame, rfl⟩ := exists_front_of_behind? h
    obtain ⟨c, front', rfl, hc, htail⟩ := List.map_eq_cons_iff.mp (Text.sameLetters_iff.mp hsame)
    obtain ⟨d, front', rfl, hd, hnil⟩ := List.map_eq_cons_iff.mp htail
    obtain rfl := List.map_eq_nil_iff.mp hnil
    have hm : c = 'm' ∨ c = 'M' := Text.eq_or_of_toLower_eq hc
    -- a sign has no case
    have hds : d = sign := by
      have hkept : sign.toLower = sign ∧ sign.toUpper = sign := by
        obtain rfl | rfl := hsign <;> decide
      rw [hkept.1] at hd
      obtain heq | heq := Text.eq_or_of_toLower_eq hd
      · exact heq
      · rw [heq, hkept.2]
    subst hds
    have hr := (hbehind c rest hm).symm.trans h
    exact ⟨c, rest, hm, rfl, (Option.some.inj hr).symm⟩
  · rintro ⟨c, operand, hc, rfl, rfl⟩
    exact hbehind c operand hc

/-- **The cut is never within a character.** -/
theorem ofBytes?_eq (line : List Char) : ofBytes? line = some (ofLine line) := by
  rw [ofBytes?, ofLine]
  cases hkeyword : keyword? line with
  | some command => rfl
  | none =>
    rw [Option.getD_none]
    cases hplus : behind? ['m', '+'] line with
    | some r =>
      obtain ⟨c, operand, hc, rfl, rfl⟩ := (behind?_memory_iff (.inl rfl)).mp hplus
      rw [ofOtherLine_plus hc]
      rfl
    | none =>
      cases hminus : behind? ['m', '-'] line with
      | some r =>
        obtain ⟨c, operand, hc, rfl, rfl⟩ := (behind?_memory_iff (.inr rfl)).mp hminus
        rw [ofOtherLine_minus hc]
        rfl
      | none =>
        obtain heq | ⟨c, sign, operand, hc, hline, ⟨rfl, -⟩ | ⟨rfl, -⟩⟩ := ofOtherLine_eq_or line
        · rw [heq]
        · rw [(behind?_memory_iff (.inl rfl)).mpr ⟨c, operand, hc, hline, rfl⟩] at hplus
          cases hplus
        · rw [(behind?_memory_iff (.inr rfl)).mpr ⟨c, operand, hc, hline, rfl⟩] at hminus
          cases hminus

/-! ## Commands and expressions -/

/-- **Commands hide no expressions.** A line is a command just if it is not evaluated; and then it has no value, neither
by itself in any mode nor with the last answer of any session. The operand of a memory command is all that is behind the
first two bytes of the line, which may be cut there. -/
theorem ofLine_typed (line : String) :
    (Typed line.toList ↔ ofLine line.toList ≠ evaluate line) ∧
      (ofLine line.toList ≠ evaluate line →
        (∀ mode, ∃ e, SciCalc.evaluate mode line = .error e) ∧ ∀ s : Session, ∃ e, s.outcome line = .error e) ∧
      (∀ operand, ofLine line.toList = memoryAdd operand ∨ ofLine line.toList = memorySubtract operand →
        ∃ front, Text.utf8Length front = 2 ∧ line.toList = front ++ operand.toList) ∧
      ofBytes? line.toList = some (ofLine line.toList) := by
  have hiff : Typed line.toList ↔ ofLine line.toList ≠ evaluate line := by
    rw [typed_iff, String.ofList_toList]
  refine ⟨hiff, fun hcommand => ?_, fun operand hmemory => ?_, ofBytes?_eq _⟩
  · have htyped := hiff.mpr hcommand
    refine ⟨fun mode => ?_, fun s => ?_⟩
    · rw [← String.ofList_toList (s := line)]
      exact htyped.exists_error mode
    · exact htyped.expandFrom.exists_error s.mode
  · obtain ⟨c, sign, hc, hsign, hline⟩ := eq_of_ofLine_memory hmemory
    refine ⟨[c, sign], ?_, hline⟩
    obtain rfl | rfl := hc <;> obtain rfl | rfl := hsign <;> rfl

end Command

end SciCalc
