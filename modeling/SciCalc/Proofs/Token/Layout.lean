/-
Tokens as they can be laid out in a text (`Laid`): each is written in one of its ways, an operator also
with a sign on a key, with any white space or none in front of it. The scan finds such tokens again
(`ofText_of_laid`), as long as no two words stand next to each other: nothing would part them.

The white space between tokens may be empty, so that a word ends only where a sign or white space begins
(`EndsWord`). The same condition keeps a `pi` from arising across two tokens, when a text is normalized.
-/
import Mathlib.Data.List.Chain
import SciCalc.Proofs.Token.Normalize
import SciCalc.Proofs.Token.Split

namespace SciCalc

/-- The numeral that the key for pi stands for. -/
def Keypad.piNumeral : Numeral := ⟨['3'], "141592653589793".toList, none⟩

theorem Keypad.text_piNumeral : piNumeral.text = piDigits := by decide

theorem Keypad.wellFormed_piNumeral : piNumeral.WellFormed where
  whole := List.all_eq_true.mp rfl
  fraction := List.all_eq_true.mp rfl
  ne_nil := .inl (List.cons_ne_nil _ _)
  exponent := nofun

theorem Keypad.toDouble_piNumeral : piNumeral.toDouble = Double.pi := by
  have hdecimal : piNumeral.toDecimal = ⟨3141592653589793, -15⟩ := by decide
  have hbits : Double.nearestBits (3141592653589793 * Nat.pow 10 (-15 : Int).toNat)
      (Nat.pow 10 (- -15 : Int).toNat) = 0x400921fb54442d18 := by decide +kernel
  rw [Numeral.toDouble, hdecimal, Decimal.toDouble, if_neg (by decide), if_neg (by decide),
    if_neg (by decide), Double.ofQuotient, hbits]
  rfl

namespace Token

variable {t u : Token} {ts us : List Token} {c : Char} {cs text lexeme blank rest : List Char}

/-- Whether a text is one way to write a token. -/
inductive Written : Token → List Char → Prop where
  | number {n : Numeral} (typed : n.WellFormed) : Written (.number n.toDouble) n.text
  | pi : Written (.number Keypad.piNumeral.toDouble) ['p', 'i']
  | function (f : Func) : Written (.identifier f.name) f.name.toList
  | operator (op : Operator) : Written (.operator op) [op.symbol]
  /-- A sign on a key that is read as the operator. -/
  | glyph {op : Operator} {c : Char} (key : (c, op.symbol) ∈ Keypad.glyphs) : Written (.operator op) [c]
  | leftParen : Written .leftParen ['(']
  | rightParen : Written .rightParen [')']
  | comma : Written .comma [',']
  | factorial : Written .factorial ['!']

/-- Whether a text is made of tokens in this order, with white space anywhere between and around them. -/
inductive Laid : List Token → List Char → Prop where
  | nil {blank : List Char} (skipped : ∀ c ∈ blank, Text.isBlank c = true) : Laid [] blank
  | cons {blank lexeme text : List Char} {t : Token} {ts : List Token}
      (skipped : ∀ c ∈ blank, Text.isBlank c = true) (written : Written t lexeme) (laid : Laid ts text) :
      Laid (t :: ts) (blank ++ (lexeme ++ text))

/-- Numbers and names. The other tokens are single signs. -/
def isWord : Token → Bool
  | .number _ | .identifier _ => true
  | _ => false

/-- Whether two tokens can stand next to each other with nothing between them. -/
def Apart (t u : Token) : Prop := t.isWord = true → u.isWord = false

theorem isChain_append_sign (hts : ts.IsChain Apart) (hu : u.isWord = false) (hus : us.IsChain Apart) :
    (ts ++ u :: us).IsChain Apart := by
  refine hts.append (List.isChain_cons.mpr ⟨fun v _ hword => ?_, hus⟩) fun t _ v hv _ => ?_
  · rw [hu] at hword
    cases hword
  · cases hv
    exact hu

theorem isChain_sign_cons (hu : u.isWord = false) (hus : us.IsChain Apart) : (u :: us).IsChain Apart :=
  isChain_append_sign List.isChain_nil hu hus

/-! ## Each token by itself -/

theorem ofSymbol?_symbol (op : Operator) : ofSymbol? op.symbol = some (.operator op) := by
  cases op <;> rfl

theorem Written.sign (h : Written t lexeme) (ht : t.isWord = false) :
    ∃ c, lexeme = [c] ∧ ofSymbol? (Keypad.plain c) = some t := by
  cases h with
  | number | pi | function => cases ht
  | operator op =>
    have hplain : Keypad.plain op.symbol = op.symbol := by cases op <;> rfl
    exact ⟨op.symbol, rfl, by rw [hplain, ofSymbol?_symbol]⟩
  | glyph key =>
    have hplain : ∀ glyph ∈ Keypad.glyphs, Keypad.plain glyph.1 = glyph.2 := by decide
    exact ⟨_, rfl, by rw [hplain _ key, ofSymbol?_symbol]⟩
  | leftParen => exact ⟨'(', rfl, rfl⟩
  | rightParen => exact ⟨')', rfl, rfl⟩
  | comma => exact ⟨',', rfl, rfl⟩
  | factorial => exact ⟨'!', rfl, rfl⟩

theorem normalize_numeral {n : Numeral} (hn : n.WellFormed) : Keypad.normalize n.text = n.text := by
  have he : 'e'.toNat = 0x65 := rfl
  refine Keypad.normalize_ascii fun c hc => ?_
  obtain ⟨-, hle⟩ := Numeral.toNat_mem_text hn hc
  refine ⟨by omega, ?_⟩
  rintro rfl
  exact absurd hle (by decide)

theorem Written.split?_word (h : Written t lexeme) (ht : t.isWord = true) (hrest : EndsWord rest) :
    split? (Keypad.normalize lexeme ++ rest) = some (t, Keypad.normalize lexeme, rest) := by
  cases h with
  | number typed =>
    rw [normalize_numeral typed]
    exact split?_numeral typed hrest
  | pi =>
    rw [Keypad.normalize_pi, ← Keypad.text_piNumeral]
    exact split?_numeral Keypad.wellFormed_piNumeral hrest
  | function f =>
    have hname : ∃ c cs, f.name.toList = c :: cs ∧ startsName c = true ∧
        ∀ d ∈ cs, continuesName d = true := by
      cases f <;> exact ⟨_, _, rfl, rfl, List.all_eq_true.mp rfl⟩
    obtain ⟨c, cs, heq, hc, hcs⟩ := hname
    have hsplit := split?_name hc hcs hrest
    rw [← heq, String.ofList_toList] at hsplit
    rwa [Keypad.normalize_name]
  | _ => cases ht

/-! ## A text of tokens -/

theorem normalize_sign (h : ofSymbol? (Keypad.plain c) = some t) :
    Keypad.normalize (c :: cs) = Keypad.plain c :: Keypad.normalize cs := by
  refine Keypad.normalize_cons fun hp => ?_
  rw [hp] at h
  cases h

/-- A text of tokens ends the word in front of it, unless it begins with one itself. -/
theorem Laid.endsWord (h : Laid ts text) (hts : ∀ t ∈ ts.head?, t.isWord = false) :
    EndsWord (Keypad.normalize text) := by
  cases h with
  | nil skipped =>
    rw [Keypad.normalize_blank skipped, ← List.append_nil text]
    exact EndsWord.blank_append nofun skipped
  | cons skipped written laid =>
    rw [Keypad.normalize_blank_append skipped]
    refine EndsWord.blank_append (fun c hc => ?_) skipped
    obtain ⟨d, rfl, hd⟩ := written.sign (hts _ rfl)
    rw [List.singleton_append, normalize_sign hd] at hc
    cases hc
    exact not_word_of_mem_signs (mem_signs_of_ofSymbol? hd)

theorem Laid.split?_cons (h : Laid ts text) (ht : Written t lexeme) (hts : (t :: ts).IsChain Apart) :
    Keypad.normalize (lexeme ++ text) = Keypad.normalize lexeme ++ Keypad.normalize text ∧
      split? (Keypad.normalize lexeme ++ Keypad.normalize text) =
        some (t, Keypad.normalize lexeme, Keypad.normalize text) := by
  cases hword : t.isWord with
  | true =>
    have hends : EndsWord (Keypad.normalize text) := by
      refine h.endsWord fun u hu => ?_
      cases ts with
      | nil => cases hu
      | cons v ts =>
        cases hu
        exact (List.isChain_cons_cons.mp hts).1 hword
    have hhead : (Keypad.normalize text).head? ≠ some 'i' := fun hi => absurd (hends 'i' hi).1 (by decide)
    exact ⟨Keypad.normalize_append hhead, ht.split?_word hword hends⟩
  | false =>
    obtain ⟨c, rfl, hc⟩ := ht.sign hword
    rw [List.singleton_append, normalize_sign hc, normalize_sign hc]
    exact ⟨rfl, split?_sign hc⟩

/-- The scan finds the tokens again, by induction on the tokens: one step of it for each. -/
theorem Laid.scan_normalize (h : Laid ts text) (hts : ts.IsChain Apart) (offset : Nat) :
    scan offset (Keypad.normalize text) = .ok ts := by
  induction h generalizing offset with
  | nil skipped =>
    rw [Keypad.normalize_blank skipped]
    exact scan_blank skipped
  | cons skipped written laid ih =>
    obtain ⟨hnormal, hsplit⟩ := laid.split?_cons written hts
    rw [Keypad.normalize_blank_append skipped, hnormal, scan_append skipped hsplit, ih hts.tail]
    rfl

/-- **Tokens are found again** in every text in which they are laid out. -/
theorem ofText_of_laid {text : String} (h : Laid ts text.toList) (hts : ts.IsChain Apart) :
    ofText text = .ok ts :=
  h.scan_normalize hts 0

end Token
end SciCalc
