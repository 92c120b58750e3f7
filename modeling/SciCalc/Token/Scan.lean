/-
From text to tokens. At each place the longest number is taken, or else the longest name, or else
one sign; white space between tokens is skipped. A character that starts none of them ends the scan
with an error, which names the character and says at which byte of the text it stands.
-/
import SciCalc.Decimal.Numeral
import SciCalc.Keypad
import SciCalc.Text.Blank
import SciCalc.Token.Basic

namespace SciCalc

/-- A character that starts no token, and the number of bytes before it in the normalized text. -/
structure ScanError where
  fragment : Char
  offset : Nat
deriving DecidableEq, Repr

/-- What the user is told about it. -/
def ScanError.message (e : ScanError) : String :=
  "unexpected character '" ++ e.fragment.toString ++ "' at position " ++ toString e.offset

namespace Token

/-- Whether a name can start with a character. -/
def startsName (c : Char) : Bool := c.isAlpha || c == '_'

/-- Whether a name can go on with a character. -/
def continuesName (c : Char) : Bool := c.isAlphanum || c == '_'

/-- The longest token at the front of a text, with the text it takes and the text after it. -/
def split? (cs : List Char) : Option (Token × List Char × List Char) :=
  match Numeral.split? cs with
  | some (n, rest) => some (number n.toDouble, n.text, rest)
  | none =>
    match cs with
    | [] => none
    | c :: after =>
      if startsName c then
        let name := c :: after.takeWhile continuesName
        some (identifier (String.ofList name), name, after.dropWhile continuesName)
      else (ofSymbol? c).map fun t => (t, [c], after)

/-- What a token takes and what is left are the text it is taken from. -/
theorem append_of_split? {cs lexeme rest : List Char} {t : Token}
    (h : split? cs = some (t, lexeme, rest)) : lexeme ++ rest = cs := by
  unfold split? at h
  split at h
  · next n rest' hn =>
    simp only [Option.some.injEq, Prod.mk.injEq] at h
    obtain ⟨-, rfl, rfl⟩ := h
    exact Numeral.text_append_of_split? hn
  · split at h
    · cases h
    · split at h
      · simp only [Option.some.injEq, Prod.mk.injEq] at h
        obtain ⟨-, rfl, rfl⟩ := h
        simp
      · simp only [Option.map_eq_some_iff, Prod.mk.injEq] at h
        obtain ⟨-, -, -, rfl, rfl⟩ := h
        rfl

/-- A token takes at least one character. -/
theorem ne_nil_of_split? {cs lexeme rest : List Char} {t : Token}
    (h : split? cs = some (t, lexeme, rest)) : lexeme ≠ [] := by
  unfold split? at h
  split at h
  · next n rest' hn =>
    simp only [Option.some.injEq, Prod.mk.injEq] at h
    obtain ⟨-, rfl, -⟩ := h
    exact Numeral.text_ne_nil_of_split? hn
  · split at h
    · cases h
    · split at h
      · simp only [Option.some.injEq, Prod.mk.injEq] at h
        obtain ⟨-, rfl, -⟩ := h
        simp
      · simp only [Option.map_eq_some_iff, Prod.mk.injEq] at h
        obtain ⟨-, -, -, rfl, -⟩ := h
        simp

theorem length_lt_of_split? {cs lexeme rest : List Char} {t : Token}
    (h : split? cs = some (t, lexeme, rest)) : rest.length < cs.length := by
  have hpos := List.length_pos_iff.mpr (ne_nil_of_split? h)
  rw [← append_of_split? h, List.length_append]
  omega

/-- The tokens of a text in front of which there are `offset` bytes. -/
def scan (offset : Nat) (cs : List Char) : Except ScanError (List Token) :=
  let start := offset + Text.utf8Length (cs.takeWhile Text.isBlank)
  match _h : Text.trimStart cs with
  | [] => .ok []
  | c :: after =>
    match _hs : split? (c :: after) with
    | none => .error ⟨c, start⟩
    | some (t, lexeme, rest) => (scan (start + Text.utf8Length lexeme) rest).map (t :: ·)
termination_by cs.length
decreasing_by
  have hlt := length_lt_of_split? _hs
  have hle : (Text.trimStart cs).length ≤ cs.length := (List.dropWhile_suffix _).length_le
  rw [_h] at hle
  omega

/-- The tokens of an expression as it is typed. -/
def ofText (text : String) : Except ScanError (List Token) := scan 0 (Keypad.normalize text.toList)

end Token
end SciCalc
