/-
The word `ans`, which stands for the last answer. It counts as a word where no word character touches
it on either side, and it is replaced before a text is scanned. What is put in its place stands in
parentheses, so that it is one operand whatever its sign, and it is not searched again.
-/
import SciCalc.Decimal.Layout
import SciCalc.Text.Word

namespace SciCalc.Answer

/-- A text with every `ans` replaced. Whether the character in front of the text is a word character is
told by `inWord`. -/
def expandFrom (replacement : List Char) (inWord : Bool) : List Char → List Char
  | [] => []
  | 'a' :: 'n' :: 's' :: cs =>
    if inWord || Text.startsInWord cs then
      'a' :: expandFrom replacement true ('n' :: 's' :: cs)
    else replacement ++ expandFrom replacement true cs
  | c :: cs => c :: expandFrom replacement (Text.isWord c) cs

/-- What is put in the place of the word. -/
def replacement (answer : Float) : List Char := '(' :: (Decimal.plainText answer ++ [')'])

/-- A typed text with the last answer in its place. -/
def expand (answer : Float) (text : String) : String :=
  String.ofList (expandFrom (replacement answer) false text.toList)

end SciCalc.Answer
