/-
Word characters: letters, digits, marks, connectors and join controls. A name stands as a whole
word where no word character touches it on either side.
-/
import SciCalc.Text.CodePoints
import SciCalc.Text.WordRanges

namespace SciCalc.Text

/-- Whether a character is part of a word. In ASCII these are the letters, the digits and `_`. -/
def isWord (c : Char) : Bool :=
  if c.toNat < 0x80 then c.isAlphanum || c == '_'
  else inRanges wordRangesLow c.toNat || inRanges wordRangesHigh c.toNat ||
    inRanges wordRangesBeyond c.toNat

/-- Whether a text starts with a word character. -/
def startsInWord (cs : List Char) : Bool := cs.head?.any isWord

end SciCalc.Text
