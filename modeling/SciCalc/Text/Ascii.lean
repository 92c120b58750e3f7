/-
Keywords that are typed in either case: comparison of texts up to the case of ASCII letters. Other
letters have no case here.
-/
namespace SciCalc.Text

/-- A text with its ASCII capitals made small. -/
def lowerCase (cs : List Char) : List Char := cs.map Char.toLower

/-- Whether two texts differ at most in the case of ASCII letters. -/
def sameLetters (cs ds : List Char) : Bool := lowerCase cs == lowerCase ds

end SciCalc.Text
