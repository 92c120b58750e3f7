/-
What a run of the calculator writes: results on one channel, complaints on another.
-/
namespace SciCalc

/-- The texts on the two channels. -/
structure Output where
  out : String := ""
  err : String := ""
deriving DecidableEq, Repr, Inhabited

namespace Output

/-- A line among the results. -/
def line (text : String) : Output := { out := text ++ "\n" }

/-- A line that reports a failure. -/
def failure (message : String) : Output := { err := "Error: " ++ message ++ "\n" }

/-- One output after another. -/
def append (a b : Output) : Output := ⟨a.out ++ b.out, a.err ++ b.err⟩

instance : Append Output := ⟨append⟩

end Output
end SciCalc
