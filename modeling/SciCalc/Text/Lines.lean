/-
Typed input as lines. A line ends at a line feed, and one carriage return before it belongs to the
end; bytes after the last line feed form a line of their own. Each line is UTF-8 text by itself, so
one bad line spoils no other.
-/
namespace SciCalc.Text

/-- One line of typed input. -/
inductive Line where
  /-- A line whose bytes are UTF-8. -/
  | text (content : String)
  /-- A line whose bytes are not UTF-8. -/
  | undecodable
deriving DecidableEq, Repr

/-- A line from its bytes, line end removed. -/
def Line.ofBytes (bytes : List UInt8) : Line :=
  match String.fromUTF8? ⟨bytes.toArray⟩ with
  | some content => .text content
  | none => .undecodable

/-- Removes the carriage return in front of a line feed. -/
def dropCarriageReturn (bytes : List UInt8) : List UInt8 :=
  if bytes.getLast? = some 0x0d then bytes.dropLast else bytes

/-- The bytes of the lines of an input. The line being read is `line`, with its last byte first. -/
def splitLines (line : List UInt8) : List UInt8 → List (List UInt8)
  | [] => if line = [] then [] else [line.reverse]
  | b :: bytes =>
    if b = 0x0a then dropCarriageReturn line.reverse :: splitLines [] bytes
    else splitLines (b :: line) bytes

/-- The lines of an input. -/
def lines (input : ByteArray) : List Line := (splitLines [] input.toList).map Line.ofBytes

end SciCalc.Text
