import SciCalc.Text.Blank
import SciCalc.Text.Word
import SciCalc.Text.Ascii
import SciCalc.Text.Lines
import SciCalc.Double.Factorial
import SciCalc.Double.Remainder
import SciCalc.Operator
import SciCalc.Func
import SciCalc.Decimal.Numeral
import SciCalc.Decimal.Layout
import SciCalc.Decimal.Places
import SciCalc.Token.Scan
import SciCalc.Evaluation
import SciCalc.Report
import SciCalc.Toml.Read
import SciCalc.Toml.Document
import SciCalc.Clipboard
import SciCalc.Session
import SciCalc.Prompt.Run
import SciCalc.CommandLine.Run
import SciCalc.Main
import SciCalc.Proofs.Grammar.Derivation
import SciCalc.Proofs.Grammar.Program
import SciCalc.Proofs.Program.Stack
import SciCalc.Proofs.Program.Operand
import SciCalc.Proofs.Grammar.Evaluation
import SciCalc.Proofs.Session.Log
import SciCalc.Proofs.Program.Tree
import SciCalc.Proofs.Program.Offence
import SciCalc.Proofs.Token.Pattern
import SciCalc.Proofs.Decimal.OfText
import SciCalc.Proofs.Token.Longest
import SciCalc.Proofs.Double.Nearest
import SciCalc.Proofs.Double.Bits
import SciCalc.Proofs.Decimal.Value
import SciCalc.Proofs.Decimal.Plain
import SciCalc.Proofs.Answer.Word
import SciCalc.Proofs.Answer.Expand
import SciCalc.Proofs.Program.Grouped
import SciCalc.Proofs.Answer.Place
import SciCalc.Proofs.Answer.Tokens
import SciCalc.Proofs.Answer.Evaluation
import SciCalc.Proofs.Token.Blank
import SciCalc.Proofs.Program.Arguments
import SciCalc.Proofs.Decimal.Places
import SciCalc.Proofs.Program.Work
import SciCalc.Proofs.Report.Pasted
import SciCalc.Proofs.Text.Lines
import SciCalc.Proofs.Prompt.Line
import SciCalc.Proofs.Prompt.Transcript
import SciCalc.Proofs.Prompt.Idle
import SciCalc.Proofs.Decimal.Canonical
import SciCalc.Proofs.Double.Unpacked
import SciCalc.Proofs.Decimal.Rounded
import SciCalc.Proofs.Double.Sum
import SciCalc.Proofs.Session.Recall
import SciCalc.Proofs.Program.Zeros
import SciCalc.Proofs.Program.Negated
import SciCalc.Proofs.Token.Normal
import SciCalc.Proofs.Token.Stray
import SciCalc.Proofs.Program.Starved
import SciCalc.Proofs.Decimal.Thousands
import SciCalc.Proofs.Answer.Cut
import SciCalc.Proofs.Prompt.Command
import SciCalc.Proofs.Double.Arithmetic
import SciCalc.Proofs.Double.Order
import SciCalc.Proofs.Double.Whole
import SciCalc.Proofs.Double.Factorial
import SciCalc.Proofs.Decimal.Data
import SciCalc.Proofs.Json.Read
import SciCalc.Proofs.Json.Written
import SciCalc.Proofs.Report.Record
import SciCalc.Proofs.Toml.Number
import SciCalc.Proofs.Toml.Quoted
import SciCalc.Proofs.Toml.Lines
import SciCalc.Proofs.Toml.Document
import SciCalc.Proofs.Session.Settings
import SciCalc.Proofs.Program.Shape
