/-
The word for the last answer behaves as the number that it stands for (`Session.evaluate_answered`): an
expression has the outcome of the program of its tokens with that number in the place of the word. This
holds however often the word occurs, and for negative answers too, whose minus does not get out of the
parentheses.

An answer that is zero must be a positive one. The text of the negative zero stands for a subtraction from
zero, which gives the positive one.
-/
import SciCalc.Proofs.Answer.Tokens
import SciCalc.Session

namespace SciCalc.Session

open Token (Piece Decomposed)

/-- **The last answer is an operand**: in the place of its word, it gives the value or the error that its
number would. -/
theorem evaluate_answered (s : Session) {negative : Bool} {units : Nat}
    (hx : Double.classify s.answer = .finite negative units) (hzero : units = 0 → negative = false)
    {text : String} (hne : text ≠ "") {ts : List Token} (hts : Token.ofText text = .ok ts) :
    ∃ pieces, Decomposed (Keypad.normalize text.toList) pieces ∧ pieces.map Piece.token = ts ∧
      ∀ p, Program.ofTokens (Answer.answered s.answer text.toList [] pieces) = .ok p →
        (s.evaluate text).1.outcome = (p.run s.mode).mapError .run := by
  obtain ⟨pieces, hpieces, hmap⟩ := Token.exists_decomposed_of_scan hts
  refine ⟨pieces, hpieces, hmap, fun p hp => ?_⟩
  obtain ⟨pieces', hpieces', hgrouped⟩ :=
    Answer.exists_decomposed_expandFrom hx hzero hpieces (List.nil_append _).symm
  obtain ⟨r, hr, hrun⟩ := Program.run_of_grouped hgrouped hp
  have htokens : Token.ofText (s.expand text) = .ok (pieces'.map Piece.token) := by
    rw [Token.ofText, expand, Answer.expand, String.toList_ofList,
      Answer.normalize_expandFrom (Answer.ascii_replacement hx)]
    exact hpieces'.scan 0
  have hne' : s.expand text ≠ "" := by
    rw [Ne, ← String.toList_eq_nil_iff] at hne ⊢
    rw [expand, Answer.expand, String.toList_ofList]
    exact Answer.expandFrom_ne_nil (List.cons_ne_nil _ _) hne
  have houtcome : s.outcome text = (r.run s.mode).mapError .run := by
    simp only [outcome, SciCalc.evaluate, if_neg hne', programOfText, htokens, hr, Except.mapError]
  rw [evaluate, houtcome, hrun]

/-- After minus one as the answer, twice its factorial. The minus is part of what the factorial takes. -/
theorem evaluate_answered_factorial :
    Double.classify (.ofBits 0xbff0000000000000) = .finite true Double.unitsPerOne ∧
      Token.ofText "2*ans!" =
        .ok [.number (Numeral.toDouble ⟨['2'], [], none⟩), .operator .mul, .identifier "ans", .factorial] ∧
      (evaluate ⟨.radians, 0, .ofBits 0xbff0000000000000, Double.ofNat 0, []⟩ "2*ans!").1.outcome =
        (Program.run .radians [.push (Numeral.toDouble ⟨['2'], [], none⟩), .push (.ofBits 0xbff0000000000000),
          .factorial, .operate .mul]).mapError .run := by
  have hx : Double.classify (.ofBits 0xbff0000000000000) = .finite true Double.unitsPerOne := by
    decide +kernel
  have hone : Double.unitsPerOne = 0 → true = false := fun h =>
    absurd h (Nat.ne_of_gt Double.unitsPerOne_pos)
  have hpieces : Decomposed (Keypad.normalize "2*ans!".toList)
      [⟨[], ['2'], .number (Numeral.toDouble ⟨['2'], [], none⟩)⟩, ⟨[], ['*'], .operator .mul⟩,
        ⟨[], "ans".toList, .identifier "ans"⟩, ⟨[], ['!'], .factorial⟩] :=
    Token.decomposed_cons_iff.mpr ⟨rfl, "*ans!".toList, rfl,
    Token.decomposed_cons_iff.mpr ⟨rfl, "ans!".toList, rfl,
    Token.decomposed_cons_iff.mpr ⟨rfl, ['!'], rfl,
    Token.decomposed_cons_iff.mpr ⟨rfl, [], rfl,
    .nil nofun⟩⟩⟩⟩
  have hts : Token.ofText "2*ans!" =
      .ok [.number (Numeral.toDouble ⟨['2'], [], none⟩), .operator .mul, .identifier "ans", .factorial] :=
    hpieces.scan 0
  refine ⟨hx, hts, ?_⟩
  obtain ⟨pieces, hpieces', -, hrun⟩ := evaluate_answered
    ⟨.radians, 0, .ofBits 0xbff0000000000000, Double.ofNat 0, []⟩ hx hone (by decide) hts
  rw [hpieces'.unique hpieces] at hrun
  exact hrun _ rfl

end SciCalc.Session
