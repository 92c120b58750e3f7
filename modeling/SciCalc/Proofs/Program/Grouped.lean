/-
A group of tokens may stand for a number anywhere, if by themselves they are a program that leaves that
number (`run_of_grouped`). The groups are put in one after the other, from the left; each is an operand in
its place, and what it adds to the program leaves on any stack what the number would.
-/
import SciCalc.Program.Run
import SciCalc.Proofs.Program.Operand

namespace SciCalc

/-- Whether some numbers of the first tokens are groups in the second ones, each of which is a program for
the number. -/
inductive Token.Grouped : List Token → List Token → Prop where
  | nil : Grouped [] []
  | same (t : Token) {ts us : List Token} (others : Grouped ts us) : Grouped (t :: ts) (t :: us)
  | group {x : Float} {inside ts us : List Token} {p : Program} (program : Program.ofTokens inside = .ok p)
      (value : ∀ mode stack, p.exec mode stack = .ok (x :: stack)) (others : Grouped ts us) :
      Grouped (.number x :: ts) (.leftParen :: (inside ++ .rightParen :: us))

namespace Program

variable {before inside after ts us : List Token} {p q : Program} {x : Float}

/-- **One group** in the place of a number. -/
theorem exists_ofTokens_group (h : ofTokens (before ++ .number x :: after) = .ok p)
    (hinside : ofTokens inside = .ok q) (hq : ∀ mode stack, q.exec mode stack = .ok (x :: stack)) :
    ∃ r, ofTokens (before ++ .leftParen :: (inside ++ .rightParen :: after)) = .ok r ∧
      ∀ mode stack, r.exec mode stack = p.exec mode stack := by
  obtain ⟨q₁, q₂, stack, hcall, hafter, hbefore⟩ := exists_place_of_number h
  have hnumber : ofTokensFrom before.getLast? stack (.number x :: after) = .ok ([.push x] ++ q₂) := by
    rw [ofTokensFrom_number, hafter]
    rfl
  have hgroup : ofTokensFrom before.getLast? stack (.leftParen :: (inside ++ .rightParen :: after)) =
      .ok (q ++ q₂) := by
    rw [ofTokensFrom_group hinside hcall, hafter]
    rfl
  rw [hbefore, hnumber] at h
  rw [hbefore, hgroup]
  cases h
  refine ⟨q₁ ++ (q ++ q₂), rfl, fun mode stack => ?_⟩
  have hpush : ∀ stack, exec mode [.push x] stack = .ok (x :: stack) := fun _ => rfl
  rw [exec_append, exec_append]
  cases exec mode q₁ stack with
  | error e => rfl
  | ok stack =>
    simp only [Except.bind]
    rw [exec_append, exec_append, hq, hpush]

/-- Many groups, one after the other. Those that have been put in are part of the tokens in front. -/
theorem exists_ofTokens_grouped (h : Token.Grouped ts us) (hp : ofTokens (before ++ ts) = .ok p) :
    ∃ r, ofTokens (before ++ us) = .ok r ∧ ∀ mode stack, r.exec mode stack = p.exec mode stack := by
  induction h generalizing before p with
  | nil => exact ⟨p, hp, fun _ _ => rfl⟩
  | same t others ih =>
    rw [List.append_cons] at hp ⊢
    exact ih hp
  | @group x inside ts us q program value others ih =>
    obtain ⟨r, hr, hexec⟩ := exists_ofTokens_group hp program value
    have hsplit : ∀ vs, before ++ .leftParen :: (inside ++ .rightParen :: vs) =
        before ++ .leftParen :: (inside ++ [.rightParen]) ++ vs := by simp
    rw [hsplit] at hr ⊢
    obtain ⟨r', hr', hexec'⟩ := ih hr
    exact ⟨r', hr', fun mode stack => (hexec' mode stack).trans (hexec mode stack)⟩

/-- **Groups for numbers** change no value and no error of a run. -/
theorem run_of_grouped (h : Token.Grouped ts us) (hp : ofTokens ts = .ok p) :
    ∃ r, ofTokens us = .ok r ∧ ∀ mode, r.run mode = p.run mode := by
  have hnil : ofTokens ([] ++ ts) = .ok p := hp
  obtain ⟨r, hr, hexec⟩ := exists_ofTokens_grouped h hnil
  refine ⟨r, hr, fun mode => ?_⟩
  simp only [run, hexec]

end Program
end SciCalc
