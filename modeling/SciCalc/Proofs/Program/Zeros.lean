/-
The zero that a negation subtracts from may as well be written. Tokens without a factorial sign are the same
program, or the same error, with a zero in front of each minus that has no operand on its left
(`ofTokens_withZeros`). With the zeros there, every minus is an operator between two operands.

The two readings go side by side. What waits is the same between any two tokens, but for negations in the one
where subtractions are in the other (`Pending.written`). Only a factorial sign looks at the difference, and so
there may be none.
-/
import SciCalc.Proofs.Program.Read

namespace SciCalc

/-- Whether an operand is still to come behind a token, or in front of all of them. -/
def Token.awaitsOperand : Option Token → Bool
  | none | some .leftParen | some .comma | some (.operator _) => true
  | some (.number _) | some (.identifier _) | some .rightParen | some .factorial => false

/-- Tokens with a zero written in front of each minus that has no operand on its left. -/
def Token.withZeros (previous : Option Token) : List Token → List Token
  | [] => []
  | t :: ts =>
    if t = .operator .sub ∧ awaitsOperand previous then
      .number (Double.ofNat 0) :: t :: withZeros (some t) ts
    else t :: withZeros (some t) ts

/-- What waits in the place of an entry where all zeros are written. -/
def Pending.written : Pending → Pending
  | .negation => .operator .sub
  | p => p

namespace Program

open Pending (release)
open Token (awaitsOperand withZeros)

variable {previous next : Option Token} {stack : List Pending} {t : Token} {ts : List Token}

theorem negatesAfter_eq_awaitsOperand (previous : Option Token) :
    negatesAfter previous = awaitsOperand previous := by
  cases previous with
  | none => rfl
  | some t => cases t <;> rfl

/-! ## What waits in either reading -/

theorem instruction?_written (p : Pending) : p.written.instruction? = p.instruction? := by
  cases p <;> rfl

theorem goesBefore_written (op : Operator) (p : Pending) : p.written.goesBefore op = p.goesBefore op := by
  cases p <;> rfl

theorem written_eq_group_iff {p : Pending} : p.written = .group ↔ p = .group := by
  cases p <;> simp [Pending.written]

theorem filterMap_written (stack : List Pending) :
    (stack.map Pending.written).filterMap Pending.instruction? = stack.filterMap Pending.instruction? := by
  rw [List.filterMap_map]
  exact congrArg (List.filterMap · stack) (funext instruction?_written)

theorem release_written (condition : Pending → Bool)
    (h : ∀ p : Pending, condition p.written = condition p) (stack : List Pending) :
    release condition (stack.map Pending.written) =
      ((release condition stack).1, (release condition stack).2.map Pending.written) := by
  have hcondition : condition ∘ Pending.written = condition := funext h
  simp only [release, List.takeWhile_map, List.dropWhile_map, hcondition, filterMap_written]

theorem closeGroup_written (stack : List Pending) :
    closeGroup (stack.map Pending.written) =
      (closeGroup stack).map fun (call, stack) => (call, stack.map Pending.written) := by
  cases stack with
  | nil => rfl
  | cons top stack =>
    cases top with
    | group =>
      cases stack with
      | nil => rfl
      | cons below stack => cases below <;> rfl
    | _ => rfl

theorem finish_written (stack : List Pending) : finish (stack.map Pending.written) = finish stack := by
  have hgroup : .group ∈ stack.map Pending.written ↔ .group ∈ stack := by simp [written_eq_group_iff]
  simp only [finish, hgroup, filterMap_written]

/-! ## Both readings -/

/-- **One step**, if its token is no factorial sign and does not negate, is the same in both readings. -/
theorem step_written (hfactorial : t ≠ .factorial) (hminus : ¬(t = .operator .sub ∧ awaitsOperand previous)) :
    step previous next (stack.map Pending.written) t =
      (step previous next stack t).map fun (p, stack) => (p, stack.map Pending.written) := by
  have hgroup := release_written (· ≠ .group) (fun p => by simp [written_eq_group_iff]) stack
  cases t with
  | number x => rfl
  | leftParen => rfl
  | factorial => exact absurd rfl hfactorial
  | identifier name =>
    simp only [step]
    split
    · split <;> rfl
    · rfl
  | rightParen =>
    simp only [step, hgroup, closeGroup_written]
    cases closeGroup (release (· ≠ .group) stack).2 <;> rfl
  | comma =>
    simp only [step, hgroup]
    rfl
  | operator op =>
    have hnot : ¬(op = .sub ∧ negatesAfter previous) := by
      rw [negatesAfter_eq_awaitsOperand]
      simpa using hminus
    simp only [step, release_written _ (goesBefore_written op), if_neg hnot]
    rfl

/-- A zero changes nothing for a name in front of it: a name is called by a parenthesis. -/
theorem head?_withZeros (previous : Option Token) (ts : List Token) :
    (withZeros previous ts).head? = some .leftParen ↔ ts.head? = some .leftParen := by
  cases ts with
  | nil => rfl
  | cons t ts =>
    rw [withZeros]
    split
    · next h => simp [h.1]
    · simp

/-- **A run** is the same in both readings, one step for each token; where a minus negates, the other reading
takes two. -/
theorem ofTokensFrom_withZeros (h : .factorial ∉ ts) (previous : Option Token) (stack : List Pending) :
    ofTokensFrom previous (stack.map Pending.written) (withZeros previous ts) =
      ofTokensFrom previous stack ts := by
  induction ts generalizing previous stack with
  | nil => exact finish_written stack
  | cons t ts ih =>
    obtain ⟨hne, hts⟩ := not_or.mp (mt List.mem_cons.mpr h)
    by_cases hminus : t = .operator .sub ∧ awaitsOperand previous
    -- The zero and the minus behind it are two steps in the one reading, and one step in the other.
    · obtain ⟨rfl, hawaits⟩ := hminus
      have hnegates : negatesAfter previous = true := by rw [negatesAfter_eq_awaitsOperand, hawaits]
      have hstep : step previous ts.head? stack (.operator .sub) =
          .ok (.push (Double.ofNat 0) :: (release (Pending.goesBefore .sub) stack).1,
            .negation :: (release (Pending.goesBefore .sub) stack).2) := by
        simp [step, hnegates]
      have hwritten : step (some .rightParen) (withZeros (some (.operator .sub)) ts).head?
          (stack.map Pending.written) (.operator .sub) =
          .ok ((release (Pending.goesBefore .sub) stack).1,
            (.negation :: (release (Pending.goesBefore .sub) stack).2).map Pending.written) := by
        simp [step, negatesAfter, release_written _ (goesBefore_written .sub), Pending.written]
      rw [withZeros, if_pos ⟨rfl, hawaits⟩, ofTokensFrom_number, ofTokensFrom_cons hwritten,
        ofTokensFrom_cons hstep, ih hts, map_append_map]
      rfl
    · rw [withZeros, if_neg hminus]
      simp only [ofTokensFrom]
      rw [step_congr rfl (head?_withZeros (some t) ts), step_written (Ne.symm hne) hminus]
      cases step previous ts.head? stack t with
      | error e => rfl
      | ok r => simp only [Except.map, ih hts]

theorem awaitsOperand_withZeros {before after : List Token}
    (h : withZeros previous ts = before ++ .operator .sub :: after) :
    awaitsOperand (before.getLast?.or previous) = false := by
  induction ts generalizing previous before with
  | nil => simp [withZeros] at h
  | cons t ts ih =>
    rw [withZeros] at h
    split at h
    · next hminus =>
      obtain ⟨rfl, -⟩ := hminus
      match before with
      | [] => simp at h
      | [zero] =>
        simp only [List.cons_append, List.nil_append, List.cons.injEq] at h
        rw [← h.1]
        rfl
      | zero :: minus :: before =>
        simp only [List.cons_append, List.cons.injEq] at h
        obtain ⟨rfl, rfl, h⟩ := h
        rw [getLast?_cons_or, getLast?_cons_or]
        exact ih h
    · next hminus =>
      cases before with
      | nil =>
        simp only [List.nil_append, List.cons.injEq] at h
        simpa [h.1] using hminus
      | cons u before =>
        simp only [List.cons_append, List.cons.injEq] at h
        obtain ⟨rfl, h⟩ := h
        rw [getLast?_cons_or]
        exact ih h

/-- **A minus that negates is a subtraction from a zero**: without factorial signs, tokens are the same program,
or the same error, when the zeros are written. Then all of their minuses are operators with an operand on the
left, so that `a^-b` is `(a^0)-b`. -/
theorem ofTokens_withZeros (h : .factorial ∉ ts) :
    ofTokens ts = ofTokens (withZeros none ts) ∧
      ∀ before after, withZeros none ts = before ++ .operator .sub :: after →
        awaitsOperand before.getLast? = false := by
  refine ⟨(ofTokensFrom_withZeros h none []).symm, fun before after hts => ?_⟩
  have hminus := awaitsOperand_withZeros hts
  rwa [Option.or_none] at hminus

/-- Both minuses of a chain negate, and the first of them ends the power. -/
theorem ofTokens_withZeros_chain :
    Token.factorial ∉ [.number Double.pi, .operator .pow, .operator .sub, .operator .sub, .number Double.pi] ∧
      ofTokens [.number Double.pi, .operator .pow, .operator .sub, .operator .sub, .number Double.pi] =
        ofTokens [.number Double.pi, .operator .pow, .number (Double.ofNat 0), .operator .sub,
          .number (Double.ofNat 0), .operator .sub, .number Double.pi] ∧
      ofTokens [.number Double.pi, .operator .pow, .operator .sub, .operator .sub, .number Double.pi] =
        .ok [.push Double.pi, .push (Double.ofNat 0), .operate .pow, .push (Double.ofNat 0), .operate .sub,
          .push Double.pi, .operate .sub] := by
  have h : Token.factorial ∉
      [.number Double.pi, .operator .pow, .operator .sub, .operator .sub, .number Double.pi] := by simp
  exact ⟨h, (ofTokens_withZeros h).1, rfl⟩

end Program
end SciCalc
