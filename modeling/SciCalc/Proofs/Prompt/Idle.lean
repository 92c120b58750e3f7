/-
Lines that may be left out of an interactive run without a change to the rest (`answers_without`). Some leave
the session as it is: they are blank, they only show something, or they fail (`Idle`). And commands about the
memory change nothing but the memory, which nothing else depends on, so that all of them may be left out
together.
-/
import SciCalc.Proofs.Prompt.Line

namespace SciCalc

/-- A list without the elements at some places. -/
def without {α : Type} (deleted : Nat → Bool) : List α → List α
  | [] => []
  | x :: xs =>
    if deleted 0 then without (fun i => deleted (i + 1)) xs else x :: without (fun i => deleted (i + 1)) xs

namespace Command

/-- Whether a command leaves a session as it is, for it only shows something, or it fails. -/
inductive Idle (s : Session) : Command → Prop where
  | help : Idle s .help
  | history : Idle s .history
  | memoryRecall : Idle s .memoryRecall
  | notEvaluated {text : String} (h : (s.outcome text).isOk = false) : Idle s (.evaluate text)
  | notAdded {text : String} (h : (s.operand text).isOk = false) : Idle s (.memoryAdd text)
  | notSubtracted {text : String} (h : (s.operand text).isOk = false) : Idle s (.memorySubtract text)

/-- Whether a command is about the memory. -/
def isMemory : Command → Bool
  | memoryClear | memoryRecall | memoryAdd _ | memorySubtract _ => true
  | _ => false

end Command

/-- A session with something else in the memory. -/
def Session.withMemory (s : Session) (memory : Float) : Session := { s with memory }

namespace Prompt

variable {json : Bool} {s : Session} {line : Text.Line} {lines : List Text.Line} {command : Command}
  {deleted : Nat → Bool}

/-- Whether a line leaves a session as it is: it is blank, or its command does. -/
inductive Idle (s : Session) : Text.Line → Prop where
  | blank {content : String} (h : Text.trim content.toList = []) : Idle s (.text content)
  | command {content : String} (h : (Command.ofLine (Text.trim content.toList)).Idle s) : Idle s (.text content)

/-- Whether a line has a command about the memory. -/
def asksMemory : Text.Line → Bool
  | .undecodable => false
  | .text content => (Command.ofLine (Text.trim content.toList)).isMemory

/-! ## Lines that leave the session as it is -/

theorem exists_error_of_isOk {ε α : Type} {outcome : Except ε α} (h : outcome.isOk = false) :
    ∃ e, outcome = .error e := by
  cases outcome with
  | ok x => cases h
  | error e => exact ⟨e, rfl⟩

theorem answer_of_idle (h : command.Idle s) (json : Bool) : ∃ output, answer json s command = some (output, s) := by
  cases h with
  | help | history | memoryRecall => exact ⟨_, rfl⟩
  | notEvaluated h =>
    obtain ⟨e, he⟩ := exists_error_of_isOk h
    exact ⟨_, by simp only [answer, Session.evaluate, he]; rfl⟩
  | notAdded h =>
    obtain ⟨e, he⟩ := exists_error_of_isOk h
    exact ⟨_, by simp only [answer, Session.memoryAdd, he]; rfl⟩
  | notSubtracted h =>
    obtain ⟨e, he⟩ := exists_error_of_isOk h
    exact ⟨_, by simp only [answer, Session.memorySubtract, he]; rfl⟩

theorem Idle.endsRun (h : Idle s line) : endsRun line = false := by
  cases h with
  | blank h =>
    rw [Prompt.endsRun, h]
    rfl
  | command h =>
    refine Bool.eq_false_iff.mpr fun hends => ?_
    rw [Command.ofLine_eq_quit_iff.mpr hends] at h
    cases h

theorem Idle.reply (h : Idle s line) (json : Bool) : (reply json s line).2 = s := by
  cases h with
  | blank h => rw [Prompt.reply, if_pos h]
  | command h =>
    obtain ⟨output, houtput⟩ := answer_of_idle h json
    rw [Prompt.reply, houtput]
    split <;> rfl

/-- **Lines that change nothing** may be left out, some or all of them. What is behind the end of the run may be
left out in any case. -/
theorem answers_without_idle
    (h : ∀ i ≤ (answers json s lines).1.length, deleted i = true →
      ∀ line ∈ lines[i]?, Idle (left json s (lines.take i)) line) :
    answers json s (without deleted lines) =
      (without deleted (answers json s lines).1, (answers json s lines).2) := by
  induction lines generalizing s deleted with
  | nil => rfl
  | cons line lines ih =>
    have hidle : deleted 0 = true → Idle s line := fun hdeleted => h 0 (Nat.zero_le _) hdeleted line rfl
    cases hends : endsRun line with
    | true =>
      have hkept : deleted 0 ≠ true := fun hdeleted => by
        rw [(hidle hdeleted).endsRun] at hends
        cases hends
      rw [without, if_neg hkept, answers_cons_of_endsRun hends, answers_cons_of_endsRun hends, without]
    | false =>
      rw [answers_cons_of_not_endsRun hends] at h ⊢
      have hrest := @ih (reply json s line).2 (fun i => deleted (i + 1)) fun i hi hdeleted =>
        h (i + 1) (Nat.succ_le_succ hi) hdeleted
      rw [without, without]
      split
      · next hdeleted =>
        rw [(hidle hdeleted).reply json] at hrest ⊢
        exact hrest
      · rw [answers_cons_of_not_endsRun hends, hrest]

/-! ## Commands about the memory -/

theorem answer_withMemory (h : command.isMemory = false) (json : Bool) (s : Session) (memory : Float) :
    answer json (s.withMemory memory) command =
      (answer json s command).map fun r => (r.1, r.2.withMemory memory) := by
  cases command with
  | memoryClear | memoryRecall | memoryAdd _ | memorySubtract _ => cases h
  | quit | help | history | setMode _ | toggleMode => rfl
  | evaluate text =>
    have houtcome : (s.withMemory memory).outcome text = s.outcome text := rfl
    simp only [answer, Session.evaluate, houtcome]
    cases s.outcome text <;> rfl

theorem exists_answerMemory (s : Session) (operand : Except EvalError Float) (change : Float → Float) :
    ∃ memory, (answerMemory s (operand.map fun x => s.withMemory (change x))).2 = s.withMemory memory := by
  cases operand with
  | ok x => exact ⟨change x, rfl⟩
  | error e => exact ⟨s.memory, rfl⟩

theorem exists_answer_of_isMemory (h : command.isMemory = true) (json : Bool) (s : Session) :
    ∃ output memory, answer json s command = some (output, s.withMemory memory) := by
  cases command with
  | quit | help | history | setMode _ | toggleMode | evaluate _ => cases h
  | memoryClear => exact ⟨_, _, rfl⟩
  | memoryRecall => exact ⟨_, s.memory, rfl⟩
  | memoryAdd text =>
    obtain ⟨memory, hmemory⟩ := exists_answerMemory s (s.operand text) (s.memory + ·)
    exact ⟨_, memory, congrArg some (Prod.ext rfl hmemory)⟩
  | memorySubtract text =>
    obtain ⟨memory, hmemory⟩ := exists_answerMemory s (s.operand text) (s.memory - ·)
    exact ⟨_, memory, congrArg some (Prod.ext rfl hmemory)⟩

theorem endsRun_of_asksMemory (h : asksMemory line = true) : endsRun line = false := by
  cases line with
  | undecodable => cases h
  | text content =>
    refine Bool.eq_false_iff.mpr fun hends => ?_
    rw [asksMemory, Command.ofLine_eq_quit_iff.mpr hends] at h
    cases h

theorem exists_reply_of_asksMemory (h : asksMemory line = true) (json : Bool) (s : Session) :
    ∃ memory, (reply json s line).2 = s.withMemory memory := by
  cases line with
  | undecodable => cases h
  | text content =>
    obtain ⟨output, memory, hanswer⟩ := exists_answer_of_isMemory h json s
    rw [reply, hanswer]
    split
    · exact ⟨s.memory, rfl⟩
    · exact ⟨memory, rfl⟩

theorem reply_withMemory (h : asksMemory line = false) (json : Bool) (s : Session) (memory : Float) :
    reply json (s.withMemory memory) line =
      ((reply json s line).1, (reply json s line).2.withMemory memory) := by
  cases line with
  | undecodable => rfl
  | text content =>
    rw [reply, reply, answer_withMemory h]
    split
    · rfl
    · cases answer json s (Command.ofLine (Text.trim content.toList)) <;> rfl

/-- **Commands about the memory** may be left out, all of them. What is in the memory then does not matter. -/
theorem answers_without_memory (json : Bool) (s : Session) (memory : Float) (lines : List Text.Line) :
    let deleted := fun i => lines[i]?.any asksMemory
    answers json (s.withMemory memory) (without deleted lines) =
      (without deleted (answers json s lines).1, (answers json s lines).2) := by
  induction lines generalizing s with
  | nil => rfl
  | cons line lines ih =>
    intro deleted
    have hfirst : deleted 0 = asksMemory line := rfl
    have hrest : answers json ((reply json s line).2.withMemory memory) (without (fun i => deleted (i + 1)) lines) =
        (without (fun i => deleted (i + 1)) (answers json (reply json s line).2 lines).1,
          (answers json (reply json s line).2 lines).2) := ih _
    cases hmemory : asksMemory line with
    | true =>
      obtain ⟨changed, hreply⟩ := exists_reply_of_asksMemory hmemory json s
      have hagain : (reply json s line).2.withMemory memory = s.withMemory memory := by rw [hreply]; rfl
      rw [answers_cons_of_not_endsRun (endsRun_of_asksMemory hmemory), without, without, hfirst, hmemory, if_pos rfl,
        if_pos rfl, ← hagain]
      exact hrest
    | false =>
      rw [without, hfirst, hmemory, if_neg Bool.false_ne_true]
      cases hends : endsRun line with
      | true => rw [answers_cons_of_endsRun hends, answers_cons_of_endsRun hends, without]
      | false =>
        rw [answers_cons_of_not_endsRun hends, answers_cons_of_not_endsRun hends, without, hfirst, hmemory,
          if_neg Bool.false_ne_true, reply_withMemory hmemory, hrest]

/-- **Lines without a trace.** Any lines that leave the session as it is where they stand may be left out of a run:
all other lines are answered as before, in the same order, and the run ends in the same way. And so may be all
commands about the memory. -/
theorem answers_without (json : Bool) (s : Session) (lines : List Text.Line) :
    (∀ deleted : Nat → Bool,
      (∀ i ≤ (answers json s lines).1.length, deleted i = true →
        ∀ line ∈ lines[i]?, Idle (left json s (lines.take i)) line) →
      answers json s (without deleted lines) =
        (without deleted (answers json s lines).1, (answers json s lines).2)) ∧
    let memory := fun i => lines[i]?.any asksMemory
    answers json s (without memory lines) = (without memory (answers json s lines).1, (answers json s lines).2) :=
  ⟨fun _ => answers_without_idle, answers_without_memory json s s.memory lines⟩

/-- Two lines that fail, one for want of an operand and one for a name that is none. -/
theorem answers_without_failures :
    let s := Session.ofConfig {}
    let lines : List Text.Line := [.text "5", .text "2+", .text "ans*ans", .text "m+ x", .text "m-", .text "mr"]
    let deleted : Nat → Bool := fun i => i == 1 || i == 3
    (∀ i ≤ (answers false s lines).1.length, deleted i = true →
      ∀ line ∈ lines[i]?, Idle (left false s (lines.take i)) line) ∧
    answers false s [.text "5", .text "ans*ans", .text "m-", .text "mr"] =
      ([Output.line "5", Output.line "25", Output.line "M = -25", Output.line "-25"], .endOfInput) := by
  intro s lines deleted
  have hidle : ∀ i ≤ (answers false s lines).1.length, deleted i = true →
      ∀ line ∈ lines[i]?, Idle (left false s (lines.take i)) line := by
    rintro i - hdeleted line hline
    have hi : i = 1 ∨ i = 3 := by simpa [deleted] using hdeleted
    rcases hi with rfl | rfl
    · obtain rfl : line = .text "2+" := (Option.some.inj hline).symm
      exact .command (.notEvaluated (by decide +kernel))
    · obtain rfl : line = .text "m+ x" := (Option.some.inj hline).symm
      exact .command (.notAdded (by decide +kernel))
  exact ⟨hidle, ((answers_without false s lines).1 deleted hidle).trans (by decide +kernel)⟩

end Prompt
end SciCalc
