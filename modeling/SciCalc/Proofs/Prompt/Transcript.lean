/-
All that an interactive run writes among its results, and the status that it ends with (`run_interact`). After
the banner there is a prompt in front of every line that is answered, with the answer behind it, and one more
prompt in front of the line that ends the run, or of the end of the input. Only an input that is no text makes
the run fail; an expression that has no value does not.
-/
import Mathlib.Data.List.TakeWhile
import SciCalc.CommandLine.Run
import SciCalc.Proofs.Prompt.Line
import SciCalc.Proofs.Text.Lines

namespace SciCalc

namespace Prompt

variable {json : Bool} {s : Session} {lines : List Text.Line} {line? : Option Text.Line}

theorem banner_eq (mode : AngleMode) :
    banner mode =
      "Calculator (" ++ (if mode = .degrees then "DEG" else "RAD") ++
        ") - type an expression, or 'quit' to exit.\nType 'help' for the list of commands.\n" := by
  cases mode with
  | degrees => rfl
  | radians => rfl

theorem out_append (a b : Output) : (a ++ b).out = a.out ++ b.out := rfl

theorem transcript_out (json : Bool) (s : Session) (lines : List Text.Line) :
    (transcript json s lines).out =
      banner s.mode ++ String.join ((answers json s lines).1.map fun output => prompt ++ output.out) ++
        prompt ++ (answers json s lines).2.output.out := by
  have hfold : ∀ (outputs : List Output) (last : Output),
      (outputs.foldr (fun output rest => { out := prompt } ++ output ++ rest) last).out =
        String.join (outputs.map fun output => prompt ++ output.out) ++ last.out := by
    intro outputs last
    induction outputs with
    | nil => simp
    | cons output outputs ih =>
      rw [List.foldr_cons, out_append, out_append, ih, List.map_cons, String.join_cons]
      simp only [String.append_assoc]
  simp only [transcript, out_append, hfold, String.append_assoc]

theorem endingAt_output_out (line? : Option Text.Line) :
    (endingAt line?).output.out = if line? = none then "\n" else "" := by
  match line? with
  | none => rfl
  | some .undecodable => rfl
  | some (.text _) => rfl

theorem endingAt_status (line? : Option Text.Line) :
    (endingAt line?).status = if line? = some .undecodable then 1 else 0 := by
  match line? with
  | none => rfl
  | some .undecodable => rfl
  | some (.text _) => rfl

end Prompt

namespace CommandLine

open Prompt

variable {arguments : List String} {file : Arguments → ConfigFile} {a : Arguments} {config : Config}

theorem run_of_words_eq_nil (ha : Arguments.ofList arguments = .ok a) (hwords : a.words = [])
    (hconfig : configOf a (file a) = .ok config) (typed : ByteArray) :
    run arguments file typed = interact a.json (startOf a config) (Text.lines typed) := by
  simp only [run, ha, taskOf, hconfig, if_pos hwords]

/-- **An interactive run** writes two lines with the mode in them, and for each line up to the first that ends it a prompt and what
the line is answered with in the session that those in front of it leave; and then one more prompt, with a line
end if the input is at its end. It fails if the line that ends it is no text, and only then. What is typed behind
that line changes nothing. -/
theorem run_interact (ha : Arguments.ofList arguments = .ok a) (hwords : a.words = [])
    (hconfig : configOf a (file a) = .ok config) (typed : ByteArray) :
    let s := startOf a config
    let lines := Text.lines typed
    let answered := lines.takeWhile fun line => !endsRun line
    (run arguments file typed).output.out =
      "Calculator (" ++ (if s.mode = .degrees then "DEG" else "RAD") ++
        ") - type an expression, or 'quit' to exit.\nType 'help' for the list of commands.\n" ++
        String.join (answered.mapIdx fun i line =>
          "calc> " ++ (reply a.json (left a.json s (answered.take i)) line).1.out) ++
        "calc> " ++ (if answered = lines then "\n" else "") ∧
    (run arguments file typed).status = (if lines[answered.length]? = some .undecodable then 1 else 0) ∧
    ∀ front rest, typed = front ++ rest → front.toList.getLast? = some 0x0a →
      (∃ line ∈ Text.lines front, endsRun line = true) → run arguments file front = run arguments file typed := by
  intro s lines answered
  have hrun := run_of_words_eq_nil ha hwords hconfig
  have hanswers : answers a.json s lines = (replies a.json s answered, endingAt lines[answered.length]?) :=
    answers_eq a.json s lines
  have hend : lines[answered.length]? = none ↔ answered = lines := by
    rw [List.getElem?_eq_none_iff]
    exact ⟨(List.takeWhile_prefix _).eq_of_length_le, fun heq => Nat.le_of_eq (congrArg List.length heq.symm)⟩
  refine ⟨?_, ?_, ?_⟩
  · rw [hrun, interact, transcript_out, banner_eq, hanswers, endingAt_output_out, replies,
      List.mapIdx_eq_zipIdx_map, List.mapIdx_eq_zipIdx_map, List.map_map]
    simp only [hend]
    rfl
  · rw [hrun, interact, hanswers, endingAt_status]
  · rintro front rest rfl hfeed hends
    rw [hrun, hrun, Text.lines_append rest hfeed, interact, interact, transcript, transcript,
      answers_append_of_endsRun hends]

/-- A value, a blank line, and an expression that has no value, which does not make the run fail. -/
theorem run_interact_exit :
    Arguments.ofList [] = .ok {} ∧ ({} : Arguments).words = [] ∧ configOf {} .absent = .ok {} ∧
      (run [] (fun _ => .absent) "2*3!\n\nans)\nEXIT\n7".toUTF8).output.out =
        "Calculator (DEG) - type an expression, or 'quit' to exit.\nType 'help' for the list of commands.\n" ++
          "calc> 12\ncalc> calc> calc> " ∧
      (run [] (fun _ => .absent) "2*3!\n\nans)\nEXIT\n7".toUTF8).status = 0 ∧
      run [] (fun _ => .absent) "2*3!\n\nans)\nEXIT\n".toUTF8 =
        run [] (fun _ => .absent) "2*3!\n\nans)\nEXIT\n7".toUTF8 := by
  obtain ⟨hout, hstatus, hbehind⟩ := @run_interact [] (fun _ => .absent) {} {} rfl rfl rfl
    "2*3!\n\nans)\nEXIT\n7".toUTF8
  refine ⟨rfl, rfl, rfl, hout.trans (by decide +kernel), hstatus.trans (by decide +kernel), ?_⟩
  exact hbehind _ "7".toUTF8 (by decide +kernel) (by decide +kernel) (by decide +kernel)

end CommandLine
end SciCalc
