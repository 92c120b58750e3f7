/-
One line of an interactive run. A line ends the run if it is not text or asks to quit (`endsRun`); any other
is answered, with an output and the session after it (`reply`), and it is these answers that a run consists of
(`answers_eq`).
-/
import SciCalc.Prompt.Run

namespace SciCalc

namespace Command

variable {line : List Char}

theorem ofOtherLine_ne_quit (line : List Char) : ofOtherLine line ≠ quit := by
  unfold ofOtherLine
  split
  · split <;> nofun
  · split <;> nofun
  · nofun

/-- Whether a line has one of the two names by which a run is ended. -/
def asksToQuit (line : List Char) : Bool :=
  Text.sameLetters line "quit".toList || Text.sameLetters line "exit".toList

theorem ofLine_eq_quit_iff : ofLine line = quit ↔ asksToQuit line = true := by
  have hothers : ∀ known ∈ keywords.drop 2, known.2 ≠ quit := by decide
  rw [ofLine, keyword?, asksToQuit, show keywords = ("quit", quit) :: ("exit", quit) :: keywords.drop 2 from rfl,
    List.find?_cons, List.find?_cons]
  cases Text.sameLetters line "quit".toList with
  | true => simp
  | false =>
    cases Text.sameLetters line "exit".toList with
    | true => simp
    | false =>
      simp only [Bool.or_false, Bool.false_eq_true, iff_false]
      cases hfind : (keywords.drop 2).find? fun known => Text.sameLetters line known.1.toList with
      | none => exact ofOtherLine_ne_quit line
      | some known => exact hothers known (List.mem_of_find?_eq_some hfind)

end Command

namespace Prompt

variable {json : Bool} {s : Session} {line : Text.Line} {lines front rest : List Text.Line} {command : Command}

/-- Whether a line ends the run: it is not text, or it asks to quit. -/
def endsRun : Text.Line → Bool
  | .undecodable => true
  | .text content => Command.asksToQuit (Text.trim content.toList)

/-- What a line that does not end the run is answered with, and the session after it. A blank line has no
answer and changes nothing. -/
def reply (json : Bool) (s : Session) : Text.Line → Output × Session
  | .undecodable => ({}, s)
  | .text content =>
    if Text.trim content.toList = [] then ({}, s)
    else (answer json s (Command.ofLine (Text.trim content.toList))).getD ({}, s)

/-- The session that lines leave. -/
def left (json : Bool) (s : Session) (lines : List Text.Line) : Session :=
  lines.foldl (fun s line => (reply json s line).2) s

/-- The outputs of lines that do not end the run, each in the session that those in front of it leave. -/
def replies (json : Bool) (s : Session) (lines : List Text.Line) : List Output :=
  lines.mapIdx fun i line => (reply json (left json s (lines.take i)) line).1

/-- Why a run ends with a line, or behind the last one. -/
def endingAt : Option Text.Line → Ending
  | none => .endOfInput
  | some .undecodable => .undecodable
  | some (.text _) => .quit

/-! ## One line -/

theorem answer_eq_none_iff : answer json s command = none ↔ command = .quit := by
  cases command <;> simp [answer]

theorem next_text (json : Bool) (s : Session) (content : String) :
    next json s (some (.text content)) =
      if Text.trim content.toList = [] then .more {} s
      else (answer json s (Command.ofLine (Text.trim content.toList))).elim (.ended .quit) fun r => .more r.1 r.2 := by
  rw [next]
  cases Text.trim content.toList with
  | nil => rfl
  | cons c cs =>
    rw [if_neg (List.cons_ne_nil c cs)]
    cases h : answer json s (Command.ofLine (c :: cs)) with
    | none => simp only [h, Option.elim_none]
    | some r => simp only [h, Option.elim_some]

theorem next_of_endsRun (h : endsRun line = true) : next json s (some line) = .ended (endingAt (some line)) := by
  cases line with
  | undecodable => rfl
  | text content =>
    have hne : Text.trim content.toList ≠ [] := by
      intro hnil
      rw [endsRun, hnil] at h
      cases h
    rw [next_text, if_neg hne, answer_eq_none_iff.mpr (Command.ofLine_eq_quit_iff.mpr h)]
    rfl

theorem next_of_not_endsRun (h : endsRun line = false) :
    next json s (some line) = .more (reply json s line).1 (reply json s line).2 := by
  cases line with
  | undecodable => cases h
  | text content =>
    have hquit : Command.ofLine (Text.trim content.toList) ≠ .quit := fun hquit =>
      Bool.eq_false_iff.mp h (Command.ofLine_eq_quit_iff.mp hquit)
    obtain ⟨r, hr⟩ := Option.ne_none_iff_exists'.mp (mt answer_eq_none_iff.mp hquit)
    rw [next_text, reply, hr]
    split <;> rfl

/-! ## Many lines -/

theorem replies_cons (json : Bool) (s : Session) (line : Text.Line) (lines : List Text.Line) :
    replies json s (line :: lines) = (reply json s line).1 :: replies json (reply json s line).2 lines :=
  List.mapIdx_cons

theorem answers_cons_of_endsRun (h : endsRun line = true) (lines : List Text.Line) :
    answers json s (line :: lines) = ([], endingAt (some line)) := by
  rw [answers, next_of_endsRun h]

theorem answers_cons_of_not_endsRun (h : endsRun line = false) (lines : List Text.Line) :
    answers json s (line :: lines) =
      ((reply json s line).1 :: (answers json (reply json s line).2 lines).1,
        (answers json (reply json s line).2 lines).2) := by
  rw [answers, next_of_not_endsRun h]

/-- **A run answers its lines** up to the first that ends it, each in the session that those in front of it
leave. -/
theorem answers_eq (json : Bool) (s : Session) (lines : List Text.Line) :
    let answered := lines.takeWhile fun line => !endsRun line
    answers json s lines = (replies json s answered, endingAt lines[answered.length]?) := by
  induction lines generalizing s with
  | nil => rfl
  | cons line lines ih =>
    cases h : endsRun line with
    | true =>
      rw [answers_cons_of_endsRun h, List.takeWhile_cons_of_neg (by simp [h])]
      rfl
    | false =>
      rw [answers_cons_of_not_endsRun h, ih, List.takeWhile_cons_of_pos (by simp [h])]
      simp only [replies_cons, List.length_cons, List.getElem?_cons_succ]

theorem answers_append_of_endsRun (h : ∃ line ∈ front, endsRun line = true) (rest : List Text.Line) :
    answers json s (front ++ rest) = answers json s front := by
  induction front generalizing s with
  | nil => simp at h
  | cons first front ih =>
    rw [List.cons_append]
    cases hfirst : endsRun first with
    | true => rw [answers_cons_of_endsRun hfirst, answers_cons_of_endsRun hfirst]
    | false =>
      have hfront : ∃ line ∈ front, endsRun line = true := by simpa [hfirst] using h
      rw [answers_cons_of_not_endsRun hfirst, answers_cons_of_not_endsRun hfirst, ih hfront]

end Prompt

end SciCalc
