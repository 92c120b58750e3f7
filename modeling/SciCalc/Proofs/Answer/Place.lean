/-
Where the word for the last answer stands in a text (`StandsAt`), and the tokens of the text with a number
in these places (`answered`).

Tokens are those of the text as it is read, while the word stands in the text as it is typed. A place is
told by what is read in front of it, which goes for both; and of a text in which the word is read, it is
enough to look at the text as it is read (`standsAt_iff`).
-/
import SciCalc.Proofs.Answer.Word
import SciCalc.Proofs.Token.Longest

namespace SciCalc.Answer

open Text (startsInWord endsInWord)
open Token (Piece)

variable {typed front rest : List Char}

/-- Whether a typed text has the word by itself, in a place where what stands in front of it is read as
`front`. -/
def StandsAt (typed front : List Char) : Prop :=
  ∃ before after, typed = before ++ 'a' :: 'n' :: 's' :: after ∧ Keypad.normalize before = front ∧
    endsInWord before = false ∧ startsInWord after = false

/-- Of a text in which the word is read, it is enough to look at the text as it is read. -/
theorem standsAt_iff (h : Keypad.normalize typed = front ++ 'a' :: 'n' :: 's' :: rest) :
    StandsAt typed front ↔ endsInWord front = false ∧ startsInWord rest = false := by
  have hans : ∀ after, Keypad.normalize ('a' :: 'n' :: 's' :: after) =
      'a' :: 'n' :: 's' :: Keypad.normalize after := by
    intro after
    rw [Keypad.normalize_cons (by decide), Keypad.normalize_cons (by decide),
      Keypad.normalize_cons (by decide)]
    rfl
  constructor
  · rintro ⟨before, after, rfl, rfl, hbefore, hafter⟩
    have hhead : (Keypad.normalize ('a' :: 'n' :: 's' :: after)).head? ≠ some 'i' := by
      rw [hans, List.head?_cons]
      decide
    rw [Keypad.normalize_append hhead, hans, List.append_cancel_left_eq] at h
    have hrest : Keypad.normalize after = rest := by simpa using h
    rw [← hrest, Keypad.endsInWord_normalize, Keypad.startsInWord_normalize]
    exact ⟨hbefore, hafter⟩
  · rintro ⟨hfront, hrest⟩
    have hletter : ∀ c ∈ ['a', 'n', 's'], Keypad.Literal c := Keypad.literal_answer
    obtain ⟨before, after, rfl, rfl, hafter⟩ := Keypad.exists_cut_of_normalize h (hletter _ (by simp))
    have hword : Keypad.normalize after = ['n', 's'] ++ rest := hafter
    obtain ⟨es, rfl, rfl⟩ := Keypad.exists_append_of_normalize
      (fun c hc => hletter c (List.mem_cons_of_mem _ hc)) hword
    rw [Keypad.endsInWord_normalize] at hfront
    rw [Keypad.startsInWord_normalize] at hrest
    exact ⟨before, es, rfl, rfl, hfront, hrest⟩

theorem standsAt_iff_exists_take : StandsAt typed front ↔
    ∃ k, k < typed.length ∧ Keypad.normalize (typed.take k) = front ∧
      typed.drop k = 'a' :: 'n' :: 's' :: typed.drop (k + 3) ∧
      endsInWord (typed.take k) = false ∧ startsInWord (typed.drop (k + 3)) = false := by
  constructor
  · rintro ⟨before, after, rfl, rfl, hbefore, hafter⟩
    have hdrop : (before ++ 'a' :: 'n' :: 's' :: after).drop (before.length + 3) = after := by
      rw [List.drop_length_add_append]
      rfl
    refine ⟨before.length, by simp, by simp, ?_, by simpa using hbefore, by rwa [hdrop]⟩
    rw [hdrop, List.drop_left]
  · rintro ⟨k, -, rfl, hdrop, hbefore, hafter⟩
    refine ⟨typed.take k, typed.drop (k + 3), ?_, rfl, hbefore, hafter⟩
    rw [← hdrop, List.take_append_drop]

instance : Decidable (StandsAt typed front) := decidable_of_iff' _ standsAt_iff_exists_take

/-- The tokens of a typed text, with a number in the place of each word that stands by itself. What is in
front of the pieces is read as `front`. -/
def answered (x : Float) (typed : List Char) : List Char → List Piece → List Token
  | _, [] => []
  | front, p :: ps =>
    (if p.token = .identifier "ans" ∧ StandsAt typed (front ++ p.blank) then .number x else p.token) ::
      answered x typed (front ++ p.blank ++ p.lexeme) ps

end SciCalc.Answer
