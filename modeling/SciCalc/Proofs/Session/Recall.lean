/-
The word for the last answer, as an expression by itself (`outcome_answer`). It has a value where the last answer
is finite, and that is the last answer again, but for the negative zero, which comes back as the positive one. An
answer that is infinite or no number is put in the place of the word under a name that no expression knows.

A memory command takes a blank text for the last answer itself. With the word it does the same wherever the last
answer is finite (`run_recall`): the two zeros add the same, as a memory is never the negative zero.
-/
import SciCalc.Proofs.Answer.Expand
import SciCalc.Proofs.Decimal.Plain
import SciCalc.Proofs.Double.Sum
import SciCalc.Proofs.Report.Pasted
import SciCalc.Proofs.Session.Log
import SciCalc.Proofs.Token.Longest

namespace SciCalc

open Decimal (signText)
open Double (IsFinite negativeZero)
open Token (Decomposed Laid)

variable {m : Numeral}

theorem evaluate_group (mode : AngleMode) (hm : m.WellFormed) (negative : Bool) :
    evaluate mode (String.ofList ('(' :: (signText negative ++ m.text ++ [')']))) =
      .ok (if negative then Double.ofNat 0 - m.toDouble else m.toDouble) := by
  have hclose : Laid [.rightParen] [')'] := @Laid.cons [] _ _ _ _ nofun .rightParen (.nil nofun)
  obtain ⟨hlaid, hchain⟩ := laid_signed hm negative hclose (.cons_cons (fun _ => rfl) (List.isChain_singleton _))
  have hopen : Laid (.leftParen :: (signedTokens negative m.toDouble ++ [.rightParen]))
      ('(' :: (signText negative ++ (m.text ++ [')']))) := @Laid.cons [] _ _ _ _ nofun .leftParen hlaid
  have hgroup := Token.isChain_sign_cons (u := .leftParen) rfl hchain
  rw [List.append_assoc]
  cases negative with
  | false =>
    have hprogram : Program.ofTokens [.leftParen, .number m.toDouble, .rightParen] = .ok [.push m.toDouble] := rfl
    have hrun : Program.run mode [.push m.toDouble] = .ok m.toDouble := rfl
    rw [if_neg Bool.false_ne_true]
    exact evaluate_of_run hopen hgroup (List.cons_ne_nil _ _) hprogram hrun
  | true =>
    have hprogram : Program.ofTokens [.leftParen, .operator .sub, .number m.toDouble, .rightParen] =
        .ok [.push (Double.ofNat 0), .push m.toDouble, .operate .sub] := rfl
    have hrun : Program.run mode [.push (Double.ofNat 0), .push m.toDouble, .operate .sub] =
        .ok (Double.ofNat 0 - m.toDouble) := rfl
    rw [if_pos rfl]
    exact evaluate_of_run hopen hgroup (List.cons_ne_nil _ _) hprogram hrun

theorem evaluate_of_parseError {text : String} {ts : List Token} {e : ParseError} (mode : AngleMode)
    (htokens : Token.ofText text = .ok ts) (hne : text ≠ "") (hprogram : Program.ofTokens ts = .error e) :
    evaluate mode text = .error (.parse e) := by
  simp only [evaluate, if_neg hne, programOfText, htokens, hprogram, Except.mapError]

theorem ofText_infinity :
    Token.ofText "(inf)" = .ok [.leftParen, .identifier "inf", .rightParen] ∧
      Token.ofText "(-inf)" = .ok [.leftParen, .operator .sub, .identifier "inf", .rightParen] := by
  have hend : Decomposed (Keypad.normalize "inf)".toList)
      [⟨[], "inf".toList, .identifier "inf"⟩, ⟨[], [')'], .rightParen⟩] :=
    Token.decomposed_cons_iff.mpr ⟨rfl, [')'], rfl, Token.decomposed_cons_iff.mpr ⟨rfl, [], rfl, .nil nofun⟩⟩
  have hpositive : Decomposed (Keypad.normalize "(inf)".toList) (⟨[], ['('], .leftParen⟩ :: _) :=
    Token.decomposed_cons_iff.mpr ⟨rfl, "inf)".toList, rfl, hend⟩
  have hnegative : Decomposed (Keypad.normalize "(-inf)".toList)
      (⟨[], ['('], .leftParen⟩ :: ⟨[], ['-'], .operator .sub⟩ :: _) :=
    Token.decomposed_cons_iff.mpr ⟨rfl, "-inf)".toList, rfl,
      Token.decomposed_cons_iff.mpr ⟨rfl, "inf)".toList, rfl, hend⟩⟩
  exact ⟨hpositive.scan 0, hnegative.scan 0⟩

theorem ofText_notANumber : Token.ofText "(NaN)" = .ok [.leftParen, .identifier "NaN", .rightParen] := by
  have hpieces : Decomposed (Keypad.normalize "(NaN)".toList)
      [⟨[], ['('], .leftParen⟩, ⟨[], "NaN".toList, .identifier "NaN"⟩, ⟨[], [')'], .rightParen⟩] :=
    Token.decomposed_cons_iff.mpr ⟨rfl, "NaN)".toList, rfl,
      Token.decomposed_cons_iff.mpr ⟨rfl, [')'], rfl, Token.decomposed_cons_iff.mpr ⟨rfl, [], rfl, .nil nofun⟩⟩⟩
  exact hpieces.scan 0

namespace Session

variable {s : Session} {op : Operation} {reply : Reply} {s' : Session}

/-- What the word for the last answer has for a value, or why it has none. -/
def recalled (s : Session) : Except EvalError Float :=
  match Double.classify s.answer with
  | .finite negative units => .ok (Double.ofUnits (negative && units != 0) units)
  | .infinite _ => .error (.parse (.unknownIdentifier "inf"))
  | .notANumber => .error (.parse (.unknownIdentifier "NaN"))

theorem expand_answer (s : Session) :
    s.expand "ans" = String.ofList ('(' :: (Decimal.plainText s.answer ++ [')'])) := by
  have hword : Answer.expandFrom (Answer.replacement s.answer) false ['a', 'n', 's'] =
      Answer.replacement s.answer ++ [] := Answer.expandFrom_word rfl
  rw [expand, Answer.expand]
  exact congrArg String.ofList (hword.trans (List.append_nil _))

theorem outcome_answer (s : Session) : s.outcome "ans" = s.recalled := by
  rw [outcome, expand_answer, recalled]
  cases hx : Double.classify s.answer with
  | notANumber =>
    simp only [Decimal.plainText, hx]
    exact evaluate_of_parseError s.mode ofText_notANumber (by decide) rfl
  | infinite negative =>
    simp only [Decimal.plainText, hx]
    cases negative with
    | false => exact evaluate_of_parseError s.mode ofText_infinity.1 (by decide) rfl
    | true => exact evaluate_of_parseError s.mode ofText_infinity.2 (by decide) rfl
  | finite negative units =>
    obtain ⟨m, hm, htext, hdouble⟩ := Decimal.exists_numeral_plainText hx
    have hgroup := evaluate_group s.mode hm negative
    rw [hdouble] at hgroup
    rw [htext]
    refine hgroup.trans (congrArg Except.ok ?_)
    cases negative with
    | false => rfl
    | true =>
      by_cases hzero : units = 0
      · rw [hzero]
        decide +kernel
      · have hsign : (true && units != 0) = true := by simpa using hzero
        rw [if_pos rfl, hsign, Double.zero_sub_ofUnits hx hzero]
        exact Double.eq_ofUnits_of_classify hx

/-- The memory register is not the negative zero, for it begins with the positive one. -/
theorem Performs.memory_ne (h : Performs s op reply s') (hs : s.memory ≠ negativeZero) :
    s'.memory ≠ negativeZero := by
  cases h with
  | added => exact Double.add_ne_negativeZero hs _
  | subtracted => exact Double.sub_ne_negativeZero hs _
  | memoryCleared =>
    simp only [memoryClear]
    decide +kernel
  | _ => exact hs

theorem run_memory_ne (mode : AngleMode) (limit : Nat) (ops : List Operation) :
    ((fresh mode limit).run ops).memory ≠ negativeZero := by
  induction ops using List.reverseRecOn with
  | nil =>
    have hfresh : ((fresh mode limit).run []).memory = Double.ofNat 0 := fresh_memory mode limit
    rw [hfresh]
    decide +kernel
  | append_singleton ops op ih =>
    rw [run_concat]
    exact (performs _ op).memory_ne ih

/-! ## The last answer again -/

theorem recalled_of_finite (hx : IsFinite s.answer) (hne : s.answer ≠ negativeZero) :
    s.recalled = .ok s.answer := by
  obtain ⟨negative, units, hx⟩ := hx
  have hself := Double.eq_ofUnits_of_classify hx
  have hsign : (negative && units != 0) = negative := by
    cases negative with
    | false => rfl
    | true =>
      have hzero : units ≠ 0 := by
        rintro rfl
        exact hne hself
      simpa using hzero
  simp only [recalled, hx, hsign]
  rw [← hself]

theorem recalled_of_negativeZero (h : s.answer = negativeZero) : s.recalled = .ok (Double.ofNat 0) := by
  have hx : Double.classify negativeZero = .finite true 0 := by decide +kernel
  simp only [recalled, h, hx]
  refine congrArg Except.ok ?_
  decide +kernel

theorem exists_recalled_eq_error (h : ¬ IsFinite s.answer) : ∃ e, s.recalled = .error e := by
  cases hx : Double.classify s.answer with
  | notANumber => exact ⟨_, by rw [recalled, hx]⟩
  | infinite negative => exact ⟨_, by rw [recalled, hx]⟩
  | finite negative units => exact absurd ⟨negative, units, hx⟩ h

theorem perform_memoryAdd_answer (s : Session) :
    s.perform (.memoryAdd "ans") = s.replyMemory (s.recalled.map fun x => { s with memory := s.memory + x }) := by
  have htyped : Text.trim "ans".toList ≠ [] := by decide
  rw [perform, memoryAdd, operand, if_neg htyped, outcome_answer]

theorem perform_memoryAdd_blank (s : Session) {blank : String} (h : blank.toList.all Text.isBlank = true) :
    s.perform (.memoryAdd blank) =
      (.memory (.ok (s.memory + s.answer)), { s with memory := s.memory + s.answer }) := by
  rw [perform, memoryAdd, operand, if_pos (trim_eq_nil_iff.mpr h)]
  rfl

/-- **The word by itself is the last answer** in every session where that is finite and not the negative zero. With
the negative zero it is the positive one, and otherwise it has no value. In a memory command it stands for every
finite last answer, as a blank text does. -/
theorem run_recall (mode : AngleMode) (limit : Nat) (ops : List Operation) :
    let s := (fresh mode limit).run ops
    ((s.evaluate "ans").1.isSuccess = true ↔ IsFinite s.answer) ∧
      ((s.evaluate "ans").1.outcome = .ok s.answer ↔ IsFinite s.answer ∧ s.answer ≠ negativeZero) ∧
      ((s.evaluate "ans").2.answer = s.answer ↔ s.answer ≠ negativeZero) ∧
      ∀ blank : String, blank.toList.all Text.isBlank = true →
        (s.perform (.memoryAdd "ans") = s.perform (.memoryAdd blank) ↔ IsFinite s.answer) := by
  intro s
  have hmemory : s.memory ≠ negativeZero := run_memory_ne mode limit ops
  have hzero : IsFinite negativeZero := ⟨true, 0, by decide +kernel⟩
  have hsigns : Double.ofNat 0 ≠ negativeZero := by decide +kernel
  generalize s = s at hmemory ⊢
  simp only [evaluate, outcome_answer, perform_memoryAdd_answer, Report.isSuccess]
  by_cases hfinite : IsFinite s.answer
  · by_cases hminus : s.answer = negativeZero
    · rw [recalled_of_negativeZero hminus]
      refine ⟨iff_of_true rfl hfinite, iff_of_false (fun h => ?_) fun h => h.2 hminus,
        iff_of_false (fun h => hsigns (h.trans hminus)) (not_not_intro hminus), fun blank hblank => ?_⟩
      · exact hsigns ((Except.ok.inj h).trans hminus)
      rw [perform_memoryAdd_blank s hblank, hminus, Double.add_negativeZero hmemory]
      exact iff_of_true rfl hzero
    · rw [recalled_of_finite hfinite hminus]
      refine ⟨iff_of_true rfl hfinite, iff_of_true rfl ⟨hfinite, hminus⟩, iff_of_true rfl hminus,
        fun blank hblank => ?_⟩
      rw [perform_memoryAdd_blank s hblank]
      exact iff_of_true rfl hfinite
  · obtain ⟨e, he⟩ := exists_recalled_eq_error hfinite
    rw [he]
    refine ⟨iff_of_false Bool.false_ne_true hfinite, iff_of_false (fun h => ?_) fun h => hfinite h.1,
      iff_of_true rfl fun h => hfinite (h ▸ hzero), fun blank hblank => iff_of_false (fun h => ?_) hfinite⟩
    · cases h
    · rw [perform_memoryAdd_blank s hblank] at h
      cases (Prod.mk.inj h).1

/-- After a negative answer. -/
theorem run_recall_negative :
    let s := (fresh .degrees 9).run [.evaluate "2-5"]
    s.answer = .ofBits 0xc008000000000000 ∧ (s.evaluate "ans").1.outcome = .ok s.answer ∧
      s.perform (.memoryAdd "ans") = s.perform (.memoryAdd " ") := by
  intro s
  have hanswer : s.answer = .ofBits 0xc008000000000000 := by decide +kernel
  have hfinite : IsFinite s.answer := ⟨true, 3 * Double.unitsPerOne, by decide +kernel⟩
  have hminus : s.answer ≠ negativeZero := by decide +kernel
  obtain ⟨-, houtcome, -, hmemory⟩ := run_recall .degrees 9 [.evaluate "2-5"]
  exact ⟨hanswer, houtcome.mpr ⟨hfinite, hminus⟩, (hmemory " " (by decide)).mpr hfinite⟩

/-- An infinite answer is lost, though blank text still stands for it, and the negative zero comes back with
another sign. -/
theorem answer_not_recalled :
    (let s := (fresh .degrees 9).run [.evaluate "1/0"];
      s.answer = Double.infinity ∧ (s.evaluate "ans").1.isSuccess = false ∧
        (s.memoryAdd "ans").isOk = false ∧ (s.memoryAdd "").isOk = true) ∧
    (let s := (fresh .degrees 9).run [.evaluate "0*(2-3)"];
      s.answer = negativeZero ∧ (s.evaluate "ans").2.answer = Double.ofNat 0) := by
  decide +kernel

end Session
end SciCalc
