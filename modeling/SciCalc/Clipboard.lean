/-
Copying results. A clipboard is anything that takes a text, possibly with a change of its state, or
refuses it and says why. Only a value is copied, and then in its plain form; an error is left alone, so
that it makes no difference to a clipboard (`copyAll_filter`). A clipboard that takes everything has the
values of all reports, in their order (`copyAll_recorder`).
-/
import SciCalc.Report

namespace SciCalc

/-- Why a text could not be copied, in the words of the clipboard. -/
structure ClipboardError where
  reason : String
deriving DecidableEq, Repr

/-- What the user is told about it. -/
def ClipboardError.message (e : ClipboardError) : String := "clipboard unavailable: " ++ e.reason

/-- Somewhere to copy texts to. Its state is of type `σ`. -/
abbrev Clipboard (σ : Type) := String → σ → Except ClipboardError σ

/-- A clipboard that keeps everything it is given, in order. -/
def Clipboard.recorder : Clipboard (List String) := fun text texts => .ok (texts ++ [text])

namespace Report

variable {σ : Type}

/-- Copies the value of a report, and tells whether there was one. -/
def copy (r : Report) (clipboard : Clipboard σ) (state : σ) : Except ClipboardError (Bool × σ) :=
  match r.clipboard? with
  | some text => (clipboard text state).map (true, ·)
  | none => .ok (false, state)

/-- Copies the values of reports one after the other. A clipboard that refuses one of them is asked
again for the next. -/
def copyAll (clipboard : Clipboard σ) : List Report → σ → List (Except ClipboardError Bool) × σ
  | [], state => ([], state)
  | r :: reports, state =>
    match r.copy clipboard state with
    | .ok (copied, state) =>
      let (answers, state) := copyAll clipboard reports state
      (.ok copied :: answers, state)
    | .error e =>
      let (answers, state) := copyAll clipboard reports state
      (.error e :: answers, state)

theorem isSome_clipboard? (r : Report) : r.clipboard?.isSome = r.isSuccess := by
  simp only [clipboard?, value?, isSuccess]
  cases r.outcome with
  | ok x => rfl
  | error e => rfl

theorem copy_of_clipboard?_eq_none {r : Report} (h : r.clipboard? = none) (clipboard : Clipboard σ)
    (state : σ) : r.copy clipboard state = .ok (false, state) := by
  simp only [copy, h]

theorem copyAll_recorder (reports : List Report) (texts : List String) :
    copyAll Clipboard.recorder reports texts =
      (reports.map fun r => .ok r.isSuccess, texts ++ reports.filterMap clipboard?) := by
  induction reports generalizing texts with
  | nil => simp [copyAll]
  | cons r reports ih =>
    cases h : r.clipboard? with
    | none =>
      have hfails : r.isSuccess = false := by rw [← isSome_clipboard?, h]; rfl
      simp only [copyAll, copy_of_clipboard?_eq_none h, ih, List.map_cons, List.filterMap_cons_none h, hfails]
    | some text =>
      have hcopied : r.copy Clipboard.recorder texts = .ok (true, texts ++ [text]) := by
        simp only [copy, h]
        rfl
      have hsucceeds : r.isSuccess = true := by rw [← isSome_clipboard?, h]; rfl
      simp only [copyAll, hcopied, ih, List.map_cons, List.filterMap_cons_some h, hsucceeds,
        List.append_assoc, List.singleton_append]

theorem copyAll_filter (clipboard : Clipboard σ) (reports : List Report) (state : σ) :
    (copyAll clipboard (reports.filter isSuccess) state).2 = (copyAll clipboard reports state).2 := by
  induction reports generalizing state with
  | nil => rfl
  | cons r reports ih =>
    cases h : r.isSuccess with
    | false =>
      have hnone : r.clipboard? = none := by rw [← Option.not_isSome_iff_eq_none, isSome_clipboard?, h]; simp
      rw [List.filter_cons_of_neg (by simp [h]), ih]
      simp only [copyAll, copy_of_clipboard?_eq_none hnone]
    | true =>
      rw [List.filter_cons_of_pos h, copyAll, copyAll]
      cases r.copy clipboard state with
      | ok copied => exact ih copied.2
      | error e => exact ih state

end Report
end SciCalc
