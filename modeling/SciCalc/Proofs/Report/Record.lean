/-
A report that is passed on as a record is understood: its one line is a JSON object, and a program that looks up its
members by their names finds the outcome, the expression, and what belongs to that outcome, character for character
(`json_reads_back`). A value comes back as the same double; one that is not finite is left out. So the record says of
a report just that, and two reports have the same record exactly if they agree in it.
-/
import SciCalc.Prompt.Run
import SciCalc.Proofs.Json.Written

namespace SciCalc.Report

/-- What the record of a report says. -/
inductive Content where
  /-- There is a value; it is left out if it is not finite. -/
  | success (expression : String) (value? : Option Float) (display clipboard : String)
  | error (expression message : String)

/-- What is to be said of a report. -/
def content (r : Report) : Content :=
  match r.outcome with
  | .ok x =>
    .success r.expression (if x.isFinite then some x else none) (String.ofList (Decimal.displayText x))
      (String.ofList (Decimal.clipboardText x))
  | .error e => .error r.expression e.message

/-- The text that is a member of an object. -/
def textOf? (members : List (String × Json.Value)) (name : String) : Option String :=
  match members.lookup name with
  | some (.text s) => some s
  | _ => none

/-- The number that is a member of an object, or none if there is `null` in its place. -/
def numberOf? (members : List (String × Json.Value)) (name : String) : Option (Option Float) :=
  match members.lookup name with
  | some (.number x) => some (some x)
  | some .null => some none
  | _ => none

/-- What the members of an object say of a report, in whatever order they are. -/
def Content.ofMembers? (members : List (String × Json.Value)) : Option Content := do
  let status ← textOf? members "status"
  let expression ← textOf? members "expression"
  if status = "success" then
    let value? ← numberOf? members "value"
    let display ← textOf? members "display_result"
    let clipboard ← textOf? members "clipboard_result"
    some (.success expression value? display clipboard)
  else if status = "error" then
    let message ← textOf? members "message"
    some (.error expression message)
  else none

/-- The members of the object that is read of a record. -/
def members (r : Report) : List (String × Json.Value) := r.record.map fun field => (field.1, field.2.value)

theorem read?_json (r : Report) : Json.read? r.json = some (.object r.members) := Json.read?_written r.record

theorem ofMembers?_members (r : Report) : Content.ofMembers? r.members = some r.content := by
  obtain ⟨expression, outcome⟩ := r
  cases outcome with
  | ok x =>
    by_cases hfinite : x.isFinite = true
    · simp [Content.ofMembers?, members, record, content, textOf?, numberOf?, Json.Atom.value, hfinite, List.lookup]
    · simp [Content.ofMembers?, members, record, content, textOf?, numberOf?, Json.Atom.value, hfinite, List.lookup]
  | error e => simp [Content.ofMembers?, members, record, content, textOf?, Json.Atom.value, List.lookup]

theorem json_eq_of_content_eq {r r' : Report} (h : r.content = r'.content) : r.json = r'.json := by
  obtain ⟨expression, outcome⟩ := r
  obtain ⟨expression', outcome'⟩ := r'
  cases outcome with
  | ok x =>
    cases outcome' with
    | ok y =>
      obtain ⟨rfl, hvalue, hdisplay, hclipboard⟩ := Content.success.inj h
      have hwritten : (Json.Atom.number x).written = (Json.Atom.number y).written := by
        by_cases hx : x.isFinite = true <;> by_cases hy : y.isFinite = true
        · rw [if_pos hx, if_pos hy] at hvalue
          rw [Option.some_inj.mp hvalue]
        · rw [if_pos hx, if_neg hy] at hvalue
          cases hvalue
        · rw [if_neg hx, if_pos hy] at hvalue
          cases hvalue
        · rw [Json.Atom.written, Json.Atom.written, Json.dataText?_of_not_finite hx, Json.dataText?_of_not_finite hy]
      simp only [json, record, Json.Object.written, List.map_cons, Json.fieldText, hwritten, hdisplay, hclipboard]
    | error e => cases h
  | error e =>
    cases outcome' with
    | ok y => cases h
    | error e' =>
      obtain ⟨rfl, hmessage⟩ := Content.error.inj h
      simp only [json, record, hmessage]

/-- **A record reads back.** It is printed as one line without controls, and is a JSON object; looked up by their
names, its members say of the report what is to be said, and so reports have the same record exactly if that is the
same. -/
theorem json_reads_back (r : Report) :
    (∀ c ∈ r.json.toList, 0x20 ≤ c.toNat) ∧ r.print true = Output.line r.json ∧
    (∃ members, Json.read? r.json = some (.object members) ∧ Content.ofMembers? members = some r.content) ∧
    ∀ r' : Report, r.json = r'.json ↔ r.content = r'.content := by
  refine ⟨fun c hc => ?_, rfl, ⟨r.members, read?_json r, ofMembers?_members r⟩,
    fun r' => ⟨fun h => ?_, json_eq_of_content_eq⟩⟩
  · rw [json, String.toList_ofList] at hc
    exact of_decide_eq_true (Json.isPlain_of_mem_written hc)
  · have hread := read?_json r
    rw [h, read?_json r'] at hread
    have hmembers : r'.members = r.members := Json.Value.object.inj (Option.some_inj.mp hread)
    have hcontent := ofMembers?_members r
    rw [← hmembers, ofMembers?_members r'] at hcontent
    exact (Option.some_inj.mp hcontent).symm

end SciCalc.Report
