/-
What statements make of a document. Assignments under names that are new are added to it in their order
(`ofStatements?_assigned`). What a name has been given it keeps, whatever statements come behind, and it is never given
anything else (`ofStatements?_eq_some`).
-/
import SciCalc.Proofs.Toml.Lines
import SciCalc.Toml.Document

namespace SciCalc.Toml

/-- What a value is in a document. -/
def Value.item : Value → Item
  | .text content => .text content
  | .integer value => .integer value
  | .boolean value => .boolean value
  | .emptyArray => .emptyArray
  | .table _ => .table .braces

theorem Value.item_ne (value : Value) : value.item ≠ .table .implied := by
  cases value <;> simp [Value.item]

namespace Document

variable {d d' : Document} {path base key : Key} {item : Item} {name : String} {value : Value}
variable {assigned : List (String × Value)} {more : List Statement}

/-! ## What stays -/

/-- Whether what a path leads to in one document it leads to in another. Of a table that has no header of its own it
may still become known that it has one. -/
def Keeps (d d' : Document) : Prop :=
  ∀ path item, item ≠ .table .implied → d.find? path = some item → d'.find? path = some item

theorem Keeps.refl (d : Document) : Keeps d d := fun _ _ _ h => h

theorem Keeps.trans {d'' : Document} (h : Keeps d d') (h' : Keeps d' d'') : Keeps d d'' :=
  fun path item hitem hfind => h' path item hitem (h path item hitem hfind)

theorem keeps_append (d more : Document) : Keeps d (d ++ more) := by
  intro path item _ hfind
  rw [find?, List.lookup_append, ← find?, hfind, Option.some_or]

theorem define_eq_some (h : d.define path item = some d') : d.find? path = none ∧ d' = d ++ [(path, item)] := by
  rw [define] at h
  split at h
  · cases h
  · next hnone => exact ⟨Option.not_isSome_iff_eq_none.mp hnone, (Option.some.inj h).symm⟩

theorem keeps_define (h : d.define path item = some d') : Keeps d d' := by
  obtain ⟨-, rfl⟩ := define_eq_some h
  exact keeps_append d _

theorem keeps_enter {origin : Origin} {usable : List Origin} (h : d.enter origin usable path = some d') :
    Keeps d d' := by
  rw [enter] at h
  split at h
  · obtain rfl := Option.some.inj h
    exact keeps_append d _
  · split at h
    · obtain rfl := Option.some.inj h
      exact .refl d
    · cases h
  · cases h

theorem keeps_foldlM {α : Type} {f : Document → α → Option Document} {xs : List α}
    (hf : ∀ d x d', f d x = some d' → Keeps d d') (h : xs.foldlM f d = some d') : Keeps d d' := by
  induction xs generalizing d with
  | nil =>
    obtain rfl := Option.some.inj h
    exact .refl d
  | cons x xs ih =>
    rw [List.foldlM_cons] at h
    obtain ⟨d₁, hstep, hrest⟩ := Option.bind_eq_some_iff.mp h
    exact (hf d x d₁ hstep).trans (ih hrest)

theorem keeps_assignItem (h : d.assignItem base key item = some d') : Keeps d d' := by
  obtain ⟨d₁, htables, hdefine⟩ := Option.bind_eq_some_iff.mp h
  exact (keeps_foldlM (fun _ _ _ => keeps_enter) htables).trans (keeps_define hdefine)

mutual

theorem keeps_assign {d d' : Document} {base key : Key} (value : Value) (h : d.assign base key value = some d') :
    Keeps d d' := by
  cases value with
  | text | integer | boolean | emptyArray => exact keeps_assignItem h
  | table fields =>
    obtain ⟨d₁, htable, hfields⟩ := Option.bind_eq_some_iff.mp h
    exact (keeps_assignItem htable).trans (keeps_assignAll fields hfields)

theorem keeps_assignAll {d d' : Document} {base : Key} (fields : List (Key × Value))
    (h : d.assignAll base fields = some d') : Keeps d d' := by
  cases fields with
  | nil =>
    obtain rfl := Option.some.inj h
    exact .refl d
  | cons field fields =>
    obtain ⟨d₁, hfield, hfields⟩ := Option.bind_eq_some_iff.mp h
    exact (keeps_assign field.2 hfield).trans (keeps_assignAll fields hfields)

end

theorem find?_map (f : Key → Item → Item) (d : Document) (path : Key) :
    find? (d.map fun (path, item) => (path, f path item)) path = (d.find? path).map (f path) := by
  induction d with
  | nil => rfl
  | cons entry d ih =>
    obtain ⟨path', item⟩ := entry
    rw [find?, find?] at ih
    rw [find?, find?, List.map_cons, List.lookup_cons, List.lookup_cons, ih]
    cases hpath : path == path' with
    | false => rfl
    | true =>
      rw [eq_of_beq hpath]
      rfl

theorem keeps_openTable (h : d.openTable key = some d') : Keeps d d' := by
  obtain ⟨d₁, htables, h⟩ := Option.bind_eq_some_iff.mp h
  refine (keeps_foldlM (fun _ _ _ => keeps_enter) htables).trans ?_
  split at h
  · next himplied =>
    obtain rfl := Option.some.inj h
    intro path item hitem hfind
    have hpath : path ≠ key := by
      rintro rfl
      exact hitem (Option.some.inj (hfind.symm.trans himplied))
    rw [find?_map fun path item => if path = key then .table .header else item, hfind, Option.map_some, if_neg hpath]
  · exact keeps_define h

/-- **What a path leads to stays**, whatever statements follow. -/
theorem keeps_ofStatementsFrom (statements : List Statement) (h : d.ofStatementsFrom base statements = some d') :
    Keeps d d' := by
  induction statements generalizing d base with
  | nil =>
    obtain rfl := Option.some.inj h
    exact .refl d
  | cons statement statements ih =>
    cases statement with
    | header key =>
      obtain ⟨d₁, htable, hrest⟩ := Option.bind_eq_some_iff.mp h
      exact (keeps_openTable htable).trans (ih hrest)
    | assignment key value =>
      obtain ⟨d₁, hvalue, hrest⟩ := Option.bind_eq_some_iff.mp h
      exact (keeps_assign value hvalue).trans (ih hrest)

/-! ## Assignments at the top -/

/-- **An assignment** is of a name that is new, and the name leads to its value. -/
theorem assign_eq_some (h : d.assign [] [name] value = some d') :
    d.find? [name] = none ∧ d'.find? [name] = some value.item := by
  have hdefine : ∀ {item d₁}, d.assignItem [] [name] item = some d₁ →
      d.find? [name] = none ∧ d₁.find? [name] = some item := by
    intro item d₁ h
    have h : d.define [name] item = some d₁ := h
    obtain ⟨hnone, rfl⟩ := define_eq_some h
    refine ⟨hnone, ?_⟩
    rw [find?, List.lookup_append, ← find?, hnone, Option.none_or]
    simp
  cases value with
  | text | integer | boolean | emptyArray => exact hdefine h
  | table fields =>
    obtain ⟨d₁, htable, hfields⟩ := Option.bind_eq_some_iff.mp h
    obtain ⟨hnone, hfind⟩ := hdefine htable
    exact ⟨hnone, keeps_assignAll fields hfields _ _ (Value.item_ne (.table fields)) hfind⟩

theorem ofStatementsFrom_eq_some
    (h : d.ofStatementsFrom [] (assigned.map statement ++ statement (name, value) :: more) = some d') :
    (∀ item, item ≠ .table .implied → d.find? [name] ≠ some item) ∧ (∀ a ∈ assigned, a.1 ≠ name) ∧
      d'.find? [name] = some value.item := by
  induction assigned generalizing d with
  | nil =>
    obtain ⟨d₁, hvalue, hrest⟩ := Option.bind_eq_some_iff.mp h
    obtain ⟨hnone, hfind⟩ := assign_eq_some hvalue
    refine ⟨fun item _ => by simp [hnone], List.forall_mem_nil _, ?_⟩
    exact keeps_ofStatementsFrom more hrest _ _ value.item_ne hfind
  | cons a assigned ih =>
    obtain ⟨d₁, hvalue, hrest⟩ := Option.bind_eq_some_iff.mp h
    obtain ⟨hnew, hothers, hfind⟩ := ih hrest
    have ha : a.1 ≠ name := by
      rintro rfl
      exact hnew _ a.2.item_ne (assign_eq_some hvalue).2
    refine ⟨fun item hitem hfind => ?_, List.forall_mem_cons.mpr ⟨ha, hothers⟩, hfind⟩
    exact hnew item hitem (keeps_assign a.2 hvalue _ _ hitem hfind)

/-- **An assignment among statements** is of a name that no assignment in front of it has, and the name leads to its
value in the end. -/
theorem ofStatements?_eq_some
    (h : ofStatements? (assigned.map statement ++ statement (name, value) :: more) = some d) :
    (∀ a ∈ assigned, a.1 ≠ name) ∧ d.find? [name] = some value.item := (ofStatementsFrom_eq_some h).2

/-- What an assignment adds to a document. -/
def entry (assigned : String × Value) : Key × Item := ([assigned.1], assigned.2.item)

theorem assign_of_ne (h : ∀ fields, value ≠ .table fields) (hnew : d.find? [name] = none) :
    d.assign [] [name] value = some (d ++ [entry (name, value)]) := by
  have hdefine : d.define [name] value.item = some (d ++ [entry (name, value)]) := by
    rw [define, hnew]
    rfl
  cases value with
  | text | integer | boolean | emptyArray => exact hdefine
  | table fields => exact absurd rfl (h fields)

theorem ofStatementsFrom_assigned (hvalues : ∀ a ∈ assigned, ∀ fields, a.2 ≠ .table fields)
    (hdistinct : (assigned.map Prod.fst).Nodup) (hnew : ∀ a ∈ assigned, d.find? [a.1] = none) :
    d.ofStatementsFrom [] (assigned.map statement) = some (d ++ assigned.map entry) := by
  induction assigned generalizing d with
  | nil => rw [List.map_nil, List.map_nil, List.append_nil]; rfl
  | cons a assigned ih =>
    obtain ⟨hvalue, hvalues⟩ := List.forall_mem_cons.mp hvalues
    obtain ⟨ha, hnew⟩ := List.forall_mem_cons.mp hnew
    obtain ⟨hother, hdistinct⟩ := List.nodup_cons.mp hdistinct
    have hnext : ∀ b ∈ assigned, (d ++ [entry a]).find? [b.1] = none := by
      intro b hb
      have hne : b.1 ≠ a.1 := by
        intro heq
        exact hother (heq ▸ List.mem_map_of_mem hb)
      rw [find?, List.lookup_append, ← find?, hnew b hb, Option.none_or, entry]
      simp [hne]
    have hstep : d.ofStatementsFrom [] (statement a :: assigned.map statement) =
        (d ++ [entry a]).ofStatementsFrom [] (assigned.map statement) :=
      congrArg (Option.bind · _) (assign_of_ne hvalue ha)
    rw [List.map_cons, hstep, ih hvalues hdistinct hnext, List.map_cons, List.append_assoc, List.singleton_append]

/-- **Assignments of different names** make a document of what they assign. -/
theorem ofStatements?_assigned (hvalues : ∀ a ∈ assigned, ∀ fields, a.2 ≠ .table fields)
    (hdistinct : (assigned.map Prod.fst).Nodup) :
    ofStatements? (assigned.map statement) = some (assigned.map entry) :=
  ofStatementsFrom_assigned hvalues hdistinct fun _ _ => rfl

end Document
end SciCalc.Toml
