/-
Which programs have a value. A program has one just if it lists the nodes of an expression tree, each
after its operands; the tree is then the only one, and the value is that of the tree (`run_eq_ok_iff`).

One way is a run of the listing on top of whatever is on the stack (`exec_postorder`). For the other, an
arbitrary run is followed with trees in the place of numbers: the trees on the stack, from the bottom up,
always list the instructions that were run (`exec_eq_ok`), so that one number at the end is one tree.
-/
import SciCalc.Program.Run

namespace SciCalc

/-- An expression as a tree. It has no parentheses, since it needs none. -/
inductive Tree where
  | number (x : Float)
  | operate (op : Operator) (left right : Tree)
  | call (f : Func) (argument : Tree)
  | factorial (inner : Tree)
deriving DecidableEq

namespace Tree

/-- The nodes, each after its operands, and the left operand before the right one. -/
def postorder : Tree → Program
  | number x => [.push x]
  | operate op left right => left.postorder ++ right.postorder ++ [.operate op]
  | call f argument => argument.postorder ++ [.call f]
  | factorial inner => inner.postorder ++ [.factorial]

def value (mode : AngleMode) : Tree → Float
  | number x => x
  | operate op left right => op.apply (left.value mode) (right.value mode)
  | call f argument => f.apply mode (argument.value mode)
  | factorial inner => Double.factorial (inner.value mode)

/-! ## One tree for a program -/

/-- A postorder is read from its end. The last instruction is the root, whatever stands in front, and the
operands end where it stands. -/
theorem eq_of_append_postorder {t u : Tree} {p q : Program}
    (h : p ++ t.postorder = q ++ u.postorder) : t = u ∧ p = q := by
  induction t generalizing u p q with
  | number x =>
    cases u with simp only [postorder, ← List.append_assoc, List.append_singleton_inj] at h
    | number y =>
      obtain ⟨hpq, hroot⟩ := h
      cases hroot
      exact ⟨rfl, hpq⟩
    | _ => cases h.2
  | operate op left right ihl ihr =>
    cases u with simp only [postorder, ← List.append_assoc, List.append_singleton_inj] at h
    | operate op' left' right' =>
      obtain ⟨hoperands, hroot⟩ := h
      cases hroot
      obtain ⟨rfl, hleft⟩ := ihr hoperands
      obtain ⟨rfl, hpq⟩ := ihl hleft
      exact ⟨rfl, hpq⟩
    | _ => cases h.2
  | call f argument ih =>
    cases u with simp only [postorder, ← List.append_assoc, List.append_singleton_inj] at h
    | call g argument' =>
      obtain ⟨hoperand, hroot⟩ := h
      cases hroot
      obtain ⟨rfl, hpq⟩ := ih hoperand
      exact ⟨rfl, hpq⟩
    | _ => cases h.2
  | factorial inner ih =>
    cases u with simp only [postorder, ← List.append_assoc, List.append_singleton_inj] at h
    | factorial inner' =>
      obtain ⟨hoperand, hroot⟩ := h
      cases hroot
      obtain ⟨rfl, hpq⟩ := ih hoperand
      exact ⟨rfl, hpq⟩
    | _ => cases h.2

theorem postorder_injective : Function.Injective postorder := fun _ _ h =>
  (eq_of_append_postorder (congrArg ([] ++ ·) h)).1

/-- What a stack of trees lists, from the bottom up. The top is the head. -/
def listing (stack : List Tree) : Program := stack.reverse.flatMap postorder

@[simp] theorem listing_nil : listing [] = [] := rfl

@[simp] theorem listing_cons (t : Tree) (stack : List Tree) :
    listing (t :: stack) = listing stack ++ t.postorder := by
  simp [listing]

end Tree

namespace Program

variable {mode : AngleMode} {p : Program} {stack : List Float}

/-! ## Runs -/

theorem exec_postorder (mode : AngleMode) (t : Tree) (stack : List Float) :
    exec mode t.postorder stack = .ok (t.value mode :: stack) := by
  induction t generalizing stack with
  | number x => rfl
  | operate op left right ihl ihr =>
    rw [Tree.postorder, exec_append, exec_append, ihl stack]
    simp only [Except.bind]
    rw [ihr]
    rfl
  | call f argument ih => rw [Tree.postorder, exec_append, ih stack]; rfl
  | factorial inner ih => rw [Tree.postorder, exec_append, ih stack]; rfl

/-- **One step**, of an instruction that finds its operands: it makes a tree of the trees of these. -/
theorem step_eq_ok {i : Instruction} (trees : List Tree)
    (h : i.step mode (trees.map (Tree.value mode)) = .ok stack) :
    ∃ trees' : List Tree, stack = trees'.map (Tree.value mode) ∧
      Tree.listing trees' = Tree.listing trees ++ [i] := by
  cases i with
  | push x =>
    cases h
    exact ⟨.number x :: trees, rfl, by simp [Tree.postorder]⟩
  | operate op =>
    match trees, h with
    | right :: left :: below, h =>
      cases h
      exact ⟨.operate op left right :: below, rfl, by simp [Tree.postorder]⟩
  | call f =>
    match trees, h with
    | argument :: below, h =>
      cases h
      exact ⟨.call f argument :: below, rfl, by simp [Tree.postorder]⟩
  | factorial =>
    match trees, h with
    | inner :: below, h =>
      cases h
      exact ⟨.factorial inner :: below, rfl, by simp [Tree.postorder]⟩

/-- **A run**: what is on the stack at the end are the values of trees, and these list what was run. -/
theorem exec_eq_ok (trees : List Tree)
    (h : exec mode p (trees.map (Tree.value mode)) = .ok stack) :
    ∃ trees' : List Tree, stack = trees'.map (Tree.value mode) ∧
      Tree.listing trees' = Tree.listing trees ++ p := by
  induction p generalizing trees with
  | nil =>
    cases h
    exact ⟨trees, rfl, by simp⟩
  | cons i p ih =>
    simp only [exec] at h
    split at h
    · next between hstep =>
      obtain ⟨trees', rfl, hlisting⟩ := step_eq_ok trees hstep
      obtain ⟨trees'', rfl, hlisting'⟩ := ih trees' h
      exact ⟨trees'', rfl, by simp [hlisting', hlisting]⟩
    · cases h

theorem run_postorder (mode : AngleMode) (t : Tree) : run mode t.postorder = .ok (t.value mode) := by
  simp only [run, exec_postorder, result]

theorem exists_tree_of_run {x : Float} (h : run mode p = .ok x) :
    ∃ t : Tree, t.postorder = p ∧ t.value mode = x := by
  simp only [run] at h
  split at h
  · next stack hexec =>
    obtain ⟨trees, rfl, hlisting⟩ := exec_eq_ok [] hexec
    match trees, h with
    | [t], h =>
      cases h
      have hp : t.postorder = p := by simpa using hlisting
      exact ⟨t, hp, rfl⟩
  · cases h

/-- **The programs that have a value** are the postorders of expression trees: of one tree each, and the
value is that of the tree. Any other program ends with an error, and so does the empty one. -/
theorem run_eq_ok_iff (mode : AngleMode) (p : Program) :
    (∀ x, run mode p = .ok x ↔ ∃ t : Tree, (∀ u : Tree, u.postorder = p ↔ u = t) ∧ t.value mode = x) ∧
    ((∃ e, run mode p = .error e) ↔ ∀ t : Tree, t.postorder ≠ p) ∧
    run mode [] = .error .notOneValue := by
  refine ⟨fun x => ⟨fun h => ?_, ?_⟩, ⟨?_, fun h => ?_⟩, rfl⟩
  · obtain ⟨t, rfl, hx⟩ := exists_tree_of_run h
    exact ⟨t, fun u => Tree.postorder_injective.eq_iff, hx⟩
  · rintro ⟨t, ht, rfl⟩
    have hp : t.postorder = p := (ht t).mpr rfl
    rw [← hp, run_postorder]
  · rintro ⟨e, he⟩ t rfl
    rw [run_postorder] at he
    cases he
  · cases hrun : run mode p with
    | error e => exact ⟨e, rfl⟩
    | ok x =>
      obtain ⟨t, hp, -⟩ := exists_tree_of_run hrun
      exact absurd hp (h t)

end Program
end SciCalc
