/-
What may wait on what. Between two tokens, the entries that wait are always in one order: a function
has the parenthesis of its argument directly above it, what is above an operator or a negation binds
tighter than it does (only powers wait on powers), and a negation has no operator directly below it.

Every step keeps this (`step_ordered`), and so does a whole run (`read_ordered`).
-/
import Mathlib.Data.List.Chain
import SciCalc.Proofs.Program.Read

namespace SciCalc

/-- Whether an entry may wait directly above another. -/
def Pending.MayCover : (above below : Pending) → Prop
  | .group, _ => True
  | _, .call _ => False
  | _, .group => True
  | .call _, _ => True
  | .operator op, .operator below => below.precedence < op.precedence ∨ (below = .pow ∧ op = .pow)
  | .operator op, .negation => Operator.sub.precedence < op.precedence
  | .negation, _ => False

namespace Program

open Pending (MayCover goesBefore release)

variable {previous next : Option Token} {stack stack' : List Pending} {t : Token} {ts : List Token}
  {p : Program}

/-- The order of what waits. A function on top has just been named, and its parenthesis is next. -/
structure Ordered (next : Option Token) (stack : List Pending) : Prop where
  covered : stack.IsChain MayCover
  called : ∀ f, stack.head? = some (.call f) → next = some .leftParen

theorem ordered_nil (next : Option Token) : Ordered next [] := ⟨.nil, nofun⟩

theorem Ordered.head?_ne_call (ho : Ordered next stack) (hn : next ≠ some .leftParen) (f : Func) :
    stack.head? ≠ some (.call f) := fun hf => hn (ho.called f hf)

theorem group_above_call {above below : List Pending} {f : Func}
    (hc : (above ++ .call f :: below).IsChain MayCover) (hne : above ≠ []) : above.getLast? = some .group := by
  have hlast : above.getLast? = some (above.getLast hne) := List.getLast?_eq_some_getLast hne
  have hcover : MayCover (above.getLast hne) (.call f) := (List.isChain_append.mp hc).2.2 _ hlast _ rfl
  rw [hlast]
  cases htop : above.getLast hne with
  | group => rfl
  | _ => rw [htop] at hcover; exact hcover.elim

theorem group_mem_above_call {above below : List Pending} {f : Func} (hc : stack.IsChain MayCover)
    (hs : ∀ f, stack.head? ≠ some (.call f)) (hstack : stack = above ++ .call f :: below) :
    .group ∈ above := by
  subst hstack
  have hne : above ≠ [] := by
    rintro rfl
    exact hs f rfl
  exact List.mem_of_getLast? (group_above_call hc hne)

/-! ## What a release leaves, and what it takes -/

/-- Where a group stops the release, no function comes to the top: above it there is its group. -/
theorem head?_dropWhile_ne_call {condition : Pending → Bool} (hc : stack.IsChain MayCover)
    (hs : ∀ f, stack.head? ≠ some (.call f)) (hg : condition .group = false) :
    ∀ f, (stack.dropWhile condition).head? ≠ some (.call f) := by
  intro f hf
  obtain ⟨below, hdrop⟩ := List.head?_eq_some_iff.mp hf
  have hsplit : stack = stack.takeWhile condition ++ .call f :: below := by
    rw [← hdrop, List.takeWhile_append_dropWhile]
  have htrue : condition .group = true := List.mem_takeWhile_imp (group_mem_above_call hc hs hsplit)
  rw [hg] at htrue
  cases htrue

theorem call_notMem_takeWhile {condition : Pending → Bool} (ho : Ordered next stack)
    (hn : next ≠ some .leftParen) (hg : condition .group = false) (f : Func) :
    .call f ∉ stack.takeWhile condition := by
  intro hmem
  obtain ⟨above, below, htake⟩ := List.append_of_mem hmem
  have hsplit : stack = above ++ .call f :: (below ++ stack.dropWhile condition) := by
    rw [← List.cons_append, ← List.append_assoc, ← htake, List.takeWhile_append_dropWhile]
  have hgroup : .group ∈ stack.takeWhile condition := by
    rw [htake]
    exact List.mem_append_left _ (group_mem_above_call ho.covered (ho.head?_ne_call hn) hsplit)
  have htrue : condition .group = true := List.mem_takeWhile_imp hgroup
  rw [hg] at htrue
  cases htrue

theorem call_mem_filterMap {f : Func} :
    .call f ∈ stack.filterMap Pending.instruction? ↔ .call f ∈ stack := by
  rw [List.mem_filterMap]
  constructor
  · rintro ⟨entry, hentry, hi⟩
    cases entry <;> cases hi
    exact hentry
  · exact fun h => ⟨_, h, rfl⟩

theorem call_notMem_release {condition : Pending → Bool} (ho : Ordered next stack)
    (hn : next ≠ some .leftParen) (hg : condition .group = false) (f : Func) :
    .call f ∉ (release condition stack).1 :=
  mt call_mem_filterMap.mp (call_notMem_takeWhile ho hn hg f)

theorem not_of_mem_head?_dropWhile {condition : Pending → Bool} {top : Pending}
    (h : top ∈ (stack.dropWhile condition).head?) : condition top = false := by
  have hnot := List.head?_dropWhile_not condition stack
  rw [Option.mem_def.mp h] at hnot
  simpa using hnot

theorem mayCover_operator {op : Operator} {below : Pending} (hb : goesBefore op below = false)
    (hc : ∀ f, below ≠ .call f) : MayCover (.operator op) below := by
  cases below with
  | operator below => cases op <;> cases below <;> revert hb <;> simp [MayCover] <;> decide
  | negation => cases op <;> revert hb <;> simp [MayCover] <;> decide
  | call f => exact absurd rfl (hc f)
  | group => trivial

theorem mayCover_negation {below : Pending} (hb : goesBefore .sub below = false)
    (hc : ∀ f, below ≠ .call f) : MayCover .negation below := by
  cases below with
  | operator below => cases below <;> cases hb
  | negation => cases hb
  | call f => exact absurd rfl (hc f)
  | group => trivial

/-! ## Steps and runs -/

theorem Ordered.of_ne_call (hc : stack.IsChain MayCover) (hs : ∀ f, stack.head? ≠ some (.call f)) :
    Ordered next stack := ⟨hc, fun f hf => absurd hf (hs f)⟩

/-- **One step** keeps the order. -/
theorem step_ordered (h : step previous next stack t = .ok (p, stack')) (ho : Ordered (some t) stack) :
    Ordered next stack' := by
  -- Only an opening parenthesis finds a function on top.
  by_cases ht : t = .leftParen
  · subst ht
    cases h
    exact ⟨ho.covered.cons fun _ _ => trivial, fun f hf => by cases hf⟩
  have hs : ∀ f, stack.head? ≠ some (.call f) := ho.head?_ne_call fun hnext => ht (Option.some.inj hnext)
  cases t with
  | number x => cases h; exact .of_ne_call ho.covered hs
  | identifier name =>
    simp only [step] at h
    split at h
    · next hnext =>
      split at h
      · next f _ =>
        cases h
        refine ⟨ho.covered.cons fun below hbelow => ?_, fun _ _ => hnext⟩
        cases below with
        | call f => exact absurd hbelow (hs f)
        | _ => trivial
      · cases h
    · cases h
  | leftParen => exact absurd rfl ht
  | rightParen =>
    obtain ⟨call, hclose, -⟩ := step_rightParen_eq_ok h
    have hcovered : (stack.dropWhile (· ≠ .group)).IsChain MayCover :=
      ho.covered.suffix (List.dropWhile_suffix _)
    rcases closeGroup_eq_ok hclose with ⟨f, hgroup, -⟩ | ⟨hgroup, -, hne⟩
    · rw [hgroup] at hcovered
      refine .of_ne_call hcovered.tail.tail fun g hg => ?_
      exact hcovered.tail.rel_head? hg
    · rw [hgroup] at hcovered
      exact .of_ne_call hcovered.tail hne
  | comma =>
    cases h
    exact .of_ne_call (ho.covered.suffix (List.dropWhile_suffix _))
      (head?_dropWhile_ne_call ho.covered hs (by simp))
  | factorial =>
    cases h
    exact .of_ne_call (ho.covered.suffix (List.dropWhile_suffix _))
      (head?_dropWhile_ne_call ho.covered hs (by simp))
  | operator op =>
    have hcovered : (stack.dropWhile (goesBefore op)).IsChain MayCover :=
      ho.covered.suffix (List.dropWhile_suffix _)
    have hcall : ∀ f, (stack.dropWhile (goesBefore op)).head? ≠ some (.call f) :=
      head?_dropWhile_ne_call ho.covered hs rfl
    simp only [step, release] at h
    split at h
    · next hnegates =>
      obtain ⟨rfl, -⟩ := hnegates
      cases h
      refine .of_ne_call (hcovered.cons fun below hbelow => ?_) fun f hf => by cases hf
      exact mayCover_negation (not_of_mem_head?_dropWhile hbelow) fun f hf => hcall f (hf ▸ hbelow)
    · cases h
      refine .of_ne_call (hcovered.cons fun below hbelow => ?_) fun f hf => by cases hf
      exact mayCover_operator (not_of_mem_head?_dropWhile hbelow) fun f hf => hcall f (hf ▸ hbelow)

/-- **A run** keeps the order. -/
theorem read_ordered (h : read previous next stack ts = .ok (p, stack'))
    (ho : Ordered (ts.head?.or next) stack) : Ordered next stack' := by
  induction ts generalizing previous stack p with
  | nil => cases h; exact ho
  | cons t ts ih =>
    obtain ⟨added, between, q, hstep, hread, -⟩ := read_cons_eq_ok h
    exact ih hread (step_ordered hstep ho)

/-! ## Where no group waits -/

/-- No function waits either: above it there would be its group. -/
theorem call_notMem (ho : Ordered next stack) (hn : next ≠ some .leftParen) (hg : .group ∉ stack) (f : Func) :
    .call f ∉ stack := by
  have hall : ∀ entry ∈ stack, decide (entry ≠ .group) = true := fun entry hentry =>
    decide_eq_true fun heq => hg (heq ▸ hentry)
  rw [← List.takeWhile_eq_self_iff.mpr hall]
  exact call_notMem_takeWhile ho hn (by simp) f

theorem goesBefore_sub (ho : Ordered next stack) (hn : next ≠ some .leftParen) (hg : .group ∉ stack) :
    ∀ entry ∈ stack, goesBefore .sub entry = true := by
  intro entry hentry
  cases entry with
  | operator op => cases op <;> rfl
  | negation => rfl
  | call f => exact absurd hentry (call_notMem ho hn hg f)
  | group => exact absurd hentry hg

end Program
end SciCalc
