/-
The work of an expression is neither lost nor done twice (`ofTokens_work`). Numbers and factorials are in the
program in their own order, with a zero where a minus negates; each operator and each call is there as often
as in the tokens; and there is nothing else.

A token adds some instructions at once (`Token.immediate`) and owes others (`Token.later`). Those wait on the
stack, and what one step adds to the program, with what waits then, is what the token adds and owes, with what
waited before (`step_work`).
-/
import SciCalc.Proofs.Program.Read

namespace SciCalc

/-- Whether an instruction never waits. -/
def Instruction.isImmediate : Instruction → Bool
  | push _ | factorial => true
  | operate _ | call _ => false

/-- What a token adds to the program when it is read: a number, a factorial, or the zero that a negation
subtracts from. -/
def Token.immediate (previous : Option Token) : Token → Program
  | .number x => [.push x]
  | .factorial => [.factorial]
  | .operator op => if op = .sub ∧ Program.negatesAfter previous then [.push (Double.ofNat 0)] else []
  | _ => []

/-- What a token adds to the program later, when its operands are there. -/
def Token.later : Token → Program
  | .operator op => [.operate op]
  | .identifier name => (Func.ofName? name).toList.map .call
  | _ => []

namespace Program

open Pending (release)

variable {previous next : Option Token} {stack stack' : List Pending} {t : Token} {ts : List Token}
  {p : Program}

/-- What tokens add as they are read, in their order. -/
def immediateFrom (previous : Option Token) : List Token → Program
  | [] => []
  | t :: ts => t.immediate previous ++ immediateFrom (some t) ts

/-! ## What is released -/

theorem release_append_waiting (condition : Pending → Bool) (stack : List Pending) :
    (release condition stack).1 ++ (release condition stack).2.filterMap Pending.instruction? =
      stack.filterMap Pending.instruction? := by
  rw [release, ← List.filterMap_append, List.takeWhile_append_dropWhile]

theorem filter_waiting (stack : List Pending) :
    (stack.filterMap Pending.instruction?).filter Instruction.isImmediate = [] := by
  refine List.filter_eq_nil_iff.mpr fun i hi => ?_
  obtain ⟨entry, -, hentry⟩ := List.mem_filterMap.mp hi
  cases entry <;> cases hentry <;> simp [Instruction.isImmediate]

theorem closeGroup_waiting {call : Program} (h : closeGroup stack = .ok (call, stack')) :
    call ++ stack'.filterMap Pending.instruction? = stack.filterMap Pending.instruction? ∧
      call.filter Instruction.isImmediate = [] := by
  rcases closeGroup_eq_ok h with ⟨f, rfl, rfl⟩ | ⟨rfl, rfl, -⟩
  · exact ⟨rfl, rfl⟩
  · exact ⟨rfl, rfl⟩

/-! ## Steps and runs -/

/-- **One step** adds at once what the token adds at once, and no more of that kind. What it owes waits, or has
been released with what waited before. -/
theorem step_work (h : step previous next stack t = .ok (p, stack')) :
    p.filter Instruction.isImmediate = t.immediate previous ∧
      (p ++ stack'.filterMap Pending.instruction?).Perm
        (t.immediate previous ++ t.later ++ stack.filterMap Pending.instruction?) := by
  cases t with
  | number x => cases h; exact ⟨rfl, .refl _⟩
  | leftParen => cases h; exact ⟨rfl, .refl _⟩
  | identifier name =>
    simp only [step] at h
    split at h
    · split at h
      · next f hf =>
        cases h
        exact ⟨rfl, by simp [Token.immediate, Token.later, Pending.instruction?, hf]⟩
      · cases h
    · cases h
  | rightParen =>
    obtain ⟨call, hclose, rfl⟩ := step_rightParen_eq_ok h
    obtain ⟨hwaiting, hfilter⟩ := closeGroup_waiting hclose
    have hreleased : (release (· ≠ .group) stack).1.filter Instruction.isImmediate = [] := filter_waiting _
    have hrelease := release_append_waiting (· ≠ .group) stack
    refine ⟨by rw [List.filter_append, hreleased, hfilter]; rfl, ?_⟩
    simp only [release] at hrelease ⊢
    rw [List.append_assoc, hwaiting, hrelease]
    exact .refl _
  | comma =>
    cases h
    exact ⟨filter_waiting _, .of_eq (release_append_waiting _ _)⟩
  | factorial =>
    cases h
    refine ⟨by rw [List.filter_append, filter_waiting]; rfl, ?_⟩
    rw [← release_append_waiting (· = .negation) stack, List.append_assoc]
    exact List.perm_middle
  | operator op =>
    have hrelease := release_append_waiting (Pending.goesBefore op) stack
    have hreleased : (release (Pending.goesBefore op) stack).1.filter Instruction.isImmediate = [] :=
      filter_waiting _
    simp only [step] at h
    split at h
    · next hnegates =>
      have hop : op = .sub := hnegates.1
      cases h
      rw [Token.immediate, if_pos hnegates, ← hrelease]
      refine ⟨by rw [List.filter_cons_of_pos rfl, hreleased], ?_⟩
      rw [hop]
      exact List.perm_middle.cons _
    · next hnegates =>
      cases h
      rw [Token.immediate, if_neg hnegates, ← hrelease]
      exact ⟨hreleased, List.perm_middle⟩

/-- **A program from some tokens on** is what they add and owe, and what has waited before them. -/
theorem ofTokensFrom_work (h : ofTokensFrom previous stack ts = .ok p) :
    p.filter Instruction.isImmediate = immediateFrom previous ts ∧
      p.Perm (immediateFrom previous ts ++ ts.flatMap Token.later ++
        stack.filterMap Pending.instruction?) := by
  induction ts generalizing previous stack p with
  | nil =>
    simp only [ofTokensFrom, finish] at h
    split at h
    · cases h
    · cases h
      exact ⟨filter_waiting stack, .refl _⟩
  | cons t ts ih =>
    obtain ⟨added, between, q, hstep, hq, rfl⟩ := ofTokensFrom_cons_eq_ok h
    obtain ⟨hadded, hstepPerm⟩ := step_work hstep
    obtain ⟨hfilter, hperm⟩ := ih hq
    refine ⟨by rw [List.filter_append, hadded, hfilter]; rfl, List.perm_iff_count.mpr fun i => ?_⟩
    have hstepCount := hstepPerm.count_eq i
    have hcount := hperm.count_eq i
    simp only [immediateFrom, List.flatMap_cons, List.count_append] at hstepCount hcount ⊢
    omega

/-! ## Counting -/

theorem count_immediateFrom {i : Instruction} (hi : i.isImmediate = false) (previous : Option Token)
    (ts : List Token) : (immediateFrom previous ts).count i = 0 := by
  refine List.count_eq_zero.mpr fun hmem => ?_
  induction ts generalizing previous with
  | nil => cases hmem
  | cons t ts ih =>
    rcases List.mem_append.mp hmem with hfirst | hrest
    · cases t with
      | number x | factorial => cases List.mem_singleton.mp hfirst; cases hi
      | operator op =>
        simp only [Token.immediate] at hfirst
        split at hfirst
        · cases List.mem_singleton.mp hfirst; cases hi
        · cases hfirst
      | _ => cases hfirst
    · exact ih _ hrest

theorem count_later_operate (op : Operator) (ts : List Token) :
    (ts.flatMap Token.later).count (.operate op) = ts.count (.operator op) := by
  induction ts with
  | nil => rfl
  | cons t ts ih =>
    rw [List.flatMap_cons, List.count_append, List.count_cons, ih, Nat.add_comm]
    congr 1
    cases t with
    | operator op' => simp [Token.later, List.count_singleton]
    | identifier name => cases hf : Func.ofName? name <;> simp [Token.later, hf]
    | _ => rfl

theorem count_later_call (f : Func) (ts : List Token) :
    (ts.flatMap Token.later).count (.call f) = ts.count (.identifier f.name) := by
  induction ts with
  | nil => rfl
  | cons t ts ih =>
    rw [List.flatMap_cons, List.count_append, List.count_cons, ih, Nat.add_comm]
    congr 1
    cases t with
    | identifier name =>
      by_cases hname : name = f.name
      · simp [Token.later, hname]
      · have hcall : .call f ∉ Token.later (.identifier name) := by
          intro hmem
          obtain ⟨g, hg, heq⟩ := List.mem_map.mp hmem
          cases heq
          exact hname (Func.name_of_ofName? (Option.mem_toList.mp hg)).symm
        rw [List.count_eq_zero.mpr hcall]
        simp [hname]
    | _ => rfl

/-- **The work of an expression**: the program has its numbers and factorials in their order, with a zero for
each minus that negates, each of its operators and calls once, and nothing else. -/
theorem ofTokens_work (h : ofTokens ts = .ok p) :
    p.filter Instruction.isImmediate = immediateFrom none ts ∧
    (∀ op, p.count (.operate op) = ts.count (.operator op)) ∧
    (∀ f : Func, p.count (.call f) = ts.count (.identifier f.name)) ∧
    p.Perm (immediateFrom none ts ++ ts.flatMap Token.later) := by
  obtain ⟨hfilter, hperm⟩ := ofTokensFrom_work h
  have hperm' : p.Perm (immediateFrom none ts ++ ts.flatMap Token.later) := by simpa using hperm
  refine ⟨hfilter, fun op => ?_, fun f => ?_, hperm'⟩
  · rw [hperm'.count_eq, List.count_append, count_immediateFrom rfl, Nat.zero_add, count_later_operate]
  · rw [hperm'.count_eq, List.count_append, count_immediateFrom rfl, Nat.zero_add, count_later_call]

/-- Operators that find no operands are there as well, and so are two minuses, of which the first negates. -/
theorem ofTokens_work_misplaced :
    ofTokens [.operator .mul, .operator .sub, .number Double.pi, .factorial, .operator .sub, .identifier "sin",
        .leftParen, .number Double.pi, .comma, .rightParen] =
      .ok [.push (Double.ofNat 0), .operate .mul, .push Double.pi, .operate .sub, .factorial, .push Double.pi,
        .call .sin, .operate .sub] ∧
    List.filter Instruction.isImmediate [.push (Double.ofNat 0), .operate .mul, .push Double.pi, .operate .sub,
        .factorial, .push Double.pi, .call .sin, .operate .sub] =
      [.push (Double.ofNat 0), .push Double.pi, .factorial, .push Double.pi] := by
  have h : ofTokens [.operator .mul, .operator .sub, .number Double.pi, .factorial, .operator .sub,
      .identifier "sin", .leftParen, .number Double.pi, .comma, .rightParen] =
    .ok [.push (Double.ofNat 0), .operate .mul, .push Double.pi, .operate .sub, .factorial, .push Double.pi,
      .call .sin, .operate .sub] := rfl
  exact ⟨h, (ofTokens_work h).1⟩

end Program
end SciCalc
