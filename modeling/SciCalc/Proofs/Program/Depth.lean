/-
How many numbers are on the stack. An instruction takes some of them and leaves one, whatever they are and
in either angle mode (`Instruction.step_climb`). So a run that finds enough of them finds enough on every
stack that is as high, and what is higher by some numbers at the start is higher by as many at the end
(`exec_higher`).

Programs that run on any stack are told apart by how many numbers they leave on it (`Leaves`). One that has a
value leaves one number (`leaves_of_run`), and one that leaves another count has none (`Leaves.run_eq`).
-/
import SciCalc.Program.Run

namespace SciCalc

variable {mode : AngleMode} {stack stack' higher : List Float} {x : Float}

/-- How many numbers an instruction takes off the stack. It leaves one in their place. -/
def Instruction.operands : Instruction → Nat
  | push _ => 0
  | operate _ => 2
  | call _ | factorial => 1

namespace Instruction

/-- The error of an instruction that finds too few numbers. -/
def starvation : Instruction → RunError
  | call f => .missingArgument f
  | _ => .missingOperand

/-- The height of the stack behind an instruction, or the error if it finds too few numbers. -/
def climb (i : Instruction) (n : Nat) : Except RunError Nat :=
  if i.operands ≤ n then .ok (n + 1 - i.operands) else .error i.starvation

/-- **One step** goes by the height of the stack. -/
theorem step_climb (i : Instruction) (mode : AngleMode) (stack : List Float) :
    (i.step mode stack).map List.length = i.climb stack.length := by
  cases i with
  | push x => rfl
  | operate op =>
    match stack with
    | [] => rfl
    | [b] => rfl
    | b :: a :: stack => simp [step, climb, operands, Except.map]
  | call f =>
    match stack with
    | [] => rfl
    | x :: stack => simp [step, climb, operands, Except.map]
  | factorial =>
    match stack with
    | [] => rfl
    | x :: stack => simp [step, climb, operands, Except.map]

theorem step_length (i : Instruction) (mode : AngleMode) (stack : List Float) :
    (i.operands ≤ stack.length ∧
      ∃ stack', i.step mode stack = .ok stack' ∧ stack'.length + i.operands = stack.length + 1) ∨
    (stack.length < i.operands ∧ ∃ e, i.step mode stack = .error e) := by
  have hstep := i.step_climb mode stack
  by_cases h : i.operands ≤ stack.length
  · rw [climb, if_pos h] at hstep
    cases hok : i.step mode stack with
    | ok stack' =>
      rw [hok] at hstep
      have hlength : stack'.length = stack.length + 1 - i.operands := Except.ok.inj hstep
      exact .inl ⟨h, stack', rfl, by omega⟩
    | error e =>
      rw [hok] at hstep
      cases hstep
  · rw [climb, if_neg h] at hstep
    cases hok : i.step mode stack with
    | ok stack' =>
      rw [hok] at hstep
      cases hstep
    | error e => exact .inr ⟨Nat.lt_of_not_le h, e, rfl⟩

end Instruction

namespace Program

variable {p q q₁ q₂ : Program} {count extra : Nat}

theorem exec_append_eq_ok : exec mode (p ++ q) stack = .ok stack' ↔
    ∃ between, exec mode p stack = .ok between ∧ exec mode q between = .ok stack' := by
  rw [exec_append]
  cases exec mode p stack with
  | ok between => simp [Except.bind]
  | error e => simp [Except.bind]

/-- **A run on a higher stack** succeeds as well, and keeps the difference. -/
theorem exec_higher (h : exec mode p stack = .ok stack') (mode' : AngleMode)
    (hlength : higher.length = stack.length + extra) :
    ∃ higher', exec mode' p higher = .ok higher' ∧ higher'.length = stack'.length + extra := by
  induction p generalizing stack higher with
  | nil =>
    cases h
    exact ⟨higher, rfl, hlength⟩
  | cons i p ih =>
    simp only [exec] at h
    rcases i.step_length mode stack with ⟨hle, between₁, hstep₁, hlength₁⟩ | ⟨-, e, herror⟩
    · rcases i.step_length mode' higher with ⟨-, between₂, hstep₂, hlength₂⟩ | ⟨hlow, -⟩
      · rw [hstep₁] at h
        simp only [exec, hstep₂]
        exact ih h (by omega)
      · omega
    · rw [herror] at h
      cases h

/-! ## What is left -/

/-- Whether a program runs on every stack, and leaves so many numbers on it. -/
def Leaves (p : Program) (count : Nat) : Prop :=
  ∀ mode stack, ∃ stack', exec mode p stack = .ok stack' ∧ stack'.length = stack.length + count

theorem Leaves.append {n : Nat} (hp : p.Leaves count) (hq : q.Leaves n) : (p ++ q).Leaves (count + n) := by
  intro mode stack
  obtain ⟨between, hbetween, hlength⟩ := hp mode stack
  obtain ⟨stack', hstack', hlength'⟩ := hq mode between
  exact ⟨stack', exec_append_eq_ok.mpr ⟨between, hbetween, hstack'⟩, by omega⟩

theorem Leaves.call (hp : p.Leaves count) (hcount : count ≠ 0) (f : Func) :
    Leaves (p ++ [.call f]) count := by
  intro mode stack
  obtain ⟨between, hbetween, hlength⟩ := hp mode stack
  match between, hlength with
  | x :: below, hlength =>
    exact ⟨f.apply mode x :: below, exec_append_eq_ok.mpr ⟨_, hbetween, rfl⟩, hlength⟩
  | [], hlength => simp at hlength; omega

/-- A program in the place of a number. What is behind it finds as many numbers, and perhaps more. -/
theorem Leaves.replace (h : Leaves (q₁ ++ [.push x] ++ q₂) count) (hp : p.Leaves (extra + 1)) :
    Leaves (q₁ ++ p ++ q₂) (count + extra) := by
  intro mode stack
  obtain ⟨stack', hexec, hlength⟩ := h mode stack
  obtain ⟨_, hnumber, hafter⟩ := exec_append_eq_ok.mp hexec
  obtain ⟨below, hbefore, hpush⟩ := exec_append_eq_ok.mp hnumber
  cases hpush
  obtain ⟨between, hbetween, hlength₁⟩ := hp mode below
  have hhigher : between.length = (x :: below).length + extra := by
    rw [hlength₁, List.length_cons, Nat.add_assoc, Nat.add_comm 1]
  obtain ⟨end', hend, hlength₂⟩ := exec_higher hafter mode hhigher
  refine ⟨end', exec_append_eq_ok.mpr ⟨between, exec_append_eq_ok.mpr ⟨below, hbefore, hbetween⟩, hend⟩, ?_⟩
  omega

theorem leaves_of_run (h : run mode p = .ok x) : p.Leaves 1 := by
  simp only [run] at h
  split at h
  · next stack hexec =>
    match stack, h with
    | [y], _ =>
      intro mode' stack
      have hhigher : stack.length = ([] : List Float).length + stack.length := (Nat.zero_add _).symm
      obtain ⟨stack', hstack', hlength⟩ := exec_higher hexec mode' hhigher
      exact ⟨stack', hstack', by simpa [Nat.add_comm] using hlength⟩
  · cases h

/-- **The outcome of a run** is a value just if one number is left. -/
theorem Leaves.run_eq (h : p.Leaves count) (mode : AngleMode) :
    (count = 1 → ∃ x, run mode p = .ok x) ∧ (count ≠ 1 → run mode p = .error .notOneValue) := by
  obtain ⟨stack, hexec, hlength⟩ := h mode []
  simp only [run, hexec]
  match stack, hlength with
  | [], hlength => exact ⟨fun hone => by simp at hlength; omega, fun _ => rfl⟩
  | [x], hlength => exact ⟨fun _ => ⟨x, rfl⟩, fun hne => by simp at hlength; omega⟩
  | x :: y :: stack, hlength => exact ⟨fun hone => by simp at hlength; omega, fun _ => rfl⟩

end Program
end SciCalc
