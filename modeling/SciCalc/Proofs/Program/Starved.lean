/-
What can go wrong in a run is told by the instructions alone. The height of the stack is a running count (`height`):
every instruction leaves one number in the place of those that it takes. The first that finds too few of them gives
the error, and where none does, it is left to the count at the end (`run_shape`).

So a run can be followed on heights in the place of stacks (`climb`). The numbers are not looked at, and neither is
the angle mode: programs that differ in their numbers only have the same errors (`climb_congr`).
-/
import Mathlib
import SciCalc.Proofs.Program.Depth

namespace SciCalc

variable {mode mode' : AngleMode} {i j : Instruction} {p q : Program} {n m : Nat} {e : RunError}

/-- The functions that look at the angle mode. -/
def Func.trigonometric : List Func := [sin, cos, tan, asin, acos, atan]

namespace Instruction

/-- Whether two instructions differ at most in the number that they put on the stack. -/
inductive Alike : Instruction → Instruction → Prop where
  | push (x y : Float) : Alike (push x) (push y)
  | refl (i : Instruction) : Alike i i

end Instruction

namespace Program

/-- The height of the stack behind a program, or the error of the first instruction that finds too few numbers. -/
def climb : Program → Nat → Except RunError Nat
  | [], n => .ok n
  | i :: p, n =>
    match i.climb n with
    | .ok n => climb p n
    | .error e => .error e

/-- By how much instructions raise the stack, if each finds the numbers that it takes. -/
def height (p : Program) : Int := (p.map fun i => 1 - (i.operands : Int)).sum

/-- Whether each instruction finds the numbers that it takes, on a stack of a height. -/
def Fed (n : Nat) (p : Program) : Prop :=
  ∀ before i after, p = before ++ i :: after → (i.operands : Int) ≤ n + height before

/-- Whether an instruction of a program is the first that finds too few numbers, on a stack of a height. -/
def Starves (n : Nat) (p : Program) (i : Instruction) : Prop :=
  ∃ before after, p = before ++ i :: after ∧ Fed n before ∧ n + height before < i.operands

end Program

/-! ## One step -/

theorem Func.apply_mode {f : Func} (h : f ∉ trigonometric) (mode mode' : AngleMode) (x : Float) :
    f.apply mode x = f.apply mode' x := by
  cases f with
  | sin | cos | tan | asin | acos | atan => exact absurd (by decide) h
  | ln | log | sqrt | exp | abs | fact => rfl

namespace Instruction

theorem Alike.climb (h : Alike i j) (n : Nat) : i.climb n = j.climb n := by
  cases h with
  | push x y => rfl
  | refl => rfl

theorem step_mode (h : ∀ f ∈ Func.trigonometric, call f ≠ i) (mode mode' : AngleMode) (stack : List Float) :
    i.step mode stack = i.step mode' stack := by
  cases i with
  | call f =>
    have hf : f ∉ Func.trigonometric := fun hmem => h f hmem rfl
    cases stack with
    | nil => rfl
    | cons x stack => simp only [step, Func.apply_mode hf mode mode']
  | push x => rfl
  | operate op => obtain _ | ⟨b, _ | ⟨a, stack⟩⟩ := stack <;> rfl
  | factorial => cases stack <;> rfl

end Instruction

namespace Program

/-! ## Runs -/

/-- **A run** goes by the height of the stack. -/
theorem exec_climb (mode : AngleMode) (p : Program) (stack : List Float) :
    (exec mode p stack).map List.length = p.climb stack.length := by
  induction p generalizing stack with
  | nil => rfl
  | cons i p ih =>
    have hstep := i.step_climb mode stack
    cases h : i.step mode stack with
    | ok between =>
      rw [h] at hstep
      simp only [exec, climb, h, ← hstep, Except.map]
      exact ih between
    | error e =>
      rw [h] at hstep
      simp only [exec, climb, h, ← hstep, Except.map]

/-- **The outcome of a run**, but for the value, is told by the height at the end. -/
theorem run_climb (mode : AngleMode) (p : Program) :
    (run mode p).map (fun _ => ()) =
      (p.climb 0).bind fun n => if n = 1 then .ok () else .error .notOneValue := by
  have hexec := exec_climb mode p []
  cases h : exec mode p [] with
  | error e =>
    rw [h] at hexec
    simp only [run, h, ← List.length_nil (α := Float), ← hexec]
    rfl
  | ok stack =>
    rw [h] at hexec
    simp only [run, h, ← List.length_nil (α := Float), ← hexec]
    obtain _ | ⟨x, _ | ⟨y, stack⟩⟩ := stack
    · rfl
    · rfl
    · simp [result, Except.map, Except.bind]

theorem climb_congr (h : List.Forall₂ Instruction.Alike p q) (n : Nat) : p.climb n = q.climb n := by
  induction h generalizing n with
  | nil => rfl
  | cons hij _ ih => simp only [climb, hij.climb, ih]

theorem run_mode (h : ∀ f ∈ Func.trigonometric, .call f ∉ p) (mode mode' : AngleMode) :
    run mode p = run mode' p := by
  have hexec : ∀ stack, exec mode p stack = exec mode' p stack := by
    induction p with
    | nil => exact fun stack => rfl
    | cons i p ih =>
      intro stack
      have hi : ∀ f ∈ Func.trigonometric, .call f ≠ i := fun f hf heq => h f hf (heq ▸ List.mem_cons_self)
      have hp : ∀ f ∈ Func.trigonometric, .call f ∉ p := fun f hf hmem => h f hf (List.mem_cons_of_mem _ hmem)
      simp only [exec, Instruction.step_mode hi mode mode', ih hp]
  rw [run, run, hexec]

/-! ## The count -/

@[simp] theorem height_nil : height [] = 0 := rfl

@[simp] theorem height_cons (i : Instruction) (p : Program) : height (i :: p) = 1 - i.operands + height p := by
  simp [height]

theorem fed_nil (n : Nat) : Fed n [] := by
  intro before i after h
  simp at h

theorem fed_cons_iff (h : i.operands ≤ n) : Fed n (i :: p) ↔ Fed (n + 1 - i.operands) p := by
  constructor
  · intro hfed before j after hp
    have hj := hfed (i :: before) j after (by rw [hp, List.cons_append])
    rw [height_cons] at hj
    omega
  · intro hfed before j after hp
    cases before with
    | nil =>
      obtain ⟨rfl, -⟩ := List.cons.inj hp
      rw [height_nil]
      omega
    | cons k before =>
      obtain ⟨rfl, rfl⟩ := List.cons.inj hp
      have hj := hfed before j after rfl
      rw [height_cons]
      omega

theorem not_fed_cons (h : n < i.operands) (p : Program) : ¬ Fed n (i :: p) := by
  intro hfed
  have hi := hfed [] i p rfl
  rw [height_nil] at hi
  omega

theorem starves_cons_iff (h : i.operands ≤ n) : Starves n (i :: p) j ↔ Starves (n + 1 - i.operands) p j := by
  constructor
  · rintro ⟨before, after, hp, hfed, hlow⟩
    cases before with
    | nil =>
      obtain ⟨rfl, -⟩ := List.cons.inj hp
      rw [height_nil] at hlow
      omega
    | cons k before =>
      obtain ⟨rfl, rfl⟩ := List.cons.inj hp
      rw [height_cons] at hlow
      exact ⟨before, after, rfl, (fed_cons_iff h).mp hfed, by omega⟩
  · rintro ⟨before, after, rfl, hfed, hlow⟩
    refine ⟨i :: before, after, rfl, (fed_cons_iff h).mpr hfed, ?_⟩
    rw [height_cons]
    omega

theorem starves_cons_of_lt (h : n < i.operands) : Starves n (i :: p) j ↔ j = i := by
  constructor
  · rintro ⟨before, after, hp, hfed, -⟩
    cases before with
    | nil => exact (List.cons.inj hp).1.symm
    | cons k before =>
      obtain ⟨rfl, -⟩ := List.cons.inj hp
      exact absurd hfed (not_fed_cons h before)
  · rintro rfl
    refine ⟨[], p, rfl, fed_nil n, ?_⟩
    rw [height_nil]
    omega

/-- **The height at the end** is the count, if each instruction finds its numbers. -/
theorem climb_eq_ok_iff : p.climb n = .ok m ↔ Fed n p ∧ n + height p = m := by
  induction p generalizing n with
  | nil =>
    have hfed := fed_nil n
    simp only [climb, Except.ok.injEq, hfed, true_and, height_nil]
    omega
  | cons i p ih =>
    by_cases h : i.operands ≤ n
    · have hstep : i.climb n = .ok (n + 1 - i.operands) := if_pos h
      simp only [climb, hstep, ih, fed_cons_iff h, height_cons]
      refine and_congr_right fun _ => ?_
      omega
    · have hstep : i.climb n = .error i.starvation := if_neg h
      have hnot := not_fed_cons (Nat.lt_of_not_le h) p
      simp [climb, hstep, hnot]

/-- **The error on the way** is that of the first instruction that does not find its numbers. -/
theorem climb_eq_error_iff : p.climb n = .error e ↔ ∃ i, Starves n p i ∧ e = i.starvation := by
  induction p generalizing n with
  | nil => simp [climb, Starves]
  | cons i p ih =>
    by_cases h : i.operands ≤ n
    · have hstep : i.climb n = .ok (n + 1 - i.operands) := if_pos h
      simp only [climb, hstep, ih, starves_cons_iff h]
    · have hstep : i.climb n = .error i.starvation := if_neg h
      simp [climb, hstep, starves_cons_of_lt (Nat.lt_of_not_le h), eq_comm]

theorem Starves.not_fed (h : Starves n p i) : ¬ Fed n p := by
  obtain ⟨before, after, hp, -, hlow⟩ := h
  intro hfed
  have hi := hfed before i after hp
  omega

/-- **The error of a run**, by the count. -/
theorem run_eq_error_iff (mode : AngleMode) : run mode p = .error e ↔
    (∃ i, Starves 0 p i ∧ e = i.starvation) ∨ (Fed 0 p ∧ height p ≠ 1 ∧ e = .notOneValue) := by
  have hrun : run mode p = .error e ↔ (run mode p).map (fun _ => ()) = .error e := by
    cases run mode p <;> simp [Except.map]
  rw [hrun, run_climb]
  cases h : p.climb 0 with
  | error e' =>
    obtain ⟨i, hi, rfl⟩ := climb_eq_error_iff.mp h
    have hstarves : (∃ j, Starves 0 p j ∧ e = j.starvation) ↔ i.starvation = e := by
      rw [← climb_eq_error_iff, h, Except.error.injEq]
    simp [Except.bind, hstarves, hi.not_fed]
  | ok m =>
    obtain ⟨hfed, hheight⟩ := climb_eq_ok_iff.mp h
    have hstarves : ¬ ∃ j, Starves 0 p j ∧ e = j.starvation := by
      rw [← climb_eq_error_iff, h]
      nofun
    have hone : m = 1 ↔ height p = 1 := by omega
    by_cases hm : m = 1
    · simp [Except.bind, hstarves, hm, hone.mp hm]
    · simp [Except.bind, hstarves, hm, mt hone.mpr hm, hfed, eq_comm]

/-- **What can go wrong in a run** is told by the instructions alone. The error is that of the first that finds too
few numbers; where none does, it is that the count at the end is not one. Programs that differ in the numbers that
they push fail alike, in all angle modes, and without trigonometric functions the mode makes no difference. -/
theorem run_shape (p : Program) :
    (∀ mode e, run mode p = .error e ↔
      (∃ i, Starves 0 p i ∧ e = i.starvation) ∨ (Fed 0 p ∧ height p ≠ 1 ∧ e = .notOneValue)) ∧
    (∀ q, List.Forall₂ Instruction.Alike p q → ∀ mode mode',
      (run mode p).map (fun _ => ()) = (run mode' q).map fun _ => ()) ∧
    ((∀ f ∈ Func.trigonometric, .call f ∉ p) → ∀ mode mode', run mode p = run mode' p) := by
  refine ⟨?_, ?_, ?_⟩
  · intro mode e
    exact run_eq_error_iff mode
  · intro q hq mode mode'
    rw [run_climb, run_climb, climb_congr hq]
  · intro h mode mode'
    exact run_mode h mode mode'

end Program
end SciCalc
