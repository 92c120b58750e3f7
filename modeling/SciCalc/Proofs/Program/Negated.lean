/-
A factorial sign right after the operand of a negation takes all of its group so far: `-3!` is `(-3)!`, and
`a*-b!` is `(a*-b)!`, which is `((a*0)-b)!`. In front of the sign it is as if the group were put in parentheses
there (`ofTokens_negated_factorial`).

The minus has released all that waited in its group, so that it is the only entry that waits there; and the
operand behind it leaves it on top, whatever groups and calls it is made of (`exists_ofTokensFrom_negated`). Then
the factorial sign and a parenthesis release the same.
-/
import Mathlib.Data.List.Infix
import SciCalc.Proofs.Program.Offence
import SciCalc.Proofs.Program.Operand

namespace SciCalc

/-- Whether all parentheses match: no front of the tokens closes more than it opens, and all of them together
close as many. -/
structure Token.Balanced (ts : List Token) : Prop where
  opened : ∀ before, before <+: ts → before.count .rightParen ≤ before.count .leftParen
  closed : ts.count .rightParen = ts.count .leftParen

/-- Whether tokens are an operand by themselves: a number, a group, or what is called with a group. -/
inductive Token.Primary : List Token → Prop where
  | number (x : Float) : Primary [.number x]
  | group {inside : List Token} (balanced : Balanced inside) :
      Primary (.leftParen :: (inside ++ [.rightParen]))
  | call (name : String) {inside : List Token} (balanced : Balanced inside) :
      Primary (.identifier name :: .leftParen :: (inside ++ [.rightParen]))

namespace Token

variable {ts front operand : List Token}

theorem balanced_iff_inits :
    Balanced ts ↔ (∀ before ∈ ts.inits, before.count .rightParen ≤ before.count .leftParen) ∧
      ts.count .rightParen = ts.count .leftParen := by
  constructor
  · rintro ⟨hopened, hclosed⟩
    exact ⟨fun before hbefore => hopened before ((List.mem_inits before ts).mp hbefore), hclosed⟩
  · rintro ⟨hopened, hclosed⟩
    exact ⟨fun before hbefore => hopened before ((List.mem_inits before ts).mpr hbefore), hclosed⟩

instance (ts : List Token) : Decidable (Balanced ts) := decidable_of_iff _ balanced_iff_inits.symm

theorem Primary.closed (h : Primary operand) : operand.count .rightParen = operand.count .leftParen := by
  cases h with
  | number x => rfl
  | group balanced =>
    have hinside := balanced.closed
    simp
    omega
  | call name balanced =>
    have hinside := balanced.closed
    simp
    omega

theorem Balanced.of_negated (h : Balanced (front ++ [.operator .sub] ++ operand)) (ho : Primary operand) :
    Balanced front where
  opened before hbefore := h.opened before (hbefore.trans ⟨[.operator .sub] ++ operand, by simp⟩)
  closed := by
    have hall := h.closed
    have hoperand := ho.closed
    simp at hall
    omega

end Token

namespace Program

open Pending (goesBefore release)
open Token (Balanced Primary)

variable {previous next next' : Option Token} {stack stack' base below : List Pending}
  {ts done before front operand after : List Token} {p call : Program}

/-! ## Balanced tokens -/

/-- **A run** neither reads nor changes what is kept below, if it closes nothing but what it opens. -/
theorem read_above (hb : Kept base) (hd : Depth done stack)
    (h : ∀ front, front <+: ts →
      (done ++ front).count .rightParen ≤ (done ++ front).count .leftParen) :
    read previous next (stack ++ base) ts =
      (read previous next stack ts).map fun (p, stack') => (p, stack' ++ base) := by
  induction ts generalizing previous stack done with
  | nil => rfl
  | cons t ts ih =>
    have hclose : t = .rightParen → .group ∈ stack := by
      rintro rfl
      have hfront := h [.rightParen] ((List.prefix_cons_inj _).mpr (List.nil_prefix))
      unfold Depth at hd
      simp at hfront
      exact List.count_pos_iff.mp (by omega)
    simp only [read, step_above hb hclose]
    cases hstep : step previous (ts.head?.or next) stack t with
    | error e => rfl
    | ok r =>
      have hrest : ∀ front, front <+: ts →
          (done ++ [t] ++ front).count .rightParen ≤ (done ++ [t] ++ front).count .leftParen := by
        intro front hfront
        have ht := h (t :: front) ((List.prefix_cons_inj t).mpr hfront)
        rwa [List.append_cons] at ht
      simp only [Except.map, ih (step_depth hd hstep) hrest]
      cases read (some t) next r.2 ts <;> rfl

theorem group_notMem_of_read (hts : Balanced ts) (h : read previous next [] ts = .ok (p, stack)) :
    .group ∉ stack := by
  have hd : Depth ([] ++ ts) stack := read_depth h depth_nil
  have hclosed := hts.closed
  unfold Depth at hd
  rw [List.nil_append] at hd
  exact List.count_eq_zero.mp (by omega)

/-- **Balanced tokens in parentheses** have the outcome that they have by themselves, be it an error. -/
theorem ofTokensFrom_balanced (hts : Balanced ts) (hc : closeGroup (.group :: base) = .ok (call, below)) :
    ofTokensFrom (some .leftParen) (.group :: base) (ts ++ .rightParen :: after) =
      (ofTokens ts).bind fun p => (ofTokensFrom (some .rightParen) below after).map (p ++ call ++ ·) := by
  have habove : read (some .leftParen) (some .rightParen) ([] ++ .group :: base) ts = _ :=
    read_above (kept_group base) depth_nil hts.opened
  have halone : read (some .leftParen) (some .rightParen) [] ts = read none none [] ts :=
    read_congr rfl (by simp)
  rw [List.nil_append, halone] at habove
  simp only [ofTokensFrom_append, List.head?_cons, habove, ofTokens, ofTokensFrom_eq_read none [] ts]
  cases hread : read none none [] ts with
  | error e => rfl
  | ok r =>
    obtain ⟨p, waiting⟩ := r
    have hgroup : .group ∉ waiting := group_notMem_of_read hts hread
    simp only [Except.map, finish, if_neg hgroup, Except.bind]
    rw [ofTokensFrom_rightParen hgroup hc]
    cases ofTokensFrom (some .rightParen) below after <;> simp [Except.map]

/-! ## Operands and negations -/

/-- **An operand** has one outcome, wherever it stands, and leaves what waits as it is. -/
theorem exists_ofTokensFrom_primary (h : Primary operand) :
    ∃ outcome : Except ParseError Program, ∀ previous stack after, (∀ f, stack.head? ≠ some (.call f)) →
      ofTokensFrom previous stack (operand ++ after) =
        outcome.bind fun p => (ofTokensFrom (some .rightParen) stack after).map (p ++ ·) := by
  cases h with
  | number x => exact ⟨.ok [.push x], fun previous stack after _ => ofTokensFrom_number previous stack x after⟩
  | @group inside balanced =>
    refine ⟨ofTokens inside, fun previous stack after hs => ?_⟩
    have hin : ofTokensFrom (some .leftParen) (.group :: stack) (inside ++ .rightParen :: after) = _ :=
      ofTokensFrom_balanced balanced (closeGroup_group hs)
    simp only [List.append_nil] at hin
    rw [← hin, List.cons_append, List.append_assoc, List.singleton_append, ofTokensFrom_leftParen]
  | @call name inside balanced =>
    cases hf : Func.ofName? name with
    | none =>
      refine ⟨.error (.unknownFunction name), fun previous stack after hs => ?_⟩
      simp [ofTokensFrom, step, hf, Except.bind]
    | some f =>
      refine ⟨(ofTokens inside).map (· ++ [.call f]), fun previous stack after hs => ?_⟩
      have hclose : closeGroup (.group :: .call f :: stack) = .ok ([.call f], stack) := rfl
      have hin : ofTokensFrom (some .leftParen) (.group :: .call f :: stack) (inside ++ .rightParen :: after) = _ :=
        ofTokensFrom_balanced balanced hclose
      rw [List.cons_append, List.cons_append, List.append_assoc, List.singleton_append,
        ← Func.name_of_ofName? hf, ofTokensFrom_call, hin]
      cases ofTokens inside <;> rfl

/-- **What a negation ends**: the minus has released all of its group, and is all that waits there. -/
theorem exists_ofTokensFrom_negation (hfront : Balanced front) (hlast : ∀ t ∈ front.getLast?, ∃ op, t = .operator op) :
    ∃ outcome : Except ParseError Program, ∀ previous base after, negatesAfter previous = true → Kept base →
      ofTokensFrom previous base (front ++ .operator .sub :: after) =
        outcome.bind fun p => (ofTokensFrom (some (.operator .sub)) (.negation :: base) after).map (p ++ ·) := by
  have hread : ∀ previous base, negatesAfter previous = true → Kept base →
      read previous (some (.operator .sub)) base front =
        (read none (some (.operator .sub)) [] front).map fun (p, stack) => (p, stack ++ base) := by
    intro previous base hp hb
    have halone : read previous (some (.operator .sub)) [] front = read none (some (.operator .sub)) [] front :=
      read_congr hp Iff.rfl
    have habove : read previous (some (.operator .sub)) ([] ++ base) front = _ :=
      read_above hb depth_nil hfront.opened
    rwa [List.nil_append, halone] at habove
  cases halone : read none (some (.operator .sub)) [] front with
  | error e =>
    refine ⟨.error e, fun previous base after hp hb => ?_⟩
    simp only [ofTokensFrom_append, List.head?_cons, hread previous base hp hb, halone, Except.map, Except.bind]
  | ok r =>
    obtain ⟨p, waiting⟩ := r
    have ho : Ordered (some (.operator .sub)) waiting := read_ordered halone (ordered_nil _)
    have hgroup : .group ∉ waiting := group_notMem_of_read hfront halone
    have hall := goesBefore_sub ho (by simp) hgroup
    refine ⟨.ok (p ++ .push (Double.ofNat 0) :: waiting.filterMap Pending.instruction?),
      fun previous base after hp hb => ?_⟩
    have hnegates : negatesAfter (front.getLast?.or previous) = true := by
      cases hg : front.getLast? with
      | none => exact hp
      | some t =>
        obtain ⟨op, rfl⟩ := hlast t hg
        rfl
    have hstep : step (front.getLast?.or previous) after.head? (waiting ++ base) (.operator .sub) =
        .ok (.push (Double.ofNat 0) :: waiting.filterMap Pending.instruction?, .negation :: base) := by
      have hrelease : release (goesBefore .sub) (waiting ++ base) = _ := release_above hb rfl
      simp only [step, hrelease, release_eq_of_forall hall, hnegates, and_self, if_true, List.nil_append]
    simp only [ofTokensFrom_append, List.head?_cons, hread previous base hp hb, halone, Except.map, Except.bind]
    rw [ofTokensFrom_cons hstep]
    exact map_append_map _ _ _

/-- **A negated operand** leaves the negation on top of what is kept. -/
theorem exists_ofTokensFrom_negated (hfront : Balanced front)
    (hlast : ∀ t ∈ front.getLast?, ∃ op, t = .operator op) (hoperand : Primary operand) :
    ∃ outcome : Except ParseError Program, ∀ previous base after, negatesAfter previous = true → Kept base →
      ofTokensFrom previous base (front ++ .operator .sub :: (operand ++ after)) =
        outcome.bind fun p => (ofTokensFrom (some .rightParen) (.negation :: base) after).map (p ++ ·) := by
  obtain ⟨first, hfirst⟩ := exists_ofTokensFrom_negation hfront hlast
  obtain ⟨second, hsecond⟩ := exists_ofTokensFrom_primary hoperand
  refine ⟨first.bind fun p => second.map (p ++ ·), fun previous base after hp hb => ?_⟩
  rw [hfirst previous base _ hp hb, hsecond _ _ after (by simp)]
  cases first with
  | error e => rfl
  | ok p =>
    cases second with
    | error e => rfl
    | ok q => exact map_append_map _ _ _

/-! ## The factorial sign -/

theorem ofTokensFrom_factorial (hb : Kept base) (previous : Option Token) (after : List Token) :
    ofTokensFrom previous (.negation :: base) (.factorial :: after) =
      (ofTokensFrom (some .factorial) base after).map ([.operate .sub, .factorial] ++ ·) := by
  have hstep : step previous after.head? ([.negation] ++ base) .factorial =
      .ok ([.operate .sub, .factorial], base) := step_above hb nofun
  exact ofTokensFrom_cons hstep

/-- A parenthesis in front of it has released the same before. -/
theorem ofTokensFrom_rightParen_factorial (hb : Kept base) (previous : Option Token) (after : List Token) :
    ofTokensFrom previous (.negation :: .group :: base) (.rightParen :: .factorial :: after) =
      (ofTokensFrom (some .factorial) base after).map ([.operate .sub, .factorial] ++ ·) := by
  have hclose : closeGroup (.group :: base) = .ok ([], base) :=
    closeGroup_group fun f hf => by cases hb _ hf
  have hgroup : .group ∉ [Pending.negation] := by simp
  have hparen : ofTokensFrom previous ([.negation] ++ .group :: base) (.rightParen :: .factorial :: after) = _ :=
    ofTokensFrom_rightParen hgroup hclose
  have hstep : step (some .rightParen) after.head? ([] ++ base) .factorial = .ok ([.factorial], base) :=
    step_above hb nofun
  have hfactorial : ofTokensFrom (some .rightParen) ([] ++ base) (.factorial :: after) = _ :=
    ofTokensFrom_cons hstep
  rw [List.singleton_append] at hparen
  rw [List.nil_append] at hfactorial
  rw [hparen, hfactorial]
  exact map_append_map _ _ _

/-- What is behind tokens matters to the last of them only, and to that only if it is a name. -/
theorem read_behind (h : ∀ name, ts.getLast? ≠ some (.identifier name)) :
    read previous next stack ts = read previous next' stack ts := by
  induction ts generalizing previous stack with
  | nil => rfl
  | cons t ts ih =>
    cases ts with
    | nil =>
      have hstep : step previous next stack t = step previous next' stack t :=
        step_behind fun name hname => h name (by rw [hname]; rfl)
      simp only [read, List.head?_nil, Option.none_or, hstep]
    | cons u ts =>
      rw [List.getLast?_cons_cons] at h
      rw [read, read]
      simp only [ih h, List.head?_cons, Option.some_or]

/-- Behind an opening parenthesis and behind a comma, a group is on top, or nothing waits. -/
theorem kept_of_read (h : read previous next stack ts = .ok (p, stack')) (hb : ts = [] → Kept stack)
    (hlast : ∀ t ∈ ts.getLast?, t = .leftParen ∨ t = .comma) : Kept stack' := by
  induction ts generalizing previous stack p with
  | nil =>
    cases h
    exact hb rfl
  | cons t ts ih =>
    obtain ⟨added, between, q, hstep, hread, -⟩ := read_cons_eq_ok h
    cases ts with
    | nil =>
      refine ih hread (fun _ => ?_) nofun
      rcases hlast t rfl with rfl | rfl
      · cases hstep
        exact kept_group stack
      · cases hstep
        intro top htop
        simpa using not_of_mem_head?_dropWhile htop
    | cons u ts =>
      rw [List.getLast?_cons_cons] at hlast
      exact ih hread nofun hlast

/-- **A factorial sign behind a negated operand** takes its group so far, which starts the tokens or follows a
parenthesis or a comma: the tokens are the same program, or the same error, with the group in parentheses. -/
theorem ofTokens_negated_factorial (hbefore : ∀ t ∈ before.getLast?, t = .leftParen ∨ t = .comma)
    (hbalanced : Balanced (front ++ [.operator .sub] ++ operand))
    (hfront : ∀ t ∈ front.getLast?, ∃ op, t = .operator op) (hoperand : Primary operand) (after : List Token) :
    ofTokens (before ++ (front ++ [.operator .sub] ++ operand) ++ [.factorial] ++ after) =
      ofTokens (before ++ [.leftParen] ++ (front ++ [.operator .sub] ++ operand) ++ [.rightParen, .factorial] ++
        after) := by
  obtain ⟨outcome, houtcome⟩ := exists_ofTokensFrom_negated (hbalanced.of_negated hoperand) hfront hoperand
  have hnegates : negatesAfter (before.getLast?.or none) = true := by
    cases hlast : before.getLast? with
    | none => rfl
    | some t => rcases hbefore t hlast with rfl | rfl <;> rfl
  -- What comes next is a parenthesis in one case and the group in the other, and only a name would tell.
  have hsplit : ∀ us, ofTokens (before ++ us) =
      (read none none [] before).bind fun r => (ofTokensFrom (before.getLast?.or none) r.2 us).map (r.1 ++ ·) := by
    intro us
    have hbehind : read none us.head? [] before = read none none [] before := by
      refine read_behind fun name hlast => ?_
      rcases hbefore _ hlast with h | h <;> cases h
    rw [ofTokens, ofTokensFrom_append, hbehind]
    cases read none none [] before <;> rfl
  simp only [List.append_assoc, List.cons_append, List.nil_append]
  rw [hsplit, hsplit]
  cases hread : read none none [] before with
  | error e => rfl
  | ok r =>
    obtain ⟨p, stack⟩ := r
    have hkept : Kept stack := kept_of_read hread (fun _ => kept_nil) hbefore
    have hopen : negatesAfter (some .leftParen) = true := rfl
    simp only [Except.bind, ofTokensFrom_leftParen, houtcome _ _ _ hnegates hkept,
      houtcome _ _ _ hopen (kept_group stack), ofTokensFrom_factorial hkept, ofTokensFrom_rightParen_factorial hkept]

/-- Inside of a call, the negation of another call, with an operator in front of its minus. -/
theorem ofTokens_negated_factorial_call :
    ((∀ t ∈ [Token.identifier "sqrt", .leftParen].getLast?, t = .leftParen ∨ t = .comma) ∧
      Balanced ([.number Double.pi, .operator .mul] ++ [.operator .sub] ++
        [.identifier "abs", .leftParen, .number Double.pi, .rightParen]) ∧
      (∀ t ∈ [Token.number Double.pi, .operator .mul].getLast?, ∃ op, t = .operator op) ∧
      Primary [.identifier "abs", .leftParen, .number Double.pi, .rightParen]) ∧
    ofTokens [.identifier "sqrt", .leftParen, .number Double.pi, .operator .mul, .operator .sub, .identifier "abs",
        .leftParen, .number Double.pi, .rightParen, .factorial, .rightParen] =
      ofTokens [.identifier "sqrt", .leftParen, .leftParen, .number Double.pi, .operator .mul, .operator .sub,
        .identifier "abs", .leftParen, .number Double.pi, .rightParen, .rightParen, .factorial, .rightParen] ∧
    ofTokens [.identifier "sqrt", .leftParen, .number Double.pi, .operator .mul, .operator .sub, .identifier "abs",
        .leftParen, .number Double.pi, .rightParen, .factorial, .rightParen] =
      .ok [.push Double.pi, .push (Double.ofNat 0), .operate .mul, .push Double.pi, .call .abs, .operate .sub,
        .factorial, .call .sqrt] := by
  have hinside : Balanced [.number Double.pi] := by decide
  have hbalanced : Balanced ([.number Double.pi, .operator .mul] ++ [.operator .sub] ++
      [.identifier "abs", .leftParen, .number Double.pi, .rightParen]) := by decide
  have hbefore : ∀ t ∈ [Token.identifier "sqrt", .leftParen].getLast?, t = .leftParen ∨ t = .comma := by simp
  have hfront : ∀ t ∈ [Token.number Double.pi, .operator .mul].getLast?, ∃ op, t = .operator op := by simp
  have hoperand : Primary [.identifier "abs", .leftParen, .number Double.pi, .rightParen] := .call "abs" hinside
  exact ⟨⟨hbefore, hbalanced, hfront, hoperand⟩,
    ofTokens_negated_factorial hbefore hbalanced hfront hoperand [.rightParen], rfl⟩

end Program
end SciCalc
