/-
Which tokens are a program, and what is wrong with the others (`ofTokens_offence`). Only names and
closing parentheses can offend. The error is that of the first token that does; where none does, it is
that a parenthesis is left open.

The parentheses that are open are never counted in a run. They are the groups that wait, among operators,
negations and functions, and each step keeps the two numbers equal (`step_depth`).
-/
import Mathlib.Data.Nat.Find
import SciCalc.Proofs.Program.Stack

namespace SciCalc.Program

open Pending (release)

variable {previous next : Option Token} {stack stack' : List Pending} {t : Token}
  {ts done before : List Token} {p : Program} {e : ParseError}

/-- Whether a token is an error where it stands, with the tokens in front of it and the one behind. -/
inductive Offends (before : List Token) (next : Option Token) : Token → ParseError → Prop where
  | notCalled {name : String} (h : next ≠ some .leftParen) :
      Offends before next (.identifier name) (.unknownIdentifier name)
  | noFunction {name : String} (h : next = some .leftParen) (hname : ∀ f : Func, f.name ≠ name) :
      Offends before next (.identifier name) (.unknownFunction name)
  | notOpened (h : before.count .leftParen ≤ before.count .rightParen) :
      Offends before next .rightParen .mismatchedParentheses

/-- Whether an offence stands at a place of the tokens, which is told by the number of them in front. -/
def OffenceAt (ts : List Token) (place : Nat) (e : ParseError) : Prop :=
  ∃ before t after, ts = before ++ t :: after ∧ before.length = place ∧ Offends before after.head? t e

/-- Whether an offence has none in front of it. -/
def FirstOffence (ts : List Token) (e : ParseError) : Prop :=
  ∃ place, OffenceAt ts place e ∧ ∀ earlier < place, ∀ e', ¬ OffenceAt ts earlier e'

/-- Whether all names are called and are names of functions, and all parentheses match. -/
structure WellFormed (ts : List Token) : Prop where
  called : ∀ before name after, ts = before ++ .identifier name :: after →
    after.head? = some .leftParen ∧ ∃ f : Func, f.name = name
  opened : ∀ before, before <+: ts → before.count .rightParen ≤ before.count .leftParen
  closed : ts.count .rightParen = ts.count .leftParen

/-! ## Open parentheses -/

/-- As many groups wait as parentheses are open. -/
def Depth (done : List Token) (stack : List Pending) : Prop :=
  stack.count .group + done.count .rightParen = done.count .leftParen

theorem depth_nil : Depth [] [] := rfl

theorem count_group_dropWhile {condition : Pending → Bool} (h : condition .group = false) :
    (stack.dropWhile condition).count .group = stack.count .group := by
  induction stack with
  | nil => rfl
  | cons top stack ih =>
    by_cases htop : condition top = true
    · have hne : top ≠ .group := by
        rintro rfl
        rw [h] at htop
        cases htop
      rw [List.dropWhile_cons_of_pos htop, ih, List.count_cons_of_ne hne]
    · rw [List.dropWhile_cons_of_neg htop]

theorem closeGroup_eq_error_iff :
    closeGroup (stack.dropWhile (· ≠ .group)) = .error e ↔
      .group ∉ stack ∧ e = .mismatchedParentheses := by
  cases hdrop : stack.dropWhile (· ≠ .group) with
  | nil =>
    have hnot : .group ∉ stack := fun hmem => by
      have hall := List.dropWhile_eq_nil_iff.mp hdrop _ hmem
      simp at hall
    simp [closeGroup, hnot, eq_comm]
  | cons top below =>
    have htop : decide (top ≠ .group) = false := not_of_mem_head?_dropWhile (by rw [hdrop]; rfl)
    obtain rfl : top = .group := by simpa using htop
    have hmem : .group ∈ stack := (List.dropWhile_suffix _).subset (hdrop ▸ List.mem_cons_self)
    have hclose : ∃ r, closeGroup (.group :: below) = .ok r := by
      unfold closeGroup
      split
      · exact ⟨_, rfl⟩
      · exact ⟨_, rfl⟩
      · next hne => exact absurd rfl (hne below)
    obtain ⟨r, hr⟩ := hclose
    simp [hr, hmem]

/-- **One step** keeps the depth. -/
theorem step_depth (hd : Depth done stack) (h : step previous next stack t = .ok (p, stack')) :
    Depth (done ++ [t]) stack' := by
  unfold Depth at hd ⊢
  rw [List.count_append, List.count_append]
  cases t with
  | number x => cases h; simpa using hd
  | identifier name =>
    simp only [step] at h
    split at h
    · split at h
      · cases h; simpa using hd
      · cases h
    · cases h
  | leftParen =>
    cases h
    simp
    omega
  | rightParen =>
    obtain ⟨call, hclose, -⟩ := step_rightParen_eq_ok h
    have hcount : (stack.dropWhile (· ≠ .group)).count .group = stack.count .group :=
      count_group_dropWhile (by simp)
    rcases closeGroup_eq_ok hclose with ⟨f, hgroup, -⟩ | ⟨hgroup, -, -⟩
    · rw [hgroup] at hcount
      simp at hcount ⊢
      omega
    · rw [hgroup] at hcount
      simp at hcount ⊢
      omega
  | comma =>
    cases h
    have hcount : (stack.dropWhile (· ≠ .group)).count .group = stack.count .group :=
      count_group_dropWhile (by simp)
    simp only [decide_not] at hcount
    simpa [hcount] using hd
  | factorial =>
    cases h
    have hcount : (stack.dropWhile (· = .negation)).count .group = stack.count .group :=
      count_group_dropWhile (by simp)
    simpa [hcount] using hd
  | operator op =>
    have hcount : (stack.dropWhile (Pending.goesBefore op)).count .group = stack.count .group :=
      count_group_dropWhile rfl
    simp only [step, release] at h
    split at h
    · cases h; simpa [hcount] using hd
    · cases h; simpa [hcount] using hd

/-- **One step** fails just on an offence. -/
theorem step_eq_error_iff (hd : Depth done stack) :
    step previous next stack t = .error e ↔ Offends done next t e := by
  cases t with
  | identifier name =>
    simp only [step]
    split
    · next hnext =>
      split
      · next f hf =>
        have hname : f.name = name := Func.name_of_ofName? hf
        refine ⟨fun h => (by cases h), fun h => ?_⟩
        cases h with
        | notCalled hne => exact absurd hnext hne
        | noFunction _ hnot => exact absurd hname (hnot f)
      · next hf =>
        have hnot : ∀ f : Func, f.name ≠ name := by
          rintro f rfl
          rw [Func.ofName?_name] at hf
          cases hf
        constructor
        · rintro ⟨⟩
          exact .noFunction hnext hnot
        · intro h
          cases h with
          | notCalled hne => exact absurd hnext hne
          | noFunction => rfl
    · next hnext =>
      constructor
      · rintro ⟨⟩
        exact .notCalled hnext
      · intro h
        cases h with
        | notCalled => rfl
        | noFunction h => exact absurd h hnext
  | rightParen =>
    have hmem : .group ∉ stack ↔ done.count .leftParen ≤ done.count .rightParen := by
      unfold Depth at hd
      rw [← List.count_eq_zero]
      omega
    have hstep : step previous next stack .rightParen = .error e ↔
        closeGroup (stack.dropWhile (· ≠ .group)) = .error e := by
      simp only [step, release]
      cases closeGroup (stack.dropWhile (· ≠ .group)) <;> simp [Except.map]
    rw [hstep, closeGroup_eq_error_iff, hmem]
    constructor
    · rintro ⟨hle, rfl⟩
      exact .notOpened hle
    · intro h
      cases h with
      | notOpened hle => exact ⟨hle, rfl⟩
  | operator op =>
    refine ⟨fun h => ?_, fun h => by cases h⟩
    simp only [step] at h
    split at h <;> cases h
  | _ => constructor <;> intro h <;> cases h

/-! ## Runs -/

/-- **A run** keeps the depth. -/
theorem read_depth (h : read previous next stack ts = .ok (p, stack')) (hd : Depth done stack) :
    Depth (done ++ ts) stack' := by
  induction ts generalizing previous stack done p with
  | nil =>
    cases h
    rwa [List.append_nil]
  | cons t ts ih =>
    obtain ⟨added, between, q, hstep, hread, -⟩ := read_cons_eq_ok h
    rw [List.append_cons]
    exact ih hread (step_depth hd hstep)

/-- **A run** over tokens of which none offends succeeds, and keeps the depth. -/
theorem exists_read (previous : Option Token) (hd : Depth done stack)
    (h : ∀ before t after e, ts = before ++ t :: after →
      ¬ Offends (done ++ before) (after.head?.or next) t e) :
    ∃ p stack', read previous next stack ts = .ok (p, stack') ∧ Depth (done ++ ts) stack' := by
  induction ts generalizing previous stack done with
  | nil => exact ⟨[], stack, rfl, by simpa using hd⟩
  | cons t ts ih =>
    cases hstep : step previous (ts.head?.or next) stack t with
    | error e =>
      have hoffends := (step_eq_error_iff hd).mp hstep
      exact absurd (by simpa using hoffends) (h [] t ts e rfl)
    | ok r =>
      obtain ⟨added, between⟩ := r
      have hrest : ∀ before u after e, ts = before ++ u :: after →
          ¬ Offends (done ++ [t] ++ before) (after.head?.or next) u e := by
        intro before u after e hts
        have hnot := h (t :: before) u after e (by rw [hts, List.cons_append])
        rwa [List.append_assoc]
      obtain ⟨p, stack', hread, hd'⟩ := ih (some t) (step_depth hd hstep) hrest
      refine ⟨added ++ p, stack', ?_, by simpa using hd'⟩
      simp only [read, hstep, hread, Except.map]

theorem exists_first (ts : List Token) :
    (∀ place e, ¬ OffenceAt ts place e) ∨ ∃ e, FirstOffence ts e := by
  classical
  by_cases h : ∃ place e, OffenceAt ts place e
  · obtain ⟨e, he⟩ := Nat.find_spec h
    exact .inr ⟨e, Nat.find h, he, fun earlier hlt e' hat => Nat.find_min h hlt ⟨e', hat⟩⟩
  · exact .inl fun place e hat => h ⟨place, e, hat⟩

theorem ofTokens_of_first (h : FirstOffence ts e) : ofTokens ts = .error e := by
  obtain ⟨_, ⟨before, t, after, rfl, rfl, hoffends⟩, hfirst⟩ := h
  have hbefore : ∀ b u a e', before = b ++ u :: a → ¬ Offends ([] ++ b) (a.head?.or (some t)) u e' := by
    intro b u a e' hb hoffends'
    refine hfirst b.length (by simp [hb]) e' ⟨b, u, a ++ t :: after, by simp [hb], rfl, ?_⟩
    rwa [List.head?_append, List.head?_cons]
  obtain ⟨p, stack, hread, hd⟩ := exists_read none depth_nil hbefore
  have hstep : step (before.getLast?.or none) after.head? stack t = .error e :=
    (step_eq_error_iff hd).mpr (by simpa using hoffends)
  simp only [ofTokens, ofTokensFrom_append, List.head?_cons, hread, ofTokensFrom, hstep, Except.map]

theorem ofTokens_of_forall (h : ∀ place e, ¬ OffenceAt ts place e) :
    ts.count .rightParen ≤ ts.count .leftParen ∧
      (ts.count .rightParen < ts.count .leftParen → ofTokens ts = .error .mismatchedParentheses) ∧
      (ts.count .rightParen = ts.count .leftParen → ∃ p, ofTokens ts = .ok p) := by
  have hnone : ∀ before t after e, ts = before ++ t :: after →
      ¬ Offends ([] ++ before) (after.head?.or none) t e := by
    intro before t after e hts hoffends
    exact h before.length e ⟨before, t, after, hts, rfl, by simpa using hoffends⟩
  obtain ⟨p, stack, hread, hd⟩ := exists_read none depth_nil hnone
  have hprogram : ofTokens ts = (finish stack).map (p ++ ·) := by
    simp only [ofTokens, ofTokensFrom_eq_read, hread]
  have hgroup : .group ∈ stack ↔ 0 < stack.count .group := List.count_pos_iff.symm
  unfold Depth at hd
  rw [List.nil_append] at hd
  refine ⟨by omega, fun hlt => ?_, fun heq => ?_⟩
  · rw [hprogram, finish, if_pos (hgroup.mpr (by omega))]
    rfl
  · rw [hprogram, finish, if_neg (by rw [hgroup]; omega)]
    exact ⟨_, rfl⟩

/-! ## The exact answer -/

theorem wellFormed_iff :
    WellFormed ts ↔
      (∀ place e, ¬ OffenceAt ts place e) ∧ ts.count .rightParen = ts.count .leftParen := by
  constructor
  · refine fun h => ⟨?_, h.closed⟩
    rintro place e ⟨before, t, after, rfl, -, hoffends⟩
    cases hoffends with
    | notCalled hne => exact hne (h.called _ _ _ rfl).1
    | noFunction _ hnot =>
      obtain ⟨f, hf⟩ := (h.called _ _ _ rfl).2
      exact hnot f hf
    | notOpened hle =>
      have hprefix := h.opened (before ++ [.rightParen]) ⟨after, by simp⟩
      simp at hprefix
      omega
  · rintro ⟨h, hclosed⟩
    refine ⟨?_, ?_, hclosed⟩
    · intro before name after hts
      have hcalled : after.head? = some .leftParen := by
        by_contra hne
        exact h _ _ ⟨before, _, after, hts, rfl, .notCalled hne⟩
      refine ⟨hcalled, ?_⟩
      by_contra hnot
      exact h _ _ ⟨before, _, after, hts, rfl, .noFunction hcalled fun f hf => hnot ⟨f, hf⟩⟩
    · rintro before ⟨after, rfl⟩
      have hnone : ∀ b t a e, before = b ++ t :: a → ¬ Offends ([] ++ b) (a.head?.or after.head?) t e := by
        intro b t a e hb hoffends
        refine h b.length e ⟨b, t, a ++ after, by simp [hb], rfl, ?_⟩
        rwa [List.head?_append]
      obtain ⟨p, stack, -, hd⟩ := exists_read none depth_nil hnone
      unfold Depth at hd
      rw [List.nil_append] at hd
      omega

/-- **The exact answer of the parser.** Tokens are a program just if all names are called and known, and
all parentheses match. Otherwise the error is that of the first token that offends; and where none does,
a parenthesis is left open. What offends is a name or a closing parenthesis. -/
theorem ofTokens_offence (ts : List Token) :
    ((∃ p, ofTokens ts = .ok p) ↔ WellFormed ts) ∧
    (∀ e, ofTokens ts = .error e ↔ FirstOffence ts e ∨
      ((∀ place e', ¬ OffenceAt ts place e') ∧ ts.count .rightParen < ts.count .leftParen ∧
        e = .mismatchedParentheses)) ∧
    ∀ place e, OffenceAt ts place e →
      ts[place]? = some .rightParen ∨ ∃ name, ts[place]? = some (.identifier name) := by
  refine ⟨?_, fun e => ⟨fun he => ?_, ?_⟩, ?_⟩
  · rw [wellFormed_iff]
    refine ⟨?_, fun h => (ofTokens_of_forall h.1).2.2 h.2⟩
    rintro ⟨p, hp⟩
    rcases exists_first ts with hnone | ⟨e, hfirst⟩
    · obtain ⟨hle, hopen, -⟩ := ofTokens_of_forall hnone
      rcases Nat.lt_or_eq_of_le hle with hlt | heq
      · rw [hopen hlt] at hp
        cases hp
      · exact ⟨hnone, heq⟩
    · rw [ofTokens_of_first hfirst] at hp
      cases hp
  · rcases exists_first ts with hnone | ⟨e', hfirst⟩
    · obtain ⟨hle, hopen, hclosed⟩ := ofTokens_of_forall hnone
      rcases Nat.lt_or_eq_of_le hle with hlt | heq
      · rw [hopen hlt] at he
        cases he
        exact .inr ⟨hnone, hlt, rfl⟩
      · obtain ⟨p, hp⟩ := hclosed heq
        rw [hp] at he
        cases he
    · rw [ofTokens_of_first hfirst] at he
      cases he
      exact .inl hfirst
  · rintro (hfirst | ⟨hnone, hlt, rfl⟩)
    · exact ofTokens_of_first hfirst
    · exact (ofTokens_of_forall hnone).2.1 hlt
  · rintro _ e ⟨before, t, after, rfl, rfl, hoffends⟩
    cases hoffends <;> simp

end SciCalc.Program
