/-
Reading tokens piece by piece. `read` is what `ofTokensFrom` does with tokens that others follow: it
gives what they add to the program and what waits after them, and `ofTokensFrom_append` puts two
pieces together.

Of the tokens around a piece little matters. The one in front tells whether a minus negates, and all
tokens that an operand can end with tell the same (`ofTokensFrom_previous`); the one behind tells
whether a name is called, so that a piece that is read with no parenthesis behind it is read alike
whatever follows (`read_next`).
-/
import Mathlib.Data.List.TakeWhile
import SciCalc.Program.OfTokens

namespace SciCalc.Program

open Pending (release)

variable {previous previous' next next' : Option Token} {stack stack' : List Pending} {t : Token}
  {ts us : List Token} {p q : Program}

/-- What tokens add to the program, and what waits after them. The token in front of them is
`previous`, the one behind them `next`. -/
def read (previous next : Option Token) (stack : List Pending) :
    List Token → Except ParseError (Program × List Pending)
  | [] => .ok ([], stack)
  | t :: ts =>
    match step previous (ts.head?.or next) stack t with
    | .ok (added, stack) =>
      (read (some t) next stack ts).map fun (rest, stack) => (added ++ rest, stack)
    | .error e => .error e

theorem map_append_map (p q : Program) (x : Except ParseError Program) :
    (x.map (q ++ ·)).map (p ++ ·) = x.map (p ++ q ++ ·) := by
  cases x with
  | error e => rfl
  | ok r => simp [Except.map]

theorem map_nil_append (x : Except ParseError Program) : x.map ([] ++ ·) = x := by
  cases x <;> rfl

theorem map_append_eq_ok {x : Except ParseError Program} {r : Program} :
    x.map (p ++ ·) = .ok r ↔ ∃ q, x = .ok q ∧ r = p ++ q := by
  cases x with
  | error e => simp [Except.map]
  | ok q => simp [Except.map, eq_comm]

/-! ## One token -/

theorem ofTokensFrom_cons {added : Program} (h : step previous ts.head? stack t = .ok (added, stack')) :
    ofTokensFrom previous stack (t :: ts) = (ofTokensFrom (some t) stack' ts).map (added ++ ·) := by
  simp only [ofTokensFrom, h]

theorem ofTokensFrom_cons_eq_ok (h : ofTokensFrom previous stack (t :: ts) = .ok p) :
    ∃ added stack' q, step previous ts.head? stack t = .ok (added, stack') ∧
      ofTokensFrom (some t) stack' ts = .ok q ∧ p = added ++ q := by
  simp only [ofTokensFrom] at h
  split at h
  · next added stack' hstep =>
    obtain ⟨q, hq, rfl⟩ := map_append_eq_ok.mp h
    exact ⟨added, stack', q, hstep, hq, rfl⟩
  · cases h

/-- Of the token in front, a step asks only whether a minus negates after it, and of the one behind, whether
it is a parenthesis. -/
theorem step_congr (hp : negatesAfter previous = negatesAfter previous')
    (hn : next = some .leftParen ↔ next' = some .leftParen) :
    step previous next stack t = step previous' next' stack t := by
  cases t <;> simp only [step, hp, hn]

theorem step_previous (h : negatesAfter previous = negatesAfter previous') :
    step previous next stack t = step previous' next stack t :=
  step_congr h Iff.rfl

theorem ofTokensFrom_previous (h : negatesAfter previous = negatesAfter previous') :
    ofTokensFrom previous stack ts = ofTokensFrom previous' stack ts := by
  cases ts with
  | nil => rfl
  | cons t ts => simp only [ofTokensFrom, step_previous h]

/-- A step that succeeds with no parenthesis behind its token is not that of a name, and so it does
not depend on what is there. -/
theorem step_next (h : step previous next stack t = .ok (p, stack')) (hn : next ≠ some .leftParen) :
    step previous next' stack t = .ok (p, stack') := by
  cases t with
  | identifier name => simp [step, hn] at h
  | _ => exact h

theorem step_behind (h : ∀ name, t ≠ .identifier name) :
    step previous next stack t = step previous next' stack t := by
  cases t with
  | identifier name => exact absurd rfl (h name)
  | _ => rfl

/-! ## What is released -/

theorem release_of_head {condition : Pending → Bool} (h : ∀ top ∈ stack.head?, condition top = false) :
    release condition stack = ([], stack) := by
  cases stack with
  | nil => rfl
  | cons top stack =>
    have htop : condition top = false := h top rfl
    simp [release, htop]

theorem release_cons {condition : Pending → Bool} {top : Pending} {i : Instruction}
    (h : condition top = true) (hi : top.instruction? = some i) :
    release condition (top :: stack) =
      (i :: (release condition stack).1, (release condition stack).2) := by
  simp [release, h, hi]

theorem release_eq_of_forall {condition : Pending → Bool} (h : ∀ entry ∈ stack, condition entry = true) :
    release condition stack = (stack.filterMap Pending.instruction?, []) := by
  simp only [release, List.takeWhile_eq_self_iff.mpr h, List.dropWhile_eq_nil_iff.mpr h]

theorem release_append {condition : Pending → Bool} {bottom : Pending} (hb : condition bottom = false) :
    release condition (stack ++ bottom :: stack') =
      ((release condition stack).1, (release condition stack).2 ++ bottom :: stack') := by
  induction stack with
  | nil => simp [release, hb]
  | cons top stack ih =>
    by_cases htop : condition top = true
    · simp only [release, Prod.mk.injEq] at ih
      simp [release, htop, List.filterMap_cons, ih]
    · simp [release, htop]

/-! ## Groups -/

theorem closeGroup_group (h : ∀ f, stack.head? ≠ some (.call f)) :
    closeGroup (.group :: stack) = .ok ([], stack) := by
  cases stack with
  | nil => rfl
  | cons top stack =>
    cases top with
    | call f => exact absurd rfl (h f)
    | _ => rfl

theorem closeGroup_eq_ok (h : closeGroup stack = .ok (p, stack')) :
    (∃ f, stack = .group :: .call f :: stack' ∧ p = [.call f]) ∨
      (stack = .group :: stack' ∧ p = [] ∧ ∀ f, stack'.head? ≠ some (.call f)) := by
  unfold closeGroup at h
  split at h
  · next f below => cases h; exact .inl ⟨f, rfl, rfl⟩
  · next below hcall =>
    cases h
    refine .inr ⟨rfl, rfl, fun f hf => ?_⟩
    obtain ⟨rest, rfl⟩ := List.head?_eq_some_iff.mp hf
    exact hcall f rest rfl
  · cases h

theorem step_rightParen_eq_ok (h : step previous next stack .rightParen = .ok (p, stack')) :
    ∃ call, closeGroup (stack.dropWhile (· ≠ .group)) = .ok (call, stack') ∧
      p = (release (· ≠ .group) stack).1 ++ call := by
  simp only [step, release] at h
  cases hc : closeGroup (stack.dropWhile (· ≠ .group)) with
  | error e => rw [hc] at h; cases h
  | ok r =>
    rw [hc] at h
    cases h
    exact ⟨r.1, rfl, rfl⟩

theorem ofTokensFrom_leftParen (previous : Option Token) (stack : List Pending) (ts : List Token) :
    ofTokensFrom previous stack (.leftParen :: ts) =
      ofTokensFrom (some .leftParen) (.group :: stack) ts := by
  have hstep : step previous ts.head? stack .leftParen = .ok ([], .group :: stack) := rfl
  rw [ofTokensFrom_cons hstep, map_nil_append]

theorem ofTokensFrom_call (previous : Option Token) (stack : List Pending) (f : Func) (ts : List Token) :
    ofTokensFrom previous stack (.identifier f.name :: .leftParen :: ts) =
      ofTokensFrom (some .leftParen) (.group :: .call f :: stack) ts := by
  have hstep : step previous (some .leftParen) stack (.identifier f.name) = .ok ([], .call f :: stack) := by
    simp [step]
  rw [ofTokensFrom_cons hstep, map_nil_append, ofTokensFrom_leftParen]

theorem release_group {waiting : List Pending} (hg : .group ∉ waiting) :
    release (· ≠ .group) (waiting ++ .group :: stack) =
      (waiting.filterMap Pending.instruction?, .group :: stack) := by
  have hall : ∀ entry ∈ waiting, decide (entry ≠ .group) = true := fun entry he =>
    decide_eq_true fun heq => hg (heq ▸ he)
  rw [release_append (by simp), release_eq_of_forall hall]
  rfl

theorem ofTokensFrom_rightParen {waiting : List Pending} (hg : .group ∉ waiting)
    (hc : closeGroup (.group :: stack) = .ok (p, stack')) :
    ofTokensFrom previous (waiting ++ .group :: stack) (.rightParen :: ts) =
      (ofTokensFrom (some .rightParen) stack' ts).map (waiting.filterMap Pending.instruction? ++ p ++ ·) := by
  refine ofTokensFrom_cons ?_
  simp only [step, release_group hg, hc, Except.map]

theorem ofTokensFrom_comma {waiting : List Pending} (hg : .group ∉ waiting) :
    ofTokensFrom previous (waiting ++ .group :: stack) (.comma :: ts) =
      (ofTokensFrom (some .comma) (.group :: stack) ts).map (waiting.filterMap Pending.instruction? ++ ·) := by
  refine ofTokensFrom_cons ?_
  simp only [step, release_group hg]

/-- A number. After it a minus means what it means after a group. -/
theorem ofTokensFrom_number (previous : Option Token) (stack : List Pending) (x : Float) (ts : List Token) :
    ofTokensFrom previous stack (.number x :: ts) =
      (ofTokensFrom (some .rightParen) stack ts).map ([.push x] ++ ·) := by
  have hcons : ofTokensFrom previous stack (.number x :: ts) =
      (ofTokensFrom (some (.number x)) stack ts).map ([.push x] ++ ·) := ofTokensFrom_cons rfl
  have hprevious : negatesAfter (some (.number x)) = negatesAfter (some .rightParen) := rfl
  rw [hcons, ofTokensFrom_previous hprevious]

/-! ## What is kept below -/

/-- Whether what waits below is out of reach: there is nothing, or there is a group on top of it. -/
def Kept (base : List Pending) : Prop := ∀ top ∈ base.head?, top = .group

theorem kept_nil : Kept [] := by simp [Kept]

theorem kept_group (base : List Pending) : Kept (.group :: base) := by simp [Kept]

theorem release_above {base : List Pending} (hb : Kept base) {condition : Pending → Bool}
    (hg : condition .group = false) :
    release condition (stack ++ base) =
      ((release condition stack).1, (release condition stack).2 ++ base) := by
  cases base with
  | nil => simp
  | cons top base =>
    obtain rfl : top = .group := hb top rfl
    exact release_append hg

theorem closeGroup_above {base : List Pending} (hb : Kept base) (hg : .group ∈ stack) :
    closeGroup (stack.dropWhile (· ≠ .group) ++ base) =
      (closeGroup (stack.dropWhile (· ≠ .group))).map fun (call, stack') => (call, stack' ++ base) := by
  induction stack with
  | nil => cases hg
  | cons top stack ih =>
    by_cases htop : top = .group
    · subst htop
      match stack with
      | [] => exact closeGroup_group fun f hf => by cases hb _ hf
      | .call f :: stack | .operator op :: stack | .negation :: stack | .group :: stack => simp; rfl
    · rw [List.dropWhile_cons_of_pos (by simpa using htop)]
      exact ih (List.mem_of_ne_of_mem (Ne.symm htop) hg)

/-- **One step** neither reads nor changes what is kept below, unless it closes a group of it. -/
theorem step_above {base : List Pending} (hb : Kept base) (hclose : t = .rightParen → .group ∈ stack) :
    step previous next (stack ++ base) t =
      (step previous next stack t).map fun (p, stack') => (p, stack' ++ base) := by
  cases t with
  | number x => rfl
  | leftParen => rfl
  | identifier name =>
    simp only [step]
    split
    · split <;> rfl
    · rfl
  | rightParen =>
    have hrelease : release (· ≠ .group) (stack ++ base) = _ := release_above hb (by simp)
    simp only [step, hrelease]
    simp only [release, closeGroup_above hb (hclose rfl)]
    cases closeGroup (stack.dropWhile (· ≠ .group)) <;> rfl
  | comma =>
    simp only [step]
    rw [release_above hb (by simp)]
    rfl
  | factorial =>
    simp only [step]
    rw [release_above hb (by simp)]
    rfl
  | operator op =>
    have hrelease : release (Pending.goesBefore op) (stack ++ base) = _ := release_above hb rfl
    simp only [step, hrelease]
    split <;> rfl

/-! ## Several tokens -/

theorem read_cons_eq_ok (h : read previous next stack (t :: ts) = .ok (p, stack')) :
    ∃ added between q, step previous (ts.head?.or next) stack t = .ok (added, between) ∧
      read (some t) next between ts = .ok (q, stack') ∧ p = added ++ q := by
  simp only [read] at h
  split at h
  · next added between hstep =>
    cases hread : read (some t) next between ts with
    | error e => simp [hread, Except.map] at h
    | ok r =>
      simp only [hread, Except.map, Except.ok.injEq, Prod.mk.injEq] at h
      obtain ⟨rfl, rfl⟩ := h
      exact ⟨added, between, r.1, hstep, hread, rfl⟩
  · cases h

theorem read_congr (hp : negatesAfter previous = negatesAfter previous')
    (hn : next = some .leftParen ↔ next' = some .leftParen) :
    read previous next stack ts = read previous' next' stack ts := by
  induction ts generalizing previous previous' stack with
  | nil => rfl
  | cons t ts ih =>
    have hnext : ts.head?.or next = some .leftParen ↔ ts.head?.or next' = some .leftParen := by
      cases ts with
      | nil => exact hn
      | cons u ts => rfl
    simp only [read, step_congr hp hnext, ih rfl]

theorem read_next (h : read previous next stack ts = .ok (p, stack')) (hn : next ≠ some .leftParen) :
    read previous next' stack ts = .ok (p, stack') := by
  induction ts generalizing previous stack p with
  | nil => exact h
  | cons t ts ih =>
    obtain ⟨added, between, q, hstep, hread, rfl⟩ := read_cons_eq_ok h
    have hstep' : step previous (ts.head?.or next') stack t = .ok (added, between) := by
      cases ts with
      | nil => exact step_next hstep hn
      | cons u ts => exact hstep
    simp only [read, hstep', ih hread, Except.map]

theorem getLast?_cons_or (t : Token) (ts : List Token) (previous : Option Token) :
    (t :: ts).getLast?.or previous = ts.getLast?.or (some t) := by
  cases ts <;> simp [List.getLast?_cons]

theorem read_append_eq_ok (h : read previous next stack (ts ++ us) = .ok (p, stack')) :
    ∃ q between r, read previous (us.head?.or next) stack ts = .ok (q, between) ∧
      read (ts.getLast?.or previous) next between us = .ok (r, stack') ∧ p = q ++ r := by
  induction ts generalizing previous stack p with
  | nil => exact ⟨[], stack, p, rfl, h, rfl⟩
  | cons t ts ih =>
    rw [List.cons_append] at h
    obtain ⟨added, first, rest, hstep, hread, rfl⟩ := read_cons_eq_ok h
    obtain ⟨q, between, r, hts, hus, rfl⟩ := ih hread
    rw [List.head?_append, Option.or_assoc] at hstep
    refine ⟨added ++ q, between, r, ?_, ?_, by rw [List.append_assoc]⟩
    · simp only [read, hstep, hts, Except.map]
    · rwa [getLast?_cons_or]

/-- **Two pieces**: first the one is read, and then a program is made of the other. -/
theorem ofTokensFrom_append (previous : Option Token) (stack : List Pending) (ts us : List Token) :
    ofTokensFrom previous stack (ts ++ us) =
      match read previous us.head? stack ts with
      | .ok (p, stack') => (ofTokensFrom (ts.getLast?.or previous) stack' us).map (p ++ ·)
      | .error e => .error e := by
  induction ts generalizing previous stack with
  | nil => exact (map_nil_append _).symm
  | cons t ts ih =>
    simp only [List.cons_append, ofTokensFrom, List.head?_append, read, getLast?_cons_or]
    cases step previous (ts.head?.or us.head?) stack t with
    | error e => rfl
    | ok r =>
      simp only [ih]
      cases read (some t) us.head? r.2 ts with
      | error e => rfl
      | ok r' => exact map_append_map r.1 r'.1 _

/-- At the end there is no piece left, and what waits is released. -/
theorem ofTokensFrom_eq_read (previous : Option Token) (stack : List Pending) (ts : List Token) :
    ofTokensFrom previous stack ts =
      match read previous none stack ts with
      | .ok (p, waiting) => (finish waiting).map (p ++ ·)
      | .error e => .error e := by
  have happend := ofTokensFrom_append previous stack ts []
  rwa [List.append_nil] at happend

end SciCalc.Program
