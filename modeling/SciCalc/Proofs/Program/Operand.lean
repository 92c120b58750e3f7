/-
A group is an operand. Tokens that are a program by themselves are one in parentheses, too: what waits
below the parenthesis is neither read nor changed before it is closed (`step_under_group`), and when it
is closed everything above it is released, just as at the end of the tokens. So in any context a group
and a call do what a number does (`ofTokens_operand`).
-/
import SciCalc.Proofs.Program.Stack

namespace SciCalc.Program

open Pending (release)

variable {previous previous' next next' : Option Token} {stack stack' base below : List Pending}
  {t : Token} {ts rest : List Token} {p call : Program}

theorem group_mem_of_step (h : step previous next stack .rightParen = .ok (p, stack')) : .group ∈ stack := by
  obtain ⟨call, hclose, -⟩ := step_rightParen_eq_ok h
  have hmem : .group ∈ stack.dropWhile (· ≠ .group) := by
    rcases closeGroup_eq_ok hclose with ⟨f, hgroup, -⟩ | ⟨hgroup, -, -⟩
    · rw [hgroup]; exact List.mem_cons_self
    · rw [hgroup]; exact List.mem_cons_self
  exact (List.dropWhile_suffix _).subset hmem

theorem step_under_group (h : step previous next stack t = .ok (p, stack'))
    (hp : negatesAfter previous' = negatesAfter previous)
    (hn : next = some .leftParen → next' = some .leftParen) :
    step previous' next' (stack ++ .group :: base) t = .ok (p, stack' ++ .group :: base) := by
  have hclose : t = .rightParen → .group ∈ stack := fun ht => group_mem_of_step (ht ▸ h)
  have hstep : step previous' next' stack t = .ok (p, stack') := by
    rw [step_previous hp]
    by_cases hnext : next = some .leftParen
    · rw [hn hnext, ← hnext, h]
    · exact step_next h hnext
  rw [step_above (kept_group base) hclose, hstep]
  rfl

/-- **A run above a group**: what is below stays, and the same is added. -/
theorem read_under_group (h : read previous next stack ts = .ok (p, stack'))
    (hp : negatesAfter previous' = negatesAfter previous)
    (hn : next = some .leftParen → next' = some .leftParen) :
    read previous' next' (stack ++ .group :: base) ts = .ok (p, stack' ++ .group :: base) := by
  induction ts generalizing previous previous' stack p with
  | nil => cases h; rfl
  | cons t ts ih =>
    obtain ⟨added, between, q, hstep, hread, rfl⟩ := read_cons_eq_ok h
    have hnext : ts.head?.or next = some .leftParen → ts.head?.or next' = some .leftParen := by
      cases ts with
      | nil => exact hn
      | cons u ts => exact id
    simp only [read, step_under_group hstep hp hnext, ih hread rfl, Except.map]

theorem exists_read_of_ofTokensFrom (h : ofTokensFrom previous stack ts = .ok p) :
    ∃ q waiting, read previous none stack ts = .ok (q, waiting) ∧ .group ∉ waiting ∧
      p = q ++ waiting.filterMap Pending.instruction? := by
  rw [ofTokensFrom_eq_read] at h
  cases hread : read previous none stack ts with
  | error e => rw [hread] at h; cases h
  | ok r =>
    obtain ⟨q, waiting⟩ := r
    simp only [hread, finish] at h
    split at h
    · cases h
    · next hgroup => exact ⟨q, waiting, rfl, hgroup, (Except.ok.inj h).symm⟩

/-- **Tokens in parentheses** add what they add by themselves. -/
theorem ofTokensFrom_in_group (h : ofTokensFrom previous stack ts = .ok p)
    (hp : negatesAfter previous' = negatesAfter previous)
    (hc : closeGroup (.group :: base) = .ok (call, below)) :
    ofTokensFrom previous' (stack ++ .group :: base) (ts ++ .rightParen :: rest) =
      (ofTokensFrom (some .rightParen) below rest).map (p ++ call ++ ·) := by
  obtain ⟨q, waiting, hread, hgroup, rfl⟩ := exists_read_of_ofTokensFrom h
  have hunder : read previous' (some .rightParen) (stack ++ .group :: base) ts =
      .ok (q, waiting ++ .group :: base) := read_under_group hread hp nofun
  simp only [ofTokensFrom_append, List.head?_cons, hunder]
  rw [ofTokensFrom_rightParen hgroup hc, map_append_map]
  simp

/-- **Tokens up to a comma** add what they add by themselves, too, and the group stays open. -/
theorem ofTokensFrom_argument (h : ofTokens ts = .ok p) (hp : negatesAfter previous = true) :
    ofTokensFrom previous (.group :: base) (ts ++ .comma :: rest) =
      (ofTokensFrom (some .comma) (.group :: base) rest).map (p ++ ·) := by
  obtain ⟨q, waiting, hread, hgroup, rfl⟩ := exists_read_of_ofTokensFrom h
  have hunder : read previous (some .comma) ([] ++ .group :: base) ts =
      .ok (q, waiting ++ .group :: base) := read_under_group hread hp nofun
  rw [List.nil_append] at hunder
  simp only [ofTokensFrom_append, List.head?_cons, hunder]
  rw [ofTokensFrom_comma hgroup, map_append_map]

theorem ofTokensFrom_group (h : ofTokens ts = .ok p) (hs : ∀ f, stack.head? ≠ some (.call f)) :
    ofTokensFrom previous stack (.leftParen :: (ts ++ .rightParen :: rest)) =
      (ofTokensFrom (some .rightParen) stack rest).map (p ++ ·) := by
  have hin : ofTokensFrom (some .leftParen) ([] ++ .group :: stack) (ts ++ .rightParen :: rest) =
      (ofTokensFrom (some .rightParen) stack rest).map (p ++ [] ++ ·) :=
    ofTokensFrom_in_group h rfl (closeGroup_group hs)
  rw [List.append_nil] at hin
  rw [ofTokensFrom_leftParen]
  exact hin

theorem ofTokensFrom_call_group (h : ofTokens ts = .ok p) (f : Func) :
    ofTokensFrom previous stack (.identifier f.name :: .leftParen :: (ts ++ .rightParen :: rest)) =
      (ofTokensFrom (some .rightParen) stack rest).map (p ++ [.call f] ++ ·) := by
  have hc : closeGroup (.group :: .call f :: stack) = .ok ([.call f], stack) := rfl
  have hin : ofTokensFrom (some .leftParen) ([] ++ .group :: .call f :: stack)
      (ts ++ .rightParen :: rest) = _ := ofTokensFrom_in_group h rfl hc
  rw [ofTokensFrom_call]
  exact hin

/-- The place of an operand: what is in front of it adds a program and leaves a stack on which no
function waits, and what is behind it adds another. -/
theorem exists_place_of_number {before after : List Token} {x : Float}
    (h : ofTokens (before ++ .number x :: after) = .ok p) :
    ∃ q₁ q₂ stack, (∀ f, stack.head? ≠ some (.call f)) ∧
      ofTokensFrom (some .rightParen) stack after = .ok q₂ ∧
      ∀ us, ofTokens (before ++ us) = (ofTokensFrom before.getLast? stack us).map (q₁ ++ ·) := by
  rw [ofTokens, ofTokensFrom_append] at h
  cases hread : read none (some (.number x)) [] before with
  | error e => simp [hread] at h
  | ok r =>
    obtain ⟨q₁, stack⟩ := r
    simp only [List.head?_cons, hread] at h
    obtain ⟨q, hq, -⟩ := map_append_eq_ok.mp h
    obtain ⟨added, stack', q₂, hstep, hq₂, -⟩ := ofTokensFrom_cons_eq_ok hq
    cases hstep
    have ho : Ordered (some (.number x)) stack := read_ordered hread (ordered_nil _)
    have hcall : ∀ f, stack.head? ≠ some (.call f) := ho.head?_ne_call nofun
    refine ⟨q₁, q₂, stack, hcall, ?_, fun us => ?_⟩
    · have hprevious : negatesAfter (some .rightParen) = negatesAfter (some (.number x)) := rfl
      rw [ofTokensFrom_previous hprevious, hq₂]
    · rw [ofTokens, ofTokensFrom_append, read_next hread nofun]
      simp

/-- **A group or a call is an operand in every context** that has a program with a number in its place:
the context adds the same around each of them, and what each adds itself does not depend on the
context. -/
theorem ofTokens_operand {before after : List Token}
    (h : ∃ x p, ofTokens (before ++ .number x :: after) = .ok p) :
    ∃ q₁ q₂ : Program,
      (∀ x, ofTokens (before ++ .number x :: after) = .ok (q₁ ++ [.push x] ++ q₂)) ∧
      ∀ ts p, ofTokens ts = .ok p →
        ofTokens (before ++ .leftParen :: (ts ++ .rightParen :: after)) = .ok (q₁ ++ p ++ q₂) ∧
        ∀ f : Func,
          ofTokens (before ++ .identifier f.name :: .leftParen :: (ts ++ .rightParen :: after)) =
            .ok (q₁ ++ (p ++ [.call f]) ++ q₂) := by
  obtain ⟨x, p, hx⟩ := h
  obtain ⟨q₁, q₂, stack, hcall, hafter, hbefore⟩ := exists_place_of_number hx
  -- an operand in the place adds its own program between the two
  have hplace : ∀ us q, ofTokensFrom before.getLast? stack us =
      (ofTokensFrom (some .rightParen) stack after).map (q ++ ·) →
      ofTokens (before ++ us) = .ok (q₁ ++ q ++ q₂) := by
    intro us q hus
    rw [hbefore, hus, hafter, map_append_map]
    rfl
  refine ⟨q₁, q₂, fun x => hplace _ _ ?_, fun ts p hts => ⟨hplace _ _ ?_, fun f => hplace _ _ ?_⟩⟩
  · have hprevious : negatesAfter (some (.number x)) = negatesAfter (some .rightParen) := rfl
    have hnumber : ofTokensFrom before.getLast? stack (.number x :: after) =
        (ofTokensFrom (some (.number x)) stack after).map ([.push x] ++ ·) := ofTokensFrom_cons rfl
    rw [hnumber, ofTokensFrom_previous hprevious]
  · exact ofTokensFrom_group hts hcall
  · exact ofTokensFrom_call_group hts f

/-- Between a minus that negates and a factorial, which takes the negative. -/
theorem ofTokens_operand_negated :
    (∃ x p, ofTokens [.operator .sub, .number x, .factorial] = .ok p) ∧
      ∃ q₁ q₂ : Program,
        (∀ x, ofTokens [.operator .sub, .number x, .factorial] = .ok (q₁ ++ [.push x] ++ q₂)) ∧
        ∀ ts p, ofTokens ts = .ok p →
          ofTokens (.operator .sub :: .leftParen :: (ts ++ [.rightParen, .factorial])) =
            .ok (q₁ ++ p ++ q₂) ∧
          ∀ f : Func,
            ofTokens (.operator .sub :: .identifier f.name :: .leftParen ::
              (ts ++ [.rightParen, .factorial])) = .ok (q₁ ++ (p ++ [.call f]) ++ q₂) := by
  have h : ∃ x p, ofTokens ([Token.operator .sub] ++ .number x :: [Token.factorial]) = .ok p :=
    ⟨Double.pi, _, rfl⟩
  exact ⟨h, ofTokens_operand h⟩

end SciCalc.Program
