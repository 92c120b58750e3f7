/-
A call has a value with one argument only (`run_arguments`). Several arguments with commas between them are
read like the only one, each by itself; but each leaves a number on the stack, and there is nothing behind
them that takes the surplus. So it is there at the end of the run, which then has more than one number left.
-/
import SciCalc.Proofs.Program.Depth
import SciCalc.Proofs.Program.Operand

namespace SciCalc.Program

variable {previous : Option Token} {base below : List Pending} {before after rest ts : List Token}
  {arguments : List (List Token)} {call : Program} {v : Float}

/-- Whether tokens are a program with a value. -/
def HasValue (ts : List Token) : Prop := ∃ p mode x, ofTokens ts = .ok p ∧ p.run mode = .ok x

/-- What stands in front of arguments: a parenthesis, and in front of it perhaps the name of a function. -/
def opening : Option Func → List Token
  | none => [.leftParen]
  | some f => [.identifier f.name, .leftParen]

/-- **Arguments** are read one after the other, and each leaves a number. -/
theorem exists_ofTokensFrom_arguments (hne : arguments ≠ []) (harguments : ∀ ts ∈ arguments, HasValue ts)
    (hp : negatesAfter previous = true) (hc : closeGroup (.group :: base) = .ok (call, below))
    (rest : List Token) :
    ∃ p : Program, p.Leaves arguments.length ∧
      ofTokensFrom previous (.group :: base) ([Token.comma].intercalate arguments ++ .rightParen :: rest) =
        (ofTokensFrom (some .rightParen) below rest).map (p ++ call ++ ·) := by
  induction arguments generalizing previous with
  | nil => exact absurd rfl hne
  | cons ts arguments ih =>
    obtain ⟨p, mode, x, hprogram, hrun⟩ := harguments ts List.mem_cons_self
    cases arguments with
    | nil =>
      have hin : ofTokensFrom previous ([] ++ .group :: base) (ts ++ .rightParen :: rest) =
          (ofTokensFrom (some .rightParen) below rest).map (p ++ call ++ ·) :=
        ofTokensFrom_in_group hprogram hp hc
      refine ⟨p, leaves_of_run hrun, ?_⟩
      rw [List.intercalate_singleton]
      exact hin
    | cons us arguments =>
      have hcomma : negatesAfter (some .comma) = true := rfl
      obtain ⟨q, hq, hothers⟩ :=
        ih (List.cons_ne_nil _ _) (fun vs hvs => harguments vs (List.mem_cons_of_mem _ hvs)) hcomma
      refine ⟨p ++ q, ?_, ?_⟩
      · have hleaves := (leaves_of_run hrun).append hq
        rwa [Nat.add_comm] at hleaves
      · have htokens : [Token.comma].intercalate (ts :: us :: arguments) ++ .rightParen :: rest =
            ts ++ .comma :: ([Token.comma].intercalate (us :: arguments) ++ .rightParen :: rest) := by
          rw [List.intercalate_cons_cons]
          simp
        rw [htokens, ofTokensFrom_argument hprogram hp, hothers, map_append_map]
        simp

theorem exists_ofTokensFrom_opening (hne : arguments ≠ []) (harguments : ∀ ts ∈ arguments, HasValue ts)
    (hs : ∀ f, base.head? ≠ some (.call f)) (callee : Option Func) (previous : Option Token)
    (rest : List Token) :
    ∃ p : Program, p.Leaves arguments.length ∧
      ofTokensFrom previous base
          (opening callee ++ ([Token.comma].intercalate arguments ++ .rightParen :: rest)) =
        (ofTokensFrom (some .rightParen) base rest).map (p ++ ·) := by
  have hopen : negatesAfter (some .leftParen) = true := rfl
  cases callee with
  | none =>
    obtain ⟨p, hp, htokens⟩ :=
      exists_ofTokensFrom_arguments hne harguments hopen (closeGroup_group hs) rest
    refine ⟨p, hp, ?_⟩
    rw [List.append_nil] at htokens
    rw [opening, List.singleton_append, ofTokensFrom_leftParen, htokens]
  | some f =>
    have hc : closeGroup (.group :: .call f :: base) = .ok ([.call f], base) := rfl
    obtain ⟨p, hp, htokens⟩ := exists_ofTokensFrom_arguments hne harguments hopen hc rest
    have hlength : arguments.length ≠ 0 := by simpa using hne
    refine ⟨p ++ [.call f], hp.call hlength f, ?_⟩
    rw [opening, List.cons_append, List.singleton_append, ofTokensFrom_call, htokens]

/-- **A call has a value with one argument only**, and so has a group, in every context where a number has one. With
more of them the run ends with more than one number, in either angle mode. -/
theorem run_arguments (hcontext : HasValue (before ++ .number v :: after)) (hne : arguments ≠ [])
    (harguments : ∀ ts ∈ arguments, HasValue ts) (callee : Option Func) :
    ∃ p, ofTokens (before ++ (opening callee ++ ([Token.comma].intercalate arguments ++ .rightParen :: after))) =
        .ok p ∧
      (2 ≤ arguments.length → ∀ mode, p.run mode = .error .notOneValue) ∧
      (arguments.length = 1 → ∀ mode, ∃ x, p.run mode = .ok x) := by
  obtain ⟨p, mode, x, hp, hrun⟩ := hcontext
  obtain ⟨q₁, q₂, stack, hcall, hafter, hbefore⟩ := exists_place_of_number hp
  have hnumber : Leaves (q₁ ++ [.push v] ++ q₂) 1 := by
    have hprogram := hbefore (.number v :: after)
    rw [ofTokensFrom_number, hafter, hp] at hprogram
    have hp' : p = q₁ ++ ([.push v] ++ q₂) := Except.ok.inj hprogram
    rw [List.append_assoc, ← hp']
    exact leaves_of_run hrun
  obtain ⟨q, hq, htokens⟩ :=
    exists_ofTokensFrom_opening hne harguments hcall callee before.getLast? after
  have hprogram : ofTokens (before ++ (opening callee ++
      ([Token.comma].intercalate arguments ++ .rightParen :: after))) = .ok (q₁ ++ (q ++ q₂)) := by
    rw [hbefore, htokens, hafter]
    rfl
  -- the first argument is in the place of the number, and the others are what is left too much
  obtain ⟨extra, hextra⟩ : ∃ extra, arguments.length = extra + 1 :=
    Nat.exists_eq_succ_of_ne_zero (by simpa using hne)
  rw [hextra] at hq ⊢
  have hleaves : Leaves (q₁ ++ (q ++ q₂)) (1 + extra) := by
    rw [← List.append_assoc]
    exact hnumber.replace hq
  refine ⟨_, hprogram, fun hle mode => ?_, fun hone mode => ?_⟩
  · exact (hleaves.run_eq mode).2 (by omega)
  · exact (hleaves.run_eq mode).1 (by omega)

/-- The factorial of the negative of a call with two arguments. -/
theorem run_arguments_abs :
    (HasValue ([.operator .sub] ++ .number Double.pi :: [.factorial]) ∧
      ∀ ts ∈ [[.number Double.pi], [.operator .sub, .number Double.pi]], HasValue ts) ∧
    ∃ p, ofTokens [.operator .sub, .identifier "abs", .leftParen, .number Double.pi, .comma, .operator .sub,
        .number Double.pi, .rightParen, .factorial] = .ok p ∧
      ∀ mode, p.run mode = .error .notOneValue := by
  have hcontext : HasValue ([.operator .sub] ++ .number Double.pi :: [.factorial]) :=
    ⟨_, .degrees, _, rfl, rfl⟩
  have harguments : ∀ ts ∈ [[.number Double.pi], [.operator .sub, .number Double.pi]], HasValue ts := by
    intro ts hts
    rcases List.mem_pair.mp hts with rfl | rfl
    · exact ⟨_, .degrees, _, rfl, rfl⟩
    · exact ⟨_, .degrees, _, rfl, rfl⟩
  obtain ⟨p, hp, herror, -⟩ := run_arguments hcontext (List.cons_ne_nil _ _) harguments (some .abs)
  exact ⟨⟨hcontext, harguments⟩, p, hp, herror (Nat.le_refl 2)⟩

end SciCalc.Program
