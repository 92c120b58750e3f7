/-
The shape of what waits between two tokens (`ofTokens_shape`). A function is directly below the group of its
argument, unless it has only just been named. Operators and negations next to each other bind tighter from
the bottom to the top, where only powers are equal, and none of them but the lowest is a negation. The groups
are as many as the parentheses that are open.

So no function is released together with what waits around it: it is called just when the parenthesis of its
argument is closed. Which one that is, the tokens tell. They are balanced behind the last parenthesis that is
still open (`exists_unclosed`), and what waits below its group is what waited in front of it
(`read_unclosed`).
-/
import SciCalc.Proofs.Program.Negated

namespace SciCalc

/-- Whether an entry binds tighter than one below it, or both are powers. -/
def Pending.BindsOver (upper lower : Pending) : Prop :=
  (∃ a ∈ upper.precedence?, ∃ b ∈ lower.precedence?, b < a) ∨
    (upper = .operator .pow ∧ lower = .operator .pow)

/-- Whether entries are next to each other on a stack, and all of them operators or negations. There may be
more of these above and below. -/
def Pending.IsRun (run stack : List Pending) : Prop :=
  run <:+: stack ∧ ∀ entry ∈ run, entry.precedence?.isSome

/-- Behind the last parenthesis that is open, tokens are balanced: no shorter end of them opens more than it
closes. -/
theorem Token.exists_unclosed {ts : List Token}
    (h : ∃ rest, rest <:+ ts ∧ rest.count .rightParen < rest.count .leftParen) :
    ∃ before inside, ts = before ++ .leftParen :: inside ∧ Balanced inside := by
  induction ts with
  | nil =>
    obtain ⟨rest, hrest, hlt⟩ := h
    rw [List.suffix_nil.mp hrest] at hlt
    cases hlt
  | cons t ts ih =>
    by_cases hbehind : ∃ rest, rest <:+ ts ∧ rest.count .rightParen < rest.count .leftParen
    · obtain ⟨before, inside, rfl, hinside⟩ := ih hbehind
      exact ⟨t :: before, inside, rfl, hinside⟩
    · have hle : ∀ rest, rest <:+ ts → rest.count .leftParen ≤ rest.count .rightParen :=
        fun rest hrest => Nat.le_of_not_lt fun hlt => hbehind ⟨rest, hrest, hlt⟩
      obtain ⟨rest, hrest, hlt⟩ := h
      obtain rfl : rest = t :: ts := (List.suffix_cons_iff.mp hrest).resolve_right fun hsuffix =>
        Nat.not_lt.mpr (hle rest hsuffix) hlt
      have hts := hle ts (List.suffix_refl ts)
      have ht : t = .leftParen := by
        by_contra hne
        rw [List.count_cons_of_ne hne] at hlt
        have hcount := List.count_le_count_cons (a := Token.rightParen) (b := t) (l := ts)
        omega
      subst ht
      refine ⟨[], ts, rfl, ?_, ?_⟩
      · rintro front ⟨rest, rfl⟩
        have hfront := hle rest (List.suffix_append front rest)
        simp at hlt hts
        omega
      · simp at hlt
        omega

namespace Program

open Pending (MayCover BindsOver IsRun release)
open Token (Balanced exists_unclosed)

variable {previous next : Option Token} {stack stack' run : List Pending} {t : Token}
  {ts done before inside rest : List Token} {p added : Program} {f : Func}

/-- The shape of what waits when tokens have been read. A function is directly below the group of its argument,
or has just been named and is on top. Operators and negations next to each other bind tighter upwards, and
only the lowest of them is a negation. A group waits for each parenthesis that is open. -/
structure Shape (done : List Token) (stack : List Pending) : Prop where
  call : ∀ above f below, stack = above ++ .call f :: below →
    above.getLast? = some .group ∨ (above = [] ∧ done.getLast? = some (.identifier f.name))
  bindsOver : ∀ run, IsRun run stack → run.IsChain BindsOver
  negation : ∀ run, IsRun run stack → .negation ∉ run.dropLast
  group : stack.count .group + done.count .rightParen = done.count .leftParen

/-- Whether a closing parenthesis behind tokens ends a call of a function: it matches the one behind the
function's name. -/
def EndsCall (f : Func) (done : List Token) : Prop :=
  ∃ before inside, done = before ++ .identifier f.name :: .leftParen :: inside ∧ Balanced inside

/-! ## Operators next to each other -/

theorem bindsOver_of_mayCover {upper lower : Pending} (hu : upper.precedence?.isSome)
    (hl : lower.precedence?.isSome) (h : MayCover upper lower) : BindsOver upper lower := by
  cases upper with
  | operator op =>
    cases lower with
    | operator below =>
      rcases h with hlt | ⟨rfl, rfl⟩
      · exact .inl ⟨_, rfl, _, rfl, hlt⟩
      · exact .inr ⟨rfl, rfl⟩
    | negation => exact .inl ⟨_, rfl, _, rfl, h⟩
    | _ => cases hl
  | negation =>
    cases lower with
    | operator | negation => exact h.elim
    | _ => cases hl
  | _ => cases hu

theorem isChain_bindsOver (hc : run.IsChain MayCover) (h : ∀ entry ∈ run, entry.precedence?.isSome) :
    run.IsChain BindsOver :=
  hc.imp_of_mem_imp fun upper lower hu hl => bindsOver_of_mayCover (h upper hu) (h lower hl)

theorem negation_notMem_dropLast (hc : run.IsChain MayCover)
    (h : ∀ entry ∈ run, entry.precedence?.isSome) : .negation ∉ run.dropLast := by
  induction run with
  | nil => exact List.not_mem_nil
  | cons upper run ih =>
    cases run with
    | nil => exact List.not_mem_nil
    | cons lower run =>
      have hlower : lower.precedence?.isSome := h lower (by simp)
      have hne : Pending.negation ≠ upper := by
        rintro rfl
        have hcover : MayCover .negation lower := hc.rel
        cases lower with
        | operator | negation => exact hcover
        | _ => cases hlower
      exact List.not_mem_cons_of_ne_of_not_mem hne
        (ih hc.tail fun entry hentry => h entry (List.mem_cons_of_mem _ hentry))

/-! ## Functions on top -/

theorem step_head?_call_iff (h : step previous next stack t = .ok (p, stack')) (ho : Ordered (some t) stack) :
    stack'.head? = some (.call f) ↔ t = .identifier f.name := by
  by_cases hname : ∃ name, t = .identifier name
  · obtain ⟨name, rfl⟩ := hname
    simp only [step] at h
    split at h
    · split at h
      · next g hg =>
        cases h
        constructor
        · rintro ⟨⟩
          rw [Func.name_of_ofName? hg]
        · rintro ⟨⟩
          rw [Func.ofName?_name] at hg
          cases hg
          rfl
      · cases h
    · cases h
  · -- What is behind the token does not matter, and so there need not be a parenthesis.
    rw [step_behind fun name ht => hname ⟨name, ht⟩] at h
    have hnone : Ordered none stack' := step_ordered h ho
    exact ⟨fun hf => absurd hf (hnone.head?_ne_call (by simp) f), fun ht => absurd ⟨f.name, ht⟩ hname⟩

theorem read_head?_call_iff (h : read none next [] done = .ok (p, stack)) :
    stack.head? = some (.call f) ↔ done.getLast? = some (.identifier f.name) := by
  rcases List.eq_nil_or_concat done with rfl | ⟨ts, t, rfl⟩
  · cases h
    simp
  · rw [List.concat_eq_append] at h ⊢
    obtain ⟨q, between, r, hread, hlast, -⟩ := read_append_eq_ok h
    obtain ⟨added, last, r', hstep, hnil, -⟩ := read_cons_eq_ok hlast
    cases hnil
    rw [step_head?_call_iff hstep (read_ordered hread (ordered_nil _)), List.getLast?_concat,
      Option.some.injEq]

/-- **What waits** has its shape between any two tokens. -/
theorem shape_of_read (h : read none next [] done = .ok (p, stack)) : Shape done stack := by
  have ho : Ordered next stack := read_ordered h (ordered_nil _)
  have hrun : ∀ run, IsRun run stack → run.IsChain MayCover := fun _ hrun =>
    List.IsChain.infix ho.covered hrun.1
  refine ⟨?_, fun run h => isChain_bindsOver (hrun run h) h.2,
    fun run h => negation_notMem_dropLast (hrun run h) h.2, read_depth h depth_nil⟩
  rintro above f below rfl
  by_cases habove : above = []
  · subst habove
    exact .inr ⟨rfl, (read_head?_call_iff h).mp rfl⟩
  · exact .inl (group_above_call ho.covered habove)

/-! ## What a step adds -/

theorem step_factorial (hc : stack.IsChain MayCover)
    (h : step previous next stack .factorial = .ok (added, stack')) :
    (stack = stack' ∧ added = [.factorial]) ∨
      (stack = .negation :: stack' ∧ added = [.operate .sub, .factorial]) := by
  cases stack with
  | nil =>
    cases h
    exact .inl ⟨rfl, rfl⟩
  | cons top below =>
    by_cases htop : top = .negation
    · subst htop
      have hbelow : ∀ entry ∈ below.head?, decide (entry = .negation) = false := by
        intro entry hentry
        have hcover : MayCover .negation entry := hc.rel_head? hentry
        cases entry with
        | negation => exact hcover.elim
        | _ => rfl
      have hrelease : release (· = .negation) (.negation :: below) = ([.operate .sub], below) := by
        rw [release_cons (decide_eq_true rfl) rfl, release_of_head hbelow]
      simp only [step, hrelease] at h
      cases h
      exact .inr ⟨rfl, rfl⟩
    · have hhead : ∀ entry ∈ (top :: below).head?, decide (entry = .negation) = false := by
        rintro entry ⟨⟩
        exact decide_eq_false htop
      simp only [step, release_of_head hhead] at h
      cases h
      exact .inl ⟨rfl, rfl⟩

theorem call_notMem_step (h : step previous next stack t = .ok (added, stack')) (ho : Ordered (some t) stack)
    (ht : t ≠ .rightParen) : .call f ∉ added := by
  cases t with
  | number x =>
    cases h
    simp
  | identifier name =>
    simp only [step] at h
    split at h
    · split at h
      · cases h
        exact List.not_mem_nil
      · cases h
    · cases h
  | leftParen =>
    cases h
    exact List.not_mem_nil
  | rightParen => exact absurd rfl ht
  | comma =>
    cases h
    exact call_notMem_release ho (by simp) (by simp) f
  | factorial =>
    rcases step_factorial ho.covered h with ⟨-, rfl⟩ | ⟨-, rfl⟩
    · simp
    · simp
  | operator op =>
    have hreleased : .call f ∉ (release (Pending.goesBefore op) stack).1 :=
      call_notMem_release ho (by simp) rfl f
    simp only [step] at h
    split at h
    · cases h
      exact List.not_mem_cons_of_ne_of_not_mem (by simp) hreleased
    · cases h
      exact hreleased

theorem call_notMem_dropLast_step (h : step previous next stack t = .ok (added, stack'))
    (ho : Ordered (some t) stack) : .call f ∉ added.dropLast := by
  by_cases ht : t = .rightParen
  · subst ht
    have hreleased : .call f ∉ (release (· ≠ .group) stack).1 :=
      call_notMem_release ho (by simp) (by simp) f
    obtain ⟨call, hclose, rfl⟩ := step_rightParen_eq_ok h
    rcases closeGroup_eq_ok hclose with ⟨g, -, rfl⟩ | ⟨-, rfl, -⟩
    · rwa [List.dropLast_concat]
    · rw [List.append_nil]
      exact mt List.mem_of_mem_dropLast hreleased
  · exact mt List.mem_of_mem_dropLast (call_notMem_step h ho ht)

theorem call_mem_step_rightParen_iff {waiting below : List Pending} (hg : .group ∉ waiting)
    (h : step previous next (waiting ++ .group :: below) .rightParen = .ok (added, stack'))
    (ho : Ordered (some .rightParen) (waiting ++ .group :: below)) :
    .call f ∈ added ↔ below.head? = some (.call f) := by
  have hreleased : .call f ∉ (release (· ≠ .group) (waiting ++ .group :: below)).1 :=
    call_notMem_release ho (by simp) (by simp) f
  have hdrop : (waiting ++ .group :: below).dropWhile (· ≠ .group) = .group :: below :=
    congrArg Prod.snd (release_group hg)
  obtain ⟨call, hclose, rfl⟩ := step_rightParen_eq_ok h
  rw [hdrop] at hclose
  rw [List.mem_append, or_iff_right hreleased]
  rcases closeGroup_eq_ok hclose with ⟨g, hbelow, rfl⟩ | ⟨hbelow, rfl, hne⟩
  · cases hbelow
    simp [eq_comm]
  · cases hbelow
    simp [hne f]

/-! ## Calls -/

/-- Behind a parenthesis that is still open, what waits in its group is above what waited in front of it. -/
theorem read_unclosed (h : read none next [] (before ++ .leftParen :: inside) = .ok (p, stack))
    (hinside : Balanced inside) :
    ∃ q waiting below, read none (some .leftParen) [] before = .ok (q, below) ∧ .group ∉ waiting ∧
      stack = waiting ++ .group :: below := by
  obtain ⟨q, below, r, hbefore, hbehind, -⟩ := read_append_eq_ok h
  obtain ⟨added, between, r', hstep, hread, -⟩ := read_cons_eq_ok hbehind
  cases hstep
  have habove : read (some .leftParen) next ([] ++ .group :: below) inside = _ :=
    read_above (kept_group below) depth_nil hinside.opened
  rw [List.nil_append, hread] at habove
  cases halone : read (some .leftParen) next [] inside with
  | error e =>
    rw [halone] at habove
    cases habove
  | ok r =>
    obtain ⟨r, waiting⟩ := r
    rw [halone] at habove
    cases habove
    exact ⟨q, waiting, below, hbefore, group_notMem_of_read hinside halone, rfl⟩

/-- **A call** is added just when the parenthesis is closed that stands behind its name. -/
theorem call_mem_step_iff (h : read none (some t) [] done = .ok (p, stack))
    (hstep : step previous next stack t = .ok (added, stack')) :
    .call f ∈ added ↔ t = .rightParen ∧ EndsCall f done := by
  have ho : Ordered (some t) stack := read_ordered h (ordered_nil _)
  constructor
  · intro hmem
    have ht : t = .rightParen := by
      by_contra hne
      exact call_notMem_step hstep ho hne hmem
    subst ht
    have hdepth : Depth ([] ++ done) stack := read_depth h depth_nil
    have hopen : 0 < stack.count .group := List.count_pos_iff.mpr (group_mem_of_step hstep)
    have hlt : done.count .rightParen < done.count .leftParen := by
      unfold Depth at hdepth
      rw [List.nil_append] at hdepth
      omega
    obtain ⟨before, inside, rfl, hinside⟩ := exists_unclosed ⟨done, List.suffix_refl done, hlt⟩
    obtain ⟨q, waiting, below, hbefore, hgroup, rfl⟩ := read_unclosed h hinside
    have hcall : below.head? = some (.call f) := (call_mem_step_rightParen_iff hgroup hstep ho).mp hmem
    obtain ⟨front, rfl⟩ := List.getLast?_eq_some_iff.mp ((read_head?_call_iff hbefore).mp hcall)
    exact ⟨rfl, front, inside, (List.append_cons _ _ _).symm, hinside⟩
  · rintro ⟨rfl, before, inside, rfl, hinside⟩
    rw [List.append_cons] at h
    obtain ⟨q, waiting, below, hbefore, hgroup, rfl⟩ := read_unclosed h hinside
    exact (call_mem_step_rightParen_iff hgroup hstep ho).mpr
      ((read_head?_call_iff hbefore).mpr List.getLast?_concat)

/-- **Between two tokens**, with those in front read and no error so far: what waits has its shape, a factorial
sign that comes next releases one negation at most, and whatever comes next calls a function just if it is the
closing parenthesis of that function's argument, and then last. At the end no function is called. -/
theorem ofTokens_shape (h : read none rest.head? [] done = .ok (p, stack)) :
    ofTokens (done ++ rest) = (ofTokensFrom done.getLast? stack rest).map (p ++ ·) ∧
    Shape done stack ∧
    (∀ t after added stack', rest = t :: after →
      step done.getLast? after.head? stack t = .ok (added, stack') →
      (t = .factorial → (stack = stack' ∧ added = [.factorial]) ∨
        (stack = .negation :: stack' ∧ added = [.operate .sub, .factorial])) ∧
      ∀ f, (.call f ∈ added ↔ t = .rightParen ∧ EndsCall f done) ∧ .call f ∉ added.dropLast) ∧
    (rest = [] → ∀ f, .call f ∉ (release (· ≠ .group) stack).1 ∧ ∀ q, finish stack = .ok q → .call f ∉ q) := by
  have ho : Ordered rest.head? stack := read_ordered h (ordered_nil _)
  refine ⟨?_, shape_of_read h, ?_, ?_⟩
  · simp only [ofTokens, ofTokensFrom_append, h, Option.or_none]
  · rintro t after added stack' rfl hstep
    refine ⟨?_, fun f => ⟨call_mem_step_iff h hstep, call_notMem_dropLast_step hstep ho⟩⟩
    rintro rfl
    exact step_factorial ho.covered hstep
  · rintro rfl f
    refine ⟨call_notMem_release ho (by simp) (by simp) f, fun q hq => ?_⟩
    simp only [finish] at hq
    split at hq
    · cases hq
    · next hgroup =>
      cases hq
      exact mt call_mem_filterMap.mp (call_notMem ho (by simp) hgroup f)

/-- Inside of a call that is negated, powers wait on each other and on a sum. -/
theorem ofTokens_shape_nested :
    read none (some .rightParen) [] [.operator .sub, .identifier "abs", .leftParen, .number Double.pi,
        .operator .add, .number Double.pi, .operator .pow, .number Double.pi, .operator .pow,
        .number Double.pi] =
      .ok ([.push (Double.ofNat 0), .push Double.pi, .push Double.pi, .push Double.pi, .push Double.pi],
        [.operator .pow, .operator .pow, .operator .add, .group, .call .abs, .negation]) ∧
    Shape [.operator .sub, .identifier "abs", .leftParen, .number Double.pi, .operator .add,
        .number Double.pi, .operator .pow, .number Double.pi, .operator .pow, .number Double.pi]
      [.operator .pow, .operator .pow, .operator .add, .group, .call .abs, .negation] ∧
    ∀ f : Func, .call f ∈ [Instruction.operate .pow, .operate .pow, .operate .add, .call .abs] ↔
      EndsCall f [.operator .sub, .identifier "abs", .leftParen, .number Double.pi, .operator .add,
        .number Double.pi, .operator .pow, .number Double.pi, .operator .pow, .number Double.pi] := by
  have h : read none [Token.rightParen, .factorial].head? [] [.operator .sub, .identifier "abs", .leftParen,
        .number Double.pi, .operator .add, .number Double.pi, .operator .pow, .number Double.pi, .operator .pow,
        .number Double.pi] =
      .ok ([.push (Double.ofNat 0), .push Double.pi, .push Double.pi, .push Double.pi, .push Double.pi],
        [.operator .pow, .operator .pow, .operator .add, .group, .call .abs, .negation]) := rfl
  have hstep : step (some (.number Double.pi)) (some .factorial)
        [.operator .pow, .operator .pow, .operator .add, .group, .call .abs, .negation] .rightParen =
      .ok ([.operate .pow, .operate .pow, .operate .add, .call .abs], [.negation]) := rfl
  obtain ⟨-, hshape, hnext, -⟩ := ofTokens_shape h
  have hcall := (hnext .rightParen [.factorial] _ _ rfl hstep).2
  exact ⟨h, hshape, fun f => (hcall f).1.trans (and_iff_right rfl)⟩

end Program
end SciCalc
