/-
The program of a derivation's tokens is its postorder: precedence and grouping, which are decided by
what waits on a stack, are those of the grammar.

Where a derivation ends, operators of it still wait for what follows. Whatever may follow releases them
before anything else, so that they may as well be released at once (`ofTokensFrom_release`). Then each
derivation can be read on its own: wherever it can stand (`Nonterminal.Place`), its tokens add its
postorder and leave nothing waiting (`Adds`). There is one lemma for each rule of the grammar, and the
three rules with an operator between two operands are cases of one, `Adds.binary`.
-/
import SciCalc.Proofs.Grammar.Derivation
import SciCalc.Proofs.Program.Read

namespace SciCalc

namespace Nonterminal

/-- What may wait directly around a derivation: nothing that takes its first operand away, and nothing
that waits for a parenthesis. -/
def Under : Nonterminal → Pending → Prop
  | _, .group => True
  | _, .call _ => False
  | .sum, _ => False
  | .product plain, .negation | .power plain, .negation | .operand plain, .negation => plain = true
  | .product _, .operator op => op.precedence < Operator.mul.precedence
  | .power _, .operator _ | .operand _, .operator _ => True

/-- Whether a token releases all that binds at least as tightly as `precedence`. So does the end. -/
def Releases (precedence : Nat) : Option Token → Prop
  | none | some .rightParen | some .comma => True
  | some (.operator op) => op.precedence ≤ precedence ∧ op ≠ .pow
  | _ => False

/-- What may follow a derivation. -/
def Before : Nonterminal → Option Token → Prop
  | .sum, next => Releases Operator.add.precedence next
  | .product _, next => Releases Operator.mul.precedence next
  | .power _, next => Releases Operator.pow.precedence next
  | .operand _, _ => True

/-- Where a derivation can stand, by the token in front of it, what waits, and the token behind it. A
sum stands where a minus negates. -/
structure Place (n : Nonterminal) (previous : Option Token) (stack : List Pending)
    (next : Option Token) : Prop where
  under : ∀ top ∈ stack.head?, n.Under top
  before : n.Before next
  negates : n = .sum → Program.negatesAfter previous = true

theorem Releases.mono {k l : Nat} {next : Option Token} (h : Releases k next) (hkl : k ≤ l) :
    Releases l next := by
  match next, h with
  | none, _ | some .rightParen, _ | some .comma, _ => exact trivial
  | some (.operator op), h => exact ⟨Nat.le_trans h.1 hkl, h.2⟩

theorem Under.operand {plain : Bool} {top : Pending} (h : Under (.operand false) top) :
    Under (.operand plain) top := by
  cases top with
  | negation => cases h
  | _ => exact h

end Nonterminal

namespace Program

open Nonterminal (Place Releases)
open Pending (goesBefore release)

variable {m n : Nonterminal} {previous last : Option Token} {stack : List Pending}
  {rest ts us : List Token} {p q : Program}

/-! ## Early release -/

theorem goesBefore_of_le {op : Operator} {top : Pending} {k : Nat} (hk : top.precedence? = some k)
    (hop : op.precedence ≤ k) (hne : op ≠ .pow) : goesBefore op top = true := by
  have hleft : op.groupsRight = false := by cases op <;> first | rfl | exact absurd rfl hne
  simp [goesBefore, hk, hleft, hop]

theorem goesBefore_eq_false_of_lt {op : Operator} {top : Pending} {k : Nat}
    (hk : top.precedence? = some k) (hlt : k < op.precedence) : goesBefore op top = false := by
  cases hop : op.groupsRight <;> simp [goesBefore, hk, hop] <;> omega

/-- An entry that the next token releases may as well be released before it. After an operand a minus
does not negate, so that no zero comes in between. -/
theorem ofTokensFrom_release {top : Pending} {k : Nat} {i : Instruction}
    (hk : top.precedence? = some k) (hi : top.instruction? = some i) (hr : Releases k rest.head?)
    (hp : negatesAfter previous = false) :
    ofTokensFrom previous (top :: stack) rest = (ofTokensFrom previous stack rest).map ([i] ++ ·) := by
  have hg : top ≠ .group := by rintro rfl; cases hk
  match rest, hr with
  | [], _ =>
    simp only [ofTokensFrom, finish, List.mem_cons, hg.symm, false_or, List.filterMap_cons, hi]
    split <;> rfl
  | .rightParen :: rest, _ =>
    have hrel : release (· ≠ .group) (top :: stack) = _ := release_cons (decide_eq_true hg) hi
    simp only [ofTokensFrom, step, hrel]
    cases closeGroup (release (· ≠ .group) stack).2 with
    | error e => rfl
    | ok r => exact (map_append_map [i] _ _).symm
  | .comma :: rest, _ =>
    have hrel : release (· ≠ .group) (top :: stack) = _ := release_cons (decide_eq_true hg) hi
    simp only [ofTokensFrom, step, hrel]
    exact (map_append_map [i] _ _).symm
  | .operator op :: rest, hr =>
    have hrel : release (goesBefore op) (top :: stack) = _ :=
      release_cons (goesBefore_of_le hk hr.1 hr.2) hi
    simp only [ofTokensFrom, step, hrel, hp, Bool.false_eq_true, and_false, if_false]
    exact (map_append_map [i] _ _).symm

theorem ofTokensFrom_operator {op : Operator} (hs : ∀ top ∈ stack.head?, goesBefore op top = false)
    (hp : negatesAfter previous = false) :
    ofTokensFrom previous stack (.operator op :: rest) =
      ofTokensFrom (some (.operator op)) (.operator op :: stack) rest := by
  have hstep : step previous rest.head? stack (.operator op) = .ok ([], .operator op :: stack) := by
    simp only [step, release_of_head hs, hp, Bool.false_eq_true, and_false, if_false]
  rw [ofTokensFrom_cons hstep, map_nil_append]

theorem ofTokensFrom_negation (hs : ∀ top ∈ stack.head?, goesBefore .sub top = false)
    (hp : negatesAfter previous = true) :
    ofTokensFrom previous stack (.operator .sub :: rest) =
      (ofTokensFrom (some (.operator .sub)) (.negation :: stack) rest).map
        ([.push (Double.ofNat 0)] ++ ·) := by
  refine ofTokensFrom_cons ?_
  simp only [step, release_of_head hs, hp, and_self, if_true]

/-! ## One rule of the grammar at a time -/

/-- Wherever an `n` can stand, the tokens add the program and leave nothing waiting. -/
structure Adds (n : Nonterminal) (ts : List Token) (p : Program) : Prop where
  read : ∀ {previous last : Option Token} {stack : List Pending} {rest : List Token},
    Place n previous stack rest.head? → negatesAfter last = false →
      ofTokensFrom previous stack (ts ++ rest) = (ofTokensFrom last stack rest).map (p ++ ·)

theorem Adds.number {plain : Bool} (x : Float) : Adds (.operand plain) [.number x] [.push x] := by
  refine ⟨fun {previous last stack rest} _ hl => ?_⟩
  have hlast : negatesAfter last = negatesAfter (some (.number x)) := hl
  rw [ofTokensFrom_previous hlast]
  exact ofTokensFrom_cons rfl

theorem Adds.closed (h : Adds .sum ts p) {base : List Pending} {call : Program}
    (hc : closeGroup (.group :: base) = .ok (call, stack)) (hl : negatesAfter last = false) :
    ofTokensFrom (some .leftParen) (.group :: base) (ts ++ .rightParen :: rest) =
      (ofTokensFrom last stack rest).map (p ++ call ++ ·) := by
  have hplace : Place .sum (some .leftParen) (.group :: base) (some .rightParen) :=
    ⟨fun top htop => by cases htop; exact trivial, trivial, fun _ => rfl⟩
  have hclose : ofTokensFrom (some .rightParen) ([] ++ .group :: base) (.rightParen :: rest) =
      (ofTokensFrom (some .rightParen) stack rest).map (call ++ ·) :=
    ofTokensFrom_rightParen List.not_mem_nil hc
  have hlast : negatesAfter (some .rightParen) = negatesAfter last := hl.symm
  rw [h.read hplace (rfl : negatesAfter (some .rightParen) = false), ← List.nil_append (.group :: base),
    hclose, ofTokensFrom_previous hlast]
  exact map_append_map p call _

theorem Adds.group {plain : Bool} (h : Adds .sum ts p) :
    Adds (.operand plain) (.leftParen :: (ts ++ [.rightParen])) p := by
  refine ⟨fun {previous last stack rest} hplace hl => ?_⟩
  have hc : closeGroup (.group :: stack) = .ok ([], stack) :=
    closeGroup_group fun f hf => hplace.under _ hf
  rw [List.cons_append, List.append_assoc, ofTokensFrom_leftParen]
  simpa using h.closed hc hl

theorem Adds.call {plain : Bool} (f : Func) (h : Adds .sum ts p) :
    Adds (.operand plain) (.identifier f.name :: .leftParen :: (ts ++ [.rightParen])) (p ++ [.call f]) := by
  refine ⟨fun {previous last stack rest} _ hl => ?_⟩
  rw [List.cons_append, List.cons_append, List.append_assoc, ofTokensFrom_call]
  exact h.closed rfl hl

theorem Adds.factorial {plain : Bool} (h : Adds (.operand plain) ts p) :
    Adds (.operand false) (ts ++ [.factorial]) (p ++ [.factorial]) := by
  refine ⟨fun {previous last stack rest} hplace hl => ?_⟩
  have hinner : Place (.operand plain) previous stack (some .factorial) :=
    ⟨fun top htop => (hplace.under top htop).operand, trivial, nofun⟩
  have htop : ∀ top ∈ stack.head?, decide (top = .negation) = false := by
    intro top htop
    refine decide_eq_false fun heq => ?_
    have hunder := hplace.under top htop
    rw [heq] at hunder
    cases hunder
  have hstep : step last rest.head? stack .factorial = .ok ([.factorial], stack) := by
    simp only [step, release_of_head htop, List.nil_append]
  have hlast : negatesAfter (some .factorial) = negatesAfter last := hl.symm
  rw [List.append_assoc, h.read hinner hl, List.singleton_append, ofTokensFrom_cons hstep,
    ofTokensFrom_previous hlast]
  exact map_append_map p [.factorial] _

theorem Adds.of_place (h : Adds m ts p) (hu : ∀ top, n.Under top → m.Under top)
    (hb : ∀ next, n.Before next → m.Before next) (hm : m ≠ .sum) : Adds n ts p :=
  ⟨fun hplace hl => h.read
    ⟨fun top htop => hu top (hplace.under top htop), hb _ hplace.before, fun hs => absurd hs hm⟩ hl⟩

/-- An operator between two operands: the left one is read in the place of the whole, and the right one
above the operator, which what follows the whole releases. -/
theorem Adds.binary {l r : Nonterminal} {op : Operator} (hleft : Adds l ts p) (hright : Adds r us q)
    (hu : ∀ top, n.Under top → l.Under top ∧ goesBefore op top = false)
    (hl : l.Before (some (.operator op))) (hsum : l = .sum → n = .sum)
    (hr : r.Under (.operator op)) (hrs : r ≠ .sum)
    (hb : ∀ next, n.Before next → r.Before next ∧ Releases op.precedence next) :
    Adds n (ts ++ .operator op :: us) (p ++ q ++ [.operate op]) := by
  refine ⟨fun {previous last stack rest} hplace hlast => ?_⟩
  have hl' : Place l previous stack (some (.operator op)) :=
    ⟨fun top htop => (hu top (hplace.under top htop)).1, hl, fun hs => hplace.negates (hsum hs)⟩
  have hr' : Place r (some (.operator op)) (.operator op :: stack) rest.head? :=
    ⟨fun top htop => by cases htop; exact hr, (hb _ hplace.before).1, fun hs => absurd hs hrs⟩
  have hs : ∀ top ∈ stack.head?, goesBefore op top = false :=
    fun top htop => (hu top (hplace.under top htop)).2
  calc ofTokensFrom previous stack ((ts ++ .operator op :: us) ++ rest)
      = ofTokensFrom previous stack (ts ++ .operator op :: (us ++ rest)) := by simp
    _ = (ofTokensFrom last stack (.operator op :: (us ++ rest))).map (p ++ ·) := hleft.read hl' hlast
    _ = (ofTokensFrom (some (.operator op)) (.operator op :: stack) (us ++ rest)).map (p ++ ·) := by
      rw [ofTokensFrom_operator hs hlast]
    _ = (ofTokensFrom last (.operator op :: stack) rest).map (p ++ q ++ ·) := by
      rw [hright.read hr' hlast, map_append_map]
    _ = (ofTokensFrom last stack rest).map (p ++ q ++ [.operate op] ++ ·) := by
      rw [ofTokensFrom_release rfl rfl (hb _ hplace.before).2 hlast, map_append_map]

theorem Adds.raise {plain : Bool} (hbase : Adds (.operand plain) ts p)
    (hexponent : Adds (.power false) us q) :
    Adds (.power plain) (ts ++ .operator .pow :: us) (p ++ q ++ [.operate .pow]) := by
  refine hbase.binary hexponent (fun top htop => ⟨?_, ?_⟩) trivial nofun trivial nofun
    fun next hnext => ⟨hnext, hnext⟩
  · cases top <;> exact htop
  · cases top with
    | operator op => cases op <;> rfl
    | _ => rfl

theorem Adds.multiply {plain : Bool} {op : Operator} (hop : op = .mul ∨ op = .div ∨ op = .rem)
    (hleft : Adds (.product plain) ts p) (hright : Adds (.power false) us q) :
    Adds (.product plain) (ts ++ .operator op :: us) (p ++ q ++ [.operate op]) := by
  have hprecedence : op.precedence = Operator.mul.precedence := by rcases hop with rfl | rfl | rfl <;> rfl
  have hne : op ≠ .pow := by rcases hop with rfl | rfl | rfl <;> nofun
  refine hleft.binary hright (fun top htop => ⟨htop, ?_⟩) ⟨Nat.le_of_eq hprecedence, hne⟩ nofun trivial
    nofun fun next hnext => ⟨Releases.mono hnext (by decide), hprecedence ▸ hnext⟩
  cases top with
  | operator top => exact goesBefore_eq_false_of_lt rfl (hprecedence ▸ htop)
  | negation => exact goesBefore_eq_false_of_lt rfl (hprecedence ▸ (by decide : 2 < 3))
  | _ => rfl

/-- A sum stands where nothing waits that goes before its operators. -/
theorem goesBefore_of_under_sum {op : Operator} {top : Pending} (h : Nonterminal.sum.Under top) :
    goesBefore op top = false := by
  cases top with
  | group => rfl
  | _ => cases h

theorem Adds.add {op : Operator} (hop : op = .add ∨ op = .sub) (hleft : Adds .sum ts p)
    (hright : Adds (.product false) us q) :
    Adds .sum (ts ++ .operator op :: us) (p ++ q ++ [.operate op]) := by
  have hprecedence : op.precedence = Operator.add.precedence := by rcases hop with rfl | rfl <;> rfl
  have hne : op ≠ .pow := by rcases hop with rfl | rfl <;> nofun
  refine hleft.binary hright (fun top htop => ⟨htop, goesBefore_of_under_sum htop⟩)
    ⟨Nat.le_of_eq hprecedence, hne⟩ (fun h => h) ?_ nofun
    fun next hnext => ⟨Releases.mono hnext (by decide), hprecedence ▸ hnext⟩
  rcases hop with rfl | rfl <;> exact (by decide : 2 < 3)

theorem Adds.negate (h : Adds (.product true) ts p) :
    Adds .sum (.operator .sub :: ts) (.push (Double.ofNat 0) :: (p ++ [.operate .sub])) := by
  refine ⟨fun {previous last stack rest} hplace hlast => ?_⟩
  have hs : ∀ top ∈ stack.head?, goesBefore .sub top = false :=
    fun top htop => goesBefore_of_under_sum (hplace.under top htop)
  have hinner : Place (.product true) (some (.operator .sub)) (.negation :: stack) rest.head? :=
    ⟨fun top htop => by cases htop; exact rfl, Releases.mono hplace.before (by decide), nofun⟩
  have hrelease : Releases Operator.sub.precedence rest.head? := hplace.before
  rw [List.cons_append, ofTokensFrom_negation hs (hplace.negates rfl), h.read hinner hlast,
    ofTokensFrom_release rfl rfl hrelease hlast, map_append_map, map_append_map]
  simp

/-! ## Every derivation -/

theorem adds_tokens (e : Derivation n) : Adds n e.tokens e.postorder := by
  induction e with
  | number x => exact .number x
  | group _ ih => exact ih.group
  | call f _ ih => exact ih.call f
  | factorial _ ih => exact ih.factorial
  | ofOperand _ ih =>
    exact ih.of_place (fun top htop => by cases top <;> exact htop) (fun _ _ => trivial) nofun
  | raise _ _ ihl ihr => exact ihl.raise ihr
  | ofPower _ ih =>
    exact ih.of_place (fun top htop => by cases top <;> first | exact htop | exact trivial)
      (fun _ hnext => Releases.mono hnext (by decide)) nofun
  | multiply _ _ hop _ ihl ihr => exact ihl.multiply hop ihr
  | ofProduct _ ih =>
    exact ih.of_place (fun top htop => by cases top <;> first | exact htop | cases htop)
      (fun _ hnext => Releases.mono hnext (by decide)) nofun
  | negate _ ih => exact ih.negate
  | add _ _ hop _ ihl ihr => exact ihl.add hop ihr

theorem Adds.ofTokens (h : Adds .sum ts p) : ofTokens ts = .ok p := by
  have hplace : Place .sum none [] none := ⟨nofun, trivial, fun _ => rfl⟩
  have hlast : negatesAfter (some .rightParen) = false := rfl
  have hread : ofTokensFrom none [] (ts ++ []) = _ := h.read hplace hlast
  simpa [Program.ofTokens, ofTokensFrom, finish, Except.map] using hread

/-- **The tokens of a sum are read as its postorder**: at any depth, higher precedence binds tighter,
powers group from the right, and all else groups from the left. -/
theorem ofTokens_tokens (e : Derivation .sum) : ofTokens e.tokens = .ok e.postorder :=
  (adds_tokens e).ofTokens

end Program
end SciCalc
