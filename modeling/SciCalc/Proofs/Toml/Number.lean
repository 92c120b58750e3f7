/-
Numbers as TOML's grammar has them, and what the reader makes of their texts. The text of an integer is read as that
integer (`integer?_of_isInteger`). The text of a float is no integer's (`integer?_of_isFloat`), and there are no other
numbers.
-/
import SciCalc.Proofs.Decimal.Canonical
import SciCalc.Toml.Read

namespace SciCalc.Toml

/-! ## The grammar -/

/-- The text of digits in a base. One mark may stand between two of them. -/
inductive IsDigits (base : Nat) : (text digits : List Char) → Prop
  | last {c} : isDigitOf base c = true → IsDigits base [c] [c]
  | next {c text digits} : isDigitOf base c = true → IsDigits base text digits →
      IsDigits base (c :: text) (c :: digits)
  | mark {c text digits} : isDigitOf base c = true → IsDigits base text digits →
      IsDigits base (c :: '_' :: text) (c :: digits)

/-- The text of decimal digits with no superfluous zero in front. -/
structure IsWhole (text digits : List Char) : Prop where
  digits : IsDigits 10 text digits
  unpadded : text.head? = some '0' → text = ['0']

/-- The text of an integer. -/
inductive IsInteger : List Char → Int → Prop
  | unsigned {text digits} : IsWhole text digits → IsInteger text (ofDigits 10 digits)
  | plus {text digits} : IsWhole text digits → IsInteger ('+' :: text) (ofDigits 10 digits)
  | minus {text digits} : IsWhole text digits → IsInteger ('-' :: text) (-ofDigits 10 digits)
  | based {letter base text digits} : (letter, base) ∈ [('x', 16), ('o', 8), ('b', 2)] →
      IsDigits base text digits → IsInteger ('0' :: letter :: text) (ofDigits base digits)

/-- The sign of a number, which may be left out. -/
def IsSign (sign : List Char) : Prop := sign = [] ∨ sign = ['+'] ∨ sign = ['-']

/-- What follows the letter of a power of ten. -/
inductive IsPower : List Char → Prop
  | mk {letter sign text digits} : letter = 'e' ∨ letter = 'E' → IsSign sign → IsDigits 10 text digits →
      IsPower (letter :: (sign ++ text))

/-- What makes the text of a float of that of an integer: a fraction, a power of ten, or both. -/
inductive IsFloatEnd : List Char → Prop
  | fraction {text digits} : IsDigits 10 text digits → IsFloatEnd ('.' :: text)
  | power {power} : IsPower power → IsFloatEnd power
  | both {text digits power} : IsDigits 10 text digits → IsPower power → IsFloatEnd ('.' :: (text ++ power))

/-- The text of a float. -/
inductive IsFloat : List Char → Prop
  | number {sign whole digits tail} : IsSign sign → IsWhole whole digits → IsFloatEnd tail →
      IsFloat (sign ++ (whole ++ tail))
  | infinity {sign} : IsSign sign → IsFloat (sign ++ "inf".toList)
  | nan {sign} : IsSign sign → IsFloat (sign ++ "nan".toList)

/-! ## Digits -/

variable {base : Nat} {c : Char} {cs digits text : List Char} {value : Int}

theorem isAlphanum_of_isDigitOf (h : isDigitOf base c = true) : c.isAlphanum = true := (Bool.and_eq_true_iff.mp h).1

theorem isScalar_of_isDigitOf (h : isDigitOf base c = true) : isScalar c = true := by
  simp [isScalar, isBare, isAlphanum_of_isDigitOf h]

theorem IsDigits.exists_eq_cons (h : IsDigits base text digits) :
    ∃ c cs, text = c :: cs ∧ isDigitOf base c = true := by
  cases h with
  | last hc | next hc | mark hc => exact ⟨_, _, rfl, hc⟩

theorem IsDigits.isScalar (h : IsDigits base text digits) : ∀ c ∈ text, isScalar c = true := by
  induction h with
  | last hc => simpa using isScalar_of_isDigitOf hc
  | next hc _ ih => exact List.forall_mem_cons.mpr ⟨isScalar_of_isDigitOf hc, ih⟩
  | mark hc _ ih => exact List.forall_mem_cons.mpr ⟨isScalar_of_isDigitOf hc, List.forall_mem_cons.mpr ⟨rfl, ih⟩⟩

theorem digits?_cons (hc : isDigitOf base c = true) (hne : cs ≠ []) (hmark : cs.head? ≠ some '_') :
    digits? base (c :: cs) = (digits? base cs).map (c :: ·) := by
  rw [digits?, if_pos hc]
  · exact hne
  · rintro cs rfl
    exact hmark rfl

/-- **Digits** are read without the marks between them. -/
theorem digits?_of_isDigits (h : IsDigits base text digits) : digits? base text = some digits := by
  induction h with
  | last hc => rw [digits?, if_pos hc]
  | next hc hrest ih =>
    obtain ⟨d, cs, rfl, hd⟩ := hrest.exists_eq_cons
    have hmark : (d :: cs).head? ≠ some '_' := by
      rintro ⟨⟩
      exact absurd (isAlphanum_of_isDigitOf hd) (by decide)
    rw [digits?_cons hc (List.cons_ne_nil d cs) hmark, ih, Option.map_some]
  | mark hc _ ih => rw [digits?, if_pos hc, ih, Option.map_some]

theorem isDigitOf_of_digits? (h : digits? base cs = some digits) (hc : c ∈ cs) :
    isDigitOf base c = true ∨ c = '_' := by
  fun_induction digits? base cs generalizing digits with
  | case1 => cases h
  | case2 d hd => exact .inl (List.mem_singleton.mp hc ▸ hd)
  | case3 d hd cs ih =>
    obtain ⟨ds, hds, -⟩ := Option.map_eq_some_iff.mp h
    rcases List.mem_cons.mp hc with rfl | hc
    · exact .inl hd
    · rcases List.mem_cons.mp hc with rfl | hc
      · exact .inr rfl
      · exact ih hds hc
  | case4 d hd cs _ _ ih =>
    obtain ⟨ds, hds, -⟩ := Option.map_eq_some_iff.mp h
    rcases List.mem_cons.mp hc with rfl | hc
    · exact .inl hd
    · exact ih hds hc
  | case5 => cases h

theorem natural?_of_mem (hc : c ∈ cs) (hdigit : isDigitOf base c = false) (hmark : c ≠ '_') :
    natural? base cs = none := by
  rw [natural?, Option.map_eq_none_iff, Option.eq_none_iff_forall_ne_some]
  intro digits h
  rcases isDigitOf_of_digits? h hc with h | h
  · exact Bool.false_ne_true (hdigit.symm.trans h)
  · exact hmark h

theorem decimal?_of_mem (hc : c ∈ cs) (hdigit : isDigitOf 10 c = false) (hmark : c ≠ '_') : decimal? cs = none := by
  rw [decimal?, natural?_of_mem hc hdigit hmark, ite_self]

/-! ## Integers -/

theorem decimal?_of_isWhole (h : IsWhole text digits) : decimal? text = some (ofDigits 10 digits) := by
  have hpadded : ¬(text.head? = some '0' ∧ text ≠ ['0']) := fun ⟨hhead, hne⟩ => hne (h.unpadded hhead)
  rw [decimal?, if_neg hpadded, natural?, digits?_of_isDigits h.digits, Option.map_some]

/-- Without a sign, and with no letter for a base behind a zero, a text is a decimal integer or none. -/
theorem integer?_of_isWhole_append (h : IsWhole text digits) {tail : List Char}
    (hbase : ∀ letter ∈ tail.head?, letter ≠ 'x' ∧ letter ≠ 'o' ∧ letter ≠ 'b') :
    integer? (text ++ tail) = (decimal? (text ++ tail)).map Int.ofNat := by
  obtain ⟨c, cs, rfl, hc⟩ := h.digits.exists_eq_cons
  have htail : c = '0' → cs = [] := by
    rintro rfl
    exact (List.cons.inj (h.unpadded rfl)).2
  rw [List.cons_append]
  unfold integer?
  split
  iterate 3
    · next heq =>
      obtain ⟨hzero, heq⟩ := List.cons.inj heq
      rw [htail hzero, List.nil_append] at heq
      simp [heq] at hbase
  iterate 2
    · next heq =>
      rw [(List.cons.inj heq).1] at hc
      exact absurd hc (by decide)
  rfl

/-- **An integer's text** is read as the integer. -/
theorem integer?_of_isInteger (h : IsInteger text value) : integer? text = some value := by
  cases h with
  | unsigned h =>
    have hread : integer? (text ++ []) = (decimal? (text ++ [])).map Int.ofNat :=
      integer?_of_isWhole_append h (by simp)
    rw [List.append_nil, decimal?_of_isWhole h] at hread
    exact hread
  | plus h => rw [integer?, decimal?_of_isWhole h, Option.map_some]; rfl
  | minus h => rw [integer?, decimal?_of_isWhole h, Option.map_some]; rfl
  | based hbase h =>
    have hread : natural? _ _ = some _ := congrArg (Option.map _) (digits?_of_isDigits h)
    simp only [List.mem_cons, Prod.mk.injEq, List.not_mem_nil, or_false] at hbase
    rcases hbase with ⟨rfl, rfl⟩ | ⟨rfl, rfl⟩ | ⟨rfl, rfl⟩ <;> rw [integer?, hread, Option.map_some] <;> rfl

theorem isDigits_self (hcs : ∀ c ∈ cs, c.isDigit = true) (hne : cs ≠ []) : IsDigits 10 cs cs := by
  have hdigit : ∀ c : Char, c.isDigit = true → isDigitOf 10 c = true := by
    intro c hc
    simpa [isDigitOf, digitValue, Char.isAlphanum, hc] using Decimal.toNat_sub_lt_of_isDigit hc
  induction cs with
  | nil => exact absurd rfl hne
  | cons c cs ih =>
    obtain ⟨hc, hcs⟩ := List.forall_mem_cons.mp hcs
    cases cs with
    | nil => exact .last (hdigit c hc)
    | cons d cs => exact .next (hdigit c hc) (ih hcs (List.cons_ne_nil d cs))

theorem ofDigits_eq_natOfText (hcs : ∀ c ∈ cs, c.isDigit = true) : ofDigits 10 cs = Decimal.natOfText cs := by
  rw [ofDigits, Decimal.natOfText, Nat.ofDigitChars]
  refine List.foldl_ext _ _ 0 fun n c hc => ?_
  rw [digitValue, if_pos (hcs c hc)]

theorem isInteger_natText (n : Nat) : IsInteger (Decimal.natText n) n := by
  have hdigits : ∀ c ∈ Decimal.natText n, c.isDigit = true := fun c hc => Decimal.isDigit_of_mem_natText hc
  have hwhole : IsWhole (Decimal.natText n) (Decimal.natText n) :=
    ⟨isDigits_self hdigits (Decimal.natText_ne_nil n), Decimal.natText_head⟩
  have hvalue : ofDigits 10 (Decimal.natText n) = n := by
    rw [ofDigits_eq_natOfText hdigits, Decimal.natOfText_natText]
  have hinteger := IsInteger.unsigned hwhole
  rwa [hvalue] at hinteger

/-! ## Floats -/

theorem IsFloatEnd.exists_eq_cons (h : IsFloatEnd text) : ∃ c cs, text = c :: cs ∧ (c = '.' ∨ c = 'e' ∨ c = 'E') := by
  cases h with
  | fraction | both => exact ⟨_, _, rfl, .inl rfl⟩
  | power h =>
    obtain ⟨hletter, -, -⟩ := h
    exact ⟨_, _, rfl, .inr hletter⟩

/-- **A float's text** is no integer's. -/
theorem integer?_of_isFloat (h : IsFloat text) : integer? text = none := by
  cases h with
  | @number sign whole digits tail hsign hwhole hend =>
    obtain ⟨c, cs, rfl, hc⟩ := hend.exists_eq_cons
    have hnone : decimal? (whole ++ c :: cs) = none := by
      refine decimal?_of_mem (List.mem_append_right whole List.mem_cons_self) ?_ ?_ <;>
        rcases hc with rfl | rfl | rfl <;> decide
    have hbase : ∀ letter ∈ (c :: cs).head?, letter ≠ 'x' ∧ letter ≠ 'o' ∧ letter ≠ 'b' := by
      rintro letter ⟨⟩
      rcases hc with rfl | rfl | rfl <;> decide
    rcases hsign with rfl | rfl | rfl
    · rw [List.nil_append, integer?_of_isWhole_append hwhole hbase, hnone, Option.map_none]
    all_goals rw [List.singleton_append, integer?, hnone, Option.map_none]
  | infinity hsign | nan hsign => rcases hsign with rfl | rfl | rfl <;> rfl

/-! ## Words -/

theorem IsSign.isScalar (h : IsSign text) : ∀ c ∈ text, isScalar c = true := by
  rcases h with rfl | rfl | rfl <;> simp <;> rfl

theorem IsPower.isScalar (h : IsPower text) : ∀ c ∈ text, isScalar c = true := by
  obtain ⟨hletter, hsign, hdigits⟩ := h
  refine List.forall_mem_cons.mpr ⟨?_, List.forall_mem_append.mpr ⟨hsign.isScalar, hdigits.isScalar⟩⟩
  rcases hletter with rfl | rfl <;> rfl

theorem IsFloatEnd.isScalar (h : IsFloatEnd text) : ∀ c ∈ text, isScalar c = true := by
  cases h with
  | fraction h => exact List.forall_mem_cons.mpr ⟨rfl, h.isScalar⟩
  | power h => exact h.isScalar
  | both h hpower => exact List.forall_mem_cons.mpr ⟨rfl, List.forall_mem_append.mpr ⟨h.isScalar, hpower.isScalar⟩⟩

theorem IsFloat.isScalar (h : IsFloat text) : ∀ c ∈ text, isScalar c = true := by
  cases h with
  | number hsign hwhole hend =>
    exact List.forall_mem_append.mpr
      ⟨hsign.isScalar, List.forall_mem_append.mpr ⟨hwhole.digits.isScalar, hend.isScalar⟩⟩
  | infinity hsign | nan hsign => exact List.forall_mem_append.mpr ⟨hsign.isScalar, List.all_eq_true.mp rfl⟩

theorem IsInteger.isScalar (h : IsInteger text value) : ∀ c ∈ text, isScalar c = true := by
  cases h with
  | unsigned h => exact h.digits.isScalar
  | plus h | minus h => exact List.forall_mem_cons.mpr ⟨rfl, h.digits.isScalar⟩
  | based hbase h =>
    refine List.forall_mem_cons.mpr ⟨rfl, List.forall_mem_cons.mpr ⟨?_, h.isScalar⟩⟩
    simp only [List.mem_cons, Prod.mk.injEq, List.not_mem_nil, or_false] at hbase
    rcases hbase with ⟨rfl, rfl⟩ | ⟨rfl, rfl⟩ | ⟨rfl, rfl⟩ <;> rfl

theorem IsInteger.ne_nil (h : IsInteger text value) : text ≠ [] := by
  cases h with
  | unsigned h =>
    obtain ⟨c, cs, rfl, -⟩ := h.digits.exists_eq_cons
    exact List.cons_ne_nil c cs
  | plus | minus | based => exact List.cons_ne_nil _ _

theorem scalar?_of_isInteger (h : IsInteger text value) : scalar? text = some (.integer value) := by
  have hread := integer?_of_isInteger h
  have hne : ∀ word : List Char, integer? word = none → text ≠ word := by
    rintro word hnone rfl
    exact Option.some_ne_none value (hread.symm.trans hnone)
  rw [scalar?, if_neg (hne _ rfl), if_neg (hne _ rfl), hread, Option.map_some]

theorem IsFloat.exists_mem (h : IsFloat text) : ∃ c ∈ text, (isDigitOf 10 c || c == 'n') = true := by
  cases h with
  | @number sign whole digits tail _ hwhole _ =>
    obtain ⟨c, cs, rfl, hc⟩ := hwhole.digits.exists_eq_cons
    exact ⟨c, by simp, by simp [hc]⟩
  | infinity | nan => exact ⟨'n', List.mem_append_right _ (by decide), rfl⟩

theorem IsFloat.ne_nil (h : IsFloat text) : text ≠ [] := by
  obtain ⟨c, hc, -⟩ := h.exists_mem
  exact List.ne_nil_of_mem hc

theorem scalar?_of_isFloat (h : IsFloat text) : scalar? text = none := by
  have hne : ∀ word ∈ ["true".toList, "false".toList], text ≠ word := by
    have hletters : ["true".toList, "false".toList].all (·.all fun c => !(isDigitOf 10 c || c == 'n')) = true := rfl
    rintro word hword rfl
    obtain ⟨c, hc, hother⟩ := h.exists_mem
    have hletter := List.all_eq_true.mp (List.all_eq_true.mp hletters text hword) c hc
    rw [hother] at hletter
    cases hletter
  rw [scalar?, if_neg (hne _ (by simp)), if_neg (hne _ (by simp)), integer?_of_isFloat h, Option.map_none]

end SciCalc.Toml
