/-
Records read back. What is written of a record is one JSON object, with the record's names and values in their order
(`read?_written`), and no control stands in it (`not_control_of_mem_written`).

Each part is read back with anything behind it that does not go on with it: a character (`character?_escape`), a
quoted text (`text?_quoted`), a value (`scalar?_written`), and the fields that are left (`members?_written`).
-/
import SciCalc.Json.Object
import SciCalc.Proofs.Decimal.Data
import SciCalc.Proofs.Double.Whole
import SciCalc.Proofs.Json.Read

namespace SciCalc.Json

variable {c : Char} {cs rest : List Char} {m : Numeral} {n : Nat}

/-! ## Quoted texts -/

theorem codeUnit?_control (h : n < 0x20) (cs : List Char) :
    codeUnit? ('0' :: '0' :: Nat.digitChar (n / 16) :: Nat.digitChar (n % 16) :: cs) = some (n, cs) := by
  have hdigits : ∀ n < 0x20,
      [ '0', '0', Nat.digitChar (n / 16), Nat.digitChar (n % 16)].all (Toml.isDigitOf 16) = true ∧
        Toml.ofDigits 16 [ '0', '0', Nat.digitChar (n / 16), Nat.digitChar (n % 16)] = n := by decide
  obtain ⟨hall, hvalue⟩ := hdigits n h
  rw [codeUnit?, if_pos hall, hvalue]

/-- **A character** is read back from how it is escaped. -/
theorem character?_escape (c : Char) (cs : List Char) : character? (escape c ++ cs) = some (c, cs) := by
  unfold escape
  split
  case h_8 hquote hbackslash _ _ _ _ _ =>
    split
    · next hcontrol =>
      have hcode : escapedCode? ('0' :: '0' :: Nat.digitChar (c.toNat / 16) :: Nat.digitChar (c.toNat % 16) :: cs) =
          some (Char.ofNat c.toNat, cs) := by
        have hhigh : ¬(0xd800 ≤ c.toNat ∧ c.toNat < 0xdc00) := by omega
        have hlow : ¬(0xdc00 ≤ c.toNat ∧ c.toNat < 0xe000) := by omega
        simp only [escapedCode?, codeUnit?_control hcontrol, Option.bind_eq_bind, Option.bind_some, if_neg hhigh,
          if_neg hlow]
      rw [Char.ofNat_toNat] at hcode
      exact hcode
    · next hlarge =>
      have hplain : ¬(c.toNat < 0x20 ∨ c = '"' ∨ c = '\\') := by
        rintro (hcontrol | rfl | rfl)
        · exact hlarge hcontrol
        · exact hquote rfl
        · exact hbackslash rfl
      rw [List.singleton_append, character?, if_neg hplain]
      · rintro cs rfl
        exact (hbackslash rfl).elim
      · rintro c cs rfl
        exact (hbackslash rfl).elim
  all_goals rfl

/-- Whether a character is no control below U+0020. -/
def isPlain (c : Char) : Bool := 0x20 ≤ c.toNat

/-- No character is escaped to nothing, to a control, or to what begins with the mark at the end. -/
theorem escape_spec (c : Char) :
    (∃ d ds, escape c = d :: ds ∧ d ≠ '"') ∧ (escape c).all isPlain = true := by
  unfold escape
  split
  case h_8 hquote _ _ _ _ _ _ =>
    split
    · next hcontrol =>
      have hdigits : ∀ n < 0x20,
          ['\\', 'u', '0', '0', Nat.digitChar (n / 16), Nat.digitChar (n % 16)].all isPlain = true := by decide
      exact ⟨⟨_, _, rfl, by decide⟩, hdigits c.toNat hcontrol⟩
    · next hlarge =>
      have hplain : isPlain c = true := decide_eq_true (Nat.le_of_not_lt hlarge)
      exact ⟨⟨c, [], rfl, fun h => hquote h⟩, by rw [List.all_cons, hplain]; rfl⟩
  all_goals exact ⟨⟨_, _, rfl, by decide⟩, by decide⟩

theorem characters?_escaped (rest : List Char) (h : cs.length < n) :
    characters? n (cs.flatMap escape ++ '"' :: rest) = some (cs, rest) := by
  induction cs generalizing n with
  | nil =>
    obtain ⟨n, rfl⟩ := Nat.exists_eq_succ_of_ne_zero (Nat.ne_of_gt h)
    rfl
  | cons c cs ih =>
    obtain ⟨n, rfl⟩ := Nat.exists_eq_succ_of_ne_zero (Nat.ne_of_gt (Nat.zero_lt_of_lt h))
    obtain ⟨⟨d, ds, hescape, hmark⟩, -⟩ := escape_spec c
    have hcharacter := character?_escape c (cs.flatMap escape ++ '"' :: rest)
    rw [List.flatMap_cons, List.append_assoc, characters?]
    · simp only [hcharacter, ih (Nat.lt_of_succ_lt_succ h), Option.bind_eq_bind, Option.bind_some]
    · rw [hescape]
      rintro cs' heq
      exact hmark (List.cons.inj heq).1

/-- **A quoted text** is read back. -/
theorem text?_quoted (s : String) (rest : List Char) : text? (quoted s.toList ++ rest) = some (s, rest) := by
  have hsplit : quoted s.toList ++ rest = '"' :: (s.toList.flatMap escape ++ '"' :: rest) := by simp [quoted]
  have hlength : s.toList.length ≤ (s.toList.flatMap escape).length := by
    generalize s.toList = cs
    induction cs with
    | nil => exact Nat.le_refl _
    | cons c cs ih =>
      obtain ⟨⟨d, ds, hescape, -⟩, -⟩ := escape_spec c
      rw [List.flatMap_cons, hescape, List.length_append, List.length_cons, List.length_cons]
      omega
  have hsteps : s.toList.length < (s.toList.flatMap escape ++ '"' :: rest).length + 1 := by
    rw [List.length_append]
    omega
  rw [hsplit, text?, characters?_escaped rest hsteps, Option.map_some, String.ofList_toList]

theorem text?_of_head (h : cs.head? ≠ some '"') : text? cs = none := by
  rw [text?]
  rintro cs rfl
  exact h rfl

/-! ## Words -/

theorem not_isUpper_of_isDigit (h : c.isDigit = true) : ¬ c.isUpper = true := by
  intro hupper
  have hhigh : c.toNat ≤ 57 := (Char.isDigit_iff_toNat.mp h).2
  have hlow : 65 ≤ c.toNat := UInt32.le_iff_toNat_le.mp (of_decide_eq_true hupper).1
  omega

theorem isWord_of_isDigit (h : c.isDigit = true) : isWord c = true ∧ c.toLower = c := by
  refine ⟨by simp [isWord, Char.isAlphanum, h], ?_⟩
  exact Char.toLower_eq_of_not_isUpper (not_isUpper_of_isDigit h)

theorem isWord_of_mem_text (hm : m.WellFormed) (h : c ∈ m.text) : isWord c = true ∧ c.toLower = c := by
  rw [Numeral.text, List.mem_append, List.mem_append] at h
  rcases h with (hwhole | hfraction) | hexponent
  · exact isWord_of_isDigit (hm.whole c hwhole)
  · split at hfraction
    · cases hfraction
    · rcases List.mem_cons.mp hfraction with rfl | hfraction
      · decide
      · exact isWord_of_isDigit (hm.fraction c hfraction)
  · cases he : m.exponent with
    | none =>
      rw [he] at hexponent
      cases hexponent
    | some e =>
      rw [he, Option.elim_some, Numeral.Exponent.text, List.mem_cons, List.mem_append] at hexponent
      rcases hexponent with rfl | hsign | hexponent
      · decide
      · rcases (hm.exponent e he).sign c (Option.mem_toList.mp hsign) with rfl | rfl <;> decide
      · exact isWord_of_isDigit ((hm.exponent e he).digits c hexponent)

theorem isWord_of_mem_signed (hm : m.WellFormed) {negative : Bool}
    (h : c ∈ (if negative then ['-'] else []) ++ m.text) : isWord c = true := by
  rcases List.mem_append.mp h with hsign | htext
  · split at hsign
    · rw [List.mem_singleton.mp hsign]
      rfl
    · cases hsign
  · exact (isWord_of_mem_text hm htext).1

/-- **The number of a word** with a numeral's text is that of the numeral. -/
theorem magnitude?_text (hm : m.WellFormed) (hunpadded : m.Unpadded) : magnitude? m.text = some m.toDouble := by
  have hlower : m.text.map Char.toLower = m.text := by
    refine (List.map_congr_left fun c hc => (isWord_of_mem_text hm hc).2).trans (List.map_id _)
  have hsplit : Numeral.split? (m.text ++ []) = some (m, []) := Numeral.split?_text_append hm nofun
  rw [List.append_nil] at hsplit
  have hstrict : ¬(m.whole = [] ∨ m.whole.head? = some '0' ∧ m.whole ≠ ['0']) := by
    rintro (hnil | ⟨hhead, hne⟩)
    · exact hunpadded.whole_ne_nil hnil
    · exact hne (hunpadded.whole_head hhead)
  simp only [magnitude?, hlower, hsplit, if_neg hstrict]

theorem exists_text_eq_cons (hm : m.WellFormed) (hunpadded : m.Unpadded) :
    ∃ d ds, m.text = d :: ds ∧ d.isDigit = true := by
  obtain ⟨d, ds, hwhole⟩ := List.exists_cons_of_ne_nil hunpadded.whole_ne_nil
  have hd : d.isDigit = true := hm.whole d (hwhole ▸ List.mem_cons_self)
  refine ⟨d, ds ++ (if m.fraction = [] then [] else '.' :: m.fraction) ++ m.exponent.elim [] Numeral.Exponent.text,
    ?_, hd⟩
  rw [Numeral.text, hwhole, List.cons_append, List.cons_append]

theorem number?_text (hm : m.WellFormed) (hunpadded : m.Unpadded) (negative : Bool) :
    number? ((if negative then ['-'] else []) ++ m.text) = some (if negative then -m.toDouble else m.toDouble) := by
  cases negative with
  | true =>
    have hminus : number? ('-' :: m.text) = (magnitude? m.text).map fun x => -x := rfl
    rw [if_pos rfl, if_pos rfl, List.singleton_append, hminus, magnitude?_text hm hunpadded, Option.map_some]
  | false =>
    obtain ⟨d, ds, htext, hd⟩ := exists_text_eq_cons hm hunpadded
    rw [if_neg Bool.false_ne_true, if_neg Bool.false_ne_true, List.nil_append, number?, magnitude?_text hm hunpadded]
    rintro word heq
    rw [htext] at heq
    rw [(List.cons.inj heq).1] at hd
    exact absurd hd (by decide)

theorem scalar?_word {word : List Char} {value : Value} (hvalue : ofWord? word = some value)
    (hword : word.all isWord = true) (hne : word ≠ []) (hrest : ∀ c ∈ rest.head?, isWord c = false) :
    scalar? (word ++ rest) = some (value, rest) := by
  rw [List.all_eq_true] at hword
  obtain ⟨htake, hdrop⟩ := Numeral.takeWhile_append_of_head hword hrest
  have hmark : (word ++ rest).head? ≠ some '"' := by
    obtain ⟨c, cs, rfl⟩ := List.exists_cons_of_ne_nil hne
    intro hhead
    have hc := hword '"' (Option.some_inj.mp hhead ▸ List.mem_cons_self)
    exact absurd hc (by decide)
  simp only [scalar?, text?_of_head hmark, htake, hdrop, hvalue, Option.map_some]

theorem ofWord?_cons (hc : c.isDigit = true ∨ c = '-') (cs : List Char) :
    ofWord? (c :: cs) = (number? (c :: cs)).map .number := by
  have hname : ∀ d ds, d.isDigit = false → d ≠ '-' → c :: cs ≠ d :: ds := by
    rintro d ds hdigit hminus heq
    rw [(List.cons.inj heq).1] at hc
    rcases hc with hc | hc
    · exact Bool.false_ne_true (hdigit.symm.trans hc)
    · exact hminus hc
  have hnull : c :: cs ≠ "null".toList := hname 'n' ['u', 'l', 'l'] (by decide) (by decide)
  have htrue : c :: cs ≠ "true".toList := hname 't' ['r', 'u', 'e'] (by decide) (by decide)
  have hfalse : c :: cs ≠ "false".toList := hname 'f' ['a', 'l', 's', 'e'] (by decide) (by decide)
  rw [ofWord?, if_neg hnull, if_neg htrue, if_neg hfalse]

/-- **A number** is read up to what cannot stand in it, with its sign. -/
theorem scalar?_numeral (hm : m.WellFormed) (hunpadded : m.Unpadded) (negative : Bool)
    (hrest : ∀ c ∈ rest.head?, isWord c = false) :
    scalar? ((if negative then ['-'] else []) ++ m.text ++ rest) =
      some (.number (if negative then -m.toDouble else m.toDouble), rest) := by
  obtain ⟨c, cs, hcons, hc⟩ : ∃ c cs, (if negative then ['-'] else []) ++ m.text = c :: cs ∧
      (c.isDigit = true ∨ c = '-') := by
    cases negative with
    | true => exact ⟨'-', m.text, rfl, .inr rfl⟩
    | false =>
      obtain ⟨d, ds, htext, hd⟩ := exists_text_eq_cons hm hunpadded
      exact ⟨d, ds, htext, .inl hd⟩
  have hnumber := number?_text hm hunpadded negative
  have hword : ((if negative then ['-'] else []) ++ m.text).all isWord = true :=
    List.all_eq_true.mpr fun c hc => isWord_of_mem_signed hm hc
  rw [hcons] at hnumber hword ⊢
  refine scalar?_word ?_ hword (List.cons_ne_nil _ _) hrest
  rw [ofWord?_cons hc, hnumber, Option.map_some]

/-! ## Values -/

/-- What is read of a value. -/
def Atom.value : Atom → Value
  | boolean b => .boolean b
  | natural n => .number (Double.ofNat n)
  | number x => if x.isFinite then .number x else .null
  | text s => .text s

theorem dataText?_of_not_finite {x : Float} (h : ¬ x.isFinite = true) : Decimal.dataText? x = none := by
  rw [Decimal.dataText?]
  split
  · next negative units hx => exact absurd (Double.isFinite_iff.mpr ⟨negative, units, hx⟩) h
  · rfl

/-- **A value** is read back. -/
theorem scalar?_written (a : Atom) (hrest : ∀ c ∈ rest.head?, isWord c = false) :
    scalar? (a.written ++ rest) = some (a.value, rest) := by
  cases a with
  | text s => simp only [scalar?, Atom.written, text?_quoted, Atom.value]
  | boolean b => cases b <;> exact scalar?_word rfl (by decide) (by decide) hrest
  | natural n =>
    have hdigits : ∀ c ∈ Decimal.natText n, c.isDigit = true := fun c hc => Decimal.isDigit_of_mem_natText hc
    have hm : Numeral.WellFormed ⟨Decimal.natText n, [], none⟩ :=
      Numeral.wellFormed_of_whole hdigits (Decimal.natText_ne_nil n)
    have hread := scalar?_numeral hm ⟨Decimal.natText_ne_nil n, Decimal.natText_head⟩ false hrest
    have htext : Numeral.text ⟨Decimal.natText n, [], none⟩ = Decimal.natText n := by
      rw [Numeral.text, if_pos rfl, Option.elim_none, List.append_nil, List.append_nil]
    have hdouble : Numeral.toDouble ⟨Decimal.natText n, [], none⟩ = Double.ofNat n := by
      rw [Numeral.toDouble, Numeral.toDecimal, List.append_nil, Decimal.natOfText_natText,
        Decimal.toDouble_eq_ofQuotient]
      exact congrArg (Double.ofQuotient false · 1) (Nat.mul_one n)
    rw [htext, hdouble] at hread
    exact hread
  | number x =>
    by_cases hfinite : x.isFinite = true
    · obtain ⟨negative, units, hx⟩ := Double.isFinite_iff.mp hfinite
      obtain ⟨m, hm, hunpadded, htext, hdouble⟩ := Decimal.exists_numeral_dataText hx
      have hread := scalar?_numeral hm hunpadded negative hrest
      have hvalue : (if negative then -m.toDouble else m.toDouble) = x := by
        rw [hdouble]
        cases negative with
        | true => exact Double.neg_of_classify hx
        | false => exact (Double.eq_ofUnits_of_classify hx).symm
      rw [hvalue] at hread
      rw [Atom.written, htext, Option.getD_some, Atom.value, if_pos hfinite, hread]
    · rw [Atom.written, dataText?_of_not_finite hfinite, Option.getD_none, Atom.value, if_neg hfinite]
      exact scalar?_word rfl (by decide) (by decide) hrest

theorem exists_head_of_scalar? {r : Value × List Char} (h : scalar? cs = some r) :
    ∃ c cs', cs = c :: cs' ∧ (c = '"' ∨ isWord c = true) := by
  have hnone : ∀ cs, text? cs = none → cs.takeWhile isWord = [] → scalar? cs = none := by
    intro cs htext hword
    have hempty : ofWord? [] = none := rfl
    simp only [scalar?, htext, hword, hempty, Option.map_none]
  cases cs with
  | nil =>
    rw [hnone [] rfl rfl] at h
    cases h
  | cons c cs =>
    refine ⟨c, cs, rfl, or_iff_not_imp_left.mpr fun hmark => ?_⟩
    by_contra hword
    have htext : text? (c :: cs) = none := text?_of_head fun hhead => hmark (Option.some_inj.mp hhead)
    rw [hnone _ htext (List.takeWhile_cons_of_neg hword)] at h
    cases h

theorem skipBlank_of_head (h : ∀ c ∈ cs.head?, isBlank c = false) : skipBlank cs = cs := by
  cases cs with
  | nil => rfl
  | cons c cs => exact List.dropWhile_cons_of_neg (by rw [h c rfl]; exact Bool.false_ne_true)

theorem value?_of_scalar? {r : Value × List Char} (h : scalar? cs = some r) (n : Nat) :
    value? (n + 1) cs = some r ∧ skipBlank cs = cs := by
  obtain ⟨c, cs, rfl, hc⟩ := exists_head_of_scalar? h
  have hhead : ∀ d, d ≠ '"' → isWord d = false → c ≠ d := by
    rintro d hmark hword rfl
    rcases hc with hc | hc
    · exact hmark hc
    · exact Bool.false_ne_true (hword.symm.trans hc)
  have hblank : isBlank c = false := by
    rw [isBlank, Bool.or_eq_false_iff, Bool.or_eq_false_iff, Bool.or_eq_false_iff]
    refine ⟨⟨⟨?_, ?_⟩, ?_⟩, ?_⟩ <;> exact beq_false_of_ne (hhead _ (by decide) (by decide))
  refine ⟨?_, skipBlank_of_head fun d hd => Option.some_inj.mp hd ▸ hblank⟩
  rw [value?]
  · exact h
  · exact Nat.succ_ne_zero n
  · rintro _ _ _ heq
    exact hhead '[' (by decide) (by decide) (List.cons.inj heq).1
  · rintro _ _ _ heq
    exact hhead '\x7b' (by decide) (by decide) (List.cons.inj heq).1

theorem read_fieldText (field : String × Atom) (n : Nat) (rest : List Char)
    (hrest : ∀ c ∈ rest.head?, isWord c = false) :
    text? (fieldText field ++ rest) = some (field.1, ':' :: (field.2.written ++ rest)) ∧
      value? (n + 1) (skipBlank (field.2.written ++ rest)) = some (field.2.value, rest) := by
  obtain ⟨hvalue, hblank⟩ := value?_of_scalar? (scalar?_written field.2 hrest) n
  refine ⟨?_, by rw [hblank, hvalue]⟩
  rw [fieldText, List.append_assoc, List.cons_append, text?_quoted]

theorem members?_last (field : String × Atom) (n : Nat) (rest : List Char) :
    members? (n + 2) (fieldText field ++ '\x7d' :: rest) = some ([(field.1, field.2.value)], rest) := by
  obtain ⟨hname, hvalue⟩ := read_fieldText field n ('\x7d' :: rest) fun c hc => Option.some_inj.mp hc ▸ rfl
  have hcolon : ∀ cs, skipBlank (':' :: cs) = ':' :: cs := fun _ => rfl
  have hmark : skipBlank ('\x7d' :: rest) = '\x7d' :: rest := rfl
  simp only [members?, hname, Option.bind_eq_bind, Option.bind_some, hcolon, hvalue, hmark]

theorem members?_cons (field : String × Atom) (n : Nat) (rest : List Char) :
    members? (n + 2) (fieldText field ++ ',' :: rest) =
      (members? (n + 1) (skipBlank rest)).map fun r => ((field.1, field.2.value) :: r.1, r.2) := by
  obtain ⟨hname, hvalue⟩ := read_fieldText field n (',' :: rest) fun c hc => Option.some_inj.mp hc ▸ rfl
  have hcolon : ∀ cs, skipBlank (':' :: cs) = ':' :: cs := fun _ => rfl
  have hmark : skipBlank (',' :: rest) = ',' :: rest := rfl
  rw [members?]
  simp only [hname, Option.bind_eq_bind, Option.bind_some, hcolon, hvalue, hmark]
  cases members? (n + 1) (skipBlank rest) <;> rfl

theorem exists_fieldTexts_eq_cons (field : String × Atom) (fields : Object) :
    ∃ cs, List.intercalate [','] ((field :: fields).map fieldText) = '"' :: cs := by
  cases fields with
  | nil => exact ⟨_, List.intercalate_singleton⟩
  | cons next fields => exact ⟨_, List.intercalate_cons_cons⟩

/-- **The fields** that are left of a record are read back. -/
theorem members?_written {fields : Object} (hne : fields ≠ []) (h : fields.length < n) (rest : List Char) :
    members? n (List.intercalate [','] (fields.map fieldText) ++ '\x7d' :: rest) =
      some (fields.map fun field => (field.1, field.2.value), rest) := by
  induction fields generalizing n with
  | nil => exact absurd rfl hne
  | cons field fields ih =>
    obtain ⟨n, rfl⟩ : ∃ k, n = k + 2 := ⟨n - 2, by rw [List.length_cons] at h; omega⟩
    cases fields with
    | nil =>
      rw [List.map_singleton, List.intercalate_singleton, members?_last]
      rfl
    | cons next fields =>
      have hnext := ih (List.cons_ne_nil _ _) (Nat.lt_of_succ_lt_succ h)
      have hblank : skipBlank (List.intercalate [','] ((next :: fields).map fieldText) ++ '\x7d' :: rest) =
          List.intercalate [','] ((next :: fields).map fieldText) ++ '\x7d' :: rest := by
        obtain ⟨cs, hcs⟩ := exists_fieldTexts_eq_cons next fields
        rw [hcs]
        rfl
      rw [List.map_cons, List.map_cons, List.intercalate_cons_cons, ← List.map_cons, List.append_assoc,
        List.append_assoc, List.singleton_append, members?_cons, hblank, hnext]
      rfl

theorem length_lt_written (fields : Object) : fields.length < fields.written.length := by
  have hfields : fields.length ≤ (List.intercalate [','] (fields.map fieldText)).length := by
    induction fields with
    | nil => exact Nat.zero_le _
    | cons field fields ih =>
      have hfield : 0 < (fieldText field).length := Nat.zero_lt_succ _
      cases fields with
      | nil =>
        rw [List.map_singleton, List.intercalate_singleton]
        exact hfield
      | cons next fields =>
        rw [List.map_cons, List.map_cons, List.intercalate_cons_cons, ← List.map_cons, List.length_append,
          List.length_append, List.length_cons]
        omega
  rw [Object.written, List.length_cons, List.length_append]
  omega

/-- **A record** is read back, with all its fields in their order. -/
theorem read?_written (fields : Object) :
    read? (String.ofList fields.written) = some (.object (fields.map fun field => (field.1, field.2.value))) := by
  have hlength := length_lt_written fields
  have hvalue : value? (fields.written.length + 1) (skipBlank fields.written) =
      some (.object (fields.map fun field => (field.1, field.2.value)), []) := by
    cases fields with
    | nil => rfl
    | cons field fields =>
      have hread := members?_written (List.cons_ne_nil field fields) hlength []
      obtain ⟨cs, hcs⟩ := exists_fieldTexts_eq_cons field fields
      have hwritten : skipBlank (Object.written (field :: fields)) = '\x7b' :: '"' :: (cs ++ ['\x7d']) := by
        rw [Object.written, hcs]
        rfl
      have hobject : ∀ n, value? (n + 1) ('\x7b' :: '"' :: (cs ++ ['\x7d'])) =
          (members? n ('"' :: cs ++ ['\x7d'])).map fun r => (.object r.1, r.2) := fun _ => rfl
      rw [hcs] at hread
      rw [hwritten, hobject, hread, Option.map_some]
  rw [read?, String.toList_ofList, hvalue]
  rfl

/-! ## One line -/

theorem isPlain_of_isWord (h : isWord c = true) : isPlain c = true := by
  refine decide_eq_true ?_
  by_contra hcontrol
  have hwords : ∀ n < 0x20, isWord (Char.ofNat n) = false := by decide
  have hword := hwords c.toNat (Nat.lt_of_not_le hcontrol)
  rw [Char.ofNat_toNat, h] at hword
  cases hword

theorem isPlain_of_mem_quoted (h : c ∈ quoted cs) : isPlain c = true := by
  rw [quoted, List.mem_cons, List.mem_append, List.mem_flatMap, List.mem_singleton] at h
  rcases h with rfl | ⟨d, -, hd⟩ | rfl
  · rfl
  · exact List.all_eq_true.mp (escape_spec d).2 c hd
  · rfl

theorem isPlain_of_mem_atom {a : Atom} (h : c ∈ a.written) : isPlain c = true := by
  cases a with
  | text s => exact isPlain_of_mem_quoted h
  | boolean b =>
    refine List.all_eq_true.mp ?_ c h
    cases b <;> rfl
  | natural n => exact isPlain_of_isWord (isWord_of_isDigit (Decimal.isDigit_of_mem_natText h)).1
  | number x =>
    by_cases hfinite : x.isFinite = true
    · obtain ⟨negative, units, hx⟩ := Double.isFinite_iff.mp hfinite
      obtain ⟨m, hm, -, htext, -⟩ := Decimal.exists_numeral_dataText hx
      rw [Atom.written, htext] at h
      exact isPlain_of_isWord (isWord_of_mem_signed hm h)
    · rw [Atom.written, dataText?_of_not_finite hfinite] at h
      exact List.all_eq_true.mp rfl c h

/-- **A record is one line.** -/
theorem isPlain_of_mem_written {fields : Object} (h : c ∈ fields.written) : isPlain c = true := by
  have hfields : ∀ fields : Object, c ∈ List.intercalate [','] (fields.map fieldText) → isPlain c = true := by
    intro fields
    induction fields with
    | nil => exact fun h => nomatch h
    | cons field fields ih =>
      have hfield : c ∈ fieldText field → isPlain c = true := by
        intro h
        rw [fieldText, List.mem_append, List.mem_cons] at h
        rcases h with h | rfl | h
        · exact isPlain_of_mem_quoted h
        · rfl
        · exact isPlain_of_mem_atom h
      cases fields with
      | nil =>
        rw [List.map_singleton, List.intercalate_singleton]
        exact hfield
      | cons next fields =>
        rw [List.map_cons, List.map_cons, List.intercalate_cons_cons, ← List.map_cons, List.mem_append,
          List.mem_append, List.mem_singleton]
        rintro ((h | rfl) | h)
        · exact hfield h
        · rfl
        · exact ih h
  rw [Object.written, List.mem_cons, List.mem_append, List.mem_singleton] at h
  rcases h with rfl | h | rfl
  · rfl
  · exact hfields fields h
  · rfl

end SciCalc.Json
