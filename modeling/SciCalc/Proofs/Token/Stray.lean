/-
Characters that start no token. The scan ends at the first of them (`scan_eq_error`): what is in front of it has
tokens, and the character itself is none that an expression can have there.

The scan can also go by places, which are numbers of bytes, and look up at each of them what is left of the
text (`scanFrom`). There it might end in other ways: behind the text or within a character, or at a number or a
sign that stands for nothing. None of them occurs, and the two are the same (`scanFrom_eq`).
-/
import SciCalc.Proofs.Token.Normal

namespace SciCalc

namespace Text

variable {cs : List Char}

/-- The text behind so many bytes, if a character ends there. -/
def dropBytes? : Nat → List Char → Option (List Char)
  | 0, cs => some cs
  | _ + 1, [] => none
  | bytes + 1, c :: cs => if c.utf8Size ≤ bytes + 1 then dropBytes? (bytes + 1 - c.utf8Size) cs else none

theorem dropBytes?_append (before rest : List Char) :
    dropBytes? (utf8Length before) (before ++ rest) = some rest := by
  induction before with
  | nil => cases rest <;> rfl
  | cons c before ih =>
    have hpos := c.utf8Size_pos
    obtain ⟨bytes, hbytes⟩ : ∃ bytes, c.utf8Size + utf8Length before = bytes + 1 :=
      Nat.exists_eq_succ_of_ne_zero (by omega)
    rw [utf8Length_cons, List.cons_append, hbytes, dropBytes?, if_pos (by omega), ← hbytes,
      Nat.add_sub_cancel_left, ih]

theorem utf8Length_pos (h : cs ≠ []) : 0 < utf8Length cs := by
  obtain ⟨c, rest, rfl⟩ := List.exists_cons_of_ne_nil h
  have hpos := c.utf8Size_pos
  rw [utf8Length_cons]
  omega

end Text

namespace Token

variable {t : Token} {c : Char} {cs before rest lexeme : List Char} {pieces : List Piece} {offset : Nat}
  {e : ScanError}

/-! ## Going by places -/

/-- How the scan can end early where it goes by places. -/
inductive Failure where
  /-- No token begins with a character. -/
  | noToken (fragment : Char) (offset : Nat)
  /-- A number stands for no double. -/
  | noNumber (lexeme : List Char) (offset : Nat)
  /-- A sign stands for no token. -/
  | noSign (fragment : Char) (offset : Nat)
  /-- No character begins at a place of the text. -/
  | noPlace (offset : Nat)

/-- The kinds of token that characters tell apart. -/
inductive Kind where
  | number | name | sign

/-- The kind of the token at the front of a text, and its characters. -/
def lexeme? (cs : List Char) : Option (Kind × List Char) :=
  match Numeral.split? cs with
  | some (n, _) => some (.number, n.text)
  | none =>
    match cs with
    | [] => none
    | c :: after =>
      if startsName c then some (.name, c :: after.takeWhile continuesName)
      else if c ∈ signs then some (.sign, [c])
      else none

/-- The token that characters stand for, the first of which is given. -/
def Kind.token (first : Char) (lexeme : List Char) (offset : Nat) : Kind → Except Failure Token
  | number =>
    match Decimal.doubleOfText? lexeme with
    | some x => .ok (.number x)
    | none => .error (.noNumber lexeme offset)
  | name => .ok (.identifier (String.ofList lexeme))
  | sign =>
    match ofSymbol? first with
    | some t => .ok t
    | none => .error (.noSign first offset)

theorem lexeme?_of_split? (h : split? (c :: cs) = some (t, lexeme, rest)) :
    ∃ kind : Kind, lexeme? (c :: cs) = some (kind, lexeme) ∧ ∀ offset, kind.token c lexeme offset = .ok t := by
  unfold split? at h
  split at h
  · next n rest' hn =>
    cases h
    refine ⟨.number, by simp only [lexeme?, hn], fun offset => ?_⟩
    simp only [Kind.token, Decimal.doubleOfText?_numeral (Numeral.wellFormed_of_split? hn)]
  · next hnone =>
    simp only at h
    split at h
    · next hname =>
      cases h
      exact ⟨.name, by simp only [lexeme?, hnone, hname, if_true], fun _ => rfl⟩
    · next hname =>
      obtain ⟨u, hu, heq⟩ := Option.map_eq_some_iff.mp h
      cases heq
      refine ⟨.sign, ?_, fun offset => by simp only [Kind.token, hu]⟩
      simp only [lexeme?, hnone, hname, Bool.false_eq_true, if_false, if_pos (mem_signs_of_ofSymbol? hu)]

theorem stuck_of_split? (h : split? (c :: cs) = none) :
    Numeral.split? (c :: cs) = none ∧ startsName c = false ∧ c ∉ signs := by
  unfold split? at h
  split at h
  · cases h
  · next hnone =>
    simp only at h
    split at h
    · cases h
    · next hname =>
      have hall : signs.all (fun d => (ofSymbol? d).isSome) = true := by decide
      have hsymbol : ofSymbol? c = none := Option.map_eq_none_iff.mp h
      refine ⟨hnone, Bool.eq_false_iff.mpr hname, fun hmem => ?_⟩
      have hsome := List.all_eq_true.mp hall c hmem
      rw [hsymbol] at hsome
      cases hsome

theorem lexeme?_eq_none (h : split? (c :: cs) = none) : lexeme? (c :: cs) = none := by
  obtain ⟨hnumber, hname, hsign⟩ := stuck_of_split? h
  simp only [lexeme?, hnumber, hname, Bool.false_eq_true, if_false, if_neg hsign]

theorem ne_nil_of_lexeme? {kind : Kind} (h : lexeme? cs = some (kind, lexeme)) : lexeme ≠ [] := by
  unfold lexeme? at h
  split at h
  · next n rest hn =>
    cases h
    exact Numeral.text_ne_nil_of_split? hn
  · split at h
    · cases h
    · split at h
      · cases h
        exact List.cons_ne_nil _ _
      · split at h
        · cases h
          exact List.cons_ne_nil _ _
        · cases h

/-- The tokens of a text from a place on. -/
def scanFrom (text : List Char) (offset : Nat) : Except Failure (List Token) :=
  if _hplace : offset < Text.utf8Length text then
    match Text.dropBytes? offset text with
    | none => .error (.noPlace offset)
    | some rest =>
      match Text.trimStart rest with
      | [] => .ok []
      | c :: after =>
        let start := offset + (Text.utf8Length rest - Text.utf8Length (c :: after))
        match _h : lexeme? (c :: after) with
        | none => .error (.noToken c start)
        | some (kind, lexeme) =>
          match kind.token c lexeme start with
          | .error e => .error e
          | .ok t => (scanFrom text (start + Text.utf8Length lexeme)).map (t :: ·)
  else .ok []
termination_by Text.utf8Length text - offset
decreasing_by
  have hpos := Text.utf8Length_pos (ne_nil_of_lexeme? _h)
  omega

theorem eq_takeWhile_append {after : List Char} (h : Text.trimStart cs = c :: after) :
    cs = cs.takeWhile Text.isBlank ++ c :: after := by
  rw [← h, Text.trimStart, List.takeWhile_append_dropWhile]

theorem scanFrom_append (before rest : List Char) :
    scanFrom (before ++ rest) (Text.utf8Length before) =
      match Text.trimStart rest with
      | [] => .ok []
      | c :: after =>
        let start := Text.utf8Length before + Text.utf8Length (rest.takeWhile Text.isBlank)
        match lexeme? (c :: after) with
        | none => .error (.noToken c start)
        | some (kind, lexeme) =>
          match kind.token c lexeme start with
          | .error e => .error e
          | .ok t => (scanFrom (before ++ rest) (start + Text.utf8Length lexeme)).map (t :: ·) := by
  rw [scanFrom, Text.dropBytes?_append]
  simp only
  cases htrim : Text.trimStart rest with
  | nil => split <;> rfl
  | cons c after =>
    have hlength := congrArg Text.utf8Length (eq_takeWhile_append htrim)
    rw [Text.utf8Length_append] at hlength
    have hpos : 0 < Text.utf8Length (c :: after) := Text.utf8Length_pos (List.cons_ne_nil c after)
    have hplace : Text.utf8Length before < Text.utf8Length (before ++ rest) := by
      rw [Text.utf8Length_append]
      omega
    have hblank : Text.utf8Length rest - Text.utf8Length (c :: after) =
        Text.utf8Length (rest.takeWhile Text.isBlank) := by omega
    simp only [dif_pos hplace, hblank]
    split
    · next hnone => simp only [hnone]
    · next kind lexeme hsome => simp only [hsome]

/-- **Going by places** is the same as going on with what is left: the places are all in the text, and all
numbers and signs stand for tokens. -/
theorem scanFrom_eq (h : Text.utf8Length before = offset) :
    scanFrom (before ++ rest) offset = (scan offset rest).mapError fun e => .noToken e.fragment e.offset := by
  fun_induction scan offset rest generalizing before with
  | case1 offset rest htrim =>
    subst h
    rw [scanFrom_append, htrim]
    rfl
  | case2 offset rest =>
    rename_i start c after htrim hsplit
    subst h
    rw [scanFrom_append, htrim]
    simp only [lexeme?_eq_none hsplit]
    rfl
  | case3 offset rest =>
    rename_i start c after htrim t lexeme others hsplit ih
    subst h
    obtain ⟨kind, hkind, htoken⟩ := lexeme?_of_split? hsplit
    -- The next place is behind the white space and the token, in the same text.
    have hrest : before ++ rest = before ++ rest.takeWhile Text.isBlank ++ lexeme ++ others := by
      rw [List.append_assoc, List.append_assoc, append_of_split? hsplit, ← eq_takeWhile_append htrim]
    have hplace : Text.utf8Length (before ++ rest.takeWhile Text.isBlank ++ lexeme) =
        start + Text.utf8Length lexeme := by
      rw [Text.utf8Length_append, Text.utf8Length_append]
    rw [scanFrom_append, htrim]
    simp only [hkind, htoken]
    rw [hrest, ih hplace]
    cases scan (start + Text.utf8Length lexeme) others <;> rfl

/-! ## Characters -/

/-- `[0-9A-Za-z_.^*/+%(),!-]` -/
def Readable (c : Char) : Prop :=
  ('0' ≤ c ∧ c ≤ '9') ∨ ('A' ≤ c ∧ c ≤ 'Z') ∨ ('a' ≤ c ∧ c ≤ 'z') ∨
    c ∈ ['_', '.', '^', '*', '/', '+', '%', '(', ')', ',', '!', '-']

theorem listed_iff :
    c ∈ ['_', '.', '^', '*', '/', '+', '%', '(', ')', ',', '!', '-'] ↔ c = '_' ∨ c = '.' ∨ c ∈ signs := by
  have hperm : ['^', '*', '/', '+', '%', '(', ')', ',', '!', '-'].Perm signs := by decide
  rw [List.mem_cons, List.mem_cons, hperm.mem_iff]

theorem readable_iff : Readable c ↔ continuesName c = true ∨ c = '.' ∨ c ∈ signs := by
  rw [Readable, listed_iff, Pattern.continuesName_iff]
  constructor
  · rintro (hdigit | hupper | hlower | hbar | hother)
    · exact .inl (.inr (.inr (.inl hdigit)))
    · exact .inl (.inl hupper)
    · exact .inl (.inr (.inl hlower))
    · exact .inl (.inr (.inr (.inr hbar)))
    · exact .inr hother
  · rintro ((hupper | hlower | hdigit | hbar) | hother)
    · exact .inr (.inl hupper)
    · exact .inr (.inr (.inl hlower))
    · exact .inl hdigit
    · exact .inr (.inr (.inr (.inl hbar)))
    · exact .inr (.inr (.inr (.inr hother)))

theorem LexemeAt.readable (h : LexemeAt cs lexeme t) : ∀ c ∈ lexeme, Readable c := by
  intro c hc
  cases h with
  | number taken read =>
    obtain ⟨n, hn, rfl⟩ := Pattern.mem_number_iff.mp taken.mem
    rcases Numeral.isDigit_or_of_mem_text hn hc with hdigit | hother
    · exact readable_iff.mpr (.inl (continuesName_of_isDigit hdigit))
    · have hall : ['.', 'e', '+', '-'].all (fun d => continuesName d || d == '.' || d ∈ signs) = true := by decide
      have hc' := List.all_eq_true.mp hall c hother
      simp only [Bool.or_eq_true, beq_iff_eq, decide_eq_true_eq, or_assoc] at hc'
      exact readable_iff.mpr hc'
  | name noNumber taken =>
    obtain ⟨d, ds, rfl, hd, hds⟩ := Pattern.mem_name_iff.mp taken.mem
    rcases List.mem_cons.mp hc with rfl | hmem
    · exact readable_iff.mpr (.inl (continuesName_of_startsName hd))
    · exact readable_iff.mpr (.inl (hds c hmem))
  | sign noNumber noName taken listed =>
    rw [List.mem_singleton.mp hc]
    exact readable_iff.mpr (.inr (.inr (mem_signs_of_ofSymbol? (ofSymbol?_eq_some_iff.mpr listed))))

theorem Decomposed.readable (h : Decomposed cs pieces) : ∀ c ∈ cs, Text.isBlank c = true ∨ Readable c := by
  induction h with
  | nil skipped => exact fun c hc => .inl (skipped c hc)
  | cons skipped taken others ih =>
    intro c hc
    rcases List.mem_append.mp hc with hblank | hmem
    · exact .inl (skipped c hblank)
    · rcases List.mem_append.mp hmem with hlexeme | hrest
      · exact .inr (taken.readable c hlexeme)
      · exact ih c hrest

theorem isDigit_eq_false_of_split? (h : Numeral.split? (c :: cs) = none) : c.isDigit = false := by
  refine Bool.eq_false_iff.mpr fun hc => ?_
  have hn := Numeral.wellFormed_of_whole (List.forall_mem_singleton.mpr hc) (List.cons_ne_nil c [])
  exact split?_eq_none_iff.mp h [c] (Pattern.mem_number_iff.mpr ⟨_, hn, rfl⟩) ⟨cs, rfl⟩

theorem isDigit_eq_false_of_split?_point (h : Numeral.split? ('.' :: c :: cs) = none) : c.isDigit = false := by
  refine Bool.eq_false_iff.mpr fun hc => ?_
  have hn := Numeral.wellFormed_of_fraction (List.forall_mem_nil _) (List.forall_mem_singleton.mpr hc)
    (List.cons_ne_nil c [])
  exact split?_eq_none_iff.mp h ['.', c] (Pattern.mem_number_iff.mpr ⟨_, hn, rfl⟩) ⟨cs, rfl⟩

theorem not_readable_of_split? (h : split? (c :: rest) = none) :
    ¬Readable c ∨ (c = '.' ∧ ∀ d ∈ rest.head?, ¬('0' ≤ d ∧ d ≤ '9')) := by
  obtain ⟨hnumber, hname, hsign⟩ := stuck_of_split? h
  by_cases hpoint : c = '.'
  · subst hpoint
    refine .inr ⟨rfl, fun d hd hrange => ?_⟩
    obtain ⟨ds, rfl⟩ := List.head?_eq_some_iff.mp hd
    exact Bool.eq_false_iff.mp (isDigit_eq_false_of_split?_point hnumber) (Pattern.isDigit_iff.mpr hrange)
  · have hcontinues : continuesName c = false := by
      rw [continuesName, Char.isAlphanum, isDigit_eq_false_of_split? hnumber, Bool.or_false]
      exact hname
    refine .inl fun hc => ?_
    rcases readable_iff.mp hc with hin | hother | hmem
    · exact Bool.eq_false_iff.mp hcontinues hin
    · exact hpoint hother
    · exact hsign hmem

/-! ## The end of the scan -/

/-- **Where the scan ends early**, no token begins; and what is in front is taken apart as it is in the whole
text. -/
theorem scan_eq_error (h : scan offset cs = .error e) :
    ∃ before rest pieces, cs = before ++ e.fragment :: rest ∧ e.offset = offset + Text.utf8Length before ∧
      Text.isBlank e.fragment = false ∧ split? (e.fragment :: rest) = none ∧ Decomposed before pieces := by
  fun_induction scan offset cs with
  | case1 offset cs htrim => cases h
  | case2 offset cs =>
    rename_i start c after htrim hsplit
    cases h
    have hnot := List.head?_dropWhile_not Text.isBlank cs
    rw [← Text.trimStart, htrim] at hnot
    refine ⟨cs.takeWhile Text.isBlank, after, [], eq_takeWhile_append htrim, rfl, by simpa using hnot, hsplit,
      .nil fun c hc => List.mem_takeWhile_imp hc⟩
  | case3 offset cs =>
    rename_i start c after htrim t lexeme others hsplit ih
    have hothers : scan (start + Text.utf8Length lexeme) others = .error e := by
      cases hscan : scan (start + Text.utf8Length lexeme) others with
      | error e' => rw [hscan] at h; exact h
      | ok ts => rw [hscan] at h; cases h
    obtain ⟨before, rest, pieces, rfl, hplace, hblank, hnone, hpieces⟩ := ih hothers
    obtain ⟨taken, happend⟩ := split?_eq_some_iff.mp hsplit
    -- Without what is behind the error there is less text, but no number or name of it gets longer.
    have taken' : LexemeAt (lexeme ++ before) lexeme t := by
      refine taken.of_fronts (List.prefix_append _ _) fun us _ hus => hus.trans ?_
      exact ⟨e.fragment :: rest, by rw [← happend, List.append_assoc]⟩
    refine ⟨cs.takeWhile Text.isBlank ++ (lexeme ++ before), rest, ⟨_, lexeme, t⟩ :: pieces, ?_, ?_, hblank, hnone,
      .cons (fun c hc => List.mem_takeWhile_imp hc) taken' hpieces⟩
    · conv_lhs => rw [eq_takeWhile_append htrim, ← happend]
      simp
    · rw [hplace, Text.utf8Length_append, Text.utf8Length_append]
      omega

/-- **An error of the scan** is at the first character that starts no token. It stands in the text as it is read,
behind so many bytes, and what is in front of it has tokens; it is no white space, and it is not readable, or a
point that no digit follows. A text with a character in it that is not readable has an error. No error comes
from a number, a sign or a place outside of the text. -/
theorem ofText_error (text : String) :
    (∀ fragment offset, ofText text = .error ⟨fragment, offset⟩ →
      offset < Text.utf8Length (Keypad.normalize text.toList) ∧
      ∃ before rest, Keypad.normalize text.toList = before ++ fragment :: rest ∧
        Text.utf8Length before = offset ∧ Text.isBlank fragment = false ∧
        (¬Readable fragment ∨ (fragment = '.' ∧ ∀ d ∈ rest.head?, ¬('0' ≤ d ∧ d ≤ '9'))) ∧
        ∃ ts, ofText (String.ofList before) = .ok ts) ∧
    ((∃ c ∈ Keypad.normalize text.toList, Text.isBlank c = false ∧ ¬Readable c) →
      ∃ e, ofText text = .error e) ∧
    scanFrom (Keypad.normalize text.toList) 0 =
      (ofText text).mapError fun e => .noToken e.fragment e.offset := by
  refine ⟨fun fragment offset herror => ?_, ?_, ?_⟩
  · obtain ⟨before, rest, pieces, htext, hplace, hblank, hnone, hpieces⟩ := scan_eq_error herror
    have hstart : Text.utf8Length before = offset := (hplace.trans (Nat.zero_add _)).symm
    have hlength : offset < Text.utf8Length (Keypad.normalize text.toList) := by
      have hpos : 0 < Text.utf8Length (fragment :: rest) := Text.utf8Length_pos (List.cons_ne_nil fragment rest)
      have hall : Text.utf8Length (before ++ fragment :: rest) =
          Text.utf8Length before + Text.utf8Length (fragment :: rest) := Text.utf8Length_append before _
      rw [htext, hall, hstart]
      omega
    -- A front of the normalized text is normalized, so that it is read as it stands.
    have hnormal : Keypad.normalize before = before := by
      refine Keypad.normalize_of_normal ((Keypad.normal_normalize text.toList).of_isInfix ?_)
      exact (List.prefix_append before (fragment :: rest)).isInfix.trans (htext ▸ List.infix_refl _)
    have hbefore : ofText (String.ofList before) = .ok (pieces.map Piece.token) := by
      rw [ofText, String.toList_ofList, hnormal]
      exact hpieces.scan 0
    exact ⟨hlength, before, rest, htext, hstart, hblank, not_readable_of_split? hnone, _, hbefore⟩
  · rintro ⟨c, hc, hblank, hreadable⟩
    cases htext : ofText text with
    | error e => exact ⟨e, rfl⟩
    | ok ts =>
      obtain ⟨pieces, hpieces, -⟩ := exists_decomposed_of_scan htext
      rcases hpieces.readable c hc with h | h
      · exact absurd h (Bool.eq_false_iff.mp hblank)
      · exact absurd h hreadable
  · have hstart : Text.utf8Length [] = 0 := rfl
    exact scanFrom_eq hstart

end Token
end SciCalc
