/-
A TOML text line by line: blank lines and lines that assign a value to a bare key, with blanks and comments wherever
they may stand. The lines are read in their order, whatever comes behind them (`statements?_of_isLines`), and of a line
that begins like an assignment nothing else is read (`statements?_of_isLeft`).
-/
import SciCalc.Proofs.Toml.Number
import SciCalc.Proofs.Toml.Quoted

namespace SciCalc.Toml

/-! ## The grammar -/

/-- The text of a value that is no float and has no parts. -/
inductive IsLiteral : List Char → Value → Prop
  | text {text content} : IsQuoted text content → IsLiteral text (.text (String.ofList content))
  | integer {text value} : IsInteger text value → IsLiteral text (.integer value)
  | boolean {value} : IsLiteral (if value then "true".toList else "false".toList) (.boolean value)

/-- A comment, which may be left out. It goes up to the end of the line. -/
inductive IsComment : List Char → Prop
  | nil : IsComment []
  | mk {cs} : (∀ c ∈ cs, isControl c = false) → IsComment ('#' :: cs)

/-- A key that needs no marks. -/
def IsBareKey (key : String) : Prop := key.toList ≠ [] ∧ ∀ c ∈ key.toList, isBare c = true

/-- What stands in front of the value of a key. -/
inductive IsLeft (key : String) : List Char → Prop
  | mk {indent spaces} : IsSpaces indent → IsBareKey key → IsSpaces spaces →
      IsLeft key (indent ++ (key.toList ++ (spaces ++ ['='])))

/-- A line that assigns what a text stands for. -/
inductive IsAssignment (key : String) (text : List Char) : List Char → Prop
  | mk {left before after comment} : IsLeft key left → IsSpaces before → IsSpaces after → IsComment comment →
      IsAssignment key text (left ++ (before ++ (text ++ (after ++ comment))))

/-- A line, and what it assigns. -/
inductive IsLine : List Char → Option (String × Value) → Prop
  | blank {spaces comment} : IsSpaces spaces → IsComment comment → IsLine (spaces ++ comment) none
  | assignment {key text value line} : IsAssignment key text line → IsLiteral text value →
      IsLine line (some (key, value))

/-- A text that begins with lines, what comes behind them, and what they assign. -/
inductive IsLines (rest : List Char) : (text : List Char) → (assigned : List (String × Value)) → Prop
  | nil : IsLines rest rest []
  | cons {line a e text assigned} : IsLine line a → IsNewline e → IsLines rest text assigned →
      IsLines rest (line ++ (e ++ text)) (a.toList ++ assigned)

/-- A text that is made of lines, and what they assign. The last of them has no line end. -/
inductive IsText : List Char → List (String × Value) → Prop
  | mk {line text assigned a} : IsLines line text assigned → IsLine line a → IsText text (assigned ++ a.toList)

/-- What comes behind a line: its end and anything, or nothing. -/
inductive IsBehind : List Char → Prop
  | nil : IsBehind []
  | newline {e cs} : IsNewline e → IsBehind (e ++ cs)

theorem isAssignment_plain {key : String} (hkey : IsBareKey key) (text : List Char) :
    IsAssignment key text (key.toList ++ (" = ".toList ++ text)) := by
  have hspace : IsSpaces [' '] := by simp [IsSpaces, isSpace]
  have hleft : IsLeft key (key.toList ++ " =".toList) := .mk (List.forall_mem_nil _) hkey hspace
  have hline : IsAssignment key text (key.toList ++ " =".toList ++ ([' '] ++ (text ++ ([] ++ [])))) :=
    .mk hleft hspace (List.forall_mem_nil _) .nil
  simpa using hline

/-- What a line says. -/
def statement (assigned : String × Value) : Statement := .assignment [assigned.1] assigned.2

/-! ## Values -/

variable {n : Nat} {c : Char} {cs text rest line left spaces after comment e : List Char} {key : String} {value : Value}
variable {a : Option (String × Value)} {assigned : List (String × Value)}

/-- Whether a text does not go on with the value in front of it. -/
def EndsValue (cs : List Char) : Prop := ∀ c ∈ cs.head?, isScalar c = false ∧ ¬IsMark c

theorem value?_succ (h : ∀ c ∈ cs.head?, c ≠ '[' ∧ c ≠ '\x7b') : value? (n + 1) cs = plainValue? cs := by
  rw [value?]
  · simp
  · rintro cs rfl
    exact (h '[' rfl).1 rfl
  · rintro n cs - rfl
    exact (h '\x7b' rfl).2 rfl

theorem value?_word (hword : ∀ c ∈ text, isScalar c = true) (hne : text ≠ []) (hrest : EndsValue rest) :
    value? (n + 1) (text ++ rest) = (scalar? text).map fun value => (value, rest) := by
  obtain ⟨htake, hdrop⟩ := Numeral.takeWhile_append_of_head hword fun c hc => (hrest c hc).1
  obtain ⟨c, cs, rfl⟩ := List.exists_cons_of_ne_nil hne
  have hc := hword c List.mem_cons_self
  have hhead : ∀ d ∈ (c :: cs ++ rest).head?, d ≠ '[' ∧ d ≠ '\x7b' := by
    rintro d ⟨⟩
    constructor <;> rintro rfl <;> cases hc
  rw [value?_succ hhead, plainValue?, htake, hdrop]

theorem value?_quoted (h : IsQuoted text cs) (hrest : EndsValue rest) :
    value? (n + 1) (text ++ rest) = some (.text (String.ofList cs), rest) := by
  obtain ⟨mark, tail, rfl, hmark⟩ := h.exists_eq_cons
  have hquoted : quotedText? (mark :: tail ++ rest) = some (String.ofList cs, rest) :=
    quotedText?_of_isQuoted h fun c hc => (hrest c hc).2
  have hhead : ∀ d ∈ (mark :: tail ++ rest).head?, d ≠ '[' ∧ d ≠ '\x7b' := by
    rintro d ⟨⟩
    rcases hmark with rfl | rfl <;> decide
  have htake : (mark :: tail ++ rest).takeWhile isScalar = [] :=
    List.takeWhile_cons_of_neg (by rcases hmark with rfl | rfl <;> decide)
  rw [value?_succ hhead, plainValue?, htake, hquoted, Option.map_some]

/-- **The text of a value** is read as the value. -/
theorem value?_of_isLiteral (h : IsLiteral text value) (hrest : EndsValue rest) :
    value? (n + 1) (text ++ rest) = some (value, rest) := by
  cases h with
  | text h => exact value?_quoted h hrest
  | integer h => rw [value?_word h.isScalar h.ne_nil hrest, scalar?_of_isInteger h, Option.map_some]
  | @boolean value =>
    cases value
    · exact value?_word (List.all_eq_true.mp rfl) (by decide) hrest
    · exact value?_word (List.all_eq_true.mp rfl) (by decide) hrest

/-- **The text of a float** is not read. -/
theorem value?_of_isFloat (h : IsFloat text) (hrest : EndsValue rest) : value? (n + 1) (text ++ rest) = none := by
  rw [value?_word h.isScalar h.ne_nil hrest, scalar?_of_isFloat h, Option.map_none]

/-! ## What is around a value -/

theorem skipSpace_append (hspaces : IsSpaces spaces) (hcs : ∀ c ∈ cs.head?, isSpace c = false) :
    skipSpace (spaces ++ cs) = cs := (Numeral.takeWhile_append_of_head hspaces hcs).2

theorem eq_of_isSpace (h : isSpace c = true) : c = ' ' ∨ c = '\t' := by
  rwa [isSpace, Bool.or_eq_true, beq_iff_eq, beq_iff_eq] at h

theorem IsComment.head (h : IsComment comment) : ∀ c ∈ comment.head?, c = '#' := by
  cases h with
  | nil => simp
  | mk => exact fun c hc => (Option.some.inj hc).symm

theorem IsBehind.head (h : IsBehind rest) : ∀ c ∈ rest.head?, c = '\n' ∨ c = '\r' := by
  cases h with
  | nil => simp
  | newline he => cases he <;> simp

theorem isBare_of_isSpace (h : isSpace c = true) : isBare c = false := by
  rcases eq_of_isSpace h with rfl | rfl <;> rfl

theorem IsBareKey.exists_eq_cons (h : IsBareKey key) : ∃ c cs, key.toList = c :: cs ∧ isBare c = true := by
  obtain ⟨c, cs, hcons⟩ := List.exists_cons_of_ne_nil h.1
  exact ⟨c, cs, hcons, h.2 c (hcons ▸ List.mem_cons_self)⟩

theorem name?_of_isBareKey (hkey : IsBareKey key) (hrest : ∀ c ∈ rest.head?, isBare c = false) :
    name? (key.toList ++ rest) = some (key, rest) := by
  obtain ⟨htake, hdrop⟩ := Numeral.takeWhile_append_of_head hkey.2 hrest
  obtain ⟨c, cs, hcons, -⟩ := hkey.exists_eq_cons
  rw [hcons] at htake hdrop
  rw [name?, hcons, htake, hdrop]
  exact congrArg (fun key => some (key, rest)) (hcons ▸ String.ofList_toList)

/-- **A bare key** is read up to the mark behind it. -/
theorem key?_of_isBareKey (hkey : IsBareKey key) (hspaces : IsSpaces spaces) (cs : List Char) :
    key? (n + 1) (key.toList ++ (spaces ++ '=' :: cs)) = some ([key], '=' :: cs) := by
  have hname : name? (key.toList ++ (spaces ++ '=' :: cs)) = some (key, spaces ++ '=' :: cs) := by
    refine name?_of_isBareKey hkey (forall_head?_append ?_ ?_)
    · exact fun c hc => isBare_of_isSpace (hspaces c (List.mem_of_mem_head? hc))
    · rintro c ⟨⟩; rfl
  have hskip : skipSpace (spaces ++ '=' :: cs) = '=' :: cs := skipSpace_append hspaces (by rintro c ⟨⟩; rfl)
  simp only [key?, hname, Option.bind_eq_bind, Option.bind_some, hskip]
  rfl

/-- **The rest of a line** is left out. -/
theorem nextLine?_of_isBehind (hafter : IsSpaces after) (hcomment : IsComment comment) (hrest : IsBehind rest) :
    nextLine? (after ++ (comment ++ rest)) = if rest = [] then some [] else afterNewline? rest := by
  have hskip : skipSpace (after ++ (comment ++ rest)) = comment ++ rest := by
    refine skipSpace_append hafter (forall_head?_append ?_ ?_)
    · intro c hc; rw [hcomment.head c hc]; rfl
    · intro c hc; rcases hrest.head c hc with rfl | rfl <;> rfl
  rw [nextLine?, hskip]
  cases hcomment with
  | nil =>
    have hhead : rest.head? ≠ some '#' := fun hc => by rcases hrest.head _ hc with h | h <;> cases h
    rw [List.nil_append, if_neg hhead]
  | @mk cs hcs =>
    have hdrop : ('#' :: cs ++ rest).dropWhile (fun c => !isControl c) = rest := by
      refine (Numeral.takeWhile_append_of_head ?_ ?_).2
      · exact List.forall_mem_cons.mpr ⟨rfl, fun c hc => by rw [hcs c hc]; rfl⟩
      · intro c hc; rcases hrest.head c hc with rfl | rfl <;> rfl
    have hhead : ('#' :: cs ++ rest).head? = some '#' := rfl
    rw [if_pos hhead, hdrop]

/-! ## Between two lines -/

theorem skipLines_cons (hfeed : c ≠ '\n') (hreturn : c ≠ '\r') (inComment : Bool) (cs : List Char) :
    skipLines inComment (c :: cs) =
      if inComment && !isControl c then skipLines true cs
      else if isSpace c then skipLines false cs
      else if c = '#' then skipLines true cs
      else c :: cs := by
  have hline : ¬(c = '\n' ∨ c = '\r' ∧ cs.head? = some '\n') := by
    rintro (h | ⟨h, -⟩)
    · exact hfeed h
    · exact hreturn h
  rw [skipLines, if_neg hline]

theorem skipLines_spaces (hspaces : IsSpaces spaces) (cs : List Char) :
    skipLines false (spaces ++ cs) = skipLines false cs := by
  induction spaces with
  | nil => rfl
  | cons c spaces ih =>
    obtain ⟨hc, hspaces⟩ := List.forall_mem_cons.mp hspaces
    rw [List.cons_append, skipLines_cons (by rintro rfl; cases hc) (by rintro rfl; cases hc), if_neg (by simp),
      if_pos hc]
    exact ih hspaces

theorem skipLines_newline (he : IsNewline e) (inComment : Bool) (cs : List Char) :
    skipLines inComment (e ++ cs) = skipLines false cs := by
  cases he <;> rfl

theorem skipLines_comment (hcomment : IsComment comment) (hrest : IsBehind rest) :
    skipLines false (comment ++ rest) = skipLines false rest := by
  cases hcomment with
  | nil => rfl
  | @mk cs hcs =>
    have hbody : skipLines true (cs ++ rest) = skipLines true rest := by
      induction cs with
      | nil => rfl
      | cons c cs ih =>
        obtain ⟨hc, hcs⟩ := List.forall_mem_cons.mp hcs
        rw [List.cons_append, skipLines_cons (by rintro rfl; cases hc) (by rintro rfl; cases hc),
          if_pos (by simp [hc])]
        exact ih hcs
    have hstart : skipLines false ('#' :: cs ++ rest) = skipLines true (cs ++ rest) := rfl
    rw [hstart, hbody]
    cases hrest with
    | nil => rfl
    | newline he => rw [skipLines_newline he, skipLines_newline he]

theorem skipLines_key (hkey : IsBareKey key) (cs : List Char) :
    skipLines false (key.toList ++ cs) = key.toList ++ cs := by
  obtain ⟨c, tail, hcons, hc⟩ := hkey.exists_eq_cons
  have hspace : ¬isSpace c = true := fun h => by rw [isBare_of_isSpace h] at hc; cases hc
  have hmark : c ≠ '#' := by rintro rfl; cases hc
  rw [hcons, List.cons_append, skipLines_cons (by rintro rfl; cases hc) (by rintro rfl; cases hc), if_neg (by simp),
    if_neg hspace, if_neg hmark]

/-! ## Lines -/

/-- Reading goes on where the blanks and comments end. -/
theorem statements?_congr {cs' : List Char} (h : skipLines false cs = skipLines false cs') :
    statements? (n + 1) cs = statements? (n + 1) cs' := by
  rw [statements?, statements?, h]

theorem statements?_of_cons (h : skipLines false cs = c :: rest) :
    statements? (n + 1) cs = (statement? n (c :: rest)).bind fun r =>
      (nextLine? r.2).bind fun cs => (statements? n cs).map (r.1 :: ·) := by
  rw [statements?, h]
  simp only [Option.bind_eq_bind, Option.map_eq_bind]
  rfl

theorem statement?_of_isBareKey (hkey : IsBareKey key) (hspaces : IsSpaces spaces) (cs : List Char) :
    statement? (n + 1) (key.toList ++ (spaces ++ '=' :: cs)) =
      (value? (n + 1) (skipSpace cs)).map fun r => (statement (key, r.1), r.2) := by
  have hheader : ∀ tail, key.toList ++ (spaces ++ '=' :: cs) ≠ '[' :: tail := by
    intro tail heq
    obtain ⟨c, front, hcons, hc⟩ := hkey.exists_eq_cons
    rw [hcons, List.cons_append] at heq
    rw [(List.cons.inj heq).1] at hc
    cases hc
  rw [statement?]
  · simp only [key?_of_isBareKey hkey hspaces, Option.bind_eq_bind, Option.bind_some]
    cases value? (n + 1) (skipSpace cs) <;> rfl
  · exact hheader

/-- **What begins like an assignment** is read as one: a value, the rest of its line, and what is behind it. -/
theorem statements?_of_isLeft (hleft : IsLeft key left) (cs : List Char) :
    statements? (n + 2) (left ++ cs) = (value? (n + 1) (skipSpace cs)).bind fun r =>
      (nextLine? r.2).bind fun cs => (statements? (n + 1) cs).map (statement (key, r.1) :: ·) := by
  obtain @⟨indent, spaces, hindent, hkey, hspaces⟩ := hleft
  obtain ⟨c, tail, hcons, -⟩ := hkey.exists_eq_cons
  have hskip : skipLines false (indent ++ (key.toList ++ (spaces ++ ['='])) ++ cs) =
      key.toList ++ (spaces ++ '=' :: cs) := by
    rw [List.append_assoc, skipLines_spaces hindent, List.append_assoc, skipLines_key hkey, List.append_assoc,
      List.singleton_append]
  have hread := statement?_of_isBareKey (n := n) hkey hspaces cs
  have hhead : key.toList ++ (spaces ++ '=' :: cs) = c :: (tail ++ (spaces ++ '=' :: cs)) := by
    rw [hcons, List.cons_append]
  rw [hhead] at hskip hread
  rw [statements?_of_cons hskip, hread, Option.bind_map]
  rfl

theorem endsValue_of_isBehind (hafter : IsSpaces after) (hcomment : IsComment comment) (hrest : IsBehind rest) :
    EndsValue (after ++ (comment ++ rest)) := by
  refine forall_head?_append ?_ (forall_head?_append ?_ ?_)
  · intro c hc
    rcases eq_of_isSpace (hafter c (List.mem_of_mem_head? hc)) with rfl | rfl <;> exact ⟨rfl, by decide⟩
  · intro c hc
    obtain rfl := hcomment.head c hc
    exact ⟨rfl, by decide⟩
  · intro c hc
    rcases hrest.head c hc with rfl | rfl <;> exact ⟨rfl, by decide⟩

theorem IsAssignment.exists_left (h : IsAssignment key text line) (hne : text ≠ [])
    (hspace : ∀ c ∈ text.head?, isSpace c = false) (hrest : IsBehind rest) :
    ∃ left cs behind, IsLeft key left ∧ line ++ rest = left ++ cs ∧ skipSpace cs = text ++ behind ∧
      EndsValue behind ∧ nextLine? behind = if rest = [] then some [] else afterNewline? rest := by
  obtain @⟨left, before, after, comment, hleft, hbefore, hafter, hcomment⟩ := h
  refine ⟨left, before ++ (text ++ (after ++ (comment ++ rest))), after ++ (comment ++ rest), hleft, ?_, ?_,
    endsValue_of_isBehind hafter hcomment hrest, nextLine?_of_isBehind hafter hcomment hrest⟩
  · simp only [List.append_assoc]
  · obtain ⟨c, cs, rfl⟩ := List.exists_cons_of_ne_nil hne
    exact skipSpace_append hbefore hspace

theorem isSpace_of_isScalar (h : isScalar c = true) : isSpace c = false := by
  rw [Bool.eq_false_iff]
  intro hspace
  rcases eq_of_isSpace hspace with rfl | rfl <;> cases h

theorem IsFloat.head (h : IsFloat text) : text ≠ [] ∧ ∀ c ∈ text.head?, isSpace c = false :=
  ⟨h.ne_nil, fun c hc => isSpace_of_isScalar (h.isScalar c (List.mem_of_mem_head? hc))⟩

theorem IsLiteral.head (h : IsLiteral text value) : text ≠ [] ∧ ∀ c ∈ text.head?, isSpace c = false := by
  cases h with
  | text h =>
    obtain ⟨mark, cs, rfl, hmark⟩ := h.exists_eq_cons
    refine ⟨List.cons_ne_nil mark cs, ?_⟩
    rintro c ⟨⟩
    rcases hmark with rfl | rfl <;> rfl
  | integer h =>
    exact ⟨h.ne_nil, fun c hc => isSpace_of_isScalar (h.isScalar c (List.mem_of_mem_head? hc))⟩
  | @boolean value => cases value <;> exact ⟨by decide, by rintro c ⟨⟩; rfl⟩

theorem statements?_of_isAssignment (hassignment : IsAssignment key text line) (htext : IsLiteral text value)
    (hrest : IsBehind rest) :
    statements? (n + 2) (line ++ rest) =
      (if rest = [] then some [] else afterNewline? rest).bind fun cs =>
        (statements? (n + 1) cs).map (statement (key, value) :: ·) := by
  obtain ⟨left, cs, behind, hleft, hline, hskip, hends, hnext⟩ :=
    hassignment.exists_left htext.head.1 htext.head.2 hrest
  rw [hline, statements?_of_isLeft hleft, hskip, value?_of_isLiteral htext hends, Option.bind_some, hnext]

/-- **Lines** are read in their order. -/
theorem statements?_of_isLines (h : IsLines rest text assigned) :
    statements? (n + 1 + assigned.length) text = (statements? (n + 1) rest).map (assigned.map statement ++ ·) := by
  induction h with
  | nil => simp
  | @cons line a e text assigned hline he _ ih =>
    cases hline with
    | @blank spaces comment hspaces hcomment =>
      have hskip : skipLines false (spaces ++ comment ++ (e ++ text)) = skipLines false text := by
        rw [List.append_assoc, skipLines_spaces hspaces, skipLines_comment hcomment (.newline he), skipLines_newline he]
      rw [Option.toList_none, List.nil_append, Nat.add_right_comm, statements?_congr hskip, Nat.add_right_comm, ih]
    | @assignment key word value line hassignment hword =>
      have hne : e ++ text ≠ [] := by cases he <;> simp
      have hsteps : n + 1 + ((some (key, value)).toList ++ assigned).length = n + assigned.length + 2 := by
        rw [Option.toList_some, List.singleton_append, List.length_cons]
        omega
      rw [hsteps, statements?_of_isAssignment hassignment hword (.newline he), if_neg hne, afterNewline?_append he,
        Option.bind_some, Nat.add_right_comm n, ih, Option.map_map]
      rfl

theorem IsLeft.ne_nil (h : IsLeft key left) : left ≠ [] := by
  obtain @⟨indent, spaces, -, hkey, -⟩ := h
  simp

theorem statements?_of_isLine (h : IsLine line a) (hn : line.length ≤ n) :
    statements? (n + 1) line = some (a.toList.map statement) := by
  cases h with
  | @blank spaces comment hspaces hcomment =>
    have hskip : skipLines false (spaces ++ comment) = [] := by
      have hbehind := skipLines_comment hcomment .nil
      rw [List.append_nil] at hbehind
      rw [skipLines_spaces hspaces, hbehind]
      rfl
    rw [statements?, hskip]
    rfl
  | assignment hassignment hliteral =>
    obtain ⟨n, rfl⟩ : ∃ k, n = k + 1 := by
      refine Nat.exists_eq_add_one.mpr (Nat.lt_of_lt_of_le (List.length_pos_iff.mpr ?_) hn)
      obtain ⟨hleft, -, -, -⟩ := hassignment
      exact List.append_ne_nil_of_left_ne_nil hleft.ne_nil _
    have hread := statements?_of_isAssignment (n := n) hassignment hliteral .nil
    rw [List.append_nil] at hread
    rw [hread]
    rfl

/-! ## Texts -/

/-! A text does not begin with the mark of an encoding. -/

theorem IsLeft.head (h : IsLeft key left) (cs : List Char) : ∀ c ∈ (left ++ cs).head?, c ≠ '\ufeff' := by
  obtain ⟨hindent, hkey, -⟩ := h
  rw [List.append_assoc, List.append_assoc]
  refine forall_head?_append ?_ ?_
  · rintro c hc rfl
    cases hindent _ (List.mem_of_mem_head? hc)
  · obtain ⟨c, tail, hcons, hc⟩ := hkey.exists_eq_cons
    rw [hcons]
    rintro c ⟨⟩ rfl
    cases hc

theorem IsLine.head (h : IsLine line a) : ∀ c ∈ line.head?, c ≠ '\ufeff' := by
  cases h with
  | blank hspaces hcomment =>
    refine forall_head?_append ?_ ?_
    · rintro c hc rfl
      cases hspaces _ (List.mem_of_mem_head? hc)
    · rintro c hc rfl
      cases hcomment.head _ hc
  | assignment hassignment =>
    obtain ⟨hleft, -, -, -⟩ := hassignment
    exact hleft.head _

theorem IsLines.head (h : IsLines rest text assigned) (hrest : ∀ c ∈ rest.head?, c ≠ '\ufeff') :
    ∀ c ∈ text.head?, c ≠ '\ufeff' := by
  cases h with
  | nil => exact hrest
  | cons hline he _ =>
    refine forall_head?_append hline.head ?_
    cases he <;> rintro c ⟨⟩ <;> decide

theorem IsLines.length_le (h : IsLines rest text assigned) : assigned.length + rest.length ≤ text.length := by
  induction h with
  | nil => simp
  | @cons line a e text assigned hline he _ ih =>
    have ha : a.toList.length ≤ 1 := by cases a <;> simp
    have he : 1 ≤ e.length := by cases he <;> simp
    simp only [List.length_append]
    omega

/-- There are enough steps for what comes behind the lines of a text. -/
theorem read?_eq {text : String} (h : IsLines rest text.toList assigned) (hrest : ∀ c ∈ rest.head?, c ≠ '\ufeff') :
    ∃ n, rest.length ≤ n ∧ read? text = (statements? (n + 1) rest).map (assigned.map statement ++ ·) := by
  have hmark : ¬text.toList.head? = some '\ufeff' := fun hc => h.head hrest _ hc rfl
  have hlength := h.length_le
  refine ⟨text.toList.length - assigned.length, by omega, ?_⟩
  have hsteps : text.toList.length + 1 = text.toList.length - assigned.length + 1 + assigned.length := by omega
  rw [read?, dropByteOrderMark, if_neg hmark]
  exact hsteps ▸ statements?_of_isLines h

/-- **A text made of lines** has the statements of its lines. -/
theorem read?_of_isText {text : String} (h : IsText text.toList assigned) :
    read? text = some (assigned.map statement) := by
  obtain ⟨h, hline⟩ := h
  obtain ⟨n, hn, hread⟩ := read?_eq h hline.head
  rw [hread, statements?_of_isLine hline hn, Option.map_some, List.map_append]

/-- **A line that begins like an assignment** is one, whatever comes behind it, if there is anything to read. -/
theorem read?_of_isLeft {text : String} {statements : List Statement} (h : IsLines (left ++ cs) text.toList assigned)
    (hleft : IsLeft key left) (hread : read? text = some statements) :
    ∃ n r more, value? (n + 1) (skipSpace cs) = some r ∧
      statements = assigned.map statement ++ statement (key, r.1) :: more := by
  obtain ⟨n, hn, heq⟩ := read?_eq h (hleft.head cs)
  have hlength : 0 < left.length := List.length_pos_iff.mpr hleft.ne_nil
  obtain ⟨n, rfl⟩ : ∃ k, n = k + 1 := Nat.exists_eq_add_one.mpr (by rw [List.length_append] at hn; omega)
  rw [heq, statements?_of_isLeft hleft] at hread
  obtain ⟨tail, htail, rfl⟩ := Option.map_eq_some_iff.mp hread
  obtain ⟨r, hr, htail⟩ := Option.bind_eq_some_iff.mp htail
  obtain ⟨cs', -, htail⟩ := Option.bind_eq_some_iff.mp htail
  obtain ⟨more, -, rfl⟩ := Option.map_eq_some_iff.mp htail
  exact ⟨n, r, more, hr, rfl⟩

end SciCalc.Toml
