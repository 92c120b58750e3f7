/-
Putting the last answer in the place of its word, and what it does to the parts of a text. Only the word
itself is taken out, so that any other part stays as it is (`expandFrom_append`), and up to the parenthesis
that is put in its place nothing changes at all (`isPrefix_of_expandFrom`).

It makes no difference whether a text is normalized first (`normalize_expandFrom`): the letters of the word
are typed in one way only, and normalizing does not change where a word starts or ends.
-/
import SciCalc.Proofs.Answer.Word

namespace SciCalc.Answer

open Text (startsInWord endsInWord)

variable {replacement front cs ds us : List Char} {c : Char} {inWord : Bool}

/-! ## Steps -/

theorem expandFrom_cons (h : ∀ ds, c :: cs ≠ 'a' :: 'n' :: 's' :: ds) :
    expandFrom replacement inWord (c :: cs) = c :: expandFrom replacement (Text.isWord c) cs := by
  rw [expandFrom]
  rintro ds rfl rfl
  exact h ds rfl

theorem expandFrom_cons_of_ne (h : c ≠ 'a') :
    expandFrom replacement inWord (c :: cs) = c :: expandFrom replacement (Text.isWord c) cs :=
  expandFrom_cons fun _ heq => h (List.cons.inj heq).1

theorem expandFrom_kept (h : inWord = true ∨ startsInWord cs = true) :
    expandFrom replacement inWord ('a' :: 'n' :: 's' :: cs) =
      'a' :: expandFrom replacement true ('n' :: 's' :: cs) := by
  rw [expandFrom, if_pos ((Bool.or_eq_true _ _).mpr h)]

/-- **The word by itself** is taken out. -/
theorem expandFrom_word (h : startsInWord cs = false) :
    expandFrom replacement false ('a' :: 'n' :: 's' :: cs) =
      replacement ++ expandFrom replacement true cs := by
  rw [expandFrom, if_neg (by simp [h])]

theorem expandFrom_inWord (c : Char) (cs : List Char) :
    expandFrom replacement true (c :: cs) = c :: expandFrom replacement (Text.isWord c) cs := by
  by_cases h : ∃ ds, c :: cs = 'a' :: 'n' :: 's' :: ds
  · obtain ⟨ds, heq⟩ := h
    cases heq
    exact expandFrom_kept (.inl rfl)
  · exact expandFrom_cons fun ds heq => h ⟨ds, heq⟩

theorem expandFrom_ne_nil (hr : replacement ≠ []) (h : cs ≠ []) :
    expandFrom replacement inWord cs ≠ [] := by
  obtain ⟨c, ds, rfl⟩ := List.exists_cons_of_ne_nil h
  by_cases hword : ∃ es, c :: ds = 'a' :: 'n' :: 's' :: es
  · obtain ⟨es, heq⟩ := hword
    rw [heq, expandFrom]
    split
    · exact List.cons_ne_nil _ _
    · exact List.append_ne_nil_of_left_ne_nil hr _
  · rw [expandFrom_cons fun es heq => hword ⟨es, heq⟩]
    exact List.cons_ne_nil _ _

/-! ## Parts of a text -/

theorem expandFrom_append (h : ∀ c ∈ cs, c ≠ 'a') :
    expandFrom replacement (endsInWord front) (cs ++ ds) =
      cs ++ expandFrom replacement (endsInWord (front ++ cs)) ds := by
  induction cs generalizing front with
  | nil => simp
  | cons c cs ih =>
    obtain ⟨hc, hcs⟩ := List.forall_mem_cons.mp h
    have hfront : Text.isWord c = endsInWord (front ++ [c]) := (Text.endsInWord_concat _ _).symm
    rw [List.cons_append, expandFrom_cons_of_ne hc, hfront, ih hcs]
    simp

theorem expandFrom_append_of_ne_nil (h : ∀ c ∈ cs, c ≠ 'a') (hne : cs ≠ []) :
    expandFrom replacement inWord (cs ++ ds) = cs ++ expandFrom replacement (endsInWord cs) ds := by
  obtain ⟨c, es, rfl⟩ := List.exists_cons_of_ne_nil hne
  obtain ⟨hc, hes⟩ := List.forall_mem_cons.mp h
  have hfront : Text.isWord c = endsInWord [c] := rfl
  rw [List.cons_append, expandFrom_cons_of_ne hc, hfront, expandFrom_append hes]
  rfl

theorem expandFrom_inWord_append (h : ∀ c ∈ cs, Text.isWord c = true) :
    expandFrom replacement true (cs ++ ds) = cs ++ expandFrom replacement true ds := by
  induction cs with
  | nil => rfl
  | cons c cs ih =>
    obtain ⟨hc, hcs⟩ := List.forall_mem_cons.mp h
    rw [List.cons_append, expandFrom_inWord, hc, ih hcs, List.cons_append]

theorem isPrefix_cons (h : us <+: c :: cs) (hstep : ∀ vs, vs <+: cs → '(' ∉ vs → vs <+: ds)
    (hus : '(' ∉ us) : us <+: c :: ds := by
  cases us with
  | nil => exact List.nil_prefix
  | cons d vs =>
    obtain ⟨rfl, hvs⟩ := List.cons_prefix_cons.mp h
    exact List.cons_prefix_cons.mpr ⟨rfl, hstep vs hvs fun hmem => hus (List.mem_cons_of_mem _ hmem)⟩

/-- What stands in front of the first parenthesis was there before. -/
theorem isPrefix_of_expandFrom {tail : List Char} (hr : replacement = '(' :: tail)
    (h : us <+: expandFrom replacement inWord cs) (hus : '(' ∉ us) : us <+: cs := by
  fun_induction expandFrom replacement inWord cs generalizing us with
  | case1 => exact h
  | case2 inWord cs hkept ih => exact isPrefix_cons h (fun _ hvs hmem => ih hvs hmem) hus
  | case3 inWord cs hword ih =>
    cases us with
    | nil => exact List.nil_prefix
    | cons d vs =>
      rw [hr, List.cons_append] at h
      obtain ⟨rfl, -⟩ := List.cons_prefix_cons.mp h
      exact absurd List.mem_cons_self hus
  | case4 inWord c cs hc ih => exact isPrefix_cons h (fun _ hvs hmem => ih hvs hmem) hus

/-! ## Normalizing -/

theorem map_plain_expandFrom (hr : replacement.map Keypad.plain = replacement) :
    (expandFrom replacement inWord cs).map Keypad.plain =
      expandFrom replacement inWord (cs.map Keypad.plain) := by
  have hn : Keypad.plain 'n' = 'n' := by decide
  have hs : Keypad.plain 's' = 's' := by decide
  have ha : Keypad.plain 'a' = 'a' := by decide
  fun_induction expandFrom replacement inWord cs with
  | case1 => rfl
  | case2 inWord cs hkept ih =>
    simp only [List.map_cons, ha, hn, hs] at ih ⊢
    rw [expandFrom_kept, ih]
    rwa [Keypad.startsInWord_map_plain, ← Bool.or_eq_true]
  | case3 inWord cs hword ih =>
    simp only [Bool.or_eq_true, not_or, Bool.not_eq_true] at hword
    rw [List.map_append, hr, ih]
    simp only [List.map_cons, ha, hn, hs, hword.1]
    rw [expandFrom_word]
    rw [Keypad.startsInWord_map_plain, hword.2]
  | case4 inWord c cs hc ih =>
    rw [List.map_cons, ih, List.map_cons, expandFrom_cons, Keypad.isWord_plain]
    intro ds heq
    have hword : (c :: cs).map Keypad.plain = ['a', 'n', 's'] ++ ds := heq
    obtain ⟨es, hes, -⟩ := Keypad.exists_append_of_map_plain Keypad.literal_answer hword
    cases hes
    exact hc es rfl rfl

theorem expandPi_append_of_notMem (h : 'p' ∉ cs) :
    Keypad.expandPi (cs ++ ds) = cs ++ Keypad.expandPi ds := by
  induction cs with
  | nil => rfl
  | cons c cs ih =>
    obtain ⟨hc, hcs⟩ : 'p' ≠ c ∧ 'p' ∉ cs := by simpa [not_or] using h
    rw [List.cons_append, Keypad.expandPi_cons hc.symm, ih hcs, List.cons_append]

theorem expandPi_expandFrom (hr : 'p' ∉ replacement) :
    Keypad.expandPi (expandFrom replacement inWord cs) =
      expandFrom replacement inWord (Keypad.expandPi cs) := by
  have hans : ∀ cs, Keypad.expandPi ('a' :: 'n' :: 's' :: cs) = 'a' :: 'n' :: 's' :: Keypad.expandPi cs := by
    intro cs
    rw [Keypad.expandPi_cons (by decide), Keypad.expandPi_cons (by decide), Keypad.expandPi_cons (by decide)]
  fun_induction expandFrom replacement inWord cs with
  | case1 => rfl
  | case2 inWord cs hkept ih =>
    rw [Keypad.expandPi_cons (by decide), ih, hans, expandFrom_kept,
      Keypad.expandPi_cons (by decide), Keypad.expandPi_cons (by decide)]
    rwa [Keypad.startsInWord_expandPi, ← Bool.or_eq_true]
  | case3 inWord cs hword ih =>
    simp only [Bool.or_eq_true, not_or, Bool.not_eq_true] at hword
    rw [expandPi_append_of_notMem hr, ih, hans, hword.1, expandFrom_word]
    rw [Keypad.startsInWord_expandPi, hword.2]
  | case4 inWord c cs hc ih =>
    by_cases hp : c = 'p'
    · subst hp
      have hwordP : Text.isWord 'p' = true := by decide
      rw [hwordP] at ih ⊢
      by_cases hi : ∃ ds, cs = 'i' :: ds
      · obtain ⟨ds, rfl⟩ := hi
        have hwordI : Text.isWord 'i' = true := by decide
        have hpi : ∀ c ∈ Keypad.piDigits, c ≠ 'a' := by
          rintro c hc rfl
          exact absurd hc (by decide)
        rw [expandFrom_cons_of_ne (by decide), hwordI, Keypad.expandPi_cons (by decide),
          Keypad.expandPi_cons (by decide), expandFrom_cons_of_ne (by decide), hwordI] at ih
        rw [expandFrom_cons_of_ne (by decide), hwordI, Keypad.expandPi, Keypad.expandPi,
          (List.cons.inj ih).2, expandFrom_append_of_ne_nil hpi (by decide)]
        rfl
      · have hhead : ∀ ds, cs ≠ 'i' :: ds := fun ds heq => hi ⟨ds, heq⟩
        have hhead' : ∀ ds, expandFrom replacement true cs ≠ 'i' :: ds := by
          cases cs with
          | nil => exact fun ds heq => by cases heq
          | cons c cs =>
            rw [expandFrom_inWord]
            rintro ds heq
            exact hhead cs (by rw [(List.cons.inj heq).1])
        rw [Keypad.expandPi, ih, Keypad.expandPi, expandFrom_cons_of_ne (by decide), hwordP]
        · exact fun ds _ heq => hhead ds heq
        · exact fun ds _ heq => hhead' ds heq
    · rw [Keypad.expandPi_cons hp, ih, Keypad.expandPi_cons hp, expandFrom_cons]
      intro ds heq
      have hword : Keypad.expandPi (c :: cs) = ['a', 'n', 's'] ++ ds := by
        rw [Keypad.expandPi_cons hp, heq]
        rfl
      obtain ⟨es, hes, -⟩ := Keypad.exists_append_of_expandPi Keypad.literal_answer hword
      cases hes
      exact hc es rfl rfl

/-- **Normalizing first** makes no difference, where normalizing keeps what is put in the place. -/
theorem normalize_expandFrom (hr : ∀ c ∈ replacement, c.toNat < 0x80 ∧ c ≠ 'p') :
    Keypad.normalize (expandFrom replacement inWord cs) =
      expandFrom replacement inWord (Keypad.normalize cs) := by
  have hplain : replacement.map Keypad.plain = replacement.map id :=
    List.map_congr_left fun c hc => Keypad.plain_of_ascii (hr c hc).1
  rw [List.map_id] at hplain
  rw [Keypad.normalize, map_plain_expandFrom hplain, expandPi_expandFrom fun hp => (hr _ hp).2 rfl]
  rfl

end SciCalc.Answer
