/-
White space parts a text (`ofText_append_blank`): no word and no `pi` goes on across it, so that what is in
front of it has the tokens, or the error, that it has by itself, and what is behind it has its own, at a place
that is so many bytes further on.
-/
import SciCalc.Proofs.Token.Longest
import SciCalc.Proofs.Token.Normalize

namespace SciCalc

/-- The same error in a text with so many bytes more in front. -/
def ScanError.shift (bytes : Nat) (e : ScanError) : ScanError := ⟨e.fragment, e.offset + bytes⟩

namespace Token

variable {cs ds us blank lexeme : List Char} {c : Char} {t : Token} {offset : Nat} {a w b : String}

/-! ## One token -/

theorem not_isBlank_of_mem_number (h : us ∈ Pattern.number) : ∀ c ∈ us, Text.isBlank c = false := by
  obtain ⟨n, hn, rfl⟩ := Pattern.mem_number_iff.mp h
  intro c hc
  obtain ⟨hlow, hhigh⟩ := Numeral.toNat_mem_text hn hc
  exact isBlank_eq_false_of_ascii (Nat.lt_of_lt_of_le (by decide) hlow) (Nat.lt_of_le_of_lt hhigh (by decide))

theorem not_isBlank_of_mem_name (h : us ∈ Pattern.name) : ∀ c ∈ us, Text.isBlank c = false := by
  obtain ⟨d, ds, rfl, hd, hds⟩ := Pattern.mem_name_iff.mp h
  intro c hc
  refine Bool.eq_false_iff.mpr fun hblank => Bool.eq_false_iff.mp (not_word_of_isBlank hblank).1 ?_
  rcases List.mem_cons.mp hc with rfl | hmem
  · exact continuesName_of_startsName hd
  · exact hds c hmem

theorem LexemeAt.not_isBlank (h : LexemeAt cs lexeme t) : ∀ c ∈ lexeme, Text.isBlank c = false := by
  cases h with
  | number taken read => exact not_isBlank_of_mem_number taken.mem
  | name noNumber taken => exact not_isBlank_of_mem_name taken.mem
  | sign noNumber noName taken listed =>
    have hsigns : ∀ sign ∈ signTokens, Text.isBlank sign.1 = false := by decide
    intro c hc
    rw [List.mem_singleton.mp hc]
    exact hsigns _ listed

theorem isPrefix_of_append_blank (hne : blank ≠ []) (hblank : ∀ c ∈ blank, Text.isBlank c = true)
    (hus : ∀ c ∈ us, Text.isBlank c = false) (h : us <+: cs ++ (blank ++ ds)) : us <+: cs := by
  rcases List.prefix_or_prefix_of_prefix h (List.prefix_append _ _) with hle | ⟨vs, rfl⟩
  · exact hle
  · obtain ⟨c, cs', rfl⟩ := List.exists_cons_of_ne_nil hne
    cases vs with
    | nil => simp
    | cons v vs =>
      have hcons : v :: vs <+: c :: (cs' ++ ds) := (List.prefix_append_right_inj cs).mp h
      obtain rfl : v = c := (List.cons_prefix_cons.mp hcons).1
      have hv := hus v (by simp)
      rw [hblank v List.mem_cons_self] at hv
      cases hv

/-- **What is taken in front of white space** is what is taken where the text ends there. -/
theorem split?_append_blank (hne : blank ≠ []) (hblank : ∀ c ∈ blank, Text.isBlank c = true) :
    split? (cs ++ (blank ++ ds)) =
      (split? cs).map fun (t, lexeme, rest) => (t, lexeme, rest ++ (blank ++ ds)) := by
  have hword : ∀ us, us ∈ Pattern.number ∨ us ∈ Pattern.name → ∀ c ∈ us, Text.isBlank c = false :=
    fun us hus => hus.elim not_isBlank_of_mem_number not_isBlank_of_mem_name
  cases hsplit : split? cs with
  | some r =>
    obtain ⟨t, lexeme, rest⟩ := r
    obtain ⟨taken, rfl⟩ := split?_eq_some_iff.mp hsplit
    refine split?_eq_some_iff.mpr
      ⟨taken.of_fronts ⟨rest ++ (blank ++ ds), by simp⟩ fun us hus hle => ?_, by simp⟩
    exact isPrefix_of_append_blank hne hblank (hword us hus) hle
  | none =>
    refine Option.eq_none_iff_forall_ne_some.mpr fun ⟨t, lexeme, rest⟩ hsome => ?_
    obtain ⟨taken, happend⟩ := split?_eq_some_iff.mp hsome
    obtain ⟨rest', rfl⟩ : lexeme <+: cs :=
      isPrefix_of_append_blank hne hblank taken.not_isBlank ⟨rest, happend⟩
    have hcut := (taken.of_fronts (List.prefix_append lexeme rest')
      fun us _ hle => hle.trans (List.prefix_append _ _)).split?
    rw [hsplit] at hcut
    cases hcut

/-! ## Runs of the scan -/

theorem scan_eq (offset : Nat) (cs : List Char) :
    scan offset cs =
      match Text.trimStart cs with
      | [] => .ok []
      | c :: after =>
        match split? (c :: after) with
        | none => .error ⟨c, offset + Text.utf8Length (cs.takeWhile Text.isBlank)⟩
        | some (t, lexeme, rest) =>
          (scan (offset + Text.utf8Length (cs.takeWhile Text.isBlank) + Text.utf8Length lexeme) rest).map
            (t :: ·) := by
  rw [scan]
  split
  · next htrim => rw [htrim]
  · next c after htrim =>
    rw [htrim]
    split
    · next hsplit => simp only [hsplit]
    · next t lexeme rest hsplit => simp only [hsplit]

/-- The bytes in front of a text count for the place of its error only. -/
theorem scan_add (offset bytes : Nat) (cs : List Char) :
    scan (offset + bytes) cs = (scan offset cs).mapError (ScanError.shift bytes) := by
  fun_induction scan offset cs with
  | case1 offset cs htrim => rw [scan_eq, htrim]; rfl
  | case2 offset cs start c after htrim hsplit =>
    rw [scan_eq, htrim]
    simp only [hsplit, Except.mapError, ScanError.shift, start, Nat.add_right_comm]
  | case3 offset cs start c after htrim t lexeme rest hsplit ih =>
    rw [scan_eq, htrim]
    have hplace : offset + bytes + Text.utf8Length (cs.takeWhile Text.isBlank) + Text.utf8Length lexeme =
        start + Text.utf8Length lexeme + bytes := by
      simp only [start]
      omega
    simp only [hsplit, hplace, ih]
    cases scan (start + Text.utf8Length lexeme) rest <;> rfl

theorem scan_blank_append (hblank : ∀ c ∈ blank, Text.isBlank c = true) :
    scan offset (blank ++ ds) = scan (offset + Text.utf8Length blank) ds := by
  rw [scan_eq, scan_eq (offset + _)]
  simp only [Text.trimStart, List.dropWhile_append_of_pos hblank, List.takeWhile_append_of_pos hblank,
    Text.utf8Length_append, Nat.add_assoc]

theorem trimStart_append {after : List Char} (h : Text.trimStart cs = c :: after) (ds : List Char) :
    Text.trimStart (cs ++ ds) = c :: (after ++ ds) ∧
      (cs ++ ds).takeWhile Text.isBlank = cs.takeWhile Text.isBlank := by
  have hfront : ∀ d ∈ cs.takeWhile Text.isBlank, Text.isBlank d = true := fun _ hd => List.mem_takeWhile_imp hd
  have hhead : ∀ d ∈ (c :: (after ++ ds)).head?, Text.isBlank d = false := by
    intro d hd
    cases hd
    have hnot := List.head?_dropWhile_not Text.isBlank cs
    rw [← Text.trimStart, h] at hnot
    simpa using hnot
  have hcs : cs = cs.takeWhile Text.isBlank ++ c :: after := by
    rw [← h, Text.trimStart, List.takeWhile_append_dropWhile]
  obtain ⟨htake, hdrop⟩ := Numeral.takeWhile_append_of_head hfront hhead
  have happend : cs ++ ds = cs.takeWhile Text.isBlank ++ c :: (after ++ ds) := by
    conv_lhs => rw [hcs]
    simp
  rw [happend]
  exact ⟨hdrop, htake⟩

/-- **Two texts with white space between them** are scanned one after the other. -/
theorem scan_append_blank (hne : blank ≠ []) (hblank : ∀ c ∈ blank, Text.isBlank c = true) :
    scan offset (cs ++ (blank ++ ds)) =
      (scan offset cs).bind fun ts =>
        (scan (offset + Text.utf8Length cs + Text.utf8Length blank) ds).map (ts ++ ·) := by
  fun_induction scan offset cs with
  | case1 offset cs htrim =>
    have hcs : ∀ c ∈ cs, Text.isBlank c = true := List.dropWhile_eq_nil_iff.mp htrim
    rw [scan_blank_append hcs, scan_blank_append hblank]
    simp only [Except.bind]
    cases scan (offset + Text.utf8Length cs + Text.utf8Length blank) ds <;> rfl
  | case2 offset cs start c after htrim hsplit =>
    obtain ⟨htrim', htake⟩ := trimStart_append htrim (blank ++ ds)
    have hsplit' : split? (c :: (after ++ (blank ++ ds))) = none := by
      rw [← List.cons_append, split?_append_blank hne hblank, hsplit, Option.map_none]
    rw [scan_eq, htrim', htake]
    simp only [hsplit', Except.bind, start]
  | case3 offset cs start c after htrim t lexeme rest hsplit ih =>
    obtain ⟨htrim', htake⟩ := trimStart_append htrim (blank ++ ds)
    have hsplit' : split? (c :: (after ++ (blank ++ ds))) = some (t, lexeme, rest ++ (blank ++ ds)) := by
      rw [← List.cons_append, split?_append_blank hne hblank, hsplit, Option.map_some]
    have hbytes : offset + Text.utf8Length cs = start + Text.utf8Length lexeme + Text.utf8Length rest := by
      have hcs : cs = cs.takeWhile Text.isBlank ++ (lexeme ++ rest) := by
        rw [append_of_split? hsplit, ← htrim, Text.trimStart, List.takeWhile_append_dropWhile]
      have hlength := congrArg Text.utf8Length hcs
      rw [Text.utf8Length_append, Text.utf8Length_append] at hlength
      simp only [start]
      omega
    rw [scan_eq, htrim', htake]
    simp only [hsplit']
    rw [ih, ← hbytes]
    cases scan (start + Text.utf8Length lexeme) rest with
    | error e => rfl
    | ok ts =>
      simp only [Except.bind, Except.map]
      cases scan (offset + Text.utf8Length cs + Text.utf8Length blank) ds <;> rfl

/-! ## Typed texts -/

theorem normalize_append_blank (hne : blank ≠ []) (hblank : ∀ c ∈ blank, Text.isBlank c = true) :
    Keypad.normalize (cs ++ (blank ++ ds)) = Keypad.normalize cs ++ (blank ++ Keypad.normalize ds) := by
  have hnormal : Keypad.normalize (blank ++ ds) = blank ++ Keypad.normalize ds :=
    Keypad.normalize_blank_append hblank
  have hhead : (Keypad.normalize (blank ++ ds)).head? ≠ some 'i' := by
    obtain ⟨c, cs', rfl⟩ := List.exists_cons_of_ne_nil hne
    have hc := hblank c List.mem_cons_self
    rw [hnormal]
    rintro ⟨⟩
    exact absurd hc (by decide)
  rw [Keypad.normalize_append hhead, hnormal]

/-- **Both texts at once**: the tokens of both, or the error of the first that has one. -/
theorem ofText_append (hne : w ≠ "") (hw : ∀ c ∈ w.toList, Text.isBlank c = true) :
    ofText (a ++ w ++ b) = (ofText a).bind fun ts =>
      ((ofText b).mapError (ScanError.shift (Text.utf8Length (Keypad.normalize a.toList) +
        Text.utf8Length w.toList))).map (ts ++ ·) := by
  have hne' : w.toList ≠ [] := fun hnil => hne (String.toList_eq_nil_iff.mp hnil)
  have htext : (a ++ w ++ b).toList = a.toList ++ (w.toList ++ b.toList) := by simp
  have hbehind := scan_add 0 (Text.utf8Length (Keypad.normalize a.toList) + Text.utf8Length w.toList)
    (Keypad.normalize b.toList)
  rw [Nat.zero_add] at hbehind
  rw [ofText, htext, normalize_append_blank hne' hw, scan_append_blank hne' hw, Nat.zero_add, hbehind]
  rfl

/-- **White space parts a text.** An error in front of it is the error of the whole; otherwise the tokens are
those of both sides, or the error is that of the second side, so many bytes further on. So white space at
either end changes no tokens, nor does more of it where there is some. -/
theorem ofText_append_blank {a w b : String} (hne : w ≠ "") (hw : ∀ c ∈ w.toList, Text.isBlank c = true) :
    (∀ e, ofText a = .error e → ofText (a ++ w ++ b) = .error e) ∧
    (∀ ts us, ofText a = .ok ts → ofText b = .ok us → ofText (a ++ w ++ b) = .ok (ts ++ us)) ∧
    (∀ ts fragment offset, ofText a = .ok ts → ofText b = .error ⟨fragment, offset⟩ →
      ofText (a ++ w ++ b) = .error ⟨fragment, offset + (Text.utf8Length (Keypad.normalize a.toList) +
        Text.utf8Length w.toList)⟩) ∧
    ofText (a ++ w) = ofText a ∧
    (ofText (w ++ b)).toOption = (ofText b).toOption ∧
    ∀ w' : String, w' ≠ "" → (∀ c ∈ w'.toList, Text.isBlank c = true) →
      (ofText (a ++ w' ++ b)).toOption = (ofText (a ++ w ++ b)).toOption := by
  have hnil : ofText "" = .ok [] := scan_blank nofun
  refine ⟨fun e ha => ?_, fun ts us ha hb => ?_, fun ts fragment offset ha hb => ?_, ?_, ?_,
    fun w' hne' hw' => ?_⟩
  · rw [ofText_append hne hw, ha]
    rfl
  · rw [ofText_append hne hw, ha, hb]
    rfl
  · rw [ofText_append hne hw, ha, hb]
    rfl
  · have htrailing := ofText_append (a := a) (b := "") hne hw
    rw [hnil, String.append_empty] at htrailing
    rw [htrailing]
    cases ofText a with
    | error e => rfl
    | ok ts => simp [Except.bind, Except.mapError, Except.map]
  · have hleading := ofText_append (a := "") (b := b) hne hw
    rw [hnil, String.empty_append] at hleading
    rw [hleading]
    cases ofText b <;> rfl
  · rw [ofText_append hne hw, ofText_append hne' hw']
    cases ofText a with
    | error e => rfl
    | ok ts => cases ofText b <;> rfl

/-- Before the place is counted, `pi` has become 17 characters, and the times sign one of a single byte. -/
theorem ofText_append_blank_pi :
    (" " ≠ "" ∧ ∀ c ∈ " ".toList, Text.isBlank c = true) ∧
      ofText "pi×" = .ok [.number (Numeral.toDouble ⟨['3'], "141592653589793".toList, none⟩), .operator .mul] ∧
      ofText "$" = .error ⟨'$', 0⟩ ∧ ofText ("pi×" ++ " " ++ "$") = .error ⟨'$', 19⟩ := by
  have hblank : ∀ c ∈ " ".toList, Text.isBlank c = true := List.all_eq_true.mp rfl
  have hfront : Decomposed (Keypad.normalize "pi×".toList)
      [⟨[], "3.141592653589793".toList, .number (Numeral.toDouble ⟨['3'], "141592653589793".toList, none⟩)⟩,
        ⟨[], ['*'], .operator .mul⟩] :=
    decomposed_cons_iff.mpr ⟨rfl, ['*'], rfl, decomposed_cons_iff.mpr ⟨rfl, [], rfl, .nil nofun⟩⟩
  have hbehind : ofText "$" = .error ⟨'$', 0⟩ := by
    rw [ofText, scan_eq]
    rfl
  exact ⟨⟨by decide, hblank⟩, hfront.scan 0, hbehind,
    (ofText_append_blank (by decide) hblank).2.2.1 _ _ _ (hfront.scan 0) hbehind⟩

end Token
end SciCalc
