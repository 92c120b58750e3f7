/-
Results as they are displayed: the text that is copied, with its digits in groups of three (`displayText_thousands`).
Groups are counted from the point (`reverse_commasFrom`), so that the first may be shorter (`exists_grouped`), and the
commas between them are all that is added (`filter_grouped`).
-/
import SciCalc.Proofs.Decimal.Places

namespace SciCalc.Decimal

variable {c : Char} {cs ds whole fraction : List Char}

/-- Whether a text is digits in groups of three with a comma in front of each, but for the first group, which has no
comma and one to three digits. -/
def InThousands (cs : List Char) : Prop :=
  ∃ (first : List Char) (groups : List (List Char)), cs = first ++ groups.flatMap (',' :: ·) ∧
    (1 ≤ first.length ∧ first.length ≤ 3) ∧ (∀ c ∈ first, c.isDigit = true) ∧
    ∀ group ∈ groups, group.length = 3 ∧ ∀ c ∈ group, c.isDigit = true

/-- Whether a text is a point and digits, or nothing. -/
def InPoint (cs : List Char) : Prop := cs = [] ∨ ∃ ds, cs = '.' :: ds ∧ ∀ c ∈ ds, c.isDigit = true

/-! ## Digits in groups -/

theorem filter_grouped (h : ',' ∉ ds) : (grouped ds).filter (· ≠ ',') = ds := by
  induction ds with
  | nil => rfl
  | cons d ds ih =>
    obtain ⟨hd, hds⟩ : ',' ≠ d ∧ ',' ∉ ds := by simpa [not_or] using h
    have hkept := ih hds
    rw [grouped]
    split
    · simpa [hd.symm] using hkept
    · simpa [hd.symm] using hkept

/-- The first group has as many digits as are left over by the others. -/
theorem exists_grouped (h : ∀ c ∈ ds, c.isDigit = true) (hne : ds ≠ []) :
    ∃ (first : List Char) (groups : List (List Char)), grouped ds = first ++ groups.flatMap (',' :: ·) ∧
      first.length = (ds.length + 2) % 3 + 1 ∧ (∀ c ∈ first, c.isDigit = true) ∧
      ∀ group ∈ groups, group.length = 3 ∧ ∀ c ∈ group, c.isDigit = true := by
  induction ds with
  | nil => exact absurd rfl hne
  | cons d ds ih =>
    obtain ⟨hd, hds⟩ := List.forall_mem_cons.mp h
    have hsingle : ∀ c ∈ [d], c.isDigit = true := by simpa using hd
    by_cases hnil : ds = []
    · subst hnil
      exact ⟨[d], [], rfl, by simp, hsingle, by simp⟩
    · obtain ⟨first, groups, heq, hlength, hfirst, hgroups⟩ := ih hds hnil
      rw [grouped, List.length_cons]
      split
      · next hfull =>
        -- the group that was the first is complete
        have hthree : first.length = 3 := by omega
        refine ⟨[d], first :: groups, by simp [heq], ?_, hsingle, ?_⟩
        · rw [List.length_singleton]
          omega
        · exact List.forall_mem_cons.mpr ⟨⟨hthree, hfirst⟩, hgroups⟩
      · next hpart =>
        have hmod : ds.length % 3 ≠ 0 := fun hzero => hpart ⟨hzero, hnil⟩
        refine ⟨d :: first, groups, by rw [heq, List.cons_append], ?_, ?_, hgroups⟩
        · rw [List.length_cons]
          omega
        · exact List.forall_mem_cons.mpr ⟨hd, hfirst⟩

theorem inThousands_grouped (h : ∀ c ∈ ds, c.isDigit = true) (hne : ds ≠ []) : InThousands (grouped ds) := by
  obtain ⟨first, groups, heq, hlength, hfirst, hgroups⟩ := exists_grouped h hne
  exact ⟨first, groups, heq, by omega, hfirst, hgroups⟩

/-- Digits from the last one on, with a comma in front of every third. The first of them is at the given place. -/
def commasFrom : Nat → List Char → List Char
  | _, [] => []
  | i, c :: cs =>
    if 0 < i ∧ i % 3 = 0 then ',' :: c :: commasFrom (i + 1) cs else c :: commasFrom (i + 1) cs

theorem commasFrom_concat (i : Nat) (cs : List Char) (c : Char) :
    commasFrom i (cs ++ [c]) = commasFrom i cs ++
      if 0 < i + cs.length ∧ (i + cs.length) % 3 = 0 then [',', c] else [c] := by
  induction cs generalizing i with
  | nil => rfl
  | cons d cs ih =>
    have hlength : i + 1 + cs.length = i + (d :: cs).length := by
      rw [List.length_cons]
      omega
    have htail := ih (i + 1)
    rw [hlength] at htail
    rw [List.cons_append, commasFrom, commasFrom, htail]
    split
    · rw [List.cons_append, List.cons_append]
    · rw [List.cons_append]

/-- **The groups** may be counted from the last digit on, and the digits reversed. -/
theorem reverse_commasFrom (ds : List Char) : (commasFrom 0 ds.reverse).reverse = grouped ds := by
  induction ds with
  | nil => rfl
  | cons d ds ih =>
    have hfirst : 0 < ds.length ∧ ds.length % 3 = 0 ↔ ds.length % 3 = 0 ∧ ds ≠ [] := by
      rw [List.length_pos_iff, and_comm]
    rw [List.reverse_cons, commasFrom_concat, List.reverse_append, ih, grouped, List.length_reverse, Nat.zero_add]
    simp only [hfirst]
    split
    · rfl
    · rfl

/-! ## Texts of numbers -/

theorem groupedText_signed (negative : Bool) (hwhole : ∀ c ∈ whole, c.isDigit = true) (hne : whole ≠ [])
    (hfraction : InPoint fraction) :
    groupedText (signText negative ++ (whole ++ fraction)) = signText negative ++ (grouped whole ++ fraction) := by
  have hdigits : ∀ c ∈ whole, decide (c ≠ '.') = true := by
    intro c hc
    refine decide_eq_true ?_
    rintro rfl
    exact absurd (hwhole _ hc) (by decide)
  have hpoint : ∀ c ∈ fraction.head?, decide (c ≠ '.') = false := by
    intro c hc
    obtain rfl | ⟨ds, rfl, -⟩ := hfraction
    · cases hc
    · cases hc
      rfl
  obtain ⟨htake, hdrop⟩ := Numeral.takeWhile_append_of_head hdigits hpoint
  cases negative with
  | true =>
    change '-' :: (grouped ((whole ++ fraction).takeWhile (· ≠ '.')) ++ (whole ++ fraction).dropWhile (· ≠ '.')) = _
    rw [htake, hdrop]
    rfl
  | false =>
    have hminus : ∀ cs, whole ++ fraction ≠ '-' :: cs := by
      intro cs heq
      obtain ⟨d, ds, rfl⟩ := List.exists_cons_of_ne_nil hne
      have hd := hwhole d List.mem_cons_self
      rw [(List.cons.inj heq).1] at hd
      exact absurd hd (by decide)
    change groupedText (whole ++ fraction) = grouped whole ++ fraction
    rw [groupedText, htake, hdrop]
    exact fun cs heq => hminus cs heq

/-- **The text of a finite result** is a sign, digits, and perhaps a point and digits. -/
theorem exists_finiteText (negative : Bool) (units : Nat) :
    ∃ (minus : Bool) (whole fraction : List Char), finiteText negative units = signText minus ++ (whole ++ fraction) ∧
      (∀ c ∈ whole, c.isDigit = true) ∧ whole ≠ [] ∧ InPoint fraction := by
  have hm := wellFormed_placesNumeral (inPlaces units)
  refine ⟨hasMinus negative units, (placesNumeral (inPlaces units)).whole,
    if (placesNumeral (inPlaces units)).fraction = [] then [] else '.' :: (placesNumeral (inPlaces units)).fraction,
    ?_, hm.whole, natText_ne_nil _, ?_⟩
  · rw [finiteText_eq, text_placesNumeral_append]
  · split
    · exact .inl rfl
    · exact .inr ⟨_, rfl, hm.fraction⟩

theorem comma_notMem_signText (negative : Bool) : ',' ∉ signText negative := by
  cases negative <;> decide

theorem InPoint.comma_notMem (h : InPoint fraction) : ',' ∉ fraction := by
  obtain rfl | ⟨ds, rfl, hds⟩ := h
  · nofun
  · have hdigits : ',' ∉ ds := notMem_of_digits hds rfl
    simpa using hdigits

theorem filter_groupedText (negative : Bool) (units : Nat) :
    (groupedText (finiteText negative units)).filter (· ≠ ',') = finiteText negative units := by
  obtain ⟨minus, whole, fraction, heq, hwhole, hne, hfraction⟩ := exists_finiteText negative units
  have hkeep : ∀ {cs : List Char}, ',' ∉ cs → cs.filter (· ≠ ',') = cs := by
    intro cs hcs
    refine List.filter_eq_self.mpr fun c hc => decide_eq_true ?_
    rintro rfl
    exact hcs hc
  rw [heq, groupedText_signed minus hwhole hne hfraction, List.filter_append, List.filter_append,
    hkeep (comma_notMem_signText minus), hkeep hfraction.comma_notMem, filter_grouped (notMem_of_digits hwhole rfl)]

/-- **A result is displayed as it is copied**, but for commas. Where it is finite, its whole part is in groups of three
digits, and there is no comma in its sign and its fraction. -/
theorem displayText_thousands (x : Float) :
    (displayText x).filter (· ≠ ',') = clipboardText x ∧
    ∀ negative units, Double.classify x = .finite negative units →
      ∃ sign whole fraction, displayText x = sign ++ (whole ++ fraction) ∧
        (sign = [] ∨ sign = ['-']) ∧ InThousands whole ∧ InPoint fraction := by
  constructor
  · cases hx : Double.classify x with
    | notANumber =>
      simp only [displayText, clipboardText, hx]
      decide
    | infinite negative =>
      simp only [displayText, clipboardText, hx]
      cases negative <;> decide
    | finite negative units =>
      simp only [displayText, clipboardText, hx]
      exact filter_groupedText negative units
  · intro negative units hx
    obtain ⟨minus, whole, fraction, heq, hwhole, hne, hfraction⟩ := exists_finiteText negative units
    refine ⟨signText minus, grouped whole, fraction, ?_, ?_, inThousands_grouped hwhole hne, hfraction⟩
    · simp only [displayText, hx]
      rw [heq, groupedText_signed minus hwhole hne hfraction]
    · cases minus with
      | false => exact .inl rfl
      | true => exact .inr rfl

end SciCalc.Decimal
