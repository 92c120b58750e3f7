/-
The settings in a configuration file. Each of them may be given or left out, on its own and in any order. A file of
suitable settings is taken with all of them, and a session starts with them; a line that offends spoils the file,
wherever it stands and whatever comes behind it (`settings_independent`).
-/
import SciCalc.Proofs.Toml.Document
import SciCalc.Session

namespace SciCalc.Config

open Toml (Value IsLine IsLines IsText IsLeft IsAssignment IsLiteral IsFloat IsBehind)

/-! ## Settings -/

/-- The names of the settings. -/
def keys : List String := ["angle_mode", "history_limit", "copy_results"]

/-- The names of the angle modes. -/
def modeNames : List (String × AngleMode) :=
  [("deg", .degrees), ("DEG", .degrees), ("degrees", .degrees), ("rad", .radians), ("RAD", .radians),
    ("radians", .radians)]

/-- The angle mode that a value names. -/
inductive IsMode : Value → AngleMode → Prop
  | mk {name mode} : (name, mode) ∈ modeNames → IsMode (.text name) mode

/-- The number of results that a value stands for. -/
inductive IsLimit : Value → Nat → Prop
  | mk {n : Nat} : n < 2 ^ 63 → IsLimit (.integer n) n

/-- What a value says of whether results are copied. -/
inductive IsSwitch : Value → Bool → Prop
  | mk {b} : IsSwitch (.boolean b) b

/-- Whether the value of an assignment is one that its setting can have. -/
inductive Suits : String × Value → Prop
  | angleMode {value mode} : IsMode value mode → Suits ("angle_mode", value)
  | historyLimit {value n} : IsLimit value n → Suits ("history_limit", value)
  | copyResults {value b} : IsSwitch value b → Suits ("copy_results", value)

/-- Whether the value of an assignment is one that its setting cannot have: a name that is no mode's, a number below
zero, or a value of another kind. -/
inductive Unsuitable : String × Value → Prop
  | name {name} : (∀ mode, (name, mode) ∉ modeNames) → Unsuitable ("angle_mode", .text name)
  | angleModeInteger {n} : Unsuitable ("angle_mode", .integer n)
  | angleModeBoolean {b} : Unsuitable ("angle_mode", .boolean b)
  | negative {n : Int} : n < 0 → Unsuitable ("history_limit", .integer n)
  | historyLimitText {s} : Unsuitable ("history_limit", .text s)
  | historyLimitBoolean {b} : Unsuitable ("history_limit", .boolean b)
  | copyResultsText {s} : Unsuitable ("copy_results", .text s)
  | copyResultsInteger {n} : Unsuitable ("copy_results", .integer n)

/-- Whether what comes behind the lines of a text begins with a line that spoils it. Of a name that is no setting's, or
has been given a value before, the value does not matter. -/
inductive Offends (assigned : List (String × Value)) : List Char → Prop
  | unknown {key left cs} : IsLeft key left → key ∉ keys → Offends assigned (left ++ cs)
  | repeated {key value left cs} : IsLeft key left → (key, value) ∈ assigned → Offends assigned (left ++ cs)
  | unsuitable {key text value line rest} : IsAssignment key text line → IsLiteral text value →
      Unsuitable (key, value) → IsBehind rest → Offends assigned (line ++ rest)
  | float {key text line rest} : IsAssignment key text line → IsFloat text → IsBehind rest →
      Offends assigned (line ++ rest)

/-- What a setting has after assignments, if it started with `start`: what it is given, or else what it had. -/
structure IsGiven {α : Type} (key : String) (Means : Value → α → Prop) (assigned : List (String × Value))
    (start x : α) : Prop where
  given : ∀ value y, (key, value) ∈ assigned → Means value y → x = y
  absent : (∀ a ∈ assigned, a.1 ≠ key) → x = start

variable {α : Type} {Means : Value → α → Prop} {key : String} {value : Value} {start x y : α} {d : Toml.Document}
variable {a : String × Value} {assigned : List (String × Value)} {text : String} {config : Config}

theorem IsGiven.nil (key : String) (Means : Value → α → Prop) (start : α) : IsGiven key Means [] start start :=
  ⟨by simp, fun _ => rfl⟩

theorem IsGiven.cons_other (h : IsGiven key Means assigned start x) (hne : a.1 ≠ key) :
    IsGiven key Means (a :: assigned) start x where
  given value y hmem hmeans := by
    rcases List.mem_cons.mp hmem with rfl | hmem
    · exact absurd rfl hne
    · exact h.given value y hmem hmeans
  absent hothers := h.absent (List.forall_mem_cons.mp hothers).2

theorem IsGiven.cons_self (h : IsGiven key Means assigned y x) (hothers : ∀ a ∈ assigned, a.1 ≠ key)
    (hmeans : ∀ z, Means value z → y = z) : IsGiven key Means ((key, value) :: assigned) start x where
  given value' z hmem hmeans' := by
    rcases List.mem_cons.mp hmem with heq | hmem
    · obtain rfl : value' = value := (Prod.mk.inj heq).2
      rw [h.absent hothers, hmeans z hmeans']
    · exact absurd rfl (hothers _ hmem)
  absent hothers := absurd rfl (hothers _ List.mem_cons_self)

/-! ## What suits -/

theorem ofConfigName?_of_mem {name : String} {mode : AngleMode} (h : (name, mode) ∈ modeNames) :
    AngleMode.ofConfigName? name = some mode := by
  simp only [modeNames, List.mem_cons, Prod.mk.injEq, List.not_mem_nil, or_false] at h
  rcases h with ⟨rfl, rfl⟩ | ⟨rfl, rfl⟩ | ⟨rfl, rfl⟩ | ⟨rfl, rfl⟩ | ⟨rfl, rfl⟩ | ⟨rfl, rfl⟩ <;> decide

theorem IsMode.unique {mode mode' : AngleMode} (h : IsMode value mode) (h' : IsMode value mode') : mode = mode' := by
  obtain ⟨h⟩ := h
  obtain ⟨h'⟩ := h'
  exact Option.some.inj ((ofConfigName?_of_mem h).symm.trans (ofConfigName?_of_mem h'))

/-- **Suitable settings** are all taken. -/
theorem exists_foldlM (hsuits : ∀ a ∈ assigned, Suits a) (hdistinct : (assigned.map Prod.fst).Nodup)
    (d : Toml.Document) (start : Config) :
    ∃ config, (assigned.map Toml.Document.entry).foldlM (withSetting? d) start = some config ∧
      IsGiven "angle_mode" IsMode assigned start.angleMode config.angleMode ∧
      IsGiven "history_limit" IsLimit assigned start.historyLimit config.historyLimit ∧
      IsGiven "copy_results" IsSwitch assigned start.copyResults config.copyResults := by
  induction assigned generalizing start with
  | nil => exact ⟨start, rfl, .nil _ _ _, .nil _ _ _, .nil _ _ _⟩
  | cons a assigned ih =>
    obtain ⟨ha, hsuits⟩ := List.forall_mem_cons.mp hsuits
    obtain ⟨hother, hdistinct⟩ := List.nodup_cons.mp hdistinct
    have hothers : ∀ b ∈ assigned, b.1 ≠ a.1 := by
      intro b hb heq
      exact hother (heq ▸ List.mem_map_of_mem hb)
    have hstep : ∀ config, withSetting? d start (Toml.Document.entry a) = some config →
        ((a :: assigned).map Toml.Document.entry).foldlM (withSetting? d) start =
          (assigned.map Toml.Document.entry).foldlM (withSetting? d) config := by
      intro config h
      rw [List.map_cons, List.foldlM_cons, h]
      rfl
    replace ih := ih hsuits hdistinct
    cases ha with
    | @angleMode value mode h =>
      obtain @⟨name, mode, hname⟩ := h
      obtain ⟨config, hfold, hmode, hlimit, hcopy⟩ := ih { start with angleMode := mode }
      have htaken : withSetting? d start (["angle_mode"], .text name) = some { start with angleMode := mode } := by
        rw [withSetting?, modeOfItem?, ofConfigName?_of_mem hname, Option.map_some]
      exact ⟨config, (hstep _ htaken).trans hfold, hmode.cons_self hothers fun _ => (IsMode.mk hname).unique,
        hlimit.cons_other (by simp), hcopy.cons_other (by simp)⟩
    | @historyLimit value n h =>
      obtain @⟨n, hn⟩ := h
      obtain ⟨config, hfold, hmode, hlimit, hcopy⟩ := ih { start with historyLimit := n }
      have htaken : withSetting? d start (["history_limit"], .integer (.ofNat n)) =
          some { start with historyLimit := n } := by
        have hbound : n < limitBound := Nat.lt_of_lt_of_le hn (by decide)
        rw [withSetting?, if_pos hbound]
      have hmeans : ∀ m, IsLimit (.integer n) m → n = m := by
        rintro m ⟨⟩
        rfl
      exact ⟨config, (hstep _ htaken).trans hfold, hmode.cons_other (by simp), hlimit.cons_self hothers hmeans,
        hcopy.cons_other (by simp)⟩
    | @copyResults value b h =>
      obtain @⟨b⟩ := h
      obtain ⟨config, hfold, hmode, hlimit, hcopy⟩ := ih { start with copyResults := b }
      have hmeans : ∀ c, IsSwitch (.boolean b) c → b = c := by
        rintro c ⟨⟩
        rfl
      exact ⟨config, (hstep _ rfl).trans hfold, hmode.cons_other (by simp), hlimit.cons_other (by simp),
        hcopy.cons_self hothers hmeans⟩

theorem Suits.ne_table (h : Suits a) (fields : List (Toml.Key × Value)) : a.2 ≠ .table fields := by
  cases h with
  | angleMode h | historyLimit h | copyResults h => cases h; simp

/-- How the value of a setting is usually written. -/
def written : Value → List Char
  | .text s => '"' :: (s.toList ++ ['"'])
  | .integer n => Decimal.natText n.toNat
  | .boolean b => if b then "true".toList else "false".toList
  | _ => []

/-- How a setting is usually written. -/
def line (assigned : String × Value) : List Char := assigned.1.toList ++ (" = ".toList ++ written assigned.2)

theorem isLine_line (h : Suits a) : IsLine (line a) (some a) := by
  have hkey : ∀ key ∈ keys, Toml.IsBareKey key := by
    intro key hkey
    simp only [keys, List.mem_cons, List.not_mem_nil, or_false] at hkey
    rcases hkey with rfl | rfl | rfl <;> exact ⟨by decide, List.all_eq_true.mp rfl⟩
  have hassignment := fun hmem => Toml.isAssignment_plain (hkey a.1 hmem) (written a.2)
  cases h with
  | angleMode h =>
    obtain @⟨name, mode, hname⟩ := h
    have hplain : ∀ c ∈ name.toList, c ≠ '"' ∧ c ≠ '\\' ∧ Toml.isControl c = false := by
      have hnames : ∀ name ∈ modeNames.map Prod.fst,
          (name.toList.all fun c => c != '"' && c != '\\' && !Toml.isControl c) = true := List.all_eq_true.mp rfl
      simpa [and_assoc] using List.all_eq_true.mp (hnames name (List.mem_map_of_mem hname))
    have hliteral := IsLiteral.text (Toml.isQuoted_plain hplain)
    rw [String.ofList_toList] at hliteral
    exact .assignment (hassignment (by simp [keys])) hliteral
  | @historyLimit _ n h =>
    obtain ⟨-⟩ := h
    exact .assignment (hassignment (by simp [keys])) (.integer (Toml.isInteger_natText n))
  | copyResults h =>
    obtain ⟨⟩ := h
    exact .assignment (hassignment (by simp [keys])) .boolean

/-! ## What offends -/

theorem withSetting?_of_not_mem (hkey : key ∉ keys) (d : Toml.Document) (config : Config) (item : Toml.Item) :
    withSetting? d config ([key], item) = none := by
  unfold withSetting?
  split
  case h_4 heq =>
    cases heq
    rfl
  all_goals
    next heq =>
    cases heq
    exact absurd (by decide) hkey

theorem ofConfigName?_of_forall_not_mem {name : String} (h : ∀ mode, (name, mode) ∉ modeNames) :
    AngleMode.ofConfigName? name = none := by
  have hdegrees : name ∉ ["deg", "DEG", "degrees"] := by
    intro hname
    exact h .degrees (by simpa [modeNames] using hname)
  have hradians : name ∉ ["rad", "RAD", "radians"] := by
    intro hname
    exact h .radians (by simpa [modeNames] using hname)
  rw [AngleMode.ofConfigName?, if_neg hdegrees, if_neg hradians]

theorem withSetting?_of_unsuitable (h : Unsuitable (key, value)) (d : Toml.Document) (config : Config) :
    withSetting? d config ([key], value.item) = none := by
  cases h with
  | name h =>
    rw [Value.item, withSetting?, modeOfItem?, ofConfigName?_of_forall_not_mem h, Option.map_none]
  | @negative n h =>
    cases n with
    | ofNat n => exact absurd h (Int.not_lt.mpr (Int.natCast_nonneg n))
    | negSucc n => rfl
  | _ => rfl

theorem foldlM_of_refused {σ β : Type} {f : σ → β → Option σ} {xs : List β} {x : β} (hx : x ∈ xs)
    (hrefused : ∀ s, f s x = none) (s : σ) : xs.foldlM f s = none := by
  induction xs generalizing s with
  | nil => cases hx
  | cons y xs ih =>
    rw [List.foldlM_cons]
    rcases List.mem_cons.mp hx with rfl | hx
    · rw [hrefused]
      rfl
    · exact Option.bind_eq_none_iff.mpr fun s' _ => ih hx s'

/-- **An assignment that cannot be taken** spoils the file, whatever comes behind it. -/
theorem ofText_of_refused {left cs : List Char} (h : IsLines (left ++ cs) text.toList assigned)
    (hleft : IsLeft key left)
    (hrefused : ∀ n r, Toml.value? (n + 1) (Toml.skipSpace cs) = some r → (∀ a ∈ assigned, a.1 ≠ key) →
      ∀ d config, withSetting? d config ([key], r.1.item) = none) :
    ofText text = .error .invalid := by
  have hnone : ((Toml.read? text).bind Toml.Document.ofStatements?).bind ofDocument? = none := by
    refine Option.bind_eq_none_iff.mpr fun d hd => ?_
    obtain ⟨statements, hread, hdocument⟩ := Option.bind_eq_some_iff.mp hd
    obtain ⟨n, r, more, hvalue, rfl⟩ := Toml.read?_of_isLeft h hleft hread
    obtain ⟨hothers, hfind⟩ := Toml.Document.ofStatements?_eq_some hdocument
    have hentry : ([key], r.1.item) ∈ d := by
      obtain ⟨front, rest, rfl, -⟩ := List.lookup_eq_some_iff.mp hfind
      simp
    exact foldlM_of_refused hentry (hrefused n r hvalue hothers d) {}
  rw [ofText, hnone]

theorem ofText_of_isAssignment {word line rest : List Char} (h : IsLines (line ++ rest) text.toList assigned)
    (hassignment : IsAssignment key word line) (hword : word ≠ [] ∧ ∀ c ∈ word.head?, Toml.isSpace c = false)
    (hbehind : IsBehind rest)
    (hrefused : ∀ n r behind, Toml.EndsValue behind → Toml.value? (n + 1) (word ++ behind) = some r →
      ∀ d config, withSetting? d config ([key], r.1.item) = none) :
    ofText text = .error .invalid := by
  obtain ⟨left, cs, behind, hleft, hline, hskip, hends, -⟩ := hassignment.exists_left hword.1 hword.2 hbehind
  rw [hline] at h
  refine ofText_of_refused h hleft fun n r hread _ => ?_
  rw [hskip] at hread
  exact hrefused n r behind hends hread

/-- **A line that offends** spoils the file. -/
theorem ofText_of_offends {offence : List Char} (h : IsLines offence text.toList assigned)
    (hoffends : Offends assigned offence) : ofText text = .error .invalid := by
  cases hoffends with
  | unknown hleft hkey =>
    exact ofText_of_refused h hleft fun _ _ _ _ d config => withSetting?_of_not_mem hkey d config _
  | repeated hleft hmem => exact ofText_of_refused h hleft fun _ _ _ hothers => absurd rfl (hothers _ hmem)
  | unsuitable hassignment htext hunsuitable hbehind =>
    refine ofText_of_isAssignment h hassignment htext.head hbehind fun n r behind hends hread => ?_
    rw [Toml.value?_of_isLiteral htext hends] at hread
    obtain rfl := Option.some.inj hread
    exact withSetting?_of_unsuitable hunsuitable
  | float hassignment htext hbehind =>
    refine ofText_of_isAssignment h hassignment htext.head hbehind fun n r behind hends hread => ?_
    rw [Toml.value?_of_isFloat htext hends] at hread
    cases hread

/-- **Settings that suit** are a configuration. -/
theorem ofText_of_suits (h : IsText text.toList assigned) (hsuits : ∀ a ∈ assigned, Suits a)
    (hdistinct : (assigned.map Prod.fst).Nodup) :
    ∃ config, ofText text = .ok config ∧
      IsGiven "angle_mode" IsMode assigned .degrees config.angleMode ∧
      IsGiven "history_limit" IsLimit assigned 50 config.historyLimit ∧
      IsGiven "copy_results" IsSwitch assigned false config.copyResults := by
  have hdocument : Toml.Document.ofStatements? (assigned.map Toml.statement) =
      some (assigned.map Toml.Document.entry) :=
    Toml.Document.ofStatements?_assigned (fun a ha => (hsuits a ha).ne_table) hdistinct
  obtain ⟨config, hfold, hgiven⟩ := exists_foldlM hsuits hdistinct (assigned.map Toml.Document.entry) {}
  refine ⟨config, ?_, hgiven⟩
  rw [ofText, Toml.read?_of_isText h, Option.bind_some, hdocument, Option.bind_some, ofDocument?, hfold]

/-- **Settings are independent, optional and checked.** A text of suitable settings, each of them once at most, is a
configuration with all that it gives and the usual values of what it leaves out, and a session starts with its mode and
its limit. A text with a line that offends is no configuration. -/
theorem settings_independent :
    (∀ (text : String) (assigned : List (String × Value)), IsText text.toList assigned →
      (∀ a ∈ assigned, Suits a) → (assigned.map Prod.fst).Nodup →
        ∃ config, ofText text = .ok config ∧
          IsGiven "angle_mode" IsMode assigned .degrees config.angleMode ∧
          IsGiven "history_limit" IsLimit assigned 50 config.historyLimit ∧
          IsGiven "copy_results" IsSwitch assigned false config.copyResults ∧
          (Session.ofConfig config).mode = config.angleMode ∧
          (Session.ofConfig config).historyLimit = config.historyLimit) ∧
      ∀ (text : String) (assigned : List (String × Value)) (offence : List Char),
        IsLines offence text.toList assigned → Offends assigned offence → ofText text = .error .invalid := by
  refine ⟨fun text assigned h hsuits hdistinct => ?_, fun text assigned offence => ofText_of_offends⟩
  obtain ⟨config, htext, hmode, hlimit, hcopy⟩ := ofText_of_suits h hsuits hdistinct
  exact ⟨config, htext, hmode, hlimit, hcopy, rfl, rfl⟩

theorem settings_independent_radians :
    ofText "angle_mode = \"rad\"\n\t# mine\nhistory_limit = 9223372036854775807\ncopy_results = true" =
        .ok ⟨.radians, 9223372036854775807, true⟩ ∧
      ofText "angle_mode = \"rad\"\ntheme = \"dark\"\ncopy_results = true" = .error .invalid := by
  have hname : IsMode (.text "rad") .radians := .mk (by simp [modeNames])
  have hlimit : IsLimit (.integer 9223372036854775807) 9223372036854775807 := .mk (by decide)
  have hmodeLine := isLine_line (.angleMode hname)
  constructor
  · have hcomment : IsLine (['\t'] ++ '#' :: " mine".toList) none := by
      refine .blank (by simp [Toml.IsSpaces, Toml.isSpace]) (.mk fun c hc => ?_)
      have hall : (" mine".toList.all fun c => !Toml.isControl c) = true := rfl
      simpa using List.all_eq_true.mp hall c hc
    have hsplit : "angle_mode = \"rad\"\n\t# mine\nhistory_limit = 9223372036854775807\ncopy_results = true".toList =
        line ("angle_mode", .text "rad") ++ (['\n'] ++ (['\t'] ++ '#' :: " mine".toList ++ (['\n'] ++
          (line ("history_limit", .integer 9223372036854775807) ++ (['\n'] ++
            line ("copy_results", .boolean true)))))) := rfl
    have htext := IsText.mk
      (.cons hmodeLine .feed (.cons hcomment .feed (.cons (isLine_line (.historyLimit hlimit)) .feed .nil)))
      (isLine_line (.copyResults (@IsSwitch.mk true)))
    rw [← hsplit] at htext
    obtain ⟨config, hconfig, hmode, hgiven, hcopy, -⟩ := settings_independent.1 _ _ htext
      (by simp [Suits.angleMode hname, Suits.historyLimit hlimit, Suits.copyResults (@IsSwitch.mk true)]) (by simp)
    rw [hconfig, ← hmode.given _ _ (by simp) hname, ← hgiven.given _ _ (by simp) hlimit,
      ← hcopy.given _ true (by simp) .mk]
  · have hkey : Toml.IsBareKey "theme" := ⟨by decide, List.all_eq_true.mp rfl⟩
    have hleft := @IsLeft.mk "theme" [] [' '] (by simp [Toml.IsSpaces]) hkey (by simp [Toml.IsSpaces, Toml.isSpace])
    have htext := IsLines.cons hmodeLine .feed
      (@IsLines.nil ([] ++ ("theme".toList ++ ([' '] ++ ['='])) ++ " \"dark\"\ncopy_results = true".toList))
    have hsplit : "angle_mode = \"rad\"\ntheme = \"dark\"\ncopy_results = true".toList =
        line ("angle_mode", .text "rad") ++ (['\n'] ++
          ([] ++ ("theme".toList ++ ([' '] ++ ['='])) ++ " \"dark\"\ncopy_results = true".toList)) := rfl
    rw [← hsplit] at htext
    exact settings_independent.2 _ _ _ htext (.unknown hleft (by simp [keys]))

end SciCalc.Config
