/-
The angle mode: whether trigonometric functions take and give angles in degrees or in radians. It is
typed in a generous form (any case, white space around it) and configured in a strict one.
-/
import SciCalc.Double.Basic
import SciCalc.Text.Ascii
import SciCalc.Text.Blank

namespace SciCalc

/-- The unit of angles. -/
inductive AngleMode where
  | degrees | radians
deriving DecidableEq, Repr, Inhabited

/-- A typed text that names no angle mode, without the white space around it. -/
structure UnknownAngleMode where
  text : String
deriving DecidableEq, Repr

/-- What the user is told about it. -/
def UnknownAngleMode.message (e : UnknownAngleMode) : String :=
  "unknown angle mode '" ++ e.text ++ "' (expected DEG or RAD)"

namespace AngleMode

/-- The mode that is not this one. -/
def toggle : AngleMode → AngleMode
  | degrees => radians
  | radians => degrees

/-- How a mode is displayed. -/
def display : AngleMode → String
  | degrees => "DEG"
  | radians => "RAD"

/-- How a mode is written in a configuration. -/
def configName : AngleMode → String
  | degrees => "deg"
  | radians => "rad"

/-- The mode that a configuration names, in one of six exact spellings. -/
def ofConfigName? (name : String) : Option AngleMode :=
  if name ∈ ["deg", "DEG", "degrees"] then some degrees
  else if name ∈ ["rad", "RAD", "radians"] then some radians
  else none

/-- The mode that a typed text names, whatever the case and the white space around it. -/
def ofText (text : String) : Except UnknownAngleMode AngleMode :=
  let name := Text.trim text.toList
  if ["deg", "degrees"].any fun known => Text.sameLetters name known.toList then .ok degrees
  else if ["rad", "radians"].any fun known => Text.sameLetters name known.toList then .ok radians
  else .error ⟨String.ofList name⟩

/-- An angle in the mode's unit, in radians. -/
def toRadians (mode : AngleMode) (x : Float) : Float :=
  match mode with
  | degrees => x * Double.pi / Double.ofNat 180
  | radians => x

/-- An angle in radians, in the mode's unit. -/
def ofRadians (mode : AngleMode) (x : Float) : Float :=
  match mode with
  | degrees => x * Double.ofNat 180 / Double.pi
  | radians => x

@[simp] theorem toggle_toggle (mode : AngleMode) : mode.toggle.toggle = mode := by cases mode <;> rfl

@[simp] theorem ofConfigName?_configName (mode : AngleMode) :
    ofConfigName? mode.configName = some mode := by cases mode <;> decide

end AngleMode
end SciCalc
