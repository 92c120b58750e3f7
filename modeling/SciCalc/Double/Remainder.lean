/-
The remainder of doubles: what is left of the first after taking away the second as often as it
fits, with the sign of the first. It needs no rounding, since two finite doubles are numbers of the
same unit and the remainder of two numbers of units is again one.
-/
import SciCalc.Double.Basic

namespace SciCalc.Double

/-- The remainder of a division towards zero. Dividing an infinity, or by zero, leaves no number;
dividing by an infinity leaves the dividend. -/
def remainder (x y : Float) : Float :=
  match classify x, classify y with
  | .finite negative a, .finite _ b => if b = 0 then nan else ofUnits negative (a % b)
  | .finite _ _, .infinite _ => x
  | _, _ => nan

end SciCalc.Double
