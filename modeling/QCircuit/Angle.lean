import QCircuit.Expr.Basic

/-!
Angles in radians and in degrees.
-/

namespace QCircuit.Angle

/-- Two full turns. -/
def period : Float := 4.0 * pi

/-- Degrees of an angle in radians, reduced by two full turns with its sign kept. -/
def toDegrees (radians : Float) : Float := Binary64.rem radians period / pi * 180.0

def toRadians (degrees : Float) : Float := degrees / 180.0 * pi

end QCircuit.Angle
