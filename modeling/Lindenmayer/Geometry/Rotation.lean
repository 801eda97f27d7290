import Lindenmayer.Geometry.Point
import Lindenmayer.Number.Angle
import Lindenmayer.Number.Rounding

/-!
# Rotations

A turn by a fixed angle, kept as its cosine and its sine. Both are snapped, so
that a turn by 90°, 180° or 60° has the factors the eye expects and figures made
of such turns close.
-/

namespace Lindenmayer

structure Rotation where
  cos : Float
  sin : Float
deriving DecidableEq, Repr, Inhabited

namespace Rotation

/-- The counterclockwise turn by an angle in degrees. -/
def ofDegrees (degrees : Float) : Rotation where
  cos := Number.snap (Number.cosine (Number.radians degrees))
  sin := Number.snap (Number.sine (Number.radians degrees))

def apply (r : Rotation) (v : Point) : Point where
  x := r.cos * v.x - r.sin * v.y
  y := r.sin * v.x + r.cos * v.y

end Rotation

end Lindenmayer
