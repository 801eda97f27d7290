import Lindenmayer.Geometry.Point

/-!
# Lines

A straight line between two points. One of no length is drawn as a dot.
-/

namespace Lindenmayer

structure Line where
  start : Point
  stop : Point
deriving DecidableEq, Repr, Inhabited

/-- Whether both ends coincide. -/
def Line.isDot (line : Line) : Bool := line.start.same line.stop

end Lindenmayer
