import Lindenmayer.Geometry.Point

/-!
# Rectangles

An upright rectangle between its least and its greatest corner, grown point by
point into a bounding box.
-/

namespace Lindenmayer

structure Rect where
  origin : Point
  lowerRight : Point
deriving DecidableEq, Repr, Inhabited

namespace Rect

/-- The smallest rectangle with both points. -/
def ofPoints (a b : Point) : Rect := ⟨a.least b, a.greatest b⟩

/-- The smallest rectangle with one more point. -/
def including (r : Rect) (p : Point) : Rect := ⟨r.origin.least p, r.lowerRight.greatest p⟩

def size (r : Rect) : Point := r.lowerRight - r.origin

end Rect

end Lindenmayer
