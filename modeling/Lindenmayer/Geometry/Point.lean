import Lindenmayer.Number.Order

/-!
# Points

A point of the plane, which is also a direction. Equality is that of the
coordinates as numbers: the two zeros are equal, and a NaN equals nothing.
-/

namespace Lindenmayer

structure Point where
  x : Float
  y : Float
deriving DecidableEq, Repr, Inhabited

namespace Point

def origin : Point := ⟨0, 0⟩

instance : Add Point := ⟨fun a b => ⟨a.x + b.x, a.y + b.y⟩⟩

instance : Sub Point := ⟨fun a b => ⟨a.x - b.x, a.y - b.y⟩⟩

instance : Neg Point := ⟨fun a => ⟨-a.x, -a.y⟩⟩

def scale (p : Point) (factor : Float) : Point := ⟨p.x * factor, p.y * factor⟩

/-- The smaller of each coordinate. -/
def least (a b : Point) : Point := ⟨Number.least a.x b.x, Number.least a.y b.y⟩

/-- The larger of each coordinate. -/
def greatest (a b : Point) : Point := ⟨Number.greatest a.x b.x, Number.greatest a.y b.y⟩

def same (a b : Point) : Bool := a.x == b.x && a.y == b.y

/-- Whether no coordinate differs by more than `tolerance`. -/
def near (a b : Point) (tolerance : Float) : Bool :=
  (a.x - b.x).abs ≤ tolerance && (a.y - b.y).abs ≤ tolerance

end Point

end Lindenmayer
