/-!
# The smaller and the larger of two numbers

A bounding box has to survive a coordinate that is not a number, so these two
ignore a NaN beside a number. Two zeros count as equal, and then the first
argument is taken.
-/

namespace Lindenmayer.Number

/-- The smaller argument. A NaN gives way to the other one. -/
def least (x y : Float) : Float :=
  if x.isNaN then y else if y < x then y else x

/-- The larger argument. A NaN gives way to the other one. -/
def greatest (x y : Float) : Float :=
  if x.isNaN then y else if x < y then y else x

end Lindenmayer.Number
