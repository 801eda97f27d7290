/-!
# Rounding to halves

A turn by 90° should send `(3, 0)` to `(0, 3)` and not to `(1.8e-16, 3)`. The
cosine of a right angle misses zero only by the noise of the angle's own
rounding, so cosines and sines are snapped: a value within `snapTolerance` of a
multiple of one half becomes that multiple, and every other value stays as it is.

`roundHalfAway` works on the significand and the exponent of its argument, where
rounding is division of whole numbers. It is exact: a double with a fraction is
smaller than `2 ^ 53`, and so is the whole number beside it.
-/

namespace Lindenmayer.Number

open Float.Model (UnpackedFloat)

/-- The whole number nearest to `m / 2 ^ k`. A half goes up. -/
def nearestWhole (m k : Nat) : Nat :=
  (2 * m + Nat.pow 2 k) / Nat.pow 2 (k + 1)

/-- A whole number below `2 ^ 64`, under the given sign. Zero has a sign as well. -/
def signedWhole (sign : UnpackedFloat.Sign) (n : Nat) : Float :=
  match sign with
  | .positive => n.toUInt64.toFloat
  | .negative => -n.toUInt64.toFloat

/-- The nearest whole number, a half going away from zero. Zeros, infinities and
NaN are their own rounding. -/
def roundHalfAway (x : Float) : Float :=
  match x.toModel.unpack with
  | .finite sign m e _ =>
      if 0 ≤ e then x else signedWhole sign (nearestWhole m (-e).toNat)
  | _ => x

/-- How close the double of a value must be to a whole number to be taken for it. -/
def snapTolerance : Float := 1e-12

/-- The multiple of one half that `x` is within noise of, or `x` if there is none. -/
def snap (x : Float) : Float :=
  let doubled := x * 2
  let rounded := roundHalfAway doubled
  if (doubled - rounded).abs < snapTolerance then rounded / 2 else x

end Lindenmayer.Number
