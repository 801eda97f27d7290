import Lindenmayer.Number.Numeral
import Lindenmayer.Proofs.NumericalOrder
import Lindenmayer.Proofs.Roundoff

/-!
# Every numeral is a number

A NaN comes from a NaN, or from infinities or zeros that meet. Packing makes none: an
exponent that does not fit gives an infinity. Rounding makes none either.

A numeral is its digits divided by a power of ten. A power of ten is neither a zero nor
an infinity, whichever way the quotient is computed, so what is read is a number, if
perhaps an infinite one.
-/

namespace Lindenmayer.Number

open Float.Model (UnpackedFloat Format)
open Float.Model.UnpackedFloat

theorem unpack_packComponents_ne {sign : Sign} {exponent : BitVec 11} {mantissa : BitVec 52}
    (h : exponent = -1#11 → mantissa = 0#52) :
    unpack Format.binary64 (packComponents Format.binary64 sign exponent mantissa) ≠
      .notANumber := by
  rw [unpack]
  simp only [unpackMantissa_packComponents, unpackExponent_packComponents]
  split
  · next hones =>
      rw [if_pos (h hones)]
      rintro ⟨⟩
  · split
    · split <;> rintro ⟨⟩
    · rintro ⟨⟩

theorem isNaN_encode {u : UnpackedFloat} (h : u ≠ .notANumber) : (encode u).isNaN = false := by
  rw [isNaN_eq_false_iff]
  show unpack Format.binary64 (pack Format.binary64 u) ≠ _
  cases u with
  | notANumber => exact absurd rfl h
  | infinity s => exact unpack_packComponents_ne fun _ => rfl
  | zero s => exact unpack_packComponents_ne fun _ => rfl
  | finite s m e hm =>
      rw [pack]
      split
      · exact unpack_packComponents_ne fun _ => rfl
      · next hfits =>
          split
          · refine unpack_packComponents_ne fun hones => ?_
            -- The exponent would be the one of infinities.
            have hfield := congrArg BitVec.toNat hones
            rw [BitVec.toNat_ofNat] at hfield
            have hones' : (-1#11).toNat = 2047 := rfl
            have hsize : 2 ^ Format.binary64.exponentBits = 2048 := rfl
            rw [hones'] at hfield
            rw [hsize] at hfits hfield
            omega
          · exact unpack_packComponents_ne fun h => absurd h (by decide)

theorem roundWithAccuracy_ne (sign : Sign) (m : Nat) (e : Int) (accuracy : Accuracy) :
    roundWithAccuracy Format.binary64 sign m e accuracy ≠ .notANumber := by
  rw [roundWithAccuracy]
  simp only
  split <;> rintro ⟨⟩

/-- A finite number divided by one that is not zero gives a number. -/
theorem div_finite_ne {u : UnpackedFloat} (h : u.isFinite = true) {sign : Sign} {m : Nat} {e : Int}
    (hm : 0 < m) : UnpackedFloat.div Format.binary64 u (.finite sign m e hm) ≠ .notANumber := by
  cases u with
  | notANumber | infinity => cases h
  | zero => rintro ⟨⟩
  | finite => exact roundWithAccuracy_ne _ _ _ _

theorem ofScientific_ne (m : Nat) (e : Int) :
    UnpackedFloat.ofScientific Format.binary64 m e ≠ .notANumber := by
  rw [UnpackedFloat.ofScientific]
  split
  · rintro ⟨⟩
  · split
    · rintro ⟨⟩
    · split
      · rintro ⟨⟩
      · split
        · exact roundWithAccuracy_ne _ _ _ _
        · exact div_finite_ne rfl _

theorem AtMost.isNaN_div {x y : Float} {v : ℚ} (hx : x.isFinite = true) (hy : AtMost y v) :
    (x / y).isNaN = false := by
  obtain ⟨m, e, hm, hdecode, -⟩ := hy
  show (encode (UnpackedFloat.div Format.binary64 (decode x) (decode y))).isNaN = false
  rw [hdecode]
  exact isNaN_encode (div_finite_ne hx hm)

theorem isFinite_toFloat {n : Nat} (h : n < UInt64.size) : n.toUInt64.toFloat.isFinite = true := by
  rcases Nat.eq_zero_or_pos n with rfl | hn
  · decide
  · obtain ⟨m, e, hm, hdecode, -⟩ := atMost_toFloat hn h
    show (decode n.toUInt64.toFloat).isFinite = true
    rw [hdecode]
    rfl

theorem isAtMost_tabulated_power :
    ∀ x ∈ Float.exactlyRepresentablePowersOfTen, isAtMost x (10 ^ 22) = true := by
  decide

theorem isNaN_ofScientific (m k : Nat) : (Float.ofScientific m true k).isNaN = false := by
  rw [Float.ofScientific]
  split
  · next hfast =>
      have hsize : m < UInt64.size := Nat.lt_trans hfast.1 (by decide)
      exact (atMost_of_isAtMost (isAtMost_tabulated_power _ (Array.getElem_mem _))).isNaN_div
        (isFinite_toFloat hsize)
  · exact isNaN_encode (ofScientific_ne m _)

theorem isNaN_neg {x : Float} (h : x.isNaN = false) : (-x).isNaN = false := by
  rw [isNaN_eq_false_iff] at h
  refine isNaN_encode (u := (decode x).neg) ?_
  cases hx : decode x with
  | notANumber => exact absurd hx h
  | _ => rintro ⟨⟩

theorem isNaN_unsignedValue (numeral : List Char) : (unsignedValue numeral).isNaN = false :=
  isNaN_ofScientific _ _

theorem isNaN_numeralValue (numeral : List Char) : (numeralValue numeral).isNaN = false := by
  unfold numeralValue
  split
  · exact isNaN_neg (isNaN_unsignedValue _)
  · exact isNaN_unsignedValue _

end Lindenmayer.Number
