/-!
# Reading numerals

A numeral is a run of decimal digits, perhaps with a minus sign before it and a
fraction after it. A whole numeral has a whole value of any size; as a double it
is rounded once, from its exact value.
-/

namespace Lindenmayer.Number

/-- The value of a run of decimal digits, leading zeros or not. -/
def digitsValue (digits : List Char) : Nat := Nat.ofDigitChars 10 digits 0

/-- The double nearest to a numeral without a sign. -/
def unsignedValue (numeral : List Char) : Float :=
  let whole := numeral.takeWhile Char.isDigit
  let fraction := (numeral.dropWhile Char.isDigit).drop 1
  .ofScientific (digitsValue (whole ++ fraction)) true fraction.length

/-- The double nearest to a numeral. Minus nought is the negative zero. -/
def numeralValue : List Char → Float
  | '-' :: numeral => -unsignedValue numeral
  | numeral => unsignedValue numeral

/-- The number that a text spells in decimal digits, with an optional plus sign,
if it is at most `limit`. -/
def unsigned? (limit : Nat) (text : String) : Option Nat :=
  let digits := match text.toList with
    | '+' :: digits => digits
    | digits => digits
  if digits ≠ [] ∧ digits.all Char.isDigit ∧ digitsValue digits ≤ limit then
    some (digitsValue digits)
  else
    none

end Lindenmayer.Number
