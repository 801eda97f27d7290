import Lindenmayer.Number.Shortest

/-!
# Writing a number

Every output format here writes the shortest digits that read back. The formats
differ in where the point goes and when an exponent is written, which is what a
`Layout` records.
-/

namespace Lindenmayer.Number

/-- How a format lays out the digits of a number. -/
structure Layout where
  /-- Which of two equally near decimals is written. -/
  tie : Tie
  /-- Written after a number without a fraction. -/
  wholeSuffix : String
  /-- Whether a number whose leading digit has this exponent is written without one. -/
  positional : Int → Bool
  nan : String
  infinity : String
  negativeInfinity : String

def zeros (n : Nat) : List Char := List.replicate n '0'

/-- Digits with a point among them, for the exponent of the last digit. -/
def positionalText (wholeSuffix : String) (digits : List Char) (exponent : Int) : List Char :=
  if 0 ≤ exponent then
    digits ++ zeros exponent.toNat ++ wholeSuffix.toList
  else
    let places := (-exponent).toNat
    if places < digits.length then
      digits.take (digits.length - places) ++ '.' :: digits.drop (digits.length - places)
    else
      '0' :: '.' :: zeros (places - digits.length) ++ digits

/-- One digit, the others after a point, and the exponent of the first digit
with its sign. -/
def scientificText (digits : List Char) (leading : Int) : List Char :=
  let mantissa := match digits with
    | d :: r :: rs => d :: '.' :: r :: rs
    | ds => ds
  let sign := if leading < 0 then '-' else '+'
  mantissa ++ 'e' :: sign :: Nat.toDigits 10 leading.natAbs

/-- A decimal in the given layout. -/
def Decimal.text (layout : Layout) (d : Decimal) : List Char :=
  let digits := Nat.toDigits 10 d.significand
  let leading := d.exponent + digits.length - 1
  if layout.positional leading then positionalText layout.wholeSuffix digits d.exponent
  else scientificText digits leading

/-- The sign of a number that has one to show. -/
def signText : Float.Model.UnpackedFloat.Sign → List Char
  | .negative => ['-']
  | .positive => []

/-- The text of a number: its shortest decimal, and a sign if it is negative,
zero included. -/
def Layout.text (layout : Layout) (x : Float) : String :=
  match x.toModel.unpack with
  | .notANumber => layout.nan
  | .infinity .positive => layout.infinity
  | .infinity .negative => layout.negativeInfinity
  | .zero sign => .ofList (signText sign ++ '0' :: layout.wholeSuffix.toList)
  | .finite sign m e _ => .ofList (signText sign ++ (shortest layout.tie m e).text layout)

end Lindenmayer.Number
