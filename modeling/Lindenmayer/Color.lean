import Lindenmayer.Text

/-!
# Colors

A color is written `#rrggbb`. Only opaque colors have a text; the alpha channel
is kept but not written.
-/

namespace Lindenmayer

structure Color where
  red : UInt8
  green : UInt8
  blue : UInt8
  alpha : UInt8
deriving DecidableEq, Repr, Inhabited

namespace Color

def rgb (red green blue : UInt8) : Color := ⟨red, green, blue, 255⟩

def black : Color := rgb 0 0 0

/-- The channel that two hexadecimal digits spell. -/
def channel? (high low : Char) : Option UInt8 := do
  return .ofNat (16 * (← Text.hexValue? high) + (← Text.hexValue? low))

/-- The opaque color that `#rrggbb` spells. -/
def ofHex? (text : String) : Option Color :=
  match text.toList with
  | ['#', r₁, r₀, g₁, g₀, b₁, b₀] => do
      return rgb (← channel? r₁ r₀) (← channel? g₁ g₀) (← channel? b₁ b₀)
  | _ => none

def channelText (channel : UInt8) : List Char :=
  [Text.hexDigit (channel.toNat / 16), Text.hexDigit channel.toNat]

/-- The color as `#rrggbb` in lower case. -/
def toHex (c : Color) : String :=
  .ofList ('#' :: channelText c.red ++ channelText c.green ++ channelText c.blue)

end Color

end Lindenmayer
