import Lindenmayer.Color

/-!
# Configurations

An L-system is a list of definitions, one for each letter of its alphabet, with
the parameters of the turtle that draws it. The letter of the first definition
is the start symbol.

Two notions of equality matter. `Config.same` compares everything.
`Config.sameExpansion` leaves out what only the drawing depends on, so that a
compiled alphabet may be kept while the turtle starts elsewhere. Both compare
numbers as numbers: the two zeros are equal and a NaN equals nothing, itself
included.
-/

namespace Lindenmayer

/-- What a literal does when the turtle meets it, as a set of bits. -/
structure Effects where
  bits : UInt8
deriving DecidableEq, Repr, Inhabited

namespace Effects

def none : Effects := ⟨0⟩

def paint : Effects := ⟨1⟩

def move : Effects := ⟨2⟩

def union (a b : Effects) : Effects := ⟨a.bits ||| b.bits⟩

/-- Whether every bit of `b` is set in `a`. -/
def contains (a b : Effects) : Bool := a.bits &&& b.bits == b.bits

end Effects

/-- One letter of the alphabet and what replaces it in the next generation. -/
structure Definition where
  literal : Char
  /-- What replaces the literal: letters and the operators `+ - [ ]`. -/
  actions : String
  color : Color
  effects : Effects
deriving DecidableEq, Repr, Inhabited

/-- A complete L-system. Angles are in degrees. -/
structure Config where
  definitions : List Definition := []
  turnLeft : Float := 90
  turnRight : Float := -90
  /-- Applied to the step inside brackets. -/
  scaling : Float := 1
  startAngle : Float := 0
  stepSize : Float := 1
  iterations : UInt32 := 3
  /-- How long a generation may get, where the simulator's own bound is not to apply. -/
  stackSize : Option UInt64 := none
deriving DecidableEq, Repr, Inhabited

inductive Setting where
  | turnLeft (degrees : Float)
  | turnRight (degrees : Float)
  | scaling (factor : Float)
  | startAngle (degrees : Float)
  | stepSize (step : Float)
  | iterations (count : UInt32)
  | stackSize (size : UInt64)
deriving DecidableEq, Repr

namespace Config

/-- The configuration with one parameter set. -/
def apply (config : Config) : Setting → Config
  | .turnLeft degrees => { config with turnLeft := degrees }
  | .turnRight degrees => { config with turnRight := degrees }
  | .scaling factor => { config with scaling := factor }
  | .startAngle degrees => { config with startAngle := degrees }
  | .stepSize step => { config with stepSize := step }
  | .iterations count => { config with iterations := count }
  | .stackSize size => { config with stackSize := some size }

/-- The definitions with all settings made. Of two settings of one parameter the
later one counts. -/
def ofParts (settings : List Setting) (definitions : List Definition) : Config :=
  settings.foldl apply { definitions }

/-- The definition of the start symbol. -/
def start? (config : Config) : Option Definition := config.definitions.head?

/-- Whether an alphabet compiled from one configuration serves the other too. -/
def sameExpansion (a b : Config) : Bool :=
  a.definitions = b.definitions && a.iterations == b.iterations && a.turnLeft == b.turnLeft
    && a.turnRight == b.turnRight && a.scaling == b.scaling

def same (a b : Config) : Bool :=
  a.sameExpansion b && a.startAngle == b.startAngle && a.stepSize == b.stepSize
    && a.stackSize == b.stackSize

end Config

end Lindenmayer
