import Lindenmayer.Alphabet
import Lindenmayer.Geometry.Line
import Lindenmayer.Geometry.Rect

/-!
# Drawings

The turtle has a position and a direction whose length is the step. A turn
rotates the direction. A push opens a branch in which steps are scaled, and the pop
that closes it takes the turtle back. A literal moves, paints, or both. What it
paints is the drawing: the segments in order, the smallest rectangle around
them, and a note of brackets that did not pair up.

A pop without a push changes nothing but the note.
-/

namespace Lindenmayer

/-- What painting leaves behind: a line in a color of the alphabet's table. -/
structure Segment where
  line : Line
  colorNumber : UInt8
deriving DecidableEq, Repr, Inhabited

/-- Irregularities of a run, as a set of bits. -/
structure Anomalies where
  bits : UInt8
deriving DecidableEq, Repr, Inhabited

namespace Anomalies

def none : Anomalies := ⟨0⟩

def popOnEmptyStack : Anomalies := ⟨1⟩

def pushNeverPopped : Anomalies := ⟨2⟩

def union (a b : Anomalies) : Anomalies := ⟨a.bits ||| b.bits⟩

/-- Whether every bit of `b` is set in `a`. -/
def contains (a b : Anomalies) : Bool := a.bits &&& b.bits == b.bits

def isEmpty (a : Anomalies) : Bool := a.bits == 0

def names (a : Anomalies) : List String :=
  [(popOnEmptyStack, "pop on empty stack"), (pushNeverPopped, "push never popped")].filterMap
    fun (bit, name) => if a.contains bit then some name else Option.none

def message (a : Anomalies) : String := ", ".intercalate a.names

end Anomalies

/-- What one run of the turtle leaves behind. -/
structure Drawing where
  segments : Array Segment := #[]
  bounds : Option Rect := none
  anomalies : Anomalies := .none
deriving DecidableEq, Repr, Inhabited

namespace Drawing

/-- Stretches the bounds to a point. -/
def cover (bounds : Option Rect) (p : Point) : Option Rect :=
  match bounds with
  | some r => some (r.including p)
  | none => some (.ofPoints p p)

/-- Adds a segment and covers its ends. -/
def paint (d : Drawing) (start stop : Point) (colorNumber : UInt8) : Drawing :=
  { d with
    segments := d.segments.push ⟨⟨start, stop⟩, colorNumber⟩
    bounds := cover (cover d.bounds start) stop }

def note (d : Drawing) (anomaly : Anomalies) : Drawing :=
  { d with anomalies := d.anomalies.union anomaly }

end Drawing

structure Turtle where
  position : Point
  direction : Point
  /-- The positions and directions saved by pushes that are still open. -/
  saved : List (Point × Point) := []
deriving DecidableEq, Repr, Inhabited

/-- A turtle and what it has drawn so far. -/
structure Pen where
  turtle : Turtle
  drawing : Drawing := {}
deriving DecidableEq, Repr, Inhabited

namespace Pen

def turn (pen : Pen) (rotation : Rotation) : Pen :=
  { pen with turtle := { pen.turtle with direction := rotation.apply pen.turtle.direction } }

/-- Opens a branch: puts position and direction aside and scales the step. -/
def push (pen : Pen) (factor : Float) : Pen :=
  let t := pen.turtle
  { pen with turtle :=
      { t with direction := t.direction.scale factor, saved := (t.position, t.direction) :: t.saved } }

/-- Brings back the turtle that was saved last. -/
def pop (pen : Pen) : Pen :=
  match pen.turtle.saved with
  | (position, direction) :: saved => { pen with turtle := { position, direction, saved } }
  | [] => { pen with drawing := pen.drawing.note .popOnEmptyStack }

/-- Advances if the effects say so, and then paints if they say so. -/
def mark (pen : Pen) (colorNumber : UInt8) (effects : Effects) : Pen :=
  let start := pen.turtle.position
  let stop := if effects.contains .move then start + pen.turtle.direction else start
  { turtle := { pen.turtle with position := stop }
    drawing :=
      if effects.contains .paint then pen.drawing.paint start stop colorNumber else pen.drawing }

def step (pen : Pen) : Action → Pen
  | .turn _ rotation => pen.turn rotation
  | .push factor => pen.push factor
  | .pop => pen.pop
  | .literal _ colorNumber effects _ => pen.mark colorNumber effects

/-- At the origin, with the given step, turned by the start angle. -/
def start (startAngle stepSize : Float) : Pen :=
  turn { turtle := { position := .origin, direction := ⟨stepSize, 0⟩ } } (.ofDegrees startAngle)

/-- The drawing of a run that ends here. -/
def finish (pen : Pen) : Drawing :=
  if pen.turtle.saved.isEmpty then pen.drawing else pen.drawing.note .pushNeverPopped

end Pen

namespace Alphabet

@[inline] def stepSymbol (a : Alphabet) (pen : Pen) (id : SymbolId) : Pen :=
  match a.actions[id]? with
  | some action => pen.step action
  | none => pen

def walk (a : Alphabet) (pen : Pen) (word : Word) : Pen :=
  word.foldl a.stepSymbol pen

def draw (a : Alphabet) (word : Word) (startAngle stepSize : Float) : Drawing :=
  (a.walk (.start startAngle stepSize) word).finish

end Alphabet

end Lindenmayer
