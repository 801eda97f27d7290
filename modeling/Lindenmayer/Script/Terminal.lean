import Lindenmayer.Text

/-!
# The terminals of the text format

There are ten fixed words and six patterns. Each terminal says how much of a text
it matches at the front, at most; the lexer takes whichever matches most.

`Terminal.all` has the order in which messages list them. Fixed words come
before patterns there, and the same order decides between two terminals that
match the same text.
-/

namespace Lindenmayer.Script

inductive Terminal where
  | equals
  | iterations
  | move
  | paint
  | scaling
  | stackSize
  | startAngle
  | step
  | turnLeft
  | turnRight
  /-- A hash sign and six hexadecimal digits. -/
  | color
  /-- Digits around a point, perhaps after a minus sign. -/
  | decimal
  /-- Digits after a minus sign. -/
  | negative
  | digits
  | letter
  /-- Anything but a quote between two quotes. -/
  | quoted
deriving DecidableEq, Repr

namespace Terminal

def all : List Terminal :=
  [equals, iterations, move, paint, scaling, stackSize, startAngle, step, turnLeft, turnRight,
    color, decimal, negative, digits, letter, quoted]

/-- The one text of a fixed word. -/
def word? : Terminal → Option String
  | equals => some "="
  | iterations => some "iterations"
  | move => some "move"
  | paint => some "paint"
  | scaling => some "scaling"
  | stackSize => some "stack_size"
  | startAngle => some "start_angle"
  | step => some "step"
  | turnLeft => some "turn_left"
  | turnRight => some "turn_right"
  | _ => none

/-- How messages name a terminal. -/
def display : Terminal → String
  | equals => "\"=\""
  | iterations => "\"iterations\""
  | move => "\"move\""
  | paint => "\"paint\""
  | scaling => "\"scaling\""
  | stackSize => "\"stack_size\""
  | startAngle => "\"start_angle\""
  | step => "\"step\""
  | turnLeft => "\"turn_left\""
  | turnRight => "\"turn_right\""
  | color => "r#\"#[0-9a-fA-F]\x7b6\x7d\"#"
  | decimal => "r#\"-?[0-9]+\\\\.[0-9]+\"#"
  | negative => "r#\"-[0-9]+\"#"
  | digits => "r#\"[0-9]+\"#"
  | letter => "r#\"[A-Z]\"#"
  | quoted => "r#\"\\\"[^\\\"]*\\\"\"#"

end Terminal

/-- The length of the digits at the front, if there are any. -/
def digitsLength? (cs : List Char) : Option Nat :=
  match (cs.takeWhile Char.isDigit).length with
  | 0 => none
  | n => some n

/-- The length of digits, a point and digits at the front. -/
def decimalLength? (cs : List Char) : Option Nat := do
  let whole ← digitsLength? cs
  match cs.drop whole with
  | '.' :: fraction => return whole + 1 + (← digitsLength? fraction)
  | _ => none

/-- The length of the longest text at the front that a terminal matches. -/
def Terminal.matchLength? (t : Terminal) (cs : List Char) : Option Nat :=
  match t with
  | .color =>
      match cs with
      | '#' :: ds =>
          if (ds.take 6).length = 6 ∧ (ds.take 6).all Text.isHexDigit then some 7 else none
      | _ => none
  | .decimal =>
      match cs with
      | '-' :: ds => (decimalLength? ds).map (· + 1)
      | ds => decimalLength? ds
  | .negative =>
      match cs with
      | '-' :: ds => (digitsLength? ds).map (· + 1)
      | _ => none
  | .digits => digitsLength? cs
  | .letter =>
      match cs with
      | c :: _ => if c.isUpper then some 1 else none
      | [] => none
  | .quoted =>
      match cs with
      | '"' :: ds =>
          match ds.dropWhile (· != '"') with
          | [] => none
          | _ :: _ => some ((ds.takeWhile (· != '"')).length + 2)
      | _ => none
  | fixed =>
      match fixed.word? with
      | some word => if word.toList.isPrefixOf cs then some word.length else none
      | none => none

end Lindenmayer.Script
