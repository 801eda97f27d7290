import Lindenmayer.Json.Lexeme

/-!
# Skipping a value

The value of an unknown member has to be well formed, but nothing else is asked
of it. Escapes need not stand for characters, numbers may be of any size, and a
number that breaks off is malformed even at the end of the text.

The brackets that are open are kept on a stack, so any depth will do.
-/

namespace Lindenmayer.Json

inductive Bracket where
  | square
  | curly
deriving DecidableEq, Repr

/-- Skips one character of a string, or its closing quote. The flag says which:
`true` at the quote. -/
def skipChar (input : Input) : Except Fault (Bool × Input) :=
  match input with
  | [] => .error .cutShort
  | '"' :: rest => .ok (true, rest)
  | '\\' :: rest =>
      match rest with
      | [] => .error .cutShort
      | 'u' :: rest => do return (false, (← readHex rest).2)
      | c :: rest => if (unescape? c).isSome then .ok (false, rest) else .error .malformed
  | c :: rest => if c.toNat < 0x20 then .error .malformed else .ok (false, rest)

def skipChars : (fuel : Input) → Input → Except Fault Input
  | [], _ => .error .cutShort
  | _ :: fuel, input => do
      match ← skipChar input with
      | (true, rest) => return rest
      | (false, rest) => skipChars fuel rest

/-- Skips the rest of a string whose opening quote has been read. -/
def skipString (input : Input) : Except Fault Input := skipChars input input

/-- Skips an exponent after its mark. -/
def skipExponent (input : Input) : Except Fault Input :=
  let digits := match input with
    | '+' :: rest => rest
    | '-' :: rest => rest
    | rest => rest
  match digits with
  | c :: _ => if c.isDigit then .ok (digits.dropWhile Char.isDigit) else .error .malformed
  | [] => .error .malformed

/-- Skips an exponent if there is one. -/
def skipScale (input : Input) : Except Fault Input :=
  match input with
  | 'e' :: rest => skipExponent rest
  | 'E' :: rest => skipExponent rest
  | rest => .ok rest

/-- Skips what follows the digits before a point. -/
def skipFraction (input : Input) : Except Fault Input :=
  match input with
  | '.' :: c :: rest =>
      if c.isDigit then skipScale (rest.dropWhile Char.isDigit) else .error .malformed
  | '.' :: [] => .error .malformed
  | rest => skipScale rest

def skipNumber (input : Input) : Except Fault Input :=
  match input with
  | '0' :: rest =>
      match rest with
      | c :: _ => if c.isDigit then .error .malformed else skipFraction rest
      | [] => .ok []
  | c :: rest =>
      if c.isDigit then skipFraction (rest.dropWhile Char.isDigit) else .error .malformed
  | [] => .error .malformed

/-- Skips a value without brackets, or the opening bracket of one with them. -/
def skipScalar (input : Input) : Except Fault (Option Bracket × Input) :=
  match skipBlank input with
  | [] => .error .cutShort
  | 'n' :: rest => do return (none, ← readWord ['u', 'l', 'l'] rest)
  | 't' :: rest => do return (none, ← readWord ['r', 'u', 'e'] rest)
  | 'f' :: rest => do return (none, ← readWord ['a', 'l', 's', 'e'] rest)
  | '-' :: rest => do return (none, ← skipNumber rest)
  | '"' :: rest => do return (none, ← skipString rest)
  | '[' :: rest => .ok (some .square, rest)
  | '{' :: rest => .ok (some .curly, rest)
  | c :: rest => if c.isDigit then do return (none, ← skipNumber (c :: rest)) else .error .malformed

def skipKey (input : Input) : Except Fault Input := do
  match skipBlank input with
  | '"' :: rest =>
      match skipBlank (← skipString rest) with
      | ':' :: rest => return rest
      | _ :: _ => throw .malformed
      | [] => throw .cutShort
  | _ :: _ => throw .malformed
  | [] => throw .cutShort

/-- Moves to the next value inside an open bracket. -/
def enterBracket (bracket : Bracket) (stack : List Bracket) (input : Input) :
    Except Fault (List Bracket × Input) :=
  match bracket with
  | .square => .ok (bracket :: stack, input)
  | .curly => do return (bracket :: stack, ← skipKey input)

/-- Goes on after a value, or after an opening bracket when `first` is set: closes
brackets as long as they end, and stops before the next value. The result has the
brackets that are still open; if there are none, the value is complete. -/
def skipClosing : (stack : List Bracket) → (first : Bool) → Input →
    Except Fault (List Bracket × Input)
  | [], _, input => .ok ([], input)
  | bracket :: stack, first, input =>
      match skipBlank input, bracket with
      | [], _ => .error .cutShort
      | ']' :: rest, .square => skipClosing stack false rest
      | '}' :: rest, .curly => skipClosing stack false rest
      | c :: rest, _ =>
          if first then enterBracket bracket stack (c :: rest)
          else if c = ',' then enterBracket bracket stack rest
          else .error .malformed

/-- Skips a value inside the given brackets, and what is left of them. -/
def skipWithin : (fuel : Input) → (stack : List Bracket) → Input → Except Fault Input
  | [], _, _ => .error .cutShort
  | _ :: fuel, stack, input => do
      let (opened, rest) ← skipScalar input
      let (stack, rest) ← match opened with
        | some bracket => skipClosing (bracket :: stack) true rest
        | none => skipClosing stack false rest
      if stack.isEmpty then return rest else skipWithin fuel stack rest

def skipValue (input : Input) : Except Fault Input := skipWithin input [] input

end Lindenmayer.Json
