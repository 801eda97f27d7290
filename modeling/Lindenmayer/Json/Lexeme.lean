import Lindenmayer.Number.Numeral
import Lindenmayer.Text

/-!
# Reading the leaves of a JSON document

A reader takes a value off the front of the text and returns it with the rest. It
reports the first fault it comes to. There are three kinds: text that is not
JSON, JSON that is not of the wanted shape, and text that ends too early.

Numbers with a fraction, with an exponent or with too many digits are read
quickly rather than exactly: digits are collected as long as they fit into 64
bits, the whole number is rounded to a double, and the double is multiplied or
divided by a power of ten. The result may be a neighbour of the nearest double.

A reader that repeats a step is given a text for fuel, no shorter than the one it
reads. Each step takes something off the text, so where the fuel runs out there is
nothing left to read either, and the fault is the one of a text that ends.
-/

namespace Lindenmayer.Json

open Text (byteLength hexValue?)

inductive Fault where
  | malformed
  /-- The value is not of the wanted shape. -/
  | mismatched
  | cutShort
deriving DecidableEq, Repr

abbrev Input := List Char

/-- Takes something off the front of a text. -/
abbrev Reader (α : Type) := Input → Except Fault (α × Input)

/-- White space between the tokens of a document. -/
def isBlank (c : Char) : Bool := c = ' ' || c = '\n' || c = '\t' || c = '\r'

def skipBlank (input : Input) : Input := input.dropWhile isBlank

/-- Reads the given characters and no others. -/
def readWord : List Char → Input → Except Fault Input
  | [], input => .ok input
  | _ :: _, [] => .error .cutShort
  | c :: cs, d :: input => if c = d then readWord cs input else .error .malformed

/-! ### Strings -/

/-- The value of four hexadecimal digits. A text of fewer than four bytes ends
too early, whatever it holds. -/
def readHex (input : Input) : Except Fault (Nat × Input) :=
  if byteLength (input.take 4) < 4 then .error .cutShort
  else
    match input with
    | a :: b :: c :: d :: rest =>
        match hexValue? a, hexValue? b, hexValue? c, hexValue? d with
        | some a, some b, some c, some d => .ok (4096 * a + 256 * b + 16 * c + d, rest)
        | _, _, _, _ => .error .malformed
    | _ => .error .malformed

/-- The first of two code units that stand for one character. -/
def isHighSurrogate (n : Nat) : Bool := 0xD800 ≤ n && n ≤ 0xDBFF

/-- The second of two code units that stand for one character. -/
def isLowSurrogate (n : Nat) : Bool := 0xDC00 ≤ n && n ≤ 0xDFFF

def combine (high low : Nat) : Char :=
  .ofNat (0x10000 + (high - 0xD800) * 0x400 + (low - 0xDC00))

/-- The character after a backslash and a `u`: one code unit, or two with another
backslash and `u` between them. -/
def readUnicodeEscape (input : Input) : Except Fault (Char × Input) := do
  let (n, rest) ← readHex input
  if isLowSurrogate n then throw .malformed
  if !isHighSurrogate n then return (.ofNat n, rest)
  let rest ← readWord ['\\', 'u'] rest
  let (m, rest) ← readHex rest
  if isLowSurrogate m then return (combine n m, rest) else throw .malformed

/-- What a single letter after a backslash stands for. -/
def unescape? (c : Char) : Option Char :=
  match c with
  | '"' => some '"'
  | '\\' => some '\\'
  | '/' => some '/'
  | 'b' => some '\x08'
  | 'f' => some '\x0c'
  | 'n' => some '\n'
  | 'r' => some '\r'
  | 't' => some '\t'
  | _ => none

def readEscape (input : Input) : Except Fault (Char × Input) :=
  match input with
  | [] => .error .cutShort
  | 'u' :: rest => readUnicodeEscape rest
  | c :: rest =>
      match unescape? c with
      | some c => .ok (c, rest)
      | none => .error .malformed

/-- The next character of a string, or `none` at its closing quote. -/
def readChar (input : Input) : Except Fault (Option Char × Input) :=
  match input with
  | [] => .error .cutShort
  | '"' :: rest => .ok (none, rest)
  | '\\' :: rest => do
      let (c, rest) ← readEscape rest
      return (some c, rest)
  | c :: rest => if c.toNat < 0x20 then .error .malformed else .ok (some c, rest)

/-- The characters up to the closing quote. -/
def readChars : (fuel : Input) → Reader (List Char)
  | [], _ => .error .cutShort
  | _ :: fuel, input => do
      match ← readChar input with
      | (none, rest) => return ([], rest)
      | (some c, rest) =>
          let (cs, rest) ← readChars fuel rest
          return (c :: cs, rest)

/-- The rest of a string whose opening quote has been read. -/
def readString (input : Input) : Except Fault (String × Input) := do
  let (cs, rest) ← readChars input input
  return (.ofList cs, rest)

/-! ### Numbers -/

/-- A number as it was read: whole numbers keep their value. -/
inductive Numeric where
  | natural (n : Nat)
  /-- The negative of a positive number. -/
  | negative (n : Nat)
  | float (x : Float)
deriving DecidableEq, Repr

def wordLimit : Nat := UInt64.size - 1

/-- Collects digits as long as the number fits into 64 bits. Returns it with the
number of digits taken and what follows them. -/
def collect (n taken : Nat) : Input → Nat × Nat × Input
  | [] => (n, taken, [])
  | c :: rest =>
      if c.isDigit ∧ 10 * n + (c.toNat - '0'.toNat) ≤ wordLimit then
        collect (10 * n + (c.toNat - '0'.toNat)) (taken + 1) rest
      else (n, taken, c :: rest)

/-- Multiplies by a power of ten, or divides by one. The steps of `10 ^ 308` go
below any double in the end. -/
def scaleBy : (fuel : Nat) → (x : Float) → (exponent : Int) → Except Fault Float
  | 0, x, _ => .ok x
  | fuel + 1, x, exponent =>
      if exponent.natAbs ≤ 308 then
        let power := Float.ofScientific 1 false exponent.natAbs
        if 0 ≤ exponent then
          if (x * power).isInf then .error .malformed else .ok (x * power)
        else .ok (x / power)
      else if x == 0 then .ok x
      else if 0 ≤ exponent then .error .malformed
      else scaleBy fuel (x / 1e308) (exponent + 308)

/-- The double for a number of 64 bits and a power of ten. -/
def floatOf (negative : Bool) (significand : Nat) (exponent : Int) : Except Fault Float := do
  let x ← scaleBy 5 significand.toUInt64.toFloat exponent
  return if negative then -x else x

/-- The largest exponent that is told apart from larger ones. -/
def exponentLimit : Nat := 2147483647

def clampExponent (e : Int) : Int :=
  if exponentLimit < e then exponentLimit
  else if e < -exponentLimit - 1 then -exponentLimit - 1
  else e

/-- Reads an exponent, after its mark, and finishes the number. -/
def readExponent (negative : Bool) (significand : Nat) (exponent : Int) (input : Input) :
    Except Fault (Numeric × Input) := do
  let (down, rest) := match input with
    | '+' :: rest => (false, rest)
    | '-' :: rest => (true, rest)
    | rest => (false, rest)
  match rest with
  | [] => throw .cutShort
  | c :: _ =>
      if !c.isDigit then throw .malformed
      let digits := rest.takeWhile Char.isDigit
      let after := rest.dropWhile Char.isDigit
      let e := Number.digitsValue digits
      if exponentLimit < e then
        if significand ≠ 0 ∧ !down then throw .malformed
        return (.float (if negative then -0.0 else 0.0), after)
      let x ← floatOf negative significand (clampExponent (if down then exponent - e else exponent + e))
      return (.float x, after)

/-- Finishes a number that is not whole: what follows may be an exponent. -/
def readScale (negative : Bool) (significand : Nat) (exponent : Int) (input : Input) :
    Except Fault (Numeric × Input) :=
  match input with
  | 'e' :: rest => readExponent negative significand exponent rest
  | 'E' :: rest => readExponent negative significand exponent rest
  | rest => do return (.float (← floatOf negative significand exponent), rest)

/-- Reads the digits after a point. Those that do not fit are left out. -/
def readFraction (negative : Bool) (significand : Nat) (exponent : Int) (input : Input) :
    Except Fault (Numeric × Input) :=
  let (significand, taken, rest) := collect significand 0 input
  match rest with
  | c :: _ =>
      if c.isDigit then
        readScale negative significand (exponent - taken) (rest.dropWhile Char.isDigit)
      else if taken = 0 then .error .malformed
      else readScale negative significand (exponent - taken) rest
  | [] =>
      if taken = 0 then .error .cutShort
      else readScale negative significand (exponent - taken) rest

/-- A whole number with its sign. Minus nought is not whole, and neither is a
number below what 64 bits hold with a sign. -/
def wholeNumber (negative : Bool) (n : Nat) : Numeric :=
  if !negative then .natural n
  else if n = 0 ∨ UInt64.size < 2 * n then .float (-n.toUInt64.toFloat)
  else .negative n

/-- Finishes a number after the digits before its point. -/
def readNumberTail (negative : Bool) (significand : Nat) (input : Input) :
    Except Fault (Numeric × Input) :=
  match input with
  | '.' :: rest => readFraction negative significand 0 rest
  | 'e' :: rest => readExponent negative significand 0 rest
  | 'E' :: rest => readExponent negative significand 0 rest
  | rest => .ok (wholeNumber negative significand, rest)

/-- Finishes a number whose digits before the point do not fit into 64 bits: each
digit that is left out counts as a factor of ten. -/
def readLongTail (negative : Bool) (significand : Nat) (input : Input) :
    Except Fault (Numeric × Input) :=
  let dropped := (input.takeWhile Char.isDigit).length
  match input.dropWhile Char.isDigit with
  | '.' :: rest => readFraction negative significand dropped rest
  | rest => readScale negative significand dropped rest

def readNumber (negative : Bool) (input : Input) : Except Fault (Numeric × Input) :=
  match input with
  | [] => .error .cutShort
  | '0' :: rest =>
      match rest with
      | c :: _ => if c.isDigit then .error .malformed else readNumberTail negative 0 rest
      | [] => readNumberTail negative 0 rest
  | c :: rest =>
      if !c.isDigit then .error .malformed
      else
        match collect (c.toNat - '0'.toNat) 1 rest with
        | (n, _, d :: after) =>
            if d.isDigit then readLongTail negative n (d :: after)
            else readNumberTail negative n (d :: after)
        | (n, _, []) => readNumberTail negative n []

end Lindenmayer.Json
