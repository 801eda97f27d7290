import Lindenmayer.Number.Layout
import Lindenmayer.Text

/-!
# JSON documents

A value is written in two forms. The compact form has no white space; the pretty
form puts every element and every member on a line of its own, two spaces deeper
than the bracket around it. Both are read off one list of pieces, in which the
places for white space are marked, so they can only differ there.

A number without a JSON spelling, an infinity or a NaN, is written `null`.
-/

namespace Lindenmayer

inductive Json where
  | null
  | bool (b : Bool)
  | natural (n : Nat)
  | number (x : Float)
  | string (s : String)
  | array (elements : List Json)
  | object (members : List (String × Json))
deriving Repr, Inhabited

namespace Json

/-- Numbers are positional from `1e-5` up to, but not including, `1e16`, and show
that they are not integers. -/
def numberLayout : Number.Layout where
  tie := .toEven
  wholeSuffix := ".0"
  positional leading := -5 ≤ leading && leading < 16
  nan := "null"
  infinity := "null"
  negativeInfinity := "null"

/-- A character inside a string. -/
def escape (c : Char) : List Char :=
  match c with
  | '"' => ['\\', '"']
  | '\\' => ['\\', '\\']
  | '\x08' => ['\\', 'b']
  | '\x0c' => ['\\', 'f']
  | '\n' => ['\\', 'n']
  | '\r' => ['\\', 'r']
  | '\t' => ['\\', 't']
  | c =>
      if c.toNat < 0x20 then 
        ['\\', 'u', '0', '0', Text.hexDigit (c.toNat / 16), Text.hexDigit c.toNat]
      else [c]

def quote (s : String) : String :=
  .ofList ('"' :: s.toList.flatMap escape ++ ['"'])

/-- A part of a written document. -/
inductive Piece where
  | text (s : String)
  /-- A place for a line break, at the given depth. -/
  | line (depth : Nat)
  /-- A place for a space. -/
  | space
deriving DecidableEq, Repr

mutual

/-- The pieces of a value at the given depth, followed by `rest`. -/
def pieces (depth : Nat) (value : Json) (rest : List Piece) : List Piece :=
  match value with
  | null => .text "null" :: rest
  | bool b => .text (if b then "true" else "false") :: rest
  | natural n => .text n.repr :: rest
  | number x => .text (numberLayout.text x) :: rest
  | string s => .text (quote s) :: rest
  | array [] => .text "[]" :: rest
  | array (e :: es) =>
      .text "[" :: .line (depth + 1) :: pieces (depth + 1) e
        (elementPieces (depth + 1) es (.line depth :: .text "]" :: rest))
  | object [] => .text "\x7b\x7d" :: rest
  | object ((key, v) :: ms) =>
      .text "\x7b" :: .line (depth + 1) :: .text (quote key) :: .text ":" :: .space ::
        pieces (depth + 1) v
          (memberPieces (depth + 1) ms (.line depth :: .text "\x7d" :: rest))

/-- The pieces of the elements after the first. -/
def elementPieces (depth : Nat) (elements : List Json) (rest : List Piece) : List Piece :=
  match elements with
  | [] => rest
  | e :: es => .text "," :: .line depth :: pieces depth e (elementPieces depth es rest)

/-- The pieces of the members after the first. -/
def memberPieces (depth : Nat) (members : List (String × Json)) (rest : List Piece) :
    List Piece :=
  match members with
  | [] => rest
  | (key, v) :: ms =>
      .text "," :: .line depth :: .text (quote key) :: .text ":" :: .space ::
        pieces depth v (memberPieces depth ms rest)

end

namespace Piece

/-- A piece in the compact form. -/
def compact : Piece → String
  | text s => s
  | line _ => ""
  | space => ""

/-- A piece in the pretty form. -/
def pretty : Piece → String
  | text s => s
  | line depth => .ofList ('\n' :: List.replicate (2 * depth) ' ')
  | space => " "

end Piece

/-- A document in the form that writes each piece as `form` says. -/
def render (form : Piece → String) (value : Json) : String :=
  (value.pieces 0 []).foldl (fun text piece => text ++ form piece) ""

def compact (value : Json) : String := value.render Piece.compact

def pretty (value : Json) : String := value.render Piece.pretty

end Json

end Lindenmayer
