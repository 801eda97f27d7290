import Lindenmayer.Config
import Lindenmayer.Geometry.Rotation

/-!
# Compiled alphabets

Compiled, an L-system is an array of actions: the four operators first and then
one literal for each definition. A symbol is named by its place in that array,
and the successor of a literal is a word of such names, so letters may be used
before they are defined. The turns, the scale factor and the colors are resolved
once, here, instead of at every step of the turtle.
-/

namespace Lindenmayer

/-- The place of a symbol's action in its alphabet. -/
abbrev SymbolId := Nat

/-- A generation, or a part of one. -/
abbrev Word := Array SymbolId

/-- What a symbol means: how it is written, what replaces it and what the turtle
does about it. -/
inductive Action where
  | turn (symbol : Char) (rotation : Rotation)
  /-- Opens a branch, whose steps are scaled. -/
  | push (factor : Float)
  /-- Closes a branch: the turtle is back where it opened. -/
  | pop
  | literal (symbol : Char) (colorNumber : UInt8) (effects : Effects) (successor : Word)
deriving DecidableEq, Repr, Inhabited

namespace Action

def symbol : Action → Char
  | turn symbol _ => symbol
  | push _ => '['
  | pop => ']'
  | literal symbol .. => symbol

end Action

structure Alphabet where
  actions : Array Action
  start : SymbolId
  /-- The colors of the literals, each once, in the order of their first use. -/
  colors : Array Color
deriving DecidableEq, Repr, Inhabited

namespace Alphabet

/-- The next generation of one symbol. Only literals change. -/
@[inline] def successor (a : Alphabet) (id : SymbolId) : Word :=
  match a.actions[id]? with
  | some (.literal _ _ _ successor) => successor
  | _ => #[id]

def spell (a : Alphabet) (word : Word) : String :=
  word.foldl (fun text id =>
    match a.actions[id]? with
    | some action => text.push action.symbol
    | none => text) ""

/-- The symbol written with the given character. -/
def find? (a : Alphabet) (symbol : Char) : Option SymbolId :=
  a.actions.findIdx? (·.symbol == symbol)

end Alphabet

inductive ConfigError where
  | noLiterals
  | invalidLiteral (literal : Char)
  | duplicateLiteral (literal : Char)
  | unexpectedLiteral (symbol literal : Char)
  | bracketsMismatch (literal : Char)
deriving DecidableEq, Repr

def ConfigError.message : ConfigError → String
  | noLiterals => "no literals given"
  | invalidLiteral c => s!"'{c}' is not a valid literal"
  | duplicateLiteral c => s!"literal '{c}' is defined more than once"
  | unexpectedLiteral symbol c =>
      s!"unexpected literal '{symbol}' in actions for literal '{c}'"
  | bracketsMismatch _ => "brackets do not match"

namespace Config

/-- The operators come first in every alphabet, in this order. -/
def operators (config : Config) : List Action :=
  [.turn '+' (.ofDegrees config.turnLeft), .turn '-' (.ofDegrees config.turnRight),
    .push config.scaling, .pop]

/-- The first fault among the letters being defined, where `seen` are the letters
before them. -/
def checkLiterals (seen : List Char) : List Definition → Except ConfigError Unit
  | [] => .ok ()
  | d :: ds =>
      if !d.literal.isUpper then .error (.invalidLiteral d.literal)
      else if seen.contains d.literal then .error (.duplicateLiteral d.literal)
      else checkLiterals (d.literal :: seen) ds

/-- Adds a color to a table that does not have it yet. -/
def addColor (colors : Array Color) (color : Color) : Array Color :=
  if colors.contains color then colors else colors.push color

/-- The colors of the definitions, each once, in the order of their first use. -/
def palette (definitions : List Definition) : Array Color :=
  definitions.foldl (fun colors d => addColor colors d.color) #[]

/-- The place of a color in a table that has it. -/
def colorNumber (colors : Array Color) (color : Color) : UInt8 :=
  (colors.idxOf color).toUInt8

/-- The name of a symbol in the alphabet of the given definitions. -/
def resolve (definitions : List Definition) (symbol : Char) : Option SymbolId :=
  match symbol with
  | '+' => some 0
  | '-' => some 1
  | '[' => some 2
  | ']' => some 3
  | c => if c.isUpper then (definitions.findIdx? (·.literal == c)).map (· + 4) else none

/-- How many more brackets are opened than closed. -/
def depth (symbols : List Char) : Int :=
  symbols.foldl (fun d c => if c = '[' then d + 1 else if c = ']' then d - 1 else d) 0

/-- The successor of one definition, by name. An unknown symbol is reported before
brackets that do not match. -/
def successorOf (definitions : List Definition) (d : Definition) : Except ConfigError Word := do
  let symbols := d.actions.toList
  let ids ← symbols.mapM fun c =>
    match resolve definitions c with
    | some id => .ok id
    | none => .error (.unexpectedLiteral c d.literal)
  if depth symbols = 0 then return ids.toArray else throw (.bracketsMismatch d.literal)

def literalOf (colors : Array Color) (d : Definition) (successor : Word) : Action :=
  .literal d.literal (colorNumber colors d.color) d.effects successor

/-- Compiles a configuration. All letters are checked before any successor is. -/
def compile (config : Config) : Except ConfigError Alphabet := do
  let definitions := config.definitions
  if definitions.isEmpty then throw .noLiterals
  checkLiterals [] definitions
  let successors ← definitions.mapM (successorOf definitions)
  let colors := palette definitions
  let literals := definitions.zipWith (literalOf colors) successors
  return { actions := (config.operators ++ literals).toArray, start := 4, colors }

end Config

end Lindenmayer
