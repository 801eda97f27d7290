import Lindenmayer.Json.Shape
import Lindenmayer.Simulator

/-!
# The types of the library as JSON

Each type has an encoding, a shape and a way back from a value of that shape.
Records are objects with their fields in the order of declaration, choices are
the name of the choice or an object with that name for its only key, and sets
are an object around their bits.
-/

namespace Lindenmayer.Json

/-- How a type is written and read. `decode?` succeeds on every value that was
read by `shape`. -/
class Codec (α : Type) where
  encode : α → Json
  shape : Shape
  decode? : Json → Option α

export Codec (encode)

/-- Reads a document that holds a value of the type. -/
def decode (α : Type) [Codec α] (text : String) : Except Fault α := do
  match Codec.decode? (← (Codec.shape α).decode text) with
  | some a => return a
  | none => throw .mismatched

instance : Codec Float where
  encode := .number
  shape := .float
  decode?
    | .number x => some x
    | _ => none

instance : Codec Bool where
  encode := .bool
  shape := .bool
  decode?
    | .bool b => some b
    | _ => none

instance : Codec Char where
  encode c := .string (.singleton c)
  shape := .char
  decode?
    | .string s => s.toList.head?
    | _ => none

instance : Codec String where
  encode := .string
  shape := .string
  decode?
    | .string s => some s
    | _ => none

instance : Codec UInt8 where
  encode n := .natural n.toNat
  shape := .natural (UInt8.size - 1)
  decode?
    | .natural n => some (.ofNat n)
    | _ => none

instance : Codec UInt32 where
  encode n := .natural n.toNat
  shape := .natural (UInt32.size - 1)
  decode?
    | .natural n => some (.ofNat n)
    | _ => none

instance : Codec UInt64 where
  encode n := .natural n.toNat
  shape := .natural (UInt64.size - 1)
  decode?
    | .natural n => some (.ofNat n)
    | _ => none

instance {α : Type} [Codec α] : Codec (Option α) where
  encode
    | some a => encode a
    | none => .null
  shape := .optional (Codec.shape α)
  decode?
    | .null => some none
    | value => (Codec.decode? value).map some

instance {α : Type} [Codec α] : Codec (List α) where
  encode as := .array (as.map encode)
  shape := .list (Codec.shape α)
  decode?
    | .array es => es.mapM Codec.decode?
    | _ => none

instance : Codec Color where
  encode c := .object
    [("r", encode c.red), ("g", encode c.green), ("b", encode c.blue), ("a", encode c.alpha)]
  shape := .record
    [("r", Codec.shape UInt8), ("g", Codec.shape UInt8), ("b", Codec.shape UInt8),
      ("a", Codec.shape UInt8)]
  decode?
    | .object [(_, r), (_, g), (_, b), (_, a)] => do
        return ⟨← Codec.decode? r, ← Codec.decode? g, ← Codec.decode? b, ← Codec.decode? a⟩
    | _ => none

instance : Codec Point where
  encode p := .object [("x", encode p.x), ("y", encode p.y)]
  shape := .record [("x", Codec.shape Float), ("y", Codec.shape Float)]
  decode?
    | .object [(_, x), (_, y)] => do return ⟨← Codec.decode? x, ← Codec.decode? y⟩
    | _ => none

instance : Codec Line where
  encode l := .object [("from", encode l.start), ("to", encode l.stop)]
  shape := .record [("from", Codec.shape Point), ("to", Codec.shape Point)]
  decode?
    | .object [(_, a), (_, b)] => do return ⟨← Codec.decode? a, ← Codec.decode? b⟩
    | _ => none

instance : Codec Rect where
  encode r := .object [("origin", encode r.origin), ("lower_right", encode r.lowerRight)]
  shape := .record [("origin", Codec.shape Point), ("lower_right", Codec.shape Point)]
  decode?
    | .object [(_, a), (_, b)] => do return ⟨← Codec.decode? a, ← Codec.decode? b⟩
    | _ => none

instance : Codec Rotation where
  encode r := .object [("cos", encode r.cos), ("sin", encode r.sin)]
  shape := .record [("cos", Codec.shape Float), ("sin", Codec.shape Float)]
  decode?
    | .object [(_, c), (_, s)] => do return ⟨← Codec.decode? c, ← Codec.decode? s⟩
    | _ => none

instance : Codec Effects where
  encode f := .object [("bits", encode f.bits)]
  shape := .record [("bits", Codec.shape UInt8)]
  decode?
    | .object [(_, bits)] => do return ⟨← Codec.decode? bits⟩
    | _ => none

instance : Codec Definition where
  encode d := .object
    [("literal", encode d.literal), ("actions", encode d.actions), ("color", encode d.color),
      ("flags", encode d.effects)]
  shape := .record
    [("literal", Codec.shape Char), ("actions", Codec.shape String), ("color", Codec.shape Color),
      ("flags", Codec.shape Effects)]
  decode?
    | .object [(_, literal), (_, actions), (_, color), (_, effects)] => do
        return ⟨← Codec.decode? literal, ← Codec.decode? actions, ← Codec.decode? color,
          ← Codec.decode? effects⟩
    | _ => none

instance : Codec Config where
  encode c := .object
    [("definitions", encode c.definitions), ("turn_left", encode c.turnLeft),
      ("turn_right", encode c.turnRight), ("scaling", encode c.scaling),
      ("start_angle", encode c.startAngle), ("step_size", encode c.stepSize),
      ("num_iter", encode c.iterations), ("stack_size", encode c.stackSize)]
  shape := .record
    [("definitions", Codec.shape (List Definition)), ("turn_left", Codec.shape Float),
      ("turn_right", Codec.shape Float), ("scaling", Codec.shape Float),
      ("start_angle", Codec.shape Float), ("step_size", Codec.shape Float),
      ("num_iter", Codec.shape UInt32), ("stack_size", Codec.shape (Option UInt64))]
  decode?
    | .object [(_, definitions), (_, turnLeft), (_, turnRight), (_, scaling), (_, startAngle),
        (_, stepSize), (_, iterations), (_, stackSize)] => do
        return {
          definitions := ← Codec.decode? definitions
          turnLeft := ← Codec.decode? turnLeft
          turnRight := ← Codec.decode? turnRight
          scaling := ← Codec.decode? scaling
          startAngle := ← Codec.decode? startAngle
          stepSize := ← Codec.decode? stepSize
          iterations := ← Codec.decode? iterations
          stackSize := ← Codec.decode? stackSize }
    | _ => none

instance : Codec Simulator.Settings where
  encode s := .object
    [("max_stack_size", encode s.bound),
      ("previous_generation", encode s.previousGeneration)]
  shape := .record
    [("max_stack_size", Codec.shape UInt64), ("previous_generation", Codec.shape Bool)]
  decode?
    | .object [(_, size), (_, previous)] => do
        return ⟨← Codec.decode? size, ← Codec.decode? previous⟩
    | _ => none

/-! ### Results, which are only written -/

/-- A choice that carries something. -/
def tagged (name : String) (value : Json) : Json := .object [(name, value)]

def ofConfigError : ConfigError → Json
  | .noLiterals => .string "NoLiterals"
  | .invalidLiteral c => tagged "InvalidLiteral" (encode c)
  | .duplicateLiteral c => tagged "DuplicateLiteral" (encode c)
  | .unexpectedLiteral symbol c =>
      tagged "UnexpectedLiteral" (.object [("symbol", encode symbol), ("literal", encode c)])
  | .bracketsMismatch c => tagged "BracketsMismatch" (.object [("literal", encode c)])

def ofOutcome : Outcome → Json
  | .ok => .string "Ok"
  | .invalidConfig error => tagged "InvalidConfig" (ofConfigError error)
  | .boundExceeded => .string "ExceedStackSize"

def ofSegment (s : Segment) : Json :=
  .object [("line", encode s.line), ("color_num", encode s.colorNumber)]

def ofSegments (segments : Array Segment) : Json :=
  .array (segments.toList.map ofSegment)

def ofResult (r : Result) : Json :=
  .object
    [("kind", ofOutcome r.outcome), ("segments", ofSegments r.segments),
      ("previous_segments", (r.previousSegments.map ofSegments).getD .null),
      ("iterations", .natural r.iterations), ("colors", encode r.colors.toList),
      ("bounds", encode r.bounds), ("flags", .object [("bits", encode r.anomalies.bits)])]

end Lindenmayer.Json
