import Lindenmayer.Json.Skip
import Lindenmayer.Json.Value

/-!
# Reading by shape

A `Shape` says what a document is to hold. Reading by a shape gives the value in
one canonical form, however it was laid out: a record may be written as an object
with its members in any order and unknown ones among them, or as an array of all
its fields; read, it is an object with exactly its fields in their own order.

The text is read from front to back and the first fault counts. A value of the
wrong kind is noticed when it starts, or when it ends if it is a leaf; a field
given twice at its second key; a missing field at the closing brace. Only an
optional field may be missing, and then only from an object.
-/

namespace Lindenmayer

inductive Json.Shape where
  | float
  /-- A whole number up to `limit`. -/
  | natural (limit : Nat)
  | bool
  | char
  | string
  /-- Either `null` or a value. -/
  | optional (shape : Json.Shape)
  | list (shape : Json.Shape)
  | record (fields : List (String × Json.Shape))
deriving Repr, Inhabited

namespace Json

/-- The fault of a value that is not of the wanted kind. A leaf has to be well
formed for that; a bracket is enough of an array or an object. -/
def refuse (input : Input) : Fault :=
  let judged : Except Fault Unit :=
    match input with
    | 'n' :: rest => (fun _ => ()) <$> readWord ['u', 'l', 'l'] rest
    | 't' :: rest => (fun _ => ()) <$> readWord ['r', 'u', 'e'] rest
    | 'f' :: rest => (fun _ => ()) <$> readWord ['a', 'l', 's', 'e'] rest
    | '-' :: rest => (fun _ => ()) <$> readNumber true rest
    | '"' :: rest => (fun _ => ()) <$> readString rest
    | '[' :: _ => .ok ()
    | '{' :: _ => .ok ()
    | c :: rest =>
        if c.isDigit then (fun _ => ()) <$> readNumber false (c :: rest) else .error .malformed
    | [] => .error .cutShort
  match judged with
  | .ok () => .mismatched
  | .error fault => fault

def readNumeric (input : Input) : Except Fault (Numeric × Input) :=
  match skipBlank input with
  | '-' :: rest => readNumber true rest
  | c :: rest =>
      if c.isDigit then readNumber false (c :: rest) else .error (refuse (c :: rest))
  | [] => .error .cutShort

def readFloat : Reader Json := fun input => do
  let (n, rest) ← readNumeric input
  match n with
  | .natural n => return (.number n.toUInt64.toFloat, rest)
  | .negative n => return (.number (-n.toUInt64.toFloat), rest)
  | .float x => return (.number x, rest)

def readNatural (limit : Nat) : Reader Json := fun input => do
  let (n, rest) ← readNumeric input
  match n with
  | .natural n => if n ≤ limit then return (.natural n, rest) else throw .mismatched
  | _ => throw .mismatched

def readBool : Reader Json := fun input =>
  match skipBlank input with
  | 't' :: rest => do return (.bool true, ← readWord ['r', 'u', 'e'] rest)
  | 'f' :: rest => do return (.bool false, ← readWord ['a', 'l', 's', 'e'] rest)
  | rest => .error (refuse rest)

def readText : Reader Json := fun input =>
  match skipBlank input with
  | '"' :: rest => do
      let (s, rest) ← readString rest
      return (.string s, rest)
  | rest => .error (refuse rest)

def readOneChar : Reader Json := fun input => do
  let (value, rest) ← readText input
  match value with
  | .string s => if s.length = 1 then return (value, rest) else throw .mismatched
  | _ => throw .mismatched

def readOptional (read : Reader Json) : Reader Json := fun input =>
  match skipBlank input with
  | 'n' :: rest => do return (.null, ← readWord ['u', 'l', 'l'] rest)
  | rest => read rest

/-- Moves to the next element of an array, if there is one. -/
def nextElement (first : Bool) (input : Input) : Except Fault (Bool × Input) :=
  match skipBlank input with
  | [] => .error .cutShort
  | ']' :: rest => .ok (false, ']' :: rest)
  | c :: rest =>
      if first then .ok (true, c :: rest)
      else if c = ',' then
        match skipBlank rest with
        | [] => .error .cutShort
        | ']' :: _ => .error .malformed
        | rest => .ok (true, rest)
      else .error .malformed

def closeArray (input : Input) : Except Fault Input :=
  match skipBlank input with
  | ']' :: rest => .ok rest
  | _ :: _ => .error .malformed
  | [] => .error .cutShort

/-- Reads elements up to the end of an array. -/
def readElements (read : Reader Json) : (fuel : Input) → (first : Bool) → Reader (List Json)
  | [], _, _ => .error .cutShort
  | _ :: fuel, first, input => do
      let (more, rest) ← nextElement first input
      if more then
        let (e, rest) ← read rest
        let (es, rest) ← readElements read fuel false rest
        return (e :: es, rest)
      else return ([], rest)

def readList (read : Reader Json) : Reader Json := fun input =>
  match skipBlank input with
  | '[' :: rest => do
      let (es, rest) ← readElements read rest true rest
      return (.array es, ← closeArray rest)
  | rest => .error (refuse rest)

def readKey (input : Input) : Except Fault (Option String × Input) :=
  match input with
  | '"' :: rest => do
      let (s, rest) ← readString rest
      return (some s, rest)
  | _ => .error .malformed

/-- Moves to the key of the next member of an object and reads it, if there is one. -/
def nextKey (first : Bool) (input : Input) : Except Fault (Option String × Input) :=
  match skipBlank input with
  | [] => .error .cutShort
  | '}' :: rest => .ok (none, rest)
  | c :: rest =>
      if first then readKey (c :: rest)
      else if c = ',' then
        match skipBlank rest with
        | [] => .error .cutShort
        | rest => readKey rest
      else .error .malformed

def readColon (input : Input) : Except Fault Input :=
  match skipBlank input with
  | ':' :: rest => .ok rest
  | _ :: _ => .error .malformed
  | [] => .error .cutShort

/-- Reads the members of an object up to its closing brace. The reader of a member
is found by its key; a member without one is skipped. `found` has the members
read so far. -/
def readMembers (reader? : String → Option (Reader Json)) :
    (fuel : Input) → (first : Bool) → (found : List (String × Json)) →
    Reader (List (String × Json))
  | [], _, _, _ => .error .cutShort
  | _ :: fuel, first, found, input => do
      match ← nextKey first input with
      | (none, rest) => return (found, rest)
      | (some key, rest) =>
          match reader? key with
          | some read =>
              if (found.lookup key).isSome then throw .mismatched
              let (value, rest) ← read (← readColon rest)
              readMembers reader? fuel false ((key, value) :: found) rest
          | none =>
              let rest ← skipValue (← readColon rest)
              readMembers reader? fuel false found rest

/-- Whether a field may be missing from an object. -/
def Shape.mayBeMissing : Shape → Bool
  | optional _ => true
  | _ => false

/-- The fields of a record in their own order, picked from the members of an object. -/
def arrange (found : List (String × Json)) :
    List (String × Shape) → Except Fault (List (String × Json))
  | [] => .ok []
  | (name, shape) :: fields =>
      match found.lookup name with
      | some value => do return (name, value) :: (← arrange found fields)
      | none =>
          if shape.mayBeMissing then do return (name, .null) :: (← arrange found fields)
          else .error .mismatched

mutual

def Shape.read (shape : Shape) : Reader Json :=
  match shape with
  | .float => readFloat
  | .natural limit => readNatural limit
  | .bool => readBool
  | .char => readOneChar
  | .string => readText
  | .optional shape => readOptional shape.read
  | .list shape => readList shape.read
  | .record fields => fun input =>
      match skipBlank input with
      | '[' :: rest => do
          let (members, rest) ← readFields fields true rest
          return (.object members, ← closeArray rest)
      | '{' :: rest => do
          let (found, rest) ← readMembers (fieldReader? fields) rest true [] rest
          return (.object (← arrange found fields), rest)
      | rest => .error (refuse rest)

/-- Reads the fields of a record that is written as an array. -/
def readFields (fields : List (String × Shape)) (first : Bool) : Reader (List (String × Json)) :=
  match fields with
  | [] => fun input => .ok ([], input)
  | (name, shape) :: fields => fun input => do
      let (more, rest) ← nextElement first input
      if more then
        let (value, rest) ← shape.read rest
        let (members, rest) ← readFields fields false rest
        return ((name, value) :: members, rest)
      else throw .mismatched

/-- How to read the field of the given name. -/
def fieldReader? (fields : List (String × Shape)) (name : String) : Option (Reader Json) :=
  match fields with
  | [] => none
  | (field, shape) :: fields => if field = name then some shape.read else fieldReader? fields name

end

/-- Reads a whole document of the given shape. -/
def Shape.decode (shape : Shape) (text : String) : Except Fault Json := do
  let (value, rest) ← shape.read text.toList
  if (skipBlank rest).isEmpty then return value else throw .malformed

end Json

end Lindenmayer
