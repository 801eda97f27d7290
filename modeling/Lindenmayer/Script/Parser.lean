import Lindenmayer.Config
import Lindenmayer.Number.Numeral
import Lindenmayer.Script.SyntaxError

/-!
# Reading the text format

A text has settings first and definitions after them:

    turn_left 90
    iterations 2
    A = "A+A" #ff0000 paint move

There is no nesting, so all that has to be remembered between two tokens is a
`Place` in the grammar together with the setting or the definition that is being
read. The place decides which terminals can come next and whether the text may
end; that is also what an error message lists.

A number is looked at only when the token after it has been accepted. An
unacceptable token after a number that is too large is therefore reported
instead of the number.

A text is read as a whole configuration, as a single setting or as a single
definition.
-/

namespace Lindenmayer.Script

/-- What a text is read as. -/
inductive Entry where
  | config
  | setting
  | definition
deriving DecidableEq, Repr

/-- The word that starts a setting. -/
inductive Key where
  | turnLeft
  | turnRight
  | scaling
  | startAngle
  | step
  | iterations
  | stackSize
deriving DecidableEq, Repr

namespace Key

def ofTerminal? : Terminal → Option Key
  | .turnLeft => some turnLeft
  | .turnRight => some turnRight
  | .scaling => some scaling
  | .startAngle => some startAngle
  | .step => some step
  | .iterations => some iterations
  | .stackSize => some stackSize
  | _ => none

/-- Whether the value is a whole number. -/
def isWhole : Key → Bool
  | iterations | stackSize => true
  | _ => false

/-- Whether a terminal is a value for the key. -/
def admits (key : Key) : Terminal → Bool
  | .digits => true
  | .negative | .decimal => !key.isWhole
  | _ => false

/-- The setting that a key makes with a numeral. -/
def setting (key : Key) (numeral : List Char) : Except SyntaxError Setting :=
  let value := Number.numeralValue numeral
  let whole := Number.digitsValue numeral
  match key with
  | turnLeft => .ok (.turnLeft value)
  | turnRight => .ok (.turnRight value)
  | scaling => .ok (.scaling value)
  | startAngle => .ok (.startAngle value)
  | step => .ok (.stepSize value)
  | iterations => if whole < UInt32.size then .ok (.iterations (.ofNat whole)) else .error .outOfRange
  | stackSize => if whole < UInt64.size then .ok (.stackSize (.ofNat whole)) else .error .outOfRange

end Key

def flag? : Terminal → Option Effects
  | .paint => some .paint
  | .move => some .move
  | _ => none

/-- A place in the grammar, with what has been read of the item there. -/
inductive Place where
  /-- Before the first item. -/
  | opening
  /-- After the word of a setting. -/
  | key (key : Key)
  /-- After the number of a setting. -/
  | value (key : Key) (numeral : List Char)
  /-- After the letter of a definition. -/
  | literal (literal : Char)
  /-- After the equals sign of a definition. -/
  | assigned (literal : Char)
  /-- After the actions of a definition. -/
  | actions (d : Definition)
  /-- After the color or a flag of a definition. -/
  | flags (d : Definition)
deriving DecidableEq, Repr

namespace Place

/-- Whether a terminal starts an item that can come first. -/
def opens (entry : Entry) (t : Terminal) : Bool :=
  match entry with
  | .config => (Key.ofTerminal? t).isSome || t = .letter
  | .setting => (Key.ofTerminal? t).isSome
  | .definition => t = .letter

/-- Whether a terminal starts another item after a definition. -/
def follows (entry : Entry) (t : Terminal) : Bool :=
  entry = .config && t = .letter

def accepts (entry : Entry) (place : Place) (t : Terminal) : Bool :=
  match place with
  | opening => opens entry t
  | key k => k.admits t
  | value .. => entry = .config && opens entry t
  | literal _ => t = .equals
  | assigned _ => t = .quoted
  | actions _ => t = .color || (flag? t).isSome || follows entry t
  | flags _ => (flag? t).isSome || follows entry t

/-- The terminals that can come next, in the order of messages. -/
def expected (entry : Entry) (place : Place) : List Terminal :=
  Terminal.all.filter (place.accepts entry)

def mayEnd (entry : Entry) (place : Place) : Bool :=
  match place with
  | value .. => entry = .setting
  | actions _ | flags _ => true
  | _ => false

end Place

/-- What has been read: the finished items, and the place of the current one. -/
structure Progress where
  settings : List Setting := []
  definitions : List Definition := []
  place : Place := .opening
deriving DecidableEq, Repr

namespace Progress

/-- Finishes the current item. This is when the number of a setting is looked at. -/
def settle (p : Progress) : Except SyntaxError Progress :=
  match p.place with
  | .value key numeral => do
      return { p with settings := p.settings ++ [← key.setting numeral], place := .opening }
  | .actions d | .flags d =>
      .ok { p with definitions := p.definitions ++ [d], place := .opening }
  | _ => .ok p

/-- Starts an item with its first token. -/
def begin (p : Progress) (token : Token) : Progress :=
  match Key.ofTerminal? token.terminal with
  | some key => { p with place := .key key }
  | none => { p with place := .literal (token.text.headD 'A') }

/-- Adds an accepted token to the current item, or starts another item with it. -/
def advance (p : Progress) (token : Token) : Except SyntaxError Progress :=
  match p.place with
  | .opening => .ok (p.begin token)
  | .key k => .ok { p with place := .value k token.text }
  | .literal c => .ok { p with place := .assigned c }
  | .assigned c =>
      let actions := String.ofList (token.text.drop 1).dropLast
      .ok { p with place := .actions ⟨c, actions, .black, .none⟩ }
  | .value .. => do return (← p.settle).begin token
  | .actions d | .flags d =>
      match flag? token.terminal with
      | some flag => .ok { p with place := .flags { d with effects := d.effects.union flag } }
      | none =>
          if token.terminal = .color then
            let color := (Color.ofHex? (.ofList token.text)).getD .black
            .ok { p with place := .flags { d with color } }
          else do return (← p.settle).begin token

def take (entry : Entry) (p : Progress) (token : Token) : Except SyntaxError Progress :=
  if p.place.accepts entry token.terminal then p.advance token
  else .error (.unrecognizedToken token (p.place.expected entry))

/-- Ends the text, whose last token ends at `position`. -/
def finish (entry : Entry) (p : Progress) (position : Nat) : Except SyntaxError Progress :=
  if p.place.mayEnd entry then p.settle
  else .error (.unrecognizedEnd position (p.place.expected entry))

end Progress

def endOf (tokens : List Token) : Nat :=
  match tokens.getLast? with
  | some token => token.stop
  | none => 0

/-- Reads a list of tokens that ends as given. -/
def readTokens (entry : Entry) (tokens : List Token) (ending : Ending) :
    Except SyntaxError Progress := do
  let p ← tokens.foldlM (Progress.take entry) {}
  match ending with
  | .invalid position => throw (.invalidToken position)
  | .complete => p.finish entry (endOf tokens)

def read (entry : Entry) (text : String) : Except SyntaxError Progress :=
  let (tokens, ending) := tokenize text
  readTokens entry tokens ending

def parse (text : String) : Except SyntaxError Config := do
  let p ← read .config text
  return .ofParts p.settings p.definitions

/-- What is missing from a text without an item. -/
def missing (entry : Entry) : SyntaxError := .unrecognizedEnd 0 (Place.opening.expected entry)

def parseSetting (text : String) : Except SyntaxError Setting := do
  let p ← read .setting text
  match p.settings with
  | setting :: _ => return setting
  | [] => throw (missing .setting)

def parseDefinition (text : String) : Except SyntaxError Definition := do
  let p ← read .definition text
  match p.definitions with
  | d :: _ => return d
  | [] => throw (missing .definition)

end Lindenmayer.Script
