import Lindenmayer.Script.Token

/-!
# Errors of the text format
-/

namespace Lindenmayer.Script

inductive SyntaxError where
  /-- No terminal matches at this place. -/
  | invalidToken (position : Nat)
  /-- A token that cannot come here, and the terminals that could. -/
  | unrecognizedToken (token : Token) (expected : List Terminal)
  /-- The text ends too early; the terminals that could come next. -/
  | unrecognizedEnd (position : Nat) (expected : List Terminal)
  /-- A whole number that its setting has no room for. -/
  | outOfRange
deriving DecidableEq, Repr

/-- The line that lists what could have come, if anything could. -/
def expectedText (expected : List Terminal) : String :=
  match expected.map Terminal.display with
  | [] => ""
  | first :: rest =>
      match rest.reverse with
      | [] => "\nExpected one of " ++ first
      | last :: middle =>
          "\nExpected one of " ++ ", ".intercalate (first :: middle.reverse) ++ " or " ++ last

def SyntaxError.message : SyntaxError → String
  | invalidToken position => s!"Invalid token at {position}"
  | unrecognizedToken token expected =>
      "Unrecognized token \x60" ++ .ofList token.text
        ++ s!"\x60 found at {token.start}:{token.stop}" ++ expectedText expected
  | unrecognizedEnd position expected =>
      s!"Unrecognized EOF found at {position}" ++ expectedText expected
  | outOfRange => "integer is out of range"

end Lindenmayer.Script
