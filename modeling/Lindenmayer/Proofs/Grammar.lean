import Lindenmayer.Proofs.Lexing
import Lindenmayer.Script.Parser
import Mathlib.Algebra.Group.Nat.Defs

/-!
# The grammar of the text format

    Config     = Setting* Definition+
    Setting    = key Number
    Definition = letter "=" quoted color? Flag*
    Flag       = "paint" | "move"

A number is digits; for keys that take any double it may also be negative or have a
point. Each rule says which lists of tokens it derives and what they mean. A number
keeps its text: how large it may be is not a matter of the grammar, and neither is
how it is read.

Nothing here is about the parser.
-/

namespace Lindenmayer.Script

/-- Repetition of a rule. -/
inductive Star {α : Type} (R : List Lexeme → α → Prop) : List Lexeme → List α → Prop
  | nil : Star R [] []
  | cons {ts us : List Lexeme} {x : α} {xs : List α} (hx : R ts x) (hxs : Star R us xs) :
      Star R (ts ++ us) (x :: xs)

/-- A rule that may be left out. -/
inductive Optional {α : Type} (R : List Lexeme → α → Prop) : List Lexeme → Option α → Prop
  | none : Optional R [] none
  | some {ts : List Lexeme} {x : α} (hx : R ts x) : Optional R ts (some x)

/-- The word of a key. -/
def Key.terminal : Key → Terminal
  | turnLeft => .turnLeft
  | turnRight => .turnRight
  | scaling => .scaling
  | startAngle => .startAngle
  | step => .step
  | iterations => .iterations
  | stackSize => .stackSize

/-- A setting as it is written. -/
structure Assignment where
  key : Key
  numeral : List Char
deriving DecidableEq, Repr

namespace Assignment

/-- Counts have 32 bits, sizes have 64. -/
def InRange (a : Assignment) : Prop :=
  match a.key with
  | .iterations => Number.digitsValue a.numeral ≤ 2 ^ 32 - 1
  | .stackSize => Number.digitsValue a.numeral ≤ 2 ^ 64 - 1
  | _ => True

/-- The setting that is meant. -/
def setting (a : Assignment) : Setting :=
  match a.key with
  | .turnLeft => .turnLeft (Number.numeralValue a.numeral)
  | .turnRight => .turnRight (Number.numeralValue a.numeral)
  | .scaling => .scaling (Number.numeralValue a.numeral)
  | .startAngle => .startAngle (Number.numeralValue a.numeral)
  | .step => .stepSize (Number.numeralValue a.numeral)
  | .iterations => .iterations (.ofNat (Number.digitsValue a.numeral))
  | .stackSize => .stackSize (.ofNat (Number.digitsValue a.numeral))

end Assignment

inductive NumberRule (key : Key) : List Lexeme → List Char → Prop
  | digits (numeral : List Char) : NumberRule key [⟨.digits, numeral⟩] numeral
  | negative (numeral : List Char) (h : key.isWhole = false) :
      NumberRule key [⟨.negative, numeral⟩] numeral
  | decimal (numeral : List Char) (h : key.isWhole = false) :
      NumberRule key [⟨.decimal, numeral⟩] numeral

inductive SettingRule : List Lexeme → Assignment → Prop
  | intro {key : Key} {word numeral : List Char} {ts : List Lexeme}
      (h : NumberRule key ts numeral) : SettingRule (⟨key.terminal, word⟩ :: ts) ⟨key, numeral⟩

/-- Colors are opaque. -/
inductive ColorRule : List Lexeme → Color → Prop
  | intro {r₁ r₀ g₁ g₀ b₁ b₀ : Char} {r g b : UInt8} (hr : Color.channel? r₁ r₀ = some r)
      (hg : Color.channel? g₁ g₀ = some g) (hb : Color.channel? b₁ b₀ = some b) :
      ColorRule [⟨.color, ['#', r₁, r₀, g₁, g₀, b₁, b₀]⟩] ⟨r, g, b, 255⟩

inductive FlagRule : List Lexeme → Effects → Prop
  | paint (word : List Char) : FlagRule [⟨.paint, word⟩] .paint
  | move (word : List Char) : FlagRule [⟨.move, word⟩] .move

/-- The actions are what is between the quotes. -/
inductive DefinitionRule : List Lexeme → Definition → Prop
  | intro {literal : Char} {word actions : List Char} {ts us : List Lexeme}
      {color : Option Color} {flags : List Effects} (hcolor : Optional ColorRule ts color)
      (hflags : Star FlagRule us flags) :
      DefinitionRule
        (⟨.letter, [literal]⟩ :: ⟨.equals, word⟩ :: ⟨.quoted, '"' :: (actions ++ ['"'])⟩ ::
          (ts ++ us))
        ⟨literal, .ofList actions, color.getD .black, flags.foldl Effects.union .none⟩

inductive ConfigRule : List Lexeme → List Assignment → List Definition → Prop
  | intro {ts us : List Lexeme} {settings : List Assignment} {definitions : List Definition}
      (hsettings : Star SettingRule ts settings) (hdefinitions : Star DefinitionRule us definitions)
      (hne : definitions ≠ []) : ConfigRule (ts ++ us) settings definitions

end Lindenmayer.Script
