import Lindenmayer.Script.Blank
import Lindenmayer.Script.Terminal

/-!
# Tokens

A text is cut into tokens from the front: white space is skipped, and then the
longest match of any terminal is taken. The cutting ends with the text, or at
the first place where no terminal matches. Places in the text are counted in
bytes.

A match is never empty, so every token leaves less text to cut.
-/

namespace Lindenmayer.Script

structure Token where
  terminal : Terminal
  text : List Char
  start : Nat
  /-- Where the text after the token starts. -/
  stop : Nat
deriving DecidableEq, Repr

/-- How the cutting of a text ended. -/
inductive Ending where
  | complete
  /-- No terminal matches at this place. -/
  | invalid (position : Nat)
deriving DecidableEq, Repr

/-- The longer of two matches, the first one if they are equally long. -/
def longer (best : Option (Terminal × Nat)) (next : Terminal × Nat) : Option (Terminal × Nat) :=
  match best with
  | some (t, n) => if n < next.2 then some next else some (t, n)
  | none => some next

/-- The terminal that matches most at the front, and how many characters it matches. -/
def longestMatch? (cs : List Char) : Option (Terminal × Nat) :=
  (Terminal.all.filterMap fun t => (t.matchLength? cs).map (t, ·)).foldl longer none

/-- Cuts the text that starts at `position`, taking at most `fuel` tokens. -/
def cut : (fuel : Nat) → (position : Nat) → (cs : List Char) → List Token × Ending
  | 0, position, _ => ([], .invalid position)
  | fuel + 1, position, cs =>
      let blank := cs.takeWhile isBlank
      let rest := cs.dropWhile isBlank
      let start := position + Text.byteLength blank
      if rest.isEmpty then ([], .complete)
      else
        match longestMatch? rest with
        | none => ([], .invalid start)
        | some (terminal, n) =>
            let text := rest.take n
            let stop := start + Text.byteLength text
            let (tokens, ending) := cut fuel stop (rest.drop n)
            (⟨terminal, text, start, stop⟩ :: tokens, ending)

def tokenize (text : String) : List Token × Ending :=
  let cs := text.toList
  cut (cs.length + 1) 0 cs

end Lindenmayer.Script
