import Lindenmayer.Alphabet

/-!
# Expansion

Each iteration replaces every literal of a generation by its successor. Growth is
usually exponential, so the length of the next generation is compared with the
bound before every single symbol is replaced. A generation that has outgrown the
bound is cut off there. It is the result then: what there is of it can be drawn,
and memory never holds much more than the bound.

The last replacement of a generation is not followed by another comparison.
-/

namespace Lindenmayer

structure Expansion where
  /-- The last generation, cut short if `exceeded` is set. -/
  word : Word
  /-- How many iterations there were, a cut one included. -/
  iterations : Nat
  /-- Whether the last iteration was cut. -/
  exceeded : Bool
  /-- The last generation but one, if it was wanted and the expansion got there. -/
  previous : Option Word
  /-- The lengths of the generations that were completed, in order. -/
  lengths : Array Nat
deriving DecidableEq, Repr

namespace Alphabet

/-- Appends the successor of one more symbol, unless the next generation is longer
than the bound already. The error is that generation as it stands. -/
@[inline] def appendSuccessor (a : Alphabet) (bound : Nat) (next : Word) (id : SymbolId) :
    Except Word Word :=
  if bound < next.size then .error next else .ok (next ++ a.successor id)

/-- The generation after `current`, or as much of it as exceeds the bound. -/
def nextGeneration (a : Alphabet) (bound : Nat) (current : Word) : Except Word Word :=
  current.foldlM (a.appendSuccessor bound) #[]

def expandFrom (a : Alphabet) (bound : Nat) (keepPrevious : Bool) :
    (remaining : Nat) → (current : Word) → (lengths : Array Nat) → (previous : Option Word) →
    Expansion
  | 0, current, lengths, previous =>
      { word := current, iterations := lengths.size, exceeded := false, previous, lengths }
  | remaining + 1, current, lengths, previous =>
      let previous := if keepPrevious && remaining == 0 then some current else previous
      match a.nextGeneration bound current with
      | .error cut =>
          { word := cut, iterations := lengths.size + 1, exceeded := true, previous, lengths }
      | .ok next =>
          a.expandFrom bound keepPrevious remaining next (lengths.push next.size) previous

/-- Expands the start symbol, holding every generation against `bound`. -/
def expand (a : Alphabet) (iterations bound : Nat) (keepPrevious : Bool) : Expansion :=
  a.expandFrom bound keepPrevious iterations #[a.start] #[] none

end Alphabet

end Lindenmayer
