import Lindenmayer.Drawing
import Lindenmayer.Proofs.Compilation
import Lindenmayer.Proofs.Generations

/-!
# Drawing without generations

A generation need not exist to be drawn. A turtle that is to draw a literal after
some iterations may as well draw the symbols of its successor after one iteration
less, one after the other, and make a step only where no iteration is left. It needs
to remember one successor for each iteration, and never a whole word.

That the steps are the same, in the same order, is the law of generations: the
symbols of a generation can be rewritten one by one, each into a part of a later
generation, and these parts follow one another. A turtle is a fold over the symbols,
so it does not notice where one part ends and the next begins.
-/

namespace Lindenmayer.Alphabet

/-- Draws what a symbol becomes in `n` iterations. -/
def trace (a : Alphabet) : (n : Nat) → (pen : Pen) → (id : SymbolId) → Pen
  | 0, pen, id => a.stepSymbol pen id
  | n + 1, pen, id =>
      match a.actions[id]? with
      | some (.literal _ _ _ successor) => successor.toList.foldl (a.trace n) pen
      | _ => a.stepSymbol pen id

/-- What the turtle draws for the start symbol after `n` iterations. -/
def drawDepthFirst (a : Alphabet) (n : Nat) (startAngle stepSize : Float) : Drawing :=
  (a.trace n (.start startAngle stepSize) a.start).finish

/-- A symbol either is a literal, and its successor replaces it, or stays. -/
theorem replacement_cases (a : Alphabet) (id : SymbolId) :
    (∃ symbol colorNumber effects successor,
      a.actions[id]? = some (.literal symbol colorNumber effects successor) ∧
        a.replacement id = successor.toList) ∨
    (∀ n pen, a.trace (n + 1) pen id = a.stepSymbol pen id) ∧ a.replacement id = [id] := by
  rw [replacement, successor]
  cases hid : a.actions[id]? with
  | none => exact .inr ⟨fun n pen => by rw [trace, hid], rfl⟩
  | some action =>
      cases action with
      | literal symbol colorNumber effects successor =>
          exact .inl ⟨symbol, colorNumber, effects, successor, rfl, rfl⟩
      | _ => exact .inr ⟨fun n pen => by rw [trace, hid], rfl⟩

/-- Drawing a symbol depth first takes the turtle through the generation it becomes. -/
theorem trace_eq_foldl (a : Alphabet) (n : Nat) (pen : Pen) (id : SymbolId) :
    a.trace n pen id = (generation a.replacement [id] n).foldl a.stepSymbol pen := by
  induction n generalizing pen id with
  | zero => rfl
  | succ n ih =>
      obtain ⟨_, _, _, successor, hid, hrepl⟩ | ⟨hstep, hrepl⟩ := a.replacement_cases id
      · have hpieces := generation_flatMap a.replacement (fun b => [b]) successor.toList n
        rw [List.flatMap_singleton'] at hpieces
        have htrace : a.trace n = fun pen b =>
            (generation a.replacement [b] n).foldl a.stepSymbol pen := by
          funext pen b
          exact ih pen b
        simp only [trace, hid]
        rw [generation_singleton_succ, hrepl, hpieces, List.foldl_flatMap, htrace]
      · rw [hstep, generation_of_fixed hrepl]
        rfl

/-- The interpreter that never builds a generation draws what the expansion draws,
where there is a whole one to draw. -/
theorem draw_expand {a : Alphabet} {n bound : Nat} {keepPrevious : Bool}
    (h : (a.expand n bound keepPrevious).exceeded = false) (startAngle stepSize : Float) :
    a.draw (a.expand n bound keepPrevious).word startAngle stepSize =
      a.drawDepthFirst n startAngle stepSize := by
  obtain ⟨_, hexpand⟩ | ⟨_, _, _, _, _, hexpand⟩ := a.expand_cases n bound keepPrevious
  · rw [hexpand, draw, walk, completed, List.foldl_toArray, drawDepthFirst, trace_eq_foldl]
    rfl
  · rw [hexpand] at h
    cases h

/-- A bud that becomes a stem with a branch, and stems that grow. -/
def branching : Config where
  definitions := [⟨'A', "B[+A]-A", .black, .none⟩, ⟨'B', "BB", .black, .union .paint .move⟩]
  turnLeft := 25
  turnRight := -25
  scaling := 0.5

/-- The branches turn and shrink, and the start angle is not zero. -/
theorem draw_expand_branching :
    ∃ a, branching.compile = .ok a ∧
      a.draw (a.expand 3 100 false).word 90 1 = a.drawDepthFirst 3 90 1 := by
  have ha : branching.compile = .ok _ :=
    Config.compile_eq_ok_iff.2
      ⟨[.literal 'A' 0 .none #[5, 2, 0, 4, 3, 1, 4], .literal 'B' 0 ⟨3⟩ #[5, 5]],
        by decide +kernel, rfl⟩
  exact ⟨_, ha, draw_expand (by decide +kernel) 90 1⟩

end Lindenmayer.Alphabet
