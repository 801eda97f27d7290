import Lindenmayer.Proofs.Compilation
import Lindenmayer.Proofs.SignedZero
import Lindenmayer.Simulator

/-!
# A zero of the other sign never shows in a drawing

Two configurations with the same expansion may differ in the signs of zeros among
their angles and their scale factors. Their alphabets then differ too, in the sine
of a turn by no degrees or in the factor of a push, and nowhere else.

Two turtles that follow such alphabets are kept in step by this invariant: their
positions are the same, and so are the positions they have saved; their directions
may differ in the signs of zeros; and no coordinate of a position is the negative
zero. A step adds a direction to a position, where the sign of a zero does not
count, and all that is ever painted are positions.
-/

namespace Lindenmayer

open Number

/-! ## Alphabets that are alike -/

/-- Having factors that are the same up to the signs of zeros. -/
def Rotation.Alike (r s : Rotation) : Prop := Number.Alike r.cos s.cos ∧ Number.Alike r.sin s.sin

/-- An angle of zero is no turn, and its sine is a zero. -/
theorem Rotation.ofDegrees_of_isZero {x : Float} (h : IsZero x) :
    (Rotation.ofDegrees x).cos = 1 ∧ IsZero (Rotation.ofDegrees x).sin := by
  have hradians : radians x = x := by
    rcases h.eq_or with rfl | rfl <;> decide
  have hbeq : (x == 0) = true := by
    rcases h.eq_or with rfl | rfl <;> decide
  have hsnap : snap x = x := by
    rcases h.eq_or with rfl | rfl <;> decide
  have hone : snap 1 = 1 := by decide
  rw [ofDegrees, hradians, sine_of_beq_zero hbeq, cosine_of_beq_zero hbeq, hsnap, hone]
  exact ⟨rfl, h⟩

theorem Rotation.ofDegrees_alike {x y : Float} (h : Number.Alike x y) :
    (Rotation.ofDegrees x).Alike (Rotation.ofDegrees y) := by
  rcases alike_iff.1 h with rfl | ⟨hx, hy⟩
  · exact ⟨Alike.refl _, Alike.refl _⟩
  · obtain ⟨hcx, hsx⟩ := ofDegrees_of_isZero hx
    obtain ⟨hcy, hsy⟩ := ofDegrees_of_isZero hy
    exact ⟨alike_iff.2 (Or.inl (hcx.trans hcy.symm)), alike_iff.2 (Or.inr ⟨hsx, hsy⟩)⟩

/-- Being the same action up to the signs of zeros. -/
inductive Action.Alike : Action → Action → Prop
  | turn (symbol : Char) {r s : Rotation} (h : r.Alike s) :
      Alike (.turn symbol r) (.turn symbol s)
  | push {x y : Float} (h : Number.Alike x y) : Alike (.push x) (.push y)
  | pop : Alike .pop .pop
  | literal (symbol : Char) (colorNumber : UInt8) (effects : Effects) (successor : Word) :
      Alike (.literal symbol colorNumber effects successor)
        (.literal symbol colorNumber effects successor)

theorem Action.Alike.refl (x : Action) : x.Alike x := by
  cases x with
  | turn symbol r => exact .turn symbol ⟨Number.Alike.refl _, Number.Alike.refl _⟩
  | push factor => exact .push (Number.Alike.refl factor)
  | pop => exact .pop
  | literal => exact .literal ..

theorem Action.Alike.symbol_eq {x y : Action} (h : x.Alike y) : x.symbol = y.symbol := by
  cases h <;> rfl

/-- Being the same alphabet up to the signs of zeros. -/
structure Alphabet.Alike (a b : Alphabet) : Prop where
  start : a.start = b.start
  colors : a.colors = b.colors
  actions : ∀ id : SymbolId, Option.Rel Action.Alike a.actions[id]? b.actions[id]?

theorem Config.operators_alike {c d : Config} (h : c.sameExpansion d = true) :
    List.Forall₂ Action.Alike c.operators d.operators := by
  simp only [sameExpansion, Bool.and_eq_true] at h
  obtain ⟨⟨⟨⟨_, _⟩, hleft⟩, hright⟩, hscaling⟩ := h
  refine List.Forall₂.cons (.turn _ (Rotation.ofDegrees_alike (alike_of_beq hleft))) ?_
  refine List.Forall₂.cons (.turn _ (Rotation.ofDegrees_alike (alike_of_beq hright))) ?_
  refine List.Forall₂.cons (.push (alike_of_beq hscaling)) ?_
  exact List.Forall₂.cons .pop .nil

theorem Config.definitions_eq_of_sameExpansion {c d : Config} (h : c.sameExpansion d = true) :
    c.definitions = d.definitions := by
  simp only [sameExpansion, Bool.and_eq_true, decide_eq_true_eq] at h
  exact h.1.1.1.1

theorem Alphabet.Alike.refl (a : Alphabet) : a.Alike a where
  start := rfl
  colors := rfl
  actions id := by
    cases a.actions[id]? with
    | none => exact .none
    | some x => exact .some (Action.Alike.refl x)

/-- The literals of two alphabets for one expansion are the same, and the operators
are alike. -/
theorem Config.assemble_alike {c d : Config} (h : c.sameExpansion d = true)
    (literals : List Action) : (c.assemble literals).Alike (d.assemble literals) := by
  have hdef := definitions_eq_of_sameExpansion h
  refine ⟨rfl, by rw [assemble, assemble, hdef], fun id => ?_⟩
  simp only [assemble, List.getElem?_toArray]
  refine getElem?_rel (List.rel_append (operators_alike h) ?_) id
  exact List.forall₂_same.2 fun x _ => Action.Alike.refl x

theorem Alphabet.Alike.successor_eq {a b : Alphabet} (h : a.Alike b) :
    a.successor = b.successor := by
  funext id
  have hid := h.actions id
  rw [successor, successor]
  generalize a.actions[id]? = x at *
  generalize b.actions[id]? = y at *
  cases hid with
  | none => rfl
  | some hact => cases hact <;> rfl

theorem Alphabet.Alike.expand_eq {a b : Alphabet} (h : a.Alike b) : a.expand = b.expand := by
  have happend : a.appendSuccessor = b.appendSuccessor := by
    funext bound next id
    rw [appendSuccessor, appendSuccessor, h.successor_eq]
  have hnext : a.nextGeneration = b.nextGeneration := by
    funext bound current
    rw [nextGeneration, nextGeneration, happend]
  have hfrom : ∀ bound keep remaining current lengths previous,
      a.expandFrom bound keep remaining current lengths previous =
        b.expandFrom bound keep remaining current lengths previous := by
    intro bound keep remaining
    induction remaining with
    | zero => intro current lengths previous; rfl
    | succ remaining ih =>
        intro current lengths previous
        rw [expandFrom, expandFrom, hnext]
        cases b.nextGeneration bound current with
        | error cut => rfl
        | ok next => exact ih _ _ _
  funext iterations bound keep
  rw [expand, expand, h.start, hfrom]

theorem Alphabet.Alike.spell_eq {a b : Alphabet} (h : a.Alike b) : a.spell = b.spell := by
  funext word
  rw [spell, spell]
  congr 1
  funext text id
  have hid := h.actions id
  generalize a.actions[id]? = x at *
  generalize b.actions[id]? = y at *
  cases hid with
  | none => rfl
  | some hact => simp only [hact.symbol_eq]

/-! ## Turtles in step -/

/-- Having coordinates that are the same up to the signs of zeros. -/
def Point.Alike (p q : Point) : Prop := Number.Alike p.x q.x ∧ Number.Alike p.y q.y

/-- Having no coordinate that is the negative zero. -/
def Point.Settled (p : Point) : Prop := NotNegZero p.x ∧ NotNegZero p.y

theorem Point.origin_settled : Point.origin.Settled :=
  ⟨fun h => (nomatch h : False), fun h => (nomatch h : False)⟩

theorem Point.Settled.add {p : Point} (hp : p.Settled) (d : Point) : (p + d).Settled :=
  ⟨hp.1.add d.x, hp.2.add d.y⟩

theorem Point.Settled.add_congr {p : Point} (hp : p.Settled) {d e : Point} (h : d.Alike e) :
    p + d = p + e := by
  show Point.mk (p.x + d.x) (p.y + d.y) = ⟨p.x + e.x, p.y + e.y⟩
  rw [hp.1.add_congr h.1, hp.2.add_congr h.2]

theorem Point.Alike.scale {d e : Point} (h : d.Alike e) {x y : Float} (hxy : Number.Alike x y) :
    (d.scale x).Alike (e.scale y) :=
  ⟨h.1.mul hxy, h.2.mul hxy⟩

theorem Rotation.Alike.apply {r s : Rotation} (hr : r.Alike s) {d e : Point} (h : d.Alike e) :
    (r.apply d).Alike (s.apply e) :=
  ⟨(hr.1.mul h.1).sub (hr.2.mul h.2), (hr.2.mul h.1).add (hr.1.mul h.2)⟩

/-- Being the same saved position with directions that are alike. -/
def SavedAlike (s t : Point × Point) : Prop := s.1 = t.1 ∧ s.1.Settled ∧ s.2.Alike t.2

/-- The invariant that keeps two turtles in step. -/
structure Pen.Alike (p q : Pen) : Prop where
  position : p.turtle.position = q.turtle.position
  settled : p.turtle.position.Settled
  direction : p.turtle.direction.Alike q.turtle.direction
  saved : List.Forall₂ SavedAlike p.turtle.saved q.turtle.saved
  drawing : p.drawing = q.drawing

theorem Pen.start_alike (startAngle stepSize : Float) :
    (Pen.start startAngle stepSize).Alike (Pen.start startAngle stepSize) where
  position := rfl
  settled := Point.origin_settled
  direction := ⟨Number.Alike.refl _, Number.Alike.refl _⟩
  saved := .nil
  drawing := rfl

theorem Pen.Alike.pop {p q : Pen} (h : p.Alike q) : p.pop.Alike q.pop := by
  have hsaved := h.saved
  rw [Pen.pop, Pen.pop]
  generalize p.turtle.saved = ps at hsaved ⊢
  generalize q.turtle.saved = qs at hsaved ⊢
  cases hsaved with
  | nil =>
      exact ⟨h.position, h.settled, h.direction, h.saved,
        congrArg (fun d : Drawing => d.note .popOnEmptyStack) h.drawing⟩
  | cons hst hrest => exact ⟨hst.1, hst.2.1, hst.2.2, hrest, h.drawing⟩

theorem Pen.Alike.mark {p q : Pen} (h : p.Alike q) (colorNumber : UInt8) (effects : Effects) :
    (p.mark colorNumber effects).Alike (q.mark colorNumber effects) := by
  have hstop : q.turtle.position + p.turtle.direction = q.turtle.position + q.turtle.direction := by
    rw [← h.position]
    exact h.settled.add_congr h.direction
  refine ⟨?_, ?_, h.direction, h.saved, ?_⟩
  · simp only [Pen.mark, h.position, hstop]
  · simp only [Pen.mark]
    split
    · exact h.settled.add _
    · exact h.settled
  · simp only [Pen.mark, h.position, h.drawing, hstop]

theorem Pen.Alike.step {p q : Pen} (h : p.Alike q) {x y : Action} (hxy : x.Alike y) :
    (p.step x).Alike (q.step y) := by
  cases hxy with
  | turn symbol hr =>
      exact ⟨h.position, h.settled, hr.apply h.direction, h.saved, h.drawing⟩
  | push hfactor =>
      exact ⟨h.position, h.settled, h.direction.scale hfactor,
        .cons ⟨h.position, h.settled, h.direction⟩ h.saved, h.drawing⟩
  | pop => exact h.pop
  | literal symbol colorNumber effects successor => exact h.mark colorNumber effects

theorem Pen.Alike.finish_eq {p q : Pen} (h : p.Alike q) : p.finish = q.finish := by
  have hempty : p.turtle.saved.isEmpty = q.turtle.saved.isEmpty := by
    have hsaved := h.saved
    generalize p.turtle.saved = ps at hsaved ⊢
    generalize q.turtle.saved = qs at hsaved ⊢
    cases hsaved <;> rfl
  rw [Pen.finish, Pen.finish, hempty, h.drawing]

theorem Alphabet.Alike.walk {a b : Alphabet} (h : a.Alike b) (word : Word) {p q : Pen}
    (hpq : p.Alike q) : (a.walk p word).Alike (b.walk q word) := by
  rw [Alphabet.walk, Alphabet.walk, ← Array.foldl_toList, ← Array.foldl_toList]
  generalize word.toList = ids
  induction ids generalizing p q with
  | nil => exact hpq
  | cons id ids ih =>
      refine ih ?_
      have hid := h.actions id
      rw [stepSymbol, stepSymbol]
      generalize a.actions[id]? = x at *
      generalize b.actions[id]? = y at *
      cases hid with
      | none => exact hpq
      | some hact => exact hpq.step hact

theorem Alphabet.Alike.draw_eq {a b : Alphabet} (h : a.Alike b) : a.draw = b.draw := by
  funext word startAngle stepSize
  rw [draw, draw]
  exact (h.walk word (Pen.start_alike startAngle stepSize)).finish_eq

/-- Alphabets that are alike give the same result for every configuration. -/
theorem Alphabet.Alike.render_eq {a b : Alphabet} (h : a.Alike b) :
    Simulator.render a = Simulator.render b := by
  funext config bound keep
  simp only [Simulator.render, h.expand_eq, h.draw_eq, h.colors]

end Lindenmayer
