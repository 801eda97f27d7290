import Lindenmayer.Proofs.BoundingBox

/-!
# Where the turtle stands

Turns by right angles soon give a direction with a negative zero in it, and so does a branch
with a negative scale. Nothing of this gets into a position. The turtle starts from the
positive zero and goes on by sums, and the bounds are made of its positions.

This matters for the bounds. Which of two zeros of different sign is the smaller one is not
settled, and everything else that is drawn is settled to the last bit. So here is a turtle
that looks before every comparison whether it is one of two such zeros, and stops if it is.
It never stops, and it leaves behind what the turtle does that does not look.
-/

namespace Lindenmayer

open Number

namespace Number

/-- Being two zeros of different sign. -/
def opposed (x y : Float) : Bool := x == 0 && y == 0 && decide (x ≠ y)

/-- The choice between two numbers, unless they are zeros of different sign. -/
def choose? (choose : Float → Float → Float) (x y : Float) : Option Float :=
  if opposed x y then none else some (choose x y)

end Number

/-! ## A turtle that looks before every comparison -/

/-- The choice of both coordinates. -/
def Point.choose? (choose : Float → Float → Float) (a b : Point) : Option Point := do
  let x ← Number.choose? choose a.x b.x
  let y ← Number.choose? choose a.y b.y
  return ⟨x, y⟩

namespace Drawing

/-- The bounds, stretched to a point. -/
def cover? (bounds : Option Rect) (p : Point) : Option Rect := do
  let r := bounds.getD ⟨p, p⟩
  let origin ← r.origin.choose? least p
  let lowerRight ← r.lowerRight.choose? greatest p
  return ⟨origin, lowerRight⟩

def paint? (d : Drawing) (start stop : Point) (colorNumber : UInt8) : Option Drawing := do
  let r ← cover? d.bounds start
  let r ← cover? (some r) stop
  return { d with segments := d.segments.push ⟨⟨start, stop⟩, colorNumber⟩, bounds := some r }

end Drawing

namespace Pen

def mark? (pen : Pen) (colorNumber : UInt8) (effects : Effects) : Option Pen := do
  let start := pen.turtle.position
  let stop := if effects.contains .move then start + pen.turtle.direction else start
  let drawing ←
    if effects.contains .paint then pen.drawing.paint? start stop colorNumber
    else some pen.drawing
  return { turtle := { pen.turtle with position := stop }, drawing }

/-- Only painting compares. -/
def step? (pen : Pen) : Action → Option Pen
  | .literal _ colorNumber effects _ => pen.mark? colorNumber effects
  | action => some (pen.step action)

end Pen

namespace Alphabet

def stepSymbol? (a : Alphabet) (pen : Pen) (id : SymbolId) : Option Pen :=
  match a.actions[id]? with
  | some action => pen.step? action
  | none => some pen

def walk? (a : Alphabet) (pen : Pen) (word : Word) : Option Pen :=
  word.foldlM a.stepSymbol? pen

end Alphabet

/-! ## It never stops -/

namespace Number

variable {x y : Float}

theorem NotNegZero.opposed_eq_false (hx : NotNegZero x) (hy : NotNegZero y) :
    opposed x y = false := by
  cases h : opposed x y with
  | false => rfl
  | true =>
      simp only [opposed, Bool.and_eq_true, decide_eq_true_eq] at h
      obtain ⟨⟨hzero, hzero'⟩, hne⟩ := h
      have halike : Alike x y := alike_of_beq (beq_trans hzero (beq_symm hzero'))
      exact absurd (hx.eq_of_alike hy halike) hne

theorem NotNegZero.choose?_eq (hx : NotNegZero x) (hy : NotNegZero y)
    (choose : Float → Float → Float) : choose? choose x y = some (choose x y) := by
  rw [choose?, hx.opposed_eq_false hy, if_neg Bool.false_ne_true]

example : choose? least 0 (-0) = none := by decide

end Number

/-- Having no corner with a coordinate that is the negative zero. -/
def Rect.Settled (r : Rect) : Prop := r.origin.Settled ∧ r.lowerRight.Settled

theorem Point.Settled.choose?_eq {p q : Point} (hp : p.Settled) (hq : q.Settled)
    (choose : Float → Float → Float) :
    p.choose? choose q = some ⟨choose p.x q.x, choose p.y q.y⟩ := by
  rw [Point.choose?, hp.1.choose?_eq hq.1, hp.2.choose?_eq hq.2]
  rfl

/-- The sides of a tight box are coordinates of points. -/
theorem Bounds.settled {points : List Point} {bounds : Option Rect} (h : Bounds points bounds)
    (hpoints : ∀ p ∈ points, p.Settled) : ∀ r ∈ bounds, r.Settled := by
  rintro r rfl
  have htight : r.TightAround points := h
  have hx : ∀ x ∈ points.map Point.x, NotNegZero x :=
    List.forall_mem_map.2 fun p hp => (hpoints p hp).1
  have hy : ∀ y ∈ points.map Point.y, NotNegZero y :=
    List.forall_mem_map.2 fun p hp => (hpoints p hp).2
  exact ⟨⟨hx _ htight.left.mem, hy _ htight.top.mem⟩,
    ⟨hx _ htight.right.mem, hy _ htight.bottom.mem⟩⟩

namespace Drawing

theorem cover?_eq {bounds : Option Rect} (hbounds : ∀ r ∈ bounds, r.Settled) {p : Point}
    (hp : p.Settled) : cover? bounds p = cover bounds p := by
  cases bounds with
  | none => rw [cover?, Option.getD_none, hp.choose?_eq hp, hp.choose?_eq hp]; rfl
  | some r =>
      obtain ⟨horigin, hlowerRight⟩ := hbounds r rfl
      rw [cover?, Option.getD_some, horigin.choose?_eq hp, hlowerRight.choose?_eq hp]
      rfl

theorem paint?_eq {d : Drawing} (hbounds : Bounds d.ends d.bounds)
    (hends : ∀ p ∈ d.ends, p.Settled) {start stop : Point} (hstart : start.Settled)
    (hstop : stop.Settled) (colorNumber : UInt8) :
    d.paint? start stop colorNumber = some (d.paint start stop colorNumber) := by
  have hends' : ∀ p ∈ d.ends ++ [start], p.Settled :=
    List.forall_mem_append.2 ⟨hends, List.forall_mem_singleton.2 hstart⟩
  obtain ⟨r, hr⟩ : ∃ r, cover d.bounds start = some r := by
    cases d.bounds with
    | none | some => exact ⟨_, rfl⟩
  have hsettled : ∀ r' ∈ some r, r'.Settled := by
    rw [← hr]
    exact (hbounds.cover start).settled hends'
  rw [paint?, cover?_eq (hbounds.settled hends) hstart, hr, Option.bind_eq_bind, Option.bind_some,
    cover?_eq hsettled hstop, paint, hr]
  rfl

end Drawing

namespace Pen

theorem Bounded.mark?_eq {pen : Pen} (h : pen.Bounded) (colorNumber : UInt8) (effects : Effects) :
    pen.mark? colorNumber effects = some (pen.mark colorNumber effects) := by
  simp only [Pen.mark?, Pen.mark]
  generalize hstop : (if effects.contains .move = true then
    pen.turtle.position + pen.turtle.direction else pen.turtle.position) = stop
  have hsettled : stop.Settled := by
    rw [← hstop]
    split
    · exact h.position.add _
    · exact h.position
  split
  · rw [Drawing.paint?_eq h.bounds h.ends h.position hsettled]
    rfl
  · rfl

theorem Bounded.step?_eq {pen : Pen} (h : pen.Bounded) (action : Action) :
    pen.step? action = some (pen.step action) := by
  cases action with
  | turn | push | pop => rfl
  | literal symbol colorNumber effects successor => exact h.mark?_eq colorNumber effects

end Pen

namespace Alphabet

theorem stepSymbol?_eq (a : Alphabet) {pen : Pen} (h : pen.Bounded) (id : SymbolId) :
    a.stepSymbol? pen id = some (a.stepSymbol pen id) := by
  rw [stepSymbol?, stepSymbol]
  cases a.actions[id]? with
  | none => rfl
  | some action => exact h.step?_eq action

theorem walk?_eq (a : Alphabet) {pen : Pen} (h : pen.Bounded) (word : Word) :
    a.walk? pen word = some (a.walk pen word) := by
  rw [walk?, walk, ← Array.foldlM_toList, ← Array.foldl_toList]
  induction word.toList generalizing pen with
  | nil => rfl
  | cons id ids ih =>
      rw [List.foldlM_cons, a.stepSymbol?_eq h, Option.bind_eq_bind, Option.bind_some,
        List.foldl_cons]
      exact ih (a.bounded_stepSymbol h id)

/-- The turtle never stands on a negative zero, and it will never come back to one. Its segments
do not end at one and the bounds do not reach to one. So the turtle that stops before a
comparison of two zeros of different sign does all that the turtle does. A direction may have
a negative zero, though. -/
theorem never_on_negative_zero (a : Alphabet) (startAngle stepSize : Float) (word : Word) :
    let pen := a.walk (.start startAngle stepSize) word
    let d := a.draw word startAngle stepSize
    pen.turtle.position.Settled ∧
    (∀ s ∈ pen.turtle.saved, s.1.Settled) ∧
    (∀ s ∈ d.segments, s.line.start.Settled ∧ s.line.stop.Settled) ∧
    (∀ r ∈ d.bounds, r.Settled) ∧
    a.walk? (.start startAngle stepSize) word = some pen ∧
    ∃ (b : Alphabet) (turns : Word), ¬ (b.walk (.start 0 1) turns).turtle.direction.Settled := by
  intro pen d
  have hpen : pen.Bounded :=
    a.bounded_walk (Pen.bounded_start startAngle stepSize) word.toList
  obtain ⟨hbounds, hends⟩ := a.bounds_draw word startAngle stepSize
  refine ⟨hpen.position, hpen.saved, fun s hs => ?_, hbounds.settled hends,
    a.walk?_eq (Pen.bounded_start startAngle stepSize) word, ?_⟩
  · have hmem : ∀ p ∈ [s.line.start, s.line.stop], p ∈ d.ends := fun p hp =>
      List.mem_flatMap.2 ⟨s, Array.mem_toList_iff.2 hs, hp⟩
    exact ⟨hends _ (hmem _ (by simp)), hends _ (hmem _ (by simp))⟩
  · -- three turns to the left
    let b : Alphabet := ⟨#[.turn '+' ⟨0, 1⟩], 0, #[]⟩
    have hdirection : (b.walk (.start 0 1) #[0, 0, 0]).turtle.direction = ⟨-0, -1⟩ := by
      decide +kernel
    refine ⟨b, #[0, 0, 0], fun hsettled => ?_⟩
    rw [hdirection] at hsettled
    exact hsettled.1 rfl

end Alphabet

end Lindenmayer
