import Lindenmayer.Proofs.AlikeDrawing
import Lindenmayer.Proofs.Brackets
import Lindenmayer.Proofs.NumericalOrder

/-!
# The bounds of a drawing

The bounds are kept up while the turtle draws: each segment stretches them to its two
end points. What comes out is the tight box around all end points. Each side of it is
the coordinate of some end point, and no coordinate that is a number lies beyond it.
The two axes go their own ways, and so does a NaN on one of them. It is in the bounds as
long as there was no number on that axis, and the first number replaces it.

The box does not depend on the order of the end points either. That would be almost
clear from its being tight, if it were not for the two zeros, of which neither is the
lesser one. But no end point has a coordinate that is the negative zero: the turtle
starts from the origin and goes on by sums.
-/

namespace Lindenmayer

open Number

/-- The end points of the segments, in order. -/
def Drawing.ends (d : Drawing) : List Point :=
  d.segments.toList.flatMap fun s => [s.line.start, s.line.stop]

/-! ## Tight boxes -/

/-- Reaching on every side to the outermost of some points, and no farther. -/
structure Rect.TightAround (r : Rect) (points : List Point) : Prop where
  left : LeastOf (points.map Point.x) r.origin.x
  top : LeastOf (points.map Point.y) r.origin.y
  right : GreatestOf (points.map Point.x) r.lowerRight.x
  bottom : GreatestOf (points.map Point.y) r.lowerRight.y

/-- What the bounds are to be: a tight box, or nothing if there are no points. -/
def Bounds (points : List Point) : Option Rect → Prop
  | none => points = []
  | some r => r.TightAround points

theorem Rect.tightAround_singleton (p : Point) : (Rect.ofPoints p p).TightAround [p] := by
  have hp : Rect.ofPoints p p = ⟨p, p⟩ := by
    have hleast : ∀ x, least x x = x := fun x => (chosen_least x x).eq_or.elim id id
    have hgreatest : ∀ x, greatest x x = x := fun x => (chosen_greatest x x).eq_or.elim id id
    simp only [ofPoints, Point.least, Point.greatest, hleast, hgreatest]
  rw [hp]
  exact ⟨firstOf_singleton ordersNumbers_le p.x, firstOf_singleton ordersNumbers_le p.y,
    firstOf_singleton ordersNumbers_ge p.x, firstOf_singleton ordersNumbers_ge p.y⟩

theorem Rect.TightAround.including {r : Rect} {points : List Point} (h : r.TightAround points)
    (p : Point) : (r.including p).TightAround (points ++ [p]) := by
  constructor <;> rw [List.map_append]
  · exact h.left.concat ordersNumbers_le (chosen_least _ _)
  · exact h.top.concat ordersNumbers_le (chosen_least _ _)
  · exact h.right.concat ordersNumbers_ge (chosen_greatest _ _)
  · exact h.bottom.concat ordersNumbers_ge (chosen_greatest _ _)

theorem Bounds.cover {points : List Point} {bounds : Option Rect} (h : Bounds points bounds)
    (p : Point) : Bounds (points ++ [p]) (Drawing.cover bounds p) := by
  cases bounds with
  | none =>
      have hnil : points = [] := h
      rw [hnil]
      exact Rect.tightAround_singleton p
  | some r => exact Rect.TightAround.including h p

theorem Bounds.eq_none_iff {points : List Point} {bounds : Option Rect} (h : Bounds points bounds) :
    bounds = none ↔ points = [] := by
  cases bounds with
  | none => exact iff_of_true rfl h
  | some r =>
      have hr : r.TightAround points := h
      refine iff_of_false (fun h => nomatch h) fun hnil => ?_
      rw [hnil] at hr
      exact List.not_mem_nil hr.left.mem

theorem Number.FirstOf.eq_of_same {before : Float → Float → Prop} (hbefore : OrdersNumbers before)
    {points others : List Point} {coordinate : Point → Float} {m n : Float}
    (hm : FirstOf before (points.map coordinate) m) (hn : FirstOf before (others.map coordinate) n)
    (hsame : ∀ p, p ∈ points ↔ p ∈ others) (hzero : ∀ p ∈ points, NotNegZero (coordinate p)) :
    m = n := by
  have hvalues : ∀ x, x ∈ points.map coordinate ↔ x ∈ others.map coordinate := by
    intro x
    simp only [List.mem_map, hsame]
  have hmem : ∀ x ∈ points.map coordinate, NotNegZero x := List.forall_mem_map.2 hzero
  exact (hmem m hm.mem).eq_of_alike (hmem n ((hvalues n).2 hn.mem)) (hm.alike hbefore hn hvalues)

/-- There is only one tight box, if no coordinate is the negative zero. -/
theorem Rect.TightAround.unique {r s : Rect} {points others : List Point}
    (hr : r.TightAround points) (hs : s.TightAround others)
    (hsame : ∀ p, p ∈ points ↔ p ∈ others) (hsettled : ∀ p ∈ points, p.Settled) : r = s := by
  have hx : ∀ p ∈ points, NotNegZero p.x := fun p hp => (hsettled p hp).1
  have hy : ∀ p ∈ points, NotNegZero p.y := fun p hp => (hsettled p hp).2
  have hleft := hr.left.eq_of_same ordersNumbers_le hs.left hsame hx
  have htop := hr.top.eq_of_same ordersNumbers_le hs.top hsame hy
  have hright := hr.right.eq_of_same ordersNumbers_ge hs.right hsame hx
  have hbottom := hr.bottom.eq_of_same ordersNumbers_ge hs.bottom hsame hy
  obtain ⟨⟨left, top⟩, right, bottom⟩ := r
  obtain ⟨⟨left', top'⟩, right', bottom'⟩ := s
  simp only at hleft htop hright hbottom
  rw [hleft, htop, hright, hbottom]

theorem Bounds.unique {points others : List Point} {b b' : Option Rect} (hb : Bounds points b)
    (hb' : Bounds others b') (hsame : ∀ p, p ∈ points ↔ p ∈ others)
    (hsettled : ∀ p ∈ points, p.Settled) : b = b' := by
  have hempty : points = [] ↔ others = [] := by
    simp only [List.eq_nil_iff_forall_not_mem, hsame]
  cases b with
  | none => exact (hb'.eq_none_iff.2 (hempty.1 hb)).symm
  | some r =>
      cases b' with
      | none => exact hb.eq_none_iff.2 (hempty.2 hb')
      | some s => exact congrArg some (Rect.TightAround.unique hb hb' hsame hsettled)

/-! ## What the turtle keeps up -/

/-- The bounds are those of the end points, and neither an end point nor a place where the
turtle is or may come back to has the negative zero for a coordinate. -/
structure Pen.Bounded (pen : Pen) : Prop where
  bounds : Bounds pen.drawing.ends pen.drawing.bounds
  ends : ∀ p ∈ pen.drawing.ends, p.Settled
  position : pen.turtle.position.Settled
  saved : ∀ s ∈ pen.turtle.saved, s.1.Settled

theorem Drawing.ends_paint (d : Drawing) (start stop : Point) (colorNumber : UInt8) :
    (d.paint start stop colorNumber).ends = d.ends ++ [start] ++ [stop] := by
  simp only [ends, paint, Array.toList_push, List.flatMap_append, List.flatMap_singleton,
    List.append_assoc, List.singleton_append]

theorem Drawing.ends_eq_nil_iff (d : Drawing) : d.ends = [] ↔ d.segments = #[] := by
  rw [ends, List.flatMap_eq_nil_iff, ← Array.toList_eq_nil_iff, List.eq_nil_iff_forall_not_mem]
  exact forall_congr' fun s => imp_congr_right fun _ => iff_of_false (List.cons_ne_nil _ _) id

namespace Pen

theorem bounded_start (startAngle stepSize : Float) : (start startAngle stepSize).Bounded where
  bounds := rfl
  ends := fun _ hp => absurd hp List.not_mem_nil
  position := Point.origin_settled
  saved := fun _ hs => absurd hs List.not_mem_nil

theorem Bounded.pop {pen : Pen} (h : pen.Bounded) : pen.pop.Bounded := by
  cases hsaved : pen.turtle.saved with
  | nil =>
      rw [pop_of_empty hsaved]
      exact ⟨h.bounds, h.ends, h.position, h.saved⟩
  | cons top rest =>
      have hrest := h.saved
      rw [hsaved, List.forall_mem_cons] at hrest
      rw [pop_of_saved hsaved]
      exact ⟨h.bounds, h.ends, hrest.1, hrest.2⟩

theorem Bounded.mark {pen : Pen} (h : pen.Bounded) (colorNumber : UInt8) (effects : Effects) :
    (pen.mark colorNumber effects).Bounded := by
  simp only [Pen.mark]
  generalize hstop : (if effects.contains .move = true then
    pen.turtle.position + pen.turtle.direction else pen.turtle.position) = stop
  have hsettled : stop.Settled := by
    rw [← hstop]
    split
    · exact h.position.add _
    · exact h.position
  split
  · refine ⟨?_, ?_, hsettled, h.saved⟩
    · rw [Drawing.ends_paint]
      exact (h.bounds.cover _).cover _
    · rw [Drawing.ends_paint]
      simp only [List.forall_mem_append, List.forall_mem_singleton]
      exact ⟨⟨h.ends, h.position⟩, hsettled⟩
  · exact ⟨h.bounds, h.ends, hsettled, h.saved⟩

theorem Bounded.step {pen : Pen} (h : pen.Bounded) (action : Action) :
    (pen.step action).Bounded := by
  cases action with
  | turn symbol rotation => exact ⟨h.bounds, h.ends, h.position, h.saved⟩
  | push factor =>
      refine ⟨h.bounds, h.ends, h.position, ?_⟩
      exact List.forall_mem_cons.2 ⟨h.position, h.saved⟩
  | pop => exact h.pop
  | literal symbol colorNumber effects successor => exact h.mark colorNumber effects

theorem Bounded.finish {pen : Pen} (h : pen.Bounded) :
    Bounds pen.finish.ends pen.finish.bounds ∧ ∀ p ∈ pen.finish.ends, p.Settled := by
  rw [Pen.finish]
  split
  · exact ⟨h.bounds, h.ends⟩
  · exact ⟨h.bounds, h.ends⟩

end Pen

namespace Alphabet

theorem bounded_stepSymbol (a : Alphabet) {pen : Pen} (h : pen.Bounded) (id : SymbolId) :
    (a.stepSymbol pen id).Bounded := by
  rw [stepSymbol]
  split
  · exact h.step _
  · exact h

theorem bounded_walk (a : Alphabet) {pen : Pen} (h : pen.Bounded) (word : List SymbolId) :
    (a.walk pen word.toArray).Bounded := by
  induction word using List.reverseRecOn with
  | nil => exact h
  | append_singleton word id ih =>
      rw [walk_concat]
      exact a.bounded_stepSymbol ih id

theorem bounds_draw (a : Alphabet) (word : Word) (startAngle stepSize : Float) :
    let d := a.draw word startAngle stepSize
    Bounds d.ends d.bounds ∧ ∀ p ∈ d.ends, p.Settled :=
  (a.bounded_walk (Pen.bounded_start startAngle stepSize) word.toList).finish

/-- A drawing has bounds if it has segments, and they are the tight box around the end points.
So the first corner is not beyond the second on an axis with a number. Drawings with the same
end points have the same bounds, in whatever order the points come. -/
theorem bounds_are_tight (a : Alphabet) (word : Word) (startAngle stepSize : Float) :
    let d := a.draw word startAngle stepSize
    (d.bounds = none ↔ d.segments = #[]) ∧
    (∀ r, d.bounds = some r → r.TightAround d.ends ∧
      (r.origin.x.isNaN = false → r.origin.x ≤ r.lowerRight.x) ∧
      (r.origin.y.isNaN = false → r.origin.y ≤ r.lowerRight.y)) ∧
    ∀ (a' : Alphabet) (word' : Word) (startAngle' stepSize' : Float),
      let d' := a'.draw word' startAngle' stepSize'
      (∀ p, p ∈ d.ends ↔ p ∈ d'.ends) → d.bounds = d'.bounds := by
  intro d
  obtain ⟨hbounds, hsettled⟩ := a.bounds_draw word startAngle stepSize
  refine ⟨hbounds.eq_none_iff.trans d.ends_eq_nil_iff, fun r hr => ?_, ?_⟩
  · have htight : Bounds d.ends (some r) := hr ▸ hbounds
    exact ⟨htight, htight.right.before _ htight.left.mem, htight.bottom.before _ htight.top.mem⟩
  · intro a' word' startAngle' stepSize' d' hsame
    obtain ⟨hbounds', -⟩ := a'.bounds_draw word' startAngle' stepSize'
    exact hbounds.unique hbounds' hsame hsettled

end Alphabet

end Lindenmayer
