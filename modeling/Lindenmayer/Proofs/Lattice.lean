import Lindenmayer.Proofs.BoundingBox
import Lindenmayer.Proofs.QuarterTurns

/-!
# The turtle on the lattice

A turtle that only makes quarter turns, never scales its step and takes steps of a whole
length stays on the points with whole coordinates. One can follow it with whole numbers
instead of doubles. As long as the word is so short that the turtle cannot get farther than
`2 ^ 53` from the origin, the two never part.

A quarter turn is exact however long the step is. A move is the one operation that has to be
in range: with each symbol the turtle may get farther away by one step, and by no more.

Doubles that are the same whole number are equal numerically, whatever the signs of zeros.
So the drawing is the one in whole numbers, and it closes where that one does.
-/

namespace Lindenmayer

open Number

/-- The same turn in whole numbers. -/
def Rotation.applyWhole (r : Rotation) (v : ℤ × ℤ) : ℤ × ℤ :=
  (unit r.cos * v.1 - unit r.sin * v.2, unit r.sin * v.1 + unit r.cos * v.2)

/-- Keeping a turtle with whole coordinates where it is one. -/
def Action.isWhole : Action → Bool
  | .turn _ rotation => rotation.isQuarter
  | .push factor => factor == 1
  | .pop | .literal .. => true

/-- Having only quarter turns and branches whose steps are not scaled. -/
def Alphabet.isWhole (a : Alphabet) : Bool := a.actions.all Action.isWhole

/-! ## The turtle in whole numbers -/

structure WholeSegment where
  start : ℤ × ℤ
  stop : ℤ × ℤ
  colorNumber : UInt8
deriving DecidableEq

/-- A turtle on the lattice and what it has drawn so far. -/
structure WholePen where
  position : ℤ × ℤ := 0
  direction : ℤ × ℤ
  saved : List ((ℤ × ℤ) × (ℤ × ℤ)) := []
  segments : List WholeSegment := []
  /-- The least and the greatest corner of a box. -/
  bounds : Option ((ℤ × ℤ) × (ℤ × ℤ)) := none
deriving DecidableEq

namespace WholePen

/-- Stretches a box to a point. -/
def cover (bounds : Option ((ℤ × ℤ) × (ℤ × ℤ))) (p : ℤ × ℤ) : Option ((ℤ × ℤ) × (ℤ × ℤ)) :=
  match bounds with
  | some (lo, hi) => some (lo ⊓ p, hi ⊔ p)
  | none => some (p, p)

def mark (pen : WholePen) (colorNumber : UInt8) (effects : Effects) : WholePen :=
  let start := pen.position
  let stop := if effects.contains .move then start + pen.direction else start
  if effects.contains .paint then
    { pen with
      position := stop
      segments := pen.segments ++ [⟨start, stop, colorNumber⟩]
      bounds := cover (cover pen.bounds start) stop }
  else { pen with position := stop }

def pop (pen : WholePen) : WholePen :=
  match pen.saved with
  | (position, direction) :: saved => { pen with position, direction, saved }
  | [] => pen

def step (pen : WholePen) : Action → WholePen
  | .turn _ rotation => { pen with direction := rotation.applyWhole pen.direction }
  | .push _ => { pen with saved := (pen.position, pen.direction) :: pen.saved }
  | .pop => pen.pop
  | .literal _ colorNumber effects _ => pen.mark colorNumber effects

def start (startAngle : Float) (stepSize : ℤ) : WholePen where
  direction := (Rotation.ofDegrees startAngle).applyWhole (stepSize, 0)

/-- The end points of the segments, in order. -/
def ends (pen : WholePen) : List (ℤ × ℤ) :=
  pen.segments.flatMap fun s => [s.start, s.stop]

end WholePen

namespace Alphabet

def stepWhole (a : Alphabet) (pen : WholePen) (id : SymbolId) : WholePen :=
  match a.actions[id]? with
  | some action => pen.step action
  | none => pen

def walkWhole (a : Alphabet) (pen : WholePen) (word : Word) : WholePen :=
  word.foldl a.stepWhole pen

end Alphabet

/-! ## Whole numbers -/

namespace Number

/-- Being the double for a whole number that is no larger than `reach`. -/
structure IsWhole (reach : ℤ) (x : Float) (n : ℤ) : Prop where
  denotes : Denotes x n
  within : |n| ≤ reach

section

variable {reach reach' : ℤ} {x y : Float} {m n : ℤ}

theorem isWhole_zero : IsWhole 0 0 0 where
  denotes := by
    rw [Int.cast_zero]
    exact denotes_zero .positive
  within := le_of_eq abs_zero

theorem isWhole_ofInt (h : |n| ≤ 2 ^ 53) : IsWhole (2 ^ 53) (Float.ofInt n) n :=
  ⟨denotes_ofInt h, h⟩

theorem IsWhole.mono (h : IsWhole reach x n) (hle : reach ≤ reach') : IsWhole reach' x n :=
  ⟨h.denotes, h.within.trans hle⟩

theorem IsWhole.beq_iff (hx : IsWhole reach x m) (hy : IsWhole reach' y n) :
    (x == y) = true ↔ m = n := by
  rw [hx.denotes.beq_iff hy.denotes, Int.cast_inj]

theorem IsWhole.add (hx : IsWhole reach x m) (hy : IsWhole reach' y n)
    (hroom : reach + reach' ≤ 2 ^ 53) : IsWhole (reach + reach') (x + y) (m + n) := by
  have hsum : |m + n| ≤ reach + reach' := (abs_add_le m n).trans (add_le_add hx.within hy.within)
  refine ⟨?_, hsum⟩
  rw [Int.cast_add]
  refine hx.denotes.add hy.denotes ?_
  rw [← Int.cast_add]
  exact representable_intCast (hsum.trans hroom)

theorem IsWhole.least (hx : IsWhole reach x m) (hy : IsWhole reach y n) :
    IsWhole reach (Number.least x y) (m ⊓ n) where
  denotes := by
    rw [Int.cast_min]
    exact hx.denotes.least hy.denotes
  within := (abs_min_le_max_abs_abs).trans (max_le hx.within hy.within)

theorem IsWhole.greatest (hx : IsWhole reach x m) (hy : IsWhole reach y n) :
    IsWhole reach (Number.greatest x y) (m ⊔ n) where
  denotes := by
    rw [Int.cast_max]
    exact hx.denotes.greatest hy.denotes
  within := (abs_max_le_max_abs_abs).trans (max_le hx.within hy.within)

theorem IsWhole.mul_by_one (h : (y == 1) = true) (hx : IsWhole reach x n) :
    IsWhole reach (x * y) n := by
  have hproduct := hx.denotes.mul (denotes_one.of_beq h)
  rw [mul_one] at hproduct
  exact ⟨hproduct ⟨x, hx.denotes⟩, hx.within⟩

end

end Number

/-! ## Points of the lattice -/

/-- The point with the given whole coordinates, rounded if there is no such double. -/
def Point.ofWhole (v : ℤ × ℤ) : Point := ⟨.ofInt v.1, .ofInt v.2⟩

/-- Being a point of the lattice whose coordinates are no larger than `reach`. -/
structure Point.IsWhole (reach : ℤ) (p : Point) (v : ℤ × ℤ) : Prop where
  x : Number.IsWhole reach p.x v.1
  y : Number.IsWhole reach p.y v.2

namespace Point.IsWhole

variable {reach reach' : ℤ} {p q : Point} {v w : ℤ × ℤ}

theorem mono (h : p.IsWhole reach v) (hle : reach ≤ reach') : p.IsWhole reach' v :=
  ⟨h.x.mono hle, h.y.mono hle⟩

theorem same_ofWhole (h : p.IsWhole (2 ^ 53) v) : p.same (Point.ofWhole v) = true := by
  rw [same, Bool.and_eq_true]
  exact ⟨(h.x.beq_iff (isWhole_ofInt h.x.within)).2 rfl,
    (h.y.beq_iff (isWhole_ofInt h.y.within)).2 rfl⟩

theorem add (hp : p.IsWhole reach v) (hq : q.IsWhole reach' w)
    (hroom : reach + reach' ≤ 2 ^ 53) : (p + q).IsWhole (reach + reach') (v + w) :=
  ⟨hp.x.add hq.x hroom, hp.y.add hq.y hroom⟩

theorem least (hp : p.IsWhole reach v) (hq : q.IsWhole reach w) :
    (p.least q).IsWhole reach (v ⊓ w) :=
  ⟨hp.x.least hq.x, hp.y.least hq.y⟩

theorem greatest (hp : p.IsWhole reach v) (hq : q.IsWhole reach w) :
    (p.greatest q).IsWhole reach (v ⊔ w) :=
  ⟨hp.x.greatest hq.x, hp.y.greatest hq.y⟩

theorem scale {factor : Float} (h : (factor == 1) = true) (hp : p.IsWhole reach v) :
    (p.scale factor).IsWhole reach v :=
  ⟨hp.x.mul_by_one h, hp.y.mul_by_one h⟩

theorem apply {r : Rotation} (hr : r.isQuarter = true) (hp : p.IsWhole reach v) :
    (r.apply p).IsWhole reach (r.applyWhole v) := by
  obtain ⟨hx, hy⟩ := Rotation.denotes_apply hr hp.x.denotes hp.y.denotes
  have hwithin : ∀ y {n : ℤ}, |n| ≤ reach → |unit y * n| ≤ reach := fun y n hn =>
    (abs_unit_mul_le y n).trans hn
  refine ⟨⟨by exact_mod_cast hx, ?_⟩, ⟨by exact_mod_cast hy, ?_⟩⟩ <;>
    rcases (Rotation.units_of_isQuarter hr).2.2 with h | h <;>
    simp only [Rotation.applyWhole, h, zero_mul, zero_sub, sub_zero, zero_add, add_zero, abs_neg]
  · exact hwithin _ hp.y.within
  · exact hwithin _ hp.x.within
  · exact hwithin _ hp.x.within
  · exact hwithin _ hp.y.within

end Point.IsWhole

theorem Point.isWhole_origin : Point.origin.IsWhole 0 0 := ⟨isWhole_zero, isWhole_zero⟩

/-! ## Turtles in step -/

/-- Being the same segment. -/
structure Segment.IsWhole (reach : ℤ) (s : Segment) (t : WholeSegment) : Prop where
  start : s.line.start.IsWhole reach t.start
  stop : s.line.stop.IsWhole reach t.stop
  colorNumber : s.colorNumber = t.colorNumber

/-- Being the same box. -/
def Rect.IsWhole (reach : ℤ) (r : Rect) (box : (ℤ × ℤ) × (ℤ × ℤ)) : Prop :=
  r.origin.IsWhole reach box.1 ∧ r.lowerRight.IsWhole reach box.2

/-- Being the same place with the same direction, where a step is no longer than `stride`. -/
def PlaceIsWhole (reach stride : ℤ) (t : Point × Point) (w : (ℤ × ℤ) × (ℤ × ℤ)) : Prop :=
  t.1.IsWhole reach w.1 ∧ t.2.IsWhole stride w.2

/-- The invariant that keeps the two turtles in step. -/
structure Pen.IsWhole (reach stride : ℤ) (pen : Pen) (w : WholePen) : Prop where
  place : PlaceIsWhole reach stride (pen.turtle.position, pen.turtle.direction)
    (w.position, w.direction)
  saved : List.Forall₂ (PlaceIsWhole reach stride) pen.turtle.saved w.saved
  segments : List.Forall₂ (Segment.IsWhole reach) pen.drawing.segments.toList w.segments
  bounds : Option.Rel (Rect.IsWhole reach) pen.drawing.bounds w.bounds

theorem rel_imp {α β : Type} {R S : α → β → Prop} (h : ∀ a b, R a b → S a b) {x : Option α}
    {y : Option β} (hxy : Option.Rel R x y) : Option.Rel S x y := by
  cases hxy with
  | none => exact .none
  | some hab => exact .some (h _ _ hab)

theorem cover_isWhole {reach : ℤ} {bounds : Option Rect} {box : Option ((ℤ × ℤ) × (ℤ × ℤ))}
    (h : Option.Rel (Rect.IsWhole reach) bounds box) {p : Point} {v : ℤ × ℤ}
    (hp : p.IsWhole reach v) :
    Option.Rel (Rect.IsWhole reach) (Drawing.cover bounds p) (WholePen.cover box v) := by
  cases h with
  | none =>
      have hleast := hp.least hp
      have hgreatest := hp.greatest hp
      rw [inf_idem] at hleast
      rw [sup_idem] at hgreatest
      exact .some ⟨hleast, hgreatest⟩
  | some hr => exact .some ⟨hr.1.least hp, hr.2.greatest hp⟩

namespace Pen.IsWhole

variable {reach reach' stride : ℤ} {pen : Pen} {w : WholePen}

theorem mono (h : pen.IsWhole reach stride w) (hle : reach ≤ reach') :
    pen.IsWhole reach' stride w where
  place := ⟨h.place.1.mono hle, h.place.2⟩
  saved := h.saved.imp fun _ _ hplace => ⟨hplace.1.mono hle, hplace.2⟩
  segments := h.segments.imp fun _ _ hs => ⟨hs.start.mono hle, hs.stop.mono hle, hs.colorNumber⟩
  bounds := rel_imp (fun _ _ hr => ⟨hr.1.mono hle, hr.2.mono hle⟩) h.bounds

theorem pop (h : pen.IsWhole reach stride w) : pen.pop.IsWhole reach stride w.pop := by
  have hsaved := h.saved
  rw [Pen.pop, WholePen.pop]
  generalize pen.turtle.saved = saved at hsaved ⊢
  generalize w.saved = savedWhole at hsaved ⊢
  cases hsaved with
  | nil => exact ⟨h.place, h.saved, h.segments, h.bounds⟩
  | cons hplace hrest => exact ⟨hplace, hrest, h.segments, h.bounds⟩

/-- Moving is what takes the turtle farther away. -/
theorem mark (h : pen.IsWhole reach stride w) (hstride : 0 ≤ stride)
    (hroom : reach + stride ≤ 2 ^ 53) (colorNumber : UInt8) (effects : Effects) :
    (pen.mark colorNumber effects).IsWhole (reach + stride) stride
      (w.mark colorNumber effects) := by
  have hfarther : reach ≤ reach + stride := le_add_of_nonneg_right hstride
  have h' := h.mono hfarther
  simp only [Pen.mark, WholePen.mark]
  generalize hstop : (if effects.contains .move = true then
    pen.turtle.position + pen.turtle.direction else pen.turtle.position) = stop
  generalize hstop' : (if effects.contains .move = true then
    w.position + w.direction else w.position) = stop'
  have hmoved : stop.IsWhole (reach + stride) stop' := by
    rw [← hstop, ← hstop']
    split
    · exact h.place.1.add h.place.2 hroom
    · exact h'.place.1
  split
  · refine ⟨⟨hmoved, h.place.2⟩, h'.saved, ?_, ?_⟩
    · rw [Drawing.paint, Array.toList_push]
      exact List.rel_append h'.segments (.cons ⟨h'.place.1, hmoved, rfl⟩ .nil)
    · exact cover_isWhole (cover_isWhole h'.bounds h'.place.1) hmoved
  · exact ⟨⟨hmoved, h.place.2⟩, h'.saved, h'.segments, h'.bounds⟩

theorem step (h : pen.IsWhole reach stride w) (hstride : 0 ≤ stride)
    (hroom : reach + stride ≤ 2 ^ 53) {action : Action} (haction : action.isWhole = true) :
    (pen.step action).IsWhole (reach + stride) stride (w.step action) := by
  have h' := h.mono (le_add_of_nonneg_right hstride : reach ≤ reach + stride)
  cases action with
  | turn symbol rotation =>
      exact ⟨⟨h'.place.1, h.place.2.apply haction⟩, h'.saved, h'.segments, h'.bounds⟩
  | push factor =>
      exact ⟨⟨h'.place.1, h.place.2.scale haction⟩, .cons h'.place h'.saved, h'.segments,
        h'.bounds⟩
  | pop => exact h'.pop
  | literal symbol colorNumber effects successor => exact h.mark hstride hroom colorNumber effects

end Pen.IsWhole

namespace Alphabet

variable {a : Alphabet} {reach stride : ℤ} {pen : Pen} {w : WholePen}

theorem isWhole_stepSymbol (ha : a.isWhole = true) (h : pen.IsWhole reach stride w)
    (hstride : 0 ≤ stride) (hroom : reach + stride ≤ 2 ^ 53) (id : SymbolId) :
    (a.stepSymbol pen id).IsWhole (reach + stride) stride (a.stepWhole w id) := by
  rw [stepSymbol, stepWhole]
  cases hid : a.actions[id]? with
  | none => exact h.mono (le_add_of_nonneg_right hstride)
  | some action =>
      exact h.step hstride hroom (Array.all_eq_true'.1 ha action (Array.mem_of_getElem? hid))

theorem isWhole_walk (ha : a.isWhole = true) (h : pen.IsWhole reach stride w)
    (hstride : 0 ≤ stride) (word : Word) (hroom : reach + word.size * stride ≤ 2 ^ 53) :
    (a.walk pen word).IsWhole (reach + word.size * stride) stride (a.walkWhole w word) := by
  rw [walk, walkWhole, ← Array.foldl_toList, ← Array.foldl_toList]
  rw [← Array.length_toList] at hroom ⊢
  generalize word.toList = ids at hroom ⊢
  induction ids generalizing pen w reach with
  | nil =>
      refine h.mono (le_of_eq ?_)
      rw [List.length_nil, Nat.cast_zero, zero_mul, add_zero]
  | cons id ids ih =>
      have hlength : reach + (id :: ids).length * stride =
          reach + stride + ids.length * stride := by
        rw [List.length_cons, Nat.cast_succ]
        ring
      rw [hlength] at hroom ⊢
      have hstep : reach + stride ≤ 2 ^ 53 :=
        le_trans (le_add_of_nonneg_right (by positivity)) hroom
      exact ih (isWhole_stepSymbol ha h hstride hstep id) hroom

theorem isWhole_start {startAngle stepSize : Float} {s : ℤ}
    (hstart : (Rotation.ofDegrees startAngle).isQuarter = true) (hstep : Denotes stepSize s) :
    (Pen.start startAngle stepSize).IsWhole 0 |s| (.start startAngle s) where
  place := by
    have hstepSize : Number.IsWhole |s| stepSize s := ⟨hstep, le_rfl⟩
    have hdirection : Point.IsWhole |s| ⟨stepSize, 0⟩ (s, 0) :=
      ⟨hstepSize, isWhole_zero.mono (abs_nonneg s)⟩
    exact ⟨Point.isWhole_origin, hdirection.apply hstart⟩
  saved := .nil
  segments := .nil
  bounds := .none

end Alphabet

/-! ## The drawing in whole numbers -/

/-- Being equal to a point of the lattice, in what is denoted and numerically. -/
structure Point.Equals (p : Point) (v : ℤ × ℤ) : Prop where
  x : Denotes p.x v.1
  y : Denotes p.y v.2
  same : p.same (.ofWhole v) = true

structure Segment.Equals (s : Segment) (t : WholeSegment) : Prop where
  start : s.line.start.Equals t.start
  stop : s.line.stop.Equals t.stop
  colorNumber : s.colorNumber = t.colorNumber

structure Rect.Equals (r : Rect) (box : (ℤ × ℤ) × (ℤ × ℤ)) : Prop where
  origin : r.origin.Equals box.1
  lowerRight : r.lowerRight.Equals box.2

theorem Point.IsWhole.equals {p : Point} {v : ℤ × ℤ} (h : p.IsWhole (2 ^ 53) v) : p.Equals v :=
  ⟨h.x.denotes, h.y.denotes, h.same_ofWhole⟩

/-- Points coincide numerically if and only if they are the same point of the lattice. -/
theorem Point.Equals.same_iff {p q : Point} {v w : ℤ × ℤ} (hp : p.Equals v) (hq : q.Equals w) :
    p.same q = true ↔ v = w := by
  rw [Point.same, Bool.and_eq_true, hp.x.beq_iff hq.x, hp.y.beq_iff hq.y, Int.cast_inj,
    Int.cast_inj, Prod.ext_iff]

namespace Pen.IsWhole

variable {stride : ℤ} {pen : Pen} {w : WholePen}

theorem segments_finish (h : pen.IsWhole (2 ^ 53) stride w) :
    List.Forall₂ Segment.Equals pen.finish.segments.toList w.segments := by
  have hsegments := h.segments.imp fun _ _ hs =>
    Segment.Equals.mk hs.start.equals hs.stop.equals hs.colorNumber
  rw [finish]
  split
  · exact hsegments
  · exact hsegments

theorem bounds_finish (h : pen.IsWhole (2 ^ 53) stride w) :
    Option.Rel Rect.Equals pen.finish.bounds w.bounds := by
  have hfinish : pen.finish.bounds = pen.drawing.bounds := by
    rw [finish]
    split <;> rfl
  rw [hfinish]
  exact rel_imp (fun _ _ hr => ⟨hr.1.equals, hr.2.equals⟩) h.bounds

theorem ends_finish (h : pen.IsWhole (2 ^ 53) stride w) :
    List.Forall₂ Point.Equals pen.finish.ends w.ends :=
  List.rel_flatMap h.segments_finish fun _ _ hs => .cons hs.start (.cons hs.stop .nil)

end Pen.IsWhole

namespace Alphabet

/-- On the lattice the turtle is exact. The drawing is the one in whole numbers. Two words lead
to the same place numerically if and only if they do so in whole numbers, and the same holds
for any two end points of their drawings. So the turtle is back at the origin if and only if
it is so in whole numbers. -/
theorem drawn_exactly (a : Alphabet) (ha : a.isWhole = true) {startAngle stepSize : Float} {s : ℤ}
    (hstart : (Rotation.ofDegrees startAngle).isQuarter = true) (hstep : Denotes stepSize s)
    (word : Word) (hroom : word.size * |s| ≤ 2 ^ 53) :
    let pen := a.walk (.start startAngle stepSize) word
    let d := a.draw word startAngle stepSize
    let w := a.walkWhole (.start startAngle s) word
    List.Forall₂ Segment.Equals d.segments.toList w.segments ∧
    Option.Rel Rect.Equals d.bounds w.bounds ∧
    (∀ word' : Word, word'.size * |s| ≤ 2 ^ 53 →
      let pen' := a.walk (.start startAngle stepSize) word'
      let d' := a.draw word' startAngle stepSize
      let w' := a.walkWhole (.start startAngle s) word'
      (pen.turtle.position.same pen'.turtle.position = true ↔ w.position = w'.position) ∧
      ∀ e ∈ d.ends.zip w.ends, ∀ e' ∈ d'.ends.zip w'.ends,
        (e.1.same e'.1 = true ↔ e.2 = e'.2)) ∧
    (pen.turtle.position.same .origin = true ↔ w.position = 0) := by
  intro pen d w
  have hrun : ∀ word' : Word, word'.size * |s| ≤ 2 ^ 53 →
      (a.walk (.start startAngle stepSize) word').IsWhole (2 ^ 53) |s|
        (a.walkWhole (.start startAngle s) word') := by
    intro word' hroom'
    rw [← zero_add (_ * _)] at hroom'
    exact (isWhole_walk ha (isWhole_start hstart hstep) (abs_nonneg s) word' hroom').mono hroom'
  have h := hrun word hroom
  refine ⟨h.segments_finish, h.bounds_finish, fun word' hroom' => ⟨?_, ?_⟩, ?_⟩
  · exact h.place.1.equals.same_iff (hrun word' hroom').place.1.equals
  · intro e he e' he'
    have hends := List.forall₂_zip h.ends_finish he
    exact hends.same_iff (List.forall₂_zip (hrun word' hroom').ends_finish he')
  · have horigin := Point.isWhole_origin.mono (by decide : (0 : ℤ) ≤ 2 ^ 53)
    exact h.place.1.equals.same_iff horigin.equals

/-- A square, drawn by turning left three times. -/
theorem drawn_exactly_square :
    let a : Alphabet := ⟨#[.turn '+' ⟨0, 1⟩, .turn '-' ⟨0, -1⟩, .push 1, .pop,
      .literal 'A' 0 (.union .paint .move) #[4, 0, 4]], 4, #[.black]⟩
    a.isWhole = true ∧ (Rotation.ofDegrees 0).isQuarter = true ∧ Denotes 1 (1 : ℤ) ∧
      (a.walk (.start 0 1) #[4, 0, 4, 0, 4, 0, 4]).turtle.position.same .origin = true := by
  intro a
  have ha : a.isWhole = true := by decide +kernel
  have hstart : (Rotation.ofDegrees 0).isQuarter = true := by decide +kernel
  have hstep : Denotes 1 (1 : ℤ) := by
    rw [Int.cast_one]
    exact denotes_one
  obtain ⟨-, -, -, hclosed⟩ :=
    drawn_exactly a ha hstart hstep #[4, 0, 4, 0, 4, 0, 4] (by decide)
  exact ⟨ha, hstart, hstep, hclosed.2 (by decide +kernel)⟩

end Alphabet

end Lindenmayer
