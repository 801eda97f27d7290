import Lindenmayer.Proofs.Generations
import Lindenmayer.Simulator

/-!
# Alphabets that correspond draw the same

The names of symbols and the numbers of colors are only places in tables. Two alphabets
with different tables correspond to each other if the names of one can be matched with
names of the other such that the start symbols match, the successors of matching names
match name by name, and the actions do the same to a turtle. Their literals may have
different numbers for one color.

Rewriting keeps words matched, and lengths are all that a bound looks at, so matching
expansions go on and stop together. The turtles that follow them are in the same state
after every symbol, and the segments they leave behind are the same lines in the same
colors.
-/

namespace Lindenmayer

/-- Having one color, each number in its own table. -/
def SameColor (colors colors' : Array Color) (n n' : UInt8) : Prop :=
  ∃ color, colors[n.toNat]? = some color ∧ colors'[n'.toNat]? = some color

/-- Being the same line in the same color. -/
structure Segment.LooksLike (colors colors' : Array Color) (s s' : Segment) : Prop where
  line : s.line = s'.line
  color : SameColor colors colors' s.colorNumber s'.colorNumber

/-- Doing the same to a turtle that has these colors. -/
inductive Action.ActsLike (colors colors' : Array Color) : Action → Action → Prop
  | turn (symbol symbol' : Char) (rotation : Rotation) :
      ActsLike colors colors' (.turn symbol rotation) (.turn symbol' rotation)
  | push (factor : Float) : ActsLike colors colors' (.push factor) (.push factor)
  | pop : ActsLike colors colors' .pop .pop
  | literal (symbol symbol' : Char) {n n' : UInt8} (h : SameColor colors colors' n n')
      (effects : Effects) (successor successor' : Word) :
      ActsLike colors colors' (.literal symbol n effects successor)
        (.literal symbol' n' effects successor')

/-- Matching the names of two alphabets so that rewriting and drawing respect it. -/
structure Alphabet.Corresponds (R : SymbolId → SymbolId → Prop) (a a' : Alphabet) : Prop where
  start : R a.start a'.start
  replacement : ∀ id id', R id id' → List.Forall₂ R (a.replacement id) (a'.replacement id')
  actions : ∀ id id', R id id' →
    Option.Rel (Action.ActsLike a.colors a'.colors) a.actions[id]? a'.actions[id']?

/-- Having gone the same way, with words that match. -/
structure Expansion.Corresponds (R : SymbolId → SymbolId → Prop) (e e' : Expansion) : Prop where
  word : List.Forall₂ R e.word.toList e'.word.toList
  iterations : e.iterations = e'.iterations
  exceeded : e.exceeded = e'.exceeded
  previous : Option.Rel (fun w w' : Word => List.Forall₂ R w.toList w'.toList)
    e.previous e'.previous

/-- Showing the same, with the colors of each looked up in its own table. -/
structure Drawing.LooksLike (colors colors' : Array Color) (d d' : Drawing) : Prop where
  segments : List.Forall₂ (Segment.LooksLike colors colors') d.segments.toList d'.segments.toList
  bounds : d.bounds = d'.bounds
  anomalies : d.anomalies = d'.anomalies

structure Pen.LooksLike (colors colors' : Array Color) (pen pen' : Pen) : Prop where
  turtle : pen.turtle = pen'.turtle
  drawing : pen.drawing.LooksLike colors colors' pen'.drawing

/-- Answering the same, with the colors of each looked up in its own table. -/
structure Result.LooksLike (r r' : Result) : Prop where
  outcome : r.outcome = r'.outcome
  iterations : r.iterations = r'.iterations
  bounds : r.bounds = r'.bounds
  anomalies : r.anomalies = r'.anomalies
  segments : List.Forall₂ (Segment.LooksLike r.colors r'.colors) r.segments.toList
    r'.segments.toList
  previousSegments : Option.Rel
    (fun ss ss' : Array Segment =>
      List.Forall₂ (Segment.LooksLike r.colors r'.colors) ss.toList ss'.toList)
    r.previousSegments r'.previousSegments

/-! ## Expansions -/

namespace Alphabet.Corresponds

variable {R : SymbolId → SymbolId → Prop} {a a' : Alphabet}

theorem generationOf (h : a.Corresponds R a') (n : Nat) :
    List.Forall₂ R (a.generationOf n) (a'.generationOf n) :=
  forall₂_generation h.replacement (.cons h.start .nil) n

theorem keptAt (h : a.Corresponds R a') (keepPrevious : Bool) (n k : Nat) :
    Option.Rel (fun w w' : Word => List.Forall₂ R w.toList w'.toList)
      (a.keptAt keepPrevious n k) (a'.keptAt keepPrevious n k) := by
  rw [Alphabet.keptAt, Alphabet.keptAt]
  split
  · exact .some (h.generationOf (k - 1))
  · exact .none

theorem expand (h : a.Corresponds R a') (n bound : Nat) (keepPrevious : Bool) :
    (a.expand n bound keepPrevious).Corresponds R (a'.expand n bound keepPrevious) := by
  -- A bound looks at lengths only, and words that match are of one length.
  have hfits : ∀ k, Fits a.replacement bound (a.generationOf k) ↔
      Fits a'.replacement bound (a'.generationOf k) :=
    fun k => fits_iff_of_forall₂ h.replacement (h.generationOf k) bound
  obtain ⟨hfit, hexpand⟩ | ⟨k, hk, m, hfit, hcut, hexpand⟩ := a.expand_cases n bound keepPrevious
  · rw [hexpand, expand_of_fits keepPrevious fun k hk => (hfits k).1 (hfit k hk)]
    exact ⟨h.generationOf n, rfl, rfl, h.keptAt keepPrevious n n⟩
  · have hcut' := (cutAt_iff_of_forall₂ h.replacement (h.generationOf k) bound m).1 hcut
    rw [hexpand, expand_of_cut keepPrevious hk (fun i hi => (hfits i).1 (hfit i hi)) hcut']
    have hword := List.rel_flatMap (List.forall₂_take m (h.generationOf k))
      fun {id id'} => h.replacement id id'
    exact ⟨hword, rfl, rfl, h.keptAt keepPrevious n (k + 1)⟩

end Alphabet.Corresponds

/-! ## Drawings -/

section

variable {colors colors' : Array Color}

theorem Drawing.LooksLike.note {d d' : Drawing} (h : d.LooksLike colors colors' d')
    (anomaly : Anomalies) : (d.note anomaly).LooksLike colors colors' (d'.note anomaly) :=
  ⟨h.segments, h.bounds, congrArg (Anomalies.union · anomaly) h.anomalies⟩

theorem Drawing.LooksLike.paint {d d' : Drawing} (h : d.LooksLike colors colors' d')
    (start stop : Point) {n n' : UInt8} (hcolor : SameColor colors colors' n n') :
    (d.paint start stop n).LooksLike colors colors' (d'.paint start stop n') := by
  refine ⟨?_, congrArg (fun b => cover (cover b start) stop) h.bounds, h.anomalies⟩
  simp only [Drawing.paint, Array.toList_push]
  exact List.rel_append h.segments (.cons ⟨rfl, hcolor⟩ .nil)

namespace Pen.LooksLike

theorem start (startAngle stepSize : Float) :
    (Pen.start startAngle stepSize).LooksLike colors colors' (.start startAngle stepSize) :=
  ⟨rfl, .nil, rfl, rfl⟩

theorem pop {pen pen' : Pen} (h : pen.LooksLike colors colors' pen') :
    pen.pop.LooksLike colors colors' pen'.pop := by
  rw [Pen.pop, Pen.pop, ← h.turtle]
  split
  · exact ⟨rfl, h.drawing⟩
  · exact ⟨rfl, h.drawing.note _⟩

theorem mark {pen pen' : Pen} (h : pen.LooksLike colors colors' pen') {n n' : UInt8}
    (hcolor : SameColor colors colors' n n') (effects : Effects) :
    (pen.mark n effects).LooksLike colors colors' (pen'.mark n' effects) := by
  simp only [Pen.mark, ← h.turtle]
  refine ⟨rfl, ?_⟩
  show Drawing.LooksLike _ _ (if _ then _ else _) (if _ then _ else _)
  split
  · exact h.drawing.paint _ _ hcolor
  · exact h.drawing

theorem step {pen pen' : Pen} (h : pen.LooksLike colors colors' pen') {x x' : Action}
    (hx : x.ActsLike colors colors' x') :
    (pen.step x).LooksLike colors colors' (pen'.step x') := by
  cases hx with
  | turn symbol symbol' rotation =>
      exact ⟨by simp only [Pen.step, Pen.turn, h.turtle], h.drawing⟩
  | push factor => exact ⟨by simp only [Pen.step, Pen.push, h.turtle], h.drawing⟩
  | pop => exact h.pop
  | literal symbol symbol' hcolor effects successor successor' => exact h.mark hcolor effects

theorem finish {pen pen' : Pen} (h : pen.LooksLike colors colors' pen') :
    pen.finish.LooksLike colors colors' pen'.finish := by
  rw [Pen.finish, Pen.finish, ← h.turtle]
  split
  · exact h.drawing
  · exact h.drawing.note _

end Pen.LooksLike

end

namespace Alphabet.Corresponds

variable {R : SymbolId → SymbolId → Prop} {a a' : Alphabet}

theorem stepSymbol (h : a.Corresponds R a') {pen pen' : Pen}
    (hpen : pen.LooksLike a.colors a'.colors pen') {id id' : SymbolId} (hid : R id id') :
    (a.stepSymbol pen id).LooksLike a.colors a'.colors (a'.stepSymbol pen' id') := by
  have hact := h.actions id id' hid
  rw [Alphabet.stepSymbol, Alphabet.stepSymbol]
  generalize a.actions[id]? = x at *
  generalize a'.actions[id']? = x' at *
  cases hact with
  | none => exact hpen
  | some hx => exact hpen.step hx

theorem walk (h : a.Corresponds R a') {ids ids' : List SymbolId} (hids : List.Forall₂ R ids ids')
    {pen pen' : Pen} (hpen : pen.LooksLike a.colors a'.colors pen') :
    (ids.foldl a.stepSymbol pen).LooksLike a.colors a'.colors (ids'.foldl a'.stepSymbol pen') := by
  induction hids generalizing pen pen' with
  | nil => exact hpen
  | cons hid _ ih => exact ih (h.stepSymbol hpen hid)

theorem draw (h : a.Corresponds R a') {word word' : Word}
    (hword : List.Forall₂ R word.toList word'.toList) (startAngle stepSize : Float) :
    (a.draw word startAngle stepSize).LooksLike a.colors a'.colors
      (a'.draw word' startAngle stepSize) := by
  rw [Alphabet.draw, Alphabet.draw, Alphabet.walk, Alphabet.walk, ← Array.foldl_toList,
    ← Array.foldl_toList]
  exact (h.walk hword (.start startAngle stepSize)).finish

/-- Two configurations that differ in their definitions only have results that look the
same if their alphabets correspond. -/
theorem render (h : a.Corresponds R a') (config : Config) (definitions : List Definition)
    (bound : Nat) (keepPrevious : Bool) :
    (Simulator.render a config bound keepPrevious).1.LooksLike
      (Simulator.render a' { config with definitions } bound keepPrevious).1 := by
  have hexpand := h.expand config.iterations.toNat bound keepPrevious
  have hdraw := h.draw hexpand.word config.startAngle config.stepSize
  refine ⟨?_, hexpand.iterations, hdraw.bounds, hdraw.anomalies, hdraw.segments, ?_⟩
  · simp only [Simulator.render, hexpand.exceeded]
  · simp only [Simulator.render]
    have hprevious := hexpand.previous
    generalize (a.expand _ _ _).previous = w at hprevious ⊢
    generalize (a'.expand _ _ _).previous = w' at hprevious ⊢
    cases hprevious with
    | none => exact .none
    | some hword => exact .some (h.draw hword config.startAngle config.stepSize).segments

end Alphabet.Corresponds

end Lindenmayer
