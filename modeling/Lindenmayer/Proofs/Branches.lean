import Lindenmayer.Proofs.Nesting

/-!
# A branch leaves the turtle where it was

A push puts the turtle aside as it is, and the pop that belongs to it brings back the
copy. Nothing is undone by calculation, so the factor of the push and the turns of the
branch may be anything, numbers or not.

It has to be shown that the copy is still the last one when the pop comes. A word that
never closes more than it has opened only ever takes back what it put aside itself. At
any time the places from before lie untouched below as many new ones as there are
brackets open, and at the end of a nested word there are no new ones.

From then on a turtle that has gone through a branch and one that has left it out are
the same. What they paint is the same too, since a drawing has no influence on where a
turtle goes.
-/

namespace Lindenmayer

/-! ## Turtles that are the same -/

/-- Having the same turtle and the same notes, and having painted the same segments since
the one had painted `before` and the other `before'`. -/
structure Pen.Abreast (before before' : List Segment) (p q : Pen) : Prop where
  turtle : p.turtle = q.turtle
  anomalies : p.drawing.anomalies = q.drawing.anomalies
  segments : ∃ since, p.drawing.segments.toList = before ++ since ∧
    q.drawing.segments.toList = before' ++ since

namespace Pen

variable {before before' : List Segment} {p q : Pen}

theorem Abreast.pop (h : Abreast before before' p q) : Abreast before before' p.pop q.pop := by
  have hturtle := h.turtle
  cases hsaved : p.turtle.saved with
  | nil =>
      rw [pop_of_empty hsaved, pop_of_empty (hturtle ▸ hsaved)]
      exact ⟨hturtle, congrArg (Anomalies.union · .popOnEmptyStack) h.anomalies, h.segments⟩
  | cons top rest =>
      rw [pop_of_saved hsaved, pop_of_saved (hturtle ▸ hsaved)]
      exact ⟨rfl, h.anomalies, h.segments⟩

theorem Abreast.mark (h : Abreast before before' p q) (colorNumber : UInt8) (effects : Effects) :
    Abreast before before' (p.mark colorNumber effects) (q.mark colorNumber effects) := by
  obtain ⟨since, hp, hq⟩ := h.segments
  refine ⟨by simp only [Pen.mark, h.turtle], ?_, ?_⟩
  · rw [anomalies_mark, anomalies_mark, h.anomalies]
  · simp only [Pen.mark, h.turtle]
    generalize (if effects.contains .move = true then q.turtle.position + q.turtle.direction
      else q.turtle.position) = stop
    split
    · refine ⟨since ++ [⟨⟨q.turtle.position, stop⟩, colorNumber⟩], ?_, ?_⟩
      · rw [← List.append_assoc, ← hp, Drawing.paint, Array.toList_push]
      · rw [← List.append_assoc, ← hq, Drawing.paint, Array.toList_push]
    · exact ⟨since, hp, hq⟩

theorem Abreast.step (h : Abreast before before' p q) (action : Action) :
    Abreast before before' (p.step action) (q.step action) := by
  cases action with
  | turn symbol rotation =>
      exact ⟨by simp only [Pen.step, turn, h.turtle], h.anomalies, h.segments⟩
  | push factor => exact ⟨by simp only [Pen.step, push, h.turtle], h.anomalies, h.segments⟩
  | pop => exact h.pop
  | literal symbol colorNumber effects successor => exact h.mark colorNumber effects

theorem Abreast.walk (h : Abreast before before' p q) (a : Alphabet) (word : Word) :
    Abreast before before' (a.walk p word) (a.walk q word) := by
  rw [Alphabet.walk, Alphabet.walk, ← Array.foldl_toList, ← Array.foldl_toList]
  generalize word.toList = ids
  induction ids generalizing p q with
  | nil => exact h
  | cons id ids ih =>
      refine ih ?_
      rw [Alphabet.stepSymbol, Alphabet.stepSymbol]
      split
      · exact h.step _
      · exact h

theorem Abreast.anomalies_finish (h : Abreast before before' p q) :
    p.finish.anomalies = q.finish.anomalies := by
  rw [finish, finish, h.turtle]
  split
  · exact h.anomalies
  · exact congrArg (Anomalies.union · .pushNeverPopped) h.anomalies

end Pen

namespace Alphabet

variable {a : Alphabet}

theorem walk_append (pen : Pen) (u v : Word) : a.walk pen (u ++ v) = a.walk (a.walk pen u) v :=
  Array.foldl_append

/-! ## Branches -/

theorem walk_opening {opening : SymbolId} (h : a.opens opening = true) :
    ∃ factor, ∀ pen, a.walk pen #[opening] = pen.push factor := by
  rw [opens] at h
  split at h
  · next factor hid =>
      refine ⟨factor, fun pen => ?_⟩
      show a.stepSymbol pen opening = _
      rw [stepSymbol, hid]
      rfl
  · cases h

theorem walk_closing {closing : SymbolId} (h : a.closes closing = true) (pen : Pen) :
    a.walk pen #[closing] = pen.pop := by
  rw [closes] at h
  split at h
  · next hid =>
      show a.stepSymbol pen closing = _
      rw [stepSymbol, hid]
      rfl
  · cases h

/-- Places put aside by a word lie above those from before, one for each bracket that is
open. No pop goes below them, so none is noted. -/
theorem saved_walk (pen : Pen) {word : List SymbolId} (hword : ¬ a.Underflows word) :
    ∃ above, (a.walk pen word.toArray).turtle.saved = above ++ pen.turtle.saved ∧
      (above.length : Int) = a.level word ∧
      (a.walk pen word.toArray).drawing.anomalies = pen.drawing.anomalies := by
  induction word using List.reverseRecOn with
  | nil => exact ⟨[], rfl, rfl, rfl⟩
  | append_singleton word id ih =>
      rw [underflows_concat, not_or, level_append] at hword
      obtain ⟨above, hsaved, hlength, hnoted⟩ := ih hword.1
      rw [walk_concat, level_append, ← hlength]
      obtain ⟨hlevel, factor, hstep⟩ | ⟨hlevel, hstep⟩ | ⟨hlevel, hstep⟩ := a.stepSymbol_cases id
      · rw [hstep, hlevel]
        refine ⟨((a.walk pen word.toArray).turtle.position,
          (a.walk pen word.toArray).turtle.direction) :: above, ?_, by simp, hnoted⟩
        exact congrArg (_ :: ·) hsaved
      · cases above with
        | nil =>
            -- The level would be below zero.
            rw [List.length_nil] at hlength
            omega
        | cons top above =>
            rw [hstep, hlevel, Pen.pop_of_saved hsaved]
            exact ⟨above, rfl, by simp, hnoted⟩
      · rw [hlevel, (hstep _).1, (hstep _).2]
        exact ⟨above, hsaved, by omega, hnoted⟩

theorem not_underflows_of_nested {word : List SymbolId} (h : Nested a.opens a.closes word) :
    ¬ a.Underflows word := by
  rintro ⟨front, hfront, hlt⟩
  exact Nat.not_lt.2 (h.fronts front hfront) hlt

/-- The pop at the end of a nested branch brings back the turtle of the push. -/
theorem walk_branch (pen : Pen) {opening closing : SymbolId} {w : Word}
    (hopen : a.opens opening = true) (hclose : a.closes closing = true)
    (hw : Nested a.opens a.closes w.toList) :
    (a.walk pen (#[opening] ++ w ++ #[closing])).turtle = pen.turtle ∧
      (a.walk pen (#[opening] ++ w ++ #[closing])).drawing.anomalies = pen.drawing.anomalies ∧
      (a.walk pen (#[opening] ++ w ++ #[closing])).drawing.segments =
        (a.walk pen (#[opening] ++ w)).drawing.segments := by
  obtain ⟨factor, hpush⟩ := walk_opening hopen
  obtain ⟨above, hsaved, hlength, hnoted⟩ :=
    saved_walk (pen.push factor) (not_underflows_of_nested hw)
  rw [Array.toArray_toList] at hsaved hnoted
  -- As much is closed as opened, so nothing lies above the copy.
  have habove : above = [] := by
    have hwhole := hw.whole
    rw [level, hwhole] at hlength
    exact List.length_eq_zero_iff.1 (by omega)
  rw [habove, List.nil_append] at hsaved
  rw [walk_append _ (#[opening] ++ w), walk_append, hpush, walk_closing hclose,
    Pen.pop_of_saved hsaved]
  exact ⟨rfl, hnoted, rfl⟩

/-- A nested branch brings the turtle back to where it was, with everything it had put
aside. So what comes after the branch is drawn as if there were none: first there are
the segments from before the branch, then its own, and then those that come without it,
and the notes are the same. -/
theorem branch_is_framed (a : Alphabet) (startAngle stepSize : Float) (u w v : Word)
    {opening closing : SymbolId} (hopen : a.opens opening = true)
    (hclose : a.closes closing = true) (hw : Nested a.opens a.closes w.toList) :
    let after word := a.walk (.start startAngle stepSize) word
    let drawn word := a.draw word startAngle stepSize
    let branch := #[opening] ++ w ++ #[closing]
    (after (u ++ branch)).turtle = (after u).turtle ∧
    ∃ side rest : List Segment,
      (drawn (u ++ (#[opening] ++ w))).segments.toList = (drawn u).segments.toList ++ side ∧
      (drawn (u ++ v)).segments.toList = (drawn u).segments.toList ++ rest ∧
      (drawn (u ++ branch ++ v)).segments.toList = (drawn u).segments.toList ++ side ++ rest ∧
      (drawn (u ++ branch ++ v)).anomalies = (drawn (u ++ v)).anomalies := by
  intro after drawn branch
  obtain ⟨hturtle, hnoted, hsegments⟩ := walk_branch (after u) hopen hclose hw
  rw [← walk_append] at hturtle hnoted hsegments
  have habreast : Pen.Abreast (after (u ++ branch)).drawing.segments.toList
      (after u).drawing.segments.toList (after (u ++ branch)) (after u) :=
    ⟨hturtle, hnoted, [], (List.append_nil _).symm, (List.append_nil _).symm⟩
  have hrest := habreast.walk a v
  rw [← walk_append, ← walk_append] at hrest
  obtain ⟨rest, hbranched, hplain⟩ := hrest.segments
  obtain ⟨side, hside⟩ := a.segments_prefix_walk (after u) (#[opening] ++ w).toList
  rw [Array.toArray_toList] at hside
  rw [hsegments, ← hside] at hbranched
  refine ⟨hturtle, side, rest, ?_, ?_, ?_, hrest.anomalies_finish⟩
  · rw [segments_draw, segments_draw, walk_append]
    exact hside.symm
  · rw [segments_draw, segments_draw]
    exact hplain
  · rw [segments_draw, segments_draw]
    exact hbranched

/-- An alphabet whose factor is not a number. -/
def undefinedFactor : Alphabet where
  actions := #[.turn '+' (.ofDegrees 90), .push (0 / 0), .pop,
    .literal 'B' 0 (.union .paint .move) #[3, 3]]
  start := 3
  colors := #[.black]

/-- After a pop without a push there is a branch with another one in it. -/
theorem branch_is_framed_undefined :
    undefinedFactor.opens 1 = true ∧ undefinedFactor.closes 2 = true ∧
      Nested undefinedFactor.opens undefinedFactor.closes [0, 3, 1, 3, 2] ∧
      (undefinedFactor.walk (.start 0 1) (#[3, 2] ++ (#[1] ++ #[0, 3, 1, 3, 2] ++ #[2]))).turtle =
        (undefinedFactor.walk (.start 0 1) #[3, 2]).turtle ∧
      let d := undefinedFactor.draw (#[3, 2] ++ (#[1] ++ #[0, 3, 1, 3, 2] ++ #[2]) ++ #[3]) 0 1
      d.segments.size = 4 ∧ d.anomalies = .popOnEmptyStack := by
  have hopen : undefinedFactor.opens 1 = true := by decide +kernel
  have hclose : undefinedFactor.closes 2 = true := by decide +kernel
  have hw : Nested undefinedFactor.opens undefinedFactor.closes [0, 3, 1, 3, 2] := by
    decide +kernel
  have hplain : (undefinedFactor.draw (#[3, 2] ++ #[3]) 0 1).anomalies = .popOnEmptyStack := by
    decide +kernel
  obtain ⟨hturtle, _, _, _, _, _, hnotes⟩ :=
    branch_is_framed undefinedFactor 0 1 #[3, 2] #[0, 3, 1, 3, 2] #[3] hopen hclose hw
  exact ⟨hopen, hclose, hw, hturtle, by decide +kernel, hnotes.trans hplain⟩

end Alphabet

end Lindenmayer
