import Lindenmayer.Proofs.Overshoot
import Lindenmayer.Proofs.SpelledDrawing

/-!
# A larger bound loses nothing

Two expansions of the same symbol under different bounds go through the same generations
as long as both go on. The one with the smaller bound stops first, if either stops. If
they stop in the same iteration, it does so behind fewer symbols, and so what it has
written by then is the front of what the other has. If it does not stop at all, then
neither does the other, and the bound has made no difference.

A turtle only ever adds to its drawing. So the same can be said of the segments, and a
second attempt under a larger bound never shows less than the first. Twice the bound is
such a larger one, also where it is as large as a bound can be.
-/

namespace Lindenmayer

/-! ## Expansions -/

/-- Having gone on from where another expansion was cut, or else being the same. -/
structure Expansion.Extends (e' e : Expansion) : Prop where
  kept : e.exceeded = false → e' = e
  further : e.iterations ≤ e'.iterations
  word : e'.iterations = e.iterations → e.word.toList <+: e'.word.toList
  previous : ∀ word, e.previous = some word → e'.previous = some word

namespace Alphabet

theorem keptAt_eq_some {a : Alphabet} {keepPrevious : Bool} {n k : Nat} {word : Word}
    (h : a.keptAt keepPrevious n k = some word) : k = n :=
  (keptAt_eq_some_iff.1 h).1.2.2

/-- Where both expansions stop in the same iteration, the word of the one is the front
of that of the other. -/
theorem take_flatMap_prefix (a : Alphabet) {k m m' : Nat} (h : m ≤ m') :
    ((a.generationOf k).take m).flatMap a.replacement <+:
      ((a.generationOf k).take m').flatMap a.replacement :=
  List.IsPrefix.flatMap (List.take_prefix_take_left h) a.replacement

theorem completed_extends_cutShort (a : Alphabet) (keepPrevious : Bool) {n k : Nat} (hk : k < n)
    (m : Nat) : (a.completed keepPrevious n).Extends (a.cutShort keepPrevious n k m) where
  kept h := nomatch h
  further := hk
  word hiter := by
    obtain rfl : n = k + 1 := hiter
    exact List.IsPrefix.flatMap (List.take_prefix m _) a.replacement
  previous word h := by
    obtain rfl := keptAt_eq_some h
    exact h

theorem cutShort_extends_cutShort (a : Alphabet) (keepPrevious : Bool) {n k k' m m' : Nat}
    (hk' : k' < n) (hle : k ≤ k') (hm : k = k' → m ≤ m') :
    (a.cutShort keepPrevious n k' m').Extends (a.cutShort keepPrevious n k m) where
  kept h := nomatch h
  further := Nat.succ_le_succ hle
  word hiter := by
    obtain rfl : k' = k := Nat.succ.inj hiter
    exact a.take_flatMap_prefix (hm rfl)
  previous word h := by
    -- The last generation but one is there in the last iteration only.
    have hlast : k + 1 = n := keptAt_eq_some h
    obtain rfl : k = k' := by omega
    exact h

theorem expand_extends (a : Alphabet) (n : Nat) {bound bound' : Nat} (hle : bound ≤ bound')
    (keepPrevious : Bool) :
    (a.expand n bound' keepPrevious).Extends (a.expand n bound keepPrevious) := by
  obtain ⟨hfits, hexpand⟩ | ⟨k, hk, m, hfits, hcut, hexpand⟩ :=
    a.expand_cases n bound keepPrevious
  · rw [hexpand, expand_of_fits keepPrevious fun k hk => (hfits k hk).mono hle]
    exact ⟨fun _ => rfl, Nat.le_refl n, fun _ => List.prefix_refl _, fun _ h => h⟩
  · obtain ⟨_, hexpand'⟩ | ⟨k', hk', m', _, hcut', hexpand'⟩ :=
      a.expand_cases n bound' keepPrevious
    · rw [hexpand, hexpand']
      exact a.completed_extends_cutShort keepPrevious hk m
    · rw [hexpand, hexpand']
      refine a.cutShort_extends_cutShort keepPrevious hk' ?_ fun h => ?_
      · -- What fits under the smaller bound is not cut under the larger one.
        by_contra hlt
        exact not_fits_iff.2 ⟨m', hcut'⟩ ((hfits k' (Nat.lt_of_not_le hlt)).mono hle)
      · subst h
        exact hcut.le hcut' hle

end Alphabet

/-! ## Drawings -/

theorem Pen.segments_prefix_step (pen : Pen) (action : Action) :
    pen.drawing.segments.toList <+: (pen.step action).drawing.segments.toList := by
  cases action with
  | turn symbol rotation => exact List.prefix_refl _
  | push factor => exact List.prefix_refl _
  | pop =>
      show _ <+: pen.pop.drawing.segments.toList
      rw [pen.segments_pop]
  | literal symbol colorNumber effects successor =>
      show _ <+: (pen.mark colorNumber effects).drawing.segments.toList
      cases hpaint : effects.contains .paint with
      | false => rw [Pen.mark_of_not_paint hpaint]
      | true =>
          obtain ⟨line, hline⟩ := Pen.mark_of_paint hpaint pen colorNumber
          rw [hline, Array.toList_push]
          exact List.prefix_append _ _

namespace Alphabet

theorem segments_prefix_walk (a : Alphabet) (pen : Pen) (word : List SymbolId) :
    pen.drawing.segments.toList <+: (a.walk pen word.toArray).drawing.segments.toList := by
  rw [walk, List.foldl_toArray]
  induction word generalizing pen with
  | nil => exact List.prefix_refl _
  | cons id word ih =>
      refine List.IsPrefix.trans ?_ (ih (a.stepSymbol pen id))
      rw [stepSymbol]
      split
      · exact pen.segments_prefix_step _
      · exact List.prefix_refl _

/-- The front of a word draws the first segments. -/
theorem segments_prefix_draw (a : Alphabet) {word word' : Word} (h : word.toList <+: word'.toList)
    (startAngle stepSize : Float) :
    (a.draw word startAngle stepSize).segments.toList <+:
      (a.draw word' startAngle stepSize).segments.toList := by
  obtain ⟨rest, hrest⟩ := h
  have hwalk : a.walk (.start startAngle stepSize) word' =
      a.walk (a.walk (.start startAngle stepSize) word) rest.toArray := by
    simp only [walk, ← Array.foldl_toList, ← hrest, List.foldl_append]
  rw [segments_draw, segments_draw, hwalk]
  exact a.segments_prefix_walk _ rest

end Alphabet

/-! ## Results -/

/-- Not showing less than another result. -/
structure Result.Extends (r' r : Result) : Prop where
  kept : r.outcome ≠ .boundExceeded → r' = r
  further : r.outcome = .boundExceeded → r.iterations ≤ r'.iterations
  segments : r.outcome = .boundExceeded → r'.iterations = r.iterations →
    r.segments.toList <+: r'.segments.toList
  previous : ∀ segments, r.previousSegments = some segments → r'.previousSegments = some segments

namespace Simulator

theorem render_extends (a : Alphabet) (config : Config) {bound bound' : Nat}
    (hle : bound ≤ bound') (keepPrevious : Bool) :
    (render a config bound' keepPrevious).1.Extends (render a config bound keepPrevious).1 := by
  have h := a.expand_extends config.iterations.toNat hle keepPrevious
  refine ⟨fun houtcome => ?_, fun _ => h.further, fun _ hiter => ?_, fun segments hsome => ?_⟩
  · have hwhole : (a.expand config.iterations.toNat bound keepPrevious).exceeded = false := by
      simpa [render] using houtcome
    simp only [render, h.kept hwhole]
  · exact a.segments_prefix_draw (h.word hiter) config.startAngle config.stepSize
  · simp only [render, Option.map_map, Option.map_eq_some_iff] at hsome ⊢
    obtain ⟨word, hword, hsegments⟩ := hsome
    exact ⟨word, h.previous word hword, hsegments⟩

theorem resultWith_extends (alphabet : Except ConfigError Alphabet) (config : Config)
    {bound bound' : UInt64} (hle : bound ≤ bound') (keepPrevious : Bool) :
    (resultWith alphabet config bound' keepPrevious).Extends
      (resultWith alphabet config bound keepPrevious) := by
  cases alphabet with
  | error e =>
      refine ⟨fun _ => rfl, fun h => ?_, fun h => ?_, fun _ h => h⟩ <;> cases h
  | ok a => exact render_extends a config (UInt64.le_iff_toNat_le.1 hle) keepPrevious

end Simulator

/-! ## Twice a bound -/

theorem toNat_doubled (bound : UInt64) :
    (doubled bound).toNat = min (2 * bound.toNat) (UInt64.size - 1) := by
  have hsize : UInt64.size = 18446744073709551616 := rfl
  rw [doubled]
  split
  · next hroom =>
      rw [UInt64.toNat_mul, show (2 : UInt64).toNat = 2 from rfl, Nat.mod_eq_of_lt hroom]
      omega
  · next hfull =>
      rw [UInt64.toNat_ofNat_of_lt' (by omega)]
      omega

theorem doubled_eq (bound : UInt64) :
    doubled bound = .ofNat (min (2 * bound.toNat) (UInt64.size - 1)) := by
  rw [← toNat_doubled, UInt64.ofNat_toNat]

theorem le_doubled (bound : UInt64) : bound ≤ doubled bound := by
  have hlt := bound.toNat_lt_size
  rw [UInt64.le_iff_toNat_le, toNat_doubled]
  omega

namespace Simulator

/-- A second attempt is made under twice the bound that the first one was made under. -/
theorem execDoubled_after_exec (settings : Settings) (history : List Request) (config : Config) :
    let s := (fresh settings).after history
    ((s.next (.exec config)).execDoubled config).2.1 =
      resultWith config.compile config (doubled (s.boundFor config))
        settings.previousGeneration := by
  intro s
  have hbound : (s.next (.exec config)).boundFor config = s.boundFor config := by
    rw [boundFor, boundFor, next_settings]
    rfl
  -- What comes after the first attempt is a simulator with a longer history.
  have hnext := execWithin_after settings (history ++ [.exec config]) config
    (doubled (s.boundFor config))
  rw [after_concat] at hnext
  rw [execDoubled, hbound, hnext]

/-- The bound of a configuration makes no difference to its result within a given bound. -/
theorem resultWith_stackSize (config : Config) (size : Option UInt64) (bound : UInt64)
    (keepPrevious : Bool) :
    resultWith ({ config with stackSize := size } : Config).compile { config with stackSize := size }
      bound keepPrevious = resultWith config.compile config bound keepPrevious := by
  show resultWith config.compile _ bound keepPrevious = _
  cases config.compile <;> rfl

/-- Of two simulators that both draw the last generation but one, or neither does, the one
with the larger bound shows no less, whatever they were asked before. So a request
under twice the bound shows no less than one under the bound, also after it, and it is
the same as giving the configuration the bound that is twice as large, or as large as
bounds get. -/
theorem larger_bound (keepPrevious : Bool) (size size' : UInt64) (history history' : List Request) :
    let s := (fresh ⟨size, keepPrevious⟩).after history
    let s' := (fresh ⟨size', keepPrevious⟩).after history'
    (∀ (config : Config) (own own' : Option UInt64),
      s.boundFor { config with stackSize := own } ≤ s'.boundFor { config with stackSize := own' } →
      (s'.exec { config with stackSize := own' }).2.1.Extends
        (s.exec { config with stackSize := own }).2.1) ∧
    (∀ config : Config, s.boundFor config ≤ s'.boundFor config →
      (s'.execDoubled config).2.1.Extends (s.exec config).2.1) ∧
    (∀ config : Config,
      ((s.next (.exec config)).execDoubled config).2.1.Extends (s.exec config).2.1) ∧
    ∀ config : Config,
      let twice := UInt64.ofNat (min (2 * (s.boundFor config).toNat) (UInt64.size - 1))
      (s.execDoubled config).2.1 = (s.exec { config with stackSize := some twice }).2.1 := by
  intro s s'
  have hexec := execWithin_after ⟨size, keepPrevious⟩ history
  have hexec' := execWithin_after ⟨size', keepPrevious⟩ history'
  refine ⟨fun config own own' hle => ?_, fun config hle => ?_, fun config => ?_, fun config => ?_⟩
  · rw [exec, exec, hexec, hexec', resultWith_stackSize, resultWith_stackSize]
    exact resultWith_extends _ config hle keepPrevious
  · rw [exec, execDoubled, hexec, hexec']
    exact resultWith_extends _ config (UInt64.le_trans hle (le_doubled _)) keepPrevious
  · rw [exec, hexec, execDoubled_after_exec]
    exact resultWith_extends _ config (le_doubled _) keepPrevious
  · intro twice
    rw [execDoubled, exec, hexec, hexec, resultWith_stackSize, doubled_eq]
    rfl

/-- Both attempts at the third generation are cut, the second one behind one symbol more. -/
theorem larger_bound_twins :
    let first := ((fresh ⟨3, true⟩).exec .twins).2.1
    let second := ((fresh ⟨5, true⟩).exec .twins).2.1
    first.outcome = .boundExceeded ∧ second.outcome = .boundExceeded ∧
      first.segments.size = 4 ∧ second.segments.size = 6 ∧
      first.segments.toList <+: second.segments.toList ∧
      ∃ segments, first.previousSegments = some segments ∧
        second.previousSegments = some segments := by
  intro first second
  have hextends : second.Extends first :=
    (larger_bound true 3 5 [] []).1 .twins none none (by decide)
  have hexceeded : first.outcome = .boundExceeded := by decide +kernel
  have hsome : first.previousSegments.isSome = true := by decide +kernel
  obtain ⟨segments, hsegments⟩ := Option.isSome_iff_exists.1 hsome
  exact ⟨hexceeded, by decide +kernel, by decide +kernel, by decide +kernel,
    hextends.segments hexceeded (by decide +kernel), segments, hsegments,
    hextends.previous segments hsegments⟩

end Simulator

end Lindenmayer
