import Lindenmayer.Proofs.LargerBound

/-!
# The last generation but one

A simulator may be told to draw the last generation but one as well. The expansion puts
it aside when the last iteration begins, before any symbol is replaced. By then it is a
whole generation, and it is what an expansion of one iteration less ends with. So it is
there exactly if that expansion is not cut, and it is never cut itself, whatever the
last iteration comes to.

Putting a generation aside has no part in the expansion. Everything else about a result
is as if it had not been asked for.
-/

namespace Lindenmayer

namespace Alphabet

variable (a : Alphabet)

/-! ## Expansions -/

theorem keptAt_last (n : Nat) :
    a.keptAt true (n + 1) (n + 1) = some (a.generationOf n).toArray := by
  rw [keptAt, if_pos ⟨rfl, Nat.succ_pos n, rfl⟩, Nat.add_sub_cancel]

/-- Only what is put aside depends on whether something is. -/
theorem expand_eq_except_previous (n bound : Nat) (keep keep' : Bool) :
    a.expand n bound keep =
      { a.expand n bound keep' with previous := (a.expand n bound keep).previous } := by
  obtain ⟨hfits, hexpand⟩ | ⟨k, hk, m, hfits, hcut, hexpand⟩ := a.expand_cases n bound keep
  · rw [hexpand, expand_of_fits keep' hfits]
    rfl
  · rw [hexpand, expand_of_cut keep' hk hfits hcut]
    rfl

theorem previous_expand_false (n bound : Nat) : (a.expand n bound false).previous = none := by
  rw [previous_expand, keptAt, if_neg fun h => Bool.false_ne_true h.1]

/-- What is put aside is the word after one iteration less, if that is a whole one. -/
theorem previous_expand_succ (n bound : Nat) (keep : Bool) :
    (a.expand (n + 1) bound true).previous =
      if (a.expand n bound keep).exceeded = false then some (a.expand n bound keep).word
      else none := by
  obtain ⟨hfits, hexpand⟩ | ⟨k, hk, m, hfits, hcut, hexpand⟩ := a.expand_cases (n + 1) bound true
  · rw [hexpand, expand_of_fits keep fun k hk => hfits k (Nat.lt_succ_of_lt hk)]
    exact a.keptAt_last n
  · rw [hexpand]
    show a.keptAt true (n + 1) (k + 1) = _
    obtain hlt | rfl := Nat.lt_or_eq_of_le (Nat.le_of_lt_succ hk)
    · -- Both are cut in the same iteration, and the longer one does not reach its last.
      have hnone : a.keptAt true (n + 1) (k + 1) = none := by
        rw [keptAt, if_neg fun h => absurd h.2.2 (by omega)]
      rw [hnone, expand_of_cut keep hlt hfits hcut]
      rfl
    · rw [expand_of_fits keep hfits]
      exact a.keptAt_last k

/-- An expansion that is cut in its last iteration was not cut before. -/
theorem exceeded_of_cut_last {n bound : Nat} {keep keep' : Bool}
    (hcut : (a.expand (n + 1) bound keep).exceeded = true)
    (hlast : (a.expand (n + 1) bound keep).iterations = n + 1) :
    (a.expand n bound keep').exceeded = false := by
  obtain ⟨_, hexpand⟩ | ⟨k, _, m, hfits, _, hexpand⟩ := a.expand_cases (n + 1) bound keep
  · rw [hexpand] at hcut
    cases hcut
  · rw [hexpand] at hlast
    obtain rfl : k = n := Nat.succ.inj hlast
    rw [expand_of_fits keep' hfits]
    rfl

theorem pos_of_exceeded {n bound : Nat} {keep : Bool}
    (h : (a.expand n bound keep).exceeded = true) : 0 < n := by
  obtain ⟨_, hexpand⟩ | ⟨k, hk, _⟩ := a.expand_cases n bound keep
  · rw [hexpand] at h
    cases h
  · exact Nat.zero_lt_of_lt hk

end Alphabet

/-! ## Results -/

/-- The configuration with one iteration less. -/
def Config.shorter (config : Config) : Config :=
  { config with iterations := config.iterations - 1 }

/-- Being the result `plain`, but for showing the segments of `shorter` as well. They are
shown exactly if there is an iteration to leave out and the shorter run is not cut. -/
structure Result.AddsPrevious (iterations : UInt32) (plain shorter r : Result) : Prop where
  previous : ∀ segments, r.previousSegments = some segments ↔
    1 ≤ iterations ∧ shorter.outcome = .ok ∧ shorter.segments = segments
  /-- A run that is cut in its last iteration shows them too. -/
  last : r.outcome = .boundExceeded → r.iterations = iterations.toNat →
    r.previousSegments = some shorter.segments
  rest : r = { plain with previousSegments := r.previousSegments }
  absent : plain.previousSegments = none

namespace Simulator

theorem toNat_iterations_shorter {config : Config} (h : 1 ≤ config.iterations) :
    config.iterations.toNat = config.shorter.iterations.toNat + 1 := by
  have hle : 1 ≤ config.iterations.toNat := UInt32.le_iff_toNat_le.1 h
  have hsub : config.shorter.iterations.toNat = config.iterations.toNat - 1 :=
    UInt32.toNat_sub_of_le _ _ h
  omega

/-- Whether the segments of the shorter run are shown is decided by that run alone. -/
theorem previousSegments_render (a : Alphabet) {config : Config} (h : 1 ≤ config.iterations)
    (bound : Nat) (keep : Bool) :
    let shorter := (render a config.shorter bound keep).1
    (render a config bound true).1.previousSegments =
      if shorter.outcome = .ok then some shorter.segments else none := by
  intro shorter
  show ((a.expand config.iterations.toNat bound true).previous.map _).map _ = _
  rw [toNat_iterations_shorter h, a.previous_expand_succ _ bound keep]
  cases hexceeded : (a.expand config.shorter.iterations.toNat bound keep).exceeded with
  | false =>
      rw [if_pos rfl, if_pos ((outcome_render_ok_iff ..).2 hexceeded)]
      rfl
  | true =>
      rw [if_neg (by simp), if_neg fun hok => ?_]
      · rfl
      · rw [(outcome_render_ok_iff ..).1 hok] at hexceeded
        cases hexceeded

/-- Without an iteration there is nothing to put aside. -/
theorem previousSegments_render_of_zero (a : Alphabet) {config : Config}
    (h : ¬ 1 ≤ config.iterations) (bound : Nat) :
    (render a config bound true).1.previousSegments = none := by
  have hzero : config.iterations.toNat = 0 := by
    by_contra hne
    exact h (UInt32.le_iff_toNat_le.2 (Nat.one_le_iff_ne_zero.2 hne))
  simp only [render, hzero]
  rfl

/-- The last iteration of a run that is cut in it began with what the shorter run ends with. -/
theorem previousSegments_render_of_last (a : Alphabet) (config : Config) (bound : Nat)
    (keep : Bool) (hcut : (a.expand config.iterations.toNat bound true).exceeded = true)
    (hlast : (a.expand config.iterations.toNat bound true).iterations =
      config.iterations.toNat) :
    (render a config bound true).1.previousSegments =
      some (render a config.shorter bound keep).1.segments := by
  have hsome : 1 ≤ config.iterations := UInt32.le_iff_toNat_le.2 (a.pos_of_exceeded hcut)
  rw [toNat_iterations_shorter hsome] at hcut hlast
  have hwhole : (a.expand config.shorter.iterations.toNat bound keep).exceeded = false :=
    a.exceeded_of_cut_last hcut hlast
  rw [previousSegments_render a hsome bound keep, if_pos ((outcome_render_ok_iff ..).2 hwhole)]

theorem render_addsPrevious (a : Alphabet) (config : Config) (bound : Nat) (keep : Bool) :
    Result.AddsPrevious config.iterations (render a config bound false).1
      (render a config.shorter bound keep).1 (render a config bound true).1 := by
  refine ⟨fun segments => ?_, fun hcut hlast => ?_, ?_, ?_⟩
  · by_cases hsome : 1 ≤ config.iterations
    · rw [previousSegments_render a hsome bound keep]
      split
      · next hok => simp [hsome, hok]
      · next hcut => simp [hcut]
    · rw [previousSegments_render_of_zero a hsome bound]
      constructor
      · intro h
        cases h
      · intro h
        exact absurd h.1 hsome
  · exact previousSegments_render_of_last a config bound keep (by simpa [render] using hcut) hlast
  · have hexpand := a.expand_eq_except_previous config.iterations.toNat bound true false
    simp only [render]
    rw [hexpand]
  · simp only [render, a.previous_expand_false]
    rfl

theorem resultWith_addsPrevious (config : Config) (bound : UInt64) (keep : Bool) :
    Result.AddsPrevious config.iterations (resultWith config.compile config bound false)
      (resultWith config.shorter.compile config.shorter bound keep)
      (resultWith config.compile config bound true) := by
  show Result.AddsPrevious _ _ (resultWith config.compile config.shorter bound keep) _
  cases config.compile with
  | error e =>
      refine ⟨fun segments => ⟨fun h => ?_, fun h => ?_⟩, fun h => ?_, rfl, rfl⟩
      · cases h
      · cases h.2.1
      · cases h
  | ok a => exact render_addsPrevious a config bound.toNat keep

/-- A simulator that is to draw the last generation but one answers as one that is not, but
for the segments of that generation. These are the segments that any simulator answers
for one iteration less under the same bound. They are missing only where there is no
such run or where it is cut. -/
theorem previous_is_one_less (size size' size'' : UInt64) (keep : Bool)
    (history history' history'' : List Request) (config : Config) :
    let s := (fresh ⟨size, true⟩).after history
    let plain := (fresh ⟨size', false⟩).after history'
    let other := (fresh ⟨size'', keep⟩).after history''
    plain.boundFor config = s.boundFor config → other.boundFor config = s.boundFor config →
      Result.AddsPrevious config.iterations (plain.exec config).2.1
          (other.exec config.shorter).2.1 (s.exec config).2.1 ∧
        Result.AddsPrevious config.iterations (plain.execDoubled config).2.1
          (other.execDoubled config.shorter).2.1 (s.execDoubled config).2.1 := by
  intro s plain other hplain hother
  have hs := execWithin_after ⟨size, true⟩ history config
  have hplain' := execWithin_after ⟨size', false⟩ history' config
  have hother' := execWithin_after ⟨size'', keep⟩ history'' config.shorter
  have hshorter : other.boundFor config.shorter = s.boundFor config := hother
  constructor
  · rw [exec, exec, exec, hs, hplain', hother', hplain, hshorter]
    exact resultWith_addsPrevious config _ keep
  · rw [execDoubled, execDoubled, execDoubled, hs, hplain', hother', hplain, hshorter]
    exact resultWith_addsPrevious config _ keep

/-- The third generation is cut, and the second one is shown in full. -/
theorem previous_is_one_less_twins :
    let r := ((fresh ⟨3, true⟩).exec .twins).2.1
    let shorter := ((fresh ⟨3, false⟩).exec Config.twins.shorter).2.1
    r.outcome = .boundExceeded ∧ shorter.outcome = .ok ∧ shorter.segments.size = 4 ∧
      r.previousSegments = some shorter.segments ∧
      r.bounds = ((fresh ⟨3, false⟩).exec .twins).2.1.bounds := by
  intro r shorter
  have hadds := (previous_is_one_less 3 3 3 false [] [] [] .twins (by decide) (by decide)).1
  have hcut : r.outcome = .boundExceeded := by decide +kernel
  have hok : shorter.outcome = .ok := by decide +kernel
  have hbounds := congrArg Result.bounds hadds.rest
  exact ⟨hcut, hok, by decide +kernel, (hadds.previous _).2 ⟨by decide, hok, rfl⟩, hbounds⟩

end Simulator

end Lindenmayer
