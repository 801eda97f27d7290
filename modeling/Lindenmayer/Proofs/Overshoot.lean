import Lindenmayer.Proofs.Generations
import Lindenmayer.Proofs.TextualRewriting

/-!
# How far past its bound a generation may go

A bound is there to stop an expansion, not to measure one. The length of the next
generation is compared with it before each symbol is replaced: as long as it is not past the
bound, one more symbol may be. A generation that has been completed is not compared again.
So even a bound of nought lets through what replaces a single symbol, and a generation may
go past its bound by as much as replaces the last symbol of the one before.

That is all that it may. An expansion is reported to fit exactly if each of its generations
is within the bound but for what replaces the last symbol of the one before, and it is
within the bound altogether exactly if there is still room for that.
-/

namespace Lindenmayer

/-- A letter that becomes two of itself. -/
def Config.twins : Config where
  definitions := [⟨'F', "FF", .black, .paint⟩]

namespace Alphabet

/-- How long generation `k + 1` is before the last symbol is replaced. -/
def lengthBeforeLast (a : Alphabet) (k : Nat) : Nat :=
  ((a.generationOf k).dropLast.flatMap a.replacement).length

/-- What replaces the last symbol of generation `k`, if there is one. -/
def lastReplacement (a : Alphabet) (k : Nat) : List SymbolId :=
  (a.generationOf k).getLast?.toList.flatMap a.replacement

theorem length_generationOf_succ (a : Alphabet) (k : Nat) :
    (a.generationOf (k + 1)).length = a.lengthBeforeLast k + (a.lastReplacement k).length := by
  have hsplit : (a.generationOf k).dropLast ++ (a.generationOf k).getLast?.toList =
      a.generationOf k := by
    rw [List.dropLast_eq_take, List.take_append_getLast?]
  rw [lengthBeforeLast, lastReplacement, ← List.length_append, ← List.flatMap_append, hsplit]
  rfl

/-- An expansion is not reported to exceed its bound exactly if every generation fits. -/
theorem exceeded_eq_false_iff (a : Alphabet) (n bound : Nat) (keepPrevious : Bool) :
    (a.expand n bound keepPrevious).exceeded = false ↔
      ∀ k < n, Fits a.replacement bound (a.generationOf k) := by
  obtain ⟨hfits, hexpand⟩ | ⟨k, hk, m, _, hcut, hexpand⟩ := a.expand_cases n bound keepPrevious
  · rw [hexpand]
    exact ⟨fun _ => hfits, fun _ => rfl⟩
  · rw [hexpand]
    refine ⟨fun h => ?_, fun hfits => absurd (hfits k hk) (not_fits_iff.2 ⟨m, hcut⟩)⟩
    cases h

/-- What it means that an expansion is reported to fit: each generation is within the bound
before the last symbol of the one before is replaced. Whether it still is then, and how far
it goes past the bound if not, is up to what replaces that symbol. -/
theorem overshoot_of_not_exceeded (a : Alphabet) (n bound : Nat) (keepPrevious : Bool) :
    let e := a.expand n bound keepPrevious
    (e.exceeded = false ↔ ∀ k < n, a.lengthBeforeLast k ≤ bound) ∧
    (e.exceeded = false →
      e.word.toList = a.generationOf n ∧ e.lengths = a.lengthsUpTo n ∧
      ∀ k < n, (a.generationOf (k + 1)).length ≤ bound + (a.lastReplacement k).length ∧
        ((a.generationOf (k + 1)).length ≤ bound ↔
          (a.lastReplacement k).length ≤ bound - a.lengthBeforeLast k)) := by
  intro e
  have hbefore : e.exceeded = false ↔ ∀ k < n, a.lengthBeforeLast k ≤ bound := by
    rw [exceeded_eq_false_iff]
    exact forall₂_congr fun k _ => fits_iff_dropLast
  refine ⟨hbefore, fun h => ?_⟩
  have hexpand : e = a.completed keepPrevious n :=
    expand_of_fits keepPrevious ((a.exceeded_eq_false_iff ..).1 h)
  refine ⟨by rw [hexpand]; rfl, by rw [hexpand]; rfl, fun k hk => ?_⟩
  have hle := hbefore.1 h k hk
  rw [length_generationOf_succ]
  omega

/-- There are only two symbols when the last one is replaced, so the bound of three has not
been passed, and four symbols in the end. -/
theorem exceeds_unreported :
    ∃ a, Config.twins.compile = .ok a ∧ (a.expand 2 3 false).exceeded = false ∧
      a.spell (a.expand 2 3 false).word = "FFFF" ∧ ¬ (a.expand 2 3 false).word.size ≤ 3 := by
  have ha : Config.twins.compile = .ok _ :=
    Config.compile_eq_ok_iff.2 ⟨[.literal 'F' 0 .paint #[4, 4]], by decide +kernel, rfl⟩
  exact ⟨_, ha, by decide +kernel, by decide +kernel, by decide +kernel⟩

end Alphabet

end Lindenmayer
