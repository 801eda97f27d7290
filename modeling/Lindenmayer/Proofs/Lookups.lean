import Lindenmayer.Proofs.CheckedCompilation
import Lindenmayer.Proofs.SpelledDrawing

/-!
# No lookup fails

Names of symbols are places among the actions of an alphabet, and numbers of colors are
places in its table. An alphabet is closed if it has an action for each name that it
mentions itself, and a color for each number.

What compiles is closed. Rewriting comes from names to names of a closed alphabet, in
any number of generations and wherever it is cut, and a turtle leaves no segment behind
in a color that is not in the table. So whatever a simulator is asked, the segments of
its answer have their colors in the table that comes with them.
-/

namespace Lindenmayer

/-- Having an action for each of these names. -/
def Alphabet.HasAll (a : Alphabet) (ids : List SymbolId) : Prop := ∀ id ∈ ids, id < a.actions.size

/-- Having an action for each name that is mentioned and a color for each number. -/
structure Alphabet.Closed (a : Alphabet) : Prop where
  start : a.start < a.actions.size
  successor : ∀ symbol number effects successor,
    .literal symbol number effects successor ∈ a.actions → a.HasAll successor.toList
  color : ∀ symbol number effects successor,
    .literal symbol number effects successor ∈ a.actions → number.toNat < a.colors.size

/-- Mentioning names of this alphabet only. -/
structure Expansion.Within (a : Alphabet) (e : Expansion) : Prop where
  word : a.HasAll e.word.toList
  previous : ∀ word, e.previous = some word → a.HasAll word.toList

/-- Having numbers of colors only that are in a table of this size. -/
def Drawing.Within (size : Nat) (d : Drawing) : Prop :=
  ∀ segment ∈ d.segments, segment.colorNumber.toNat < size

/-- Having a color for each segment. -/
structure Result.Closed (r : Result) : Prop where
  segments : ∀ segment ∈ r.segments, segment.colorNumber.toNat < r.colors.size
  previousSegments : ∀ segments, r.previousSegments = some segments →
    ∀ segment ∈ segments, segment.colorNumber.toNat < r.colors.size

/-! ## Compiled alphabets -/

theorem exists_of_mem_right {α β : Type} {R : α → β → Prop} {xs : List α} {ys : List β}
    (h : List.Forall₂ R xs ys) : ∀ y ∈ ys, ∃ x ∈ xs, R x y := by
  induction h with
  | nil => simp
  | cons hxy _ ih =>
      intro y hy
      obtain rfl | hy := List.mem_cons.1 hy
      · exact ⟨_, List.mem_cons_self, hxy⟩
      · obtain ⟨x, hx, hR⟩ := ih y hy
        exact ⟨x, List.mem_cons_of_mem _ hx, hR⟩

namespace Config

variable {config : Config} {a : Alphabet}

theorem Names.lt_size (ha : config.compile = .ok a) {id : SymbolId} {c : Char}
    (h : config.Names id c) : id < a.actions.size := by
  obtain ⟨x, hx, _⟩ := Option.map_eq_some_iff.1 (h.symbol ha)
  exact (Array.getElem?_eq_some_iff.1 hx).1

theorem exists_compiles_of_mem {literals : List Action}
    (hlit : compileLiterals config.definitions = .ok literals) {symbol : Char} {number : UInt8}
    {effects : Effects} {successor : Word}
    (hmem : .literal symbol number effects successor ∈ (config.assemble literals).actions) :
    ∃ d ∈ config.definitions, successorOf config.definitions d = .ok successor ∧
      number = colorNumber (palette config.definitions) d.color := by
  have hmem' : .literal symbol number effects successor ∈ config.operators ++ literals :=
    List.mem_toArray.1 hmem
  obtain hop | hlit' := List.mem_append.1 hmem'
  · simp [operators] at hop
  · obtain ⟨d, hd, word, hword, hx⟩ :=
      exists_of_mem_right (compileLiterals_eq_ok hlit).2.2 _ hlit'
    obtain ⟨_, hnumber, _, rfl⟩ := Action.literal.inj hx
    exact ⟨d, hd, hword, hnumber⟩

theorem closed_of_compile (ha : config.compile = .ok a) : a.Closed := by
  have hletters := (valid_of_compile ha).letters
  obtain ⟨literals, hlit, rfl⟩ := compile_eq_ok_iff.1 ha
  refine ⟨?_, fun symbol number effects successor hmem => ?_,
    fun symbol number effects successor hmem => ?_⟩
  · obtain ⟨c, _, hstart, _⟩ := List.forall₂_cons_left_iff.1 (names_start ha)
    exact hstart.lt_size ha
  · obtain ⟨d, _, hword, _⟩ := exists_compiles_of_mem hlit hmem
    intro id hid
    obtain ⟨c, _, hc⟩ := exists_of_mem_right (successorOf_eq_ok hword).1 id hid
    exact Names.lt_size ha hc
  · obtain ⟨d, hd, _, rfl⟩ := exists_compiles_of_mem hlit hmem
    exact (Array.getElem?_eq_some_iff.1 (getElem?_colorNumber hletters hd)).1

end Config

/-! ## Rewriting and drawing -/

namespace Alphabet

variable {a : Alphabet}

theorem Closed.replacement (h : a.Closed) {id : SymbolId} (hid : id < a.actions.size) :
    a.HasAll (a.replacement id) := by
  rw [Alphabet.replacement, Alphabet.successor]
  split
  · next hx => exact h.successor _ _ _ _ (Array.mem_of_getElem? hx)
  · intro id' hid'
    rw [List.mem_singleton.1 hid']
    exact hid

theorem Closed.flatMap (h : a.Closed) {ids : List SymbolId} (hids : a.HasAll ids) :
    a.HasAll (ids.flatMap a.replacement) := by
  intro id hid
  obtain ⟨id', hid', hmem⟩ := List.mem_flatMap.1 hid
  exact h.replacement (hids id' hid') id hmem

theorem Closed.generationOf (h : a.Closed) (n : Nat) : a.HasAll (a.generationOf n) := by
  induction n with
  | zero =>
      intro id hid
      rw [List.mem_singleton.1 hid]
      exact h.start
  | succ n ih => exact h.flatMap ih

theorem Closed.keptAt (h : a.Closed) {keepPrevious : Bool} {n k : Nat} {word : Word}
    (hword : a.keptAt keepPrevious n k = some word) : a.HasAll word.toList := by
  obtain ⟨_, rfl⟩ := keptAt_eq_some_iff.1 hword
  exact h.generationOf _

theorem Closed.expand (h : a.Closed) (n bound : Nat) (keepPrevious : Bool) :
    (a.expand n bound keepPrevious).Within a := by
  obtain ⟨_, hexpand⟩ | ⟨k, _, m, _, _, hexpand⟩ := a.expand_cases n bound keepPrevious
  · rw [hexpand]
    exact ⟨h.generationOf n, fun word hword => h.keptAt hword⟩
  · rw [hexpand]
    refine ⟨h.flatMap fun id hid => h.generationOf k id (List.mem_of_mem_take hid),
      fun word hword => h.keptAt hword⟩

theorem Closed.stepSymbol (h : a.Closed) {pen : Pen} (hpen : pen.drawing.Within a.colors.size)
    (id : SymbolId) : (a.stepSymbol pen id).drawing.Within a.colors.size := by
  rw [Alphabet.stepSymbol]
  split
  · next x hx =>
      cases x with
      | turn symbol rotation => exact hpen
      | push factor => exact hpen
      | pop =>
          show ∀ segment ∈ pen.pop.drawing.segments, _
          rw [pen.segments_pop]
          exact hpen
      | literal symbol number effects successor =>
          show (pen.mark number effects).drawing.Within _
          cases hpaint : effects.contains .paint with
          | false => rwa [Pen.mark_of_not_paint hpaint]
          | true =>
              obtain ⟨line, hline⟩ := Pen.mark_of_paint hpaint pen number
              intro segment hsegment
              rw [hline] at hsegment
              obtain hold | rfl := Array.mem_push.1 hsegment
              · exact hpen segment hold
              · exact h.color _ _ _ _ (Array.mem_of_getElem? hx)
  · exact hpen

theorem Closed.draw (h : a.Closed) (word : Word) (startAngle stepSize : Float) :
    (a.draw word startAngle stepSize).Within a.colors.size := by
  have hwalk : ∀ (ids : List SymbolId) (pen : Pen), pen.drawing.Within a.colors.size →
      (ids.foldl a.stepSymbol pen).drawing.Within a.colors.size := by
    intro ids
    induction ids with
    | nil => exact fun _ hpen => hpen
    | cons id ids ih => exact fun pen hpen => ih _ (h.stepSymbol hpen id)
  rw [Drawing.Within, segments_draw, walk, ← Array.foldl_toList]
  refine hwalk word.toList (.start startAngle stepSize) fun _ hmem => ?_
  exact absurd hmem (Array.not_mem_empty _)

theorem Closed.render (h : a.Closed) (config : Config) (bound : Nat) (keepPrevious : Bool) :
    (Simulator.render a config bound keepPrevious).1.Closed := by
  refine ⟨h.draw _ _ _, fun segments hsegments => ?_⟩
  simp only [Simulator.render, Option.map_map, Option.map_eq_some_iff] at hsegments
  obtain ⟨word, _, rfl⟩ := hsegments
  exact h.draw word _ _

end Alphabet

namespace Simulator

theorem closed_resultWith (config : Config) (bound : UInt64) (keepPrevious : Bool) :
    (resultWith config.compile config bound keepPrevious).Closed := by
  cases ha : config.compile with
  | error e =>
      refine ⟨fun _ hmem => absurd hmem (Array.not_mem_empty _), fun _ h => ?_⟩
      cases h
  | ok a => exact (Config.closed_of_compile ha).render config bound.toNat keepPrevious

/-- A compiler that looks before every step never sees a full table, a number that is too
large or a name without an action. What it compiles is closed, all generations and
expansions stay within it, and every answer has a color for each of its segments. -/
theorem lookups_succeed :
    (∀ config : Config, config.compileChecked = config.compile.mapError .invalid) ∧
    (∀ (config : Config) (a : Alphabet), config.compile = .ok a →
      a.Closed ∧ (∀ n, a.HasAll (a.generationOf n)) ∧
        ∀ n bound keepPrevious, (a.expand n bound keepPrevious).Within a) ∧
    ∀ (settings : Settings) (history : List Request) (request : Request) (result : Result),
      ((fresh settings).after history).answer request = .exec result → result.Closed := by
  refine ⟨Config.compileChecked_eq, fun config a ha => ?_,
    fun settings history request result hresult => ?_⟩
  · have hclosed := Config.closed_of_compile ha
    exact ⟨hclosed, hclosed.generationOf, hclosed.expand⟩
  · rw [((fresh_sound settings).after history).answer_eq] at hresult
    cases request with
    | exec config => cases hresult; exact closed_resultWith config _ _
    | execDoubled config => cases hresult; exact closed_resultWith config _ _
    | actionString config => cases hresult
    | setBound size => cases hresult

end Simulator

end Lindenmayer
