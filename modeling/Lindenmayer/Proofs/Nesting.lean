import Lindenmayer.Proofs.LargerBound
import Lindenmayer.Proofs.Brackets

/-!
# Nested brackets stay nested

A word is nested if no front of it closes more brackets than it opens, and the whole word
closes them all. Where each letter is replaced by such a word, rewriting keeps it that
way. What comes before a symbol has left some brackets open. If the symbol is a letter,
then its replacement goes up from there and comes back to where it began; and otherwise
the symbol stays what it is and does what it did before.

So every generation of a nested configuration is nested, and the front of a generation
never closes what it has not opened. A generation that is cut short is such a front.
A turtle that follows it finds a saved place for each pop.
-/

namespace Lindenmayer

/-- Closing nothing that was not opened before, and leaving nothing open. -/
structure Nested {α : Type} (opens closes : α → Bool) (word : List α) : Prop where
  fronts : ∀ front, front <+: word → front.countP closes ≤ front.countP opens
  whole : word.countP opens = word.countP closes

instance {α : Type} (opens closes : α → Bool) (word : List α) :
    Decidable (Nested opens closes word) :=
  decidable_of_iff ((∀ front ∈ word.inits, front.countP closes ≤ front.countP opens) ∧
      word.countP opens = word.countP closes)
    ⟨fun h => ⟨fun front hfront => h.1 front ((List.mem_inits front word).2 hfront), h.2⟩,
      fun h => ⟨fun front hfront => h.fronts front ((List.mem_inits front word).1 hfront), h.whole⟩⟩

/-- A text whose brackets are nested. -/
abbrev NestedText (text : List Char) : Prop := Nested (· == '[') (· == ']') text

theorem prefix_append_iff {α : Type} {front u v : List α} :
    front <+: u ++ v ↔ front <+: u ∨ ∃ rest, rest <+: v ∧ front = u ++ rest := by
  constructor
  · intro h
    obtain hu | ⟨rest, rfl⟩ := List.prefix_or_prefix_of_prefix h (List.prefix_append u v)
    · exact .inl hu
    · exact .inr ⟨rest, (List.prefix_append_right_inj u).1 h, rfl⟩
  · rintro (hu | ⟨rest, hrest, rfl⟩)
    · exact hu.trans (List.prefix_append u v)
    · exact (List.prefix_append_right_inj u).2 hrest

namespace Config

/-! ## Depths along a text -/

/-- No front of a text that starts at the given depth gets below zero. -/
def StaysUp (start : Int) (text : List Char) : Prop :=
  ∀ front, front <+: text → 0 ≤ start + depth front

theorem nestedText_iff {text : List Char} :
    NestedText text ↔ StaysUp 0 text ∧ depth text = 0 := by
  have hfront : ∀ front : List Char,
      front.countP (· == ']') ≤ front.countP (· == '[') ↔ 0 ≤ 0 + depth front := by
    intro front
    rw [depth_eq_count, List.count, List.count]
    omega
  constructor
  · rintro ⟨hfronts, hwhole⟩
    exact ⟨fun front h => (hfront front).1 (hfronts front h), depth_eq_zero_iff.2 hwhole⟩
  · rintro ⟨hup, hdepth⟩
    exact ⟨fun front h => (hfront front).2 (hup front h), depth_eq_zero_iff.1 hdepth⟩

theorem StaysUp.nonneg {start : Int} {text : List Char} (h : StaysUp start text) : 0 ≤ start := by
  have hnil := h [] List.nil_prefix
  rwa [show depth [] = 0 from rfl, Int.add_zero] at hnil

theorem StaysUp.mono {start start' : Int} {text : List Char} (h : StaysUp start text)
    (hle : start ≤ start') : StaysUp start' text := by
  intro front hfront
  have hup := h front hfront
  omega

theorem StaysUp.of_front {start : Int} {text text' : List Char} (h : StaysUp start text)
    (htext : text' <+: text) : StaysUp start text' :=
  fun front hfront => h front (hfront.trans htext)

theorem staysUp_append {start : Int} {u v : List Char} :
    StaysUp start (u ++ v) ↔ StaysUp start u ∧ StaysUp (start + depth u) v := by
  constructor
  · intro h
    refine ⟨h.of_front (List.prefix_append u v), fun rest hrest => ?_⟩
    have hup := h (u ++ rest) ((List.prefix_append_right_inj u).2 hrest)
    rw [depth_append] at hup
    omega
  · rintro ⟨hu, hv⟩ front hfront
    obtain hfront | ⟨rest, hrest, rfl⟩ := prefix_append_iff.1 hfront
    · exact hu front hfront
    · have hup := hv rest hrest
      rw [depth_append]
      omega

theorem staysUp_letter {c : Char} (h : IsLetter c) : StaysUp 0 [c] := by
  intro front hfront
  obtain rfl | ⟨rest, rfl, hrest⟩ := List.prefix_cons_iff.1 hfront
  · exact Int.le_refl 0
  · rw [List.prefix_nil.1 hrest, depth_letter h]
    exact Int.le_refl 0

/-! ## Nested configurations -/

/-- A configuration that replaces each of its letters by a nested text. -/
def IsNested (config : Config) : Prop := ∀ d ∈ config.definitions, NestedText d.actions.toList

instance (config : Config) : Decidable config.IsNested :=
  inferInstanceAs (Decidable (∀ d ∈ config.definitions, NestedText d.actions.toList))

variable {config : Config} {a : Alphabet}

theorem StaysUp.replacement {start : Int} {c : Char} (hnested : config.IsNested)
    (h : StaysUp start [c]) : StaysUp start (config.replacement c) := by
  rw [Config.replacement]
  cases hd : config.definitions.find? (·.literal == c) with
  | none => exact h
  | some d =>
      have hactions := nestedText_iff.1 (hnested d (List.mem_of_find?_eq_some hd))
      exact hactions.1.mono h.nonneg

theorem StaysUp.flatMap {start : Int} {text : List Char} (hvalid : Valid config.definitions)
    (hnested : config.IsNested) (h : StaysUp start text) :
    StaysUp start (text.flatMap config.replacement) := by
  -- What comes after a symbol starts at another depth than the symbol did.
  induction text generalizing start with
  | nil => exact h
  | cons c text ih =>
      rw [← List.singleton_append, staysUp_append] at h
      rw [List.flatMap_cons, staysUp_append, depth_replacement hvalid]
      exact ⟨h.1.replacement hnested, ih h.2⟩

theorem staysUp_textAfter (hvalid : Valid config.definitions) (hnested : config.IsNested)
    (n : Nat) : StaysUp 0 (config.textAfter n) := by
  induction n with
  | zero =>
      show StaysUp 0 config.startText
      rw [startText, start?]
      cases hdefs : config.definitions with
      | nil => exact absurd hdefs hvalid.nonempty
      | cons d ds => exact staysUp_letter (hvalid.letters.letters d (by rw [hdefs]; simp))
  | succ n ih => exact ih.flatMap hvalid hnested

/-- Each generation of a nested configuration is nested. -/
theorem nestedText_textAfter (hvalid : Valid config.definitions) (hnested : config.IsNested)
    (n : Nat) : NestedText (config.textAfter n) :=
  nestedText_iff.2 ⟨staysUp_textAfter hvalid hnested n, depth_textAfter hvalid n⟩

theorem nestedText_spell (ha : config.compile = .ok a) (hnested : config.IsNested) (n : Nat) :
    NestedText (a.spell (a.generationOf n).toArray).toList := by
  rw [spell_eq_of_names ha (names_generation ha n), String.toList_ofList]
  exact nestedText_textAfter (valid_of_compile ha) hnested n

/-! ## Words -/

/-- What stays up in a text does not underflow in the word it names. -/
theorem StaysUp.not_underflows (ha : config.compile = .ok a) {word : List SymbolId}
    {text : List Char} (h : StaysUp 0 text) (hnames : List.Forall₂ config.Names word text) :
    ¬ a.Underflows word := by
  rw [Alphabet.underflows_iff]
  rintro ⟨front, hfront, hlt⟩
  rw [List.prefix_iff_eq_take.1 hfront,
    level_eq_depth ha (List.forall₂_take front.length hnames)] at hlt
  have hup := h _ (List.take_prefix front.length text)
  omega

theorem not_underflows_generationOf (ha : config.compile = .ok a) (hnested : config.IsNested)
    (n : Nat) : ¬ a.Underflows (a.generationOf n) :=
  (staysUp_textAfter (valid_of_compile ha) hnested n).not_underflows ha (names_generation ha n)

end Config

namespace Alphabet

variable {a : Alphabet}

theorem Underflows.of_front {word word' : List SymbolId} (h : a.Underflows word)
    (hword : word <+: word') : a.Underflows word' := by
  obtain ⟨front, hfront, hlt⟩ := h
  exact ⟨front, hfront.trans hword, hlt⟩

/-- An expansion ends with the front of a generation. -/
theorem word_prefix_generationOf (a : Alphabet) (n bound : Nat) (keepPrevious : Bool) :
    (a.expand n bound keepPrevious).word.toList <+:
      a.generationOf (a.expand n bound keepPrevious).iterations := by
  obtain ⟨_, hexpand⟩ | ⟨k, _, m, _, _, hexpand⟩ := a.expand_cases n bound keepPrevious
  · rw [hexpand]
    exact List.prefix_refl _
  · rw [hexpand]
    exact List.IsPrefix.flatMap (List.take_prefix m _) a.replacement

theorem word_of_not_exceeded {n bound : Nat} {keepPrevious : Bool}
    (h : (a.expand n bound keepPrevious).exceeded = false) :
    (a.expand n bound keepPrevious).word = (a.generationOf n).toArray := by
  rw [expand_of_not_exceeded h]
  rfl

/-- What is put aside is a whole generation. -/
theorem exists_generationOf_of_previous {n bound : Nat} {keepPrevious : Bool} {word : Word}
    (h : (a.expand n bound keepPrevious).previous = some word) :
    ∃ k, word = (a.generationOf k).toArray := by
  rw [previous_expand] at h
  exact ⟨_, (keptAt_eq_some_iff.1 h).2.symm⟩

end Alphabet

/-! ## Drawings -/

namespace Config

variable {config : Config} {a : Alphabet}

open Alphabet

theorem not_underflows_expand (ha : config.compile = .ok a) (hnested : config.IsNested)
    (n bound : Nat) (keepPrevious : Bool) :
    ¬ a.Underflows (a.expand n bound keepPrevious).word.toList := fun h =>
  not_underflows_generationOf ha hnested _ (h.of_front (a.word_prefix_generationOf ..))

/-- No pop comes without its push, also where the expansion was cut. -/
theorem no_pop_on_empty (ha : config.compile = .ok a) (hnested : config.IsNested) (n bound : Nat)
    (keepPrevious : Bool) (startAngle stepSize : Float) :
    (a.draw (a.expand n bound keepPrevious).word startAngle stepSize).anomalies.contains
      .popOnEmptyStack = false := by
  rw [anomalies_draw, if_neg (not_underflows_expand ha hnested n bound keepPrevious)]
  split <;> rfl

theorem not_overhangs_generationOf (ha : config.compile = .ok a) (hnested : config.IsNested)
    (n : Nat) : ¬ a.Overhangs (a.generationOf n) := by
  rw [← underflows_iff_overhangs (level_generationOf ha n)]
  exact not_underflows_generationOf ha hnested n

theorem anomalies_of_not_exceeded (ha : config.compile = .ok a) (hnested : config.IsNested)
    {n bound : Nat} {keepPrevious : Bool} (h : (a.expand n bound keepPrevious).exceeded = false)
    (startAngle stepSize : Float) :
    (a.draw (a.expand n bound keepPrevious).word startAngle stepSize).anomalies = .none := by
  rw [word_of_not_exceeded h, anomalies_draw,
    if_neg (not_underflows_generationOf ha hnested n),
    if_neg (not_overhangs_generationOf ha hnested n)]
  rfl

theorem saved_of_not_exceeded (ha : config.compile = .ok a) (hnested : config.IsNested)
    {n bound : Nat} {keepPrevious : Bool} (h : (a.expand n bound keepPrevious).exceeded = false)
    (startAngle stepSize : Float) :
    (a.walk (.start startAngle stepSize) (a.expand n bound keepPrevious).word).turtle.saved =
      [] := by
  have htally : a.Tally (a.generationOf n)
      (a.walk (.start startAngle stepSize) (a.generationOf n).toArray) := tally_walk rfl rfl _
  rw [word_of_not_exceeded h]
  by_contra hsaved
  exact not_overhangs_generationOf ha hnested n (htally.saved_ne_nil_iff.1 hsaved)

end Config

namespace Simulator

theorem resultWith_of_nested {config : Config} (hnested : config.IsNested) (bound : UInt64)
    (keepPrevious : Bool) :
    (resultWith config.compile config bound keepPrevious).anomalies.contains .popOnEmptyStack =
        false ∧
      ((resultWith config.compile config bound keepPrevious).outcome = .ok →
        (resultWith config.compile config bound keepPrevious).anomalies = .none) := by
  cases ha : config.compile with
  | error e =>
      have hnone : Anomalies.none.contains .popOnEmptyStack = false := by decide
      exact ⟨hnone, fun _ => rfl⟩
  | ok a =>
      refine ⟨Config.no_pop_on_empty ha hnested .., fun hok => ?_⟩
      have hwhole := (outcome_render_ok_iff ..).1 hok
      exact Config.anomalies_of_not_exceeded ha hnested hwhole ..

/-- Where every letter is replaced by a nested text, every generation is nested, and so is
one that is put aside. The turtle always finds a saved place for a pop, and has none
left at the end of a whole generation. No result notes a pop on an empty stack, and
none that is not cut has any note. -/
theorem nested_never_pops_empty {config : Config} (hnested : config.IsNested) :
    (∀ (a : Alphabet) (n bound : Nat) (keepPrevious : Bool) (startAngle stepSize : Float),
      config.compile = .ok a →
      let e := a.expand n bound keepPrevious
      let drawing := a.draw e.word startAngle stepSize
      drawing.anomalies.contains .popOnEmptyStack = false ∧
      (∀ k, NestedText (a.spell (a.generationOf k).toArray).toList) ∧
      (∀ word, e.previous = some word → NestedText (a.spell word).toList) ∧
      (e.exceeded = false →
        NestedText (a.spell e.word).toList ∧ drawing.anomalies = .none ∧
          (a.walk (.start startAngle stepSize) e.word).turtle.saved = [])) ∧
    ∀ (settings : Settings) (history : List Request) (request : Request) (result : Result),
      request.config? = some config →
      ((fresh settings).after history).answer request = .exec result →
      result.anomalies.contains .popOnEmptyStack = false ∧
        (result.outcome = .ok → result.anomalies = .none) := by
  refine ⟨fun a n bound keepPrevious startAngle stepSize ha => ?_,
    fun settings history request result hconfig hresult => ?_⟩
  · intro e drawing
    refine ⟨Config.no_pop_on_empty ha hnested .., Config.nestedText_spell ha hnested,
      fun word hword => ?_, fun h => ⟨?_, Config.anomalies_of_not_exceeded ha hnested h ..,
        Config.saved_of_not_exceeded ha hnested h ..⟩⟩
    · obtain ⟨k, rfl⟩ := Alphabet.exists_generationOf_of_previous hword
      exact Config.nestedText_spell ha hnested k
    · show NestedText (a.spell (a.expand n bound keepPrevious).word).toList
      rw [Alphabet.word_of_not_exceeded h]
      exact Config.nestedText_spell ha hnested n
  · rw [((fresh_sound settings).after history).answer_eq] at hresult
    cases request with
    | exec c | execDoubled c =>
        cases hconfig
        cases hresult
        exact resultWith_of_nested hnested ..
    | actionString c => cases hresult
    | setBound size => cases hresult

/-- A generation that is cut behind a bracket has a note, but not that of a pop. The one
before is nested. -/
theorem nested_never_pops_empty_bracketed :
    (bracketed "[A]").IsNested ∧
      let a := (bracketed "[A]").assemble [.literal 'A' 0 .paint #[2, 4, 3]]
      let e := a.expand 2 0 true
      e.exceeded = true ∧ (a.draw e.word 0 1).anomalies = .pushNeverPopped ∧
        (a.draw e.word 0 1).anomalies.contains .popOnEmptyStack = false ∧
        ∃ word, e.previous = some word ∧ a.spell word = "[A]" ∧
          NestedText (a.spell word).toList := by
  have hnested : (bracketed "[A]").IsNested := by decide +kernel
  refine ⟨hnested, ?_⟩
  intro a e
  have ha : (bracketed "[A]").compile = .ok a :=
    Config.compile_eq_ok_iff.2 ⟨_, by decide +kernel, rfl⟩
  obtain ⟨hpop, _, hprevious, _⟩ :=
    (nested_never_pops_empty hnested).1 a 2 0 true 0 1 ha
  have hsome : e.previous = some #[2, 4, 3] := by decide +kernel
  exact ⟨by decide +kernel, by decide +kernel, hpop, _, hsome, by decide +kernel,
    hprevious _ hsome⟩

end Simulator

end Lindenmayer
