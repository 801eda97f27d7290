import Lindenmayer.Proofs.AlikeDrawing
import Lindenmayer.Proofs.CheckedCompilation
import Lindenmayer.Proofs.TextualRewriting

/-!
# Definitions can be read back

Compilation loses nothing of the definitions. They are found again in the alphabet that
they were compiled to, in their order, behind the operators. A literal has its letter
and its effects, the number that it has instead of a color is the place of that color,
and the names of its successor are spelled as its actions.

What the spelling rests on is that names are right. The name of a letter is its place
among the literals, whether its definition comes earlier or later or is the one that
is being compiled. So the action with that name is written with that letter.

Two configurations with the same alphabet thus have the same definitions.
-/

namespace Lindenmayer

namespace Alphabet

/-- Being the literal of a definition, as far as the alphabet tells symbols and colors. -/
inductive Represents (a : Alphabet) : Definition → Action → Prop
  | literal {d : Definition} {colorNumber : UInt8} {successor : Word}
      (actions : List.Forall₂ a.Writes successor.toList d.actions.toList)
      (color : a.colors[colorNumber.toNat]? = some d.color) :
      Represents a d (.literal d.literal colorNumber d.effects successor)

/-- The definition that a literal stands for. An operator has none. -/
def definition? (a : Alphabet) : Action → Option Definition
  | .literal symbol colorNumber effects successor =>
      a.colors[colorNumber.toNat]?.map fun color => ⟨symbol, a.spell successor, color, effects⟩
  | _ => none

def definitions (a : Alphabet) : List Definition := a.actions.toList.filterMap a.definition?

variable {a b : Alphabet}

theorem Represents.definition? {d : Definition} {x : Action} (h : a.Represents d x) :
    a.definition? x = some d := by
  cases h with
  | @literal colorNumber successor hactions hcolor =>
      have hspell : a.spell successor.toList.toArray = d.actions := by
        rw [spell_of_symbols hactions, String.ofList_toList]
      rw [Array.toArray_toList] at hspell
      rw [Alphabet.definition?, hcolor, Option.map_some, hspell]

theorem filterMap_of_represents {ds : List Definition} {xs : List Action}
    (h : List.Forall₂ a.Represents ds xs) : xs.filterMap a.definition? = ds := by
  induction h with
  | nil => rfl
  | cons hx _ ih => rw [List.filterMap_cons, hx.definition?, ih]

/-! ## Alphabets that are alike -/

theorem forall₂_of_getElem?_rel {α β : Type} {R : α → β → Prop} {xs : List α} {ys : List β}
    (h : ∀ i : Nat, Option.Rel R xs[i]? ys[i]?) : List.Forall₂ R xs ys := by
  induction xs generalizing ys with
  | nil =>
      cases ys with
      | nil => exact .nil
      | cons y ys => cases h 0
  | cons x xs ih =>
      cases ys with
      | nil => cases h 0
      | cons y ys =>
          refine .cons ?_ (ih fun i => h (i + 1))
          cases h 0 with
          | some hxy => exact hxy

theorem Alike.definition?_eq (h : a.Alike b) {x y : Action} (hxy : x.Alike y) :
    a.definition? x = b.definition? y := by
  cases hxy with
  | literal symbol colorNumber effects successor =>
      rw [Alphabet.definition?, Alphabet.definition?, h.colors, h.spell_eq]
  | _ => rfl

/-- The signs of zeros among the angles and factors have no part in the definitions. -/
theorem Alike.definitions_eq (h : a.Alike b) : a.definitions = b.definitions := by
  have hactions : List.Forall₂ Action.Alike a.actions.toList b.actions.toList :=
    forall₂_of_getElem?_rel fun i => by
      rw [Array.getElem?_toList, Array.getElem?_toList]
      exact h.actions i
  rw [definitions, definitions]
  generalize a.actions.toList = xs at hactions ⊢
  generalize b.actions.toList = ys at hactions ⊢
  induction hactions with
  | nil => rfl
  | cons hxy _ ih => rw [List.filterMap_cons, List.filterMap_cons, h.definition?_eq hxy, ih]

end Alphabet

namespace Config

variable {config : Config} {a : Alphabet}

/-! ## The table of colors -/

theorem toList_palette (definitions : List Definition) :
    (palette definitions).toList = (definitions.map (·.color)).eraseDups := by
  induction definitions using List.reverseRecOn with
  | nil => rfl
  | append_singleton ds d ih =>
      have hmem : (palette ds).contains d.color = true ↔ d.color ∈ ds.map (·.color) := by
        rw [Array.contains_iff_mem, ← Array.mem_toList_iff, ih, List.mem_eraseDups]
      rw [palette_concat, addColor, List.map_append, List.eraseDups_append, ← ih]
      by_cases hseen : d.color ∈ ds.map (·.color)
      · have hrest : [d.color].removeAll (ds.map (·.color)) = [] :=
          List.filter_cons_of_neg (by simpa using hseen)
        rw [if_pos (hmem.2 hseen), List.map_singleton, hrest]
        exact (List.append_nil _).symm
      · have hrest : [d.color].removeAll (ds.map (·.color)) = [d.color] :=
          List.filter_cons_of_pos (by simpa using hseen)
        rw [if_neg fun h => hseen (hmem.1 h), List.map_singleton, hrest, Array.toList_push]
        rfl

/-! ## Compiled alphabets -/

theorem represents_of_compiles {literals : List Action}
    (hlit : compileLiterals config.definitions = .ok literals) {d : Definition} {x : Action}
    (hd : d ∈ config.definitions) (hx : Compiles config.definitions d x) :
    (config.assemble literals).Represents d x := by
  have ha : config.compile = .ok (config.assemble literals) :=
    compile_eq_ok_iff.2 ⟨literals, hlit, rfl⟩
  obtain ⟨word, hword, rfl⟩ := hx
  refine .literal ?_ (getElem?_colorNumber (valid_of_compile ha).letters hd)
  have hnames : List.Forall₂ config.Names word.toList d.actions.toList :=
    (successorOf_eq_ok hword).1.flip
  exact hnames.imp fun _ _ h => h.symbol ha

theorem forall₂_represents {literals : List Action}
    (hlit : compileLiterals config.definitions = .ok literals) :
    List.Forall₂ (config.assemble literals).Represents config.definitions literals := by
  have hcompiles := (compileLiterals_eq_ok hlit).2.2
  have hmem := (List.forall₂_and_left (p := (· ∈ config.definitions)) _ _).2
    ⟨fun _ h => h, hcompiles⟩
  exact hmem.imp fun d x h => represents_of_compiles hlit h.1 h.2

theorem definitions_of_compile (ha : config.compile = .ok a) :
    a.definitions = config.definitions := by
  obtain ⟨literals, hlit, rfl⟩ := compile_eq_ok_iff.1 ha
  show (config.operators ++ literals).filterMap _ = _
  rw [List.filterMap_append, Alphabet.filterMap_of_represents (forall₂_represents hlit)]
  rfl

/-- Being an alphabet that the definitions can be read back from. -/
structure ReadsBack (config : Config) (a : Alphabet) : Prop where
  /-- Behind the operators there is a literal for each definition, in the same order. -/
  actions : ∃ literals, a.actions.toList = config.operators ++ literals ∧
    List.Forall₂ a.Represents config.definitions literals
  distinct : (a.actions.toList.map Action.symbol).Nodup
  start : ∃ d, config.start? = some d ∧ a.Writes a.start d.literal
  /-- The colors are there once each, in the order in which they are first used. -/
  colors : a.colors.toList = (config.definitions.map (·.color)).eraseDups
  definitions : a.definitions = config.definitions

theorem readsBack_of_compile (ha : config.compile = .ok a) : config.ReadsBack a := by
  have hdefinitions := definitions_of_compile ha
  have hdistinct := nodup_symbols ha
  have hstart := names_start ha
  obtain ⟨literals, hlit, rfl⟩ := compile_eq_ok_iff.1 ha
  refine ⟨⟨literals, rfl, forall₂_represents hlit⟩, hdistinct, ?_, toList_palette _,
    hdefinitions⟩
  rw [startText] at hstart
  cases hd : config.start? with
  | none =>
      rw [hd] at hstart
      cases hstart
  | some d =>
      rw [hd] at hstart
      cases hstart with
      | cons hname _ => exact ⟨d, rfl, hname.symbol ha⟩

theorem compile_of_compileChecked (h : config.compileChecked = .ok a) : config.compile = .ok a := by
  rw [compileChecked_eq] at h
  cases hc : config.compile with
  | error e =>
      rw [hc] at h
      cases h
  | ok b =>
      rw [hc] at h
      cases h
      rfl

/-- From what compiles, in place or not, the definitions can be read back. If two alphabets
are the same, but perhaps for the signs of zeros in what the operators do, then they were
compiled from the same definitions. -/
theorem definitions_read_back :
    (∀ (config : Config) (a : Alphabet),
      config.compile = .ok a ∨ config.compileChecked = .ok a → config.ReadsBack a) ∧
    ∀ (config config' : Config) (a b : Alphabet),
      config.compile = .ok a → config'.compile = .ok b → a.Alike b →
        config.definitions = config'.definitions := by
  constructor
  · rintro config a (ha | ha)
    · exact readsBack_of_compile ha
    · exact readsBack_of_compile (compile_of_compileChecked ha)
  · intro config config' a b ha hb hab
    rw [← definitions_of_compile ha, ← definitions_of_compile hb, hab.definitions_eq]

/-- Letters that are used before and after they are defined, and two that share a color. -/
def hedge : Config where
  definitions := [⟨'C', "A[-C]", ⟨0, 128, 0, 255⟩, .paint⟩, ⟨'A', "BC+", .black, .move⟩,
    ⟨'B', "", ⟨0, 128, 0, 255⟩, .none⟩]

theorem definitions_read_back_hedge :
    let a := hedge.assemble [.literal 'C' 0 .paint #[5, 2, 1, 4, 3],
      .literal 'A' 1 .move #[6, 4, 0], .literal 'B' 0 .none #[]]
    hedge.compile = .ok a ∧ a.definitions = hedge.definitions ∧
      a.colors = #[⟨0, 128, 0, 255⟩, .black] ∧ hedge.compileChecked = .ok a := by
  intro a
  have ha : hedge.compile = .ok a := compile_eq_ok_iff.2 ⟨_, by decide +kernel, rfl⟩
  have hread := definitions_read_back.1 hedge a (.inl ha)
  exact ⟨ha, hread.definitions, by decide +kernel, by rw [compileChecked_eq, ha]; rfl⟩

end Config

end Lindenmayer
