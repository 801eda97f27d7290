import Lindenmayer.Proofs.Compilation
import Lindenmayer.Proofs.Generations

/-!
# Expansion rewrites text

On paper an L-system rewrites text: a letter becomes the text of its actions, and
operators stay what they are. A compiled alphabet rewrites names instead, into
successors that were looked up before any rewriting began.

The two agree because compilation names symbols correctly. The action with the name
of a symbol is written as that symbol, and what replaces the name is, name by name,
what replaces the symbol. From there the correspondence carries over to generations
and to the places where they are cut, so the text of an expansion is known exactly
without compiling anything.
-/

namespace Lindenmayer

namespace Config

/-- What replaces a symbol in the text of a generation. -/
def replacement (config : Config) (c : Char) : List Char :=
  match config.definitions.find? (·.literal == c) with
  | some d => d.actions.toList
  | none => [c]

def startText (config : Config) : List Char := config.start?.toList.map (·.literal)

/-- What the text of the start symbol becomes in `n` rounds of rewriting. -/
def textAfter (config : Config) (n : Nat) : List Char :=
  generation config.replacement config.startText n

/-- Whether a symbol of the alphabet has this name. -/
def Names (config : Config) (id : SymbolId) (c : Char) : Prop :=
  resolve config.definitions c = some id

end Config

/-! ## Names mean what they should -/

/-- A symbol with the name of a literal is the letter of one of the definitions, and
the literal is what that definition compiles to. -/
theorem Config.literal_of_findIdx? {config : Config} {literals : List Action} {c : Char} {i : Nat}
    (hlit : compileLiterals config.definitions = .ok literals)
    (h : config.definitions.findIdx? (·.literal == c) = some i) :
    ∃ d x, config.definitions.find? (·.literal == c) = some d ∧ d.literal = c ∧
      literals[i]? = some x ∧ Compiles config.definitions d x := by
  obtain ⟨hi, hd, hfirst⟩ := List.findIdx?_eq_some_iff_getElem.1 h
  have hrel := getElem?_rel (compileLiterals_eq_ok hlit).2.2 i
  rw [List.getElem?_eq_getElem hi] at hrel
  generalize hx : literals[i]? = x at hrel
  cases hrel with
  | some hrel =>
      refine ⟨_, _, List.find?_eq_some_iff_getElem.2 ⟨hd, i, hi, rfl, ?_⟩, by simpa using hd, rfl,
        hrel⟩
      simpa using hfirst

/-- Operators are not defined. -/
theorem Config.replacement_operator {config : Config} {literals : List Action} {c : Char}
    (hlit : compileLiterals config.definitions = .ok literals) (hc : c.isUpper = false) :
    config.replacement c = [c] := by
  have hupper := isUpper_of_checkLiterals (compileLiterals_eq_ok hlit).2.1
  have hnone : config.definitions.find? (·.literal == c) = none := by
    rw [List.find?_eq_none]
    intro d hd heq
    have := hupper d hd
    rw [beq_iff_eq.1 heq, hc] at this
    cases this
  rw [replacement, hnone]

/-- The action with the name of a symbol is written as that symbol. -/
theorem Config.Names.symbol {config : Config} {a : Alphabet} {id : SymbolId} {c : Char}
    (ha : config.compile = .ok a) (h : config.Names id c) :
    a.actions[id]?.map Action.symbol = some c := by
  obtain ⟨literals, hlit, rfl⟩ := compile_eq_ok_iff.1 ha
  obtain hop | ⟨i, hi, rfl⟩ := resolve_eq_some h
  · simp only [List.mem_cons, Prod.mk.injEq, List.not_mem_nil, or_false] at hop
    obtain ⟨rfl, rfl⟩ | ⟨rfl, rfl⟩ | ⟨rfl, rfl⟩ | ⟨rfl, rfl⟩ := hop <;> rfl
  · obtain ⟨d, x, _, rfl, hx, word, _, rfl⟩ := literal_of_findIdx? hlit hi
    simp [assemble, operators, hx, literalOf, Action.symbol]

/-- What replaces the name of a symbol is, name by name, what replaces the symbol. -/
theorem Config.Names.replacement {config : Config} {a : Alphabet} {id : SymbolId} {c : Char}
    (ha : config.compile = .ok a) (h : config.Names id c) :
    List.Forall₂ config.Names (a.replacement id) (config.replacement c) := by
  obtain ⟨literals, hlit, rfl⟩ := compile_eq_ok_iff.1 ha
  obtain hop | ⟨i, hi, rfl⟩ := resolve_eq_some h
  · have hsame : (config.assemble literals).replacement id = [id] ∧ c.isUpper = false := by
      simp only [List.mem_cons, Prod.mk.injEq, List.not_mem_nil, or_false] at hop
      obtain ⟨rfl, rfl⟩ | ⟨rfl, rfl⟩ | ⟨rfl, rfl⟩ | ⟨rfl, rfl⟩ := hop <;> exact ⟨rfl, rfl⟩
    rw [hsame.1, replacement_operator hlit hsame.2]
    exact List.Forall₂.cons h List.Forall₂.nil
  · obtain ⟨d, x, hd, _, hx, word, hword, rfl⟩ := literal_of_findIdx? hlit hi
    have hrepl : (config.assemble literals).replacement (i + 4) = word.toList := by
      simp [Alphabet.replacement, Alphabet.successor, assemble, operators, hx, literalOf]
    rw [hrepl, Config.replacement, hd]
    exact (successorOf_eq_ok hword).1.flip

theorem Config.names_start {config : Config} {a : Alphabet} (ha : config.compile = .ok a) :
    List.Forall₂ config.Names [a.start] config.startText := by
  obtain ⟨literals, hlit, rfl⟩ := compile_eq_ok_iff.1 ha
  obtain ⟨hne, hcheck, _⟩ := compileLiterals_eq_ok hlit
  have hupper := isUpper_of_checkLiterals hcheck
  rw [startText, start?]
  cases hdefs : config.definitions with
  | nil => exact absurd hdefs hne
  | cons d ds =>
      have hd := hupper d (by rw [hdefs]; exact List.mem_cons_self)
      refine List.Forall₂.cons ?_ List.Forall₂.nil
      rw [Names, hdefs, resolve_of_isUpper _ hd]
      simp [assemble, List.findIdx?_cons]

theorem Config.names_generation {config : Config} {a : Alphabet} (ha : config.compile = .ok a)
    (n : Nat) : List.Forall₂ config.Names (a.generationOf n) (config.textAfter n) :=
  forall₂_generation (fun _ _ h => h.replacement ha) (names_start ha) n

/-- A word whose symbols are written with the characters of a text is spelled as that text. -/
theorem Alphabet.spell_of_symbols {a : Alphabet} {word : List SymbolId} {text : List Char}
    (h : List.Forall₂ (fun id c => a.actions[id]?.map Action.symbol = some c) word text) :
    a.spell word.toArray = String.ofList text := by
  rw [spell, List.foldl_toArray, ← String.empty_append (s := String.ofList text)]
  -- The text before the rest of the word changes from symbol to symbol.
  generalize "" = before
  induction h generalizing before with
  | nil => simp
  | @cons id c _ _ hc _ ih =>
      obtain ⟨x, hx, hsymbol⟩ := Option.map_eq_some_iff.1 hc
      rw [List.foldl_cons, hx, ih, ← String.toList_inj]
      simp [hsymbol]

/-- A word that is named by a text is spelled as that text. -/
theorem Config.spell_eq_of_names {config : Config} {a : Alphabet} (ha : config.compile = .ok a)
    {word : List SymbolId} {text : List Char} (h : List.Forall₂ config.Names word text) :
    a.spell word.toArray = String.ofList text :=
  Alphabet.spell_of_symbols (h.imp fun _ _ hc => hc.symbol ha)

/-! ## Whole expansions -/

/-- Compiling, expanding and spelling is rewriting text. If every generation before
the last fits, the result is the text after all iterations. Otherwise it is what
replaces the shortest prefix that is too much, of the first text that does not fit. -/
theorem Config.spell_expand {config : Config} {a : Alphabet} (ha : config.compile = .ok a)
    (n bound : Nat) (keepPrevious : Bool) :
    let result := a.expand n bound keepPrevious
    ((∀ k < n, Fits config.replacement bound (config.textAfter k)) →
      a.spell result.word = String.ofList (config.textAfter n) ∧
        result.exceeded = false ∧ result.iterations = n) ∧
    ∀ k < n, (∀ i < k, Fits config.replacement bound (config.textAfter i)) →
      ¬ Fits config.replacement bound (config.textAfter k) →
      ∃ m, CutAt config.replacement bound (config.textAfter k) m ∧
        a.spell result.word =
          String.ofList (((config.textAfter k).take m).flatMap config.replacement) ∧
        result.exceeded = true ∧ result.iterations = k + 1 := by
  have hφ : ∀ id c, config.Names id c →
      List.Forall₂ config.Names (a.replacement id) (config.replacement c) :=
    fun _ _ h => h.replacement ha
  have hgen : ∀ k, List.Forall₂ config.Names (a.generationOf k) (config.textAfter k) :=
    forall₂_generation hφ (names_start ha)
  have hfits : ∀ k, Fits a.replacement bound (a.generationOf k) ↔
      Fits config.replacement bound (config.textAfter k) :=
    fun k => fits_iff_of_forall₂ hφ (hgen k) bound
  constructor
  · intro hall
    rw [Alphabet.expand_of_fits keepPrevious fun k hk => (hfits k).2 (hall k hk)]
    exact ⟨spell_eq_of_names ha (hgen n), rfl, rfl⟩
  · intro k hk hbefore hmiss
    obtain ⟨m, hcut⟩ := not_fits_iff.1 hmiss
    have hcut' := (cutAt_iff_of_forall₂ hφ (hgen k) bound m).2 hcut
    rw [Alphabet.expand_of_cut keepPrevious hk (fun i hi => (hfits i).2 (hbefore i hi)) hcut']
    have hword := List.rel_flatMap (List.forall₂_take m (hgen k)) fun {id c} => hφ id c
    exact ⟨m, hcut, spell_eq_of_names ha hword, rfl, rfl⟩

/-- A letter that becomes two with a turn between them. -/
def Config.doubling : Config where
  definitions := [⟨'F', "F+F", .black, .move⟩]

/-- The second generation is cut if the first two letters of the first are too much,
but not if only the three of them are. -/
theorem Config.spell_expand_doubling :
    ∃ a, doubling.compile = .ok a ∧ a.spell (a.expand 2 4 false).word = "F+F+F+F" ∧
      a.spell (a.expand 2 3 false).word = "F+F+" := by
  have ha : doubling.compile = .ok _ :=
    compile_eq_ok_iff.2 ⟨[.literal 'F' 0 .move #[4, 0, 4]], by decide +kernel, rfl⟩
  refine ⟨_, ha, ?_, ?_⟩
  · rw [((spell_expand ha 2 4 false).1 (by decide +kernel)).1]
    decide +kernel
  · obtain ⟨m, hcut, hspell, _⟩ :=
      (spell_expand ha 2 3 false).2 1 (by decide) (by decide +kernel) (by decide +kernel)
    have hm : ∀ m < 3,
        3 < (((doubling.textAfter 1).take m).flatMap doubling.replacement).length → m = 2 := by
      decide +kernel
    rw [hspell, hm m hcut.proper hcut.exceeds]
    decide +kernel

end Lindenmayer
