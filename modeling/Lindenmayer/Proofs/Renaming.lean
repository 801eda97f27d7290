import Lindenmayer.Proofs.Correspondence
import Lindenmayer.Proofs.SpelledDrawing

/-!
# Names and order do not matter

A configuration can be written down in many ways. The letters may be other letters, as
long as different ones stay different, and the definitions may come in any order behind
the first, whose letter is the start symbol. That changes the names of symbols, since
these are places among the definitions, and the numbers of colors, since these go by
first use.

Still, if the one configuration compiles then so does the other, and their alphabets
correspond: a name matches another if it is the name of a letter and the other that of
the renamed letter. So what is drawn looks the same, and what is spelled is the same
text with its letters renamed.
-/

namespace Lindenmayer

/-- A letter renamed, or any other symbol left as it is. -/
def renameSymbol (ρ : Char → Char) (c : Char) : Char := if c.isUpper then ρ c else c

/-- The definition with its letter and the letters among its actions renamed. -/
def Definition.rename (ρ : Char → Char) (d : Definition) : Definition :=
  { d with literal := renameSymbol ρ d.literal, actions := d.actions.map (renameSymbol ρ) }

/-- Being the same definitions in another order behind the first, with their letters
renamed to letters and no two of them to the same. -/
structure Rearranges (ρ : Char → Char) (definitions definitions' : List Definition) : Prop where
  letters : ∀ d ∈ definitions, IsLetter (ρ d.literal)
  injective : ∀ d ∈ definitions, ∀ e ∈ definitions,
    ρ d.literal = ρ e.literal → d.literal = e.literal
  reordered : definitions'.Perm (definitions.map (.rename ρ))
  first : definitions'.head? = (definitions.map (.rename ρ)).head?

section

variable {ρ : Char → Char} {definitions definitions' : List Definition} {c : Char}

theorem renameSymbol_letter (h : IsLetter c) : renameSymbol ρ c = ρ c :=
  if_pos (isUpper_iff.2 h)

theorem renameSymbol_operator (h : c ∈ ['+', '-', '[', ']']) : renameSymbol ρ c = c :=
  if_neg fun hupper => Config.not_isLetter_operator h (isUpper_iff.1 hupper)

namespace Rearranges

variable (h : Rearranges ρ definitions definitions')

include h

theorem mem_iff {d' : Definition} : d' ∈ definitions' ↔ ∃ d ∈ definitions, d.rename ρ = d' := by
  rw [h.reordered.mem_iff, List.mem_map]

theorem isLetter_rename (hletters : LettersSound definitions) {d : Definition}
    (hd : d ∈ definitions) : IsLetter (d.rename ρ).literal := by
  show IsLetter (renameSymbol ρ d.literal)
  rw [renameSymbol_letter (hletters.letters d hd)]
  exact h.letters d hd

theorem lettersSound (hletters : LettersSound definitions) : LettersSound definitions' := by
  refine ⟨fun d' hd' => ?_, ?_⟩
  · obtain ⟨d, hd, rfl⟩ := h.mem_iff.1 hd'
    exact h.isLetter_rename hletters hd
  · have hmap : (definitions.map (Definition.rename ρ)).map (·.literal) =
        (definitions.map (·.literal)).map (renameSymbol ρ) := by
      rw [List.map_map, List.map_map]
      rfl
    rw [(h.reordered.map _).nodup_iff, hmap]
    refine hletters.distinct.map_on fun x hx y hy hxy => ?_
    obtain ⟨d, hd, rfl⟩ := List.mem_map.1 hx
    obtain ⟨e, he, rfl⟩ := List.mem_map.1 hy
    rw [renameSymbol_letter (hletters.letters d hd),
      renameSymbol_letter (hletters.letters e he)] at hxy
    exact h.injective d hd e he hxy

/-! ## Valid definitions stay valid -/

theorem known (hc : Known definitions c) : Known definitions' (renameSymbol ρ c) := by
  obtain hop | hletter := hc
  · rw [renameSymbol_operator hop]
    exact .inl hop
  · obtain ⟨d, hd, rfl⟩ := List.mem_map.1 hletter
    exact .inr (List.mem_map.2 ⟨d.rename ρ, h.mem_iff.2 ⟨d, hd, rfl⟩, rfl⟩)

theorem renameSymbol_eq_operator_iff (hletters : LettersSound definitions)
    (hc : Known definitions c) {op : Char} (hop : op ∈ ['+', '-', '[', ']']) :
    renameSymbol ρ c = op ↔ c = op := by
  obtain hc | hletter := hc
  · rw [renameSymbol_operator hc]
  · obtain ⟨d, hd, rfl⟩ := List.mem_map.1 hletter
    refine ⟨fun heq => ?_, fun heq => ?_⟩
    · exact absurd (heq ▸ h.isLetter_rename hletters hd) (Config.not_isLetter_operator hop)
    · exact absurd (heq ▸ hletters.letters d hd) (Config.not_isLetter_operator hop)

theorem count_operator (hletters : LettersSound definitions) {symbols : List Char}
    (hknown : ∀ x ∈ symbols, Known definitions x) {op : Char} (hop : op ∈ ['+', '-', '[', ']']) :
    (symbols.map (renameSymbol ρ)).count op = symbols.count op := by
  rw [List.count_eq_countP, List.count_eq_countP, List.countP_map]
  refine List.countP_congr fun x hx => ?_
  rw [Function.comp_apply, beq_iff_eq, beq_iff_eq]
  exact h.renameSymbol_eq_operator_iff hletters (hknown x hx) hop

theorem actionsSound (hletters : LettersSound definitions) {d : Definition}
    (hd : ActionsSound definitions d) : ActionsSound definitions' (d.rename ρ) := by
  have htext : (d.rename ρ).actions.toList = d.actions.toList.map (renameSymbol ρ) :=
    String.toList_map
  refine ⟨?_, ?_⟩
  · rw [htext]
    exact List.forall_mem_map.2 fun c hc => h.known (hd.known c hc)
  · rw [htext, h.count_operator hletters hd.known (by decide),
      h.count_operator hletters hd.known (by decide), hd.brackets]

theorem valid (hvalid : Valid definitions) : Valid definitions' := by
  refine ⟨fun hnil => ?_, h.lettersSound hvalid.letters, fun d' hd' => ?_⟩
  · have hperm := h.reordered
    rw [hnil, List.nil_perm, List.map_eq_nil_iff] at hperm
    exact hvalid.nonempty hperm
  · obtain ⟨d, hd, rfl⟩ := h.mem_iff.1 hd'
    exact h.actionsSound hvalid.letters (hvalid.actions d hd)

end Rearranges

end

/-! ## Texts -/

theorem find?_of_mem {definitions : List Definition} (hletters : LettersSound definitions)
    {d : Definition} (hd : d ∈ definitions) :
    definitions.find? (·.literal == d.literal) = some d := by
  have hsome : (definitions.find? (·.literal == d.literal)).isSome := by
    rw [List.find?_isSome]
    exact ⟨d, hd, beq_self_eq_true d.literal⟩
  obtain ⟨e, he⟩ := Option.isSome_iff_exists.1 hsome
  have hliteral : e.literal = d.literal := by simpa using List.find?_some he
  rw [he, List.inj_on_of_nodup_map hletters.distinct (List.mem_of_find?_eq_some he) hd hliteral]

namespace Config

theorem replacement_of_mem {config : Config} (hletters : LettersSound config.definitions)
    {d : Definition} (hd : d ∈ config.definitions) :
    config.replacement d.literal = d.actions.toList := by
  rw [replacement, find?_of_mem hletters hd]

section

variable {ρ : Char → Char} {config : Config} {definitions : List Definition}

theorem replacement_rename (h : Rearranges ρ config.definitions definitions)
    (hvalid : Valid config.definitions) {c : Char} (hc : Known config.definitions c) :
    ({ config with definitions } : Config).replacement (renameSymbol ρ c) =
      (config.replacement c).map (renameSymbol ρ) := by
  obtain hop | hletter := hc
  · have hfixed : ∀ {config : Config}, Valid config.definitions → config.replacement c = [c] := by
      intro config hvalid
      obtain ⟨a, ha⟩ := compile_of_valid hvalid
      obtain ⟨literals, hlit, _⟩ := compile_eq_ok_iff.1 ha
      refine replacement_operator hlit (Bool.eq_false_iff.2 fun hupper => ?_)
      exact not_isLetter_operator hop (isUpper_iff.1 hupper)
    have hfixed' : ({ config with definitions } : Config).replacement c = [c] :=
      hfixed (h.valid hvalid)
    rw [renameSymbol_operator hop, hfixed hvalid, hfixed', List.map_singleton,
      renameSymbol_operator hop]
  · obtain ⟨d, hd, rfl⟩ := List.mem_map.1 hletter
    have hd' : d.rename ρ ∈ definitions := h.mem_iff.2 ⟨d, hd, rfl⟩
    have hactions : ({ config with definitions } : Config).replacement (d.rename ρ).literal =
        (d.rename ρ).actions.toList := replacement_of_mem (h.lettersSound hvalid.letters) hd'
    rw [replacement_of_mem hvalid.letters hd]
    exact hactions.trans String.toList_map

theorem startText_rename (h : Rearranges ρ config.definitions definitions) :
    ({ config with definitions } : Config).startText = config.startText.map (renameSymbol ρ) := by
  show definitions.head?.toList.map (·.literal) = (config.definitions.head?.toList.map _).map _
  rw [h.first]
  cases config.definitions <;> rfl

/-! ## Alphabets -/

/-- Being the name of a symbol and the name of the renamed symbol. -/
def NamesRenamed (ρ : Char → Char) (config config' : Config) (id id' : SymbolId) : Prop :=
  ∃ c, config.Names id c ∧ config'.Names id' (renameSymbol ρ c)

theorem namesRenamed_of_names {config' : Config} {ids ids' : List SymbolId} {text : List Char}
    (hids : List.Forall₂ config.Names ids text)
    (hids' : List.Forall₂ config'.Names ids' (text.map (renameSymbol ρ))) :
    List.Forall₂ (NamesRenamed ρ config config') ids ids' := by
  induction hids generalizing ids' with
  | nil => cases hids'; exact .nil
  | cons hc _ ih =>
      cases hids' with
      | cons hc' hrest => exact .cons ⟨_, hc, hc'⟩ (ih hrest)

theorem exists_names_of_namesRenamed {config' : Config} {ids ids' : List SymbolId}
    (h : List.Forall₂ (NamesRenamed ρ config config') ids ids') :
    ∃ text, List.Forall₂ config.Names ids text ∧
      List.Forall₂ config'.Names ids' (text.map (renameSymbol ρ)) := by
  induction h with
  | nil => exact ⟨[], .nil, .nil⟩
  | cons hc _ ih =>
      obtain ⟨c, hc, hc'⟩ := hc
      obtain ⟨text, htext, htext'⟩ := ih
      exact ⟨c :: text, .cons hc htext, .cons hc' htext'⟩

/-- The action with the name of a letter is what its definition compiles to. -/
theorem Names.literal {a : Alphabet} (ha : config.compile = .ok a) {d : Definition}
    (hd : d ∈ config.definitions) {id : SymbolId} (h : config.Names id d.literal) :
    ∃ word, a.actions[id]? = some (literalOf a.colors d word) := by
  have hletters := (valid_of_compile ha).letters
  obtain ⟨literals, hlit, rfl⟩ := compile_eq_ok_iff.1 ha
  obtain hop | ⟨i, hi, rfl⟩ := resolve_eq_some h
  · have hop := List.mem_map_of_mem (f := Prod.fst) hop
    exact absurd (hletters.letters d hd) (not_isLetter_operator hop)
  · obtain ⟨e, x, he, _, hx, word, _, rfl⟩ := literal_of_findIdx? hlit hi
    rw [find?_of_mem hletters hd] at he
    cases he
    exact ⟨word, by simp [assemble, operators, hx]⟩

/-- The actions with the name of an operator are the same in all alphabets for the same
angles and the same scale factor. -/
theorem Names.operator {a a' : Alphabet} (ha : config.compile = .ok a)
    (ha' : ({ config with definitions } : Config).compile = .ok a') {c : Char}
    (hop : c ∈ ['+', '-', '[', ']']) {id id' : SymbolId} (h : config.Names id c)
    (h' : ({ config with definitions } : Config).Names id' c) :
    Option.Rel (Action.ActsLike a.colors a'.colors) a.actions[id]? a'.actions[id']? := by
  obtain ⟨literals, _, rfl⟩ := compile_eq_ok_iff.1 ha
  obtain ⟨literals', _, rfl⟩ := compile_eq_ok_iff.1 ha'
  simp only [List.mem_cons, List.not_mem_nil, or_false] at hop
  obtain rfl | rfl | rfl | rfl := hop
  · cases h; cases h'; exact .some (.turn _ _ _)
  · cases h; cases h'; exact .some (.turn _ _ _)
  · cases h; cases h'; exact .some (.push _)
  · cases h; cases h'; exact .some .pop

theorem corresponds_rename (h : Rearranges ρ config.definitions definitions) {a a' : Alphabet}
    (ha : config.compile = .ok a)
    (ha' : ({ config with definitions } : Config).compile = .ok a') :
    a.Corresponds (NamesRenamed ρ config { config with definitions }) a' := by
  have hvalid := valid_of_compile ha
  have hknown : ∀ {id c}, config.Names id c → Known config.definitions c :=
    fun hc => (exists_resolve_iff hvalid.letters).1 ⟨_, hc⟩
  refine ⟨?_, fun id id' hid => ?_, fun id id' hid => ?_⟩
  · have hstart' := names_start ha'
    rw [startText_rename h] at hstart'
    cases namesRenamed_of_names (names_start ha) hstart' with
    | cons hstart _ => exact hstart
  · obtain ⟨c, hc, hc'⟩ := hid
    have hreplacement' := hc'.replacement ha'
    rw [replacement_rename h hvalid (hknown hc)] at hreplacement'
    exact namesRenamed_of_names (hc.replacement ha) hreplacement'
  · obtain ⟨c, hc, hc'⟩ := hid
    obtain hop | hletter := hknown hc
    · -- An operator keeps its symbol, and with it its place.
      rw [renameSymbol_operator hop] at hc'
      exact Names.operator ha ha' hop hc hc'
    · -- A literal may move, and so may its color, but the color stays that of its definition.
      obtain ⟨d, hd, rfl⟩ := List.mem_map.1 hletter
      have hd' : d.rename ρ ∈ definitions := h.mem_iff.2 ⟨d, hd, rfl⟩
      obtain ⟨word, hx⟩ := hc.literal ha hd
      obtain ⟨word', hx'⟩ := Names.literal (d := d.rename ρ) ha' hd' hc'
      rw [hx, hx']
      refine .some (.literal _ _ ⟨d.color, ?_, ?_⟩ _ _ _)
      · obtain ⟨literals, _, rfl⟩ := compile_eq_ok_iff.1 ha
        exact getElem?_colorNumber hvalid.letters hd
      · obtain ⟨literals', _, rfl⟩ := compile_eq_ok_iff.1 ha'
        exact getElem?_colorNumber (h.lettersSound hvalid.letters) hd'

theorem spell_rename {a a' : Alphabet} (ha : config.compile = .ok a)
    (ha' : ({ config with definitions } : Config).compile = .ok a') {word word' : Word}
    (hword : List.Forall₂ (NamesRenamed ρ config { config with definitions }) word.toList
      word'.toList) :
    a'.spell word' = (a.spell word).map (renameSymbol ρ) := by
  obtain ⟨text, htext, htext'⟩ := exists_names_of_namesRenamed hword
  have hspell := spell_eq_of_names ha htext
  have hspell' := spell_eq_of_names ha' htext'
  rw [Array.toArray_toList] at hspell hspell'
  rw [hspell, hspell', ← String.toList_inj, String.toList_map, String.toList_ofList,
    String.toList_ofList]

end

end Config

namespace Simulator

/-- If the definitions of a configuration that compiles are put in another order behind
the first and their letters are renamed, then that compiles too. Two simulators that
hold the two against the same bound draw what looks the same, also under twice that
bound, and spell one text with different letters. -/
theorem answers_rename {ρ : Char → Char} {config : Config} {a : Alphabet}
    {definitions : List Definition} (ha : config.compile = .ok a)
    (h : Rearranges ρ config.definitions definitions) :
    let config' : Config := { config with definitions }
    (∃ a', config'.compile = .ok a') ∧
      ∀ (keepPrevious : Bool) (size size' : UInt64) (history history' : List Request),
        let s := (fresh ⟨size, keepPrevious⟩).after history
        let s' := (fresh ⟨size', keepPrevious⟩).after history'
        s.boundFor config = s'.boundFor config' →
          (s.exec config).2.1.LooksLike (s'.exec config').2.1 ∧
          (s.execDoubled config).2.1.LooksLike (s'.execDoubled config').2.1 ∧
          ∃ text, (s.actionString config).2.1 = .ok text ∧
            (s'.actionString config').2.1 = .ok (text.map (renameSymbol ρ)) := by
  intro config'
  obtain ⟨a', ha'⟩ : ∃ a', config'.compile = .ok a' :=
    Config.compile_of_valid (h.valid (Config.valid_of_compile ha))
  have hcorresponds := Config.corresponds_rename h ha ha'
  refine ⟨⟨a', ha'⟩, ?_⟩
  intro keepPrevious size size' history history' s s' hbound
  have hlooks : ∀ bound, (s.execWithin config bound).2.1.LooksLike
      (s'.execWithin config' bound).2.1 := by
    intro bound
    rw [execWithin_after, execWithin_after, ha, ha']
    exact hcorresponds.render config definitions bound.toNat keepPrevious
  have htext : (s.actionString config).2.1 = _ := actionString_after _ history config
  have htext' : (s'.actionString config').2.1 = _ := actionString_after _ history' config'
  refine ⟨?_, ?_,
    a.spell (a.expand config.iterations.toNat (s.boundFor config).toNat false).word, ?_, ?_⟩
  · rw [exec, exec, ← hbound]
    exact hlooks _
  · rw [execDoubled, execDoubled, ← hbound]
    exact hlooks _
  · rw [htext, ha]
    rfl
  · rw [htext', ha', ← hbound]
    exact congrArg Except.ok (Config.spell_rename ha ha'
      (hcorresponds.expand config.iterations.toNat (s.boundFor config).toNat false).word)

/-- A twig and its bud, in colors of their own. -/
def twig : Config where
  definitions := [⟨'X', "F[+X]Y", .black, .none⟩, ⟨'F', "FF", .rgb 0 128 0, .union .paint .move⟩,
    ⟨'Y', "-F", .rgb 255 0 0, .paint⟩]
  iterations := 2

/-- Where the bud comes before the twig, the numbers of their colors are exchanged. -/
theorem answers_rename_twig :
    let ρ : Char → Char := fun c => if c = 'X' then 'A' else if c = 'F' then 'X' else 'F'
    let definitions : List Definition := [⟨'A', "X[+A]F", .black, .none⟩,
      ⟨'F', "-X", .rgb 255 0 0, .paint⟩, ⟨'X', "XX", .rgb 0 128 0, .union .paint .move⟩]
    let s := fresh ⟨4, true⟩
    let result := (s.exec twig).2.1
    let result' := (s.exec { twig with definitions }).2.1
    Rearranges ρ twig.definitions definitions ∧ result.LooksLike result' ∧
      result.segments.map (·.colorNumber) = #[1, 1, 1, 2] ∧
      result'.segments.map (·.colorNumber) = #[2, 2, 2, 1] ∧
      (s.actionString twig).2.1 = .ok "FF[+F[+X]Y" ∧
      (s.actionString { twig with definitions }).2.1 = .ok "XX[+X[+A]F" := by
  intro ρ definitions s result result'
  have h : Rearranges ρ twig.definitions definitions :=
    ⟨by decide, by decide, by decide +kernel, by decide +kernel⟩
  have ha : twig.compile = .ok _ :=
    Config.compile_eq_ok_iff.2 ⟨[.literal 'X' 0 .none #[5, 2, 0, 4, 3, 6],
      .literal 'F' 1 ⟨3⟩ #[5, 5], .literal 'Y' 2 .paint #[1, 5]], by decide +kernel, rfl⟩
  obtain ⟨hlooks, _, text, htext, htext'⟩ := (answers_rename ha h).2 true 4 4 [] [] rfl
  have hspelled : (s.actionString twig).2.1.toOption = some "FF[+F[+X]Y" := by decide +kernel
  have hrenamed : text.map (renameSymbol ρ) = "XX[+X[+A]F" := by
    cases (congrArg Except.toOption htext).symm.trans hspelled
    decide +kernel
  refine ⟨h, hlooks, by decide +kernel, by decide +kernel, ?_, hrenamed ▸ htext'⟩
  cases (congrArg Except.toOption htext).symm.trans hspelled
  exact htext

end Simulator

end Lindenmayer
