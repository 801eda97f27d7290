import Lindenmayer.Proofs.Continuations
import Lindenmayer.Proofs.Except

/-!
# The parser reads the language of the grammar

Reading a token either adds it to the current item or finishes that item and begins
the next one; the places match those of the grammar. So by induction on the tokens,
the parser gets through exactly those that complete the text from where it is, with
the settings and the definitions in them added to the ones it has. It stops at a
number that is out of range, and only there does it reject a text of the grammar.

From the start of a text, what completes it is the text itself.
-/

namespace Lindenmayer.Script

theorem Key.setting_eq_ok_iff {key : Key} {numeral : List Char} {s : Setting} :
    key.setting numeral = .ok s ↔
      (⟨key, numeral⟩ : Assignment).InRange ∧ s = (⟨key, numeral⟩ : Assignment).setting := by
  cases key with
  | iterations =>
      have hlimit : Number.digitsValue numeral < UInt32.size ↔
          Number.digitsValue numeral ≤ 2 ^ 32 - 1 := Nat.lt_succ_iff
      simp only [Key.setting, Assignment.InRange, Assignment.setting, ← hlimit]
      split
      · next h => simp only [h, true_and, Except.ok.injEq, eq_comm]
      · next h => simp only [h, false_and, reduceCtorEq]
  | stackSize =>
      have hlimit : Number.digitsValue numeral < UInt64.size ↔
          Number.digitsValue numeral ≤ 2 ^ 64 - 1 := Nat.lt_succ_iff
      simp only [Key.setting, Assignment.InRange, Assignment.setting, ← hlimit]
      split
      · next h => simp only [h, true_and, Except.ok.injEq, eq_comm]
      · next h => simp only [h, false_and, reduceCtorEq]
  | _ => simp [Key.setting, Assignment.InRange, Assignment.setting, eq_comm]

namespace Progress

/-- What has been read when an item is finished and another place is reached. -/
def grown (p : Progress) (finished : List Assignment × List Definition) (place : Place) :
    Progress where
  settings := p.settings ++ finished.1.map Assignment.setting
  definitions := p.definitions ++ finished.2
  place := place

theorem grown_grown (p : Progress) (finished : List Assignment × List Definition)
    (settings : List Assignment) (definitions : List Definition) (place place' : Place) :
    (p.grown finished place).grown (settings, definitions) place' =
      p.grown (finished.1 ++ settings, finished.2 ++ definitions) place' := by
  simp only [grown, List.map_append, List.append_assoc]

theorem begin_eq (p : Progress) (token : Token) :
    p.begin token = { p with place := .begun token.lexeme } := by
  simp only [begin, Place.begun, Token.lexeme]
  cases Key.ofTerminal? token.terminal <;> rfl

/-- Where there is an item to finish, finishing it fails only because of its range. -/
theorem settle_eq_ok_iff {p q : Progress} (hitem : p.place.item ≠ ([], [])) :
    p.settle = .ok q ↔
      (∀ a ∈ p.place.item.1, a.InRange) ∧ q = p.grown p.place.item .opening := by
  obtain ⟨settings, definitions, place⟩ := p
  cases place with
  | value key numeral =>
      rw [settle, bind_eq_ok_iff]
      simp only [Key.setting_eq_ok_iff, Place.item, List.forall_mem_singleton, grown,
        List.map_singleton, List.append_nil]
      refine ⟨fun h => ?_, fun h => ?_⟩
      · obtain ⟨_, ⟨hrange, rfl⟩, h⟩ := h
        cases h
        exact ⟨hrange, rfl⟩
      · obtain ⟨hrange, rfl⟩ := h
        exact ⟨_, ⟨hrange, rfl⟩, rfl⟩
  | actions d => simp [settle, Place.item, grown, eq_comm]
  | flags d => simp [settle, Place.item, grown, eq_comm]
  | _ => exact absurd rfl hitem

theorem settle_begin_eq_ok_iff {p q : Progress} {token : Token} (hitem : p.place.item ≠ ([], [])) :
    (do return (← p.settle).begin token) = .ok q ↔
      (∀ a ∈ p.place.item.1, a.InRange) ∧ q = p.grown p.place.item (.begun token.lexeme) := by
  rw [bind_eq_ok_iff]
  simp only [settle_eq_ok_iff hitem]
  refine ⟨fun h => ?_, fun h => ?_⟩
  · obtain ⟨_, ⟨hrange, rfl⟩, h⟩ := h
    cases h
    exact ⟨hrange, begin_eq ..⟩
  · obtain ⟨hrange, rfl⟩ := h
    exact ⟨_, ⟨hrange, rfl⟩, congrArg Except.ok (begin_eq ..)⟩

/-- A token is added to what is there, or finishes it. -/
theorem advance_eq_ok_iff {p q : Progress} {token : Token} :
    p.advance token = .ok q ↔
      (∀ a ∈ (p.place.finished token.terminal).1, a.InRange) ∧
        q = p.grown (p.place.finished token.terminal) (p.place.next token.lexeme) := by
  obtain ⟨settings, definitions, place⟩ := p
  cases place with
  | value key numeral => exact settle_begin_eq_ok_iff nofun
  | actions | flags =>
      cases hflag : flag? token.terminal with
      | some flag =>
          simp [advance, hflag, Place.finished, Place.next, Token.lexeme, grown, eq_comm]
      | none =>
          by_cases hcolor : token.terminal = .color
          · simp [advance, hcolor, flag?, Place.finished, Place.next, Token.lexeme, grown, eq_comm]
          · simp only [advance, hflag, hcolor, if_false]
            rw [settle_begin_eq_ok_iff (by simp [Place.item])]
            simp [hflag, hcolor, Place.finished, Place.next, Token.lexeme]
  | opening => simp [advance, begin_eq, Place.finished, Place.item, Place.next, grown, eq_comm]
  | key k => simp [advance, Place.finished, Place.item, Place.next, grown, eq_comm, Token.lexeme]
  | literal c => simp [advance, Place.finished, Place.item, Place.next, grown, eq_comm]
  | assigned c =>
      simp [advance, Place.finished, Place.item, Place.next, grown, eq_comm, Token.lexeme]

theorem finish_eq_ok_iff {entry : Entry} {p q : Progress} {position : Nat} :
    p.finish entry position = .ok q ↔
      p.place.mayEnd entry = true ∧ (∀ a ∈ p.place.item.1, a.InRange) ∧
        q = p.grown p.place.item .opening := by
  rw [finish]
  split
  · next hend =>
      have hitem : p.place.item ≠ ([], []) := by
        intro h
        revert hend h
        cases p.place <;> simp [Place.mayEnd, Place.item]
      rw [settle_eq_ok_iff hitem]
      simp [hend]
  · next hend => simp [hend]

theorem take_eq_ok_iff {entry : Entry} {p q : Progress} {token : Token} :
    p.take entry token = .ok q ↔
      p.place.accepts entry token.terminal = true ∧
        (∀ a ∈ (p.place.finished token.terminal).1, a.InRange) ∧
        q = p.grown (p.place.finished token.terminal) (p.place.next token.lexeme) := by
  rw [take]
  split
  · next haccepts => rw [advance_eq_ok_iff, and_iff_right haccepts]
  · next haccepts => exact ⟨nofun, fun h => absurd h.1 haccepts⟩

/-- A run from a place takes the tokens that complete the text from there. -/
theorem run_eq_ok_iff {entry : Entry} {tokens : List Token} {p q : Progress} {position : Nat}
    (hvalid : ∀ token ∈ tokens, token.terminal.Matches token.text) :
    (do (← tokens.foldlM (take entry) p).finish entry position) = .ok q ↔
      ∃ settings definitions,
        Rest entry (tokens.map Token.lexeme) settings definitions p.place ∧
          (∀ a ∈ settings, a.InRange) ∧ q = p.grown (settings, definitions) .opening := by
  induction tokens generalizing p with
  | nil =>
      show p.finish entry position = .ok q ↔ _
      rw [finish_eq_ok_iff, List.map_nil]
      simp only [rest_nil_iff]
      refine ⟨fun h => ?_, fun h => ?_⟩
      · obtain ⟨hend, hrange, rfl⟩ := h
        exact ⟨_, _, ⟨hend, rfl, rfl⟩, hrange, rfl⟩
      · obtain ⟨_, _, ⟨hend, rfl, rfl⟩, hrange, rfl⟩ := h
        exact ⟨hend, hrange, rfl⟩
  | cons token tokens ih =>
      have htoken : token.lexeme.terminal.Matches token.lexeme.text :=
        hvalid token List.mem_cons_self
      have hrest : ∀ t ∈ tokens, t.terminal.Matches t.text :=
        fun t ht => hvalid t (List.mem_cons_of_mem token ht)
      rw [List.foldlM_cons, bind_assoc, bind_eq_ok_iff, List.map_cons]
      simp only [take_eq_ok_iff, rest_cons_iff htoken, ih hrest]
      refine ⟨fun h => ?_, fun h => ?_⟩
      · obtain ⟨_, ⟨haccepts, hrange, rfl⟩, ss, ds, hmore, hall, rfl⟩ := h
        refine ⟨_, _, ⟨haccepts, ss, ds, hmore, rfl, rfl⟩, ?_, grown_grown ..⟩
        exact List.forall_mem_append.2 ⟨hrange, hall⟩
      · obtain ⟨_, _, ⟨haccepts, ss, ds, hmore, rfl, rfl⟩, hall, rfl⟩ := h
        obtain ⟨hrange, hall⟩ := List.forall_mem_append.1 hall
        exact ⟨_, ⟨haccepts, hrange, rfl⟩, ss, ds, hmore, hall, (grown_grown ..).symm⟩

end Progress

/-! ## Whole texts -/

theorem readTokens_eq_ok_iff {entry : Entry} {tokens : List Token} {q : Progress}
    (hvalid : ∀ token ∈ tokens, token.terminal.Matches token.text) :
    readTokens entry tokens .complete = .ok q ↔
      ∃ settings definitions,
        Sentence entry (tokens.map Token.lexeme) settings definitions ∧
          (∀ a ∈ settings, a.InRange) ∧
          q = ⟨settings.map Assignment.setting, definitions, .opening⟩ :=
  Progress.run_eq_ok_iff hvalid

/-- No text is read past a place where no terminal matches. -/
theorem readTokens_invalid_ne_ok {entry : Entry} {tokens : List Token} {position : Nat}
    {q : Progress} : readTokens entry tokens (.invalid position) ≠ .ok q := by
  rw [readTokens]
  cases tokens.foldlM (Progress.take entry) {} with
  | error e => exact nofun
  | ok p => exact nofun

theorem read_eq_ok_iff {entry : Entry} {text : String} {q : Progress} :
    read entry text = .ok q ↔
      ∃ tokens settings definitions,
        Lexes text.toList tokens ∧ Sentence entry tokens settings definitions ∧
          (∀ a ∈ settings, a.InRange) ∧
          q = ⟨settings.map Assignment.setting, definitions, .opening⟩ := by
  have hvalid : ∀ {tokens : List Token}, Lexes text.toList (tokens.map Token.lexeme) →
      ∀ token ∈ tokens, token.terminal.Matches token.text :=
    fun h token ht => h.matched token.lexeme (List.mem_map_of_mem ht)
  refine ⟨fun h => ?_, fun h => ?_⟩
  · rw [read] at h
    cases htokens : tokenize text with
    | mk tokens ending =>
        rw [htokens] at h
        cases ending with
        | invalid position => exact absurd h readTokens_invalid_ne_ok
        | complete =>
            have hlexes := tokenize_complete_iff.1 ⟨tokens, htokens, rfl⟩
            obtain ⟨settings, definitions, hrest⟩ := (readTokens_eq_ok_iff (hvalid hlexes)).1 h
            exact ⟨_, settings, definitions, hlexes, hrest⟩
  · obtain ⟨_, settings, definitions, hlexes, hrest⟩ := h
    obtain ⟨tokens, htokens, rfl⟩ := tokenize_complete_iff.2 hlexes
    rw [read, htokens]
    exact (readTokens_eq_ok_iff (hvalid hlexes)).2 ⟨settings, definitions, hrest⟩

/-- The settings of a text are made one after the other, over the defaults. -/
theorem parse_eq_ok_iff {text : String} {config : Config} :
    parse text = .ok config ↔
      ∃ tokens settings definitions,
        Lexes text.toList tokens ∧ ConfigRule tokens settings definitions ∧
          (∀ a ∈ settings, a.InRange) ∧
          config = (settings.map Assignment.setting).foldl Config.apply { definitions } := by
  rw [parse, bind_eq_ok_iff]
  simp only [read_eq_ok_iff]
  refine ⟨fun h => ?_, fun h => ?_⟩
  · obtain ⟨_, ⟨tokens, settings, definitions, hlexes, hrule, hrange, rfl⟩, h⟩ := h
    cases h
    exact ⟨tokens, settings, definitions, hlexes, hrule, hrange, rfl⟩
  · obtain ⟨tokens, settings, definitions, hlexes, hrule, hrange, rfl⟩ := h
    exact ⟨_, ⟨tokens, settings, definitions, hlexes, hrule, hrange, rfl⟩, rfl⟩

theorem parseSetting_eq_ok_iff {text : String} {setting : Setting} :
    parseSetting text = .ok setting ↔
      ∃ tokens a, Lexes text.toList tokens ∧ SettingRule tokens a ∧ a.InRange ∧
        setting = a.setting := by
  rw [parseSetting, bind_eq_ok_iff]
  simp only [read_eq_ok_iff]
  refine ⟨fun h => ?_, fun h => ?_⟩
  · obtain ⟨_, ⟨tokens, _, _, hlexes, ⟨a, hrule, rfl, rfl⟩, hrange, rfl⟩, h⟩ := h
    cases h
    exact ⟨tokens, a, hlexes, hrule, hrange a List.mem_cons_self, rfl⟩
  · obtain ⟨tokens, a, hlexes, hrule, hrange, rfl⟩ := h
    have hall : ∀ b ∈ [a], b.InRange := List.forall_mem_singleton.2 hrange
    exact ⟨_, ⟨tokens, [a], [], hlexes, ⟨a, hrule, rfl, rfl⟩, hall, rfl⟩, rfl⟩

theorem parseDefinition_eq_ok_iff {text : String} {d : Definition} :
    parseDefinition text = .ok d ↔
      ∃ tokens, Lexes text.toList tokens ∧ DefinitionRule tokens d := by
  rw [parseDefinition, bind_eq_ok_iff]
  simp only [read_eq_ok_iff]
  refine ⟨fun h => ?_, fun h => ?_⟩
  · obtain ⟨_, ⟨tokens, _, _, hlexes, ⟨_, hrule, rfl, rfl⟩, _, rfl⟩, h⟩ := h
    cases h
    exact ⟨tokens, hlexes, hrule⟩
  · obtain ⟨tokens, hlexes, hrule⟩ := h
    exact ⟨_, ⟨tokens, [], [d], hlexes, ⟨d, hrule, rfl, rfl⟩, nofun, rfl⟩, rfl⟩

/-- From each entry point, a text is read if and only if its tokens are derived from
there with all counts and sizes in range, and what is read is what they mean. -/
theorem reads_iff_derives (text : String) :
    (∀ config, parse text = .ok config ↔
      ∃ tokens settings definitions,
        Lexes text.toList tokens ∧ ConfigRule tokens settings definitions ∧
          (∀ a ∈ settings, a.InRange) ∧
          config = (settings.map Assignment.setting).foldl Config.apply { definitions }) ∧
    (∀ setting, parseSetting text = .ok setting ↔
      ∃ tokens a, Lexes text.toList tokens ∧ SettingRule tokens a ∧ a.InRange ∧
        setting = a.setting) ∧
    ∀ d, parseDefinition text = .ok d ↔
      ∃ tokens, Lexes text.toList tokens ∧ DefinitionRule tokens d :=
  ⟨fun _ => parse_eq_ok_iff, fun _ => parseSetting_eq_ok_iff, fun _ => parseDefinition_eq_ok_iff⟩

/-- Tokens may touch. -/
example : (parseDefinition "A=\"[A]\"#ff0000movepaint").toOption =
    some ⟨'A', "[A]", .rgb 255 0 0, .union .paint .move⟩ := by
  decide +kernel

end Lindenmayer.Script
