import Lindenmayer.Proofs.Symbols

/-!
# A compiler that looks before it leaps

Compilation can also be done in place, in two passes over the definitions. The first
pass appends a literal without a successor for each definition, and notes where it is
and what number its color has. The table of colors has room for as many as there are
letters, and a number has one byte. The second pass looks up the names of the actions
and writes each successor into the literal that is waiting for it.

Each of these steps may go wrong for want of room or of an action, whatever is right or
wrong with the configuration. This compiler looks before every step whether it will,
and stops there if so. It never does: it does what compilation does, and stops with the
same error or not at all. No definition gets past the first pass that would be one too
many for the table of colors, since the letters before it are all different.
-/

namespace Lindenmayer

/-- What stops a compiler. -/
inductive Stop where
  | invalid (error : ConfigError)
  /-- A color has no room in the table. -/
  | tableFull
  /-- The number of a color is more than a byte. -/
  | numberTooLarge
  /-- There is no action where a successor is to be written. -/
  | noAction
deriving DecidableEq, Repr

def alphabetSize : Nat := 26

/-- An alphabet under construction. -/
@[ext]
structure Draft where
  actions : Array Action
  /-- Where the literals of the letters are. -/
  slots : Char → Option SymbolId := fun _ => none
  colors : Array Color := #[]
  start : Option SymbolId := none

namespace Draft

/-- The table with a color in it, and the place of that color. -/
def enter (colors : Array Color) (color : Color) : Except Stop (Array Color × Nat) :=
  match colors.findIdx? (· == color) with
  | some n => .ok (colors, n)
  | none =>
      if colors.size < alphabetSize then
        .ok (colors.push color, (colors.push color).size - 1)
      else .error .tableFull

def byte (n : Nat) : Except Stop UInt8 :=
  if n < UInt8.size then .ok n.toUInt8 else .error .numberTooLarge

/-- Appends a literal that has no successor yet. -/
def declare (draft : Draft) (d : Definition) : Except Stop Draft := do
  if !d.literal.isUpper then throw (.invalid (.invalidLiteral d.literal))
  if (draft.slots d.literal).isSome then throw (.invalid (.duplicateLiteral d.literal))
  let (colors, n) ← enter draft.colors d.color
  let number ← byte n
  let id := draft.actions.size
  return { actions := draft.actions.push (.literal d.literal number d.effects #[])
           slots := fun c => if c = d.literal then some id else draft.slots c
           colors
           start := draft.start.or (some id) }

def resolve (draft : Draft) (symbol : Char) : Option SymbolId :=
  match symbol with
  | '+' => some 0
  | '-' => some 1
  | '[' => some 2
  | ']' => some 3
  | c => if c.isUpper then draft.slots c else none

def successorOf (draft : Draft) (d : Definition) : Except ConfigError Word := do
  let symbols := d.actions.toList
  let ids ← symbols.mapM fun c =>
    match draft.resolve c with
    | some id => .ok id
    | none => .error (.unexpectedLiteral c d.literal)
  if Config.depth symbols = 0 then return ids.toArray else throw (.bracketsMismatch d.literal)

/-- Writes a successor into the literal with this name. Other actions have none. -/
def writeSuccessor (actions : Array Action) (id : SymbolId) (successor : Word) :
    Except Stop (Array Action) :=
  if h : id < actions.size then
    match actions[id] with
    | .literal symbol number effects _ =>
        .ok (actions.set id (.literal symbol number effects successor))
    | _ => .ok actions
  else .error .noAction

/-- Writes the successor of one definition, where the draft tells names. -/
def attach (draft : Draft) (actions : Array Action) (d : Definition) :
    Except Stop (Array Action) := do
  let successor ← (draft.successorOf d).mapError .invalid
  match draft.slots d.literal with
  | some id => writeSuccessor actions id successor
  | none => return actions

end Draft

namespace Config

/-- Compiles a configuration in place, with a look before every step. -/
def compileChecked (config : Config) : Except Stop Alphabet := do
  if config.definitions.isEmpty then throw (.invalid .noLiterals)
  let draft ← config.definitions.foldlM Draft.declare { actions := config.operators.toArray }
  let actions ← config.definitions.foldlM draft.attach draft.actions
  return { actions, start := draft.start.getD 0, colors := draft.colors }

/-! ## Colors -/

theorem idxOf_addColor {colors : Array Color} {c : Color} (h : c ∈ colors) (color : Color) :
    (addColor colors color).idxOf c = colors.idxOf c := by
  rw [addColor]
  split
  · rfl
  · rw [Array.push_eq_append, Array.idxOf_append, if_pos h]

theorem enter_eq {colors : Array Color} {color : Color} (hroom : colors.size < alphabetSize) :
    Draft.enter colors color =
      .ok (addColor colors color, (addColor colors color).idxOf color) := by
  rw [Draft.enter, addColor]
  by_cases hmem : color ∈ colors
  · have hfind : colors.findIdx? (· == color) = some (colors.idxOf color) :=
      Array.findIdx?_eq_some_iff_findIdx_eq.2 ⟨Array.idxOf_lt_length_of_mem hmem, rfl⟩
    rw [hfind, if_pos (Array.contains_iff_mem.2 hmem)]
  · have hfind : colors.findIdx? (· == color) = none :=
      Array.findIdx?_eq_none_iff.2 fun c hc => beq_eq_false_iff_ne.2 fun heq => hmem (heq ▸ hc)
    rw [hfind, if_neg fun hcontains => hmem (Array.contains_iff_mem.1 hcontains)]
    show (if _ then _ else _) = _
    rw [if_pos hroom, Array.push_eq_append, Array.idxOf_append, if_neg hmem]
    simp

/-! ## The first pass -/

/-- The draft when these definitions are declared. -/
def drafted (config : Config) (definitions : List Definition) : Draft where
  actions := (config.operators ++
    definitions.map fun d => literalOf (palette definitions) d #[]).toArray
  slots c := (definitions.findIdx? (·.literal == c)).map (· + 4)
  colors := palette definitions
  start := definitions.head?.map fun _ => 4

variable {config : Config} {done ds : List Definition} {d : Definition}

theorem isSome_slots_drafted {c : Char} :
    ((config.drafted done).slots c).isSome = true ↔ c ∈ done.map (·.literal) := by
  rw [drafted, Option.isSome_map, List.findIdx?_isSome, List.any_eq_true, List.mem_map]
  simp only [beq_iff_eq]

theorem findIdx?_eq_none_of_fresh {c : Char} (h : c ∉ done.map (·.literal)) :
    done.findIdx? (·.literal == c) = none := by
  rw [List.findIdx?_eq_none_iff]
  intro e he
  rw [beq_eq_false_iff_ne]
  exact fun heq => h (List.mem_map.2 ⟨e, he, heq⟩)

theorem declare_of_fault {e : ConfigError} (h : LetterFault done d e) :
    (config.drafted done).declare d = .error (.invalid e) := by
  cases h with
  | invalid h =>
      have hupper : d.literal.isUpper = false := Bool.eq_false_iff.2 fun hu => h (isUpper_iff.1 hu)
      rw [Draft.declare, hupper]
      rfl
  | duplicate hletter h =>
      rw [Draft.declare, isUpper_iff.2 hletter, isSome_slots_drafted.2 h]
      rfl

theorem size_drafted : (config.drafted done).actions.size = done.length + 4 := by
  simp [drafted, operators]

theorem actions_drafted_concat :
    (config.drafted done).actions.push (literalOf (palette (done ++ [d])) d #[]) =
      (config.drafted (done ++ [d])).actions := by
  have hkeep : ∀ e ∈ done,
      literalOf (palette done) e #[] = literalOf (palette (done ++ [d])) e #[] := by
    intro e he
    rw [literalOf, literalOf, colorNumber, colorNumber, palette_concat,
      idxOf_addColor ((palette_spec done).1 e he)]
  simp only [drafted, List.push_toArray, List.map_append, List.map_singleton, List.append_assoc,
    List.map_congr_left hkeep]

theorem slots_drafted_concat (hfresh : d.literal ∉ done.map (·.literal)) (c : Char) :
    (if c = d.literal then some (config.drafted done).actions.size
      else (config.drafted done).slots c) = (config.drafted (done ++ [d])).slots c := by
  rw [size_drafted]
  simp only [drafted, List.findIdx?_append]
  split
  · next heq =>
      rw [heq, findIdx?_eq_none_of_fresh hfresh]
      simp
  · next hne =>
      have hnone : [d].findIdx? (·.literal == c) = none := by
        simpa using fun hlit : d.literal = c => hne hlit.symm
      rw [hnone]
      simp

theorem start_drafted_concat :
    (config.drafted done).start.or (some (config.drafted done).actions.size) =
      (config.drafted (done ++ [d])).start := by
  rw [size_drafted]
  cases done <;> rfl

/-- There is room for what comes with a letter that is not defined yet. -/
theorem declare_of_sound (h : LettersSound (done ++ [d])) :
    (config.drafted done).declare d = .ok (config.drafted (done ++ [d])) := by
  obtain ⟨_, hletter, hfresh⟩ := lettersSound_concat.1 h
  have hlength := length_le_of_lettersSound h
  rw [List.length_append, List.length_singleton] at hlength
  -- The letters before this one are fewer than all letters, and so are their colors.
  have hroom : (palette done).size < alphabetSize :=
    Nat.lt_of_le_of_lt (palette_spec done).2 (Nat.lt_of_succ_le hlength)
  have hslot : ((config.drafted done).slots d.literal).isSome = false :=
    Bool.eq_false_iff.2 fun hseen => hfresh (isSome_slots_drafted.1 hseen)
  have henter : Draft.enter (config.drafted done).colors d.color =
      .ok (palette (done ++ [d]), (palette (done ++ [d])).idxOf d.color) := by
    rw [palette_concat]
    exact enter_eq hroom
  have hbyte : Draft.byte ((palette (done ++ [d])).idxOf d.color) =
      .ok (colorNumber (palette (done ++ [d])) d.color) :=
    if_pos (idxOf_palette_lt_byte h (by simp))
  rw [Draft.declare, isUpper_iff.2 hletter, hslot, henter]
  show Except.bind (Draft.byte _) _ = _
  rw [hbyte]
  exact congrArg Except.ok (Draft.ext actions_drafted_concat
    (funext (slots_drafted_concat hfresh)) rfl start_drafted_concat)

/-- The first pass finds out what is wrong with the letters, and nothing else. -/
theorem foldlM_declare (hdone : LettersSound done) :
    ds.foldlM Draft.declare (config.drafted done) =
      ((checkLiterals (seenAfter done) ds).mapError .invalid).map
        fun _ => config.drafted (done ++ ds) := by
  induction ds generalizing done with
  | nil => rw [List.append_nil]; rfl
  | cons d ds ih =>
      rw [List.foldlM_cons]
      by_cases h : LettersSound (done ++ [d])
      · have hrun := ih h
        rw [← List.append_cons] at hrun
        rw [declare_of_sound h, checkLiterals_cons_of_sound h]
        exact hrun
      · obtain ⟨e, he⟩ := exists_letterFault hdone h
        rw [declare_of_fault he, checkLiterals_cons_of_fault he]
        rfl

/-! ## The second pass -/

theorem successorOf_drafted : (config.drafted ds).successorOf d = successorOf ds d := rfl

theorem slots_drafted_of_sound (h : LettersSound (done ++ d :: ds)) :
    (config.drafted (done ++ d :: ds)).slots d.literal = some (done.length + 4) := by
  have hfresh := (lettersSound_concat.1 (List.append_cons .. ▸ h).append_left).2.2
  simp [drafted, List.findIdx?_append, List.findIdx?_cons, findIdx?_eq_none_of_fresh hfresh]

theorem writeSuccessor_literal (front rest : List Action) (colors : Array Color) (d : Definition)
    (word word' : Word) :
    Draft.writeSuccessor (front ++ literalOf colors d word :: rest).toArray front.length word' =
      .ok (front ++ literalOf colors d word' :: rest).toArray := by
  simp [Draft.writeSuccessor, literalOf]

/-- Each literal is there by the time its successor is written. -/
theorem foldlM_attach (h : LettersSound (done ++ ds)) {front : List Action}
    (hfront : front.length = done.length + 4) :
    ds.foldlM (config.drafted (done ++ ds)).attach
        (front ++ ds.map fun d => literalOf (palette (done ++ ds)) d #[]).toArray =
      ((ds.mapM (successorOf (done ++ ds))).mapError .invalid).map fun words =>
        (front ++ ds.zipWith (literalOf (palette (done ++ ds))) words).toArray := by
  generalize hall : done ++ ds = all at *
  -- The literals in front have their successors, and the others still wait for theirs.
  induction ds generalizing done front with
  | nil => rfl
  | cons d ds ih =>
      have hslot : (config.drafted all).slots d.literal = some front.length := by
        subst hall
        rw [hfront]
        exact slots_drafted_of_sound h
      rw [List.foldlM_cons, List.mapM_cons, Draft.attach, successorOf_drafted, List.map_cons, hslot]
      cases hword : successorOf all d with
      | error e => rfl
      | ok word =>
          show Except.bind (Draft.writeSuccessor _ _ _) _ = _
          rw [writeSuccessor_literal, List.append_cons]
          have hrun := @ih (done ++ [d]) (front ++ [literalOf (palette all) d word])
            (by simp [hfront]) (by rw [← List.append_cons, hall])
          refine Eq.trans hrun ?_
          cases ds.mapM (successorOf all) with
          | error e => rfl
          | ok words =>
              exact congrArg (fun xs : List Action => Except.ok xs.toArray)
                (List.append_cons ..).symm

theorem lettersSound_of_checkLiterals (h : checkLiterals [] ds = .ok ()) : LettersSound ds := by
  obtain hsound | ⟨before, d, after, rfl, hbefore, hbreak⟩ := holds_or_breaks lettersSound_nil ds
  · exact hsound
  · obtain ⟨e, he⟩ := exists_letterFault hbefore hbreak
    rw [checkLiterals_of_fault hbefore he] at h
    cases h

/-- A compiler that looks before every step stops where compilation does. -/
theorem compileChecked_eq (config : Config) :
    config.compileChecked = config.compile.mapError .invalid := by
  have hdeclare : config.definitions.foldlM Draft.declare { actions := config.operators.toArray } =
      ((checkLiterals [] config.definitions).mapError .invalid).map
        fun _ => config.drafted config.definitions := foldlM_declare lettersSound_nil
  rw [compileChecked, compile_eq_map, compileLiterals, hdeclare]
  cases hempty : config.definitions.isEmpty with
  | true => rfl
  | false =>
      cases hcheck : checkLiterals [] config.definitions with
      | error e => rfl
      | ok _ =>
          have hattach : config.definitions.foldlM (config.drafted config.definitions).attach
              (config.drafted config.definitions).actions = _ :=
            @foldlM_attach config [] _ (lettersSound_of_checkLiterals hcheck) config.operators rfl
          show Except.bind (config.definitions.foldlM _ _) _ = _
          rw [hattach, List.nil_append]
          cases config.definitions.mapM (successorOf config.definitions) with
          | error e => rfl
          | ok words =>
              have hstart : (config.drafted config.definitions).start.getD 0 = 4 := by
                have hne := List.isEmpty_eq_false_iff.1 hempty
                obtain ⟨d, ds, hdefs⟩ := List.exists_cons_of_ne_nil hne
                rw [hdefs]
                rfl
              exact congrArg (fun start => Except.ok (Alphabet.mk _ start _)) hstart

end Config

end Lindenmayer
