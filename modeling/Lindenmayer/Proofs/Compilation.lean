import Lindenmayer.Alphabet
import Lindenmayer.Proofs.Except

/-!
# What a compiled alphabet consists of

A compiled alphabet is the four operators and then one literal for each
definition. The operators depend on the angles and the scale factor, and on
nothing else; the literals, like every error, depend on the definitions alone.

Symbols are named while the successors are compiled: an operator by its place, and a
letter by the place of its definition behind the operators.
-/

namespace Lindenmayer

theorem forall₂_zipWith {α β γ : Type} {R : α → β → Prop} (f : α → β → γ) {xs : List α}
    {ys : List β} (h : List.Forall₂ R xs ys) :
    List.Forall₂ (fun x z => ∃ y, R x y ∧ z = f x y) xs (xs.zipWith f ys) := by
  induction h with
  | nil => exact List.Forall₂.nil
  | cons hxy _ ih => exact List.Forall₂.cons ⟨_, hxy, rfl⟩ ih

theorem getElem?_rel {α β : Type} {R : α → β → Prop} {xs : List α} {ys : List β}
    (h : List.Forall₂ R xs ys) (i : Nat) : Option.Rel R xs[i]? ys[i]? := by
  induction h generalizing i with
  | nil => exact .none
  | cons hxy _ ih =>
      cases i with
      | zero => exact .some hxy
      | succ i => exact ih i

namespace Config

/-- The literals of the given definitions, or what is wrong with these. -/
def compileLiterals (definitions : List Definition) : Except ConfigError (List Action) := do
  if definitions.isEmpty then throw .noLiterals
  checkLiterals [] definitions
  let successors ← definitions.mapM (successorOf definitions)
  return definitions.zipWith (literalOf (palette definitions)) successors

/-- The alphabet with the given literals. -/
def assemble (config : Config) (literals : List Action) : Alphabet where
  actions := (config.operators ++ literals).toArray
  start := 4
  colors := palette config.definitions

theorem compile_eq_map (config : Config) :
    config.compile = (compileLiterals config.definitions).map config.assemble := by
  rw [compile, compileLiterals]
  simp only []
  cases config.definitions.isEmpty with
  | true => rfl
  | false =>
      cases checkLiterals [] config.definitions with
      | error e => rfl
      | ok _ =>
          show Except.bind (config.definitions.mapM (successorOf config.definitions)) _ =
            Except.map _ (Except.bind (config.definitions.mapM _) _)
          cases config.definitions.mapM (successorOf config.definitions) <;> rfl

theorem compile_eq_ok_iff {config : Config} {a : Alphabet} :
    config.compile = .ok a ↔
      ∃ literals, compileLiterals config.definitions = .ok literals ∧
        config.assemble literals = a := by
  rw [compile_eq_map]
  cases compileLiterals config.definitions with
  | error e => simp [Except.map]
  | ok literals => simp [Except.map]

/-! ## The literals -/

theorem isUpper_of_checkLiterals {seen : List Char} {definitions : List Definition}
    (h : checkLiterals seen definitions = .ok ()) : ∀ d ∈ definitions, d.literal.isUpper := by
  induction definitions generalizing seen with
  | nil => exact fun d hd => absurd hd List.not_mem_nil
  | cons d ds ih =>
      rw [checkLiterals] at h
      split at h
      · cases h
      · next hupper =>
          split at h
          · cases h
          · intro e he
            cases List.mem_cons.1 he with
            | inl heq => simpa [heq] using hupper
            | inr hmem => exact ih h e hmem

/-- A successor is the word of the names of the actions, whose brackets match. -/
theorem successorOf_eq_ok {definitions : List Definition} {d : Definition} {word : Word}
    (h : successorOf definitions d = .ok word) :
    List.Forall₂ (fun c id => resolve definitions c = some id) d.actions.toList word.toList ∧
      depth d.actions.toList = 0 := by
  rw [successorOf, bind_eq_ok_iff] at h
  obtain ⟨ids, hids, h⟩ := h
  split at h
  · next hdepth =>
      cases h
      refine ⟨(forall₂_of_mapM hids).imp fun c id hc => ?_, hdepth⟩
      split at hc
      · next hres => cases hc; exact hres
      · cases hc
  · cases h

/-- The literal that a definition compiles to, next to all the definitions. -/
def Compiles (definitions : List Definition) (d : Definition) (x : Action) : Prop :=
  ∃ word, successorOf definitions d = .ok word ∧
    x = literalOf (palette definitions) d word

theorem compileLiterals_eq_ok {definitions : List Definition} {literals : List Action}
    (h : compileLiterals definitions = .ok literals) :
    definitions ≠ [] ∧ checkLiterals [] definitions = .ok () ∧
      List.Forall₂ (Compiles definitions) definitions literals := by
  rw [compileLiterals] at h
  split at h
  · cases h
  · next hempty =>
      have hne : definitions ≠ [] := fun hnil => hempty (by rw [hnil]; rfl)
      simp only [bind_eq_ok_iff] at h
      obtain ⟨_, hcheck, successors, hmap, h⟩ := h
      cases h
      exact ⟨hne, hcheck, forall₂_zipWith _ (forall₂_of_mapM hmap)⟩

/-! ## The names -/

theorem resolve_of_isUpper {c : Char} (definitions : List Definition) (h : c.isUpper = true) :
    resolve definitions c = (definitions.findIdx? (·.literal == c)).map (· + 4) := by
  unfold resolve
  split
  · exact absurd h (by decide)
  · exact absurd h (by decide)
  · exact absurd h (by decide)
  · exact absurd h (by decide)
  · rw [if_pos h]

theorem resolve_eq_some {definitions : List Definition} {c : Char} {id : SymbolId}
    (h : resolve definitions c = some id) :
    (c, id) ∈ [('+', 0), ('-', 1), ('[', 2), (']', 3)] ∨
      ∃ i, definitions.findIdx? (·.literal == c) = some i ∧ id = i + 4 := by
  unfold resolve at h
  split at h
  · left; cases h; decide
  · left; cases h; decide
  · left; cases h; decide
  · left; cases h; decide
  · right
    split at h
    · obtain ⟨i, hi, rfl⟩ := Option.map_eq_some_iff.1 h
      exact ⟨i, hi, rfl⟩
    · cases h

end Config

end Lindenmayer
