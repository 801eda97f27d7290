import Lindenmayer.Proofs.Validity
import Mathlib.Data.List.Perm.Subperm

/-!
# Symbols and colors are told apart

No two actions of a compiled alphabet are written with the same symbol: the four
operators are different characters, none of them is a letter, and no letter has two
definitions. So a text names the actions it was spelled from.

There are no more letters than from A to Z, and so no more colors than a number of one
byte tells apart. The color with the number of a literal is the one of its definition.
-/

namespace Lindenmayer

/-- Whether a symbol of the alphabet is written with this character. -/
def Alphabet.Writes (a : Alphabet) (id : SymbolId) (c : Char) : Prop :=
  a.actions[id]?.map Action.symbol = some c

namespace Config

/-! ## Symbols -/

theorem symbols_assemble {config : Config} {literals : List Action}
    (hlit : compileLiterals config.definitions = .ok literals) :
    (config.assemble literals).actions.toList.map Action.symbol =
      ['+', '-', '[', ']'] ++ config.definitions.map (·.literal) := by
  have hsymbols : ∀ {ds xs}, List.Forall₂ (Compiles config.definitions) ds xs →
      xs.map Action.symbol = ds.map (·.literal) := by
    intro ds xs h
    induction h with
    | nil => rfl
    | cons hx _ ih =>
        obtain ⟨word, _, rfl⟩ := hx
        rw [List.map_cons, List.map_cons, ih]
        rfl
  show (config.operators ++ literals).map Action.symbol = _
  rw [List.map_append, hsymbols (compileLiterals_eq_ok hlit).2.2]
  rfl

theorem not_isLetter_operator {c : Char} (h : c ∈ ['+', '-', '[', ']']) : ¬ IsLetter c := by
  simp only [List.mem_cons, List.not_mem_nil, or_false] at h
  rw [IsLetter]
  obtain rfl | rfl | rfl | rfl := h <;> decide

/-- No symbol is the symbol of two actions. -/
theorem nodup_symbols {config : Config} {a : Alphabet} (ha : config.compile = .ok a) :
    (a.actions.toList.map Action.symbol).Nodup := by
  obtain ⟨literals, hlit, rfl⟩ := compile_eq_ok_iff.1 ha
  have hletters := (valid_of_compile ha).letters
  rw [symbols_assemble hlit]
  refine List.Nodup.append (by decide) hletters.distinct fun c hop hletter => ?_
  obtain ⟨d, hd, rfl⟩ := List.mem_map.1 hletter
  exact not_isLetter_operator hop (hletters.letters d hd)

theorem writes_unique {config : Config} {a : Alphabet} (ha : config.compile = .ok a)
    {i j : SymbolId} {c : Char} (hi : a.Writes i c) (hj : a.Writes j c) : i = j := by
  have hget : ∀ id : SymbolId,
      (a.actions.toList.map Action.symbol)[id]? = a.actions[id]?.map Action.symbol := by
    intro id
    rw [List.getElem?_map, Array.getElem?_toList]
  rw [Alphabet.Writes, ← hget] at hi hj
  exact (List.getElem?_inj (List.getElem?_eq_some_iff.1 hi).1 (nodup_symbols ha)).1
    (hi.trans hj.symm)

/-- A text is written by one word only. -/
theorem word_unique {config : Config} {a : Alphabet} (ha : config.compile = .ok a)
    {u v : List SymbolId} {text : List Char} (hu : List.Forall₂ a.Writes u text)
    (hv : List.Forall₂ a.Writes v text) : u = v := by
  induction hu generalizing v with
  | nil => cases hv; rfl
  | cons hi _ ih =>
      cases hv with
      | cons hj hv => rw [writes_unique ha hi hj, ih hv]

/-! ## Colors -/

theorem isLetter_mem {c : Char} (h : IsLetter c) :
    c ∈ (List.range 26).map fun i => Char.ofNat (65 + i) := by
  have hbounds : 65 ≤ c.toNat ∧ c.toNat ≤ 90 :=
    ⟨UInt32.le_iff_toNat_le.1 h.1, UInt32.le_iff_toNat_le.1 h.2⟩
  refine List.mem_map.2 ⟨c.toNat - 65, List.mem_range.2 (by omega), ?_⟩
  rw [Nat.add_sub_cancel' hbounds.1, Char.ofNat_toNat]

theorem length_le_of_lettersSound {definitions : List Definition} (h : LettersSound definitions) :
    definitions.length ≤ 26 := by
  have hsub : definitions.map (·.literal) ⊆ (List.range 26).map fun i => Char.ofNat (65 + i) := by
    intro c hc
    obtain ⟨d, hd, rfl⟩ := List.mem_map.1 hc
    exact isLetter_mem (h.letters d hd)
  have hle := (List.subperm_of_subset h.distinct hsub).length_le
  simpa using hle

theorem mem_addColor_self (colors : Array Color) (color : Color) :
    color ∈ addColor colors color := by
  rw [addColor]
  split
  · next h => exact Array.contains_iff_mem.1 h
  · exact Array.mem_push_self

theorem mem_addColor_of_mem {colors : Array Color} {c : Color} (h : c ∈ colors) (color : Color) :
    c ∈ addColor colors color := by
  rw [addColor]
  split
  · exact h
  · exact Array.mem_push_of_mem color h

theorem size_addColor_le (colors : Array Color) (color : Color) :
    (addColor colors color).size ≤ colors.size + 1 := by
  rw [addColor]
  split
  · exact Nat.le_succ _
  · exact Nat.le_of_eq (Array.size_push color)

theorem palette_concat (definitions : List Definition) (d : Definition) :
    palette (definitions ++ [d]) = addColor (palette definitions) d.color := by
  rw [palette, List.foldl_concat, ← palette]

/-- The palette has the color of every definition, and at most one for each. -/
theorem palette_spec (definitions : List Definition) :
    (∀ d ∈ definitions, d.color ∈ palette definitions) ∧
      (palette definitions).size ≤ definitions.length := by
  induction definitions using List.reverseRecOn with
  | nil => exact ⟨by simp, Nat.le_refl 0⟩
  | append_singleton ds d ih =>
      rw [palette_concat, List.length_append, List.length_singleton]
      refine ⟨fun e he => ?_, Nat.le_trans (size_addColor_le _ _) (Nat.succ_le_succ ih.2)⟩
      obtain he | he := List.mem_append.1 he
      · exact mem_addColor_of_mem (ih.1 e he) _
      · exact List.mem_singleton.1 he ▸ mem_addColor_self _ _

theorem idxOf_palette_lt {definitions : List Definition} {d : Definition} (hd : d ∈ definitions) :
    (palette definitions).idxOf d.color < (palette definitions).size :=
  Array.idxOf_lt_length_of_mem ((palette_spec definitions).1 d hd)

/-- The place of a color fits into a byte. -/
theorem idxOf_palette_lt_byte {definitions : List Definition} (hletters : LettersSound definitions)
    {d : Definition} (hd : d ∈ definitions) :
    (palette definitions).idxOf d.color < UInt8.size := by
  have hsize : UInt8.size = 256 := rfl
  have hlt := idxOf_palette_lt hd
  have hpalette := (palette_spec definitions).2
  have hlength := length_le_of_lettersSound hletters
  omega

/-- The color with the number of a definition's color is that color. -/
theorem getElem?_colorNumber {definitions : List Definition} (hletters : LettersSound definitions)
    {d : Definition} (hd : d ∈ definitions) :
    (palette definitions)[(colorNumber (palette definitions) d.color).toNat]? = some d.color := by
  have hlt := idxOf_palette_lt hd
  have hnumber : (colorNumber (palette definitions) d.color).toNat =
      (palette definitions).idxOf d.color := by
    rw [colorNumber, Nat.toUInt8_eq, UInt8.toNat_ofNat',
      Nat.mod_eq_of_lt (idxOf_palette_lt_byte hletters hd)]
  have hcolor : ((palette definitions)[(palette definitions).idxOf d.color] == d.color) = true :=
    Array.findIdx_getElem (p := (· == d.color)) (w := hlt)
  rw [hnumber, Array.getElem?_eq_getElem hlt, eq_of_beq hcolor]

end Config

end Lindenmayer
