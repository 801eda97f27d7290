import Lindenmayer.Proofs.CacheTransparency
import Lindenmayer.Proofs.Symbols
import Lindenmayer.Proofs.TextualRewriting

/-!
# Brackets that do not pair up

A pop without a push leaves the turtle where it is, so the number of turtles put aside
is not the number of brackets opened less those closed. Two facts tie the one to the
other. As long as no front of a word closes more than it opens, no pop has been without
its push, and the two numbers are the same. And whatever came before, what is put aside
is the most that any tail of the word opens more than it closes.

So a pop without a push is noted if some front of the word closes more than it opens,
and a push that was never popped if some tail opens more than it closes. In a word that
opens as many brackets as it closes, the front that lies before such a tail is such a
front, and the other way round. Each generation of a configuration that compiles is
such a word, because every letter is replaced by one. Only a generation that is cut
short may be another.
-/

namespace Lindenmayer

theorem Pen.pop_of_empty {pen : Pen} (h : pen.turtle.saved = []) :
    pen.pop = { pen with drawing := pen.drawing.note .popOnEmptyStack } := by
  rw [pop, h]

theorem Pen.pop_of_saved {pen : Pen} {top : Point × Point} {rest : List (Point × Point)}
    (h : pen.turtle.saved = top :: rest) :
    pen.pop = { pen with turtle := { position := top.1, direction := top.2, saved := rest } } := by
  rw [pop, h]

theorem Pen.anomalies_mark (pen : Pen) (colorNumber : UInt8) (effects : Effects) :
    (pen.mark colorNumber effects).drawing.anomalies = pen.drawing.anomalies := by
  simp only [mark]
  split <;> rfl

namespace Alphabet

def opens (a : Alphabet) (id : SymbolId) : Bool :=
  match a.actions[id]? with
  | some (.push _) => true
  | _ => false

def closes (a : Alphabet) (id : SymbolId) : Bool :=
  match a.actions[id]? with
  | some .pop => true
  | _ => false

/-- How many more brackets a word opens than it closes. -/
def level (a : Alphabet) (word : List SymbolId) : Int :=
  word.countP a.opens - word.countP a.closes

/-- Some front of the word closes more brackets than it opens. -/
def Underflows (a : Alphabet) (word : List SymbolId) : Prop :=
  ∃ front, front <+: word ∧ front.countP a.opens < front.countP a.closes

/-- Some tail of the word opens more brackets than it closes. -/
def Overhangs (a : Alphabet) (word : List SymbolId) : Prop :=
  ∃ tail, tail <:+ word ∧ tail.countP a.closes < tail.countP a.opens

variable {a : Alphabet}

/-! ## Levels -/

theorem level_nil : a.level [] = 0 := rfl

theorem level_append (u v : List SymbolId) : a.level (u ++ v) = a.level u + a.level v := by
  simp only [level, List.countP_append]
  omega

theorem underflows_iff {word : List SymbolId} :
    a.Underflows word ↔ ∃ front, front <+: word ∧ a.level front < 0 := by
  refine exists_congr fun front => and_congr_right fun _ => ?_
  rw [level]
  omega

theorem overhangs_iff {word : List SymbolId} :
    a.Overhangs word ↔ ∃ tail, tail <:+ word ∧ 0 < a.level tail := by
  refine exists_congr fun tail => and_congr_right fun _ => ?_
  rw [level]
  omega

theorem not_underflows_nil : ¬ a.Underflows [] := by
  rintro ⟨front, hfront, hlt⟩
  rw [List.prefix_nil.1 hfront] at hlt
  exact Nat.lt_irrefl 0 hlt

theorem underflows_concat {word : List SymbolId} {id : SymbolId} :
    a.Underflows (word ++ [id]) ↔ a.Underflows word ∨ a.level (word ++ [id]) < 0 := by
  simp only [underflows_iff, List.prefix_concat_iff]
  constructor
  · rintro ⟨front, rfl | hfront, hlt⟩
    · exact .inr hlt
    · exact .inl ⟨front, hfront, hlt⟩
  · rintro (⟨front, hfront, hlt⟩ | hlt)
    · exact ⟨front, .inr hfront, hlt⟩
    · exact ⟨_, .inl rfl, hlt⟩

/-- Where as much is closed as opened, what is missing at the front is left over at
the end. -/
theorem underflows_iff_overhangs {word : List SymbolId} (h : a.level word = 0) :
    a.Underflows word ↔ a.Overhangs word := by
  rw [underflows_iff, overhangs_iff]
  constructor
  · rintro ⟨front, ⟨tail, rfl⟩, hlt⟩
    rw [level_append] at h
    exact ⟨tail, List.suffix_append front tail, by omega⟩
  · rintro ⟨tail, ⟨front, rfl⟩, hlt⟩
    rw [level_append] at h
    exact ⟨front, List.prefix_append front tail, by omega⟩

/-! ## One symbol -/

/-- What a symbol does to the turtles that are put aside and to the notes. -/
structure Brackets (a : Alphabet) (id : SymbolId) (pen pen' : Pen) : Prop where
  height : (pen'.turtle.saved.length : Int) = max (pen.turtle.saved.length + a.level [id]) 0
  noted : pen'.drawing.anomalies =
    if (pen.turtle.saved.length : Int) + a.level [id] < 0 then
      pen.drawing.anomalies.union .popOnEmptyStack
    else pen.drawing.anomalies

theorem brackets_of_level_zero {id : SymbolId} {pen pen' : Pen} (hlevel : a.level [id] = 0)
    (hsaved : pen'.turtle.saved = pen.turtle.saved)
    (hnoted : pen'.drawing.anomalies = pen.drawing.anomalies) : a.Brackets id pen pen' where
  height := by rw [hlevel, hsaved]; omega
  noted := by rw [hlevel, hnoted, if_neg (by omega)]

theorem brackets_pop {id : SymbolId} (hlevel : a.level [id] = -1) (pen : Pen) :
    a.Brackets id pen pen.pop := by
  cases hsaved : pen.turtle.saved with
  | nil =>
      rw [Pen.pop_of_empty hsaved]
      constructor
      · simp [hlevel, hsaved]
      · simp [hlevel, hsaved, Drawing.note]
  | cons top rest =>
      rw [Pen.pop_of_saved hsaved]
      constructor
      · simp [hlevel, hsaved]
      · simp [hlevel, hsaved]

/-- A symbol opens a bracket, or closes one, or has nothing to do with brackets. -/
theorem stepSymbol_cases (a : Alphabet) (id : SymbolId) :
    (a.level [id] = 1 ∧ ∃ factor, ∀ pen, a.stepSymbol pen id = pen.push factor) ∨
    (a.level [id] = -1 ∧ ∀ pen, a.stepSymbol pen id = pen.pop) ∨
    (a.level [id] = 0 ∧ ∀ pen, (a.stepSymbol pen id).turtle.saved = pen.turtle.saved ∧
      (a.stepSymbol pen id).drawing.anomalies = pen.drawing.anomalies) := by
  cases hid : a.actions[id]? with
  | none =>
      refine .inr (.inr ⟨by simp [level, opens, closes, hid], fun pen => ?_⟩)
      rw [stepSymbol, hid]
      exact ⟨rfl, rfl⟩
  | some action =>
      have hstep : ∀ pen, a.stepSymbol pen id = pen.step action := by
        intro pen
        rw [stepSymbol, hid]
      cases action with
      | turn symbol rotation =>
          refine .inr (.inr ⟨by simp [level, opens, closes, hid], fun pen => ?_⟩)
          rw [hstep]
          exact ⟨rfl, rfl⟩
      | push factor => exact .inl ⟨by simp [level, opens, closes, hid], factor, hstep⟩
      | pop => exact .inr (.inl ⟨by simp [level, opens, closes, hid], hstep⟩)
      | literal symbol colorNumber effects successor =>
          refine .inr (.inr ⟨by simp [level, opens, closes, hid], fun pen => ?_⟩)
          rw [hstep]
          exact ⟨rfl, pen.anomalies_mark ..⟩

theorem brackets_stepSymbol (a : Alphabet) (id : SymbolId) (pen : Pen) :
    a.Brackets id pen (a.stepSymbol pen id) := by
  obtain ⟨hlevel, factor, hstep⟩ | ⟨hlevel, hstep⟩ | ⟨hlevel, hstep⟩ := a.stepSymbol_cases id
  · rw [hstep]
    constructor
    · rw [hlevel]
      show ((pen.turtle.saved.length + 1 : Nat) : Int) = _
      omega
    · rw [hlevel, if_neg (by omega)]
      rfl
  · rw [hstep]
    exact brackets_pop hlevel pen
  · exact brackets_of_level_zero hlevel (hstep pen).1 (hstep pen).2

/-! ## A whole word -/

/-- What a turtle that started with nothing put aside and nothing noted shows of the
brackets of the word behind it. -/
structure Tally (a : Alphabet) (word : List SymbolId) (pen : Pen) : Prop where
  noted : a.Underflows word → pen.drawing.anomalies = .popOnEmptyStack
  clear : ¬ a.Underflows word → pen.drawing.anomalies = .none
  /-- Without a missed pop, what is put aside is what is open. -/
  height : ¬ a.Underflows word → a.level word = pen.turtle.saved.length
  /-- No tail opens more than is put aside. -/
  tails : ∀ tail, tail <:+ word → a.level tail ≤ pen.turtle.saved.length
  /-- Some tail opens just that. -/
  highest : ∃ tail, tail <:+ word ∧ a.level tail = pen.turtle.saved.length

theorem tally_nil {pen : Pen} (hsaved : pen.turtle.saved = [])
    (hnoted : pen.drawing.anomalies = .none) : a.Tally [] pen where
  noted h := absurd h not_underflows_nil
  clear _ := hnoted
  height _ := by rw [hsaved]; rfl
  tails tail h := by rw [List.suffix_nil.1 h, hsaved]; exact Int.le_refl 0
  highest := ⟨[], List.suffix_refl [], by rw [hsaved]; rfl⟩

theorem Tally.concat {word : List SymbolId} {id : SymbolId} {pen pen' : Pen}
    (h : a.Tally word pen) (hstep : a.Brackets id pen pen') : a.Tally (word ++ [id]) pen' := by
  have hlevel := level_append (a := a) word [id]
  have hheight := hstep.height
  refine ⟨fun hunder => ?_, fun hunder => ?_, fun hunder => ?_, fun tail' htail' => ?_, ?_⟩
  · rw [hstep.noted]
    by_cases hbefore : a.Underflows word
    · rw [h.noted hbefore]
      split <;> rfl
    · -- The level has not been below zero before, so it is what is put aside.
      have hnow := (underflows_concat.1 hunder).resolve_left hbefore
      have hopen := h.height hbefore
      rw [h.clear hbefore, if_pos (by omega)]
      rfl
  · rw [underflows_concat, not_or] at hunder
    have hopen := h.height hunder.1
    rw [hstep.noted, if_neg (by omega), h.clear hunder.1]
  · rw [underflows_concat, not_or] at hunder
    have hopen := h.height hunder.1
    omega
  · obtain rfl | ⟨tail, rfl, htail⟩ := List.suffix_concat_iff.1 htail'
    · rw [level_nil]
      omega
    · have hbelow := h.tails tail htail
      rw [level_append]
      omega
  · obtain ⟨tail, htail, hopen⟩ := h.highest
    by_cases hleft : 0 ≤ (pen.turtle.saved.length : Int) + a.level [id]
    · refine ⟨tail ++ [id], List.suffix_append_self_iff.2 htail, ?_⟩
      rw [level_append]
      omega
    · exact ⟨[], List.nil_suffix, by rw [level_nil]; omega⟩

theorem walk_concat (a : Alphabet) (pen : Pen) (word : List SymbolId) (id : SymbolId) :
    a.walk pen (word ++ [id]).toArray = a.stepSymbol (a.walk pen word.toArray) id := by
  simp only [walk, List.foldl_toArray, List.foldl_concat]

theorem tally_walk {pen : Pen} (hsaved : pen.turtle.saved = [])
    (hnoted : pen.drawing.anomalies = .none) (word : List SymbolId) :
    a.Tally word (a.walk pen word.toArray) := by
  -- From the end, since the turtle has gone through the front of the word.
  induction word using List.reverseRecOn with
  | nil => exact tally_nil hsaved hnoted
  | append_singleton word id ih =>
      rw [walk_concat]
      exact ih.concat (a.brackets_stepSymbol id _)

theorem Tally.saved_ne_nil_iff {word : List SymbolId} {pen : Pen} (h : a.Tally word pen) :
    pen.turtle.saved ≠ [] ↔ a.Overhangs word := by
  rw [← List.length_pos_iff, overhangs_iff]
  constructor
  · intro hpos
    obtain ⟨tail, htail, hopen⟩ := h.highest
    exact ⟨tail, htail, by omega⟩
  · rintro ⟨tail, htail, hopen⟩
    have hbelow := h.tails tail htail
    omega

open Classical in
/-- The notes of a drawing are made of two facts about its word. -/
theorem anomalies_draw (a : Alphabet) (word : Word) (startAngle stepSize : Float) :
    (a.draw word startAngle stepSize).anomalies =
      (if a.Underflows word.toList then .popOnEmptyStack else Anomalies.none).union
        (if a.Overhangs word.toList then .pushNeverPopped else .none) := by
  have htally : a.Tally word.toList (a.walk (.start startAngle stepSize) word) :=
    tally_walk rfl rfl word.toList
  have hpops : (a.walk (.start startAngle stepSize) word).drawing.anomalies =
      if a.Underflows word.toList then .popOnEmptyStack else Anomalies.none := by
    split
    · next h => exact htally.noted h
    · next h => exact htally.clear h
  rw [draw, Pen.finish, ← hpops]
  by_cases hopen : a.Overhangs word.toList
  · rw [if_pos hopen, if_neg (by simpa using htally.saved_ne_nil_iff.2 hopen)]
    rfl
  · have hempty : (a.walk (.start startAngle stepSize) word).turtle.saved = [] := by
      by_contra hsaved
      exact hopen (htally.saved_ne_nil_iff.1 hsaved)
    rw [if_neg hopen, hempty, if_pos List.isEmpty_nil]
    show _ = Anomalies.mk (_ ||| 0)
    rw [UInt8.or_zero]

end Alphabet

/-! ## Generations -/

namespace Config

theorem depth_append (u v : List Char) : depth (u ++ v) = depth u + depth v := by
  simp only [depth_eq_count, List.count_append]
  omega

theorem depth_letter {c : Char} (h : IsLetter c) : depth [c] = 0 := by
  have hopen : c ≠ '[' := fun hc => not_isLetter_operator (by rw [hc]; decide) h
  have hclose : c ≠ ']' := fun hc => not_isLetter_operator (by rw [hc]; decide) h
  simp [depth, hopen, hclose]

/-- What replaces a symbol opens as much as the symbol itself. -/
theorem depth_replacement {config : Config} (hvalid : Valid config.definitions) (c : Char) :
    depth (config.replacement c) = depth [c] := by
  rw [replacement]
  cases hd : config.definitions.find? (·.literal == c) with
  | none => rfl
  | some d =>
      have hmem := List.mem_of_find?_eq_some hd
      have hletter : d.literal = c := by simpa using List.find?_some hd
      rw [depth_letter (hletter ▸ hvalid.letters.letters d hmem)]
      exact depth_eq_zero_iff.2 (hvalid.actions d hmem).brackets

theorem depth_flatMap {config : Config} (hvalid : Valid config.definitions) (text : List Char) :
    depth (text.flatMap config.replacement) = depth text := by
  induction text with
  | nil => rfl
  | cons c text ih =>
      rw [List.flatMap_cons, depth_append, ih, depth_replacement hvalid, ← depth_append]
      rfl

theorem depth_textAfter {config : Config} (hvalid : Valid config.definitions) (n : Nat) :
    depth (config.textAfter n) = 0 := by
  induction n with
  | zero =>
      show depth config.startText = 0
      rw [startText, start?]
      cases hdefs : config.definitions with
      | nil => rfl
      | cons d ds => exact depth_letter (hvalid.letters.letters d (by rw [hdefs]; simp))
  | succ n ih =>
      show depth ((config.textAfter n).flatMap config.replacement) = 0
      rw [depth_flatMap hvalid, ih]

/-- The name of a symbol opens and closes what the symbol does. -/
theorem Names.level {config : Config} {a : Alphabet} {id : SymbolId} {c : Char}
    (ha : config.compile = .ok a) (h : config.Names id c) : a.level [id] = depth [c] := by
  have hvalid := valid_of_compile ha
  obtain ⟨literals, hlit, rfl⟩ := compile_eq_ok_iff.1 ha
  obtain hop | ⟨i, hi, rfl⟩ := resolve_eq_some h
  · simp only [List.mem_cons, Prod.mk.injEq, List.not_mem_nil, or_false] at hop
    obtain ⟨rfl, rfl⟩ | ⟨rfl, rfl⟩ | ⟨rfl, rfl⟩ | ⟨rfl, rfl⟩ := hop <;> rfl
  · obtain ⟨d, x, hd, rfl, hx, word, _, rfl⟩ := literal_of_findIdx? hlit hi
    rw [depth_letter (hvalid.letters.letters d (List.mem_of_find?_eq_some hd))]
    simp [Alphabet.level, Alphabet.opens, Alphabet.closes, assemble, operators, hx, literalOf]

theorem level_eq_depth {config : Config} {a : Alphabet} (ha : config.compile = .ok a)
    {word : List SymbolId} {text : List Char} (h : List.Forall₂ config.Names word text) :
    a.level word = depth text := by
  induction h with
  | nil => rfl
  | @cons id c word text hc _ ih =>
      rw [← List.singleton_append, Alphabet.level_append, hc.level ha, ih, ← depth_append]
      rfl

theorem level_generationOf {config : Config} {a : Alphabet} (ha : config.compile = .ok a)
    (n : Nat) : a.level (a.generationOf n) = 0 := by
  rw [level_eq_depth ha (names_generation ha n), depth_textAfter (valid_of_compile ha)]

end Config

/-! ## Notes of results -/

namespace Simulator

/-- A letter between brackets that is rewritten once in full, and then up to the first
bracket. -/
def bracketed (actions : String) : Config where
  definitions := [⟨'A', actions, .black, .paint⟩]
  iterations := 2
  stackSize := some 0

end Simulator

end Lindenmayer
