import Lindenmayer.Proofs.CacheTransparency
import Lindenmayer.Proofs.Symbols
import Lindenmayer.Proofs.TextualRewriting

/-!
# A drawing can be read off its text

A simulator can be asked for the drawing of a configuration or for its text. Both
requests expand the start symbol under the same bound, and whether the last generation
but one is kept makes no difference to the last one. So they are about one and the
same word, also where it is cut short, and both fail with the same error if there is
no alphabet.

The text loses nothing of that word, because no two actions are written with the same
symbol. The turtle that follows the actions named by the text draws what was drawn.
Each letter whose definition paints leaves exactly one segment behind, in the color of
that definition, and no other symbol leaves any. So the segments are what the first
painting letters leave behind, then the next one, and so on, in the order of the text.
-/

namespace Lindenmayer

/-! ## One word -/

namespace Alphabet

theorem word_expand_eq (a : Alphabet) (n bound : Nat) (keep keep' : Bool) :
    (a.expand n bound keep).word = (a.expand n bound keep').word := by
  obtain ⟨hfits, hexpand⟩ | ⟨k, hk, m, hfits, hcut, hexpand⟩ := a.expand_cases n bound keep
  · rw [hexpand, expand_of_fits keep' hfits]
    rfl
  · rw [hexpand, expand_of_cut keep' hk hfits hcut]
    rfl

theorem Alike.writes_eq {a b : Alphabet} (h : a.Alike b) : a.Writes = b.Writes := by
  funext id c
  have hid := h.actions id
  rw [Writes, Writes]
  generalize a.actions[id]? = x at *
  generalize b.actions[id]? = y at *
  cases hid with
  | none => rfl
  | some hact => rw [Option.map_some, Option.map_some, hact.symbol_eq]

end Alphabet

/-- What an expansion spells names its word, symbol by symbol. -/
theorem Config.names_expand {config : Config} {a : Alphabet} (ha : config.compile = .ok a)
    (n bound : Nat) (keepPrevious : Bool) :
    ∃ text, List.Forall₂ config.Names (a.expand n bound keepPrevious).word.toList text ∧
      a.spell (a.expand n bound keepPrevious).word = String.ofList text := by
  have hgen := names_generation ha
  obtain ⟨_, hexpand⟩ | ⟨k, _, m, _, _, hexpand⟩ := a.expand_cases n bound keepPrevious
  · rw [hexpand]
    exact ⟨_, hgen n, spell_eq_of_names ha (hgen n)⟩
  · have hword : List.Forall₂ config.Names
        (((a.generationOf k).take m).flatMap a.replacement)
        (((config.textAfter k).take m).flatMap config.replacement) :=
      List.rel_flatMap (List.forall₂_take m (hgen k)) fun {_ _} h => Names.replacement ha h
    rw [hexpand]
    exact ⟨_, hword, spell_eq_of_names ha hword⟩

/-! ## One segment for each letter that paints -/

/-- Whether the definition of a symbol paints. -/
def Config.paints (config : Config) (c : Char) : Bool :=
  (config.definitions.find? (·.literal == c)).any (·.effects.contains .paint)

/-- Whether a segment has the color that the definition of a symbol has. -/
def ColoredAs (config : Config) (colors : Array Color) (c : Char) (segment : Segment) : Prop :=
  ∃ d, config.definitions.find? (·.literal == c) = some d ∧
    colors[segment.colorNumber.toNat]? = some d.color

theorem Pen.mark_of_not_paint {effects : Effects} (h : effects.contains .paint = false) (pen : Pen)
    (colorNumber : UInt8) : (pen.mark colorNumber effects).drawing = pen.drawing := by
  simp only [mark, h, Bool.false_eq_true, if_false]

theorem Pen.mark_of_paint {effects : Effects} (h : effects.contains .paint = true) (pen : Pen)
    (colorNumber : UInt8) :
    ∃ line, (pen.mark colorNumber effects).drawing.segments =
      pen.drawing.segments.push ⟨line, colorNumber⟩ := by
  simp only [mark, h, if_true]
  exact ⟨_, rfl⟩

theorem Pen.segments_pop (pen : Pen) : pen.pop.drawing.segments = pen.drawing.segments := by
  rw [pop]
  split <;> rfl

theorem Config.paints_operator {config : Config} (hletters : LettersSound config.definitions)
    {c : Char} (h : c ∈ ['+', '-', '[', ']']) : config.paints c = false := by
  have hnone : config.definitions.find? (·.literal == c) = none := by
    rw [List.find?_eq_none]
    intro d hd heq
    have hletter := hletters.letters d hd
    rw [beq_iff_eq.1 heq] at hletter
    exact not_isLetter_operator h hletter
  rw [paints, hnone]
  rfl

theorem Config.segments_operator {config : Config} {literals : List Action} {id : SymbolId}
    {c : Char} (h : (c, id) ∈ [('+', 0), ('-', 1), ('[', 2), (']', 3)]) (pen : Pen) :
    ((config.assemble literals).stepSymbol pen id).drawing.segments = pen.drawing.segments := by
  simp only [List.mem_cons, Prod.mk.injEq, List.not_mem_nil, or_false] at h
  obtain ⟨_, rfl⟩ | ⟨_, rfl⟩ | ⟨_, rfl⟩ | ⟨_, rfl⟩ := h
  · rfl
  · rfl
  · rfl
  · exact pen.segments_pop

/-- A symbol leaves a segment behind if its definition paints, and else nothing. -/
theorem Config.Names.segments {config : Config} {a : Alphabet} {id : SymbolId} {c : Char}
    (ha : config.compile = .ok a) (h : config.Names id c) (pen : Pen) :
    (config.paints c = false ∧
      (a.stepSymbol pen id).drawing.segments = pen.drawing.segments) ∨
    (config.paints c = true ∧ ∃ segment, ColoredAs config a.colors c segment ∧
      (a.stepSymbol pen id).drawing.segments = pen.drawing.segments.push segment) := by
  have hletters := (valid_of_compile ha).letters
  obtain ⟨literals, hlit, rfl⟩ := compile_eq_ok_iff.1 ha
  obtain hop | ⟨i, hi, rfl⟩ := resolve_eq_some h
  · exact .inl ⟨paints_operator hletters (List.mem_map_of_mem (f := Prod.fst) hop),
      segments_operator hop pen⟩
  · obtain ⟨d, x, hd, _, hx, word, _, rfl⟩ := literal_of_findIdx? hlit hi
    have hstep : (config.assemble literals).stepSymbol pen (i + 4) =
        pen.mark (colorNumber (palette config.definitions) d.color) d.effects := by
      simp [Alphabet.stepSymbol, assemble, operators, hx, literalOf, Pen.step]
    have hpaints : config.paints c = d.effects.contains .paint := by
      rw [paints, hd]
      rfl
    rw [hstep, hpaints]
    cases heffects : d.effects.contains .paint with
    | false => exact .inl ⟨rfl, by rw [Pen.mark_of_not_paint heffects]⟩
    | true =>
        obtain ⟨line, hline⟩ := Pen.mark_of_paint heffects pen
          (colorNumber (palette config.definitions) d.color)
        exact .inr ⟨rfl, _, ⟨d, hd, getElem?_colorNumber hletters (List.mem_of_find?_eq_some hd)⟩,
          hline⟩

/-- A word leaves a segment behind for each symbol of its text that paints. -/
theorem Config.segments_walk {config : Config} {a : Alphabet} (ha : config.compile = .ok a)
    {ids : List SymbolId} {text : List Char} (h : List.Forall₂ config.Names ids text) (pen : Pen) :
    ∃ segments, (a.walk pen ids.toArray).drawing.segments.toList =
        pen.drawing.segments.toList ++ segments ∧
      List.Forall₂ (ColoredAs config a.colors) (text.filter config.paints) segments := by
  rw [Alphabet.walk, List.foldl_toArray]
  -- Each symbol finds the pen where the one before it left it.
  induction h generalizing pen with
  | nil => exact ⟨[], (List.append_nil _).symm, .nil⟩
  | @cons id c _ _ hc _ ih =>
      obtain ⟨segments, hsegments, hcolored⟩ := ih (a.stepSymbol pen id)
      rw [List.foldl_cons, hsegments]
      obtain ⟨hpaints, hstep⟩ | ⟨hpaints, segment, hcolor, hstep⟩ := hc.segments ha pen
      · rw [hstep, List.filter_cons_of_neg (by simp [hpaints])]
        exact ⟨segments, rfl, hcolored⟩
      · rw [hstep, List.filter_cons_of_pos hpaints, Array.toList_push, List.append_assoc]
        exact ⟨_, rfl, .cons hcolor hcolored⟩

theorem Alphabet.segments_draw (a : Alphabet) (word : Word) (startAngle stepSize : Float) :
    (a.draw word startAngle stepSize).segments =
      (a.walk (.start startAngle stepSize) word).drawing.segments := by
  rw [draw, Pen.finish]
  split <;> rfl

theorem Config.segments_draw {config : Config} {a : Alphabet} (ha : config.compile = .ok a)
    {ids : List SymbolId} {text : List Char} (h : List.Forall₂ config.Names ids text)
    (startAngle stepSize : Float) :
    List.Forall₂ (ColoredAs config a.colors) (text.filter config.paints)
      (a.draw ids.toArray startAngle stepSize).segments.toList := by
  obtain ⟨segments, hsegments, hcolored⟩ := segments_walk ha h (.start startAngle stepSize)
  rw [Alphabet.segments_draw, hsegments]
  exact hcolored

/-- The front of a text leaves the first segments behind. -/
theorem Config.segments_draw_take {config : Config} {a : Alphabet} (ha : config.compile = .ok a)
    {ids : List SymbolId} {text : List Char} (h : List.Forall₂ config.Names ids text)
    (startAngle stepSize : Float) (n : Nat) :
    (a.draw (ids.take n).toArray startAngle stepSize).segments.toList =
      (a.draw ids.toArray startAngle stepSize).segments.toList.take
        ((text.take n).countP config.paints) := by
  have hcount := (segments_draw ha (List.forall₂_take n h) startAngle stepSize).length_eq
  obtain ⟨rest, hrest, _⟩ := segments_walk ha (List.forall₂_drop n h)
    (a.walk (.start startAngle stepSize) (ids.take n).toArray)
  have hwalk : a.walk (a.walk (.start startAngle stepSize) (ids.take n).toArray)
      (ids.drop n).toArray = a.walk (.start startAngle stepSize) ids.toArray := by
    simp only [Alphabet.walk, List.foldl_toArray]
    rw [← List.foldl_append, List.take_append_drop]
  rw [hwalk, ← Alphabet.segments_draw, ← Alphabet.segments_draw] at hrest
  rw [hrest, List.countP_eq_length_filter, hcount, List.take_left']
  rfl

/-! ## Text and drawing of one configuration -/

/-- A result is what is drawn of a text under the given alphabet. -/
structure DrawnFrom (config : Config) (a : Alphabet) (text : List Char) (result : Result) :
    Prop where
  /-- Each character names an action, and one only. -/
  named : ∀ c ∈ text, ∃! id, a.Writes id c
  /-- The turtle that follows the named actions draws the result. -/
  drawn : ∀ ids : List SymbolId, List.Forall₂ a.Writes ids text →
    let drawing := a.draw ids.toArray config.startAngle config.stepSize
    result.segments = drawing.segments ∧ result.bounds = drawing.bounds ∧
      result.anomalies = drawing.anomalies
  /-- There is one segment for each character that paints, in its color. -/
  colored : List.Forall₂ (ColoredAs config result.colors) (text.filter config.paints)
    result.segments.toList
  /-- The front of the text draws the first segments. -/
  ordered : ∀ (n : Nat) (ids : List SymbolId), List.Forall₂ a.Writes ids (text.take n) →
    (a.draw ids.toArray config.startAngle config.stepSize).segments.toList =
      result.segments.toList.take ((text.take n).countP config.paints)

theorem DrawnFrom.congr {config : Config} {a b : Alphabet} {text : List Char} {result : Result}
    (h : DrawnFrom config b text result) (hab : a.Alike b) : DrawnFrom config a text result := by
  obtain ⟨hnamed, hdrawn, hcolored, hordered⟩ := h
  refine ⟨?_, ?_, hcolored, ?_⟩
  · rw [hab.writes_eq]; exact hnamed
  · rw [hab.writes_eq, hab.draw_eq]; exact hdrawn
  · rw [hab.writes_eq, hab.draw_eq]; exact hordered

/-- The result of a rendering is drawn from the text of the same expansion. -/
theorem Config.drawnFrom_render {config : Config} {a : Alphabet} (ha : config.compile = .ok a)
    (bound : Nat) (keepPrevious : Bool) :
    DrawnFrom config a (a.spell (a.expand config.iterations.toNat bound false).word).toList
      (Simulator.render a config bound keepPrevious).1 := by
  obtain ⟨text, hnames, hspell⟩ := names_expand ha config.iterations.toNat bound false
  rw [hspell, String.toList_ofList]
  have hwrites : List.Forall₂ a.Writes (a.expand config.iterations.toNat bound false).word.toList
      text := hnames.imp fun _ _ h => h.symbol ha
  have hword := a.word_expand_eq config.iterations.toNat bound keepPrevious false
  have hcolors : a.colors = (Simulator.render a config bound keepPrevious).1.colors := rfl
  have hsegments : (Simulator.render a config bound keepPrevious).1.segments =
      (a.draw (a.expand config.iterations.toNat bound false).word config.startAngle
        config.stepSize).segments := by
    rw [← hword]
    rfl
  generalize (a.expand config.iterations.toNat bound false).word = word at *
  refine ⟨fun c hc => ?_, fun ids hids => ?_, ?_, fun n ids hids => ?_⟩
  · obtain ⟨hlength, hget⟩ := List.forall₂_iff_get.1 hwrites
    obtain ⟨i, hi, rfl⟩ := List.getElem_of_mem hc
    have hid := hget i (hlength ▸ hi) hi
    exact ⟨_, hid, fun j hj => writes_unique ha hj hid⟩
  · rw [word_unique ha hids hwrites, Array.toArray_toList, ← hword]
    exact ⟨rfl, rfl, rfl⟩
  · rw [← hcolors, hsegments]
    exact segments_draw ha hnames config.startAngle config.stepSize
  · rw [word_unique ha hids (List.forall₂_take n hwrites), hsegments]
    exact segments_draw_take ha hnames config.startAngle config.stepSize n

namespace Simulator

/-- After any history, a simulator that is asked for the text of a configuration and one
that is asked for its drawing fail with the same error; and if there is a text, then
the drawing is drawn from it, under the compiled alphabet and under the one in use. -/
theorem text_tells_drawing (settings : Settings) (history : List Request) (config : Config) :
    let s := (fresh settings).after history
    (∀ e, s.answer (.actionString config) = .actionString (.error e) ↔
      ∃ result, s.answer (.exec config) = .exec result ∧ result.outcome = .invalidConfig e) ∧
    ∀ text, s.answer (.actionString config) = .actionString (.ok text) →
      ∃ result a b, s.answer (.exec config) = .exec result ∧ config.compile = .ok a ∧
        (s.alphabetFor config).2.1 = .ok b ∧ DrawnFrom config a text.toList result ∧
        DrawnFrom config b text.toList result := by
  intro s
  have hs : s.Sound := (fresh_sound settings).after history
  rw [hs.answer_eq, hs.answer_eq, coldAnswer, coldAnswer]
  obtain ⟨b, a, hb, ha, hba⟩ | ⟨e, _, he⟩ := hs.alphabetFor config
  · rw [ha]
    refine ⟨fun e => ⟨fun h => ?_, ?_⟩, fun text htext => ?_⟩
    · cases h
    · rintro ⟨result, h, houtcome⟩
      cases h
      simp only [resultWith, render] at houtcome
      split at houtcome <;> cases houtcome
    · cases htext
      have hdrawn := Config.drawnFrom_render ha (config.stackSize.getD s.settings.bound).toNat
        s.settings.previousGeneration
      exact ⟨_, a, b, rfl, rfl, hb, hdrawn, hdrawn.congr hba⟩
  · rw [he]
    refine ⟨fun e' => ⟨fun h => ?_, ?_⟩, fun text h => ?_⟩
    · cases h
      exact ⟨_, rfl, rfl⟩
    · rintro ⟨result, h, houtcome⟩
      cases h
      cases houtcome
      rfl
    · cases h

end Simulator

end Lindenmayer
