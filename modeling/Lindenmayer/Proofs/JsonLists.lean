import Lindenmayer.Proofs.JsonSkipping

/-!
# Arrays element by element

Elements, and the fields and members of records as well, are read in a loop: find the
next part, read it, go on. Each loop gets one law. It says where the loop stands after
some parts have been gone through, whatever follows them: what they gave is kept, and
the loop goes on with the rest. Where the rest is a closing bracket, that makes a whole
list; where it is a part that is refused, it makes an error.

A reader cannot look further than the end of a value to know that it has ended. So its
law holds in front of any text that stops a value, which is what separators, closing
brackets and the end of a document have in common.
-/

namespace Lindenmayer.Json

/-- The reader takes the text for the value wherever the text stands. -/
structure Reads (read : Reader Json) (value : Json) (text : Input) : Prop where
  starts : Starts text
  read_append : ∀ {blank rest : Input}, Blank blank → Stops rest →
    read (blank ++ (text ++ rest)) = .ok (value, rest)

/-- The reader finds fault with the shape of the text, whatever follows. -/
structure Refuses (read : Reader Json) (front : Input) : Prop where
  starts : Starts front
  read_append : ∀ {blank : Input}, Blank blank → ∀ rest : Input,
    read (blank ++ (front ++ rest)) = .error .mismatched

variable {rest : Input}

theorem nextElement_separator {first : Bool} {separator : Input} (h : Separator first separator)
    {part : Input} (hpart : Starts part) :
    nextElement first (separator ++ part) = .ok (true, part) := by
  obtain ⟨c, cs, rfl⟩ : ∃ c cs, part = c :: cs := by
    cases part with
    | nil => cases hpart
    | cons c cs => exact ⟨c, cs, rfl⟩
  cases h with
  | first hblank =>
      rw [nextElement, hpart.skipBlank_append hblank]
      split
      · next h => cases h
      · next h => injection h with h; exact absurd h hpart.2.1
      · next h =>
          injection h with hc hr
          subst hc hr
          rfl
  | @comma before after hbefore hafter =>
      have hcomma : skipBlank (before ++ ',' :: after ++ c :: cs) = ',' :: (after ++ c :: cs) := by
        rw [List.append_assoc, skipBlank_append hbefore]
        rfl
      rw [nextElement, hcomma]
      split
      · next h => cases h
      · next h => cases h
      · next h =>
          injection h with hc hr
          subst hc hr
          rw [if_neg Bool.false_ne_true, if_pos rfl, hpart.skipBlank_append hafter]
          split
          · next h => cases h
          · next h => injection h with h; exact absurd h hpart.2.1
          · rfl

theorem nextElement_closing (first : Bool) {blank : Input} (h : Blank blank) (rest : Input) :
    nextElement first (blank ++ ']' :: rest) = .ok (false, ']' :: rest) := by
  rw [nextElement, skipBlank_append h]
  rfl

theorem stops_closing {blank : Input} (h : Blank blank) {c : Char} (hc : c = ']' ∨ c = '}')
    (rest : Input) : Stops (blank ++ c :: rest) :=
  h.stops_append (Or.inr (Or.inr hc))

theorem readElements_part {read : Reader Json} {value : Json} {part : Input}
    (hpart : Reads read value part) {first : Bool} {separator : Input}
    (hsep : Separator first separator) (hrest : Stops rest) (f : Char) (fuel : Input) :
    readElements read (f :: fuel) first (separator ++ (part ++ rest)) = do
      let (es, left) ← readElements read fuel false rest
      return (value :: es, left) := by
  rw [readElements, nextElement_separator hsep (hpart.starts.append rest)]
  have hread := hpart.read_append Blank.nil hrest
  rw [List.nil_append] at hread
  simp only [bind, Except.bind, if_true, hread]

/-- The elements that have been read are kept, and the loop goes on behind them. -/
theorem readElements_chain {read : Reader Json} {items : List (Json × Input)}
    (hitems : ∀ i ∈ items, Reads read i.1 i.2) {first : Bool} {text : Input}
    (h : Chain first (items.map Prod.snd) text)
    (rest : Input) (hrest : (first && items.isEmpty) = false → Stops rest) (fuel : Input)
    (hfuel : text.length + rest.length ≤ fuel.length) :
    ∃ fuel', rest.length ≤ fuel'.length ∧
      readElements read fuel first (text ++ rest) = do
        let (es, left) ← readElements read fuel' (first && items.isEmpty) rest
        return (items.map Prod.fst ++ es, left) := by
  induction items generalizing first text fuel with
  | nil =>
      cases h
      refine ⟨fuel, by simpa using hfuel, ?_⟩
      simp only [List.nil_append, List.isEmpty_nil, Bool.and_true, List.map_nil]
      cases readElements read fuel first rest <;> rfl
  | cons item items ih =>
      cases h with
      | @cons _ separator part _ text hsep htext =>
          have hitem := hitems item List.mem_cons_self
          have hstops : Stops rest := hrest (by simp)
          -- A part is never empty, so what is left of the fuel still covers the text.
          have hpos := hitem.starts.length_pos
          simp only [List.length_append] at hfuel
          obtain ⟨f, fuel, rfl⟩ := List.exists_cons_of_length_pos (by omega : 0 < fuel.length)
          rw [List.length_cons] at hfuel
          obtain ⟨fuel', hfuel', hrun⟩ := ih (fun i hi => hitems i (List.mem_cons_of_mem _ hi))
            htext (fun _ => hstops) fuel (by omega)
          refine ⟨fuel', hfuel', ?_⟩
          rw [List.append_assoc, List.append_assoc,
            readElements_part hitem hsep (htext.stops_append hstops), hrun]
          simp only [List.isEmpty_cons, Bool.and_false, Bool.false_and, List.map_cons,
            List.cons_append, bind_assoc, pure_bind]

theorem closeArray_append {blank : Input} (h : Blank blank) (rest : Input) :
    closeArray (blank ++ ']' :: rest) = .ok rest := by
  rw [closeArray, skipBlank_append h]
  rfl

theorem readElements_closing (read : Reader Json) (first : Bool) {blank : Input} (h : Blank blank)
    {rest fuel : Input} (hfuel : (blank ++ ']' :: rest).length ≤ fuel.length) :
    readElements read fuel first (blank ++ ']' :: rest) = .ok ([], ']' :: rest) := by
  simp only [List.length_append, List.length_cons] at hfuel
  obtain ⟨f, fuel, rfl⟩ := List.exists_cons_of_length_pos (by omega : 0 < fuel.length)
  rw [readElements, nextElement_closing first h]
  rfl

theorem reads_list {read : Reader Json} {items : List (Json × Input)}
    (hitems : ∀ i ∈ items, Reads read i.1 i.2) {text : Input}
    (h : Bracketed '[' (items.map Prod.snd) ']' text) :
    Reads (readList read) (.array (items.map Prod.fst)) text := by
  obtain ⟨hchain, hblank⟩ := h
  next body blank =>
    refine ⟨⟨rfl, by decide, by decide⟩, ?_⟩
    intro gap rest hgap _
    have hopen : skipBlank (gap ++ ('[' :: (body ++ (blank ++ [']'])) ++ rest)) =
        '[' :: (body ++ (blank ++ ']' :: rest)) := by
      rw [skipBlank_append hgap]
      simp only [List.cons_append, List.append_assoc, List.nil_append]
      rfl
    obtain ⟨fuel, hfuel, hrun⟩ := readElements_chain hitems hchain (blank ++ ']' :: rest)
      (fun _ => stops_closing hblank (Or.inl rfl) rest) (body ++ (blank ++ ']' :: rest))
      (by simp only [List.length_append]; omega)
    rw [readElements_closing read _ hblank hfuel] at hrun
    rw [readList, hopen]
    simp only [hrun, bind, Except.bind, pure, Except.pure, List.append_nil]
    rw [← List.nil_append (']' :: rest), closeArray_append Blank.nil rest]

/-- An element that is refused behind others makes the whole list refused. -/
theorem refuses_element {read : Reader Json} {items : List (Json × Input)}
    (hitems : ∀ i ∈ items, Reads read i.1 i.2) {text : Input}
    (h : Chain true (items.map Prod.snd) text) {separator : Input}
    (hsep : Separator items.isEmpty separator) {front : Input} (hfront : Refuses read front) :
    Refuses (readList read) ('[' :: (text ++ (separator ++ front))) := by
  refine ⟨⟨rfl, by decide, by decide⟩, ?_⟩
  intro gap hgap rest
  have hopen : skipBlank (gap ++ ('[' :: (text ++ (separator ++ front)) ++ rest)) =
      '[' :: (text ++ (separator ++ (front ++ rest))) := by
    rw [skipBlank_append hgap]
    simp only [List.cons_append, List.append_assoc]
    rfl
  obtain ⟨fuel, hfuel, hrun⟩ := readElements_chain hitems h (separator ++ (front ++ rest))
    (hsep.stops_of_eq_false _)
    (text ++ (separator ++ (front ++ rest))) (by simp only [List.length_append]; omega)
  have hpos := hfront.starts.length_pos
  simp only [List.length_append] at hfuel
  obtain ⟨f, fuel, rfl⟩ := List.exists_cons_of_length_pos (by omega : 0 < fuel.length)
  have hread := hfront.read_append Blank.nil rest
  rw [List.nil_append] at hread
  rw [Bool.true_and, readElements, nextElement_separator hsep (hfront.starts.append rest)] at hrun
  simp only [bind, Except.bind, if_true, hread] at hrun
  rw [readList, hopen]
  simp only [hrun, bind, Except.bind]

end Lindenmayer.Json
