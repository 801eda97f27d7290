import Lindenmayer.Proofs.JsonLayout

/-!
# The compact form is a layout

A value is written as pieces of text with places for line breaks between them. In the
compact form the places take no room, so the depth of a value, which only the breaks
show, makes no difference to its text. What is left are parts with commas between them.

So an array or a record in the compact form is a layout if its parts are. If one of them
is flawed, the text up to that flaw is, for all parts before it are read.
-/

namespace Lindenmayer.Json

/-- The characters of a value in the compact form. -/
def compactText (value : Json) : Input := value.compact.toList

/-- The characters of some pieces in a form. -/
def formText (form : Piece → String) (ps : List Piece) : Input :=
  ps.flatMap fun p => (form p).toList

theorem formText_cons (form : Piece → String) (p : Piece) (ps : List Piece) :
    formText form (p :: ps) = (form p).toList ++ formText form ps := List.flatMap_cons

theorem toList_render (form : Piece → String) (value : Json) :
    (value.render form).toList = formText form (value.pieces 0 []) := by
  have hfold : ∀ (ps : List Piece) (text : String),
      (ps.foldl (fun text piece => text ++ form piece) text).toList =
        text.toList ++ formText form ps := by
    intro ps
    induction ps with
    | nil => intro text; simp [formText]
    | cons p ps ih => intro text; simp [ih, formText]
  rw [render, hfold]
  rfl

/-- The characters of some pieces in the compact form. -/
def piecesText (ps : List Piece) : Input := ps.flatMap fun p => p.compact.toList

theorem compactText_eq (value : Json) : compactText value = piecesText (value.pieces 0 []) :=
  toList_render Piece.compact value

theorem piecesText_cons (p : Piece) (ps : List Piece) :
    piecesText (p :: ps) = p.compact.toList ++ piecesText ps := List.flatMap_cons

/-- Texts with commas between them. -/
def joined : List Input → Input
  | [] => []
  | text :: texts => text ++ texts.flatMap (',' :: ·)

/-- A member of an object in the compact form. -/
def memberText (m : String × Json) : Input := (quote m.1).toList ++ ':' :: compactText m.2

mutual

/-- The pieces of a value give the same text at any depth. -/
theorem piecesText_pieces (depth : Nat) (value : Json) (rest : List Piece) :
    piecesText (value.pieces depth rest) = compactText value ++ piecesText rest := by
  rw [compactText_eq]
  match value with
  | null | bool _ | natural _ | number _ | string _ | array [] | object [] =>
      simp only [pieces, piecesText_cons, Piece.compact]
      simp [piecesText]
  | array (e :: es) =>
      simp only [pieces, piecesText_cons, piecesText_pieces _ e, piecesText_elementPieces _ es]
      simp [piecesText, Piece.compact]
  | object ((key, v) :: ms) =>
      simp only [pieces, piecesText_cons, piecesText_pieces _ v, piecesText_memberPieces _ ms]
      simp [piecesText, Piece.compact]

theorem piecesText_elementPieces (depth : Nat) (es : List Json) (rest : List Piece) :
    piecesText (elementPieces depth es rest) =
      es.flatMap (fun e => ',' :: compactText e) ++ piecesText rest := by
  match es with
  | [] => rfl
  | e :: es =>
      simp only [elementPieces, piecesText_cons, piecesText_pieces _ e,
        piecesText_elementPieces _ es]
      simp [Piece.compact]

theorem piecesText_memberPieces (depth : Nat) (ms : List (String × Json)) (rest : List Piece) :
    piecesText (memberPieces depth ms rest) =
      ms.flatMap (fun m => ',' :: memberText m) ++ piecesText rest := by
  match ms with
  | [] => rfl
  | (key, v) :: ms =>
      simp only [memberPieces, piecesText_cons, piecesText_pieces _ v,
        piecesText_memberPieces _ ms]
      simp [Piece.compact, memberText]

end

theorem compactText_array (es : List Json) :
    compactText (.array es) = '[' :: (joined (es.map compactText) ++ [']']) := by
  rw [compactText_eq]
  cases es with
  | nil => rfl
  | cons e es =>
      simp only [pieces, piecesText_cons, piecesText_pieces, piecesText_elementPieces]
      simp [piecesText, Piece.compact, joined, List.flatMap_map]

theorem compactText_object (ms : List (String × Json)) :
    compactText (.object ms) = '{' :: (joined (ms.map memberText) ++ ['}']) := by
  rw [compactText_eq]
  cases ms with
  | nil => rfl
  | cons m ms =>
      obtain ⟨key, v⟩ := m
      simp only [pieces, piecesText_cons, piecesText_pieces, piecesText_memberPieces]
      simp [piecesText, Piece.compact, joined, List.flatMap_map, memberText]

/-! ## Layouts in the compact form -/

theorem separator_nil : Separator true [] := Separator.first Blank.nil

theorem separator_comma : Separator false [','] := Separator.comma Blank.nil Blank.nil

theorem chain_commas (texts : List Input) : Chain false texts (texts.flatMap (',' :: ·)) := by
  induction texts with
  | nil => exact Chain.nil
  | cons text texts ih => exact Chain.cons separator_comma ih

theorem chain_joined (texts : List Input) : Chain true texts (joined texts) := by
  cases texts with
  | nil => exact Chain.nil
  | cons text texts => exact Chain.cons separator_nil (chain_commas texts)

theorem bracketed_joined (opening : Char) (texts : List Input) (closing : Char) :
    Bracketed opening texts closing (opening :: (joined texts ++ [closing])) :=
  Bracketed.intro (chain_joined texts) Blank.nil

/-- A text in the middle of others has a separator before it. -/
theorem joined_append_cons (before : List Input) (text : Input) (after : List Input) :
    ∃ separator more, Separator before.isEmpty separator ∧
      joined (before ++ text :: after) = joined before ++ (separator ++ (text ++ more)) := by
  cases before with
  | nil => exact ⟨[], after.flatMap (',' :: ·), separator_nil, rfl⟩
  | cons head before =>
      refine ⟨[','], after.flatMap (',' :: ·), separator_comma, ?_⟩
      simp [joined]

theorem laidOut_list {shape : Shape} {es : List Json}
    (h : ∀ e ∈ es, LaidOut shape e (compactText e)) :
    LaidOut (.list shape) (.array es) (compactText (.array es)) := by
  let items := es.map fun e => (e, compactText e)
  have hvalues : items.map Prod.fst = es := by
    rw [List.map_map]
    exact List.map_id es
  have htexts : items.map Prod.snd = es.map compactText := by
    rw [List.map_map]
    rfl
  have hitems : ∀ i ∈ items, LaidOut shape i.1 i.2 := by
    intro i hi
    obtain ⟨e, he, rfl⟩ := List.mem_map.1 hi
    exact h e he
  have hlaid := LaidOut.list hitems (bracketed_joined '[' (items.map Prod.snd) ']')
  rwa [hvalues, htexts, ← compactText_array] at hlaid

/-- An entry with its value in the compact form. -/
def Entry.IsCompact (e : Entry) : Prop := e.text = compactText e.value

/-- The entry as a member in the compact form. -/
def Entry.toMember (e : Entry) : Member := .known (quote e.name).toList [':'] e

theorem toMember_text {e : Entry} (h : e.IsCompact) : e.toMember.text = memberText e.member := by
  rw [Entry.toMember, Member.text, h]
  rfl

theorem map_toMember_text {entries : List Entry} (h : ∀ e ∈ entries, e.IsCompact) :
    (entries.map Entry.toMember).map Member.text = (entries.map Entry.member).map memberText := by
  rw [List.map_map, List.map_map]
  exact List.map_congr_left fun e he => toMember_text (h e he)

theorem given_map_toMember (entries : List Entry) :
    given (entries.map Entry.toMember) = entries := by
  induction entries with
  | nil => rfl
  | cons e entries ih => rw [List.map_cons, given_cons, ih]; rfl

theorem colon_compact : Colon [':'] := Colon.intro Blank.nil Blank.nil

theorem fits_toMember {fields : List (String × Shape)} {e : Entry} (h : e.field ∈ fields) :
    e.toMember.Fits fields :=
  ⟨quoted_quote e.name, colon_compact, h⟩

theorem laidOut_record {entries : List Entry} (hnodup : (entries.map Entry.name).Nodup)
    (hcompact : ∀ e ∈ entries, e.IsCompact)
    (h : ∀ e ∈ entries, LaidOut e.shape e.value e.text) :
    LaidOut (.record (entries.map Entry.field)) (.object (entries.map Entry.member))
      (compactText (.object (entries.map Entry.member))) := by
  have hfits : ∀ m ∈ entries.map Entry.toMember, m.Fits (entries.map Entry.field) := by
    intro m hm
    obtain ⟨e, he, rfl⟩ := List.mem_map.1 hm
    exact fits_toMember (List.mem_map_of_mem he)
  have hmissing : ∀ e ∈ entries, e ∉ given (entries.map Entry.toMember) →
      e.shape.mayBeMissing = true ∧ e.value = .null := by
    intro e he hmissing
    rw [given_map_toMember] at hmissing
    exact absurd he hmissing
  refine LaidOut.object hnodup hfits (by rwa [given_map_toMember])
    (by rw [given_map_toMember]) hmissing ?_
  rw [map_toMember_text hcompact, compactText_object]
  exact bracketed_joined '{' _ '}'

/-- The first fields of a record in the compact form. -/
theorem opening_toMember {before after : List Entry}
    (hnodup : ((before ++ after).map Entry.name).Nodup)
    (hbefore : ∀ e ∈ before, LaidOut e.shape e.value e.text) :
    Opening ((before ++ after).map Entry.field) (before.map Entry.toMember)
      (joined ((before.map Entry.toMember).map Member.text)) where
  names_nodup := by rwa [List.map_map]
  fits := by
    intro m hm
    obtain ⟨e, he, rfl⟩ := List.mem_map.1 hm
    exact fits_toMember (List.mem_map_of_mem (List.mem_append_left _ he))
  laid_out := by rwa [given_map_toMember]
  given_nodup := by
    rw [given_map_toMember]
    rw [List.map_append] at hnodup
    exact hnodup.of_append_left
  chain := chain_joined _

/-- A record in the compact form is flawed at the first field that is. -/
theorem flawed_record {before after : List Entry} {e : Entry}
    (hnodup : ((before ++ e :: after).map Entry.name).Nodup)
    (hcompact : ∀ d ∈ before ++ e :: after, d.IsCompact)
    (hbefore : ∀ d ∈ before, LaidOut d.shape d.value d.text) (he : Flawed e.shape e.text) :
    ∃ front more, compactText (.object ((before ++ e :: after).map Entry.member)) = front ++ more ∧
      Flawed (.record ((before ++ e :: after).map Entry.field)) front := by
  have hmem : e ∈ before ++ e :: after := List.mem_append_right _ List.mem_cons_self
  have hopening := opening_toMember hnodup hbefore
  have hfresh : e.name ∉ (given (before.map Entry.toMember)).map Entry.name := by
    rw [given_map_toMember]
    rw [List.map_append, List.map_cons, List.nodup_append] at hnodup
    exact fun hmem => hnodup.2.2 _ hmem _ List.mem_cons_self rfl
  obtain ⟨separator, more, hsep, hjoined⟩ := joined_append_cons
    ((before.map Entry.toMember).map Member.text) e.toMember.text
    ((after.map Entry.toMember).map Member.text)
  have hsep' : Separator (before.map Entry.toMember).isEmpty separator := by
    rwa [List.isEmpty_map] at hsep
  refine ⟨_, more ++ ['}'], ?_, Flawed.member hopening hsep' (List.mem_map_of_mem hmem) hfresh
    (quoted_quote e.name) colon_compact he⟩
  have hparts : ((before ++ e :: after).map Entry.member).map memberText =
      (before.map Entry.toMember).map Member.text ++ e.toMember.text ::
        (after.map Entry.toMember).map Member.text := by
    rw [← map_toMember_text hcompact]
    simp only [List.map_append, List.map_cons]
  rw [compactText_object, hparts, hjoined]
  simp [Entry.toMember, Member.text]

end Lindenmayer.Json
