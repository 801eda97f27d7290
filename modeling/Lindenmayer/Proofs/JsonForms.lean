import Lindenmayer.Proofs.LawfulCodecs
import Lindenmayer.Proofs.NumberTexts

/-!
# Every form of a value is well formed

A value is written as pieces, and a form says what stands in the places between them. If
that is white space, whatever the form, the text is a layout of the value: every array and
every object has its parts in their own order, and nothing is said about the white space
around them. The compact form and the pretty form are two of these.

From the layout follows what is wanted of a document. It is well formed. And without its
white space it is the compact form, where white space inside a string stays: a scanner that
goes through the text once can tell which is which, because a quote in a string is escaped.
-/

namespace Lindenmayer.Json

/-! ## Layouts -/

/-- A member of an object, and how its colon and its value are written. -/
structure WrittenMember where
  name : String
  value : Json
  colon : Input
  text : Input

def WrittenMember.member (m : WrittenMember) : String × Json := (m.name, m.value)

def WrittenMember.written (m : WrittenMember) : Input :=
  (quote m.name).toList ++ (m.colon ++ m.text)

/-- The texts of a value in which scalars and keys are as they are written, parts are in
order, and white space is free. -/
inductive Written : Json → Input → Prop
  | null : Written .null "null".toList
  | bool (b : Bool) : Written (.bool b) (if b then "true" else "false").toList
  | natural (n : Nat) : Written (.natural n) n.repr.toList
  | number (x : Float) : Written (.number x) (numberLayout.text x).toList
  | string (s : String) : Written (.string s) (quote s).toList
  | array {items : List (Json × Input)} {text : Input} : (∀ i ∈ items, Written i.1 i.2) →
      Bracketed '[' (items.map Prod.snd) ']' text → Written (.array (items.map Prod.fst)) text
  | object {members : List WrittenMember} {text : Input} : (∀ m ∈ members, Colon m.colon) →
      (∀ m ∈ members, Written m.value m.text) →
      Bracketed '{' (members.map WrittenMember.written) '}' text →
      Written (.object (members.map WrittenMember.member)) text

/-- A form that only chooses white space. -/
structure IsLayout (form : Piece → String) : Prop where
  text (s : String) : form (.text s) = s
  line (depth : Nat) : Blank (form (.line depth)).toList
  space : Blank (form .space).toList

theorem isLayout_compact : IsLayout Piece.compact :=
  ⟨fun _ => rfl, fun _ => Blank.nil, Blank.nil⟩

theorem isLayout_pretty : IsLayout Piece.pretty where
  text _ := rfl
  line depth := by
    intro c hc
    rw [Piece.pretty, String.toList_ofList, List.mem_cons] at hc
    obtain rfl | hc := hc
    · rfl
    · rw [List.eq_of_mem_replicate hc]
      rfl
  space := by
    intro c hc
    rw [List.mem_singleton.1 hc]
    rfl

section

variable {form : Piece → String} (hform : IsLayout form)
include hform

theorem formText_text (s : String) (ps : List Piece) :
    formText form (.text s :: ps) = s.toList ++ formText form ps := by
  rw [formText_cons, hform.text]

/-- Parts that are laid out stand between brackets, the first on a line of its own. -/
theorem bracketed_lines (depth : Nat) (opening : Char) (part : Input) {parts : List Input}
    {text : Input} (h : Chain false parts text) (closing : Char) :
    Bracketed opening (part :: parts) closing
      (opening :: (((form (.line (depth + 1))).toList ++ (part ++ text)) ++
        ((form (.line depth)).toList ++ [closing]))) :=
  .intro (.cons (.first (hform.line _)) h) (hform.line _)

/-- How a member is written in the form. -/
def writtenMember (form : Piece → String) (key : String) (v : Json) (text : Input) :
    WrittenMember where
  name := key
  value := v
  colon := ':' :: (form .space).toList
  text := text

mutual

/-- The pieces of a value start with a layout of it. What stands behind it has no part in
that, so the layout is chosen before the rest. -/
theorem written_pieces (depth : Nat) (value : Json) :
    ∃ text, Written value text ∧
      ∀ rest, formText form (value.pieces depth rest) = text ++ formText form rest := by
  match value with
  | null => exact ⟨_, .null, formText_text hform _⟩
  | bool b => exact ⟨_, .bool b, formText_text hform _⟩
  | natural n => exact ⟨_, .natural n, formText_text hform _⟩
  | number x => exact ⟨_, .number x, formText_text hform _⟩
  | string s => exact ⟨_, .string s, formText_text hform _⟩
  | array [] =>
      have hnone : ∀ i ∈ ([] : List (Json × Input)), Written i.1 i.2 := List.forall_mem_nil _
      exact ⟨_, .array hnone (.intro .nil Blank.nil), formText_text hform _⟩
  | object [] =>
      have hnone : ∀ m ∈ ([] : List WrittenMember), Written m.value m.text := List.forall_mem_nil _
      exact ⟨_, .object (List.forall_mem_nil _) hnone (.intro .nil Blank.nil),
        formText_text hform _⟩
  | array (e :: es) =>
      obtain ⟨text, he, htext⟩ := written_pieces (depth + 1) e
      obtain ⟨items, rfl, hitems, more, hchain, hmore⟩ := written_elementPieces (depth + 1) es
      have hall : ∀ i ∈ (e, text) :: items, Written i.1 i.2 := List.forall_mem_cons.2 ⟨he, hitems⟩
      refine ⟨_, .array hall (bracketed_lines hform depth '[' text hchain ']'), ?_⟩
      intro rest
      simp [pieces, formText_cons, hform.text, htext, hmore]
  | object ((key, v) :: ms) =>
      obtain ⟨text, hv, htext⟩ := written_pieces (depth + 1) v
      obtain ⟨members, rfl, hcolons, hvalues, more, hchain, hmore⟩ :=
        written_memberPieces (depth + 1) ms
      have hcolons' : ∀ m ∈ writtenMember form key v text :: members, Colon m.colon :=
        List.forall_mem_cons.2 ⟨.intro Blank.nil hform.space, hcolons⟩
      refine ⟨_, .object hcolons' (List.forall_mem_cons.2 ⟨hv, hvalues⟩)
        (bracketed_lines hform depth '{' _ hchain '}'), ?_⟩
      intro rest
      simp [pieces, formText_cons, hform.text, htext, hmore, WrittenMember.written, writtenMember]

theorem written_elementPieces (depth : Nat) (es : List Json) :
    ∃ items : List (Json × Input), items.map Prod.fst = es ∧ (∀ i ∈ items, Written i.1 i.2) ∧
      ∃ text, Chain false (items.map Prod.snd) text ∧
        ∀ rest, formText form (elementPieces depth es rest) = text ++ formText form rest := by
  match es with
  | [] => exact ⟨[], rfl, List.forall_mem_nil _, [], .nil, fun _ => rfl⟩
  | e :: es =>
      obtain ⟨text, he, htext⟩ := written_pieces depth e
      obtain ⟨items, rfl, hitems, more, hchain, hmore⟩ := written_elementPieces depth es
      refine ⟨(e, text) :: items, rfl, List.forall_mem_cons.2 ⟨he, hitems⟩, _,
        .cons (.comma Blank.nil (hform.line depth)) hchain, ?_⟩
      intro rest
      simp [elementPieces, formText_cons, hform.text, htext, hmore]

theorem written_memberPieces (depth : Nat) (ms : List (String × Json)) :
    ∃ members : List WrittenMember, members.map WrittenMember.member = ms ∧
      (∀ m ∈ members, Colon m.colon) ∧ (∀ m ∈ members, Written m.value m.text) ∧
      ∃ text, Chain false (members.map WrittenMember.written) text ∧
        ∀ rest, formText form (memberPieces depth ms rest) = text ++ formText form rest := by
  match ms with
  | [] => exact ⟨[], rfl, List.forall_mem_nil _, List.forall_mem_nil _, [], .nil, fun _ => rfl⟩
  | (key, v) :: ms =>
      obtain ⟨text, hv, htext⟩ := written_pieces depth v
      obtain ⟨members, rfl, hcolons, hvalues, more, hchain, hmore⟩ := written_memberPieces depth ms
      refine ⟨writtenMember form key v text :: members, rfl,
        List.forall_mem_cons.2 ⟨.intro Blank.nil hform.space, hcolons⟩,
        List.forall_mem_cons.2 ⟨hv, hvalues⟩, _,
        .cons (.comma Blank.nil (hform.line depth)) hchain, ?_⟩
      intro rest
      simp [memberPieces, formText_cons, hform.text, htext, hmore, WrittenMember.written,
        writtenMember]

end

/-- A document is a layout of its value. -/
theorem written_render (value : Json) : Written value (value.render form).toList := by
  obtain ⟨text, hwritten, htext⟩ := written_pieces hform 0 value
  rw [toList_render, htext]
  rwa [formText, List.flatMap_nil, List.append_nil]

end

/-! ## Well-formed documents -/

theorem Spelling.exists_fragments {c : Char} {text : Input} (h : Spelling c text) :
    ∃ fragments : List Input, (∀ f ∈ fragments, Fragment f) ∧ text = fragments.flatten := by
  cases h with
  | plain hlow hquote hback => exact ⟨[_], by simpa using .plain hlow hquote hback, by simp⟩
  | letter hl => exact ⟨[_], by simpa using .letter (by rw [hl]; rfl), by simp⟩
  | unit hdigits => exact ⟨[_], by simpa using .unit hdigits, by simp⟩
  | @pair n m high low hn hm =>
      refine ⟨['\\' :: 'u' :: high, '\\' :: 'u' :: low], ?_, by simp⟩
      simpa using ⟨.unit hn, .unit hm⟩

theorem Spells.exists_fragments {cs : List Char} {text : Input} (h : Spells cs text) :
    ∃ fragments : List Input, (∀ f ∈ fragments, Fragment f) ∧ text = fragments.flatten := by
  induction h with
  | nil => exact ⟨[], List.forall_mem_nil _, rfl⟩
  | cons hc _ ih =>
      obtain ⟨front, hfront, rfl⟩ := hc.exists_fragments
      obtain ⟨back, hback, rfl⟩ := ih
      exact ⟨front ++ back, List.forall_mem_append.2 ⟨hfront, hback⟩, List.flatten_append.symm⟩

theorem stringText_quote (s : String) : StringText (quote s).toList := by
  obtain ⟨fragments, hfragments, hbody⟩ := (spells_escape s.toList).exists_fragments
  rw [quote, String.toList_ofList, hbody]
  exact .intro hfragments

theorem numberText_natural (n : Nat) : NumberText n.repr.toList := by
  have h : NumberText ([] ++ (Nat.toDigits 10 n ++ ([] ++ []))) :=
    .intro List.mem_cons_self (wholeText_toDigits n) .absent .absent
  simpa [Nat.toList_repr] using h

theorem numberText_number {x : Float} (hx : x.isFinite = true) :
    NumberText (numberLayout.text x).toList := by
  obtain ⟨sign, body, htext, ⟨hwhole, hfraction, hexponent, -⟩, -⟩ := exists_body hx
  rw [htext]
  refine .intro ?_ hwhole hfraction hexponent
  cases sign <;> decide

/-- A number that has no spelling is written as nothing. -/
theorem toList_text_of_not_finite {x : Float} (hx : x.isFinite = false) :
    (numberLayout.text x).toList = "null".toList := by
  change x.toModel.unpack.isFinite = false at hx
  rw [Number.Layout.text]
  rcases hdecode : x.toModel.unpack with (_ | _) | _ | _ | _ <;> rw [hdecode] at hx
  case zero | finite => cases hx
  all_goals rfl

/-- The texts of a member alone. -/
def WrittenMember.pair (m : WrittenMember) : Pair := ⟨(quote m.name).toList, m.colon, m.text⟩

theorem map_pair_text (members : List WrittenMember) :
    (members.map WrittenMember.pair).map Pair.text = members.map WrittenMember.written := by
  rw [List.map_map]
  refine List.map_congr_left fun m _ => ?_
  rw [Function.comp_apply, Pair.text, WrittenMember.pair, WrittenMember.written]

theorem Written.wellFormed {value : Json} {text : Input} (h : Written value text) :
    WellFormed text := by
  induction h with
  | null => exact .word List.mem_cons_self
  | bool b =>
      refine .word (List.mem_cons_of_mem _ ?_)
      cases b with
      | true => exact List.mem_cons_self
      | false => exact List.mem_cons_of_mem _ List.mem_cons_self
  | natural n => exact .number (numberText_natural n)
  | number x =>
      cases hx : x.isFinite with
      | true => exact .number (numberText_number hx)
      | false =>
          rw [toList_text_of_not_finite hx]
          exact .word List.mem_cons_self
  | string s => exact .string (stringText_quote s)
  | @array items text _ htext ih =>
      refine .array ?_ htext
      intro part hpart
      obtain ⟨i, hi, rfl⟩ := List.mem_map.1 hpart
      exact ih i hi
  | @object members text hcolons _ htext ih =>
      rw [← map_pair_text] at htext
      refine .object ?_ ?_ htext
      · intro p hp
        obtain ⟨m, hm, rfl⟩ := List.mem_map.1 hp
        dsimp only [WrittenMember.pair]
        exact ⟨stringText_quote m.name, hcolons m hm⟩
      · intro p hp
        obtain ⟨m, hm, rfl⟩ := List.mem_map.1 hp
        dsimp only [WrittenMember.pair]
        exact ih m hm

/-! ## Without white space -/

/-- Where a character of a document stands. -/
inductive Place where
  | outside
  | inside
  /-- Behind a backslash in a string. -/
  | escaped
deriving DecidableEq

/-- Where the next character stands. -/
def Place.next : Place → Char → Place
  | outside, '"' => inside
  | outside, _ => outside
  | inside, '"' => outside
  | inside, '\\' => escaped
  | inside, _ => inside
  | escaped, _ => inside

/-- A text without the white space that is outside strings. -/
def squeeze : Place → Input → Input
  | _, [] => []
  | place, c :: rest =>
      if place = .outside ∧ isBlank c then squeeze place rest
      else c :: squeeze (place.next c) rest

/-- Squeezing a text of this kind, whatever stands behind it. -/
def SqueezesTo (text out : Input) : Prop :=
  ∀ rest, squeeze .outside (text ++ rest) = out ++ squeeze .outside rest

theorem SqueezesTo.append {text text' out out' : Input} (h : SqueezesTo text out)
    (h' : SqueezesTo text' out') : SqueezesTo (text ++ text') (out ++ out') := by
  intro rest
  rw [List.append_assoc, h, h', List.append_assoc]

theorem Blank.squeezesTo {text : Input} (h : Blank text) : SqueezesTo text [] := by
  intro rest
  induction text with
  | nil => rfl
  | cons c text ih =>
      rw [List.cons_append, squeeze, if_pos ⟨rfl, h c List.mem_cons_self⟩]
      exact ih fun d hd => h d (List.mem_cons_of_mem _ hd)

theorem squeezesTo_cons {c : Char} (hblank : isBlank c = false) (hquote : c ≠ '"')
    {text out : Input} (h : SqueezesTo text out) : SqueezesTo (c :: text) (c :: out) := by
  intro rest
  have hnext : Place.next .outside c = .outside := by
    rw [Place.next]
    exact hquote
  rw [List.cons_append, squeeze, if_neg (by simp [hblank]), hnext, h, List.cons_append]

/-! ### Words and numbers -/

/-- A character of a word or a number. -/
def isPlain (c : Char) : Bool := c.isAlphanum || c = '.' || c = '-' || c = '+'

def Plain (text : Input) : Prop := ∀ c ∈ text, isPlain c = true

theorem plain_of_all {text : Input} (h : text.all isPlain = true) : Plain text :=
  List.all_eq_true.1 h

theorem not_isPlain_of_isBlank {c : Char} (h : isBlank c = true) : isPlain c = false := by
  simp only [isBlank, Bool.or_eq_true, decide_eq_true_eq] at h
  rcases h with ((rfl | rfl) | rfl) | rfl <;> rfl

theorem Plain.append {text more : Input} (h : Plain text) (h' : Plain more) :
    Plain (text ++ more) := List.forall_mem_append.2 ⟨h, h'⟩

theorem Digits.plain {text : Input} (h : Digits text) : Plain text := by
  intro c hc
  simp [isPlain, Char.isAlphanum, h c hc]

theorem NumberText.plain {text : Input} (h : NumberText text) : Plain text := by
  obtain ⟨hsign, hwhole, hfraction, hexponent⟩ := h
  have hsigns : ∀ sign ∈ [[], ['+'], ['-']], Plain sign := by
    simpa using ⟨plain_of_all rfl, plain_of_all rfl, plain_of_all rfl⟩
  refine Plain.append ?_ (hwhole.digits_all.plain.append (Plain.append ?_ ?_))
  · have hsubset : [[], ['-']] ⊆ [[], ['+'], ['-']] := by simp
    exact hsigns _ (hsubset hsign)
  · cases hfraction with
    | absent => exact List.forall_mem_nil _
    | digits hd hds =>
        exact List.forall_mem_cons.2 ⟨rfl, Digits.plain (List.forall_mem_cons.2 ⟨hd, hds⟩)⟩
  · cases hexponent with
    | absent => exact List.forall_mem_nil _
    | digits he hsign hd hds =>
        have hpower := (hsigns _ hsign).append (Digits.plain (List.forall_mem_cons.2 ⟨hd, hds⟩))
        refine List.forall_mem_cons.2 ⟨?_, hpower⟩
        rcases he with rfl | rfl <;> rfl

theorem plain_number (x : Float) : Plain (numberLayout.text x).toList := by
  cases hx : x.isFinite with
  | true => exact (numberText_number hx).plain
  | false =>
      rw [toList_text_of_not_finite hx]
      exact plain_of_all rfl

theorem Plain.squeezesTo {text : Input} (h : Plain text) : SqueezesTo text text := by
  induction text with
  | nil => exact fun rest => rfl
  | cons c text ih =>
      have hc := h c List.mem_cons_self
      have hblank : isBlank c = false := by
        rw [Bool.eq_false_iff]
        intro hblank
        cases (not_isPlain_of_isBlank hblank).symm.trans hc
      have hquote : c ≠ '"' := by
        rintro rfl
        cases hc
      exact squeezesTo_cons hblank hquote (ih fun d hd => h d (List.mem_cons_of_mem _ hd))

/-! ### Strings -/

theorem squeeze_inside {c : Char} (hquote : c ≠ '"') (hback : c ≠ '\\') (rest : Input) :
    squeeze .inside (c :: rest) = c :: squeeze .inside rest := by
  rw [squeeze, if_neg (fun h => nomatch h.1), Place.next.eq_5]
  · exact hquote
  · exact hback

theorem squeeze_escaped (c : Char) (rest : Input) :
    squeeze .inside ('\\' :: c :: rest) = '\\' :: c :: squeeze .inside rest := by
  simp [squeeze, Place.next]

theorem squeeze_hexDigits {n : Nat} {digits : Input} (h : HexDigits n digits) (rest : Input) :
    squeeze .inside (digits ++ rest) = digits ++ squeeze .inside rest := by
  have hdigit {c : Char} {v : Nat} (hc : Text.hexValue? c = some v) (rest : Input) :
      squeeze .inside (c :: rest) = c :: squeeze .inside rest := by
    refine squeeze_inside ?_ ?_ rest <;>
      · rintro rfl
        cases hc
  obtain ⟨ha, hb, hc, hd⟩ := h
  simp only [List.cons_append, List.nil_append, hdigit ha, hdigit hb, hdigit hc, hdigit hd]

theorem squeeze_fragment {text : Input} (h : Fragment text) (rest : Input) :
    squeeze .inside (text ++ rest) = text ++ squeeze .inside rest := by
  cases h with
  | plain _ hquote hback => exact squeeze_inside hquote hback rest
  | letter => exact squeeze_escaped _ rest
  | unit hdigits =>
      rw [List.cons_append, List.cons_append, squeeze_escaped, squeeze_hexDigits hdigits]
      rfl

/-- White space in a string stays. -/
theorem squeeze_fragments {fragments : List Input} (h : ∀ f ∈ fragments, Fragment f)
    (rest : Input) :
    squeeze .inside (fragments.flatten ++ rest) = fragments.flatten ++ squeeze .inside rest := by
  induction fragments with
  | nil => rfl
  | cons f fragments ih =>
      rw [List.flatten_cons, List.append_assoc, squeeze_fragment (h f List.mem_cons_self),
        ih fun g hg => h g (List.mem_cons_of_mem _ hg), List.append_assoc]

theorem StringText.squeezesTo {text : Input} (h : StringText text) : SqueezesTo text text := by
  obtain ⟨fragments, hfragments, rfl⟩ := h.exists_fragments
  intro rest
  rw [List.cons_append, List.append_assoc, squeeze, if_neg (by decide), Place.next,
    squeeze_fragments hfragments]
  simp [squeeze, Place.next]

/-! ### Lists -/

theorem Separator.squeezesTo {first : Bool} {separator : Input} (h : Separator first separator) :
    SqueezesTo separator (if first then [] else [',']) := by
  cases h with
  | first hblank => exact hblank.squeezesTo
  | comma hbefore hafter =>
      exact hbefore.squeezesTo.append (squeezesTo_cons rfl (by decide) hafter.squeezesTo)

section

variable {α : Type} {written out : α → Input} {items : List α}

theorem Chain.squeezesTo (hitems : ∀ i ∈ items, SqueezesTo (written i) (out i)) {first : Bool}
    {text : Input} (h : Chain first (items.map written) text) :
    SqueezesTo text
      (if first then joined (items.map out) else (items.map out).flatMap (',' :: ·)) := by
  induction items generalizing first text with
  | nil =>
      cases h
      cases first <;> exact fun rest => rfl
  | cons i items ih =>
      cases h with
      | cons hsep hchain =>
          have hi := hitems i List.mem_cons_self
          have hmore := ih (fun j hj => hitems j (List.mem_cons_of_mem _ hj)) hchain
          have hall := hsep.squeezesTo.append (hi.append hmore)
          cases first <;> exact hall

theorem Bracketed.squeezesTo (hitems : ∀ i ∈ items, SqueezesTo (written i) (out i))
    {opening closing : Char} (hopening : opening ∈ ['[', '{'])
    (hclosing : closing ∈ [']', '}']) {text : Input}
    (h : Bracketed opening (items.map written) closing text) :
    SqueezesTo text (opening :: (joined (items.map out) ++ [closing])) := by
  have hbracket : ∀ c ∈ ['[', '{', ']', '}'], isBlank c = false ∧ c ≠ '"' := by
    simp [isBlank]
  obtain ⟨hopen, hopen'⟩ := hbracket opening (List.mem_append_left [']', '}'] hopening)
  obtain ⟨hclose, hclose'⟩ := hbracket closing (List.mem_append_right ['[', '{'] hclosing)
  obtain ⟨hchain, hblank⟩ := h
  have hnil : SqueezesTo [] [] := fun rest => rfl
  have hend := hblank.squeezesTo.append (squeezesTo_cons hclose hclose' hnil)
  exact squeezesTo_cons hopen hopen' ((hchain.squeezesTo hitems).append hend)

end

theorem Colon.squeezesTo {colon : Input} (h : Colon colon) : SqueezesTo colon [':'] := by
  obtain ⟨before, after, hbefore, hafter, rfl⟩ := h.exists_blanks
  exact hbefore.squeezesTo.append (squeezesTo_cons rfl (by decide) hafter.squeezesTo)

/-- Any layout of a value is its compact form but for white space. -/
theorem Written.squeezesTo {value : Json} {text : Input} (h : Written value text) :
    SqueezesTo text (compactText value) := by
  induction h with
  | null => exact (plain_of_all rfl).squeezesTo
  | bool b => cases b <;> exact (plain_of_all rfl).squeezesTo
  | natural n =>
      rw [compactText_natural]
      exact (numberText_natural n).plain.squeezesTo
  | number x =>
      rw [compactText_number]
      exact (plain_number x).squeezesTo
  | string s =>
      rw [compactText_string]
      exact (stringText_quote s).squeezesTo
  | @array items text _ htext ih =>
      rw [compactText_array, List.map_map]
      exact htext.squeezesTo ih (by decide) (by decide)
  | @object members text hcolons _ htext ih =>
      rw [compactText_object, List.map_map]
      have hmembers : ∀ m ∈ members, SqueezesTo m.written (memberText m.member) := by
        intro m hm
        have hvalue := (hcolons m hm).squeezesTo.append (ih m hm)
        exact (stringText_quote m.name).squeezesTo.append hvalue
      exact htext.squeezesTo hmembers (by decide) (by decide)

/-- Without its white space, a document is in the compact form. -/
theorem squeeze_render {form : Piece → String} (hform : IsLayout form) (value : Json) :
    squeeze .outside (value.render form).toList = compactText value := by
  have h := (written_render hform value).squeezesTo []
  rwa [List.append_nil, squeeze, List.append_nil] at h

end Lindenmayer.Json
