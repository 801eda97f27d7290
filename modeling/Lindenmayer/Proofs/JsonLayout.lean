import Lindenmayer.Json.Codec
import Lindenmayer.Proofs.JsonRecords
import Lindenmayer.Proofs.WrittenNumbers

/-!
# The layouts of a value

A value of some shape has many texts. `LaidOut` has a case for each freedom there is: a
record may be an array of its fields or an object, the members of an object may come in
any order and have others among them, an optional field that holds nothing may be left
out, a string may spell its characters in many ways. All of these are read as the same
value, by induction on the layout.

Numbers are the exception. Their text is fixed, and reading it may give a neighbour of
the number it was written from. What a layout is read as is therefore the value with
each number in it reread.

`Flawed` describes texts up to their first fault in shape. What stands before the fault
is laid out properly, so it is read, and the fault is met whatever follows it.
-/

namespace Lindenmayer.Json

/-! ## Numbers as they are read back -/

/-- The double that the text of a number is read as. -/
def reread (x : Float) : Float :=
  match readNumeric (numberLayout.text x).toList with
  | .ok (.float y, _) => y
  | _ => x

mutual

/-- The value with a function applied to each of its numbers. -/
def mapNumbers (f : Float → Float) : Json → Json
  | null => null
  | bool b => bool b
  | natural n => natural n
  | number x => number (f x)
  | string s => string s
  | array es => array (mapElements f es)
  | object ms => object (mapMembers f ms)

def mapElements (f : Float → Float) : List Json → List Json
  | [] => []
  | e :: es => mapNumbers f e :: mapElements f es

def mapMembers (f : Float → Float) : List (String × Json) → List (String × Json)
  | [] => []
  | (key, v) :: ms => (key, mapNumbers f v) :: mapMembers f ms

end

@[simp] theorem mapElements_eq_map (f : Float → Float) (es : List Json) :
    mapElements f es = es.map (mapNumbers f) := by
  induction es with
  | nil => rfl
  | cons e es ih => rw [mapElements, ih, List.map_cons]

@[simp] theorem mapMembers_eq_map (f : Float → Float) (ms : List (String × Json)) :
    mapMembers f ms = ms.map fun m => (m.1, mapNumbers f m.2) := by
  induction ms with
  | nil => rfl
  | cons m ms ih => rw [mapMembers, ih, List.map_cons]

/-- The entry with its value as it is read back. -/
def Entry.reread (e : Entry) : Entry := { e with value := e.value.mapNumbers Json.reread }

def Member.reread : Member → Member
  | known key colon entry => known key colon entry.reread
  | unknown name key colon value => unknown name key colon value

/-! ## Layouts -/

/-- The texts that a value of some shape may be laid out as. A number stands as it is
written in the compact form. -/
inductive LaidOut : Shape → Json → Input → Prop
  | number {x : Float} : x.isFinite = true →
      LaidOut .float (.number x) (numberLayout.text x).toList
  | natural {n limit : Nat} : n ≤ limit → limit ≤ wordLimit →
      LaidOut (.natural limit) (.natural n) n.repr.toList
  | bool (b : Bool) : LaidOut .bool (.bool b) (if b then "true" else "false").toList
  | char {c : Char} {text : Input} : Quoted [c] text →
      LaidOut .char (.string (.singleton c)) text
  | string {s : String} {text : Input} : Quoted s.toList text → LaidOut .string (.string s) text
  | null {shape : Shape} : LaidOut (.optional shape) .null "null".toList
  | present {shape : Shape} {value : Json} {text : Input} : LaidOut shape value text →
      LaidOut (.optional shape) value text
  | list {shape : Shape} {items : List (Json × Input)} {text : Input} :
      (∀ i ∈ items, LaidOut shape i.1 i.2) → Bracketed '[' (items.map Prod.snd) ']' text →
      LaidOut (.list shape) (.array (items.map Prod.fst)) text
  /-- A record as an array has all its fields in their own order. -/
  | array {entries : List Entry} {text : Input} :
      (∀ e ∈ entries, LaidOut e.shape e.value e.text) →
      Bracketed '[' (entries.map Entry.text) ']' text →
      LaidOut (.record (entries.map Entry.field)) (.object (entries.map Entry.member)) text
  /-- A record as an object has its fields in any order and other members among them,
  and may be without an optional field that holds nothing. -/
  | object {entries : List Entry} {members : List Member} {text : Input} :
      (entries.map Entry.name).Nodup → (∀ m ∈ members, m.Fits (entries.map Entry.field)) →
      (∀ e ∈ given members, LaidOut e.shape e.value e.text) → (given members).Subperm entries →
      (∀ e ∈ entries, e ∉ given members → e.shape.mayBeMissing = true ∧ e.value = .null) →
      Bracketed '{' (members.map Member.text) '}' text →
      LaidOut (.record (entries.map Entry.field)) (.object (entries.map Entry.member)) text

/-! ## Leaves -/

theorem reads_of_blank {read : Reader Json}
    (hread : ∀ {blank : Input}, Blank blank → ∀ input, read (blank ++ input) = read input)
    {value : Json} {text : Input} (hstarts : Starts text)
    (h : ∀ {rest : Input}, Stops rest → read (text ++ rest) = .ok (value, rest)) :
    Reads read value text := by
  refine ⟨hstarts, ?_⟩
  intro blank rest hblank hrest
  rw [hread hblank, h hrest]

theorem readNumeric_blank {blank : Input} (h : Blank blank) (input : Input) :
    readNumeric (blank ++ input) = readNumeric input := by
  rw [readNumeric, readNumeric, skipBlank_append h]

theorem readText_blank {blank : Input} (h : Blank blank) (input : Input) :
    readText (blank ++ input) = readText input := by
  rw [readText, readText, skipBlank_append h]

theorem starts_numeral {c : Char} (h : c.isDigit = true ∨ c = '-') (cs : Input) :
    Starts (c :: cs) := by
  rcases h with h | rfl
  · exact starts_digit h cs
  · exact ⟨rfl, by decide, by decide⟩

theorem reads_number {x : Float} (hx : x.isFinite = true) :
    Reads readFloat (.number (reread x)) (numberLayout.text x).toList := by
  obtain ⟨c, cs, y, hcons, hc, hy⟩ := numberText_spec hx
  rw [← hcons] at hy
  have hstarts : Starts (numberLayout.text x).toList := hcons ▸ starts_numeral hc cs
  refine reads_of_blank (fun h input => by rw [readFloat, readFloat, readNumeric_blank h])
    hstarts ?_
  intro rest hrest
  rw [readFloat, readNumeric_stopsBefore hstarts hy hrest, reread, hy]
  rfl

theorem reads_natural {n limit : Nat} (hn : n ≤ limit) (hlimit : limit ≤ wordLimit) :
    Reads (readNatural limit) (.natural n) n.repr.toList := by
  have hstarts : Starts n.repr.toList := by
    obtain ⟨d, ds, hcons⟩ := List.exists_cons_of_ne_nil (Nat.toDigits_ne_nil (n := n) (b := 10))
    have hdigits := digits_toDigits n
    rw [Nat.toList_repr, hcons]
    rw [hcons] at hdigits
    exact starts_digit hdigits.head ds
  refine reads_of_blank (fun h input => by rw [readNatural, readNatural, readNumeric_blank h])
    hstarts ?_
  intro rest hrest
  rw [readNatural,
    readNumeric_stopsBefore hstarts (readNumeric_repr (Nat.le_trans hn hlimit)) hrest]
  simp only [bind, Except.bind, if_pos hn]
  rfl

theorem reads_bool (b : Bool) :
    Reads readBool (.bool b) (if b then "true" else "false").toList := by
  refine reads_of_blank (fun h input => by rw [readBool, readBool, skipBlank_append h])
    (by cases b <;> exact ⟨rfl, by decide, by decide⟩) ?_
  intro rest _
  cases b with
  | true =>
      show (do return (Json.bool true, ← readWord ['r', 'u', 'e'] (['r', 'u', 'e'] ++ rest)) :
        Except Fault (Json × Input)) = _
      rw [readWord_append]
      rfl
  | false =>
      show (do return (Json.bool false,
          ← readWord ['a', 'l', 's', 'e'] (['a', 'l', 's', 'e'] ++ rest)) :
        Except Fault (Json × Input)) = _
      rw [readWord_append]
      rfl

theorem readText_quoted {cs : List Char} {text : Input} (h : Quoted cs text) (rest : Input) :
    readText (text ++ rest) = .ok (.string (.ofList cs), rest) := by
  obtain ⟨body, hbody, rfl⟩ := h.exists_body
  simp only [List.cons_append, List.append_assoc, List.nil_append]
  have hopen : isBlank '"' = false := rfl
  simp only [readText, skipBlank_cons hopen, hbody.readString_append]
  rfl

theorem reads_string {s : String} {text : Input} (h : Quoted s.toList text) :
    Reads readText (.string s) text := by
  refine reads_of_blank readText_blank h.starts ?_
  intro rest _
  rw [readText_quoted h, String.ofList_toList]

theorem reads_char {c : Char} {text : Input} (h : Quoted [c] text) :
    Reads readOneChar (.string (.singleton c)) text := by
  refine reads_of_blank (fun hb input => by rw [readOneChar, readOneChar, readText_blank hb])
    h.starts ?_
  intro rest _
  have hlength : (String.ofList [c]).length = 1 := by rw [String.length_ofList]; rfl
  rw [readOneChar, readText_quoted h]
  simp only [bind, Except.bind, hlength, if_true]
  rw [String.singleton_eq_ofList]
  rfl

theorem reads_null (read : Reader Json) : Reads (readOptional read) .null "null".toList := by
  refine reads_of_blank (fun h input => by rw [readOptional, readOptional, skipBlank_append h])
    ⟨rfl, by decide, by decide⟩ ?_
  intro rest _
  show (do return (Json.null, ← readWord ['u', 'l', 'l'] (['u', 'l', 'l'] ++ rest)) :
    Except Fault (Json × Input)) = _
  rw [readWord_append]
  rfl

/-- A text that is not `null` is read for an optional value as it is for the value. -/
theorem Reads.optional {read : Reader Json} {value : Json} {text : Input}
    (h : Reads read value text) (hhead : text.head? ≠ some 'n') :
    Reads (readOptional read) value text := by
  refine ⟨h.starts, ?_⟩
  intro blank rest hblank hrest
  have hread := h.read_append Blank.nil hrest
  rw [List.nil_append] at hread
  rw [readOptional, skipBlank_append hblank, (h.starts.append rest).skipBlank]
  split
  · next heq =>
      cases text with
      | nil => cases h.starts
      | cons c text =>
          injection heq with hc
          exact absurd (congrArg some hc) hhead
  · exact hread

/-- Only nothing is laid out with the first letter of `null`. -/
theorem LaidOut.eq_null {shape : Shape} {value : Json} {text : Input}
    (h : LaidOut shape value text) (hhead : text.head? = some 'n') :
    value = .null ∧ text = "null".toList := by
  induction h with
  | number hx =>
      obtain ⟨c, cs, _, hcons, hc, _⟩ := numberText_spec hx
      rw [hcons] at hhead
      cases hhead
      rcases hc with hc | hc <;> cases hc
  | @natural n limit _ _ =>
      obtain ⟨d, ds, hcons⟩ := List.exists_cons_of_ne_nil (Nat.toDigits_ne_nil (n := n) (b := 10))
      have hdigits := digits_toDigits n
      rw [Nat.toList_repr] at hhead
      rw [hcons] at hdigits hhead
      cases hhead
      cases hdigits.head
  | bool b => cases b <;> cases hhead
  | char h | string h => obtain ⟨body, _, rfl⟩ := h.exists_body; cases hhead
  | null => exact ⟨rfl, rfl⟩
  | present _ ih => exact ih hhead
  | list _ h | array _ h | object _ _ _ _ _ h => obtain ⟨_, _⟩ := h; cases hhead

/-! ## Every layout is read -/

theorem entry_map_reread_field (entries : List Entry) :
    (entries.map Entry.reread).map Entry.field = entries.map Entry.field :=
  List.map_map.trans (List.map_congr_left fun _ _ => rfl)

theorem entry_map_reread_text (entries : List Entry) :
    (entries.map Entry.reread).map Entry.text = entries.map Entry.text :=
  List.map_map.trans (List.map_congr_left fun _ _ => rfl)

theorem entry_map_reread_name (entries : List Entry) :
    (entries.map Entry.reread).map Entry.name = entries.map Entry.name :=
  List.map_map.trans (List.map_congr_left fun _ _ => rfl)

theorem mapNumbers_object (entries : List Entry) :
    mapNumbers reread (.object (entries.map Entry.member)) =
      .object ((entries.map Entry.reread).map Entry.member) := by
  rw [mapNumbers, mapMembers_eq_map, List.map_map, List.map_map]
  rfl

/-- An element with its value as it is read back. -/
def rereadItem (i : Json × Input) : Json × Input := (i.1.mapNumbers reread, i.2)

theorem mapNumbers_array (items : List (Json × Input)) :
    mapNumbers reread (.array (items.map Prod.fst)) =
      .array ((items.map rereadItem).map Prod.fst) := by
  rw [mapNumbers, mapElements_eq_map, List.map_map, List.map_map]
  rfl

theorem item_map_reread_text (items : List (Json × Input)) :
    (items.map rereadItem).map Prod.snd = items.map Prod.snd :=
  List.map_map.trans (List.map_congr_left fun _ _ => rfl)

theorem member_map_reread_text (members : List Member) :
    (members.map Member.reread).map Member.text = members.map Member.text :=
  List.map_map.trans (List.map_congr_left fun m _ => by cases m <;> rfl)

theorem given_map_reread (members : List Member) :
    given (members.map Member.reread) = (given members).map Entry.reread := by
  induction members with
  | nil => rfl
  | cons m members ih =>
      rw [List.map_cons, given_cons, given_cons, ih, List.map_append]
      cases m <;> rfl

theorem Member.Fits.reread {fields : List (String × Shape)} {m : Member} (h : m.Fits fields) :
    m.reread.Fits fields := by
  cases m <;> exact h

/-- The beginning of an object for a record, up to some of its members: each is laid out
as it should be, and no field comes twice. -/
structure Opening (fields : List (String × Shape)) (members : List Member) (text : Input) :
    Prop where
  names_nodup : (fields.map Prod.fst).Nodup
  fits : ∀ m ∈ members, m.Fits fields
  laid_out : ∀ e ∈ given members, LaidOut e.shape e.value e.text
  given_nodup : ((given members).map Entry.name).Nodup
  chain : Chain true (members.map Member.text) text

theorem Opening.begins {fields : List (String × Shape)} {members : List Member} {text : Input}
    (h : Opening fields members text) (hreads : ∀ e ∈ given members, e.reread.Readable) :
    Begins fields (members.map Member.reread) text where
  names_nodup := h.names_nodup
  passable := by
    intro m' hm'
    obtain ⟨m, hm, rfl⟩ := List.mem_map.1 hm'
    refine ⟨(h.fits m hm).reread, ?_⟩
    intro e he
    cases m with
    | known key colon entry =>
        cases he
        exact hreads entry (List.mem_filterMap.2 ⟨_, hm, rfl⟩)
    | unknown => cases he
  given_nodup := by
    rw [given_map_reread, entry_map_reread_name]
    exact h.given_nodup
  chain := by
    rw [member_map_reread_text]
    exact h.chain

/-- An object is read as a record if the fields among its members are readable and the
others are optional. -/
theorem reads_members {entries : List Entry} {members : List Member} {text : Input}
    (hnodup : (entries.map Entry.name).Nodup)
    (hfits : ∀ m ∈ members, m.Fits (entries.map Entry.field))
    (hlaid : ∀ e ∈ given members, LaidOut e.shape e.value e.text)
    (hgiven : (given members).Subperm entries)
    (hmissing : ∀ e ∈ entries, e ∉ given members → e.shape.mayBeMissing = true ∧ e.value = .null)
    (h : Bracketed '{' (members.map Member.text) '}' text)
    (hreads : ∀ e ∈ given members, e.reread.Readable) :
    Reads (Shape.record (entries.map Entry.field)).read
      (mapNumbers reread (.object (entries.map Entry.member))) text := by
  have hnames : ((entries.map Entry.field).map Prod.fst).Nodup := by
    rwa [List.map_map]
  have hsub : ((given members).map Entry.name).Nodup := by
    obtain ⟨es, hperm, hsub⟩ := hgiven
    exact (hperm.map Entry.name).nodup_iff.1 (hnodup.sublist (hsub.map Entry.name))
  obtain ⟨hchain, hblank⟩ := h
  have hbegins := Opening.begins ⟨hnames, hfits, hlaid, hsub, hchain⟩ hreads
  rw [mapNumbers_object, ← entry_map_reread_field]
  rw [← entry_map_reread_field] at hbegins
  refine reads_object hbegins hblank ?_
  intro e' he'
  obtain ⟨e, he, rfl⟩ := List.mem_map.1 he'
  rw [given_map_reread, entry_map_reread_name]
  by_cases hmem : e ∈ given members
  · exact Or.inl (List.mem_map_of_mem hmem)
  · -- No other entry has the name of this one, so its name is not given either.
    obtain ⟨hoptional, hnull⟩ := hmissing e he hmem
    refine Or.inr ⟨?_, hoptional, ?_⟩
    · intro hname
      obtain ⟨g, hg, heq⟩ := List.mem_map.1 hname
      have hge : g = e := List.inj_on_of_nodup_map hnodup (hgiven.subset hg) he heq
      exact hmem (hge ▸ hg)
    · show mapNumbers Json.reread e.value = .null
      rw [hnull, mapNumbers]

theorem LaidOut.reads {shape : Shape} {value : Json} {text : Input}
    (h : LaidOut shape value text) : Reads shape.read (value.mapNumbers reread) text := by
  induction h with
  | number hx => exact reads_number hx
  | natural hn hlimit => exact reads_natural hn hlimit
  | bool b => exact reads_bool b
  | char h => exact reads_char h
  | string h => exact reads_string h
  | null => exact reads_null _
  | @present shape value text h ih =>
      by_cases hhead : text.head? = some 'n'
      · obtain ⟨rfl, rfl⟩ := h.eq_null hhead
        exact reads_null _
      · rw [Shape.read]
        exact ih.optional hhead
  | @list shape items text hitems h ih =>
      rw [mapNumbers_array, Shape.read]
      refine reads_list ?_ (by rwa [item_map_reread_text])
      intro i' hi'
      obtain ⟨i, hi, rfl⟩ := List.mem_map.1 hi'
      exact ih i hi
  | @array entries text hentries h ih =>
      rw [mapNumbers_object, ← entry_map_reread_field]
      refine reads_array ?_ (by rwa [entry_map_reread_text])
      intro e' he'
      obtain ⟨e, he, rfl⟩ := List.mem_map.1 he'
      exact ih e he
  | object hnodup hfits hlaid hgiven hmissing h ih =>
      exact reads_members hnodup hfits hlaid hgiven hmissing h ih

/-! ## Texts that are refused -/

/-- The beginning of a text up to the first fault in its shape: a key that comes for the
second time, the end of an object without one of its fields, or no number where there
has to be one. All before it is laid out as it should be. -/
inductive Flawed : Shape → Input → Prop
  | null : Flawed .float "null".toList
  | element {shape : Shape} {items : List (Json × Input)} {text separator front : Input} :
      (∀ i ∈ items, LaidOut shape i.1 i.2) → Chain true (items.map Prod.snd) text →
      Separator items.isEmpty separator → Flawed shape front →
      Flawed (.list shape) ('[' :: (text ++ (separator ++ front)))
  | field {entries : List Entry} {name : String} {shape : Shape}
      {more : List (String × Shape)} {text separator front : Input} :
      (∀ e ∈ entries, LaidOut e.shape e.value e.text) → Chain true (entries.map Entry.text) text →
      Separator entries.isEmpty separator → Flawed shape front →
      Flawed (.record (entries.map Entry.field ++ (name, shape) :: more))
        ('[' :: (text ++ (separator ++ front)))
  | member {fields : List (String × Shape)} {members : List Member} {name : String}
      {shape : Shape} {text separator key colon front : Input} : Opening fields members text →
      Separator members.isEmpty separator → (name, shape) ∈ fields →
      name ∉ (given members).map Entry.name → Quoted name.toList key → Colon colon →
      Flawed shape front →
      Flawed (.record fields) ('{' :: (text ++ (separator ++ (key ++ (colon ++ front)))))
  | repeated {fields : List (String × Shape)} {members : List Member} {e : Entry}
      {text separator key : Input} : Opening fields members text →
      Separator members.isEmpty separator → e ∈ given members → Quoted e.name.toList key →
      Flawed (.record fields) ('{' :: (text ++ (separator ++ key)))
  | missing {fields : List (String × Shape)} {members : List Member} {name : String}
      {shape : Shape} {text blank : Input} : Opening fields members text → Blank blank →
      (name, shape) ∈ fields → shape.mayBeMissing = false →
      name ∉ (given members).map Entry.name →
      Flawed (.record fields) ('{' :: (text ++ (blank ++ ['}'])))

theorem Opening.begins_of_laidOut {fields : List (String × Shape)} {members : List Member}
    {text : Input} (h : Opening fields members text) :
    Begins fields (members.map Member.reread) text :=
  h.begins fun e he => (h.laid_out e he).reads

theorem refuses_null : Refuses readFloat "null".toList := by
  refine ⟨⟨rfl, by decide, by decide⟩, ?_⟩
  intro blank hblank rest
  have hword : readWord ['u', 'l', 'l'] ('u' :: 'l' :: 'l' :: rest) = .ok rest :=
    readWord_append ['u', 'l', 'l'] rest
  have hnumeric : readNumeric ('n' :: 'u' :: 'l' :: 'l' :: rest) = .error .mismatched := by
    show Except.error (refuse ('n' :: 'u' :: 'l' :: 'l' :: rest)) = _
    simp only [refuse, hword]
    rfl
  show readFloat (blank ++ 'n' :: 'u' :: 'l' :: 'l' :: rest) = _
  rw [readFloat, readNumeric_blank hblank, hnumeric]
  rfl

/-- Whatever follows the first fault in the shape of a text, that fault is reported. -/
theorem Flawed.refuses {shape : Shape} {front : Input} (h : Flawed shape front) :
    Refuses shape.read front := by
  have hempty : ∀ members : List Member, (members.map Member.reread).isEmpty = members.isEmpty :=
    fun members => by cases members <;> rfl
  have hgiven : ∀ members : List Member, (given (members.map Member.reread)).map Entry.name =
      (given members).map Entry.name :=
    fun members => by rw [given_map_reread, entry_map_reread_name]
  induction h with
  | null => exact refuses_null
  | @element shape items text separator front hitems hchain hsep _ ih =>
      have hlaid : ∀ i ∈ items.map rereadItem, Reads shape.read i.1 i.2 := by
        intro i' hi'
        obtain ⟨i, hi, rfl⟩ := List.mem_map.1 hi'
        exact (hitems i hi).reads
      rw [Shape.read]
      refine refuses_element hlaid (by rwa [item_map_reread_text]) ?_ ih
      cases items <;> exact hsep
  | @field entries name shape more text separator front hentries hchain hsep _ ih =>
      have hlaid : ∀ e ∈ entries.map Entry.reread, e.Readable := by
        intro e' he'
        obtain ⟨e, he, rfl⟩ := List.mem_map.1 he'
        exact (hentries e he).reads
      rw [← entry_map_reread_field]
      refine refuses_field hlaid (by rwa [entry_map_reread_text]) ?_ ih name more
      cases entries <;> exact hsep
  | member hopening hsep hmem hfresh hkey hcolon _ ih =>
      exact refuses_member hopening.begins_of_laidOut (by rwa [hempty]) hmem (by rwa [hgiven]) hkey
        hcolon ih
  | @repeated fields members e text separator key hopening hsep he hkey =>
      have he' : e.reread ∈ given (members.map Member.reread) := by
        rw [given_map_reread]
        exact List.mem_map_of_mem he
      exact refuses_repeated hopening.begins_of_laidOut (by rwa [hempty]) he' hkey
  | missing hopening hblank hmem hrequired hmissing =>
      exact refuses_missing hopening.begins_of_laidOut hblank hmem hrequired (by rwa [hgiven])

end Lindenmayer.Json
