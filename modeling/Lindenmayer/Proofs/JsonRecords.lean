import Mathlib.Data.List.Nodup
import Mathlib.Data.List.Perm.Subperm
import Lindenmayer.Proofs.JsonLists

/-!
# Records by their fields and by their members

A record that is written as an array is read field by field, in the order of the
fields. A record that is written as an object is read member by member: the loop keeps
what it finds, newest first, and passes over a member that no field has the name of.
Only at the closing brace are the fields put in order.

As no field may come twice, what is found under a name does not depend on when it came.
So the order of the members is lost in the lookups by which they are arranged, and a
lookup that finds nothing is either an optional field or a fault.
-/

namespace Lindenmayer.Json

variable {rest : Input}

/-! ## Fields

A record that is written as an array has all its fields, in their own order. -/

/-- A field of a record, with a value and a text for it. -/
structure Entry where
  name : String
  shape : Shape
  value : Json
  text : Input

namespace Entry

def field (e : Entry) : String × Shape := (e.name, e.shape)

def member (e : Entry) : String × Json := (e.name, e.value)

/-- The text is read for the value. -/
def Readable (e : Entry) : Prop := Reads e.shape.read e.value e.text

end Entry

theorem readFields_separator {first : Bool} {separator : Input} (hsep : Separator first separator)
    {part : Input} (hpart : Starts part) (name : String) (shape : Shape)
    (more : List (String × Shape)) :
    readFields ((name, shape) :: more) first (separator ++ part) = do
      let (value, rest) ← shape.read part
      let (members, rest) ← readFields more false rest
      return ((name, value) :: members, rest) := by
  rw [readFields]
  simp only [nextElement_separator hsep hpart, bind, Except.bind, if_true]

theorem readFields_chain {entries : List Entry} (hentries : ∀ e ∈ entries, e.Readable)
    {first : Bool} {text : Input} (h : Chain first (entries.map Entry.text) text)
    (more : List (String × Shape)) (rest : Input)
    (hrest : (first && entries.isEmpty) = false → Stops rest) :
    readFields (entries.map Entry.field ++ more) first (text ++ rest) = do
      let (ms, left) ← readFields more (first && entries.isEmpty) rest
      return (entries.map Entry.member ++ ms, left) := by
  induction entries generalizing first text with
  | nil =>
      cases h
      simp only [List.map_nil, List.nil_append, List.isEmpty_nil, Bool.and_true]
      cases readFields more first rest <;> rfl
  | cons e entries ih =>
      cases h with
      | @cons _ separator part _ text hsep htext =>
          have he := hentries e List.mem_cons_self
          have hstops : Stops rest := hrest (by simp)
          have hread := he.read_append Blank.nil (htext.stops_append hstops)
          rw [List.nil_append] at hread
          rw [List.map_cons, List.cons_append, List.append_assoc, List.append_assoc, Entry.field,
            readFields_separator hsep (he.starts.append _), hread]
          simp only [bind, Except.bind]
          rw [ih (fun e he => hentries e (List.mem_cons_of_mem _ he)) htext fun _ => hstops]
          simp only [List.isEmpty_cons, Bool.and_false, Bool.false_and, List.map_cons,
            List.cons_append]
          cases readFields more false rest <;> rfl

theorem reads_array {entries : List Entry} (hentries : ∀ e ∈ entries, e.Readable) {text : Input}
    (h : Bracketed '[' (entries.map Entry.text) ']' text) :
    Reads (Shape.record (entries.map Entry.field)).read (.object (entries.map Entry.member))
      text := by
  obtain ⟨hchain, hblank⟩ := h
  next body blank =>
    refine ⟨⟨rfl, by decide, by decide⟩, ?_⟩
    intro gap rest hgap _
    have hopen : skipBlank (gap ++ ('[' :: (body ++ (blank ++ [']'])) ++ rest)) =
        '[' :: (body ++ (blank ++ ']' :: rest)) := by
      rw [skipBlank_append hgap]
      simp only [List.cons_append, List.append_assoc, List.nil_append]
      rfl
    have hrun := readFields_chain hentries hchain [] (blank ++ ']' :: rest)
      fun _ => stops_closing hblank (Or.inl rfl) rest
    rw [List.append_nil] at hrun
    rw [Shape.read]
    simp only [hopen, hrun, readFields, bind, Except.bind, pure, Except.pure, List.append_nil,
      closeArray_append hblank]

/-- A field that is refused behind others makes the whole record refused. -/
theorem refuses_field {entries : List Entry} (hentries : ∀ e ∈ entries, e.Readable) {text : Input}
    (h : Chain true (entries.map Entry.text) text) {separator : Input}
    (hsep : Separator entries.isEmpty separator) {shape : Shape} {front : Input}
    (hfront : Refuses shape.read front) (name : String) (more : List (String × Shape)) :
    Refuses (Shape.record (entries.map Entry.field ++ (name, shape) :: more)).read
      ('[' :: (text ++ (separator ++ front))) := by
  refine ⟨⟨rfl, by decide, by decide⟩, ?_⟩
  intro gap hgap rest
  have hopen : skipBlank (gap ++ ('[' :: (text ++ (separator ++ front)) ++ rest)) =
      '[' :: (text ++ (separator ++ (front ++ rest))) := by
    rw [skipBlank_append hgap]
    simp only [List.cons_append, List.append_assoc]
    rfl
  have hread := hfront.read_append Blank.nil rest
  rw [List.nil_append] at hread
  have hrun := readFields_chain hentries h ((name, shape) :: more)
    (separator ++ (front ++ rest)) (hsep.stops_of_eq_false _)
  rw [Bool.true_and, readFields_separator hsep (hfront.starts.append rest), hread] at hrun
  simp only [bind, Except.bind] at hrun
  rw [Shape.read]
  simp only [hopen, hrun, bind, Except.bind]

/-! ## Members

A record that is written as an object has its fields in any order, with members under
other names among them. -/

/-- A member as it is written: the entry of a field, or any value under a name that no
field has. -/
inductive Member where
  | known (key colon : Input) (entry : Entry)
  | unknown (name : String) (key colon value : Input)

namespace Member

def text : Member → Input
  | known key colon entry => key ++ (colon ++ entry.text)
  | unknown _ key colon value => key ++ (colon ++ value)

def entry? : Member → Option Entry
  | known _ _ entry => some entry
  | unknown .. => none

/-- Whether the member may stand in an object for a record with the given fields. -/
def Fits (fields : List (String × Shape)) : Member → Prop
  | known key colon entry =>
      Quoted entry.name.toList key ∧ Colon colon ∧ entry.field ∈ fields
  | unknown name key colon value =>
      Quoted name.toList key ∧ Colon colon ∧ name ∉ fields.map Prod.fst ∧ WellFormed value

end Member

/-- The entries among some members. -/
def given (members : List Member) : List Entry := members.filterMap Member.entry?

theorem Quoted.exists_body {cs : List Char} {text : Input} (h : Quoted cs text) :
    ∃ body, Spells cs body ∧ text = '"' :: (body ++ ['"']) := by
  obtain ⟨hbody⟩ := h
  exact ⟨_, hbody, rfl⟩

theorem readKey_quoted {name : String} {key : Input} (h : Quoted name.toList key) (rest : Input) :
    readKey (key ++ rest) = .ok (some name, rest) := by
  obtain ⟨body, hbody, rfl⟩ := h.exists_body
  simp only [List.cons_append, List.append_assoc, List.nil_append, readKey,
    hbody.readString_append, String.ofList_toList]
  rfl

theorem nextKey_separator {first : Bool} {separator : Input} (h : Separator first separator)
    {name : String} {key : Input} (hkey : Quoted name.toList key) (rest : Input) :
    nextKey first (separator ++ (key ++ rest)) = .ok (some name, rest) := by
  have hread := readKey_quoted hkey rest
  obtain ⟨body, hbody, rfl⟩ := hkey.exists_body
  rw [List.cons_append] at hread ⊢
  cases h with
  | first hblank =>
      rw [nextKey, skipBlank_append hblank, skipBlank_cons rfl]
      exact hread
  | @comma before after hbefore hafter =>
      have hcomma : skipBlank (before ++ ',' :: after ++ '"' :: (body ++ ['"'] ++ rest)) =
          ',' :: (after ++ '"' :: (body ++ ['"'] ++ rest)) := by
        rw [List.append_assoc, skipBlank_append hbefore]
        rfl
      have hquote : skipBlank (after ++ '"' :: (body ++ ['"'] ++ rest)) =
          '"' :: (body ++ ['"'] ++ rest) := by
        rw [skipBlank_append hafter, skipBlank_cons rfl]
      rw [nextKey, hcomma]
      split
      · next h => cases h
      · next h => cases h
      · next h =>
          injection h with hc hr
          subst hc hr
          rw [if_neg Bool.false_ne_true, if_pos rfl, hquote]
          exact hread

theorem nextKey_closing (first : Bool) {blank : Input} (h : Blank blank) (rest : Input) :
    nextKey first (blank ++ '}' :: rest) = .ok (none, rest) := by
  rw [nextKey, skipBlank_append h]
  rfl

theorem readColon_append {colon : Input} (h : Colon colon) (rest : Input) :
    ∃ gap, Blank gap ∧ readColon (colon ++ rest) = .ok (gap ++ rest) := by
  obtain ⟨before, after, hbefore, hafter, rfl⟩ := h.exists_blanks
  refine ⟨after, hafter, ?_⟩
  rw [readColon, List.append_assoc, skipBlank_append hbefore]
  rfl

theorem fieldReader?_of_mem {fields : List (String × Shape)} (h : (fields.map Prod.fst).Nodup)
    {name : String} {shape : Shape} (hmem : (name, shape) ∈ fields) :
    fieldReader? fields name = some shape.read := by
  induction fields with
  | nil => cases hmem
  | cons field fields ih =>
      obtain ⟨field, s⟩ := field
      rw [List.map_cons, List.nodup_cons] at h
      rw [fieldReader?]
      rcases List.mem_cons.1 hmem with heq | hmem
      · cases heq
        rw [if_pos rfl]
      · have hne : field ≠ name := by
          rintro rfl
          exact h.1 (List.mem_map.2 ⟨_, hmem, rfl⟩)
        rw [if_neg hne, ih h.2 hmem]

theorem fieldReader?_of_not_mem {fields : List (String × Shape)} {name : String}
    (h : name ∉ fields.map Prod.fst) : fieldReader? fields name = none := by
  induction fields with
  | nil => rw [fieldReader?]
  | cons field fields ih =>
      obtain ⟨field, s⟩ := field
      rw [List.map_cons, List.mem_cons, not_or] at h
      rw [fieldReader?, if_neg (Ne.symm h.1), ih h.2]

/-- A member that the loop can go past. -/
structure Member.Passable (fields : List (String × Shape)) (m : Member) : Prop where
  fits : m.Fits fields
  readable : ∀ e, m.entry? = some e → e.Readable

theorem Member.Fits.exists_key {fields : List (String × Shape)} {m : Member} (h : m.Fits fields) :
    ∃ name key more, Quoted (String.toList name) key ∧ m.text = key ++ more := by
  cases m with
  | known key colon entry => exact ⟨_, key, _, h.1, rfl⟩
  | unknown name key colon value => exact ⟨name, key, _, h.1, rfl⟩

theorem Member.Fits.text_length_pos {fields : List (String × Shape)} {m : Member}
    (h : m.Fits fields) : 0 < m.text.length := by
  obtain ⟨_, _, _, hkey, htext⟩ := h.exists_key
  obtain ⟨body, _, rfl⟩ := hkey.exists_body
  rw [htext]
  exact Nat.succ_pos _

/-- What a member leaves with those that were found before it. -/
def Member.keep (found : List (String × Json)) (m : Member) : List (String × Json) :=
  (m.entry?.map Entry.member).toList ++ found

theorem readMembers_part {fields : List (String × Shape)} (hnames : (fields.map Prod.fst).Nodup)
    {m : Member} (hm : m.Passable fields) {found : List (String × Json)}
    (hfresh : ∀ e, m.entry? = some e → found.lookup e.name = none) {first : Bool}
    {separator : Input} (hsep : Separator first separator) (hrest : Stops rest) (f : Char)
    (fuel : Input) :
    readMembers (fieldReader? fields) (f :: fuel) first found (separator ++ (m.text ++ rest)) =
      readMembers (fieldReader? fields) fuel false (m.keep found) rest := by
  cases m with
  | known key colon entry =>
      obtain ⟨⟨hkey, hcolon, hmem⟩, hreadable⟩ := hm
      obtain ⟨gap, hgap, hcolon⟩ := readColon_append hcolon (entry.text ++ rest)
      have hread := (hreadable entry rfl).read_append hgap hrest
      simp only [Member.text, List.append_assoc, readMembers, nextKey_separator hsep hkey, bind,
        Except.bind, fieldReader?_of_mem hnames hmem, hfresh entry rfl, Option.isSome_none,
        Bool.false_eq_true, if_false, hcolon, hread]
      rfl
  | unknown name key colon value =>
      obtain ⟨⟨hkey, hcolon, hmem, hvalue⟩, _⟩ := hm
      obtain ⟨gap, hgap, hcolon⟩ := readColon_append hcolon (value ++ rest)
      simp only [Member.text, List.append_assoc, readMembers, nextKey_separator hsep hkey, bind,
        Except.bind, fieldReader?_of_not_mem hmem, hcolon, hvalue.skipValue_append hgap hrest]
      rfl

theorem lookup_keep_of_ne {name : String} {found : List (String × Json)} {m : Member}
    (h : ∀ e, m.entry? = some e → e.name ≠ name) :
    (m.keep found).lookup name = found.lookup name := by
  cases m with
  | known key colon entry =>
      have hne : (name == entry.name) = false := by
        simpa using (h entry rfl).symm
      show List.lookup name ((entry.name, entry.value) :: found) = _
      rw [List.lookup_cons, hne]
  | unknown name key colon value => rfl

theorem lookup_keep_of_eq {found : List (String × Json)} {m : Member} {e : Entry}
    (h : m.entry? = some e) : (m.keep found).lookup e.name = some e.value := by
  cases m with
  | known key colon entry =>
      cases h
      exact List.lookup_cons_self
  | unknown name key colon value => cases h

/-- What some members leave with those that were found before them. -/
def keepAll (members : List Member) (found : List (String × Json)) : List (String × Json) :=
  members.foldl Member.keep found

theorem given_cons (m : Member) (members : List Member) :
    given (m :: members) = m.entry?.toList ++ given members := by
  cases m <;> rfl

theorem lookup_keepAll_of_not_mem {name : String} {members : List Member}
    (h : name ∉ (given members).map Entry.name) (found : List (String × Json)) :
    (keepAll members found).lookup name = found.lookup name := by
  induction members generalizing found with
  | nil => rfl
  | cons m members ih =>
      rw [given_cons, List.map_append, List.mem_append, not_or] at h
      rw [keepAll, List.foldl_cons, ← keepAll, ih h.2]
      refine lookup_keep_of_ne fun e he heq => h.1 ?_
      rw [he]
      exact List.mem_map.2 ⟨e, List.mem_singleton_self e, heq⟩

theorem lookup_keepAll_of_mem {e : Entry} {members : List Member} (h : e ∈ given members)
    (hnodup : ((given members).map Entry.name).Nodup) (found : List (String × Json)) :
    (keepAll members found).lookup e.name = some e.value := by
  induction members generalizing found with
  | nil => cases h
  | cons m members ih =>
      rw [given_cons] at h hnodup
      rw [List.map_append, List.nodup_append] at hnodup
      rw [keepAll, List.foldl_cons, ← keepAll]
      rcases List.mem_append.1 h with h | h
      · have he : m.entry? = some e := Option.mem_toList.1 h
        rw [lookup_keepAll_of_not_mem, lookup_keep_of_eq he]
        intro hmem
        exact hnodup.2.2 _ (List.mem_map_of_mem h) _ hmem rfl
      · exact ih h hnodup.2.1 _

/-- The members that have been read are kept, and the loop goes on behind them. -/
theorem readMembers_chain {fields : List (String × Shape)} (hnames : (fields.map Prod.fst).Nodup)
    {members : List Member} (hmembers : ∀ m ∈ members, m.Passable fields)
    (hnodup : ((given members).map Entry.name).Nodup) {found : List (String × Json)}
    (hfresh : ∀ e ∈ given members, found.lookup e.name = none) {first : Bool} {text : Input}
    (h : Chain first (members.map Member.text) text)
    (rest : Input) (hrest : (first && members.isEmpty) = false → Stops rest) (fuel : Input)
    (hfuel : text.length + rest.length ≤ fuel.length) :
    ∃ fuel', rest.length ≤ fuel'.length ∧
      readMembers (fieldReader? fields) fuel first found (text ++ rest) =
        readMembers (fieldReader? fields) fuel' (first && members.isEmpty)
          (keepAll members found) rest := by
  induction members generalizing first text fuel found with
  | nil =>
      cases h
      exact ⟨fuel, by simpa using hfuel, by simp [keepAll]⟩
  | cons m members ih =>
      cases h with
      | @cons _ separator part _ text hsep htext =>
          have hm := hmembers m List.mem_cons_self
          have hstops : Stops rest := hrest (by simp)
          have hpos := hm.fits.text_length_pos
          simp only [List.length_append] at hfuel
          obtain ⟨f, fuel, rfl⟩ := List.exists_cons_of_length_pos (by omega : 0 < fuel.length)
          rw [List.length_cons] at hfuel
          rw [given_cons] at hnodup hfresh
          rw [List.map_append, List.nodup_append] at hnodup
          -- What this member leaves hides none of those to come: their names are others.
          have hfresh' : ∀ e ∈ given members, (m.keep found).lookup e.name = none := by
            intro e he
            rw [lookup_keep_of_ne, hfresh e (List.mem_append_right _ he)]
            intro e' he' heq
            refine hnodup.2.2 _ ?_ _ (List.mem_map_of_mem he) heq
            rw [he']
            exact List.mem_singleton_self _
          obtain ⟨fuel', hfuel', hrun⟩ := ih (fun m hm => hmembers m (List.mem_cons_of_mem _ hm))
            hnodup.2.1 hfresh' htext (fun _ => hstops) fuel (by omega)
          refine ⟨fuel', hfuel', ?_⟩
          rw [List.append_assoc, List.append_assoc, readMembers_part hnames hm
            (fun e he => hfresh e
              (List.mem_append_left _ (by rw [he]; exact List.mem_singleton_self _)))
            hsep (htext.stops_append hstops), hrun]
          simp only [List.isEmpty_cons, Bool.and_false, Bool.false_and, keepAll, List.foldl_cons]

theorem arrange_eq_ok {found : List (String × Json)} {entries : List Entry}
    (h : ∀ e ∈ entries, found.lookup e.name = some e.value ∨
      found.lookup e.name = none ∧ e.shape.mayBeMissing = true ∧ e.value = .null) :
    arrange found (entries.map Entry.field) = .ok (entries.map Entry.member) := by
  induction entries with
  | nil => rfl
  | cons e entries ih =>
      have htail := ih fun e he => h e (List.mem_cons_of_mem _ he)
      rw [List.map_cons, List.map_cons, Entry.field, arrange]
      rcases h e List.mem_cons_self with hfound | ⟨hmissing, hoptional, hnull⟩
      · simp only [hfound, htail]
        rfl
      · simp only [hmissing, hoptional, if_true, htail, Entry.member, hnull]
        rfl

theorem arrange_eq_error {found : List (String × Json)} {fields : List (String × Shape)}
    {name : String} {shape : Shape} (hmem : (name, shape) ∈ fields)
    (hmissing : found.lookup name = none) (hrequired : shape.mayBeMissing = false) :
    arrange found fields = .error .mismatched := by
  induction fields with
  | nil => cases hmem
  | cons field fields ih =>
      obtain ⟨field, s⟩ := field
      rw [arrange]
      rcases List.mem_cons.1 hmem with heq | hmem
      · cases heq
        simp [hmissing, hrequired]
      · rw [ih hmem]
        split
        · rfl
        · split <;> rfl

theorem readMembers_closing (reader? : String → Option (Reader Json)) (first : Bool)
    (found : List (String × Json)) {blank : Input} (h : Blank blank) {rest fuel : Input}
    (hfuel : (blank ++ '}' :: rest).length ≤ fuel.length) :
    readMembers reader? fuel first found (blank ++ '}' :: rest) = .ok (found, rest) := by
  simp only [List.length_append, List.length_cons] at hfuel
  obtain ⟨f, fuel, rfl⟩ := List.exists_cons_of_length_pos (by omega : 0 < fuel.length)
  rw [readMembers, nextKey_closing first h]
  rfl

/-- Members that may begin an object for a record. -/
structure Begins (fields : List (String × Shape)) (members : List Member) (text : Input) :
    Prop where
  names_nodup : (fields.map Prod.fst).Nodup
  passable : ∀ m ∈ members, m.Passable fields
  given_nodup : ((given members).map Entry.name).Nodup
  chain : Chain true (members.map Member.text) text

/-- Reading an object comes to what stands behind the members that begin it. -/
theorem Begins.read_record {fields : List (String × Shape)} {members : List Member} {text : Input}
    (h : Begins fields members text) {gap : Input} (hgap : Blank gap) (rest : Input)
    (hrest : members.isEmpty = false → Stops rest) :
    ∃ fuel, rest.length ≤ fuel.length ∧
      (Shape.record fields).read (gap ++ '{' :: (text ++ rest)) = do
        let (found, left) ← readMembers (fieldReader? fields) fuel members.isEmpty
          (keepAll members []) rest
        return (.object (← arrange found fields), left) := by
  have hopen : skipBlank (gap ++ '{' :: (text ++ rest)) = '{' :: (text ++ rest) := by
    rw [skipBlank_append hgap]
    rfl
  have hfresh : ∀ e ∈ given members, List.lookup e.name ([] : List (String × Json)) = none :=
    fun _ _ => rfl
  obtain ⟨fuel, hfuel, hrun⟩ := readMembers_chain h.names_nodup h.passable h.given_nodup hfresh
    h.chain rest hrest (text ++ rest) (Nat.le_of_eq List.length_append.symm)
  refine ⟨fuel, hfuel, ?_⟩
  rw [Shape.read]
  simp only [hopen, hrun, Bool.true_and]

theorem reads_object {entries : List Entry} {members : List Member} {text blank : Input}
    (h : Begins (entries.map Entry.field) members text) (hblank : Blank blank)
    (hgiven : ∀ e ∈ entries, e ∈ given members ∨
      e.name ∉ (given members).map Entry.name ∧ e.shape.mayBeMissing = true ∧ e.value = .null) :
    Reads (Shape.record (entries.map Entry.field)).read (.object (entries.map Entry.member))
      ('{' :: (text ++ (blank ++ ['}']))) := by
  refine ⟨⟨rfl, by decide, by decide⟩, ?_⟩
  intro gap rest hgap _
  obtain ⟨fuel, hfuel, hrun⟩ := h.read_record hgap (blank ++ '}' :: rest)
    fun _ => stops_closing hblank (Or.inr rfl) rest
  have harrange : arrange (keepAll members []) (entries.map Entry.field) =
      .ok (entries.map Entry.member) := by
    refine arrange_eq_ok fun e he => ?_
    rcases hgiven e he with hmem | ⟨hmissing, hoptional, hnull⟩
    · exact Or.inl (lookup_keepAll_of_mem hmem h.given_nodup [])
    · exact Or.inr ⟨lookup_keepAll_of_not_mem hmissing [], hoptional, hnull⟩
  rw [readMembers_closing _ _ _ hblank hfuel] at hrun
  simp only [List.cons_append, List.append_assoc, List.nil_append]
  rw [hrun]
  simp only [bind, Except.bind, harrange]
  rfl

/-- A member whose value is refused makes the whole object refused. -/
theorem refuses_member {fields : List (String × Shape)} {members : List Member} {text : Input}
    (h : Begins fields members text) {separator : Input}
    (hsep : Separator members.isEmpty separator) {name : String} {shape : Shape}
    (hmem : (name, shape) ∈ fields) (hfresh : name ∉ (given members).map Entry.name) {key : Input}
    (hkey : Quoted name.toList key) {colon : Input} (hcolon : Colon colon) {front : Input}
    (hfront : Refuses shape.read front) :
    Refuses (Shape.record fields).read
      ('{' :: (text ++ (separator ++ (key ++ (colon ++ front))))) := by
  refine ⟨⟨rfl, by decide, by decide⟩, ?_⟩
  intro gap hgap rest
  obtain ⟨fuel, hfuel, hrun⟩ := h.read_record hgap
    (separator ++ (key ++ (colon ++ (front ++ rest)))) (hsep.stops_of_eq_false _)
  obtain ⟨space, hspace, hcolon⟩ := readColon_append hcolon (front ++ rest)
  have hread := hfront.read_append hspace rest
  have hpos := hfront.starts.length_pos
  simp only [List.length_append] at hfuel
  obtain ⟨f, fuel, rfl⟩ := List.exists_cons_of_length_pos (by omega : 0 < fuel.length)
  simp only [List.cons_append, List.append_assoc]
  rw [hrun]
  simp only [readMembers, nextKey_separator hsep hkey, bind, Except.bind,
    fieldReader?_of_mem h.names_nodup hmem, lookup_keepAll_of_not_mem hfresh, List.lookup_nil,
    Option.isSome_none, Bool.false_eq_true, if_false, hcolon, hread]

/-- The second key of a field is refused, whatever its value. -/
theorem refuses_repeated {fields : List (String × Shape)} {members : List Member} {text : Input}
    (h : Begins fields members text) {separator : Input}
    (hsep : Separator members.isEmpty separator) {e : Entry} (he : e ∈ given members) {key : Input}
    (hkey : Quoted e.name.toList key) :
    Refuses (Shape.record fields).read ('{' :: (text ++ (separator ++ key))) := by
  refine ⟨⟨rfl, by decide, by decide⟩, ?_⟩
  intro gap hgap rest
  have hmem : e.field ∈ fields := by
    obtain ⟨m, hm, hentry⟩ := List.mem_filterMap.1 he
    cases m with
    | known key colon entry =>
        cases hentry
        exact (h.passable _ hm).fits.2.2
    | unknown => cases hentry
  obtain ⟨fuel, hfuel, hrun⟩ := h.read_record hgap (separator ++ (key ++ rest))
    (hsep.stops_of_eq_false _)
  have hpos : 0 < key.length := by
    obtain ⟨body, _, rfl⟩ := hkey.exists_body
    exact Nat.succ_pos _
  simp only [List.length_append] at hfuel
  obtain ⟨f, fuel, rfl⟩ := List.exists_cons_of_length_pos (by omega : 0 < fuel.length)
  simp only [List.cons_append, List.append_assoc]
  rw [hrun]
  simp only [readMembers, nextKey_separator hsep hkey, bind, Except.bind,
    fieldReader?_of_mem h.names_nodup hmem, lookup_keepAll_of_mem he h.given_nodup,
    Option.isSome_some, if_true]
  rfl

/-- An object without one of its fields is refused at its end, unless the field is optional. -/
theorem refuses_missing {fields : List (String × Shape)} {members : List Member} {text : Input}
    (h : Begins fields members text) {blank : Input} (hblank : Blank blank) {name : String}
    {shape : Shape} (hmem : (name, shape) ∈ fields) (hrequired : shape.mayBeMissing = false)
    (hmissing : name ∉ (given members).map Entry.name) :
    Refuses (Shape.record fields).read ('{' :: (text ++ (blank ++ ['}']))) := by
  refine ⟨⟨rfl, by decide, by decide⟩, ?_⟩
  intro gap hgap rest
  obtain ⟨fuel, hfuel, hrun⟩ := h.read_record hgap (blank ++ '}' :: rest)
    fun _ => stops_closing hblank (Or.inr rfl) rest
  rw [readMembers_closing _ _ _ hblank hfuel] at hrun
  simp only [List.cons_append, List.append_assoc, List.nil_append]
  rw [hrun]
  simp only [bind, Except.bind,
    arrange_eq_error hmem (lookup_keepAll_of_not_mem hmissing []) hrequired]

end Lindenmayer.Json
