import Lindenmayer.Proofs.Grammar

/-!
# What may follow at a place

A parser that has read some tokens of a text is at a place in the grammar. The
tokens that would complete the text from there are a language of their own, and this
module writes it down for every place: what is missing from the current item, and
then what may come after that item. Before the first token this is the language of
the text itself.

The parser is right if it takes a token exactly where some text goes on with it, and
then is at the place where the rest of that text is a continuation. Both come down to
the same question for every place: which continuations are empty, and which start
with a given token?
-/

namespace Lindenmayer.Script

/-- The texts of an entry point, with the settings and the definitions in them. -/
def Sentence (entry : Entry) (ts : List Lexeme) (settings : List Assignment)
    (definitions : List Definition) : Prop :=
  match entry with
  | .config => ConfigRule ts settings definitions
  | .setting => ∃ a, SettingRule ts a ∧ settings = [a] ∧ definitions = []
  | .definition => ∃ d, DefinitionRule ts d ∧ settings = [] ∧ definitions = [d]

/-! ## Continuations -/

section

variable (entry : Entry) (ts : List Lexeme) (settings : List Assignment)
  (definitions : List Definition)

def AfterSetting (a : Assignment) : Prop :=
  match entry with
  | .config => ∃ more, settings = a :: more ∧ ConfigRule ts more definitions
  | .setting => ts = [] ∧ settings = [a] ∧ definitions = []
  | .definition => False

def AfterKey (key : Key) : Prop :=
  ∃ numeral us vs, ts = us ++ vs ∧ NumberRule key us numeral ∧
    AfterSetting entry vs settings definitions ⟨key, numeral⟩

def AfterDefinition (d : Definition) : Prop :=
  settings = [] ∧ ∃ more, definitions = d :: more ∧
    match entry with
    | .config => Star DefinitionRule ts more
    | _ => ts = [] ∧ more = []

/-- Within the flags of a definition. -/
def AfterFlags (d : Definition) : Prop :=
  ∃ flags us vs, ts = us ++ vs ∧ Star FlagRule us flags ∧
    AfterDefinition entry vs settings definitions
      { d with effects := flags.foldl Effects.union d.effects }

def AfterActions (d : Definition) : Prop :=
  ∃ color us vs, ts = us ++ vs ∧ Optional ColorRule us color ∧
    AfterFlags entry vs settings definitions { d with color := color.getD d.color }

def AfterEquals (literal : Char) : Prop :=
  ∃ actions us, ts = ⟨.quoted, '"' :: (actions ++ ['"'])⟩ :: us ∧
    AfterActions entry us settings definitions ⟨literal, .ofList actions, .black, .none⟩

def AfterLetter (literal : Char) : Prop :=
  ∃ word us, ts = ⟨.equals, word⟩ :: us ∧ AfterEquals entry us settings definitions literal

/-- What completes the text from a place, with the settings and the definitions that
are not finished there. -/
def Rest : Place → Prop
  | .opening => Sentence entry ts settings definitions
  | .key key => AfterKey entry ts settings definitions key
  | .value key numeral => AfterSetting entry ts settings definitions ⟨key, numeral⟩
  | .literal c => AfterLetter entry ts settings definitions c
  | .assigned c => AfterEquals entry ts settings definitions c
  | .actions d => AfterActions entry ts settings definitions d
  | .flags d => AfterFlags entry ts settings definitions d

end

/-! ## Single tokens -/

theorem Key.ofTerminal?_eq_some_iff {t : Terminal} {key : Key} :
    Key.ofTerminal? t = some key ↔ t = key.terminal := by
  cases key <;> cases t <;> simp [Key.ofTerminal?, Key.terminal]

theorem flagRule_iff {ts : List Lexeme} {flag : Effects} :
    FlagRule ts flag ↔ ∃ x : Lexeme, ts = [x] ∧ flag? x.terminal = some flag := by
  refine ⟨fun h => ?_, fun h => ?_⟩
  · obtain word | word := h
    · exact ⟨_, rfl, rfl⟩
    · exact ⟨_, rfl, rfl⟩
  · obtain ⟨⟨t, word⟩, rfl, h⟩ := h
    cases t with
    | paint => cases h; exact .paint word
    | move => cases h; exact .move word
    | _ => cases h

theorem numberRule_iff {key : Key} {ts : List Lexeme} {numeral : List Char} :
    NumberRule key ts numeral ↔
      ∃ x : Lexeme, ts = [x] ∧ key.admits x.terminal = true ∧ x.text = numeral := by
  refine ⟨fun h => ?_, fun h => ?_⟩
  · obtain _ | ⟨_, h⟩ | ⟨_, h⟩ := h
    · exact ⟨_, rfl, rfl, rfl⟩
    · exact ⟨_, rfl, by simp [Key.admits, h], rfl⟩
    · exact ⟨_, rfl, by simp [Key.admits, h], rfl⟩
  · obtain ⟨⟨t, word⟩, rfl, h, rfl⟩ := h
    cases t with
    | digits => exact .digits word
    | negative => exact .negative word (by simpa [Key.admits] using h)
    | decimal => exact .decimal word (by simpa [Key.admits] using h)
    | _ => cases h

theorem exists_letter {text : List Char} (h : Terminal.letter.Matches text) :
    ∃ c, text = [c] := by
  cases h with
  | word h => cases h
  | letter => exact ⟨_, rfl⟩

theorem exists_quoted {text : List Char} (h : Terminal.quoted.Matches text) :
    ∃ body, text = '"' :: (body ++ ['"']) := by
  cases h with
  | word h => cases h
  | quoted => exact ⟨_, rfl⟩

theorem exists_channel {high low : Char} (hhigh : Text.isHexDigit high = true)
    (hlow : Text.isHexDigit low = true) : ∃ v, Color.channel? high low = some v := by
  obtain ⟨v₁, h₁⟩ := Option.isSome_iff_exists.1 hhigh
  obtain ⟨v₀, h₀⟩ := Option.isSome_iff_exists.1 hlow
  exact ⟨_, by rw [Color.channel?, h₁, h₀]; rfl⟩

theorem exists_colorRule {ds : List Char} (hlength : ds.length = 6)
    (hhex : ∀ d ∈ ds, Text.isHexDigit d) :
    ∃ color, Color.ofHex? (.ofList ('#' :: ds)) = some color ∧
      ColorRule [⟨.color, '#' :: ds⟩] color := by
  match ds, hlength with
  | [r₁, r₀, g₁, g₀, b₁, b₀], _ =>
      simp only [List.forall_mem_cons] at hhex
      obtain ⟨hr₁, hr₀, hg₁, hg₀, hb₁, hb₀, _⟩ := hhex
      obtain ⟨r, hr⟩ := exists_channel hr₁ hr₀
      obtain ⟨g, hg⟩ := exists_channel hg₁ hg₀
      obtain ⟨b, hb⟩ := exists_channel hb₁ hb₀
      exact ⟨⟨r, g, b, 255⟩, by simp [Color.ofHex?, hr, hg, hb, Color.rgb], .intro hr hg hb⟩

/-- The text of a color is read as the color that it means. -/
theorem colorRule_iff {x : Lexeme} {color : Color} (hx : x.terminal.Matches x.text) :
    ColorRule [x] color ↔
      x.terminal = .color ∧ color = (Color.ofHex? (.ofList x.text)).getD .black := by
  refine ⟨fun h => ?_, fun h => ?_⟩
  · obtain ⟨hr, hg, hb⟩ := h
    refine ⟨rfl, ?_⟩
    simp [Color.ofHex?, hr, hg, hb, Color.rgb]
  · obtain ⟨t, text⟩ := x
    obtain ⟨rfl, rfl⟩ := h
    cases hx with
    | word h => cases h
    | @color ds hlength hhex =>
        obtain ⟨color, hcolor, hrule⟩ := exists_colorRule hlength hhex
        rw [hcolor]
        exact hrule

/-! ## Rules and what comes after them -/

theorem star_nil_iff {α : Type} {R : List Lexeme → α → Prop} (hR : ∀ x, ¬ R [] x) {xs : List α} :
    Star R [] xs ↔ xs = [] := by
  refine ⟨fun h => ?_, fun h => ?_⟩
  · generalize hts : ([] : List Lexeme) = ts at h
    cases h with
    | nil => rfl
    | cons hx _ =>
        rw [(List.append_eq_nil_iff.1 hts.symm).1] at hx
        exact absurd hx (hR _)
  · obtain rfl := h
    exact .nil

/-- A repetition that is not empty starts with the rule. -/
theorem star_cons_iff {α : Type} {R : List Lexeme → α → Prop} {t : Lexeme} {ts : List Lexeme}
    {xs : List α} :
    Star R (t :: ts) xs ↔
      ∃ y ys us vs, xs = y :: ys ∧ t :: ts = us ++ vs ∧ R us y ∧ Star R vs ys := by
  refine ⟨fun h => ?_, fun h => ?_⟩
  · generalize hts : t :: ts = tokens at h
    cases h with
    | nil => cases hts
    | cons hx hxs => exact ⟨_, _, _, _, rfl, rfl, hx, hxs⟩
  · obtain ⟨y, ys, us, vs, rfl, heq, hx, hxs⟩ := h
    rw [heq]
    exact .cons hx hxs

theorem not_definitionRule_nil (d : Definition) : ¬ DefinitionRule [] d := nofun

theorem not_flagRule_nil (flag : Effects) : ¬ FlagRule [] flag := nofun

section

variable {entry : Entry} {x : Lexeme} {ts : List Lexeme} {settings : List Assignment}
  {definitions : List Definition}

/-- A text is led by a setting or by a definition. -/
theorem sentence_iff :
    Sentence entry ts settings definitions ↔
      (entry ≠ .definition ∧ ∃ a us vs, ts = us ++ vs ∧ SettingRule us a ∧
        AfterSetting entry vs settings definitions a) ∨
      (entry ≠ .setting ∧ ∃ d us vs, ts = us ++ vs ∧ DefinitionRule us d ∧
        AfterDefinition entry vs settings definitions d) := by
  cases entry with
  | config =>
      refine ⟨fun h => ?_, fun h => ?_⟩
      · obtain ⟨hsettings, hdefinitions, hne⟩ := h
        cases hsettings with
        | nil =>
            cases hdefinitions with
            | nil => exact absurd rfl hne
            | cons hx hxs =>
                rw [List.nil_append]
                exact .inr ⟨nofun, _, _, _, rfl, hx, rfl, _, rfl, hxs⟩
        | cons hx hxs =>
            rw [List.append_assoc]
            exact .inl ⟨nofun, _, _, _, rfl, hx, _, rfl, .intro hxs hdefinitions hne⟩
      · obtain ⟨_, a, us, _, rfl, hx, _, rfl, hmore⟩ | ⟨_, d, us, vs, rfl, hx, rfl, _, rfl, hxs⟩ :=
          h
        · obtain ⟨hsettings, hdefinitions, hne⟩ := hmore
          rw [← List.append_assoc]
          exact .intro (.cons hx hsettings) hdefinitions hne
        · rw [← List.nil_append (us ++ vs)]
          exact .intro .nil (.cons hx hxs) (List.cons_ne_nil _ _)
  | setting =>
      refine ⟨fun h => ?_, fun h => ?_⟩
      · obtain ⟨a, hx, rfl, rfl⟩ := h
        exact .inl ⟨nofun, a, ts, [], (List.append_nil ts).symm, hx, rfl, rfl, rfl⟩
      · obtain ⟨_, a, us, _, rfl, hx, rfl, rfl, rfl⟩ | ⟨hne, _⟩ := h
        · rw [List.append_nil]
          exact ⟨a, hx, rfl, rfl⟩
        · exact absurd rfl hne
  | definition =>
      refine ⟨fun h => ?_, fun h => ?_⟩
      · obtain ⟨d, hx, rfl, rfl⟩ := h
        exact .inr ⟨nofun, d, ts, [], (List.append_nil ts).symm, hx, rfl, _, rfl, rfl, rfl⟩
      · obtain ⟨hne, _⟩ | ⟨_, d, us, _, rfl, hx, rfl, _, rfl, rfl, rfl⟩ := h
        · exact absurd rfl hne
        · rw [List.append_nil]
          exact ⟨d, hx, rfl, rfl⟩

/-- A setting starts with its key. -/
theorem setting_then_iff :
    (∃ a us vs, x :: ts = us ++ vs ∧ SettingRule us a ∧
        AfterSetting entry vs settings definitions a) ↔
      ∃ key : Key, x.terminal = key.terminal ∧ AfterKey entry ts settings definitions key := by
  refine ⟨fun h => ?_, fun h => ?_⟩
  · obtain ⟨a, us, vs, heq, ⟨hnumber⟩, hafter⟩ := h
    injection heq with hx hts
    exact ⟨_, by rw [hx], _, _, vs, hts, hnumber, hafter⟩
  · obtain ⟨key, hx, numeral, us, vs, rfl, hnumber, hafter⟩ := h
    obtain ⟨t, word⟩ := x
    subst hx
    exact ⟨⟨key, numeral⟩, _, vs, rfl, .intro hnumber, hafter⟩

/-- A definition starts with its letter. -/
theorem definition_then_iff (hx : x.terminal.Matches x.text) :
    (∃ d us vs, x :: ts = us ++ vs ∧ DefinitionRule us d ∧
        AfterDefinition entry vs settings definitions d) ↔
      x.terminal = .letter ∧ AfterLetter entry ts settings definitions (x.text.headD 'A') := by
  refine ⟨fun h => ?_, fun h => ?_⟩
  · obtain ⟨d, us, vs, heq, hrule, hafter⟩ := h
    cases hrule with
    | @intro literal word actions cs fs color flags hcolor hflags =>
        injection heq with hx hts
        subst hx
        refine ⟨rfl, word, _, hts, actions, _, rfl, color, cs, fs ++ vs, ?_, hcolor, flags, fs, vs,
          rfl, hflags, hafter⟩
        exact List.append_assoc cs fs vs
  · obtain ⟨t, text⟩ := x
    obtain ⟨rfl, word, _, rfl, actions, _, rfl, color, cs, _, rfl, hcolor, flags, fs, vs, rfl,
      hflags, hafter⟩ := h
    obtain ⟨c, rfl⟩ := exists_letter hx
    have hrule : DefinitionRule (⟨.letter, [c]⟩ :: ⟨.equals, word⟩ ::
        ⟨.quoted, '"' :: (actions ++ ['"'])⟩ :: (cs ++ fs)) _ := .intro hcolor hflags
    exact ⟨_, _, vs, by simp, hrule, hafter⟩

theorem afterDefinition_cons_iff (hx : x.terminal.Matches x.text) {d : Definition} :
    AfterDefinition entry (x :: ts) settings definitions d ↔
      Place.follows entry x.terminal = true ∧ ∃ more, definitions = d :: more ∧
        AfterLetter entry ts settings more (x.text.headD 'A') := by
  cases entry with
  | config =>
      simp only [Place.follows, decide_true, Bool.true_and, decide_eq_true_eq]
      refine ⟨fun h => ?_, fun h => ?_⟩
      · obtain ⟨rfl, _, rfl, hstar⟩ := h
        obtain ⟨e, es, us, vs, rfl, heq, hrule, hmore⟩ := star_cons_iff.1 hstar
        have hafter : AfterDefinition .config vs [] (e :: es) e := ⟨rfl, es, rfl, hmore⟩
        obtain ⟨hletter, hfirst⟩ := (definition_then_iff hx).1 ⟨e, us, vs, heq, hrule, hafter⟩
        exact ⟨hletter, _, rfl, hfirst⟩
      · obtain ⟨hletter, more, rfl, hafter⟩ := h
        obtain ⟨e, us, vs, heq, hrule, rfl, es, rfl, hmore⟩ :=
          (definition_then_iff hx).2 ⟨hletter, hafter⟩
        exact ⟨rfl, _, rfl, star_cons_iff.2 ⟨e, es, us, vs, rfl, heq, hrule, hmore⟩⟩
  | setting => simp [AfterDefinition, Place.follows]
  | definition => simp [AfterDefinition, Place.follows]

theorem afterFlags_cons_iff {d : Definition} :
    AfterFlags entry (x :: ts) settings definitions d ↔
      (∃ flag, flag? x.terminal = some flag ∧
        AfterFlags entry ts settings definitions { d with effects := d.effects.union flag }) ∨
      AfterDefinition entry (x :: ts) settings definitions d := by
  refine ⟨fun h => ?_, fun h => ?_⟩
  · obtain ⟨flags, us, vs, heq, hflags, hafter⟩ := h
    cases hflags with
    | nil => exact .inr (heq ▸ hafter)
    | cons hflag hflags =>
        obtain ⟨y, rfl, hy⟩ := flagRule_iff.1 hflag
        injection heq with hx hts
        subst hx
        exact .inl ⟨_, hy, _, _, vs, hts, hflags, hafter⟩
  · obtain ⟨flag, hflag, flags, us, vs, rfl, hflags, hafter⟩ | hafter := h
    · have hx := flagRule_iff.2 ⟨x, rfl, hflag⟩
      exact ⟨flag :: flags, _, vs, rfl, .cons hx hflags, hafter⟩
    · exact ⟨[], [], x :: ts, rfl, .nil, hafter⟩

theorem afterActions_cons_iff {d : Definition} :
    AfterActions entry (x :: ts) settings definitions d ↔
      (∃ color, ColorRule [x] color ∧
        AfterFlags entry ts settings definitions { d with color }) ∨
      AfterFlags entry (x :: ts) settings definitions d := by
  refine ⟨fun h => ?_, fun h => ?_⟩
  · obtain ⟨color, us, vs, heq, hcolor, hafter⟩ := h
    cases hcolor with
    | none => exact .inr (heq ▸ hafter)
    | some hcolor =>
        have hus : us = [x] ∧ ts = vs := by
          cases hcolor
          injection heq with hx hts
          exact ⟨by rw [hx], hts⟩
        obtain ⟨rfl, rfl⟩ := hus
        exact .inl ⟨_, hcolor, hafter⟩
  · obtain ⟨color, hcolor, hafter⟩ | hafter := h
    · exact ⟨some color, [x], ts, rfl, .some hcolor, hafter⟩
    · exact ⟨none, [], x :: ts, rfl, .none, hafter⟩

theorem afterKey_cons_iff {key : Key} :
    AfterKey entry (x :: ts) settings definitions key ↔
      key.admits x.terminal = true ∧
        AfterSetting entry ts settings definitions ⟨key, x.text⟩ := by
  refine ⟨fun h => ?_, fun h => ?_⟩
  · obtain ⟨numeral, us, vs, heq, hnumber, hafter⟩ := h
    obtain ⟨y, rfl, hy, rfl⟩ := numberRule_iff.1 hnumber
    injection heq with hx hts
    subst hx hts
    exact ⟨hy, hafter⟩
  · obtain ⟨hadmits, hafter⟩ := h
    exact ⟨x.text, [x], ts, rfl, numberRule_iff.2 ⟨x, rfl, hadmits, rfl⟩, hafter⟩

theorem afterSetting_cons_iff {a : Assignment} :
    AfterSetting entry (x :: ts) settings definitions a ↔
      entry = .config ∧ ∃ more, settings = a :: more ∧
        Sentence entry (x :: ts) more definitions := by
  cases entry <;> simp [AfterSetting, Sentence]

theorem afterLetter_cons_iff {c : Char} :
    AfterLetter entry (x :: ts) settings definitions c ↔
      x.terminal = .equals ∧ AfterEquals entry ts settings definitions c := by
  refine ⟨fun h => ?_, fun h => ?_⟩
  · obtain ⟨word, us, heq, hafter⟩ := h
    cases heq
    exact ⟨rfl, hafter⟩
  · obtain ⟨t, word⟩ := x
    obtain ⟨rfl, hafter⟩ := h
    exact ⟨word, ts, rfl, hafter⟩

theorem afterEquals_cons_iff (hx : x.terminal.Matches x.text) {c : Char} :
    AfterEquals entry (x :: ts) settings definitions c ↔
      x.terminal = .quoted ∧ AfterActions entry ts settings definitions
        ⟨c, .ofList (x.text.drop 1).dropLast, .black, .none⟩ := by
  refine ⟨fun h => ?_, fun h => ?_⟩
  · obtain ⟨actions, us, heq, hafter⟩ := h
    cases heq
    refine ⟨rfl, ?_⟩
    simpa using hafter
  · obtain ⟨t, text⟩ := x
    obtain ⟨rfl, hafter⟩ := h
    obtain ⟨body, rfl⟩ := exists_quoted hx
    refine ⟨body, ts, rfl, ?_⟩
    simpa using hafter

end

/-! ## Places -/

namespace Place

/-- Where the first token of an item leads. -/
def begun (x : Lexeme) : Place :=
  match Key.ofTerminal? x.terminal with
  | some k => .key k
  | none => .literal (x.text.headD 'A')

/-- Where a token leads. -/
def next (place : Place) (x : Lexeme) : Place :=
  match place with
  | .opening | .value .. => begun x
  | .key k => .value k x.text
  | .literal c => .assigned c
  | .assigned c => .actions ⟨c, .ofList (x.text.drop 1).dropLast, .black, .none⟩
  | .actions d | .flags d =>
      match flag? x.terminal with
      | some flag => .flags { d with effects := d.effects.union flag }
      | none =>
          if x.terminal = .color then
            .flags { d with color := (Color.ofHex? (.ofList x.text)).getD .black }
          else begun x

/-- The item that is finished if nothing is added to it. -/
def item : Place → List Assignment × List Definition
  | .value k numeral => ([⟨k, numeral⟩], [])
  | .actions d | .flags d => ([], [d])
  | _ => ([], [])

/-- The item that is finished by a token, which belongs to the next one then. -/
def finished (place : Place) (t : Terminal) : List Assignment × List Definition :=
  match place with
  | .actions _ | .flags _ => if (flag? t).isSome ∨ t = .color then ([], []) else place.item
  | _ => place.item

end Place

section

variable {entry : Entry} {x : Lexeme} {ts : List Lexeme} {settings : List Assignment}
  {definitions : List Definition}

theorem sentence_cons_iff (hx : x.terminal.Matches x.text) :
    Sentence entry (x :: ts) settings definitions ↔
      Place.opens entry x.terminal = true ∧ Rest entry ts settings definitions (.begun x) := by
  rw [sentence_iff, setting_then_iff, definition_then_iff hx]
  simp only [← Key.ofTerminal?_eq_some_iff]
  cases hkey : Key.ofTerminal? x.terminal with
  | some key =>
      have hletter : x.terminal ≠ .letter := by
        intro h
        rw [h] at hkey
        cases hkey
      cases entry <;> simp [Place.opens, Place.begun, Rest, hkey, hletter]
  | none => cases entry <;> simp [Place.opens, Place.begun, Rest, hkey]

theorem not_sentence_nil (entry : Entry) (settings : List Assignment)
    (definitions : List Definition) : ¬ Sentence entry [] settings definitions := by
  rw [sentence_iff]
  rintro (⟨_, a, us, vs, heq, hrule, _⟩ | ⟨_, d, us, vs, heq, hrule, _⟩)
  · rw [(List.append_eq_nil_iff.1 heq.symm).1] at hrule
    cases hrule
  · rw [(List.append_eq_nil_iff.1 heq.symm).1] at hrule
    cases hrule

theorem follows_iff {t : Terminal} :
    Place.follows entry t = true ↔ entry = .config ∧ t = .letter := by
  simp [Place.follows]

/-- Within the flags there may be another one, or the next definition. -/
theorem rest_flags_cons_iff (hx : x.terminal.Matches x.text) {d : Definition} :
    Rest entry (x :: ts) settings definitions (.flags d) ↔
      (Place.flags d).accepts entry x.terminal = true ∧ ∃ moreSettings moreDefinitions,
        Rest entry ts moreSettings moreDefinitions ((Place.flags d).next x) ∧
          settings = ((Place.flags d).finished x.terminal).1 ++ moreSettings ∧
          definitions = ((Place.flags d).finished x.terminal).2 ++ moreDefinitions := by
  have hrest : Rest entry (x :: ts) settings definitions (.flags d) ↔
      AfterFlags entry (x :: ts) settings definitions d := Iff.rfl
  rw [hrest, afterFlags_cons_iff, afterDefinition_cons_iff hx]
  cases hflag : flag? x.terminal with
  | some flag =>
      have hfollows : Place.follows entry x.terminal = false := by
        rw [Bool.eq_false_iff]
        intro h
        rw [(follows_iff.1 h).2] at hflag
        cases hflag
      simp [Place.accepts, Place.next, Place.finished, hflag, hfollows, Rest]
  | none =>
      cases hfollows : Place.follows entry x.terminal with
      | false => simp [Place.accepts, hflag, hfollows]
      | true =>
          have hletter := (follows_iff.1 hfollows).2
          have hnext : (Place.flags d).next x = .literal (x.text.headD 'A') := by
            simp [Place.next, Place.begun, hletter, flag?, Key.ofTerminal?]
          have hfinished : (Place.flags d).finished x.terminal = ([], [d]) := by
            simp [Place.finished, Place.item, hletter, flag?]
          have haccepts : (Place.flags d).accepts entry x.terminal = true := by
            simp [Place.accepts, hfollows]
          rw [hnext, hfinished, haccepts]
          refine ⟨fun h => ?_, fun h => ?_⟩
          · obtain ⟨_, hnone, _⟩ | ⟨_, more, rfl, hafter⟩ := h
            · cases hnone
            · exact ⟨rfl, settings, more, hafter, rfl, rfl⟩
          · obtain ⟨_, _, more, hafter, rfl, rfl⟩ := h
            exact .inr ⟨rfl, more, rfl, hafter⟩

/-- A token continues the text where it is accepted, and what completes the text
behind it is what completes it at the next place. -/
theorem rest_cons_iff (hx : x.terminal.Matches x.text) {place : Place} :
    Rest entry (x :: ts) settings definitions place ↔
      place.accepts entry x.terminal = true ∧ ∃ moreSettings moreDefinitions,
        Rest entry ts moreSettings moreDefinitions (place.next x) ∧
          settings = (place.finished x.terminal).1 ++ moreSettings ∧
          definitions = (place.finished x.terminal).2 ++ moreDefinitions := by
  cases place with
  | opening =>
      simp [Rest, Place.accepts, Place.next, Place.finished, Place.item, sentence_cons_iff hx]
  | key k => simp [Rest, Place.accepts, Place.next, Place.finished, Place.item, afterKey_cons_iff]
  | value k numeral =>
      have hrest : Rest entry (x :: ts) settings definitions (.value k numeral) ↔
          AfterSetting entry (x :: ts) settings definitions ⟨k, numeral⟩ := Iff.rfl
      rw [hrest, afterSetting_cons_iff]
      simp only [sentence_cons_iff hx, Place.accepts, Bool.and_eq_true, decide_eq_true_eq]
      refine ⟨fun h => ?_, fun h => ?_⟩
      · obtain ⟨hentry, more, rfl, hopens, hmore⟩ := h
        exact ⟨⟨hentry, hopens⟩, more, definitions, hmore, rfl, rfl⟩
      · obtain ⟨⟨hentry, hopens⟩, more, _, hmore, rfl, rfl⟩ := h
        exact ⟨hentry, more, rfl, hopens, hmore⟩
  | literal c =>
      simp [Rest, Place.accepts, Place.next, Place.finished, Place.item, afterLetter_cons_iff]
  | assigned c =>
      simp [Rest, Place.accepts, Place.next, Place.finished, Place.item, afterEquals_cons_iff hx]
  | actions d =>
      have hrest : Rest entry (x :: ts) settings definitions (.actions d) ↔
          AfterActions entry (x :: ts) settings definitions d := Iff.rfl
      rw [hrest, afterActions_cons_iff]
      by_cases hcolor : x.terminal = .color
      · have hnone : ¬ AfterFlags entry (x :: ts) settings definitions d := by
          rw [afterFlags_cons_iff, afterDefinition_cons_iff hx]
          simp [hcolor, flag?, Place.follows]
        simp [hnone, colorRule_iff hx, hcolor, Place.accepts, Place.next, Place.finished, flag?,
          Rest]
      · have hflags : AfterFlags entry (x :: ts) settings definitions d ↔ _ :=
          rest_flags_cons_iff hx
        rw [hflags]
        simp [colorRule_iff hx, hcolor, Place.accepts, Place.next, Place.finished, Place.item]
  | flags d => exact rest_flags_cons_iff hx

theorem afterDefinition_nil_iff {d : Definition} :
    AfterDefinition entry [] settings definitions d ↔ settings = [] ∧ definitions = [d] := by
  cases entry <;> simp [AfterDefinition, star_nil_iff not_definitionRule_nil]

theorem afterFlags_nil_iff {d : Definition} :
    AfterFlags entry [] settings definitions d ↔ settings = [] ∧ definitions = [d] := by
  refine ⟨fun h => ?_, fun h => ?_⟩
  · obtain ⟨flags, us, vs, heq, hflags, hafter⟩ := h
    obtain ⟨rfl, rfl⟩ := List.append_eq_nil_iff.1 heq.symm
    rw [star_nil_iff not_flagRule_nil] at hflags
    subst hflags
    exact afterDefinition_nil_iff.1 hafter
  · exact ⟨[], [], [], rfl, .nil, afterDefinition_nil_iff.2 h⟩

theorem afterActions_nil_iff {d : Definition} :
    AfterActions entry [] settings definitions d ↔ settings = [] ∧ definitions = [d] := by
  refine ⟨fun h => ?_, fun h => ?_⟩
  · obtain ⟨color, us, vs, heq, hcolor, hafter⟩ := h
    obtain ⟨rfl, rfl⟩ := List.append_eq_nil_iff.1 heq.symm
    cases hcolor with
    | none => exact afterFlags_nil_iff.1 hafter
    | some hcolor => cases hcolor
  · exact ⟨none, [], [], rfl, .none, afterFlags_nil_iff.2 h⟩

/-- The end of the text completes it where it may come. -/
theorem rest_nil_iff {place : Place} :
    Rest entry [] settings definitions place ↔
      place.mayEnd entry = true ∧ settings = place.item.1 ∧ definitions = place.item.2 := by
  cases place with
  | opening => simp [Rest, not_sentence_nil, Place.mayEnd]
  | key k => simp [Rest, AfterKey, numberRule_iff, Place.mayEnd]
  | value k numeral =>
      cases entry with
      | config =>
          have hnone : ∀ more, ¬ ConfigRule [] more definitions :=
            fun more => not_sentence_nil .config more definitions
          simp [Rest, AfterSetting, Place.mayEnd, hnone]
      | setting => simp [Rest, AfterSetting, Place.mayEnd, Place.item]
      | definition => simp [Rest, AfterSetting, Place.mayEnd]
  | literal c => simp [Rest, AfterLetter, Place.mayEnd]
  | assigned c => simp [Rest, AfterEquals, Place.mayEnd]
  | actions d => simp [Rest, afterActions_nil_iff, Place.mayEnd, Place.item]
  | flags d => simp [Rest, afterFlags_nil_iff, Place.mayEnd, Place.item]

end

end Lindenmayer.Script
