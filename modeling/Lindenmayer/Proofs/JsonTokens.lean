import Lindenmayer.Json.Shape
import Lindenmayer.Proofs.Except

/-!
# The tokens of a document

A text is laid out freely: there may be white space between its tokens, and a
character of a string may be spelled as itself or by an escape. What is read does
not depend on either.

Readers take a token off the front of a text and go on with the rest. So each law
here is about a token with anything behind it. A string that is only skipped need
not spell characters: half of a surrogate pair is enough.
-/

namespace Lindenmayer.Json

open Text (hexValue? hexValue?_hexDigit byteLength)

/-! ## White space -/

/-- White space, or nothing at all. -/
def Blank (text : Input) : Prop := ∀ c ∈ text, isBlank c = true

theorem Blank.nil : Blank [] := by
  intro c hc
  cases hc

/-- What may follow a value: the end of the text, or a character that goes on with
no value. -/
def Stops : Input → Prop
  | [] => True
  | c :: _ => isBlank c = true ∨ c = ',' ∨ c = ']' ∨ c = '}'

/-- A text that does not begin with white space or a closing bracket. -/
def Starts : Input → Prop
  | [] => False
  | c :: _ => isBlank c = false ∧ c ≠ ']' ∧ c ≠ '}'

theorem Blank.stops_append {blank : Input} (h : Blank blank) {rest : Input} (hrest : Stops rest) :
    Stops (blank ++ rest) := by
  cases blank with
  | nil => exact hrest
  | cons c blank => exact Or.inl (h c List.mem_cons_self)

theorem Starts.append {text : Input} (h : Starts text) (rest : Input) : Starts (text ++ rest) := by
  cases text with
  | nil => cases h
  | cons c text => exact h

theorem Starts.length_pos {text : Input} (h : Starts text) : 0 < text.length := by
  cases text with
  | nil => cases h
  | cons c text => exact Nat.succ_pos _

theorem skipBlank_append {blank : Input} (h : Blank blank) (rest : Input) :
    skipBlank (blank ++ rest) = skipBlank rest :=
  List.dropWhile_append_of_pos h

@[simp] theorem skipBlank_cons {c : Char} (h : isBlank c = false) (rest : Input) :
    skipBlank (c :: rest) = c :: rest := by
  simp [skipBlank, h]

theorem Starts.skipBlank {text : Input} (h : Starts text) : skipBlank text = text := by
  cases text with
  | nil => cases h
  | cons c text => exact skipBlank_cons h.1 text

/-- Whatever starts a value, white space before it is skipped. -/
theorem Starts.skipBlank_append {text : Input} (h : Starts text) {blank : Input}
    (hblank : Blank blank) : Json.skipBlank (blank ++ text) = text := by
  rw [Json.skipBlank_append hblank, h.skipBlank]

theorem Blank.skipBlank {blank : Input} (h : Blank blank) : Json.skipBlank blank = [] := by
  rw [← List.append_nil blank, skipBlank_append h]
  rfl

theorem Stops.not_isDigit {c : Char} {rest : Input} (h : Stops (c :: rest)) :
    c.isDigit = false := by
  rcases h with h | rfl | rfl | rfl
  · simp only [isBlank, Bool.or_eq_true, decide_eq_true_eq] at h
    rcases h with ((rfl | rfl) | rfl) | rfl <;> rfl
  all_goals rfl

/-- What stops a number is none of the marks inside one. -/
theorem Stops.ne_cons {rest : Input} (h : Stops rest) {c : Char} (hc : c ∈ ['.', 'e', 'E'])
    (more : Input) : rest ≠ c :: more := by
  rintro rfl
  simp only [List.mem_cons, List.not_mem_nil, or_false] at hc
  rcases h with h | rfl | rfl | rfl
  · rcases hc with rfl | rfl | rfl <;> cases h
  all_goals rcases hc with h | h | h <;> cases h

/-! ## Lists

The parts of an array or an object stand between brackets and have commas between
them. A reader looks for what stands before a part and knows whether the part is the
first. -/

/-- What stands before a part of a list. -/
inductive Separator : (first : Bool) → Input → Prop
  | first {blank : Input} : Blank blank → Separator true blank
  | comma {before after : Input} : Blank before → Blank after →
      Separator false (before ++ ',' :: after)

/-- Parts of a list, each behind its separator. -/
inductive Chain : (first : Bool) → List Input → Input → Prop
  | nil {first : Bool} : Chain first [] []
  | cons {first : Bool} {separator part : Input} {parts : List Input} {text : Input} :
      Separator first separator → Chain false parts text →
      Chain first (part :: parts) (separator ++ (part ++ text))

/-- A list of the given parts in its brackets. -/
inductive Bracketed (opening : Char) (parts : List Input) (closing : Char) : Input → Prop
  | intro {text blank : Input} : Chain true parts text → Blank blank →
      Bracketed opening parts closing (opening :: (text ++ (blank ++ [closing])))

/-- What stands between a key and its value. -/
inductive Colon : Input → Prop
  | intro {before after : Input} : Blank before → Blank after → Colon (before ++ ':' :: after)

theorem Colon.exists_blanks {colon : Input} (h : Colon colon) :
    ∃ before after, Blank before ∧ Blank after ∧ colon = before ++ ':' :: after := by
  obtain ⟨hbefore, hafter⟩ := h
  exact ⟨_, _, hbefore, hafter, rfl⟩

theorem Separator.stops_append {separator : Input} (h : Separator false separator)
    (rest : Input) : Stops (separator ++ rest) := by
  cases h with
  | comma hbefore _ =>
      rw [List.append_assoc]
      exact hbefore.stops_append (Or.inr (Or.inl rfl))

theorem Separator.stops_of_eq_false {first : Bool} {separator : Input}
    (h : Separator first separator) (rest : Input) (hfirst : first = false) :
    Stops (separator ++ rest) := by
  subst hfirst
  exact h.stops_append rest

theorem Chain.stops_append {parts : List Input} {text : Input} (h : Chain false parts text)
    {rest : Input} (hrest : Stops rest) : Stops (text ++ rest) := by
  cases h with
  | nil => exact hrest
  | cons hsep _ =>
      rw [List.append_assoc]
      exact hsep.stops_append _

@[simp] theorem readWord_append (word rest : Input) : readWord word (word ++ rest) = .ok rest := by
  induction word with
  | nil => rfl
  | cons c word ih => rw [List.cons_append, readWord, if_pos rfl, ih]

/-! ## Strings -/

/-- Four hexadecimal digits and their value. -/
inductive HexDigits : Nat → Input → Prop
  | intro {a b c d : Char} {w x y z : Nat} : hexValue? a = some w → hexValue? b = some x →
      hexValue? c = some y → hexValue? d = some z →
      HexDigits (4096 * w + 256 * x + 16 * y + z) [a, b, c, d]

theorem HexDigits.readHex_append {n : Nat} {digits : Input} (h : HexDigits n digits)
    (rest : Input) : readHex (digits ++ rest) = .ok (n, rest) := by
  obtain ⟨ha, hb, hc, hd⟩ := h
  next a b c d w x y z =>
    have hlong : ¬ byteLength ((a :: b :: c :: d :: rest).take 4) < 4 := by
      have hpos := fun c : Char => c.utf8Size_pos
      simp only [List.take_succ_cons, List.take_zero, byteLength]
      have := hpos a; have := hpos b; have := hpos c; have := hpos d
      omega
    show readHex (a :: b :: c :: d :: rest) = _
    rw [readHex, if_neg hlong]
    simp only [ha, hb, hc, hd]

/-- How a character may be spelled in a string. -/
inductive Spelling : Char → Input → Prop
  | plain {c : Char} : 0x20 ≤ c.toNat → c ≠ '"' → c ≠ '\\' → Spelling c [c]
  | letter {l c : Char} : unescape? l = some c → Spelling c ['\\', l]
  | unit {n : Nat} {digits : Input} : HexDigits n digits → isHighSurrogate n = false →
      isLowSurrogate n = false → Spelling (.ofNat n) ('\\' :: 'u' :: digits)
  | pair {n m : Nat} {high low : Input} : HexDigits n high → HexDigits m low →
      isHighSurrogate n = true → isLowSurrogate m = true →
      Spelling (combine n m) ('\\' :: 'u' :: high ++ '\\' :: 'u' :: low)

/-- How characters may be spelled one behind another. -/
inductive Spells : List Char → Input → Prop
  | nil : Spells [] []
  | cons {c : Char} {cs : List Char} {text texts : Input} : Spelling c text → Spells cs texts →
      Spells (c :: cs) (text ++ texts)

/-- A string in its quotes. -/
inductive Quoted (cs : List Char) : Input → Prop
  | intro {body : Input} : Spells cs body → Quoted cs ('"' :: (body ++ ['"']))

theorem Quoted.starts {cs : List Char} {text : Input} (h : Quoted cs text) : Starts text := by
  obtain ⟨_⟩ := h
  exact ⟨rfl, by decide, by decide⟩

theorem not_isLowSurrogate_of_high {n : Nat} (h : isHighSurrogate n = true) :
    isLowSurrogate n = false := by
  simp only [isHighSurrogate, Bool.and_eq_true, decide_eq_true_eq] at h
  simp only [isLowSurrogate, Bool.and_eq_false_iff, decide_eq_false_iff_not]
  omega

theorem unescape?_ne_u {l : Char} (h : (unescape? l).isSome) : l ≠ 'u' := by
  rintro rfl
  cases h

theorem Spelling.readChar_append {c : Char} {text : Input} (h : Spelling c text) (rest : Input) :
    readChar (text ++ rest) = .ok (some c, rest) := by
  cases h with
  | plain hlow hquote hback =>
      rw [List.singleton_append, readChar.eq_def]
      split
      · next h => cases h
      · next h => injection h with h; exact absurd h hquote
      · next h => injection h with h; exact absurd h hback
      · next h =>
          injection h with hc hr
          subst hc hr
          rw [if_neg (by omega)]
  | @letter l c hl =>
      have hu : l ≠ 'u' := unescape?_ne_u (by rw [hl]; rfl)
      have hescape : readEscape (l :: rest) = .ok (c, rest) := by
        rw [readEscape.eq_def]
        split
        · next h => cases h
        · next h => injection h with h; exact absurd h hu
        · next h =>
            injection h with h hr
            subst h hr
            rw [hl]
      simp only [List.cons_append, List.nil_append, readChar, hescape]
      rfl
  | unit hdigits hhigh hlow =>
      simp only [List.cons_append, readChar, readEscape, readUnicodeEscape,
        hdigits.readHex_append, hhigh, hlow, bind, Except.bind]
      rfl
  | pair hn hm hhigh hlow =>
      have hn' := not_isLowSurrogate_of_high hhigh
      have hword : ∀ rest, readWord ['\\', 'u'] ('\\' :: 'u' :: rest) = .ok rest :=
        readWord_append ['\\', 'u']
      simp only [List.cons_append, List.append_assoc, readChar, readEscape, readUnicodeEscape,
        hn.readHex_append, hm.readHex_append, hword, hhigh, hn', hlow, bind, Except.bind,
        Bool.not_true, Bool.false_eq_true, if_false, if_true, pure, Except.pure]

theorem Spelling.text_ne_nil {c : Char} {text : Input} (h : Spelling c text) : text ≠ [] := by
  cases h <;> exact List.cons_ne_nil _ _

theorem Spells.length_le {cs : List Char} {body : Input} (h : Spells cs body) :
    cs.length ≤ body.length := by
  induction h with
  | nil => exact Nat.le_refl _
  | cons hc _ ih =>
      have := List.length_pos_of_ne_nil hc.text_ne_nil
      rw [List.length_cons, List.length_append]
      omega

theorem Spells.readChars_append {cs : List Char} {body : Input} (h : Spells cs body)
    (rest : Input) {fuel : Input} (hfuel : cs.length < fuel.length) :
    readChars fuel (body ++ '"' :: rest) = .ok (cs, rest) := by
  induction h generalizing fuel with
  | nil =>
      obtain ⟨f, fuel, rfl⟩ := List.exists_cons_of_length_pos hfuel
      rfl
  | cons hc _ ih =>
      obtain ⟨f, fuel, rfl⟩ := List.exists_cons_of_length_pos (Nat.zero_lt_of_lt hfuel)
      rw [readChars, List.append_assoc, hc.readChar_append]
      simp only [bind, Except.bind]
      rw [ih (Nat.lt_of_succ_lt_succ hfuel)]
      rfl

/-- What a string spells is what is read. -/
theorem Spells.readString_append {cs : List Char} {body : Input} (h : Spells cs body)
    (rest : Input) : readString (body ++ '"' :: rest) = .ok (.ofList cs, rest) := by
  have := h.length_le
  rw [readString, h.readChars_append rest (by rw [List.length_append, List.length_cons]; omega)]
  rfl

/-! ### The spelling that is written -/

theorem spelling_escape (c : Char) : Spelling c (escape c) := by
  rw [escape.eq_def]
  split
  case h_8 hquote hback _ _ _ _ _ =>
      split
      · next hlow =>
          have hhex : HexDigits c.toNat ['0', '0', Text.hexDigit (c.toNat / 16),
              Text.hexDigit c.toNat] := by
            have hzero : hexValue? '0' = some 0 := rfl
            have hval : 4096 * 0 + 256 * 0 + 16 * (c.toNat / 16 % 16) + c.toNat % 16 = c.toNat := by
              omega
            have := HexDigits.intro hzero hzero (hexValue?_hexDigit (c.toNat / 16))
              (hexValue?_hexDigit c.toNat)
            rwa [hval] at this
          have := Spelling.unit hhex
            (by simp only [isHighSurrogate, Bool.and_eq_false_iff, decide_eq_false_iff_not]; omega)
            (by simp only [isLowSurrogate, Bool.and_eq_false_iff, decide_eq_false_iff_not]; omega)
          rwa [Char.ofNat_toNat] at this
      · next hlow => exact Spelling.plain (by omega) hquote hback
  all_goals exact Spelling.letter rfl

theorem spells_escape (cs : List Char) : Spells cs (cs.flatMap escape) := by
  induction cs with
  | nil => exact Spells.nil
  | cons c cs ih =>
      rw [List.flatMap_cons]
      exact Spells.cons (spelling_escape c) ih

theorem quoted_quote (s : String) : Quoted s.toList (quote s).toList := by
  rw [quote, String.toList_ofList]
  exact Quoted.intro (spells_escape s.toList)

/-! ### Strings that are skipped -/

/-- A piece of a well-formed string. It need not be a character. -/
inductive Fragment : Input → Prop
  | plain {c : Char} : 0x20 ≤ c.toNat → c ≠ '"' → c ≠ '\\' → Fragment [c]
  | letter {l : Char} : (unescape? l).isSome → Fragment ['\\', l]
  | unit {n : Nat} {digits : Input} : HexDigits n digits → Fragment ('\\' :: 'u' :: digits)

/-- A well-formed string in its quotes. -/
inductive StringText : Input → Prop
  | intro {fragments : List Input} : (∀ f ∈ fragments, Fragment f) →
      StringText ('"' :: (fragments.flatten ++ ['"']))

theorem StringText.exists_fragments {text : Input} (h : StringText text) :
    ∃ fragments : List Input, (∀ f ∈ fragments, Fragment f) ∧
      text = '"' :: (fragments.flatten ++ ['"']) := by
  obtain ⟨hfragments⟩ := h
  exact ⟨_, hfragments, rfl⟩

theorem Fragment.skipChar_append {text : Input} (h : Fragment text) (rest : Input) :
    skipChar (text ++ rest) = .ok (false, rest) := by
  cases h with
  | plain hlow hquote hback =>
      rw [List.singleton_append, skipChar.eq_def]
      split
      · next h => cases h
      · next h => injection h with h; exact absurd h hquote
      · next h => injection h with h; exact absurd h hback
      · next h =>
          injection h with hc hr
          subst hc hr
          rw [if_neg (by omega)]
  | @letter l hl =>
      have hu : l ≠ 'u' := unescape?_ne_u hl
      rw [List.cons_append, List.singleton_append, skipChar.eq_def]
      simp only
      exact if_pos hl
  | unit hdigits =>
      simp only [List.cons_append, skipChar, hdigits.readHex_append, bind, Except.bind]
      rfl

theorem Fragment.text_ne_nil {text : Input} (h : Fragment text) : text ≠ [] := by
  cases h <;> exact List.cons_ne_nil _ _

theorem skipChars_append {fragments : List Input} (h : ∀ f ∈ fragments, Fragment f)
    (rest : Input) {fuel : Input} (hfuel : fragments.length < fuel.length) :
    skipChars fuel (fragments.flatten ++ '"' :: rest) = .ok rest := by
  induction fragments generalizing fuel with
  | nil =>
      obtain ⟨f, fuel, rfl⟩ := List.exists_cons_of_length_pos hfuel
      rfl
  | cons text fragments ih =>
      obtain ⟨f, fuel, rfl⟩ := List.exists_cons_of_length_pos (Nat.zero_lt_of_lt hfuel)
      rw [skipChars, List.flatten_cons, List.append_assoc,
        (h text List.mem_cons_self).skipChar_append]
      exact ih (fun f hf => h f (List.mem_cons_of_mem _ hf)) (Nat.lt_of_succ_lt_succ hfuel)

theorem length_le_flatten {fragments : List Input} (h : ∀ f ∈ fragments, Fragment f) :
    fragments.length ≤ fragments.flatten.length := by
  induction fragments with
  | nil => exact Nat.le_refl _
  | cons text fragments ih =>
      have := List.length_pos_of_ne_nil (h text List.mem_cons_self).text_ne_nil
      have := ih fun f hf => h f (List.mem_cons_of_mem _ hf)
      rw [List.flatten_cons, List.length_append, List.length_cons]
      omega

theorem skipString_append {fragments : List Input} (h : ∀ f ∈ fragments, Fragment f)
    (rest : Input) : skipString (fragments.flatten ++ '"' :: rest) = .ok rest := by
  have := length_le_flatten h
  exact skipChars_append h rest (by rw [List.length_append, List.length_cons]; omega)

end Lindenmayer.Json
