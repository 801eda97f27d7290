import Lindenmayer.Proofs.JsonTokens

/-!
# Well-formed values are skipped

A member with an unknown name may have any value. It is read past without recursion:
a stack keeps the brackets that are open, and a run goes through the values between
them one after another.

So the law of a value cannot say that skipping it leaves what stands behind it, for
in the middle of a run there is no such point. It says that the run goes on behind
the value, with the brackets that were open before it. For a scalar that is one step
of the run. For a list it follows by induction on its parts: an opening bracket is
put on the stack, every part is gone through with it there, and the closing bracket
takes it off again.
-/

namespace Lindenmayer.Json

/-! ## The grammar -/

/-- Decimal digits, or nothing at all. -/
def Digits (text : Input) : Prop := ∀ c ∈ text, c.isDigit = true

inductive WholeText : Input → Prop
  | zero : WholeText ['0']
  | digits {d : Char} {ds : Input} : d.isDigit = true → d ≠ '0' → Digits ds → WholeText (d :: ds)

inductive FractionText : Input → Prop
  | absent : FractionText []
  | digits {d : Char} {ds : Input} : d.isDigit = true → Digits ds → FractionText ('.' :: d :: ds)

inductive ExponentText : Input → Prop
  | absent : ExponentText []
  | digits {e : Char} {sign : Input} {d : Char} {ds : Input} : e = 'e' ∨ e = 'E' →
      sign ∈ [[], ['+'], ['-']] → d.isDigit = true → Digits ds →
      ExponentText (e :: (sign ++ d :: ds))

/-- A number of any size. -/
inductive NumberText : Input → Prop
  | intro {sign whole fraction exponent : Input} : sign ∈ [[], ['-']] → WholeText whole →
      FractionText fraction → ExponentText exponent →
      NumberText (sign ++ (whole ++ (fraction ++ exponent)))

/-- A member of an object as it is written. -/
structure Pair where
  key : Input
  colon : Input
  value : Input

def Pair.text (p : Pair) : Input := p.key ++ (p.colon ++ p.value)

/-- The texts of values: any numbers, any strings, and lists of any depth. -/
inductive WellFormed : Input → Prop
  | word {text : Input} : text ∈ ["null".toList, "true".toList, "false".toList] → WellFormed text
  | number {text : Input} : NumberText text → WellFormed text
  | string {text : Input} : StringText text → WellFormed text
  | array {parts : List Input} {text : Input} : (∀ p ∈ parts, WellFormed p) →
      Bracketed '[' parts ']' text → WellFormed text
  | object {pairs : List Pair} {text : Input} : (∀ p ∈ pairs, StringText p.key ∧ Colon p.colon) →
      (∀ p ∈ pairs, WellFormed p.value) → Bracketed '{' (pairs.map Pair.text) '}' text →
      WellFormed text

/-! ## Scalars -/

/-- A text in which no more digits follow. -/
def NoDigit : Input → Prop
  | [] => True
  | c :: _ => c.isDigit = false

theorem Stops.noDigit {text : Input} (h : Stops text) : NoDigit text := by
  cases text with
  | nil => trivial
  | cons c text => exact h.not_isDigit

theorem Digits.dropWhile_append {ds : Input} (h : Digits ds) {rest : Input} (hrest : NoDigit rest) :
    (ds ++ rest).dropWhile Char.isDigit = rest := by
  rw [List.dropWhile_append_of_pos h]
  cases rest with
  | nil => rfl
  | cons c rest => exact List.dropWhile_cons_of_neg (by rw [hrest]; decide)

variable {rest : Input}

theorem ExponentText.noDigit {text : Input} (h : ExponentText text) (hrest : Stops rest) :
    NoDigit (text ++ rest) := by
  cases h with
  | absent => exact hrest.noDigit
  | digits he => rcases he with rfl | rfl <;> rfl

theorem FractionText.noDigit {text : Input} (h : FractionText text) {more : Input}
    (hmore : NoDigit more) : NoDigit (text ++ more) := by
  cases h with
  | absent => exact hmore
  | digits => rfl

theorem skipExponent_append {sign : Input} (hsign : sign ∈ [[], ['+'], ['-']]) {d : Char}
    (hd : d.isDigit = true) {ds : Input} (hds : Digits ds) (hrest : Stops rest) :
    skipExponent (sign ++ d :: (ds ++ rest)) = .ok rest := by
  have hdrop : (d :: (ds ++ rest)).dropWhile Char.isDigit = rest := by
    rw [List.dropWhile_cons_of_pos hd, hds.dropWhile_append hrest.noDigit]
  have hplus : d ≠ '+' := by rintro rfl; cases hd
  have hminus : d ≠ '-' := by rintro rfl; cases hd
  simp only [List.mem_cons, List.not_mem_nil, or_false] at hsign
  rcases hsign with rfl | rfl | rfl
  all_goals simp [skipExponent, hd, hdrop, hplus, hminus]

theorem ExponentText.skipScale_append {text : Input} (h : ExponentText text)
    (hrest : Stops rest) : skipScale (text ++ rest) = .ok rest := by
  cases h with
  | absent =>
      rw [List.nil_append, skipScale.eq_def]
      split
      · exact absurd rfl (hrest.ne_cons (by decide) _)
      · exact absurd rfl (hrest.ne_cons (by decide) _)
      · rfl
  | digits he hsign hd hds =>
      rw [List.cons_append, List.append_assoc, List.cons_append]
      rcases he with rfl | rfl
      all_goals exact skipExponent_append hsign hd hds hrest

theorem FractionText.skipFraction_append {fraction : Input} (h : FractionText fraction)
    {exponent : Input} (hexp : ExponentText exponent) (hrest : Stops rest) :
    skipFraction (fraction ++ (exponent ++ rest)) = .ok rest := by
  have hdigit := hexp.noDigit hrest
  cases h with
  | absent =>
      rw [List.nil_append, skipFraction.eq_def]
      split
      case h_3 => exact hexp.skipScale_append hrest
      all_goals
        next heq =>
          exfalso
          cases hexp with
          | absent =>
              rw [List.nil_append] at heq
              exact hrest.ne_cons (by decide) _ heq
          | digits he =>
              injection heq with hc
              rcases he with rfl | rfl <;> cases hc
  | digits hd hds =>
      simp only [List.cons_append, skipFraction, hd, if_true, hds.dropWhile_append hdigit,
        hexp.skipScale_append hrest]

theorem skipNumber_append {whole fraction exponent : Input} (hwhole : WholeText whole)
    (hfraction : FractionText fraction) (hexp : ExponentText exponent) (hrest : Stops rest) :
    skipNumber (whole ++ (fraction ++ (exponent ++ rest))) = .ok rest := by
  have hskip := hfraction.skipFraction_append hexp hrest
  have hdigit := hfraction.noDigit (hexp.noDigit hrest)
  cases hwhole with
  | zero =>
      rw [List.singleton_append, skipNumber.eq_def]
      generalize fraction ++ (exponent ++ rest) = more at hskip hdigit
      cases more with
      | nil => cases hskip; rfl
      | cons c more =>
          simp only [NoDigit] at hdigit
          simpa [hdigit] using hskip
  | digits hd hzero hds =>
      rw [List.cons_append, skipNumber.eq_def]
      split
      · next h => injection h with h; exact absurd h hzero
      · next h =>
          injection h with hc hr
          subst hc hr
          rw [if_pos hd, hds.dropWhile_append hdigit, hskip]
      · next h => cases h

theorem WholeText.head {whole : Input} (h : WholeText whole) :
    ∃ d ds, whole = d :: ds ∧ d.isDigit = true := by
  cases h with
  | zero => exact ⟨_, _, rfl, rfl⟩
  | digits hd => exact ⟨_, _, rfl, hd⟩

theorem starts_digit {d : Char} (hd : d.isDigit = true) (ds : Input) : Starts (d :: ds) := by
  refine ⟨Bool.eq_false_iff.2 fun h => ?_, ?_, ?_⟩
  · have hstops : Stops (d :: ds) := Or.inl h
    have := hstops.not_isDigit
    rw [hd] at this
    cases this
  · rintro rfl; cases hd
  · rintro rfl; cases hd

theorem WellFormed.starts {text : Input} (h : WellFormed text) : Starts text := by
  cases h with
  | word hmem =>
      simp only [List.mem_cons, List.not_mem_nil, or_false] at hmem
      rcases hmem with rfl | rfl | rfl <;> exact ⟨rfl, by decide, by decide⟩
  | number h =>
      obtain ⟨hsign, hwhole, _, _⟩ := h
      obtain ⟨d, ds, rfl, hd⟩ := hwhole.head
      simp only [List.mem_cons, List.not_mem_nil, or_false] at hsign
      rcases hsign with rfl | rfl
      · exact starts_digit hd _
      · exact ⟨rfl, by decide, by decide⟩
  | string h =>
      obtain ⟨_⟩ := h
      exact ⟨rfl, by decide, by decide⟩
  | array _ h => obtain ⟨_, _⟩ := h; exact ⟨rfl, by decide, by decide⟩
  | object _ _ h => obtain ⟨_, _⟩ := h; exact ⟨rfl, by decide, by decide⟩

theorem skipScalar_word {text : Input} (h : text ∈ ["null".toList, "true".toList, "false".toList])
    (rest : Input) : skipScalar (text ++ rest) = .ok (none, rest) := by
  simp only [List.mem_cons, List.not_mem_nil, or_false] at h
  rcases h with rfl | rfl | rfl
  · show ((do return (none, ← readWord ['u', 'l', 'l'] (['u', 'l', 'l'] ++ rest)) :
      Except Fault (Option Bracket × Input))) = _
    rw [readWord_append]
    rfl
  · show ((do return (none, ← readWord ['r', 'u', 'e'] (['r', 'u', 'e'] ++ rest)) :
      Except Fault (Option Bracket × Input))) = _
    rw [readWord_append]
    rfl
  · show ((do return (none, ← readWord ['a', 'l', 's', 'e'] (['a', 'l', 's', 'e'] ++ rest)) :
      Except Fault (Option Bracket × Input))) = _
    rw [readWord_append]
    rfl

theorem skipScalar_string {text : Input} (h : StringText text) (rest : Input) :
    skipScalar (text ++ rest) = .ok (none, rest) := by
  obtain ⟨fragments, hfragments, rfl⟩ := h.exists_fragments
  simp only [List.cons_append, List.append_assoc, List.nil_append]
  show ((do return (none, ← skipString (fragments.flatten ++ '"' :: rest)) :
    Except Fault (Option Bracket × Input))) = _
  rw [skipString_append hfragments]
  rfl

theorem skipScalar_digit {d : Char} (hd : d.isDigit = true) (ds : Input) :
    skipScalar (d :: ds) = do return (none, ← skipNumber (d :: ds)) := by
  have hne : ∀ c, c.isDigit = false → d ≠ c := by
    rintro c hc rfl
    rw [hd] at hc
    cases hc
  rw [skipScalar, (starts_digit hd ds).skipBlank]
  split
  case h_9 heq =>
      injection heq with hc hr
      subst hc hr
      rw [if_pos hd]
  case h_1 heq => cases heq
  all_goals
    next heq =>
      injection heq with hc
      exact absurd hc (hne _ rfl)

theorem skipScalar_number {text : Input} (h : NumberText text) (hrest : Stops rest) :
    skipScalar (text ++ rest) = .ok (none, rest) := by
  obtain ⟨hsign, hwhole, hfraction, hexp⟩ := h
  next sign whole fraction exponent =>
    have hnumber := skipNumber_append hwhole hfraction hexp hrest
    simp only [List.append_assoc]
    simp only [List.mem_cons, List.not_mem_nil, or_false] at hsign
    rcases hsign with rfl | rfl
    · obtain ⟨d, ds, rfl, hd⟩ := hwhole.head
      rw [List.nil_append, List.cons_append, skipScalar_digit hd]
      rw [List.cons_append] at hnumber
      rw [hnumber]
      rfl
    · show ((do return (none, ← skipNumber (whole ++ (fraction ++ (exponent ++ rest)))) :
        Except Fault (Option Bracket × Input))) = _
      rw [hnumber]
      rfl

/-! ## The run -/

/-- Goes on inside open brackets, behind a value or behind the last of the brackets. -/
def resume (fuel : Input) (stack : List Bracket) (first : Bool) (input : Input) :
    Except Fault Input := do
  let (stack, rest) ← skipClosing stack first input
  if stack.isEmpty then return rest else skipWithin fuel stack rest

/-- The run goes on behind the text with the brackets that were open before it. -/
def Skips (text : Input) : Prop :=
  ∀ (fuel : Input) (stack : List Bracket) (rest : Input), Stops rest →
    text.length + rest.length ≤ fuel.length →
    ∃ fuel', rest.length ≤ fuel'.length ∧
      skipWithin fuel stack (text ++ rest) = resume fuel' stack false rest

theorem skipScalar_blank {blank : Input} (h : Blank blank) (input : Input) :
    skipScalar (blank ++ input) = skipScalar input := by
  rw [skipScalar, skipScalar, skipBlank_append h]

theorem skipWithin_blank {blank : Input} (h : Blank blank) (fuel : Input)
    (stack : List Bracket) (input : Input) :
    skipWithin fuel stack (blank ++ input) = skipWithin fuel stack input := by
  cases fuel with
  | nil => rfl
  | cons f fuel => rw [skipWithin, skipWithin, skipScalar_blank h]

theorem skipWithin_scalar {input : Input} (h : skipScalar input = .ok (none, rest)) (f : Char)
    (fuel : Input) (stack : List Bracket) :
    skipWithin (f :: fuel) stack input = resume fuel stack false rest := by
  rw [skipWithin, h]
  rfl

theorem skipWithin_bracket {input : Input} {bracket : Bracket}
    (h : skipScalar input = .ok (some bracket, rest)) (f : Char) (fuel : Input)
    (stack : List Bracket) :
    skipWithin (f :: fuel) stack input = resume fuel (bracket :: stack) true rest := by
  rw [skipWithin, h]
  rfl

theorem skips_scalar {text : Input} (hne : text ≠ [])
    (h : ∀ rest, Stops rest → skipScalar (text ++ rest) = .ok (none, rest)) : Skips text := by
  intro fuel stack rest hrest hfuel
  have hpos := List.length_pos_of_ne_nil hne
  obtain ⟨f, fuel, rfl⟩ := List.exists_cons_of_length_pos (by omega : 0 < fuel.length)
  exact ⟨fuel, by rw [List.length_cons] at hfuel; omega,
    skipWithin_scalar (h rest hrest) f fuel stack⟩

/-! ### Lists -/

/-- The character that closes a bracket. -/
def Bracket.closing : Bracket → Char
  | .square => ']'
  | .curly => '}'

theorem skipClosing_closing (bracket : Bracket) (stack : List Bracket) (first : Bool)
    {blank : Input} (h : Blank blank) (rest : Input) :
    skipClosing (bracket :: stack) first (blank ++ bracket.closing :: rest) =
      skipClosing stack false rest := by
  have hblank : skipBlank (blank ++ bracket.closing :: rest) = bracket.closing :: rest := by
    rw [skipBlank_append h, skipBlank_cons (by cases bracket <;> rfl)]
  rw [skipClosing.eq_def]
  simp only [hblank]
  cases bracket <;> rfl

/-- Before a part, the run moves to the part: at once if it is the first, and past a
comma otherwise. -/
theorem skipClosing_separator {first : Bool} {separator : Input} (h : Separator first separator)
    {part : Input} (hpart : Starts part) (bracket : Bracket) (stack : List Bracket) :
    ∃ blank, Blank blank ∧ skipClosing (bracket :: stack) first (separator ++ part) =
      enterBracket bracket stack (blank ++ part) := by
  cases h with
  | first hblank =>
      refine ⟨[], Blank.nil, ?_⟩
      obtain ⟨c, cs, rfl⟩ : ∃ c cs, part = c :: cs := by
        cases part with
        | nil => cases hpart
        | cons c cs => exact ⟨c, cs, rfl⟩
      rw [skipClosing.eq_def]
      simp only [hpart.skipBlank_append hblank]
      split
      · next h => cases h
      · next h => injection h with h; exact absurd h hpart.2.1
      · next h => injection h with h; exact absurd h hpart.2.2
      · next h _ _ =>
          injection h with hc hr
          subst hc hr
          rfl
  | @comma before after hbefore hafter =>
      refine ⟨after, hafter, ?_⟩
      have hcomma : skipBlank (before ++ ',' :: after ++ part) = ',' :: (after ++ part) := by
        rw [List.append_assoc, skipBlank_append hbefore]
        rfl
      rw [skipClosing.eq_def]
      simp only [hcomma]
      cases bracket <;> rfl

/-- A part that leads to a value inside the bracket. -/
structure Enters (bracket : Bracket) (part value : Input) : Prop where
  starts : Starts part
  length_le : value.length ≤ part.length
  enter : ∀ {blank : Input}, Blank blank → ∀ (stack : List Bracket) (rest : Input),
    ∃ gap, Blank gap ∧ enterBracket bracket stack (blank ++ (part ++ rest)) =
      .ok (bracket :: stack, gap ++ (value ++ rest))

theorem resume_chain {bracket : Bracket} {first : Bool} {parts : List Input} {text : Input}
    (h : Chain first parts text)
    (hparts : ∀ p ∈ parts, ∃ value, Enters bracket p value ∧ Skips value) (stack : List Bracket)
    (hrest : Stops rest) (fuel : Input) (hfuel : text.length + rest.length ≤ fuel.length) :
    ∃ first' fuel', rest.length ≤ fuel'.length ∧
      resume fuel (bracket :: stack) first (text ++ rest) =
        resume fuel' (bracket :: stack) first' rest := by
  induction h generalizing fuel with
  | @nil first => exact ⟨first, fuel, by simpa using hfuel, rfl⟩
  | @cons first separator part parts text hsep htext ih =>
      obtain ⟨value, henters, hskips⟩ := hparts part List.mem_cons_self
      have hlength := henters.length_le
      simp only [List.length_append] at hfuel
      obtain ⟨blank, hblank, hclosing⟩ :=
        skipClosing_separator hsep (henters.starts.append (text ++ rest)) bracket stack
      obtain ⟨gap, hgap, henter⟩ := henters.enter hblank stack (text ++ rest)
      have hstops : Stops (text ++ rest) := htext.stops_append hrest
      obtain ⟨fuel₁, hfuel₁, hvalue⟩ := hskips fuel (bracket :: stack) (text ++ rest) hstops
        (by rw [List.length_append]; omega)
      obtain ⟨first', fuel', hfuel', hrun⟩ :=
        ih (fun p hp => hparts p (List.mem_cons_of_mem _ hp)) fuel₁ (by simpa using hfuel₁)
      refine ⟨first', fuel', hfuel', ?_⟩
      calc resume fuel (bracket :: stack) first (separator ++ (part ++ text) ++ rest)
          = skipWithin fuel (bracket :: stack) (gap ++ (value ++ (text ++ rest))) := by
            rw [resume, List.append_assoc, List.append_assoc, hclosing, henter]
            rfl
        _ = resume fuel₁ (bracket :: stack) false (text ++ rest) := by
            rw [skipWithin_blank hgap, hvalue]
        _ = resume fuel' (bracket :: stack) first' rest := hrun

theorem skips_bracketed (bracket : Bracket) {opening : Char}
    (hopen : ∀ rest, skipScalar (opening :: rest) = .ok (some bracket, rest)) {parts : List Input}
    {text : Input} (h : Bracketed opening parts bracket.closing text)
    (hparts : ∀ p ∈ parts, ∃ value, Enters bracket p value ∧ Skips value) : Skips text := by
  obtain ⟨hchain, hblank⟩ := h
  next body blank =>
    intro fuel stack rest hrest hfuel
    simp only [List.length_cons, List.length_append, List.length_nil] at hfuel
    obtain ⟨f, fuel, rfl⟩ := List.exists_cons_of_length_pos (by omega : 0 < fuel.length)
    have hstops : Stops (blank ++ bracket.closing :: rest) := by
      refine hblank.stops_append ?_
      cases bracket
      · exact Or.inr (Or.inr (Or.inl rfl))
      · exact Or.inr (Or.inr (Or.inr rfl))
    obtain ⟨first', fuel', hfuel', hrun⟩ := resume_chain hchain hparts stack hstops fuel
      (by simp only [List.length_cons, List.length_append] at hfuel ⊢; omega)
    refine ⟨fuel', ?_, ?_⟩
    · simp only [List.length_cons, List.length_append] at hfuel'
      omega
    · simp only [List.cons_append, List.append_assoc, List.nil_append]
      rw [skipWithin_bracket (hopen _), hrun, resume, resume, skipClosing_closing _ _ _ hblank]

theorem enters_square {text : Input} (h : Starts text) : Enters .square text text where
  starts := h
  length_le := Nat.le_refl _
  enter hblank _ _ := ⟨_, hblank, rfl⟩

theorem skipKey_append {key : Input} (hkey : StringText key) {colon : Input}
    (hcolon : Colon colon) {blank : Input} (hblank : Blank blank) (value : Input) :
    ∃ gap, Blank gap ∧ skipKey (blank ++ (key ++ (colon ++ value))) = .ok (gap ++ value) := by
  obtain ⟨fragments, hfragments, rfl⟩ := hkey.exists_fragments
  obtain ⟨before, after, hbefore, hafter, rfl⟩ := hcolon.exists_blanks
  have hquote : skipBlank (blank ++ '"' :: (fragments.flatten ++ '"' :: (before ++ ':' ::
      (after ++ value)))) = '"' :: (fragments.flatten ++ '"' :: (before ++ ':' ::
      (after ++ value))) := by
    rw [skipBlank_append hblank]
    rfl
  have hcolon : skipBlank (before ++ ':' :: (after ++ value)) = ':' :: (after ++ value) := by
    rw [skipBlank_append hbefore]
    rfl
  refine ⟨after, hafter, ?_⟩
  simp only [List.append_assoc, List.cons_append, List.nil_append]
  simp only [skipKey, hquote, skipString_append hfragments, bind, Except.bind, hcolon]
  rfl

theorem enters_curly {p : Pair} (hkey : StringText p.key) (hcolon : Colon p.colon) :
    Enters .curly p.text p.value where
  starts := by
    obtain ⟨fragments, _, hp⟩ := hkey.exists_fragments
    rw [Pair.text, hp]
    exact ⟨rfl, by decide, by decide⟩
  length_le := by
    rw [Pair.text]
    simp only [List.length_append]
    omega
  enter := by
    intro blank hblank stack rest
    obtain ⟨gap, hgap, hskip⟩ := skipKey_append hkey hcolon hblank (p.value ++ rest)
    refine ⟨gap, hgap, ?_⟩
    rw [Pair.text, List.append_assoc, List.append_assoc, enterBracket, hskip]
    rfl

theorem WellFormed.skips {text : Input} (h : WellFormed text) : Skips text := by
  induction h with
  | word hmem =>
      refine skips_scalar ?_ fun rest _ => skipScalar_word hmem rest
      rintro rfl
      exact absurd hmem (by decide)
  | @number text h =>
      refine skips_scalar ?_ fun rest hrest => skipScalar_number h hrest
      rintro rfl
      exact (WellFormed.number h).starts
  | @string text h =>
      refine skips_scalar ?_ fun rest _ => skipScalar_string h rest
      rintro rfl
      exact (WellFormed.string h).starts
  | array hparts h ih =>
      exact skips_bracketed .square (fun _ => rfl) h fun p hp =>
        ⟨p, enters_square (hparts p hp).starts, ih p hp⟩
  | object hkeys hvalues h ih =>
      refine skips_bracketed .curly (fun _ => rfl) h fun t ht => ?_
      obtain ⟨p, hp, rfl⟩ := List.mem_map.1 ht
      exact ⟨p.value, enters_curly (hkeys p hp).1 (hkeys p hp).2, ih p hp⟩

/-- A well-formed value is skipped, and nothing behind it. -/
theorem WellFormed.skipValue_append {text : Input} (h : WellFormed text) {blank : Input}
    (hblank : Blank blank) (hrest : Stops rest) :
    skipValue (blank ++ (text ++ rest)) = .ok rest := by
  obtain ⟨fuel, _, hskip⟩ := h.skips (blank ++ (text ++ rest)) [] rest hrest
    (by simp only [List.length_append]; omega)
  rw [skipValue, skipWithin_blank hblank, hskip]
  rfl

end Lindenmayer.Json
