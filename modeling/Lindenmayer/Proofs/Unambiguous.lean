import Lindenmayer.Proofs.JsonForms

/-!
# A value can be told from its text

Two values whose numbers are finite have different texts in the compact form if they are
different. Parts of a list stand in the middle of a text, so the law is about texts with
anything behind them that stops a value: where two such texts agree, the values are the
same and so is what stands behind them. It is proved by induction on the value.

Words and numbers have no closing mark. They go as far as there are characters of words and
numbers. A string ends at a quote that is not escaped, a list at its bracket, and no part
of a list starts with that bracket.

Numbers that are not finite have to be left out. They are written as `null` is.
-/

namespace Lindenmayer.Json

variable {v w : Json} {text text' rest rest' : Input}

/-! ## Words and numbers -/

/-- Values that are written as words. -/
inductive Word : Json → Prop
  | null : Word .null
  | bool (b : Bool) : Word (.bool b)

/-- Numbers that are written with digits. -/
inductive Numeral : Json → Prop
  | natural (n : Nat) : Numeral (.natural n)
  | number {x : Float} : x.isFinite = true → Numeral (.number x)

inductive Scalar : Json → Prop
  | word {v : Json} : Word v → Scalar v
  | numeral {v : Json} : Numeral v → Scalar v

theorem Word.plain (h : Word v) : Plain (compactText v) := by
  cases h with
  | null => exact plain_of_all rfl
  | bool b => cases b <;> exact plain_of_all rfl

theorem Numeral.numberText (h : Numeral v) : NumberText (compactText v) := by
  cases h with
  | natural n =>
      rw [compactText_natural]
      exact numberText_natural n
  | number hx =>
      rw [compactText_number]
      exact numberText_number hx

theorem Scalar.plain (h : Scalar v) : Plain (compactText v) := by
  cases h with
  | word h => exact h.plain
  | numeral h => exact h.numberText.plain

theorem Word.head (h : Word v) : ∃ c cs, compactText v = c :: cs ∧ c ∈ ['n', 't', 'f'] := by
  cases h with
  | null => exact ⟨_, _, rfl, by decide⟩
  | bool b => cases b <;> exact ⟨_, _, rfl, by decide⟩

theorem NumberText.head (h : NumberText text) :
    ∃ c cs, text = c :: cs ∧ (c = '-' ∨ c.isDigit = true) := by
  obtain ⟨hsign, hwhole, -, -⟩ := h
  obtain ⟨c, cs, rfl, hc⟩ := hwhole.head
  rw [List.mem_cons, List.mem_singleton] at hsign
  obtain rfl | rfl := hsign
  · exact ⟨_, _, rfl, .inr hc⟩
  · exact ⟨_, _, rfl, .inl rfl⟩

theorem Scalar.head (h : Scalar v) : ∃ c cs, compactText v = c :: cs ∧ isPlain c = true := by
  have hplain := h.plain
  have hcons : ∃ c cs, compactText v = c :: cs := by
    cases h with
    | word h =>
        obtain ⟨c, cs, hcons, -⟩ := h.head
        exact ⟨c, cs, hcons⟩
    | numeral h =>
        obtain ⟨c, cs, hcons, -⟩ := h.numberText.head
        exact ⟨c, cs, hcons⟩
  obtain ⟨c, cs, hcons⟩ := hcons
  exact ⟨c, cs, hcons, hplain c (by rw [hcons]; exact List.mem_cons_self)⟩

theorem Word.injective (hv : Word v) (hw : Word w) (h : compactText v = compactText w) :
    v = w := by
  cases hv with
  | null =>
      cases hw with
      | null => rfl
      | bool b => cases b <;> cases h
  | bool b =>
      cases hw with
      | null => cases b <;> cases h
      | bool b' =>
          rw [Json.bool.injEq]
          rcases b.eq_or_eq_not b' with hsame | rfl
          · exact hsame
          · cases b' <;> cases h

theorem digits_natural (n : Nat) : Digits n.repr.toList := by
  rw [Nat.toList_repr]
  exact digits_toDigits n

/-- A number that is not natural shows it. -/
theorem not_digits_number {x : Float} (hx : x.isFinite = true) :
    ¬ Digits (numberLayout.text x).toList := by
  obtain ⟨sign, body, htext, hbody, -⟩ := exists_body hx
  rw [htext]
  exact fun h => hbody.not_digits fun c hc => h c (List.mem_append_right _ hc)

theorem Numeral.injective (hv : Numeral v) (hw : Numeral w)
    (h : compactText v = compactText w) : v = w := by
  cases hv with
  | natural n =>
      cases hw with
      | natural m =>
          rw [compactText_natural, compactText_natural, Nat.toList_repr, Nat.toList_repr] at h
          rw [← digitsValue_toDigits n, h, digitsValue_toDigits]
      | number hy =>
          rw [compactText_natural, compactText_number] at h
          exact absurd (h ▸ digits_natural n) (not_digits_number hy)
  | number hx =>
      cases hw with
      | natural m =>
          rw [compactText_natural, compactText_number] at h
          exact absurd (h ▸ digits_natural m) (not_digits_number hx)
      | number hy =>
          rw [compactText_number, compactText_number, String.toList_inj] at h
          rw [numberLayout_text_injective hx hy h]

theorem Scalar.injective (hv : Scalar v) (hw : Scalar w) (h : compactText v = compactText w) :
    v = w := by
  have hmixed {v w : Json} (hv : Word v) (hw : Numeral w) : compactText v ≠ compactText w := by
    obtain ⟨c, cs, hcons, hc⟩ := hv.head
    obtain ⟨d, ds, hcons', hd⟩ := hw.numberText.head
    rw [hcons, hcons']
    rintro ⟨⟩
    rcases hd with rfl | hd
    · exact absurd hc (by decide)
    · simp only [List.mem_cons, List.not_mem_nil, or_false] at hc
      rcases hc with rfl | rfl | rfl <;> cases hd
  cases hv with
  | word hv =>
      cases hw with
      | word hw => exact hv.injective hw h
      | numeral hw => exact absurd h (hmixed hv hw)
  | numeral hv =>
      cases hw with
      | word hw => exact absurd h.symm (hmixed hw hv)
      | numeral hw => exact hv.injective hw h

theorem Stops.not_plain {c : Char} (h : Stops (c :: rest)) : isPlain c = false := by
  rcases h with h | rfl | rfl | rfl
  · exact not_isPlain_of_isBlank h
  all_goals rfl

theorem Plain.takeWhile_append (h : Plain text) (hrest : Stops rest) :
    (text ++ rest).takeWhile isPlain = text := by
  have hnone : rest.takeWhile isPlain = [] := by
    cases rest with
    | nil => rfl
    | cons c rest => exact List.takeWhile_cons_of_neg (by rw [hrest.not_plain]; decide)
  rw [List.takeWhile_append_of_pos h, hnone, List.append_nil]

/-- A plain text goes as far as its characters do. -/
theorem Plain.append_inj (h : Plain text) (h' : Plain text') (hrest : Stops rest)
    (hrest' : Stops rest') (heq : text ++ rest = text' ++ rest') : text = text' ∧ rest = rest' := by
  have htext : text = text' := by
    rw [← h.takeWhile_append hrest, heq, h'.takeWhile_append hrest']
  subst htext
  exact ⟨rfl, List.append_cancel_left heq⟩

/-! ## Strings -/

theorem toList_quote (s : String) :
    (quote s).toList = '"' :: (s.toList.flatMap escape ++ ['"']) := String.toList_ofList

/-- A string is what is read from its text. -/
theorem quote_append_inj {s s' : String}
    (h : (quote s).toList ++ rest = (quote s').toList ++ rest') : s = s' ∧ rest = rest' := by
  have hread := (spells_escape s.toList).readString_append rest
  have hread' := (spells_escape s'.toList).readString_append rest'
  rw [toList_quote, toList_quote, List.cons_append, List.cons_append, List.append_assoc,
    List.append_assoc] at h
  injection h with _ h
  rw [List.singleton_append, List.singleton_append] at h
  rw [h, hread', String.ofList_toList, String.ofList_toList] at hread
  injection hread with hread
  injection hread with hs hrest
  exact ⟨hs.symm, hrest.symm⟩

/-! ## Lists -/

section

variable {α : Type} {written : α → Input} {P : α → Prop} {as bs : List α}

/-- The part can be told apart from the parts of its kind, with anything behind them that
stops a value. -/
def Told (written : α → Input) (P : α → Prop) (a : α) : Prop :=
  ∀ ⦃b rest rest'⦄, P b → Stops rest → Stops rest' → written a ++ rest = written b ++ rest' →
    a = b ∧ rest = rest'

/-- What follows a part of a list. -/
theorem stops_commas {closing : Char} (hclosing : closing ∈ [']', '}']) (texts : List Input)
    (rest : Input) : Stops (texts.flatMap (',' :: ·) ++ closing :: rest) := by
  refine (chain_commas texts).stops_append ?_
  rw [List.mem_cons, List.mem_singleton] at hclosing
  exact .inr (.inr hclosing)

theorem commas_append_inj {closing : Char} (hclosing : closing ∈ [']', '}'])
    (has : ∀ a ∈ as, Told written P a) (hbs : ∀ b ∈ bs, P b)
    (h : (as.map written).flatMap (',' :: ·) ++ closing :: rest =
      (bs.map written).flatMap (',' :: ·) ++ closing :: rest') :
    as = bs ∧ rest = rest' := by
  have hcomma : ',' ≠ closing := by
    rintro rfl
    revert hclosing
    decide
  induction as generalizing bs with
  | nil =>
      cases bs with
      | nil => exact ⟨rfl, (List.cons.inj h).2⟩
      | cons b bs => exact absurd (List.cons.inj h).1.symm hcomma
  | cons a as ih =>
      cases bs with
      | nil => exact absurd (List.cons.inj h).1 hcomma
      | cons b bs =>
          obtain ⟨ha, has'⟩ := List.forall_mem_cons.1 has
          obtain ⟨hb, hbs'⟩ := List.forall_mem_cons.1 hbs
          simp only [List.map_cons, List.flatMap_cons, List.append_assoc, List.cons_append] at h
          obtain ⟨rfl, hmore⟩ := ha hb (stops_commas hclosing _ rest)
            (stops_commas hclosing _ rest') (List.cons.inj h).2
          obtain ⟨rfl, hrest⟩ := ih has' hbs' hmore
          exact ⟨rfl, hrest⟩

theorem Starts.ne_closing {closing : Char} (hclosing : closing ∈ [']', '}'])
    (h : Starts text) (more : Input) : closing :: rest ≠ text ++ more := by
  cases text with
  | nil => cases h
  | cons c text =>
      rw [List.cons_append]
      rintro ⟨⟩
      rw [List.mem_cons, List.mem_singleton] at hclosing
      exact hclosing.elim h.2.1 h.2.2

/-- A list can be told from its parts if no part starts like the end of the list. -/
theorem joined_append_inj {closing : Char} (hclosing : closing ∈ [']', '}'])
    (hstarts : ∀ a, Starts (written a)) (has : ∀ a ∈ as, Told written P a) (hbs : ∀ b ∈ bs, P b)
    (h : joined (as.map written) ++ closing :: rest =
      joined (bs.map written) ++ closing :: rest') :
    as = bs ∧ rest = rest' := by
  cases as with
  | nil =>
      cases bs with
      | nil => exact ⟨rfl, (List.cons.inj h).2⟩
      | cons b bs =>
          rw [List.map_cons, joined, List.append_assoc] at h
          exact absurd h ((hstarts b).ne_closing hclosing _)
  | cons a as =>
      cases bs with
      | nil =>
          rw [List.map_cons, joined, List.append_assoc] at h
          exact absurd h.symm ((hstarts a).ne_closing hclosing _)
      | cons b bs =>
          obtain ⟨ha, has'⟩ := List.forall_mem_cons.1 has
          obtain ⟨hb, hbs'⟩ := List.forall_mem_cons.1 hbs
          rw [List.map_cons, List.map_cons, joined, joined, List.append_assoc,
            List.append_assoc] at h
          obtain ⟨rfl, hmore⟩ := ha hb (stops_commas hclosing _ rest)
            (stops_commas hclosing _ rest') h
          obtain ⟨rfl, hrest⟩ := commas_append_inj hclosing has' hbs' hmore
          exact ⟨rfl, hrest⟩

end

/-! ## Values -/

/-- Values all of whose numbers are finite. -/
inductive Legible : Json → Prop
  | scalar {v : Json} : Scalar v → Legible v
  | string (s : String) : Legible (.string s)
  | array {es : List Json} : (∀ e ∈ es, Legible e) → Legible (.array es)
  | object {ms : List (String × Json)} : (∀ m ∈ ms, Legible m.2) → Legible (.object ms)

/-- What a text starts with if it is that of a string or a list. -/
def mark : Json → Option Char
  | string _ => some '"'
  | array _ => some '['
  | object _ => some '{'
  | _ => none

theorem Scalar.mark (h : Scalar v) : mark v = none := by
  obtain ⟨⟨⟩⟩ | ⟨⟨⟩⟩ := h <;> rfl

theorem Legible.mark_eq_head (h : Legible v) :
    ∃ c cs, compactText v = c :: cs ∧ mark v = if isPlain c then none else some c := by
  cases h with
  | scalar h =>
      obtain ⟨c, cs, hcons, hc⟩ := h.head
      exact ⟨c, cs, hcons, by rw [h.mark, if_pos hc]⟩
  | string s => exact ⟨_, _, (compactText_string s).trans (toList_quote s), rfl⟩
  | array => exact ⟨_, _, compactText_array _, rfl⟩
  | object => exact ⟨_, _, compactText_object _, rfl⟩

/-- Of which kind a value is can be seen from the start of its text. -/
theorem Legible.mark_eq (hv : Legible v) (hw : Legible w)
    (h : compactText v ++ rest = compactText w ++ rest') : mark v = mark w := by
  obtain ⟨c, cs, hcons, hmark⟩ := hv.mark_eq_head
  obtain ⟨d, ds, hcons', hmark'⟩ := hw.mark_eq_head
  rw [hcons, hcons'] at h
  rw [hmark, hmark', (List.cons.inj h).1]

theorem starts_compactText (v : Json) : Starts (compactText v) :=
  (written_render isLayout_compact v).wellFormed.starts

theorem starts_memberText (m : String × Json) : Starts (memberText m) := by
  rw [memberText, toList_quote, List.cons_append]
  exact ⟨rfl, by decide, by decide⟩

theorem told_memberText {m : String × Json} (h : Told compactText Legible m.2) :
    Told memberText (fun m => Legible m.2) m := by
  intro m' rest rest' hm' hrest hrest' heq
  obtain ⟨key, v⟩ := m
  obtain ⟨key', v'⟩ := m'
  rw [memberText, memberText, List.append_assoc, List.append_assoc] at heq
  obtain ⟨rfl, heq⟩ := quote_append_inj heq
  obtain ⟨rfl, hmore⟩ := h hm' hrest hrest' (List.cons.inj heq).2
  exact ⟨rfl, hmore⟩

/-- By induction on the first value. The second is of the same kind, for its text starts with
the same character. -/
theorem Legible.told (h : Legible v) : Told compactText Legible v := by
  induction h with
  | scalar hv =>
      intro w rest rest' hw hrest hrest' heq
      have hmark := (Legible.scalar hv).mark_eq hw heq
      rw [hv.mark] at hmark
      cases hw with
      | scalar hw =>
          obtain ⟨htext, hmore⟩ := hv.plain.append_inj hw.plain hrest hrest' heq
          exact ⟨hv.injective hw htext, hmore⟩
      | _ => cases hmark
  | string s =>
      intro w rest rest' hw hrest hrest' heq
      have hmark := (Legible.string s).mark_eq hw heq
      cases hw with
      | scalar hw => cases hmark.trans hw.mark
      | string s' =>
          rw [compactText_string, compactText_string] at heq
          obtain ⟨rfl, hmore⟩ := quote_append_inj heq
          exact ⟨rfl, hmore⟩
      | _ => cases hmark
  | array hes ih =>
      intro w rest rest' hw hrest hrest' heq
      have hmark := (Legible.array hes).mark_eq hw heq
      cases hw with
      | scalar hw => cases hmark.trans hw.mark
      | array hes' =>
          simp only [compactText_array, List.cons_append, List.append_assoc] at heq
          obtain ⟨rfl, hmore⟩ := joined_append_inj (by decide) starts_compactText ih hes'
            (List.cons.inj heq).2
          exact ⟨rfl, hmore⟩
      | _ => cases hmark
  | object hms ih =>
      intro w rest rest' hw hrest hrest' heq
      have hmark := (Legible.object hms).mark_eq hw heq
      cases hw with
      | scalar hw => cases hmark.trans hw.mark
      | object hms' =>
          simp only [compactText_object, List.cons_append, List.append_assoc] at heq
          have hparts : ∀ m ∈ _, Told memberText (fun m => Legible m.2) m :=
            fun m hm => told_memberText (ih m hm)
          obtain ⟨rfl, hmore⟩ := joined_append_inj (by decide) starts_memberText hparts hms'
            (List.cons.inj heq).2
          exact ⟨rfl, hmore⟩
      | _ => cases hmark

/-- Two values with the same text are the same. -/
theorem Legible.injective (hv : Legible v) (hw : Legible w)
    (h : compactText v = compactText w) : v = w := by
  have hend : Stops [] := trivial
  have hall : compactText v ++ [] = compactText w ++ [] := by rw [h]
  exact (hv.told hw hend hend hall).1

end Lindenmayer.Json
