import Lindenmayer.Script.Token
import Mathlib.Data.List.TakeWhile

/-!
# What the terminals match

A terminal is a set of texts: one word, or a pattern. The lexer never looks at these
sets. It asks a terminal how much of a text it matches at the front, and this module
says that the answer is right: the text of that length is one of the terminal, and no
longer one is in front.

The sixteen sets do not overlap. A fixed word starts with a lower case letter or is
the equals sign, which no pattern allows, and the patterns differ in their first
character or in whether they have a point.
-/

namespace Lindenmayer.Script

/-- One digit or more. -/
def Digits (cs : List Char) : Prop := cs ≠ [] ∧ ∀ c ∈ cs, c.isDigit

/-- The texts of a terminal. -/
inductive Terminal.Matches : Terminal → List Char → Prop
  | word {t : Terminal} {word : String} (h : t.word? = some word) : Matches t word.toList
  | color {ds : List Char} (hlength : ds.length = 6) (hhex : ∀ d ∈ ds, Text.isHexDigit d) :
      Matches .color ('#' :: ds)
  | decimal {whole fraction : List Char} (hwhole : Digits whole) (hfraction : Digits fraction) :
      Matches .decimal (whole ++ '.' :: fraction)
  | negativeDecimal {whole fraction : List Char} (hwhole : Digits whole)
      (hfraction : Digits fraction) : Matches .decimal ('-' :: (whole ++ '.' :: fraction))
  | negative {ds : List Char} (h : Digits ds) : Matches .negative ('-' :: ds)
  | digits {ds : List Char} (h : Digits ds) : Matches .digits ds
  | letter {c : Char} (h : c.isUpper) : Matches .letter [c]
  | quoted {body : List Char} (h : '"' ∉ body) : Matches .quoted ('"' :: (body ++ ['"']))

/-! ## Characters -/

theorem toNat_of_isDigit {c : Char} (h : c.isDigit = true) : 48 ≤ c.toNat ∧ c.toNat ≤ 57 :=
  Char.isDigit_iff_toNat.1 h

theorem toNat_of_isUpper {c : Char} (h : c.isUpper = true) : 65 ≤ c.toNat ∧ c.toNat ≤ 90 := by
  have hval : 'A'.val ≤ c.val ∧ c.val ≤ 'Z'.val := of_decide_eq_true h
  exact ⟨UInt32.le_iff_toNat_le.1 hval.1, UInt32.le_iff_toNat_le.1 hval.2⟩

theorem not_isDigit_of_isUpper {c : Char} (h : c.isUpper = true) : c.isDigit = false := by
  rw [Bool.eq_false_iff]
  intro hdigit
  have hu := toNat_of_isUpper h
  have hd := toNat_of_isDigit hdigit
  omega

/-- White space is not printed. -/
theorem not_isBlank {c : Char} (h : 33 ≤ c.toNat ∧ c.toNat ≤ 126) : isBlank c = false := by
  simp only [isBlank, blankRanges, List.any_cons, List.any_nil, Bool.or_false, Bool.or_eq_false_iff,
    Bool.and_eq_false_iff, decide_eq_false_iff_not]
  omega

/-! ## Digits -/

theorem Digits.length_pos {ds : List Char} (h : Digits ds) : 0 < ds.length :=
  List.length_pos_iff.2 h.1

theorem Digits.head {ds : List Char} (h : Digits ds) :
    ∃ c cs, ds = c :: cs ∧ isBlank c = false := by
  obtain ⟨c, cs, rfl⟩ := List.exists_cons_of_ne_nil h.1
  have := toNat_of_isDigit (h.2 c List.mem_cons_self)
  exact ⟨c, cs, rfl, not_isBlank (by omega)⟩

/-- Text that starts with digits does not start with anything else. -/
theorem Digits.append_ne_cons {ds : List Char} (h : Digits ds) {c : Char}
    (hc : c.isDigit = false) {more cs : List Char} : ds ++ more ≠ c :: cs := by
  cases ds with
  | nil => exact absurd rfl h.1
  | cons d ds =>
      intro heq
      injection heq with heq
      rw [← heq, h.2 d List.mem_cons_self] at hc
      cases hc

theorem digitsLength?_sound {cs : List Char} {n : Nat} (h : digitsLength? cs = some n) :
    ∃ ds rest, cs = ds ++ rest ∧ n = ds.length ∧ Digits ds := by
  unfold digitsLength? at h
  split at h
  · cases h
  · next hne =>
      injection h with h
      refine ⟨cs.takeWhile Char.isDigit, cs.dropWhile Char.isDigit,
        List.takeWhile_append_dropWhile.symm, h.symm, ?_, fun c hc => List.mem_takeWhile_imp hc⟩
      exact fun hnil => hne (by rw [hnil]; rfl)

theorem digitsLength?_append {ds : List Char} (h : Digits ds) (rest : List Char) :
    digitsLength? (ds ++ rest) = some (ds.length + (rest.takeWhile Char.isDigit).length) := by
  have hpos := h.length_pos
  rw [digitsLength?, List.takeWhile_append_of_pos h.2, List.length_append]
  split
  · omega
  · rfl

theorem decimalLength?_sound {cs : List Char} {n : Nat} (h : decimalLength? cs = some n) :
    ∃ whole fraction rest, cs = (whole ++ '.' :: fraction) ++ rest ∧
      n = (whole ++ '.' :: fraction).length ∧ Digits whole ∧ Digits fraction := by
  simp only [decimalLength?, Option.bind_eq_bind, Option.bind_eq_some_iff] at h
  obtain ⟨_, hw, h⟩ := h
  obtain ⟨whole, more, rfl, rfl, hwhole⟩ := digitsLength?_sound hw
  rw [List.drop_left] at h
  split at h
  · next fraction =>
      simp only [Option.bind_eq_some_iff, Option.pure_def, Option.some.injEq] at h
      obtain ⟨_, hf, rfl⟩ := h
      obtain ⟨fraction, rest, rfl, rfl, hfraction⟩ := digitsLength?_sound hf
      refine ⟨whole, fraction, rest, by simp, ?_, hwhole, hfraction⟩
      simp [Nat.add_assoc, Nat.add_comm 1]
  · cases h

theorem decimalLength?_append {whole fraction : List Char} (hwhole : Digits whole)
    (hfraction : Digits fraction) (rest : List Char) :
    decimalLength? ((whole ++ '.' :: fraction) ++ rest) =
      some ((whole ++ '.' :: fraction).length + (rest.takeWhile Char.isDigit).length) := by
  have hw : digitsLength? (whole ++ '.' :: (fraction ++ rest)) = some whole.length :=
    digitsLength?_append hwhole _
  rw [List.append_assoc, List.cons_append]
  simp [decimalLength?, hw, digitsLength?_append hfraction, Nat.add_assoc, Nat.add_comm 1]

/-! ## Each terminal -/

theorem Terminal.matchLength?_of_word {t : Terminal} {word : String} (h : t.word? = some word)
    (cs : List Char) :
    t.matchLength? cs = if word.toList.isPrefixOf cs then some word.length else none := by
  cases t with
  | color | decimal | negative | digits | letter | quoted => cases h
  | _ => cases h; rfl

theorem Terminal.word_sound {t : Terminal} {word : String} {cs : List Char} {n : Nat}
    (hword : t.word? = some word) (h : t.matchLength? cs = some n) :
    ∃ text rest, cs = text ++ rest ∧ n = text.length ∧ t.Matches text := by
  rw [matchLength?_of_word hword] at h
  split at h
  · next hfront =>
      injection h with h
      obtain ⟨rest, hrest⟩ := List.isPrefixOf_iff_prefix.1 hfront
      exact ⟨word.toList, rest, hrest.symm, by rw [← h, String.length_toList], .word hword⟩
  · cases h

/-- The closing quote is the first one. -/
theorem split_at_quote {ds rest : List Char} {c : Char}
    (h : ds.dropWhile (· != '"') = c :: rest) :
    ds = ds.takeWhile (· != '"') ++ '"' :: rest := by
  have hc : c = '"' := by
    have hfirst := List.head?_dropWhile_not (· != '"') ds
    simpa [h] using hfirst
  subst hc
  rw [← h, List.takeWhile_append_dropWhile]

/-- What a terminal claims to match is one of its texts. -/
theorem Terminal.matchLength?_sound {t : Terminal} {cs : List Char} {n : Nat}
    (h : t.matchLength? cs = some n) :
    ∃ text rest, cs = text ++ rest ∧ n = text.length ∧ t.Matches text := by
  cases t with
  | color =>
      simp only [matchLength?] at h
      split at h
      · next ds =>
          split at h
          · next hds =>
              injection h with h
              refine ⟨'#' :: ds.take 6, ds.drop 6, by simp, by simp [hds.1, ← h], ?_⟩
              exact .color hds.1 (List.all_eq_true.1 hds.2)
          · cases h
      · cases h
  | decimal =>
      simp only [matchLength?] at h
      split at h
      · obtain ⟨_, hd, rfl⟩ := Option.map_eq_some_iff.1 h
        obtain ⟨whole, fraction, rest, rfl, rfl, hwhole, hfraction⟩ := decimalLength?_sound hd
        exact ⟨_, rest, rfl, rfl, .negativeDecimal hwhole hfraction⟩
      · obtain ⟨whole, fraction, rest, rfl, rfl, hwhole, hfraction⟩ := decimalLength?_sound h
        exact ⟨_, rest, rfl, rfl, .decimal hwhole hfraction⟩
  | negative =>
      simp only [matchLength?] at h
      split at h
      · obtain ⟨_, hd, rfl⟩ := Option.map_eq_some_iff.1 h
        obtain ⟨ds, rest, rfl, rfl, hds⟩ := digitsLength?_sound hd
        exact ⟨_, rest, rfl, rfl, .negative hds⟩
      · cases h
  | digits =>
      obtain ⟨ds, rest, rfl, rfl, hds⟩ := digitsLength?_sound h
      exact ⟨ds, rest, rfl, rfl, .digits hds⟩
  | letter =>
      simp only [matchLength?] at h
      split at h
      · next c cs =>
          split at h
          · next hc =>
              injection h with h
              exact ⟨[c], cs, rfl, h.symm, .letter hc⟩
          · cases h
      · cases h
  | quoted =>
      simp only [matchLength?] at h
      split at h
      · next ds =>
          split at h
          · cases h
          · next c rest hdrop =>
              injection h with h
              have hbody : '"' ∉ ds.takeWhile (· != '"') := fun hmem => by
                simpa using List.mem_takeWhile_imp hmem
              refine ⟨'"' :: (ds.takeWhile (· != '"') ++ ['"']), rest, ?_, by simp [← h],
                .quoted hbody⟩
              rw [List.cons_append, List.append_assoc]
              exact congrArg _ (split_at_quote hdrop)
      · cases h
  | _ => exact word_sound rfl h

/-- A terminal claims to match no less than the texts in front. -/
theorem Terminal.Matches.matchLength? {t : Terminal} {text : List Char} (h : t.Matches text)
    (rest : List Char) : ∃ n, t.matchLength? (text ++ rest) = some n ∧ text.length ≤ n := by
  cases h with
  | @word t word h =>
      have hfront : word.toList.isPrefixOf (word.toList ++ rest) = true :=
        List.isPrefixOf_iff_prefix.2 (List.prefix_append _ _)
      refine ⟨word.length, ?_, by rw [String.length_toList]⟩
      rw [matchLength?_of_word h, if_pos hfront]
  | @color ds hlength hhex =>
      have hds : (ds ++ rest).take 6 = ds := List.take_left' hlength
      refine ⟨7, ?_, by rw [List.length_cons, hlength]⟩
      rw [List.cons_append, Terminal.matchLength?]
      simp only [hds]
      rw [if_pos ⟨hlength, List.all_eq_true.2 hhex⟩]
  | @decimal whole fraction hwhole hfraction =>
      refine ⟨_, ?_, Nat.le_add_right _ (rest.takeWhile Char.isDigit).length⟩
      rw [← decimalLength?_append hwhole hfraction, Terminal.matchLength?]
      intro ds hds
      rw [List.append_assoc] at hds
      exact hwhole.append_ne_cons (by decide) hds
  | @negativeDecimal whole fraction hwhole hfraction =>
      have hd : Terminal.decimal.matchLength? ('-' :: (whole ++ '.' :: fraction) ++ rest) =
        (decimalLength? ((whole ++ '.' :: fraction) ++ rest)).map (· + 1) := rfl
      rw [hd, decimalLength?_append hwhole hfraction]
      exact ⟨_, rfl, Nat.succ_le_succ (Nat.le_add_right _ _)⟩
  | @negative ds h =>
      have hd : Terminal.negative.matchLength? ('-' :: ds ++ rest) =
        (digitsLength? (ds ++ rest)).map (· + 1) := rfl
      rw [hd, digitsLength?_append h]
      exact ⟨_, rfl, Nat.succ_le_succ (Nat.le_add_right _ _)⟩
  | @digits ds h => exact ⟨_, digitsLength?_append h rest, Nat.le_add_right _ _⟩
  | @letter c h => exact ⟨1, by simp [Terminal.matchLength?, h], Nat.le_refl 1⟩
  | @quoted body h =>
      have hbody : ∀ c ∈ body, (c != '"') = true := fun c hc => by
        simpa using fun heq : c = '"' => h (heq ▸ hc)
      have hd : (body ++ ['"'] ++ rest).dropWhile (· != '"') = '"' :: rest := by
        rw [List.append_assoc, List.dropWhile_append_of_pos hbody]
        rfl
      have ht : (body ++ ['"'] ++ rest).takeWhile (· != '"') = body := by
        rw [List.append_assoc, List.takeWhile_append_of_pos hbody]
        simp
      refine ⟨body.length + 2, ?_, by simp⟩
      rw [List.cons_append, Terminal.matchLength?]
      simp only [hd, ht]

/-! ## No text is of two terminals -/

/-- The only terminal that a text can be of. -/
def Terminal.ofText? : List Char → Option Terminal
  | [] => none
  | '#' :: _ => some .color
  | '"' :: _ => some .quoted
  | '-' :: cs => if '.' ∈ cs then some .decimal else some .negative
  | c :: cs =>
      if c.isDigit then if '.' ∈ cs then some .decimal else some .digits
      else if c.isUpper then some .letter
      else Terminal.all.find? (·.word? = some (String.ofList (c :: cs)))

theorem Digits.not_mem_point {ds : List Char} (h : Digits ds) : '.' ∉ ds :=
  fun hmem => absurd (h.2 '.' hmem) (by decide)

/-- A text that starts with a digit is a numeral. -/
theorem Terminal.ofText?_of_isDigit {c : Char} (hc : c.isDigit = true) (cs : List Char) :
    ofText? (c :: cs) = if '.' ∈ cs then some .decimal else some .digits := by
  rw [ofText?, if_pos hc]
  all_goals
    rintro rfl
    exact absurd hc (by decide)

theorem Terminal.Matches.ofText? {t : Terminal} {text : List Char} (h : t.Matches text) :
    Terminal.ofText? text = some t := by
  cases h with
  | @word t word h =>
      cases t with
      | color | decimal | negative | digits | letter | quoted => cases h
      | _ => cases h; decide
  | color => rfl
  | @decimal whole fraction hwhole _ =>
      cases whole with
      | nil => exact absurd rfl hwhole.1
      | cons c whole =>
          rw [List.cons_append, ofText?_of_isDigit (hwhole.2 c List.mem_cons_self), if_pos]
          simp
  | @negativeDecimal whole fraction _ _ =>
      rw [Terminal.ofText?, if_pos]
      simp
  | @negative ds h => rw [Terminal.ofText?, if_neg h.not_mem_point]
  | digits h =>
      have hpoint := h.not_mem_point
      cases text with
      | nil => exact absurd rfl h.1
      | cons c ds =>
          rw [ofText?_of_isDigit (h.2 c List.mem_cons_self), if_neg]
          exact fun hmem => hpoint (List.mem_cons_of_mem c hmem)
  | @letter c h =>
      have hdigit : c.isDigit = false := not_isDigit_of_isUpper h
      rw [Terminal.ofText?, if_neg (by simp [hdigit]), if_pos h]
      all_goals
        rintro rfl
        exact absurd h (by decide)
  | quoted => rfl

theorem Terminal.Matches.unique {t t' : Terminal} {text : List Char} (h : t.Matches text)
    (h' : t'.Matches text) : t = t' := by
  have heq := h.ofText?.symm.trans h'.ofText?
  injection heq

theorem Terminal.head_of_word {t : Terminal} {word : String} (h : t.word? = some word) :
    ∃ c cs, word.toList = c :: cs ∧ isBlank c = false := by
  cases t with
  | color | decimal | negative | digits | letter | quoted => cases h
  | _ => cases h; exact ⟨_, _, rfl, by decide⟩

/-- Tokens do not start with white space, and there are no empty ones. -/
theorem Terminal.Matches.head {t : Terminal} {text : List Char} (h : t.Matches text) :
    ∃ c cs, text = c :: cs ∧ isBlank c = false := by
  cases h with
  | word h => exact head_of_word h
  | color => exact ⟨_, _, rfl, by decide⟩
  | decimal h =>
      obtain ⟨c, cs, rfl, hc⟩ := h.head
      exact ⟨c, _, rfl, hc⟩
  | negativeDecimal => exact ⟨_, _, rfl, by decide⟩
  | negative => exact ⟨_, _, rfl, by decide⟩
  | digits h => exact h.head
  | letter h =>
      have := toNat_of_isUpper h
      exact ⟨_, _, rfl, not_isBlank (by omega)⟩
  | quoted => exact ⟨_, _, rfl, by decide⟩

theorem Terminal.Matches.length_pos {t : Terminal} {text : List Char} (h : t.Matches text) :
    0 < text.length := by
  obtain ⟨c, cs, rfl, _⟩ := h.head
  exact Nat.zero_lt_succ _

end Lindenmayer.Script
