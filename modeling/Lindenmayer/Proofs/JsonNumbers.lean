import Mathlib
import Lindenmayer.Proofs.JsonSkipping

/-!
# Numbers inside a document

A number has no closing mark. It is read as far as it goes, so what stands behind it
matters: a digit, a point or an exponent would go on with it. Where none of these
follow, a number inside a document is read as it is read on its own.

Each reader of a part of a number keeps this property: with a character behind the
text that stops it, it returns what it returned before, and leaves that character
with the rest.

What a number is read as is plain where its digits fit into 64 bits. They are collected
to the last then, and the digits behind the point only count for the exponent.
-/

namespace Lindenmayer.Json

variable {rest : Input}

theorem takeWhile_isDigit_append (hrest : NoDigit rest) (text : Input) :
    (text ++ rest).takeWhile Char.isDigit = text.takeWhile Char.isDigit := by
  induction text with
  | nil =>
      cases rest with
      | nil => rfl
      | cons c rest => exact List.takeWhile_cons_of_neg (by rw [hrest]; decide)
  | cons c text ih =>
      rw [List.cons_append, List.takeWhile_cons, List.takeWhile_cons, ih]

theorem dropWhile_isDigit_append (hrest : NoDigit rest) (text : Input) :
    (text ++ rest).dropWhile Char.isDigit = text.dropWhile Char.isDigit ++ rest := by
  induction text with
  | nil =>
      cases rest with
      | nil => rfl
      | cons c rest => exact List.dropWhile_cons_of_neg (by rw [hrest]; decide)
  | cons c text ih =>
      rw [List.cons_append, List.dropWhile_cons, List.dropWhile_cons, ih]
      split <;> rfl

theorem collect_append (hrest : NoDigit rest) (n taken : Nat) (text : Input) :
    collect n taken (text ++ rest) =
      ((collect n taken text).1, (collect n taken text).2.1,
        (collect n taken text).2.2 ++ rest) := by
  induction text generalizing n taken with
  | nil =>
      cases rest with
      | nil => rfl
      | cons c rest =>
          have hc : c.isDigit = false := hrest
          rw [List.nil_append, collect]
          simp [hc, collect]
  | cons c text ih =>
      rw [List.cons_append, collect, collect]
      split
      · exact ih _ _
      · rfl

/-- A reader of numbers that does not look beyond a character that stops it. -/
def StopsBefore (read : Reader Numeric) : Prop :=
  ∀ {text : Input} {n : Numeric} {left rest : Input}, read text = .ok (n, left) → Stops rest →
    read (text ++ rest) = .ok (n, left ++ rest)

theorem ne_cons_append {c : Char} {text : Input} (htext : ∀ more, text ≠ c :: more)
    (hrest : ∀ more, rest ≠ c :: more) (more : Input) : text ++ rest ≠ c :: more := by
  cases text with
  | nil => exact hrest more
  | cons d text =>
      intro h
      injection h with h
      exact htext text (h ▸ rfl)

variable (negative : Bool) (significand : Nat) (exponent : Int)

/-- The number with an exponent behind it. One beyond all limits makes it a zero or
puts it out of range, whatever its digits. -/
def powered (down : Bool) (e : Nat) : Except Fault Numeric :=
  if exponentLimit < e then
    if significand ≠ 0 ∧ !down then .error .malformed
    else .ok (.float (if negative then -0.0 else 0.0))
  else
    .float <$> floatOf negative significand
      (clampExponent (if down then exponent - e else exponent + e))

/-- Reads an exponent behind its sign. -/
def readPower (down : Bool) (input : Input) : Except Fault (Numeric × Input) := do
  match input with
  | [] => throw .cutShort
  | c :: _ =>
      if !c.isDigit then throw .malformed
      let digits := input.takeWhile Char.isDigit
      let after := input.dropWhile Char.isDigit
      let e := Number.digitsValue digits
      if exponentLimit < e then
        if significand ≠ 0 ∧ !down then throw .malformed
        return (.float (if negative then -0.0 else 0.0), after)
      let x ← floatOf negative significand
        (clampExponent (if down then exponent - e else exponent + e))
      return (.float x, after)

theorem readPower_cons (down : Bool) (c : Char) (rest : Input) :
    readPower negative significand exponent down (c :: rest) =
      if c.isDigit then
        (·, (c :: rest).dropWhile Char.isDigit) <$> powered negative significand exponent down
          (Number.digitsValue ((c :: rest).takeWhile Char.isDigit))
      else .error .malformed := by
  simp only [readPower, powered]
  cases c.isDigit with
  | false => rfl
  | true =>
      simp only [Bool.not_true, Bool.false_eq_true, if_false, if_true]
      split
      · split <;> rfl
      · cases floatOf negative significand _ <;> rfl

/-- Whether an exponent has a minus sign, and what stands behind its sign. -/
def exponentSign : Input → Bool × Input
  | '+' :: rest => (false, rest)
  | '-' :: rest => (true, rest)
  | rest => (false, rest)

theorem exponentSign_append {text : Input} (h : text ≠ []) (rest : Input) :
    exponentSign (text ++ rest) = ((exponentSign text).1, (exponentSign text).2 ++ rest) := by
  cases text with
  | nil => exact absurd rfl h
  | cons c text =>
      by_cases hplus : c = '+'
      · subst hplus
        rfl
      · by_cases hminus : c = '-'
        · subst hminus
          rfl
        · simp [exponentSign, hplus, hminus]

theorem readExponent_eq (input : Input) :
    readExponent negative significand exponent input =
      readPower negative significand exponent (exponentSign input).1 (exponentSign input).2 := rfl

variable {negative significand exponent}

theorem readPower_stopsBefore (down : Bool) :
    StopsBefore (readPower negative significand exponent down) := by
  intro text n left rest h hrest
  cases text with
  | nil => cases h
  | cons c text =>
      have htake := takeWhile_isDigit_append hrest.noDigit (c :: text)
      have hdrop := dropWhile_isDigit_append hrest.noDigit (c :: text)
      rw [List.cons_append] at htake hdrop ⊢
      rw [readPower_cons] at h ⊢
      rw [htake, hdrop]
      split at h
      · next hc =>
          rw [if_pos hc]
          generalize powered negative significand exponent down _ = power at h ⊢
          cases power with
          | error fault => cases h
          | ok m => cases h; rfl
      · cases h

theorem readExponent_stopsBefore : StopsBefore (readExponent negative significand exponent) := by
  intro text n left rest h hrest
  have hne : text ≠ [] := by
    rintro rfl
    cases h
  rw [readExponent_eq] at h
  rw [readExponent_eq, exponentSign_append hne]
  exact readPower_stopsBefore _ h hrest

theorem readScale_stopsBefore : StopsBefore (readScale negative significand exponent) := by
  intro text n left rest h hrest
  rw [readScale.eq_def] at h
  split at h
  · exact readExponent_stopsBefore h hrest
  · exact readExponent_stopsBefore h hrest
  · next hlower hupper =>
      rw [readScale.eq_3 _ _ _ _ (ne_cons_append hlower (hrest.ne_cons (by decide)))
        (ne_cons_append hupper (hrest.ne_cons (by decide)))]
      simp only [bind_eq_ok_iff] at h ⊢
      obtain ⟨x, hx, h⟩ := h
      cases h
      exact ⟨x, hx, rfl⟩

theorem readFraction_stopsBefore : StopsBefore (readFraction negative significand exponent) := by
  intro text n left rest h hrest
  have hcollect := collect_append hrest.noDigit significand 0 text
  simp only [readFraction, hcollect] at h ⊢
  generalize collect significand 0 text = collected at h ⊢
  obtain ⟨m, taken, more⟩ := collected
  simp only at h ⊢
  cases more with
  | nil =>
      simp only at h
      split at h
      · cases h
      · next htaken =>
          have h' := readScale_stopsBefore h hrest
          cases rest with
          | nil => simpa [htaken] using h'
          | cons c rest =>
              have hc : c.isDigit = false := hrest.not_isDigit
              simpa [htaken, hc] using h'
  | cons c more =>
      have hdrop := dropWhile_isDigit_append hrest.noDigit (c :: more)
      rw [List.cons_append] at hdrop
      simp only [List.cons_append, hdrop] at h ⊢
      split at h
      · next hc => rw [if_pos hc]; exact readScale_stopsBefore h hrest
      · next hc =>
          rw [if_neg hc]
          split at h
          · cases h
          · next htaken => rw [if_neg htaken]; exact readScale_stopsBefore h hrest

theorem readNumberTail_stopsBefore : StopsBefore (readNumberTail negative significand) := by
  intro text n left rest h hrest
  rw [readNumberTail.eq_def] at h
  split at h
  · exact readFraction_stopsBefore h hrest
  · exact readExponent_stopsBefore h hrest
  · exact readExponent_stopsBefore h hrest
  · next hpoint hlower hupper =>
      cases h
      rw [readNumberTail.eq_4 _ _ _ (ne_cons_append hpoint (hrest.ne_cons (by decide)))
        (ne_cons_append hlower (hrest.ne_cons (by decide)))
        (ne_cons_append hupper (hrest.ne_cons (by decide)))]

theorem readLongTail_stopsBefore : StopsBefore (readLongTail negative significand) := by
  intro text n left rest h hrest
  rw [readLongTail.eq_def] at h ⊢
  rw [takeWhile_isDigit_append hrest.noDigit, dropWhile_isDigit_append hrest.noDigit]
  generalize text.dropWhile Char.isDigit = more at h ⊢
  split at h
  · exact readFraction_stopsBefore h hrest
  · next hpoint =>
      have h' := readScale_stopsBefore h hrest
      split
      · next heq => exact absurd heq (ne_cons_append hpoint (hrest.ne_cons (by decide)) _)
      · exact h'

theorem readNumber_nought {tail : Input} (htail : NoDigit tail) :
    readNumber negative ('0' :: tail) = readNumberTail negative 0 tail := by
  cases tail with
  | nil => rfl
  | cons c tail =>
      have hc : c.isDigit = false := htail
      simp [readNumber, hc]

theorem readNumber_digits {d : Char} (hd : d.isDigit = true) (hzero : d ≠ '0') (text : Input) :
    readNumber negative (d :: text) =
      let (n, _, more) := collect (d.toNat - '0'.toNat) 1 text
      if (more.head?.any Char.isDigit) then readLongTail negative n more
      else readNumberTail negative n more := by
  rw [readNumber.eq_def]
  split
  · next h => cases h
  · next h => injection h with h; exact absurd h hzero
  · next h =>
      injection h with hc hr
      subst hc hr
      rw [if_neg (by rw [hd]; decide)]
      rcases collect (d.toNat - '0'.toNat) 1 text with ⟨n, taken, _ | ⟨c, more⟩⟩ <;> rfl

theorem head_of_readNumber {text : Input} {r : Numeric × Input}
    (h : readNumber negative text = .ok r) : ∃ c cs, text = c :: cs ∧ c.isDigit = true := by
  rw [readNumber.eq_def] at h
  split at h
  · cases h
  · exact ⟨_, _, rfl, rfl⟩
  · next c cs _ =>
      refine ⟨c, cs, rfl, ?_⟩
      cases hc : c.isDigit with
      | true => rfl
      | false =>
          rw [hc] at h
          cases h

theorem NoDigit.append {text : Input} (htext : NoDigit text) (hrest : NoDigit rest) :
    NoDigit (text ++ rest) := by
  cases text with
  | nil => exact hrest
  | cons c text => exact htext

theorem readNumber_nought_stopsBefore {text : Input} {n : Numeric} {left : Input}
    (h : readNumber negative ('0' :: text) = .ok (n, left)) (hrest : Stops rest) :
    readNumber negative ('0' :: (text ++ rest)) = .ok (n, left ++ rest) := by
  have htext : NoDigit text := by
    cases text with
    | nil => trivial
    | cons c text =>
        cases hc : c.isDigit with
        | false => exact hc
        | true => simp [readNumber, hc] at h
  rw [readNumber_nought htext] at h
  rw [readNumber_nought (htext.append hrest.noDigit)]
  exact readNumberTail_stopsBefore h hrest

theorem readNumber_digits_stopsBefore {d : Char} (hd : d.isDigit = true) (hzero : d ≠ '0')
    {text : Input} {n : Numeric} {left : Input}
    (h : readNumber negative (d :: text) = .ok (n, left)) (hrest : Stops rest) :
    readNumber negative (d :: (text ++ rest)) = .ok (n, left ++ rest) := by
  rw [readNumber_digits hd hzero] at h ⊢
  rw [Json.collect_append hrest.noDigit]
  generalize collect (d.toNat - '0'.toNat) 1 text = collected at h ⊢
  obtain ⟨m, taken, more⟩ := collected
  have hhead : (more ++ rest).head?.any Char.isDigit = more.head?.any Char.isDigit := by
    cases more with
    | nil =>
        cases rest with
        | nil => rfl
        | cons c rest => exact hrest.not_isDigit
    | cons c more => rfl
  simp only [hhead] at h ⊢
  split at h
  · next hlong => rw [if_pos hlong]; exact readLongTail_stopsBefore h hrest
  · next hlong => rw [if_neg hlong]; exact readNumberTail_stopsBefore h hrest

theorem readNumber_stopsBefore (negative : Bool) : StopsBefore (readNumber negative) := by
  intro text n left rest h hrest
  obtain ⟨d, text, rfl, hd⟩ := head_of_readNumber h
  by_cases hzero : d = '0'
  · subst hzero
    exact readNumber_nought_stopsBefore h hrest
  · exact readNumber_digits_stopsBefore hd hzero h hrest

theorem skipBlank_digit {d : Char} (hd : d.isDigit = true) (ds : Input) :
    skipBlank (d :: ds) = d :: ds := (starts_digit hd ds).skipBlank

theorem readNumeric_digit {d : Char} (hd : d.isDigit = true) (text : Input) :
    readNumeric (d :: text) = readNumber false (d :: text) := by
  have hne : d ≠ '-' := by
    rintro rfl
    cases hd
  rw [readNumeric.eq_def, skipBlank_digit hd]
  split
  · next h => injection h with h; exact absurd h hne
  · next h =>
      injection h with hc hr
      subst hc hr
      rw [if_pos hd]
  · next h => cases h

/-- A number inside a document is read as it is on its own. -/
theorem readNumeric_stopsBefore {text : Input} (hstarts : Starts text) {n : Numeric}
    {left : Input} (h : readNumeric text = .ok (n, left)) (hrest : Stops rest) :
    readNumeric (text ++ rest) = .ok (n, left ++ rest) := by
  rw [readNumeric.eq_def, hstarts.skipBlank] at h
  rw [readNumeric.eq_def, (hstarts.append rest).skipBlank]
  split at h
  · exact readNumber_stopsBefore true h hrest
  · split at h
    · next hc =>
        rw [List.cons_append]
        split
        · next heq => injection heq with heq; rw [heq] at hc; cases hc
        · next heq =>
            injection heq with heq hr
            subst heq hr
            rw [if_pos hc, ← List.cons_append]
            exact readNumber_stopsBefore false h hrest
        · next heq => cases heq
    · cases h
  · cases h

/-! ## Numerals -/

theorem le_ofDigitChars (ds : Input) (n : Nat) : n ≤ Nat.ofDigitChars 10 ds n := by
  rw [Nat.ofDigitChars_eq_ofDigitChars_zero]
  exact Nat.le_trans (Nat.le_mul_of_pos_left n (Nat.pow_pos (by decide))) (Nat.le_add_right _ _)

theorem Digits.head {d : Char} {ds : Input} (h : Digits (d :: ds)) : d.isDigit = true :=
  h d List.mem_cons_self

theorem Digits.tail {d : Char} {ds : Input} (h : Digits (d :: ds)) : Digits ds :=
  fun c hc => h c (List.mem_cons_of_mem _ hc)

/-- Digits whose value fits are collected to the last. -/
theorem Digits.collect_append {ds : Input} (h : Digits ds) {tail : Input} (htail : NoDigit tail)
    {n : Nat} (hfit : Nat.ofDigitChars 10 ds n ≤ wordLimit) (taken : Nat) :
    collect n taken (ds ++ tail) = (Nat.ofDigitChars 10 ds n, taken + ds.length, tail) := by
  induction ds generalizing n taken with
  | nil =>
      have := Json.collect_append htail n taken []
      simpa [collect] using this
  | cons d ds ih =>
      rw [Nat.ofDigitChars_cons] at hfit ⊢
      have hstep := Nat.le_trans (le_ofDigitChars ds _) hfit
      rw [List.cons_append, collect, if_pos ⟨h.head, hstep⟩, ih h.tail hfit, List.length_cons]
      simp only [Nat.add_assoc, Nat.add_comm 1]

theorem NoDigit.head?_any {tail : Input} (h : NoDigit tail) :
    tail.head?.any Char.isDigit = false := by
  cases tail with
  | nil => rfl
  | cons c tail => exact h

/-- Digits that fit are the whole part of a number. -/
theorem WholeText.readNumber_append {ds : Input} (h : WholeText ds)
    (hfit : Number.digitsValue ds ≤ wordLimit) {tail : Input} (htail : NoDigit tail) :
    readNumber negative (ds ++ tail) = readNumberTail negative (Number.digitsValue ds) tail := by
  cases h with
  | zero => exact readNumber_nought htail
  | @digits d ds hd hzero hds =>
      have hvalue : Number.digitsValue (d :: ds) =
          Nat.ofDigitChars 10 ds (d.toNat - '0'.toNat) := by
        rw [Number.digitsValue, Nat.ofDigitChars_cons, Nat.mul_zero, Nat.zero_add]
      rw [hvalue] at hfit ⊢
      rw [List.cons_append, readNumber_digits hd hzero, hds.collect_append htail hfit]
      simp only [htail.head?_any, Bool.false_eq_true, if_false]

/-- Digits that fit are all of a fraction. Each counts as a division by ten. -/
theorem Digits.readFraction_append {ds : Input} (h : Digits ds) (hne : ds ≠ []) {tail : Input}
    (htail : NoDigit tail) {n : Nat} (hfit : Nat.ofDigitChars 10 ds n ≤ wordLimit) :
    readFraction negative n exponent (ds ++ tail) =
      readScale negative (Nat.ofDigitChars 10 ds n) (exponent - ds.length) tail := by
  have hsome : ds.length ≠ 0 := Nat.ne_of_gt (List.length_pos_iff.2 hne)
  simp only [readFraction, h.collect_append htail hfit, Nat.zero_add, if_neg hsome]
  cases tail with
  | nil => rfl
  | cons c tail => exact if_neg (by rw [htail]; decide)

/-- A number with a point is that many times smaller than the number without it. -/
theorem WholeText.readNumber_point {ds fs tail : Input} (hds : WholeText ds) (hfs : Digits fs)
    (hne : fs ≠ []) (htail : NoDigit tail) (hfit : Number.digitsValue (ds ++ fs) ≤ wordLimit) :
    readNumber negative (ds ++ '.' :: (fs ++ tail)) =
      readScale negative (Number.digitsValue (ds ++ fs)) (-fs.length) tail := by
  rw [Number.digitsValue, Nat.ofDigitChars_append] at hfit ⊢
  have hpoint : NoDigit ('.' :: (fs ++ tail)) := rfl
  rw [hds.readNumber_append (Nat.le_trans (le_ofDigitChars fs _) hfit) hpoint, readNumberTail,
    Number.digitsValue, hfs.readFraction_append hne htail hfit, Int.zero_sub]

theorem digits_toDigits (n : Nat) : Digits (Nat.toDigits 10 n) :=
  fun _ hc => Nat.isDigit_of_mem_toDigits (by decide) (by decide) hc

theorem ofDigitChars_lt {ds : Input} (h : Digits ds) :
    Nat.ofDigitChars 10 ds 0 < 10 ^ ds.length := by
  induction ds with
  | nil => exact Nat.one_pos
  | cons d ds ih =>
      have hd : d.toNat - 48 ≤ 9 := by
        have := (Char.isDigit_iff_toNat.1 h.head).2
        have h9 : '9'.toNat = 57 := rfl
        omega
      have hmul := Nat.mul_le_mul_left (10 ^ ds.length) hd
      have htail := ih h.tail
      rw [Nat.ofDigitChars_cons, Nat.ofDigitChars_eq_ofDigitChars_zero, Nat.mul_zero, Nat.zero_add,
        List.length_cons, Nat.pow_succ]
      show 10 ^ ds.length * (d.toNat - 48) + _ < _
      omega

/-- The digits of a number start with a nought only if it is nought. -/
theorem toDigits_head {n : Nat} (hn : 0 < n) :
    ∃ d ds, Nat.toDigits 10 n = d :: ds ∧ d ≠ '0' := by
  obtain ⟨d, ds, hcons⟩ := List.exists_cons_of_ne_nil (Nat.toDigits_ne_nil (n := n) (b := 10))
  refine ⟨d, ds, hcons, ?_⟩
  rintro rfl
  have hdigits : Digits ('0' :: ds) := hcons ▸ digits_toDigits n
  have hvalue : n = Nat.ofDigitChars 10 ds 0 := by
    rw [← Nat.ofDigitChars_ten_toDigits (n := n), hcons, Nat.ofDigitChars_cons]
    rfl
  have hlt := ofDigitChars_lt hdigits.tail
  rw [← hvalue] at hlt
  rcases Nat.eq_zero_or_pos ds.length with hlen | hlen
  · rw [hlen] at hlt
    omega
  · have := (Nat.length_toDigits_le_iff (b := 10) (by decide) hlen).2 hlt
    rw [hcons, List.length_cons] at this
    omega

theorem digitsValue_toDigits (n : Nat) : Number.digitsValue (Nat.toDigits 10 n) = n :=
  Nat.ofDigitChars_ten_toDigits

theorem wholeText_toDigits (n : Nat) : WholeText (Nat.toDigits 10 n) := by
  rcases Nat.eq_zero_or_pos n with rfl | hpos
  · exact WholeText.zero
  · obtain ⟨d, ds, hcons, hzero⟩ := toDigits_head hpos
    have hdigits := digits_toDigits n
    rw [hcons] at hdigits ⊢
    exact WholeText.digits hdigits.head hzero hdigits.tail

theorem readNumeric_digits {ds : Input} (h : Digits ds) (hne : ds ≠ []) (tail : Input) :
    readNumeric (ds ++ tail) = readNumber false (ds ++ tail) := by
  obtain ⟨d, ds, rfl⟩ := List.exists_cons_of_ne_nil hne
  exact readNumeric_digit h.head _

/-- A whole number is read as what it was written from. -/
theorem readNumeric_repr {n : Nat} (hn : n ≤ wordLimit) :
    readNumeric n.repr.toList = .ok (.natural n, []) := by
  have hvalue := digitsValue_toDigits n
  have hend : NoDigit [] := trivial
  have h : readNumber false (Nat.toDigits 10 n ++ []) = .ok (wholeNumber false n, []) := by
    rw [(wholeText_toDigits n).readNumber_append (by rwa [hvalue]) hend, hvalue]
    rfl
  rw [← readNumeric_digits (digits_toDigits n) Nat.toDigits_ne_nil] at h
  rw [Nat.toList_repr, ← List.append_nil (Nat.toDigits 10 n), h]
  rfl

end Lindenmayer.Json
