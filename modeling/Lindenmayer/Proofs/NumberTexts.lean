import Lindenmayer.Proofs.DistinctNumbers
import Lindenmayer.Proofs.WrittenNumbers

/-!
# A number can be told from its text

The text of a finite number is laid out in one of four ways. Zeros are appended to its
digits, or the point is put among the digits, or zeros are put before them, or there is an
exponent. Whichever it is, cutting the text at its marks gives the digits and the exponent
of a decimal with the same value. And since the decimal rounds to no other double, no other
double has this text.

The text always shows a fraction or an exponent, so it is not the text of a natural number.
-/

namespace Lindenmayer.Json

open Number (Decimal Neighbourhood decode shortest digitsValue zeros)

/-! ## The value of a text -/

/-- A text up to a mark, and the text behind the mark. -/
def cutAt (mark : Char) (text : Input) : Input × Input :=
  (text.takeWhile (· ≠ mark), (text.dropWhile (· ≠ mark)).tail)

/-- The value of digits behind a sign. -/
def signedValue : Input → Int
  | '-' :: digits => -digitsValue digits
  | '+' :: digits => digitsValue digits
  | _ => 0

/-- The value of digits that may have a point among them. -/
def mantissaValue (mantissa : Input) (power : Int) : ℚ :=
  let parts := cutAt '.' mantissa
  digitsValue (parts.1 ++ parts.2) * 10 ^ (power - parts.2.length)

/-- The number that a text without a sign stands for. -/
def textValue (text : Input) : ℚ :=
  let parts := cutAt 'e' text
  mantissaValue parts.1 (signedValue parts.2)

theorem cutAt_append {mark : Char} {front : Input} (h : mark ∉ front) (back : Input) :
    cutAt mark (front ++ mark :: back) = (front, back) := by
  have hplain : ∀ c ∈ front, decide (c ≠ mark) = true := by
    intro c hc
    exact decide_eq_true fun heq => h (heq ▸ hc)
  rw [cutAt, List.takeWhile_append_of_pos hplain, List.dropWhile_append_of_pos hplain]
  simp

theorem cutAt_of_not_mem {mark : Char} {text : Input} (h : mark ∉ text) :
    cutAt mark text = (text, []) := by
  have hplain : ∀ c ∈ text, decide (c ≠ mark) = true := by
    intro c hc
    exact decide_eq_true fun heq => h (heq ▸ hc)
  rw [cutAt, List.takeWhile_eq_self_iff.2 hplain, List.dropWhile_eq_nil_iff.2 hplain]
  rfl

theorem Digits.not_mem {text : Input} (h : Digits text) {mark : Char}
    (hmark : mark.isDigit = false) : mark ∉ text := by
  intro hmem
  rw [h mark hmem] at hmark
  cases hmark

theorem mantissaValue_point {whole : Input} (h : Digits whole) (fraction : Input) (power : Int) :
    mantissaValue (whole ++ '.' :: fraction) power =
      digitsValue (whole ++ fraction) * 10 ^ (power - fraction.length) := by
  rw [mantissaValue, cutAt_append (h.not_mem (by decide))]

theorem mantissaValue_whole {whole : Input} (h : Digits whole) (power : Int) :
    mantissaValue whole power = digitsValue whole * 10 ^ power := by
  rw [mantissaValue, cutAt_of_not_mem (h.not_mem (by decide)), List.append_nil]
  simp only [List.length_nil, Int.natCast_zero, sub_zero]

theorem not_mem_point {whole fraction : Input} (hwhole : Digits whole)
    (hfraction : Digits fraction) : 'e' ∉ whole ++ '.' :: fraction := by
  rw [List.mem_append, List.mem_cons, not_or, not_or]
  exact ⟨hwhole.not_mem (by decide), by decide, hfraction.not_mem (by decide)⟩

/-- A text without an exponent. -/
theorem textValue_point {whole fraction : Input} (hwhole : Digits whole)
    (hfraction : Digits fraction) :
    textValue (whole ++ '.' :: fraction) =
      digitsValue (whole ++ fraction) * 10 ^ (-(fraction.length : Int)) := by
  rw [textValue, cutAt_of_not_mem (not_mem_point hwhole hfraction), mantissaValue_point hwhole]
  simp only [signedValue, zero_sub]

theorem digitsValue_append_zeros (ds : Input) (n : Nat) :
    digitsValue (ds ++ zeros n) = digitsValue ds * 10 ^ n := by
  rw [digitsValue, Nat.ofDigitChars_append, zeros, Nat.ofDigitChars_replicate_zero, Nat.mul_comm]
  rfl

theorem signedValue_sign (leading : Int) :
    signedValue ((if leading < 0 then '-' else '+') :: Nat.toDigits 10 leading.natAbs) =
      leading := by
  split
  · next hneg =>
      rw [signedValue, digitsValue_toDigits]
      omega
  · next hnonneg =>
      rw [signedValue, digitsValue_toDigits]
      omega

theorem textValue_positional {d : Decimal} :
    textValue (Number.positionalText ".0" (Nat.toDigits 10 d.significand) d.exponent) =
      d.value := by
  have hdigits := digits_toDigits d.significand
  rw [Number.positionalText, Decimal.value]
  split
  · next hnonneg =>
      show textValue (_ ++ '.' :: zeros 1) = _
      rw [textValue_point (hdigits.append (digits_zeros _)) (digits_zeros 1),
        digitsValue_append_zeros, digitsValue_append_zeros, digitsValue_toDigits]
      obtain ⟨k, hk⟩ := Int.eq_ofNat_of_zero_le hnonneg
      rw [hk, Int.toNat_natCast, zpow_natCast]
      show ((d.significand * 10 ^ k * 10 ^ 1 : Nat) : ℚ) * 10 ^ (-1 : Int) = _
      push_cast
      rw [mul_assoc]
      norm_num
  · next hneg =>
      have hexponent : -((-d.exponent).toNat : Int) = d.exponent := by omega
      dsimp only
      split
      · next hinside =>
          have hlength : ((Nat.toDigits 10 d.significand).drop
              ((Nat.toDigits 10 d.significand).length - (-d.exponent).toNat)).length =
              (-d.exponent).toNat := by
            rw [List.length_drop]
            omega
          rw [textValue_point (fun c hc => hdigits c (List.mem_of_mem_take hc))
            (fun c hc => hdigits c (List.mem_of_mem_drop hc)), List.take_append_drop, hlength,
            hexponent, digitsValue_toDigits]
      · next hbefore =>
          have hlength : (zeros ((-d.exponent).toNat - (Nat.toDigits 10 d.significand).length) ++
              Nat.toDigits 10 d.significand).length = (-d.exponent).toNat := by
            rw [List.length_append, zeros, List.length_replicate]
            omega
          show textValue (zeros 1 ++ '.' :: (zeros _ ++ Nat.toDigits 10 d.significand)) = _
          rw [textValue_point (digits_zeros 1) ((digits_zeros _).append hdigits), hlength,
            digitsValue_zeros_append, digitsValue_zeros_append, hexponent, digitsValue_toDigits]

/-- Behind the point stand all digits but the first. -/
theorem textValue_scientificText {c : Char} {cs : Input} (hdigits : Digits (c :: cs))
    (leading : Int) :
    textValue (Number.scientificText (c :: cs) leading) =
      digitsValue (c :: cs) * 10 ^ (leading - cs.length) := by
  have hfirst : Digits [c] := fun x hx => hdigits x (by simp [List.mem_singleton.1 hx])
  have hsign := signedValue_sign leading
  rw [Number.scientificText.eq_def]
  dsimp only
  generalize (if leading < 0 then '-' else '+') :: Nat.toDigits 10 leading.natAbs = power at *
  cases cs with
  | nil =>
      show textValue ([c] ++ 'e' :: power) = _
      rw [textValue, cutAt_append (hfirst.not_mem (by decide))]
      dsimp only
      rw [hsign, mantissaValue_whole hfirst, List.length_nil, Int.natCast_zero, sub_zero]
  | cons r rs =>
      show textValue (([c] ++ '.' :: (r :: rs)) ++ 'e' :: power) = _
      rw [textValue, cutAt_append (not_mem_point hfirst hdigits.tail)]
      dsimp only
      rw [hsign, mantissaValue_point hfirst]
      rfl

theorem textValue_scientific {d : Decimal} :
    textValue (Number.scientificText (Nat.toDigits 10 d.significand)
      (d.exponent + (Nat.toDigits 10 d.significand).length - 1)) = d.value := by
  have hdigits := digits_toDigits d.significand
  have hvalue := digitsValue_toDigits d.significand
  obtain ⟨c, cs, hcons⟩ :=
    List.exists_cons_of_ne_nil (Nat.toDigits_ne_nil (n := d.significand) (b := 10))
  rw [hcons] at hdigits hvalue ⊢
  have hexponent : d.exponent + (c :: cs).length - 1 - cs.length = d.exponent := by
    rw [List.length_cons]
    omega
  rw [textValue_scientificText hdigits, hvalue, hexponent, Decimal.value]

/-- The value of a decimal can be told from its text. -/
theorem textValue_text (d : Decimal) : textValue (d.text numberLayout) = d.value := by
  rw [Decimal.text]
  split
  · exact textValue_positional
  · exact textValue_scientific

/-! ## The form of a text -/

/-- The text of a finite number without its sign. It shows a fraction or an exponent. -/
inductive FloatBody : Input → Prop
  | intro {whole fraction exponent : Input} : WholeText whole → FractionText fraction →
      ExponentText exponent → fraction ++ exponent ≠ [] →
      FloatBody (whole ++ (fraction ++ exponent))

theorem FloatBody.fraction {whole fs : Input} (hwhole : WholeText whole) (hfs : Digits fs)
    (hne : fs ≠ []) : FloatBody (whole ++ '.' :: fs) := by
  obtain ⟨d, ds, rfl⟩ := List.exists_cons_of_ne_nil hne
  have hbody := FloatBody.intro hwhole (.digits hfs.head hfs.tail) .absent (by simp)
  rwa [List.append_nil] at hbody

theorem floatBody_positional {n : Nat} (hn : 0 < n) (exponent : Int) :
    FloatBody (Number.positionalText ".0" (Nat.toDigits 10 n) exponent) := by
  have hdigits := digits_toDigits n
  rw [Number.positionalText]
  split
  · exact .fraction (wholeText_append_zeros hn _) (digits_zeros 1) (List.cons_ne_nil _ _)
  · dsimp only
    split
    · have hrest :
          (Nat.toDigits 10 n).drop ((Nat.toDigits 10 n).length - (-exponent).toNat) ≠ [] := by
        rw [Ne, List.drop_eq_nil_iff]
        omega
      exact .fraction (wholeText_take hn (by omega))
        (fun c hc => hdigits c (List.mem_of_mem_drop hc)) hrest
    · exact .fraction .zero ((digits_zeros _).append hdigits)
        (List.append_ne_nil_of_right_ne_nil _ Nat.toDigits_ne_nil)

theorem exponentText_sign (leading : Int) :
    ExponentText ('e' :: (if leading < 0 then '-' else '+') ::
      Nat.toDigits 10 leading.natAbs) := by
  have hdigits := digits_toDigits leading.natAbs
  obtain ⟨d, ds, hcons⟩ :=
    List.exists_cons_of_ne_nil (Nat.toDigits_ne_nil (n := leading.natAbs) (b := 10))
  rw [hcons] at hdigits ⊢
  have hpower {sign : Input} (hsign : sign ∈ [[], ['+'], ['-']]) :
      ExponentText ('e' :: (sign ++ d :: ds)) :=
    .digits (.inl rfl) hsign hdigits.head hdigits.tail
  split
  · exact hpower (List.mem_cons_of_mem _ (List.mem_cons_of_mem _ List.mem_cons_self))
  · exact hpower (List.mem_cons_of_mem _ List.mem_cons_self)

theorem floatBody_scientific {n : Nat} (hn : 0 < n) (leading : Int) :
    FloatBody (Number.scientificText (Nat.toDigits 10 n) leading) := by
  have hdigits := digits_toDigits n
  obtain ⟨d, ds, hcons, hzero⟩ := toDigits_head hn
  rw [hcons] at hdigits ⊢
  have hwhole : WholeText [d] := .digits hdigits.head hzero fun c hc => nomatch hc
  have hpower := exponentText_sign leading
  rw [Number.scientificText.eq_def]
  dsimp only
  cases ds with
  | nil => exact .intro hwhole .absent hpower (List.cons_ne_nil _ _)
  | cons r rs =>
      exact .intro hwhole (.digits hdigits.tail.head hdigits.tail.tail) hpower
        (List.cons_ne_nil _ _)

theorem floatBody_text {d : Decimal} (hd : 0 < d.significand) :
    FloatBody (d.text numberLayout) := by
  rw [Decimal.text]
  split
  · exact floatBody_positional hd _
  · exact floatBody_scientific hd _

theorem WholeText.digits_all {whole : Input} (h : WholeText whole) : Digits whole := by
  cases h with
  | zero => exact digits_zeros 1
  | digits hd _ hds => exact List.forall_mem_cons.2 ⟨hd, hds⟩

theorem FloatBody.head {text : Input} (h : FloatBody text) :
    ∃ c cs, text = c :: cs ∧ c.isDigit = true := by
  obtain ⟨hwhole, -, -, -⟩ := h
  obtain ⟨c, cs, rfl, hc⟩ := hwhole.head
  exact ⟨c, _, rfl, hc⟩

/-- So it is not the text of a natural number. -/
theorem FloatBody.not_digits {text : Input} (h : FloatBody text) : ¬ Digits text := by
  obtain ⟨hwhole, hfraction, hexponent, hne⟩ := h
  intro hall
  cases hfraction with
  | digits => exact absurd (hall '.' (by simp)) (by decide)
  | absent =>
      cases hexponent with
      | absent => exact hne rfl
      | @digits e _ _ _ he =>
          have hdigit := hall e (by simp)
          rcases he with rfl | rfl <;> cases hdigit

/-! ## Numbers are told apart -/

/-- The texts of the finite numbers. Without its sign, the text of a number stands for a
decimal that rounds to the number. -/
theorem exists_body {x : Float} (hx : x.isFinite = true) :
    ∃ sign body, (numberLayout.text x).toList = Number.signText sign ++ body ∧ FloatBody body ∧
      (decode x = .zero sign ∧ textValue body = 0 ∨
        ∃ m e hm, decode x = .finite sign m e hm ∧
          (Neighbourhood.ofBinary m e).Holds (textValue body)) := by
  change x.toModel.unpack.isFinite = true at hx
  rw [Number.Layout.text]
  rcases hdecode : x.toModel.unpack with sign | _ | sign | ⟨sign, m, e, hm⟩ <;> rw [hdecode] at hx
  case zero =>
      refine ⟨sign, ['0'] ++ '.' :: ['0'], String.toList_ofList, ?_, .inl ⟨hdecode, ?_⟩⟩
      · exact .fraction .zero (digits_zeros 1) (List.cons_ne_nil _ _)
      · exact (textValue_point (digits_zeros 1) (digits_zeros 1)).trans (zero_mul _)
  case finite =>
      have hcanonical := Number.decode_canonical hdecode
      have hpos := (Number.shortest_spec .toEven hm hcanonical.short e).1
      refine ⟨sign, _, String.toList_ofList, floatBody_text hpos, .inr ⟨m, e, hm, hdecode, ?_⟩⟩
      rw [textValue_text]
      exact Number.holds_shortest .toEven hm hcanonical.short e
  all_goals cases hx

theorem signText_append_inj {sign sign' : Float.Model.UnpackedFloat.Sign} {body body' : Input}
    (hbody : FloatBody body) (hbody' : FloatBody body')
    (h : Number.signText sign ++ body = Number.signText sign' ++ body') :
    sign = sign' ∧ body = body' := by
  obtain ⟨c, cs, rfl, hc⟩ := hbody.head
  obtain ⟨c', cs', rfl, hc'⟩ := hbody'.head
  cases sign <;> cases sign'
  · exact ⟨rfl, List.append_cancel_left h⟩
  · obtain ⟨rfl, -⟩ := List.cons_eq_cons.1 h
    cases hc'
  · obtain ⟨rfl, -⟩ := List.cons_eq_cons.1 h
    cases hc
  · exact ⟨rfl, h⟩

/-- Two finite numbers with the same text are the same, bit for bit. -/
theorem numberLayout_text_injective {x y : Float} (hx : x.isFinite = true)
    (hy : y.isFinite = true) (h : numberLayout.text x = numberLayout.text y) : x = y := by
  obtain ⟨sign, body, htext, hbody, hvalue⟩ := exists_body hx
  obtain ⟨sign', body', htext', hbody', hvalue'⟩ := exists_body hy
  rw [h, htext'] at htext
  obtain ⟨rfl, rfl⟩ := signText_append_inj hbody' hbody htext
  apply Number.eq_of_decode_eq
  rcases hvalue with ⟨hx, hzero⟩ | ⟨m, e, hm, hx, hholds⟩ <;>
    rcases hvalue' with ⟨hy, hzero'⟩ | ⟨m', e', hm', hy, hholds'⟩
  · rw [hx, hy]
  · exact absurd (hholds'.pos hm') (by rw [hzero]; exact lt_irrefl 0)
  · exact absurd (hholds.pos hm) (by rw [hzero']; exact lt_irrefl 0)
  · obtain ⟨rfl, rfl⟩ := Neighbourhood.holds_unique (Number.decode_canonical hx)
      (Number.decode_canonical hy) hholds hholds'
    rw [hx, hy]

end Lindenmayer.Json
