import Lindenmayer.Proofs.JsonNumbers
import Lindenmayer.Proofs.Roundoff
import Lindenmayer.Proofs.ShortestDigits
import Lindenmayer.Json.Value

/-!
# A finite number is written so that it can be read

The text of a finite number is a number, and its digits fit into 64 bits. What could
still go wrong is that the number is out of range, for a reader that multiplies a whole
number by a power of ten rounds three times. Below the six largest doubles there is
room for that. Those six are read one by one.

A decimal with a point, or with zeros for digits after a point, comes with a negative
exponent, and division by a power of ten never fails.
-/

namespace Lindenmayer.Json

open Number (Decimal shortest decode roundoff)

variable {negative : Bool} {significand : Nat}

/-! ## Numbers in range -/

theorem scaleBy_of_neg (fuel : Nat) (x : Float) {exponent : Int} (h : exponent < 0) :
    ∃ y, scaleBy fuel x exponent = .ok y := by
  induction fuel generalizing x exponent with
  | zero => exact ⟨_, rfl⟩
  | succ fuel ih =>
      have hneg : ¬ 0 ≤ exponent := Int.not_le.2 h
      rw [scaleBy]
      simp only [if_neg hneg]
      split
      · exact ⟨_, rfl⟩
      · next hlarge =>
          split
          · exact ⟨_, rfl⟩
          · exact ih _ (by omega)

theorem floatOf_of_neg (negative : Bool) (significand : Nat) {exponent : Int} (h : exponent < 0) :
    ∃ y, floatOf negative significand exponent = .ok y := by
  obtain ⟨y, hy⟩ := scaleBy_of_neg 5 significand.toUInt64.toFloat h
  rw [floatOf, hy]
  exact ⟨_, rfl⟩

/-- A number is read if there is room for three roundings. -/
theorem floatOf_of_room (hpos : 0 < significand) (hlt : significand < UInt64.size) {k : Nat}
    (hlimit : (significand : ℚ) * 10 ^ k * roundoff ^ 3 < 2 ^ 1024) :
    ∃ y, floatOf negative significand k = .ok y := by
  have hone : (1 : ℚ) ≤ significand := by exact_mod_cast hpos
  have hpower : (10 : ℚ) ^ k < 2 ^ 1024 :=
    calc (10 : ℚ) ^ k = 1 * 10 ^ k * 1 ^ 3 := by ring
      _ ≤ significand * 10 ^ k * roundoff ^ 3 := by
        have := Number.one_le_roundoff
        gcongr
      _ < 2 ^ 1024 := hlimit
  have hk : (k : Int).natAbs ≤ 308 := Number.le_of_ten_pow_lt hpower
  have hfinite := Number.isInf_scaled hpos hlt hlimit
  rw [floatOf, scaleBy, if_pos hk]
  simp only [Int.natAbs_natCast, Int.natCast_nonneg, if_true, hfinite, Bool.false_eq_true, if_false]
  exact ⟨_, rfl⟩

/-- The shortest decimals of the six largest doubles. -/
def isReadBack (m : Nat) : Bool :=
  let d := shortest .toEven m 971
  (floatOf false d.significand d.exponent).isOk && (floatOf true d.significand d.exponent).isOk

theorem isReadBack_largest : ∀ i < 6, isReadBack (2 ^ 53 - 6 + i) = true := by
  decide +kernel

theorem exists_of_isOk {r : Except Fault Float} (h : r.isOk = true) : ∃ y, r = .ok y := by
  cases r with
  | error _ => cases h
  | ok y => exact ⟨y, rfl⟩

theorem floatOf_shortest (negative : Bool) {m : Nat} (hm : 0 < m) (hlt : m < 2 ^ 53) {e : Int}
    (he : e ≤ 971) :
    ∃ y, floatOf negative (shortest .toEven m e).significand (shortest .toEven m e).exponent =
      .ok y := by
  rcases lt_or_ge (shortest .toEven m e).exponent 0 with hneg | hnonneg
  · exact floatOf_of_neg _ _ hneg
  by_cases hlargest : e = 971 → m < 2 ^ 53 - 6
  · obtain ⟨hpos, hdigits, hvalue⟩ := Number.shortest_spec .toEven hm hlt e
    obtain ⟨k, hk⟩ := Int.eq_ofNat_of_zero_le hnonneg
    rw [Decimal.value, hk, zpow_natCast] at hvalue
    rw [hk]
    refine floatOf_of_room hpos (Nat.lt_of_le_of_lt hdigits (by decide)) ?_
    refine lt_of_le_of_lt ?_ (Number.room_for_rounding hlt he hlargest)
    have := Number.roundoff_pos
    gcongr
  · -- Three roundings might go too far from here, but none of these six does.
    obtain ⟨rfl, hlarge⟩ := Classical.not_imp.1 hlargest
    obtain ⟨i, rfl⟩ := Nat.exists_eq_add_of_le (Nat.le_of_not_lt hlarge)
    have hread := isReadBack_largest i (by omega)
    rw [isReadBack, Bool.and_eq_true] at hread
    cases negative with
    | false => exact exists_of_isOk hread.1
    | true => exact exists_of_isOk hread.2

/-! ## Digits with a point -/

theorem Digits.append {ds fs : Input} (hds : Digits ds) (hfs : Digits fs) : Digits (ds ++ fs) :=
  fun c hc => (List.mem_append.1 hc).elim (hds c) (hfs c)

theorem digits_zeros (n : Nat) : Digits (Number.zeros n) := by
  intro c hc
  rw [List.eq_of_mem_replicate hc]
  rfl

theorem digitsValue_zeros_append (n : Nat) (ds : Input) :
    Number.digitsValue (Number.zeros n ++ ds) = Number.digitsValue ds := by
  induction n with
  | zero => rfl
  | succ n ih => exact ih

theorem readScale_of_neg {exponent : Int} (h : exponent < 0) :
    ∃ y, readScale negative significand exponent [] = .ok (.float y, []) := by
  obtain ⟨y, hy⟩ := floatOf_of_neg negative significand h
  refine ⟨y, ?_⟩
  show (fun x => (Numeric.float x, [])) <$> floatOf negative significand exponent = _
  rw [hy]
  rfl

theorem WholeText.readNumber_fraction {ds fs : Input} (hds : WholeText ds) (hfs : Digits fs)
    (hne : fs ≠ []) (hfit : Number.digitsValue (ds ++ fs) ≤ wordLimit) :
    ∃ y, readNumber negative (ds ++ '.' :: fs) = .ok (.float y, []) := by
  have hend : NoDigit [] := trivial
  have hlen : -(fs.length : Int) < 0 := by
    have := List.length_pos_iff.2 hne
    omega
  have hread : readNumber negative (ds ++ '.' :: (fs ++ [])) = _ :=
    hds.readNumber_point hfs hne hend hfit
  rw [List.append_nil] at hread
  rw [hread]
  exact readScale_of_neg hlen

theorem wholeText_take {n : Nat} (hn : 0 < n) {p : Nat} (hp : 0 < p) :
    WholeText ((Nat.toDigits 10 n).take p) := by
  obtain ⟨d, ds, hcons, hzero⟩ := toDigits_head hn
  obtain ⟨p, rfl⟩ := Nat.exists_eq_add_of_lt hp
  have hdigits := digits_toDigits n
  rw [hcons] at hdigits ⊢
  rw [Nat.zero_add, List.take_succ_cons]
  exact WholeText.digits hdigits.head hzero fun c hc => hdigits.tail c (List.mem_of_mem_take hc)

theorem wholeText_append_zeros {n : Nat} (hn : 0 < n) (zeros : Nat) :
    WholeText (Nat.toDigits 10 n ++ Number.zeros zeros) := by
  obtain ⟨d, ds, hcons, hzero⟩ := toDigits_head hn
  have hall := (digits_toDigits n).append (digits_zeros zeros)
  rw [hcons] at hall ⊢
  exact WholeText.digits hall.head hzero hall.tail

/-- Zeros stand behind the digits, and one more behind the point. -/
theorem readNumber_zeros_after {n : Nat} (hpos : 0 < n) {zeros : Nat}
    (hlength : (Nat.toDigits 10 n).length + zeros ≤ 16) :
    ∃ y, readNumber negative (Nat.toDigits 10 n ++ Number.zeros zeros ++ ['.', '0']) =
      .ok (.float y, []) := by
  have hall : Digits (Nat.toDigits 10 n ++ Number.zeros zeros) :=
    (digits_toDigits n).append (digits_zeros _)
  have hlt := ofDigitChars_lt (hall.append (digits_zeros 1))
  have hfit : 10 ^ 17 ≤ wordLimit := by decide
  refine (wholeText_append_zeros hpos zeros).readNumber_fraction (digits_zeros 1)
    (List.cons_ne_nil _ _) (Nat.le_trans (Nat.le_of_lt hlt) (Nat.le_trans ?_ hfit))
  refine Nat.pow_le_pow_right (by decide) ?_
  simp only [List.length_append, Number.zeros, List.length_replicate]
  omega

theorem readNumber_point_inside {n : Nat} (hpos : 0 < n) (hn : n ≤ wordLimit) {p : Nat}
    (hp : 0 < p) (hlt : p < (Nat.toDigits 10 n).length) :
    ∃ y, readNumber negative
      ((Nat.toDigits 10 n).take p ++ '.' :: (Nat.toDigits 10 n).drop p) = .ok (.float y, []) := by
  have hrest : (Nat.toDigits 10 n).drop p ≠ [] := by
    rw [Ne, List.drop_eq_nil_iff]
    omega
  refine (wholeText_take hpos hp).readNumber_fraction
    (fun c hc => digits_toDigits n c (List.mem_of_mem_drop hc)) hrest ?_
  rwa [List.take_append_drop, digitsValue_toDigits]

theorem readNumber_zeros_before {n : Nat} (hn : n ≤ wordLimit) (zeros : Nat) :
    ∃ y, readNumber negative ('0' :: '.' :: (Number.zeros zeros ++ Nat.toDigits 10 n)) =
      .ok (.float y, []) := by
  refine WholeText.zero.readNumber_fraction ((digits_zeros _).append (digits_toDigits n))
    (List.append_ne_nil_of_right_ne_nil _ Nat.toDigits_ne_nil) ?_
  show Number.digitsValue (Number.zeros (zeros + 1) ++ Nat.toDigits 10 n) ≤ wordLimit
  rwa [digitsValue_zeros_append, digitsValue_toDigits]

theorem readNumber_positional {n : Nat} (hpos : 0 < n) (hn : n ≤ wordLimit) {exponent : Int}
    (hleading : exponent + (Nat.toDigits 10 n).length - 1 < 16) :
    ∃ y, readNumber negative (Number.positionalText ".0" (Nat.toDigits 10 n) exponent) =
      .ok (.float y, []) := by
  rw [Number.positionalText]
  split
  · exact readNumber_zeros_after hpos (by omega)
  · dsimp only
    split
    · exact readNumber_point_inside hpos hn (by omega) (by omega)
    · exact readNumber_zeros_before hn _

/-! ## Digits with an exponent -/

theorem floatOf_clampExponent {e : Int} (he : e ≤ exponentLimit)
    (h : ∃ y, floatOf negative significand e = .ok y) :
    ∃ y, floatOf negative significand (clampExponent e) = .ok y := by
  rw [clampExponent, if_neg (Int.not_lt.2 he)]
  split
  · exact floatOf_of_neg _ _ (by decide)
  · exact h

theorem powered_down (negative : Bool) (significand : Nat) {exponent : Int} {e : Nat}
    (h : exponent - e < 0) :
    ∃ y, powered negative significand exponent true e = .ok (.float y) := by
  rw [powered]
  split
  · exact ⟨_, if_neg (by simp)⟩
  · obtain ⟨y, hy⟩ := floatOf_clampExponent (by omega) (floatOf_of_neg negative significand h)
    rw [if_pos rfl, hy]
    exact ⟨y, rfl⟩

theorem powered_up {exponent : Int} {e : Nat} (he : e ≤ exponentLimit) (hneg : exponent ≤ 0)
    (hfloat : ∃ y, floatOf negative significand (exponent + e) = .ok y) :
    ∃ y, powered negative significand exponent false e = .ok (.float y) := by
  obtain ⟨y, hy⟩ := floatOf_clampExponent (by omega) hfloat
  rw [powered, if_neg (Nat.not_lt.2 he), if_neg Bool.false_ne_true, hy]
  exact ⟨y, rfl⟩

theorem readPower_toDigits (exponent : Int) (down : Bool) (n : Nat) :
    readPower negative significand exponent down (Nat.toDigits 10 n) =
      (·, []) <$> powered negative significand exponent down n := by
  have hdigits := digits_toDigits n
  have hvalue := digitsValue_toDigits n
  obtain ⟨d, ds, hcons⟩ := List.exists_cons_of_ne_nil (Nat.toDigits_ne_nil (n := n) (b := 10))
  rw [hcons] at hdigits hvalue ⊢
  have htake : (d :: ds).takeWhile Char.isDigit = d :: ds := List.takeWhile_eq_self_iff.2 hdigits
  have hdrop : (d :: ds).dropWhile Char.isDigit = [] := List.dropWhile_eq_nil_iff.2 hdigits
  rw [readPower_cons, if_pos hdigits.head, htake, hdrop, hvalue]

/-- Behind the point stand all digits but the first. -/
theorem readNumber_scientificText {d : Char} {ds : Input} (hdigits : Digits (d :: ds))
    (hzero : d ≠ '0') (hfit : Number.digitsValue (d :: ds) ≤ wordLimit) (leading : Int) :
    readNumber negative (Number.scientificText (d :: ds) leading) =
      readExponent negative (Number.digitsValue (d :: ds)) (-ds.length)
        ((if leading < 0 then '-' else '+') :: Nat.toDigits 10 leading.natAbs) := by
  have hwhole : WholeText [d] :=
    WholeText.digits hdigits.head hzero fun c hc => (List.not_mem_nil hc).elim
  rw [Number.scientificText.eq_def]
  dsimp only
  generalize (if leading < 0 then '-' else '+') :: Nat.toDigits 10 leading.natAbs = power
  have hmark : NoDigit ('e' :: power) := rfl
  cases ds with
  | nil => exact hwhole.readNumber_append hfit hmark
  | cons r rs => exact hwhole.readNumber_point hdigits.tail (List.cons_ne_nil r rs) hmark hfit

theorem readNumber_scientific {n : Nat} (hpos : 0 < n) (hn : n ≤ wordLimit) {exponent : Int}
    (hleading : exponent + (Nat.toDigits 10 n).length - 1 ≤ exponentLimit)
    (hfloat : ∃ y, floatOf negative n exponent = .ok y) :
    ∃ y, readNumber negative (Number.scientificText (Nat.toDigits 10 n)
      (exponent + (Nat.toDigits 10 n).length - 1)) = .ok (.float y, []) := by
  have hvalue := digitsValue_toDigits n
  have hdigits := digits_toDigits n
  obtain ⟨d, ds, hcons, hzero⟩ := toDigits_head hpos
  rw [hcons] at hvalue hdigits hleading ⊢
  rw [List.length_cons] at hleading ⊢
  obtain ⟨leading, hl⟩ : ∃ leading, exponent + (ds.length + 1 : Nat) - 1 = leading := ⟨_, rfl⟩
  rw [hl] at hleading ⊢
  rw [readNumber_scientificText hdigits hzero (by rwa [hvalue]), hvalue, readExponent_eq]
  rcases lt_or_ge leading 0 with hdown | hup
  · obtain ⟨y, hy⟩ := powered_down negative n
      (show -(ds.length : Int) - leading.natAbs < 0 by omega)
    simp only [if_pos hdown, exponentSign, readPower_toDigits, hy]
    exact ⟨y, rfl⟩
  · have hexponent : -(ds.length : Int) + leading.natAbs = exponent := by omega
    rw [← hexponent] at hfloat
    obtain ⟨y, hy⟩ := powered_up (by omega) (by omega) hfloat
    simp only [if_neg (Int.not_lt.2 hup), exponentSign, readPower_toDigits, hy]
    exact ⟨y, rfl⟩

/-! ## The text of a number -/

theorem shortest_exponent_le {m : Nat} (hm : 0 < m) (hlt : m < 2 ^ 53) {e : Int} (he : e ≤ 971) :
    (shortest .toEven m e).exponent ≤ 308 := by
  obtain ⟨hpos, -, hvalue⟩ := Number.shortest_spec .toEven hm hlt e
  rcases lt_or_ge (shortest .toEven m e).exponent 0 with hneg | hnonneg
  · omega
  obtain ⟨k, hk⟩ := Int.eq_ofNat_of_zero_le hnonneg
  rw [Decimal.value, hk, zpow_natCast] at hvalue
  have hone : (1 : ℚ) ≤ (shortest .toEven m e).significand := by exact_mod_cast hpos
  have hm' : (4 * m + 2 : ℚ) < 2 ^ 55 := by
    have : 4 * m + 2 < 2 ^ 55 := by omega
    exact_mod_cast this
  have hpow : (2 : ℚ) ^ (e - 2) ≤ 2 ^ (969 : Int) := zpow_le_zpow_right₀ (by norm_num) (by omega)
  have hlimit : (10 : ℚ) ^ k < 2 ^ 1024 :=
    calc (10 : ℚ) ^ k ≤ (shortest .toEven m e).significand * 10 ^ k :=
          le_mul_of_one_le_left (by positivity) hone
      _ ≤ (4 * m + 2) * 2 ^ (e - 2) := hvalue
      _ ≤ (4 * m + 2) * 2 ^ (969 : Int) := by gcongr
      _ < 2 ^ 55 * 2 ^ (969 : Int) := mul_lt_mul_of_pos_right hm' (by positivity)
      _ = 2 ^ 1024 := (pow_add 2 55 969).symm
  have := Number.le_of_ten_pow_lt hlimit
  omega

theorem readNumber_shortest {m : Nat} (hm : 0 < m) (hlt : m < 2 ^ 53) {e : Int} (he : e ≤ 971) :
    ∃ y, readNumber negative ((shortest .toEven m e).text numberLayout) = .ok (.float y, []) := by
  obtain ⟨hpos, hdigits, -⟩ := Number.shortest_spec .toEven hm hlt e
  have hexponent := shortest_exponent_le hm hlt he
  have hfloat := floatOf_shortest negative hm hlt he
  generalize shortest .toEven m e = d at hpos hdigits hexponent hfloat ⊢
  have hfit : d.significand ≤ wordLimit := Nat.le_trans hdigits (by decide)
  rw [Decimal.text]
  split
  · next hpositional =>
      refine readNumber_positional hpos hfit ?_
      simp only [numberLayout, Bool.and_eq_true, decide_eq_true_eq] at hpositional
      exact hpositional.2
  · refine readNumber_scientific hpos hfit ?_ hfloat
    have hlength : (Nat.toDigits 10 d.significand).length ≤ 18 :=
      (Nat.length_toDigits_le_iff (by decide) (by decide)).2
        (Nat.lt_of_le_of_lt hdigits (by decide))
    have hlimit : exponentLimit = 2147483647 := rfl
    omega

/-- The sign and the digits of a number that is not zero. -/
theorem readNumeric_signed (sign : Float.Model.UnpackedFloat.Sign) {text : Input}
    (h : ∀ negative, ∃ y, readNumber negative text = .ok (.float y, [])) :
    ∃ c cs y, Number.signText sign ++ text = c :: cs ∧ (c.isDigit = true ∨ c = '-') ∧
      readNumeric (c :: cs) = .ok (.float y, []) := by
  cases sign with
  | positive =>
      obtain ⟨y, hread⟩ := h false
      obtain ⟨c, cs, rfl, hc⟩ := head_of_readNumber hread
      exact ⟨c, cs, y, rfl, Or.inl hc, by rw [readNumeric_digit hc, hread]⟩
  | negative =>
      obtain ⟨y, hread⟩ := h true
      exact ⟨'-', text, y, rfl, Or.inr rfl, hread⟩

/-- The text of a finite number is read, and it starts like a number. -/
theorem numberText_spec {x : Float} (hx : x.isFinite = true) :
    ∃ c cs y, (numberLayout.text x).toList = c :: cs ∧ (c.isDigit = true ∨ c = '-') ∧
      readNumeric (c :: cs) = .ok (.float y, []) := by
  change x.toModel.unpack.isFinite = true at hx
  rw [Number.Layout.text]
  rcases hdecode : x.toModel.unpack with sign | _ | sign | ⟨sign, m, e, hm⟩ <;> rw [hdecode] at hx
  case zero =>
      rw [String.toList_ofList]
      exact readNumeric_signed sign fun negative =>
        WholeText.zero.readNumber_fraction (digits_zeros 1) (List.cons_ne_nil _ _) (by decide)
  case finite =>
      rw [String.toList_ofList]
      have hcanonical := Number.decode_canonical hdecode
      exact readNumeric_signed sign fun negative =>
        readNumber_shortest hm hcanonical.short hcanonical.high
  all_goals cases hx

end Lindenmayer.Json
