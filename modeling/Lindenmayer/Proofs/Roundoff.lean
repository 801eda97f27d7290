import Lindenmayer.Proofs.SignedZero

/-!
# How far rounding goes

Rounding keeps 53 bits of a significand and may add one to the last of them. So the
result exceeds what was rounded by at most one part in `2 ^ 52`. This is twice what
rounding to the nearest can do, but it is enough to see that a number well below
`2 ^ 1024` stays finite, after a conversion, a power of ten and a product alike.
-/

namespace Lindenmayer.Number

open Float.Model (UnpackedFloat Format totalExponent)
open Float.Model.UnpackedFloat

/-- What a significand may be multiplied by when it is rounded. -/
def roundoff : ℚ := 1 + 1 / 2 ^ 52

theorem roundoff_pos : 0 < roundoff := by
  rw [roundoff]
  norm_num

theorem one_le_roundoff : 1 ≤ roundoff := by
  rw [roundoff]
  norm_num

theorem roundedMantissa_le (em : ExtendedMantissa) : em.roundedMantissa ≤ em.mantissa + 1 := by
  rw [ExtendedMantissa.roundedMantissa]
  generalize em.accuracy = accuracy
  rcases accuracy with _ | _ | _ | _ <;> simp only [Accuracy.roundToNearestEven] <;> omega

/-- The significand after the shift to 53 bits and the rounding. -/
def shiftedAndRounded (m : Nat) : Nat :=
  (ExtendedMantissa.ofMantissaAndAccuracy m .exact >>> (m.log2 - 52)).roundedMantissa

theorem shiftedAndRounded_of_short {m : Nat} (h : m.log2 ≤ 52) : shiftedAndRounded m = m := by
  have hshift : m.log2 - 52 = 0 := by omega
  rw [shiftedAndRounded, hshift]
  rfl

theorem le_shiftedAndRounded (m : Nat) : m / 2 ^ (m.log2 - 52) ≤ shiftedAndRounded m := by
  have := mantissa_le_roundedMantissa
    (ExtendedMantissa.ofMantissaAndAccuracy m .exact >>> (m.log2 - 52))
  rwa [shiftRight_mantissa, ofMantissaAndAccuracy_mantissa] at this

theorem shiftedAndRounded_le (m : Nat) : shiftedAndRounded m ≤ m / 2 ^ (m.log2 - 52) + 1 := by
  have := roundedMantissa_le
    (ExtendedMantissa.ofMantissaAndAccuracy m .exact >>> (m.log2 - 52))
  rwa [shiftRight_mantissa, ofMantissaAndAccuracy_mantissa] at this

/-- In the scale of the significand, rounding adds at most one part in `2 ^ 52`. -/
theorem shiftedAndRounded_mul_le {m : Nat} (hm : 0 < m) :
    (shiftedAndRounded m : ℚ) * 2 ^ (m.log2 - 52) ≤ m * roundoff := by
  have hm' : (0 : ℚ) < m := Nat.cast_pos.2 hm
  rcases le_or_gt m.log2 52 with hshort | hlong
  · rw [shiftedAndRounded_of_short hshort, Nat.sub_eq_zero_of_le hshort, pow_zero, mul_one,
      roundoff]
    linarith [show (0 : ℚ) < m * (1 / 2 ^ 52) by positivity]
  · have hround : (shiftedAndRounded m : ℚ) ≤ (m / 2 ^ (m.log2 - 52) : Nat) + 1 := by
      exact_mod_cast shiftedAndRounded_le m
    have hdiv : ((m / 2 ^ (m.log2 - 52) : Nat) : ℚ) * 2 ^ (m.log2 - 52) ≤ m := by
      exact_mod_cast Nat.div_mul_le_self m _
    have hlast : (2 : ℚ) ^ (m.log2 - 52) * 2 ^ 52 ≤ m := by
      rw [← pow_add, Nat.sub_add_cancel (Nat.le_of_lt hlong)]
      exact_mod_cast Nat.log2_self_le (Nat.ne_of_gt hm)
    calc (shiftedAndRounded m : ℚ) * 2 ^ (m.log2 - 52)
        ≤ ((m / 2 ^ (m.log2 - 52) : Nat) + 1) * 2 ^ (m.log2 - 52) := by gcongr
      _ ≤ m + 2 ^ (m.log2 - 52) := by linarith
      _ ≤ m * roundoff := by
        rw [roundoff]
        linarith [show (2 : ℚ) ^ (m.log2 - 52) ≤ m / 2 ^ 52 by
          rw [le_div_iff₀ (by positivity)]; exact hlast]

theorem two_pow_le_div {m : Nat} (h : 52 ≤ m.log2) : 2 ^ 52 ≤ m / 2 ^ (m.log2 - 52) := by
  have hm : m ≠ 0 := by
    rintro rfl
    exact absurd h (by decide)
  rw [Nat.le_div_iff_mul_le (Nat.two_pow_pos _), ← Nat.pow_add, Nat.add_sub_cancel' h]
  exact Nat.log2_self_le hm

/-- Rounding shifts twice. The second shift only happens where rounding carries into a
further bit. -/
theorem roundWithAccuracy_eq (sign : Sign) {m : Nat} (hm : 0 < m) {e : Int} (he : -1074 ≤ e) :
    ∃ h, roundWithAccuracy Format.binary64 sign m e .exact =
      .finite sign (shiftedAndRounded m / 2 ^ ((shiftedAndRounded m).log2 - 52))
        (e + (m.log2 - 52 : Nat) + ((shiftedAndRounded m).log2 - 52 : Nat)) h := by
  have he' : -1074 ≤ e + (m.log2 - 52 : Nat) := by omega
  have hpos : 0 < shiftedAndRounded m :=
    Nat.lt_of_lt_of_le (shifted_bounds hm).1 (le_shiftedAndRounded m)
  have hfinal := (shifted_bounds hpos).1
  refine ⟨hfinal, ?_⟩
  simp only [roundWithAccuracy, shiftToTargetExponent, shiftToExponent, shiftRight_mantissa,
    ofMantissaAndAccuracy_mantissa, targetExponent_sub_toNat he]
  simp only [targetExponent_sub_toNat he']
  exact dif_neg (Nat.ne_of_gt hfinal)

/-- A number in range is rounded to one that is at most one part in `2 ^ 52` larger. A
significand of 53 bits or more stays one of 53 bits. -/
theorem roundWithAccuracy_le (sign : Sign) {m : Nat} (hm : 2 ^ 52 ≤ m) {e : Int}
    (he : -1074 ≤ e) :
    ∃ m' e' h, roundWithAccuracy Format.binary64 sign m e .exact = .finite sign m' e' h ∧
      2 ^ 52 ≤ m' ∧ m' < 2 ^ 53 ∧ e ≤ e' ∧ (m' : ℚ) * 2 ^ e' ≤ m * 2 ^ e * roundoff := by
  have hpos : 0 < m := Nat.lt_of_lt_of_le (Nat.two_pow_pos _) hm
  have hlog : 52 ≤ m.log2 := (Nat.le_log2 (Nat.ne_of_gt hpos)).2 hm
  have hround := shiftedAndRounded_mul_le hpos
  have hlong : 2 ^ 52 ≤ shiftedAndRounded m :=
    Nat.le_trans (two_pow_le_div hlog) (le_shiftedAndRounded m)
  obtain ⟨hfinal, heq⟩ := roundWithAccuracy_eq sign hpos he
  generalize shiftedAndRounded m = r at hround hlong hfinal heq
  have hrpos : 0 < r := Nat.lt_of_lt_of_le (Nat.two_pow_pos _) hlong
  have hrlog : 52 ≤ r.log2 := (Nat.le_log2 (Nat.ne_of_gt hrpos)).2 hlong
  refine ⟨_, _, hfinal, heq, two_pow_le_div hrlog, (shifted_bounds hrpos).2, by omega, ?_⟩
  have hdiv : ((r / 2 ^ (r.log2 - 52) : Nat) : ℚ) * 2 ^ (r.log2 - 52) ≤ r := by
    exact_mod_cast Nat.div_mul_le_self _ _
  calc ((r / 2 ^ (r.log2 - 52) : Nat) : ℚ) * 2 ^ (e + (m.log2 - 52 : Nat) + (r.log2 - 52 : Nat))
      = (r / 2 ^ (r.log2 - 52) : Nat) * 2 ^ (r.log2 - 52) * 2 ^ (m.log2 - 52) * 2 ^ e := by
        rw [zpow_add₀ (by norm_num), zpow_add₀ (by norm_num), zpow_natCast, zpow_natCast]
        ring
    _ ≤ r * 2 ^ (m.log2 - 52) * 2 ^ e := by gcongr
    _ ≤ m * roundoff * 2 ^ e := by gcongr
    _ = m * 2 ^ e * roundoff := by ring

/-! ## Numbers of 53 bits -/

theorem implicitBit_append {m : Nat} (hlow : 2 ^ 52 ≤ m) (hlt : m < 2 ^ 53) :
    (1#1 ++ BitVec.ofNat 52 m).toNat = m := by
  rw [BitVec.toNat_append, BitVec.toNat_ofNat, Nat.shiftLeft_eq]
  show 2 ^ 52 ||| m % 2 ^ 52 = m
  rw [Nat.or_comm, Nat.or_two_pow_eq_add_of_lt (Nat.mod_lt m (Nat.two_pow_pos 52))]
  omega

theorem pack_normal {sign : Sign} {m : Nat} {e : Int} (hm : 0 < m) (hlow : 2 ^ 52 ≤ m)
    (hlt : m < 2 ^ 53) (he : e ≤ 971) :
    pack Format.binary64 (.finite sign m e hm) =
      packComponents Format.binary64 sign
        (BitVec.ofNat 11 (e + (1023 : Nat) + (52 : Nat)).toNat) (BitVec.ofNat 52 m) := by
  have hlog : m.log2 + 1 = 53 := by
    rw [(Nat.log2_eq_iff (Nat.ne_of_gt hm)).2 ⟨hlow, hlt⟩]
  have hfits : ¬ 2 ^ 11 ≤ (e + (1023 : Nat) + (52 : Nat)).toNat + 1 := by omega
  simp only [pack, exponentBias_binary64, mantissaBits_binary64, hlog]
  rw [if_neg hfits]
  rfl

/-- The field of an exponent is neither the one of zeros nor the one of infinities, so the
number is taken apart as it was put together. -/
theorem decode_encode_normal {sign : Sign} {m : Nat} {e : Int} (hm : 0 < m) (hlow : 2 ^ 52 ≤ m)
    (hlt : m < 2 ^ 53) (he : -1074 ≤ e) (he' : e ≤ 971) :
    decode (encode (.finite sign m e hm)) = .finite sign m e hm := by
  have hfield : (BitVec.ofNat 11 (e + (1023 : Nat) + (52 : Nat)).toNat).toNat =
      (e + 1075).toNat := by
    rw [BitVec.toNat_ofNat]
    omega
  have hfield_ne : ∀ b : BitVec 11, (e + 1075).toNat ≠ b.toNat →
      BitVec.ofNat 11 (e + (1023 : Nat) + (52 : Nat)).toNat ≠ b := by
    rintro b hne rfl
    exact hne hfield.symm
  have hones : (-1#11).toNat = 2047 := rfl
  have hzeros : (0#11).toNat = 0 := rfl
  show unpack Format.binary64 (pack Format.binary64 (.finite sign m e hm)) = _
  rw [pack_normal hm hlow hlt he', unpack]
  simp only [unpackMantissa_packComponents, unpackExponent_packComponents,
    unpackSign_packComponents, Sign.ofBitVec_toBitVec, exponentBias_binary64, hfield,
    implicitBit_append hlow hlt]
  rw [if_neg (hfield_ne _ (by omega)), if_neg (hfield_ne _ (by omega))]
  congr 1
  omega

/-! ## Staying finite

A double that is at least one half and at most a given number. Both factors of a
product are like this where a decimal with a positive exponent is read. -/

/-- The double is positive, not small, and at most `v`. -/
def AtMost (x : Float) (v : ℚ) : Prop :=
  ∃ m e h, decode x = .finite .positive m e h ∧ 2 ^ 52 ≤ m ∧ -53 ≤ e ∧ (m : ℚ) * 2 ^ e ≤ v

theorem decode_rounded {m : Nat} (hm : 2 ^ 52 ≤ m) {e : Int} (he : -1074 ≤ e)
    (hlimit : (m : ℚ) * 2 ^ e * roundoff < 2 ^ 1024) :
    ∃ m' e' h, decode (encode (roundWithAccuracy Format.binary64 .positive m e .exact)) =
        .finite .positive m' e' h ∧
      2 ^ 52 ≤ m' ∧ e ≤ e' ∧ (m' : ℚ) * 2 ^ e' ≤ m * 2 ^ e * roundoff := by
  obtain ⟨m', e', h, hround, hlow, hhigh, hle, hbound⟩ := roundWithAccuracy_le .positive hm he
  have hexponent : e' < 972 := by
    have hfinite : (2 : ℚ) ^ (52 : Int) * 2 ^ e' < 2 ^ (1024 : Int) :=
      calc (2 : ℚ) ^ (52 : Int) * 2 ^ e' ≤ m' * 2 ^ e' := by
            gcongr
            exact_mod_cast hlow
        _ ≤ m * 2 ^ e * roundoff := hbound
        _ < 2 ^ (1024 : Int) := by exact_mod_cast hlimit
    rw [← zpow_add₀ (by norm_num), zpow_lt_zpow_iff_right₀ (by norm_num)] at hfinite
    omega
  refine ⟨m', e', h, ?_, hlow, hle, hbound⟩
  rw [hround]
  exact decode_encode_normal h hlow hhigh (by omega) (by omega)

theorem AtMost.isInf_mul {x y : Float} {v w : ℚ} (hx : AtMost x v) (hy : AtMost y w)
    (hlimit : v * w * roundoff < 2 ^ 1024) : (x * y).isInf = false := by
  obtain ⟨a, b, ha, hdx, hlowa, hexpa, hboundx⟩ := hx
  obtain ⟨p, q, hp, hdy, hlowp, hexpp, hboundy⟩ := hy
  have hmul : x * y =
      encode (roundWithAccuracy Format.binary64 .positive (a * p) (b + q) .exact) := by
    show encode (UnpackedFloat.mul Format.binary64 (decode x) (decode y)) = _
    rw [hdx, hdy]
    rfl
  have hproduct : ((a * p : Nat) : ℚ) * 2 ^ (b + q) ≤ v * w := by
    have hv : (0 : ℚ) ≤ a * 2 ^ b := by positivity
    calc ((a * p : Nat) : ℚ) * 2 ^ (b + q) = (a * 2 ^ b) * (p * 2 ^ q) := by
          rw [zpow_add₀ (by norm_num), Nat.cast_mul]
          ring
      _ ≤ v * w := mul_le_mul hboundx hboundy (by positivity) (le_trans hv hboundx)
  have hlong : 2 ^ 52 ≤ a * p := Nat.le_trans hlowa (Nat.le_mul_of_pos_right a hp)
  obtain ⟨m, e, h, hdecode, -⟩ := decode_rounded hlong (by omega)
    (lt_of_le_of_lt (mul_le_mul_of_nonneg_right hproduct roundoff_pos.le) hlimit)
  show (decode (x * y)).isInf = false
  rw [hmul, hdecode]
  rfl

theorem toNat_toUInt64 {n : Nat} (h : n < UInt64.size) : n.toUInt64.toNat = n := by
  rw [Nat.toUInt64, UInt64.toNat_ofNat']
  exact Nat.mod_eq_of_lt h

/-- A whole number of 64 bits becomes a double with a significand of 53 bits or more,
which is then rounded. -/
theorem toFloat_eq_encode {n : Nat} (hn : 0 < n) (hlt : n < UInt64.size) :
    n.toUInt64.toFloat = encode (roundWithAccuracy Format.binary64 .positive
      (n <<< (52 - n.log2)) (-(52 - n.log2 : Nat)) .exact) := by
  have hshift : (-max (totalExponent n 0 - 53) (-1074)).toNat = 52 - n.log2 := by
    have hlog : n.log2 < 64 := (Nat.log2_lt (Nat.ne_of_gt hn)).2 hlt
    rw [totalExponent]
    omega
  show encode (normalize Format.binary64 (n.toUInt64.toNat : Int) 0 .positive) = _
  simp only [toNat_toUInt64 hlt, UnpackedFloat.normalize,
    compare_gt_iff_gt.2 (Int.natCast_pos.2 hn), Int.toNat_natCast, UnpackedFloat.round,
    decreaseExponent, targetExponent_binary64, Int.zero_sub, hshift]

theorem atMost_toFloat {n : Nat} (hn : 0 < n) (hlt : n < UInt64.size) :
    AtMost n.toUInt64.toFloat (n * roundoff) := by
  have hlong : 2 ^ 52 ≤ n <<< (52 - n.log2) := by
    rw [Nat.shiftLeft_eq]
    calc 2 ^ 52 ≤ 2 ^ (n.log2 + (52 - n.log2)) := Nat.pow_le_pow_right (by decide) (by omega)
      _ ≤ n * 2 ^ (52 - n.log2) := by
        rw [Nat.pow_add]
        exact Nat.mul_le_mul_right _ (Nat.log2_self_le (Nat.ne_of_gt hn))
  have hvalue : ((n <<< (52 - n.log2) : Nat) : ℚ) * 2 ^ (-(52 - n.log2 : Nat) : Int) = n := by
    rw [Nat.shiftLeft_eq, zpow_neg, zpow_natCast]
    push_cast
    field_simp
  have hlimit : (n : ℚ) * roundoff < 2 ^ 1024 := by
    have hn : (n : ℚ) < 2 ^ 64 := by exact_mod_cast hlt
    have htwo : roundoff < 2 := by
      rw [roundoff]
      norm_num
    calc (n : ℚ) * roundoff < 2 ^ 64 * 2 := by
          have := roundoff_pos
          gcongr
      _ = 2 ^ 65 := by norm_num
      _ ≤ 2 ^ 1024 := pow_le_pow_right₀ (by norm_num) (by norm_num)
  have hexponent : (-1074 : Int) ≤ -(52 - n.log2 : Nat) := by omega
  obtain ⟨m, e, h, hdecode, hlow, hexp, hbound⟩ := decode_rounded hlong hexponent
    (by rwa [hvalue])
  exact ⟨m, e, h, by rw [toFloat_eq_encode hn hlt, hdecode], hlow, by omega,
    by rwa [hvalue] at hbound⟩

/-- The same in whole numbers, to be evaluated. -/
def isAtMost (x : Float) (n : Nat) : Bool :=
  match decode x with
  | .finite .positive m e _ => 2 ^ 52 ≤ m && -53 ≤ e && m * 2 ^ (e + 53).toNat ≤ n * 2 ^ 53
  | _ => false

theorem atMost_of_isAtMost {x : Float} {n : Nat} (h : isAtMost x n = true) : AtMost x n := by
  unfold isAtMost at h
  split at h
  · rename_i m e hpos hdecode
    simp only [Bool.and_eq_true, decide_eq_true_eq] at h
    obtain ⟨⟨hlow, hexp⟩, hle⟩ := h
    refine ⟨m, e, hpos, hdecode, hlow, hexp, ?_⟩
    have hscale : (2 : ℚ) ^ e = 2 ^ (e + 53).toNat / 2 ^ 53 := by
      have hexp : ((e + 53).toNat : Int) = e + 53 := Int.toNat_of_nonneg (by omega)
      rw [eq_div_iff (by positivity), ← zpow_natCast 2 (e + 53).toNat, hexp,
        zpow_add₀ (by norm_num)]
      rfl
    rw [hscale, ← mul_div_assoc, div_le_iff₀ (by positivity)]
    exact_mod_cast hle
  · exact absurd h Bool.false_ne_true

/-- A power of ten of 53 bits or less is looked up in a table. -/
theorem isAtMost_small_power :
    ∀ k < 23, isAtMost (Float.ofScientific 1 false k) (10 ^ k) = true := by
  decide

theorem le_of_ten_pow_lt {k : Nat} (h : (10 : ℚ) ^ k < 2 ^ 1024) : k ≤ 308 := by
  by_contra hk
  have hmany : 2 ^ 1024 ≤ 10 ^ 309 := by decide +kernel
  have hfew : 10 ^ k < 2 ^ 1024 := by exact_mod_cast h
  have := Nat.pow_le_pow_right (n := 10) (by decide) (show 309 ≤ k by omega)
  omega

theorem ofScientific_eq_encode {k : Nat} (hlow : 22 < k) (hhigh : k ≤ 308) :
    Float.ofScientific 1 false k = encode (roundWithAccuracy Format.binary64 .positive
      ((1 <<< 53) * 10 ^ k) (-53) .exact) := by
  have hbits : Format.binary64.exponentBits = 11 := by decide
  have hslow : ¬ (1 < 2 ^ 53 ∧ k ≤ 22) := by omega
  have hfits : ¬ (2 : Int) ^ 11 < k := by omega
  rw [Float.ofScientific, dif_neg hslow]
  show encode (UnpackedFloat.ofScientific Format.binary64 1 (k : Int)) = _
  rw [UnpackedFloat.ofScientific, dif_neg (by decide), hbits, if_neg hfits, if_neg (by omega),
    if_pos (by omega)]
  rfl

theorem atMost_power {k : Nat} (hlimit : (10 : ℚ) ^ k * roundoff < 2 ^ 1024) :
    AtMost (Float.ofScientific 1 false k) (10 ^ k * roundoff) := by
  rcases Nat.lt_or_ge k 23 with hsmall | hlarge
  · obtain ⟨m, e, h, hdecode, hlow, hexp, hbound⟩ :=
      atMost_of_isAtMost (isAtMost_small_power k hsmall)
    refine ⟨m, e, h, hdecode, hlow, hexp, le_trans hbound ?_⟩
    push_cast
    exact le_mul_of_one_le_right (by positivity) one_le_roundoff
  have hk : k ≤ 308 := le_of_ten_pow_lt <| lt_of_le_of_lt
    (le_mul_of_one_le_right (by positivity) one_le_roundoff) hlimit
  have hlong : 2 ^ 52 ≤ (1 <<< 53) * 10 ^ k :=
    Nat.le_trans (by decide) (Nat.le_mul_of_pos_right (1 <<< 53) (Nat.pow_pos (by decide)))
  have hvalue : (((1 <<< 53) * 10 ^ k : Nat) : ℚ) * 2 ^ (-53 : Int) = 10 ^ k := by
    rw [Nat.shiftLeft_eq, zpow_neg]
    push_cast
    rw [mul_right_comm, mul_inv_cancel₀ (by norm_num), one_mul]
  have hexponent : (-1074 : Int) ≤ -53 := by decide
  obtain ⟨m, e, h, hdecode, hlow, hexp, hbound⟩ := decode_rounded hlong hexponent
    (by rwa [hvalue])
  exact ⟨m, e, h, by rw [ofScientific_eq_encode hlarge hk, hdecode], hlow, hexp,
    by rwa [hvalue] at hbound⟩

/-- A whole number times a power of ten, both rounded and their product rounded again,
is finite if there is room for three roundings. -/
theorem isInf_scaled {c k : Nat} (hc : 0 < c) (hlt : c < UInt64.size)
    (hlimit : (c : ℚ) * 10 ^ k * roundoff ^ 3 < 2 ^ 1024) :
    (c.toUInt64.toFloat * Float.ofScientific 1 false k).isInf = false := by
  have hone : (1 : ℚ) ≤ c := by exact_mod_cast hc
  have hpower : (10 : ℚ) ^ k * roundoff < 2 ^ 1024 :=
    calc (10 : ℚ) ^ k * roundoff = 1 * 10 ^ k * roundoff ^ 1 := by rw [one_mul, pow_one]
      _ ≤ c * 10 ^ k * roundoff ^ 3 := by
        have := one_le_roundoff
        gcongr
        decide
      _ < 2 ^ 1024 := hlimit
  refine (atMost_toFloat hc hlt).isInf_mul (atMost_power hpower) (lt_of_eq_of_lt ?_ hlimit)
  ring

/-- There is room for three roundings above every double but the largest six. -/
theorem room_for_rounding {m : Nat} {e : Int} (hm : m < 2 ^ 53) (he : e ≤ 971)
    (hlargest : e = 971 → m < 2 ^ 53 - 6) :
    (4 * m + 2 : ℚ) * 2 ^ (e - 2) * roundoff ^ 3 < 2 ^ 1024 := by
  have hpos := roundoff_pos
  rcases eq_or_lt_of_le he with rfl | hlt
  · have hm' : (m : ℚ) ≤ 2 ^ 53 - 7 := by
      have : m + 7 ≤ 2 ^ 53 := by omega
      rw [le_sub_iff_add_le]
      exact_mod_cast this
    have hroom : (4 * (2 ^ 53 - 7) + 2 : ℚ) * roundoff ^ 3 < 2 ^ 55 := by
      rw [roundoff]
      norm_num
    calc (4 * m + 2 : ℚ) * 2 ^ ((971 : Int) - 2) * roundoff ^ 3
        ≤ (4 * (2 ^ 53 - 7) + 2) * 2 ^ ((971 : Int) - 2) * roundoff ^ 3 := by gcongr
      _ = (4 * (2 ^ 53 - 7) + 2) * roundoff ^ 3 * 2 ^ 969 := by
        rw [mul_right_comm]
        rfl
      _ < 2 ^ 55 * 2 ^ 969 := by gcongr
      _ = 2 ^ 1024 := by rw [← pow_add]
  · have hm' : (4 * m + 2 : ℚ) ≤ 2 ^ 55 := by
      have : 4 * m + 2 ≤ 2 ^ 55 := by omega
      exact_mod_cast this
    have hpow : (2 : ℚ) ^ (e - 2) ≤ 2 ^ (968 : Int) := zpow_le_zpow_right₀ (by norm_num) (by omega)
    have hroom : roundoff ^ 3 < 2 := by
      rw [roundoff]
      norm_num
    calc (4 * m + 2 : ℚ) * 2 ^ (e - 2) * roundoff ^ 3
        ≤ 2 ^ 55 * 2 ^ (968 : Int) * roundoff ^ 3 := by gcongr
      _ < 2 ^ 55 * 2 ^ (968 : Int) * 2 := by gcongr
      _ = 2 ^ 55 * 2 ^ 968 * 2 ^ 1 := by rw [pow_one]; rfl
      _ = 2 ^ 1024 := by rw [← pow_add, ← pow_add]

end Lindenmayer.Number
