import Lindenmayer.Number.Rounding
import Lindenmayer.Proofs.Exactness

/-!
# Snapping is exact

If twice a number is close to a whole number, half of that one is taken in its place. Doubling
could round, and so could taking the difference and halving, but they never do. Doubling goes
wrong only for numbers that are so large that they are whole anyway. The distance to the
nearest whole number can be written with the exponent of the doubled number, and with a
significand that is no larger. And half of a whole number is far from the smallest doubles.

So snapping does what it is for, in terms of exact rational numbers. What they do not tell is
the sign of a zero. A number that is snapped to zero keeps its sign.
-/

namespace Lindenmayer.Number

open Float.Model (UnpackedFloat Format)
open Float.Model.UnpackedFloat

variable {v d r : Float} {q D : ℚ}

/-- What `snapTolerance` is exactly. -/
def tolerance : ℚ := 4951760157141521 / 2 ^ 92

theorem denotes_snapTolerance : Denotes snapTolerance tolerance := by
  have hcanonical : Canonical 4951760157141521 (-92) := by constructor <;> decide
  have hparts : snapTolerance =
      encode (.finite .positive 4951760157141521 (-92) (by decide)) := by decide
  have hdenotes := hcanonical.denotes_positive hparts
  norm_num at hdenotes
  rw [tolerance]
  norm_num
  exact hdenotes

theorem tolerance_pos : 0 < tolerance := by
  rw [tolerance]
  norm_num

theorem tolerance_lt : tolerance < 1 / 2 := by
  rw [tolerance]
  norm_num

/-! ## Rounding to whole numbers -/

theorem representable_scaled {n : ℤ} (hn : |n| < 2 ^ 53) {e : Int} (hlow : -1074 ≤ e)
    (hhigh : e ≤ 971) : Representable (n * 2 ^ e) := by
  have hnat : n.natAbs < 2 ^ 53 := by
    rw [Int.abs_eq_natAbs] at hn
    exact_mod_cast hn
  exact .of_natAbs (representable_of_short hnat hlow hhigh)

theorem denotes_signedWhole (s : Sign) {n : Nat} (h : n ≤ 2 ^ 53) :
    Denotes (signedWhole s n) (s.apply n) := by
  cases s with
  | positive => exact denotes_toFloat h
  | negative =>
      rw [Sign.apply, Int.cast_neg, Int.cast_natCast]
      exact (denotes_toFloat h).neg

/-- The nearest whole number is no more than one half away, and no farther than zero is. -/
theorem nearestWhole_spec (m k : Nat) :
    2 * m ≤ 2 * (nearestWhole m k * 2 ^ k) + 2 ^ k ∧
    2 * (nearestWhole m k * 2 ^ k) ≤ 2 * m + 2 ^ k ∧ nearestWhole m k * 2 ^ k ≤ 2 * m := by
  have hpow : 2 ^ (k + 1) = 2 * 2 ^ k := Nat.pow_succ'
  have hpos : 0 < 2 ^ k := Nat.two_pow_pos k
  have hle := Nat.div_mul_le_self (2 * m + 2 ^ k) (2 ^ (k + 1))
  have hlt := Nat.lt_div_mul_add (a := 2 * m + 2 ^ k) (Nat.two_pow_pos (k + 1))
  have hnearest : (2 * m + 2 ^ k) / 2 ^ (k + 1) = nearestWhole m k := rfl
  rw [hnearest, hpow, Nat.mul_left_comm] at hle hlt
  rcases Nat.eq_zero_or_pos (nearestWhole m k) with hzero | hpositive
  · rw [hzero, Nat.zero_mul] at hle hlt ⊢
    omega
  · have hone : 2 ^ k ≤ nearestWhole m k * 2 ^ k := Nat.le_mul_of_pos_left _ hpositive
    omega

theorem roundHalfAway_of_finite {s : Sign} {m : Nat} {e : Int} {hm : 0 < m}
    (h : decode d = .finite s m e hm) :
    roundHalfAway d = if 0 ≤ e then d else signedWhole s (nearestWhole m (-e).toNat) := by
  have hunpack : d.toModel.unpack = .finite s m e hm := h
  rw [roundHalfAway, hunpack]

theorem roundHalfAway_of_zero {s : Sign} (h : decode d = .zero s) : roundHalfAway d = d := by
  have hunpack : d.toModel.unpack = .zero s := h
  rw [roundHalfAway, hunpack]

theorem not_finite_cases (h : d.isFinite = false) :
    decode d = .notANumber ∨ ∃ s, decode d = .infinity s := by
  change (decode d).isFinite = false at h
  rcases hdecode : decode d with s | _ | s | ⟨s, m, e, hm⟩ <;> rw [hdecode] at h
  case infinity => exact .inr ⟨s, rfl⟩
  case notANumber => exact .inl rfl
  all_goals cases h

theorem roundHalfAway_of_not_finite (h : d.isFinite = false) : roundHalfAway d = d := by
  rw [roundHalfAway]
  rcases not_finite_cases h with hdecode | ⟨s, hdecode⟩ <;> rw [decode] at hdecode <;> rw [hdecode]

theorem abs_apply (s : Sign) (n : ℤ) : |s.apply n| = |n| := by
  cases s with
  | positive => rfl
  | negative => exact abs_neg n

theorem Canonical.abs_lt {m : Nat} {e : Int} (h : Canonical m e) (s : Sign) :
    |s.apply m| < 2 ^ 53 := by
  rw [abs_apply, Nat.abs_cast]
  exact_mod_cast h.short

theorem exists_whole (m : ℤ) {e : Int} (he : 0 ≤ e) : ∃ n : ℤ, (m : ℚ) * 2 ^ e = n := by
  refine ⟨m * 2 ^ e.toNat, ?_⟩
  rw [Int.cast_mul, Int.cast_pow, Int.cast_ofNat, ← zpow_natCast, Int.toNat_of_nonneg he]

/-- A number with a fraction and the nearest whole number. Their distance is written with the
same exponent, and its significand is no larger. -/
theorem rounded_fraction (s : Sign) {m : Nat} {e : Int} (h : Canonical m e) (he : e < 0) :
    let n : ℤ := s.apply (nearestWhole m (-e).toNat)
    |(s.apply m : ℚ) * 2 ^ e - n| ≤ 1 / 2 ∧ Representable (s.apply m * 2 ^ e - n) := by
  intro n
  obtain ⟨hbelow, habove, hsmall⟩ := nearestWhole_spec m (-e).toNat
  have hscale : (2 : ℚ) ^ (-e).toNat * 2 ^ e = 1 := by
    rw [← zpow_natCast, Int.toNat_of_nonneg (by omega), ← zpow_add₀ (by norm_num), neg_add_cancel,
      zpow_zero]
  generalize hw : nearestWhole m (-e).toNat * 2 ^ (-e).toNat = w at hbelow habove hsmall
  have hdiff : (s.apply m : ℚ) * 2 ^ e - n = (s.apply (m - w) : ℤ) * 2 ^ e := by
    have hn : (nearestWhole m (-e).toNat : ℚ) = w * 2 ^ e := by
      rw [← hw, Nat.cast_mul, Nat.cast_pow, Nat.cast_ofNat, mul_assoc, hscale, mul_one]
    cases s <;> simp only [n, Sign.apply] <;> push_cast <;> rw [hn] <;> ring
  have hhalf : 2 * |s.apply ((m : ℤ) - w)| ≤ (2 ^ (-e).toNat : ℕ) := by
    rw [abs_apply]
    rcases abs_cases ((m : ℤ) - w) with ⟨habs, -⟩ | ⟨habs, -⟩ <;> rw [habs] <;> omega
  have hshort : |s.apply ((m : ℤ) - w)| < 2 ^ 53 := by
    have := h.short
    rw [abs_apply, abs_lt]
    omega
  rw [hdiff]
  refine ⟨?_, representable_scaled hshort h.low h.high⟩
  have hhalf' : 2 * |((s.apply (m - w) : ℤ) : ℚ)| ≤ 2 ^ (-e).toNat := by exact_mod_cast hhalf
  have hpos : (0 : ℚ) < 2 ^ e := by positivity
  rw [abs_mul, abs_of_pos hpos]
  linarith [mul_le_mul_of_nonneg_right hhalf' hpos.le]

/-- Rounding goes to a whole number that is no more than one half away, and there is a double
for the distance. -/
theorem exists_rounded (hd : Denotes d D) :
    ∃ n : ℤ, Denotes (roundHalfAway d) n ∧ |D - n| ≤ 1 / 2 ∧ Representable (D - n) := by
  have hnothing : |(0 : ℚ)| ≤ 1 / 2 := by norm_num
  obtain ⟨s, hdecode, rfl⟩ | ⟨s, m, e, hm, hdecode, hcanonical, rfl⟩ := hd.cases
  · refine ⟨0, ?_⟩
    rw [roundHalfAway_of_zero hdecode, Int.cast_zero, sub_zero]
    exact ⟨hd, hnothing, representable_zero⟩
  rw [roundHalfAway_of_finite hdecode]
  by_cases hwhole : 0 ≤ e
  · obtain ⟨n, hn⟩ := exists_whole (s.apply m) hwhole
    refine ⟨n, ?_⟩
    rw [if_pos hwhole, ← hn, sub_self]
    exact ⟨hd, hnothing, representable_zero⟩
  · have hlarge : nearestWhole m (-e).toNat ≤ 2 ^ 53 := by
      obtain ⟨-, -, hsmall⟩ := nearestWhole_spec m (-e).toNat
      have htwo : 2 ≤ 2 ^ (-e).toNat := Nat.le_self_pow (by omega) 2
      have hshort := hcanonical.short
      have hle : nearestWhole m (-e).toNat * 2 ≤ 2 * m := (Nat.mul_le_mul_left _ htwo).trans hsmall
      omega
    rw [if_neg hwhole]
    exact ⟨_, denotes_signedWhole s hlarge, rounded_fraction s hcanonical (not_le.1 hwhole)⟩

/-! ## Doubling and halving -/

theorem decode_two : decode 2 = .finite .positive (2 ^ 52) (-51) (by decide) := rfl

theorem denotes_two : Denotes 2 2 := by
  rw [Denotes, decode_two, value?, Sign.apply]
  norm_num

theorem isFinite_encode_of_large (s : Sign) {m : Nat} {e : Int} (hm : 0 < m) (he : 972 ≤ e) :
    (encode (.finite s m e hm)).isFinite = false := by
  have hpack : pack Format.binary64 (.finite s m e hm) = packedInfinity Format.binary64 s := by
    simp only [pack, exponentBias_binary64, mantissaBits_binary64]
    exact if_pos (by omega)
  show (unpack Format.binary64 (pack Format.binary64 (.finite s m e hm))).isFinite = false
  rw [hpack]
  cases s <;> rfl

/-- A number with the greatest exponent is too large to be doubled. -/
theorem isFinite_doubled_of_large {s : Sign} {m : Nat} {e : Int} {hm : 0 < m}
    (hdecode : decode v = .finite s m e hm) (h : Canonical m e) (he : 971 ≤ e) :
    (v * 2).isFinite = false := by
  have hlog : (m * 2 ^ 52).log2 = 104 := by
    have hfull : 2 ^ 52 ≤ m := h.full.resolve_left (by omega)
    rw [log2_mul_two_pow hm, (Nat.log2_eq_iff (Nat.ne_of_gt hm)).2 ⟨hfull, h.short⟩]
  have hproduct : v * 2 =
      encode (roundWithAccuracy Format.binary64 (s * .positive) (m * 2 ^ 52) (e + -51) .exact) := by
    show encode (UnpackedFloat.mul Format.binary64 (decode v) (decode 2)) = _
    rw [hdecode, decode_two]
    rfl
  obtain ⟨hpos, hround⟩ := roundWithAccuracy_eq (s * .positive)
    (Nat.mul_pos hm (Nat.two_pow_pos 52)) (show -1074 ≤ e + -51 by omega)
  rw [hproduct, hround]
  refine isFinite_encode_of_large _ hpos ?_
  rw [hlog]
  omega

/-- Doubling is exact, unless the result is too large. Then the number is whole. -/
theorem denotes_doubled (hv : Denotes v q) :
    Denotes (v * 2) (2 * q) ∨ (v * 2).isFinite = false ∧ ∃ n : ℤ, 2 * q = n := by
  rw [mul_comm 2 q]
  obtain ⟨s, -, rfl⟩ | ⟨s, m, e, hm, hdecode, hcanonical, rfl⟩ := hv.cases
  · refine .inl (hv.mul denotes_two ?_)
    rw [zero_mul]
    exact representable_zero
  have hlow := hcanonical.low
  rw [mul_assoc, ← zpow_add_one₀ (by norm_num)]
  rcases lt_or_ge e 971 with hlt | hge
  · have hrepresentable := representable_scaled (hcanonical.abs_lt s)
      (show -1074 ≤ e + 1 by omega) (by omega)
    have hdoubled := hv.mul denotes_two
    rw [mul_assoc, ← zpow_add_one₀ (by norm_num)] at hdoubled
    exact .inl (hdoubled hrepresentable)
  · exact .inr ⟨isFinite_doubled_of_large hdecode hcanonical hge, exists_whole _ (by omega)⟩

/-- Halving a whole number is exact. -/
theorem denotes_half {n : ℤ} (hr : Denotes r n) : Denotes (r / 2) (n / 2) := by
  refine hr.div denotes_two two_ne_zero ?_
  obtain ⟨s, -, hzero⟩ | ⟨s, m, e, hm, -, hcanonical, hvalue⟩ := hr.cases
  · rw [hzero, zero_div]
    exact representable_zero
  have hlow : -53 < e := by
    by_contra hle
    have hone : (1 : ℚ) ≤ |(n : ℚ)| := by
      have hne : n ≠ 0 := by
        rintro rfl
        rw [Int.cast_zero] at hvalue
        exact apply_mul_pow_ne hm s e hvalue.symm
      exact_mod_cast Int.one_le_abs hne
    have hsmall : |(n : ℚ)| < 1 := by
      have hshort : |((s.apply m : ℤ) : ℚ)| < 2 ^ 53 := by exact_mod_cast hcanonical.abs_lt s
      have hpos : (0 : ℚ) < 2 ^ e := by positivity
      rw [hvalue, abs_mul, abs_of_pos hpos]
      calc |((s.apply m : ℤ) : ℚ)| * 2 ^ e < 2 ^ 53 * 2 ^ e := by gcongr
        _ ≤ 2 ^ 53 * 2 ^ (-53 : Int) := by
          have hpow : (2 : ℚ) ^ e ≤ 2 ^ (-53 : Int) := zpow_le_zpow_right₀ (by norm_num) (by omega)
          gcongr
        _ = 1 := by norm_num
    exact absurd hsmall (not_lt.2 hone)
  have hhalf : (n : ℚ) / 2 = s.apply m * 2 ^ (e - 1) := by
    rw [hvalue, zpow_sub_one₀ (by norm_num), mul_div_assoc, div_eq_mul_inv]
  rw [hhalf]
  have hhigh := hcanonical.high
  exact representable_scaled (hcanonical.abs_lt s) (by omega) (by omega)

/-! ## Snapping -/

/-- Where doubling is exact, so is the test whether to snap. -/
theorem snap_of_doubled (hdoubled : Denotes (v * 2) D) :
    ∃ n : ℤ, Denotes (roundHalfAway (v * 2)) n ∧ |D - n| ≤ 1 / 2 ∧
      snap v = if |D - n| < tolerance then roundHalfAway (v * 2) / 2 else v := by
  obtain ⟨n, hrounded, hclose, hdiff⟩ := exists_rounded hdoubled
  have htest := (hdoubled.sub hrounded hdiff).abs.lt_iff denotes_snapTolerance
  refine ⟨n, hrounded, hclose, ?_⟩
  simp only [snap, htest]

/-- A number whose double is too large, or not a number, is not snapped. -/
theorem snap_of_not_finite (h : (v * 2).isFinite = false) : snap v = v := by
  have hnan : (v * 2 - v * 2).abs.isNaN = true := by
    rw [isNaN_iff_decode]
    show decode (encode (decode (encode
      (UnpackedFloat.sub Format.binary64 (decode (v * 2)) (decode (v * 2))))).abs) = _
    rcases not_finite_cases h with hdecode | ⟨_ | _, hdecode⟩ <;> rw [hdecode] <;> rfl
  have htest : ¬ (v * 2 - v * 2).abs < snapTolerance := by
    intro hlt
    have hnumber := (numbers_of_le (le_of_lt hlt)).1
    rw [hnan] at hnumber
    cases hnumber
  simp only [snap, roundHalfAway_of_not_finite h, htest, if_false]

theorem isFinite_doubled (h : v.isFinite = false) : (v * 2).isFinite = false := by
  show (decode (encode (UnpackedFloat.mul Format.binary64 (decode v) (decode 2)))).isFinite = false
  rcases not_finite_cases h with hdecode | ⟨_ | _, hdecode⟩ <;> rw [hdecode] <;> rfl

/-- Only one whole number can be near. -/
theorem eq_of_near {m n : ℤ} (hm : |D - m| ≤ 1 / 2) (hn : |D - n| < tolerance) : m = n := by
  have hclose : |((m - n : ℤ) : ℚ)| < 1 := by
    have htriangle := abs_sub_le (m : ℚ) D n
    rw [abs_sub_comm (m : ℚ) D] at htriangle
    have := tolerance_lt
    push_cast
    linarith
  have hclose' : |m - n| < 1 := by exact_mod_cast hclose
  exact Int.sub_eq_zero.1 (Int.abs_lt_one_iff.1 hclose')

theorem eq_of_whole {m n : ℤ} (hm : D = m) (hn : |D - n| < tolerance) : m = n := by
  refine eq_of_near ?_ hn
  rw [hm, sub_self]
  norm_num

theorem snap_of_near (hdoubled : Denotes (v * 2) D) {n : ℤ} (hn : |D - n| < tolerance) :
    Denotes (roundHalfAway (v * 2)) n ∧ snap v = roundHalfAway (v * 2) / 2 := by
  obtain ⟨m, hrounded, hclose, hsnap⟩ := snap_of_doubled hdoubled
  obtain rfl := eq_of_near hclose hn
  rw [if_pos hn] at hsnap
  exact ⟨hrounded, hsnap⟩

theorem denotes_snap_of_near (hv : Denotes v q) {n : ℤ} (hn : |2 * q - n| < tolerance) :
    Denotes (snap v) (n / 2) := by
  rcases denotes_doubled hv with hdoubled | ⟨hlarge, m, hm⟩
  · obtain ⟨hrounded, hsnap⟩ := snap_of_near hdoubled hn
    rw [hsnap]
    exact denotes_half hrounded
  · obtain rfl := eq_of_whole hm hn
    rw [snap_of_not_finite hlarge, ← hm, mul_div_cancel_left₀ q two_ne_zero]
    exact hv

theorem snap_of_far (hv : Denotes v q) (hfar : ∀ n : ℤ, tolerance ≤ |2 * q - n|) : snap v = v := by
  rcases denotes_doubled hv with hdoubled | ⟨hlarge, -⟩
  · obtain ⟨n, -, -, hsnap⟩ := snap_of_doubled hdoubled
    rw [hsnap, if_neg (not_lt.2 (hfar n))]
  · exact snap_of_not_finite hlarge

theorem near_or_far (D : ℚ) :
    (∃ n : ℤ, |D - n| < tolerance) ∨ ∀ n : ℤ, tolerance ≤ |D - n| := by
  rw [or_iff_not_imp_left]
  intro hnone n
  exact not_lt.1 fun hn => hnone ⟨n, hn⟩

theorem eq_or_of_denotes_zero (h : Denotes v 0) : v = 0 ∨ v = -0 := by
  obtain ⟨s, hdecode, -⟩ | ⟨s, m, e, hm, -, -, hvalue⟩ := h.cases
  · exact IsZero.eq_or ⟨s, hdecode⟩
  · exact absurd hvalue.symm (apply_mul_pow_ne hm s e)

theorem snap_snap (v : Float) : snap (snap v) = snap v := by
  cases hfinite : v.isFinite with
  | false =>
      have hsnap := snap_of_not_finite (isFinite_doubled hfinite)
      rw [hsnap, hsnap]
  | true =>
      obtain ⟨q, hv⟩ := isFinite_iff.1 hfinite
      rcases near_or_far (2 * q) with ⟨n, hn⟩ | hfar
      · have hsnap := denotes_snap_of_near hv hn
        rcases eq_or_ne n 0 with rfl | hne
        · rw [Int.cast_zero, zero_div] at hsnap
          rcases eq_or_of_denotes_zero hsnap with hzero | hzero <;> rw [hzero] <;> decide
        · have hnear : |2 * ((n : ℚ) / 2) - n| < tolerance := by
            rw [mul_div_cancel₀ _ two_ne_zero, sub_self, abs_zero]
            exact tolerance_pos
          have hhalf : (n : ℚ) / 2 ≠ 0 := div_ne_zero (Int.cast_ne_zero.2 hne) two_ne_zero
          exact (denotes_snap_of_near hsnap hnear).eq_of_ne_zero hsnap hhalf
      · rw [snap_of_far hv hfar, snap_of_far hv hfar]

/-! ## The sign of what is snapped -/

theorem neg_neg_eq (x : Float) : - -x = x := by
  refine eq_of_decode_eq ?_
  rw [decode_neg, decode_neg]
  rcases decode x with (_ | _) | _ | (_ | _) | ⟨_ | _, m, e, hm⟩ <;> rfl

theorem isFinite_neg (x : Float) : (-x).isFinite = x.isFinite := by
  show (decode (-x)).isFinite = (decode x).isFinite
  rw [decode_neg]
  cases decode x <;> rfl

theorem roundHalfAway_neg (x : Float) : roundHalfAway (-x) = -roundHalfAway x := by
  have hneg := decode_neg x
  cases hdecode : decode x with
  | notANumber | infinity =>
      rw [hdecode] at hneg
      rw [roundHalfAway_of_not_finite (congrArg UnpackedFloat.isFinite hneg),
        roundHalfAway_of_not_finite (congrArg UnpackedFloat.isFinite hdecode)]
  | zero s =>
      rw [hdecode] at hneg
      rw [roundHalfAway_of_zero hneg, roundHalfAway_of_zero hdecode]
  | finite s m e hm =>
      rw [hdecode] at hneg
      rw [roundHalfAway_of_finite hneg, roundHalfAway_of_finite hdecode]
      split
      · rfl
      · cases s with
        | positive => rfl
        | negative => exact (neg_neg_eq _).symm

/-- What is snapped to zero keeps its sign. -/
theorem snap_neg_of_near_zero (hv : Denotes v q) (hq : |2 * q - (0 : ℤ)| < tolerance) :
    snap (-v) = -snap v := by
  rcases eq_or_ne q 0 with rfl | hne
  · rcases eq_or_of_denotes_zero hv with rfl | rfl <;> decide
  have hne' : 2 * q ≠ 0 := mul_ne_zero two_ne_zero hne
  rcases denotes_doubled hv with hdoubled | ⟨-, m, hm⟩
  · have hopposite : -v * 2 = -(v * 2) := by
      have hproduct := hv.neg.mul denotes_two
      rw [neg_mul, mul_comm q 2] at hproduct
      exact (hproduct ⟨_, hdoubled.neg⟩).eq_of_ne_zero hdoubled.neg (neg_ne_zero.2 hne')
    have hnear : |-(2 * q) - (0 : ℤ)| < tolerance := by
      rw [Int.cast_zero, sub_zero, abs_neg]
      rwa [Int.cast_zero, sub_zero] at hq
    obtain ⟨hrounded, hsnap⟩ := snap_of_near hdoubled hq
    obtain ⟨-, hsnap'⟩ := snap_of_near (hopposite ▸ hdoubled.neg) hnear
    rw [hsnap, hsnap', hopposite, roundHalfAway_neg]
    rw [Int.cast_zero] at hrounded
    rcases eq_or_of_denotes_zero hrounded with hzero | hzero <;> rw [hzero] <;> decide
  · obtain rfl := eq_of_whole hm hq
    exact absurd (hm.trans Int.cast_zero) hne'

theorem snap_neg (v : Float) : snap (-v) = -snap v := by
  cases hfinite : v.isFinite with
  | false =>
      have hfinite' : (-v).isFinite = false := (isFinite_neg v).trans hfinite
      rw [snap_of_not_finite (isFinite_doubled hfinite),
        snap_of_not_finite (isFinite_doubled hfinite')]
  | true =>
      obtain ⟨q, hv⟩ := isFinite_iff.1 hfinite
      have hmirror : ∀ n : ℤ, |2 * -q - (-n : ℤ)| = |2 * q - n| := by
        intro n
        rw [Int.cast_neg, ← abs_neg]
        congr 1
        ring
      rcases near_or_far (2 * q) with ⟨n, hn⟩ | hfar
      · rcases eq_or_ne n 0 with rfl | hne
        · exact snap_neg_of_near_zero hv hn
        · have hsnap := denotes_snap_of_near hv.neg (lt_of_eq_of_lt (hmirror n) hn)
          have hhalf : ((-n : ℤ) : ℚ) / 2 = -(n / 2) := by rw [Int.cast_neg, neg_div]
          have hhalf_ne : -((n : ℚ) / 2) ≠ 0 :=
            neg_ne_zero.2 (div_ne_zero (Int.cast_ne_zero.2 hne) two_ne_zero)
          rw [hhalf] at hsnap
          exact hsnap.eq_of_ne_zero (denotes_snap_of_near hv hn).neg hhalf_ne
      · rw [snap_of_far hv hfar]
        refine snap_of_far hv.neg fun n => ?_
        rw [← neg_neg n, hmirror]
        exact hfar (-n)

/-- Snapping takes a finite number to the multiple of one half that twice the number is within
the tolerance of, and leaves it alone, to the last bit, if there is none. It also leaves alone
what is not finite or too large to be doubled. So it never moves a number by half the tolerance
or more, doing it twice does nothing more, and negative numbers are snapped as positive ones
are. -/
theorem snap_exact (v : Float) :
    Denotes snapTolerance tolerance ∧
    (v.isFinite = true → ∃ q, Denotes v q ∧
      (∀ n : ℤ, |2 * q - n| < tolerance → Denotes (snap v) (n / 2)) ∧
      ((∀ n : ℤ, tolerance ≤ |2 * q - n|) → snap v = v) ∧
      ∃ q', Denotes (snap v) q' ∧ |q' - q| < tolerance / 2) ∧
    (v.isFinite = false ∨ (v * 2).isFinite = false → snap v = v) ∧
    snap (snap v) = snap v ∧
    snap (-v) = -snap v := by
  refine ⟨denotes_snapTolerance, fun hfinite => ?_, ?_, snap_snap v, snap_neg v⟩
  · obtain ⟨q, hv⟩ := isFinite_iff.1 hfinite
    refine ⟨q, hv, fun n hn => denotes_snap_of_near hv hn, snap_of_far hv, ?_⟩
    rcases near_or_far (2 * q) with ⟨n, hn⟩ | hfar
    · refine ⟨n / 2, denotes_snap_of_near hv hn, ?_⟩
      have hmoved : (n : ℚ) / 2 - q = -(2 * q - n) / 2 := by ring
      rw [hmoved, abs_div, abs_neg, abs_two]
      linarith
    · refine ⟨q, ?_, ?_⟩
      · rw [snap_of_far hv hfar]
        exact hv
      · rw [sub_self, abs_zero]
        exact half_pos tolerance_pos
  · rintro (hfinite | hdoubled)
    · exact snap_of_not_finite (isFinite_doubled hfinite)
    · exact snap_of_not_finite hdoubled

/-- The double next to the cosine of a right angle. -/
example : snap (.ofBits 0x3c91a62633145c07) = 0 := by decide

end Lindenmayer.Number
