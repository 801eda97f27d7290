import Lindenmayer.Proofs.NumericalOrder
import Lindenmayer.Proofs.Roundoff

/-!
# Where doubles are exact

There is one way to write a double as a significand and a power of two, and rounding finds
it: whatever way a number is written, if there is a double for it then all that is shifted
out are zeros. So a sum, a difference, a product or a quotient is exact where it can be, that is,
where there is a double for the result. Beside this it does not matter how the operations work.

A comparison is always exact. It goes by the exponents first, and a larger exponent
outweighs every significand because a significand has 53 bits wherever there is a smaller
exponent.

There are doubles for the whole numbers up to `2 ^ 53`.
-/

namespace Lindenmayer.Number

open Float.Model (UnpackedFloat Format totalExponent)
open Float.Model.UnpackedFloat

/-! ## Exact rounding -/

theorem log2_mul_two_pow {c : Nat} (hc : 0 < c) (k : Nat) : (c * 2 ^ k).log2 = c.log2 + k := by
  rw [Nat.log2_eq_iff (Nat.ne_of_gt (Nat.mul_pos hc (Nat.two_pow_pos k))), Nat.add_right_comm,
    Nat.pow_add, Nat.pow_add]
  exact ⟨Nat.mul_le_mul_right _ (Nat.log2_self_le (Nat.ne_of_gt hc)),
    Nat.mul_lt_mul_of_pos_right Nat.lt_log2_self (Nat.two_pow_pos k)⟩

theorem Canonical.log2_le {c : Nat} {t : Int} (h : Canonical c t) : c.log2 ≤ 52 :=
  Nat.le_of_lt_succ ((Nat.log2_lt (Nat.ne_of_gt h.positive)).2 h.short)

theorem Canonical.targetExponent_eq {c : Nat} {t : Int} (h : Canonical c t) :
    Format.binary64.targetExponent (totalExponent c t) = t := by
  have hle := h.log2_le
  have hlow := h.low
  rw [targetExponent_binary64, totalExponent]
  rcases h.full with rfl | hfull
  · omega
  · have := (Nat.le_log2 (Nat.ne_of_gt h.positive)).2 hfull
    omega

theorem shiftRight_exact (c k : Nat) :
    ExtendedMantissa.mk (c * 2 ^ k) false false >>> k = ⟨c, false, false⟩ := by
  induction k generalizing c with
  | zero => rw [Nat.pow_zero, Nat.mul_one]; rfl
  | succ k ih =>
      show (ExtendedMantissa.mk (c * 2 ^ (k + 1)) false false >>> k).shiftRightOne = _
      rw [Nat.pow_succ', ← Nat.mul_assoc, ih (c * 2)]
      simp [ExtendedMantissa.shiftRightOne]

/-- Zeros below a canonical significand are shifted out, and nothing is rounded. -/
theorem roundWithAccuracy_exact (s : Sign) {c : Nat} {t : Int} (h : Canonical c t) (k : Nat) :
    roundWithAccuracy Format.binary64 s (c * 2 ^ k) (t - k) .exact =
      .finite s c t h.positive := by
  have htotal : totalExponent (c * 2 ^ k) (t - k) = totalExponent c t := by
    rw [totalExponent, totalExponent, log2_mul_two_pow h.positive]
    push_cast
    ring
  have hshift : (t - (t - k)).toNat = k := by omega
  have hexact : ExtendedMantissa.ofMantissaAndAccuracy (c * 2 ^ k) .exact >>> k =
      ⟨c, false, false⟩ := shiftRight_exact c k
  have hrounded : (ExtendedMantissa.mk c false false).roundedMantissa = c := rfl
  have hback : t - k + (k : Nat) = t := by omega
  simp only [roundWithAccuracy, shiftToTargetExponent, shiftToExponent, htotal,
    h.targetExponent_eq, hshift, hexact, hrounded, hback, Int.sub_self, Int.toNat_zero,
    Nat.cast_zero, Int.add_zero]
  exact dif_neg (Nat.ne_of_gt h.positive)

/-- Zeros behind a significand do not change the number. -/
theorem shiftLeft_value (m k : Nat) (e : Int) :
    ((m <<< k : Nat) : ℚ) * 2 ^ (e - k) = m * 2 ^ e := by
  rw [Nat.shiftLeft_eq, Nat.cast_mul, Nat.cast_pow, Nat.cast_ofNat, mul_assoc, ← zpow_natCast,
    ← zpow_add₀ (by norm_num), add_sub_cancel]

/-- Of two ways to write a number, the one with the smaller exponent has zeros at the end of
its significand. -/
theorem eq_mul_two_pow {m c : Nat} {e t : Int} (hle : e ≤ t)
    (h : (m : ℚ) * 2 ^ e = c * 2 ^ t) : m = c * 2 ^ (t - e).toNat := by
  rw [← shiftLeft_value c (t - e).toNat, Int.toNat_of_nonneg (by omega), Int.sub_sub_self,
    Nat.shiftLeft_eq] at h
  exact_mod_cast mul_right_cancel₀ (by positivity) h

theorem log2_add_eq {m c : Nat} {e t : Int} (hm : 0 < m) (hc : 0 < c)
    (h : (m : ℚ) * 2 ^ e = c * 2 ^ t) : m.log2 + e = c.log2 + t := by
  rcases le_total e t with hle | hle
  · rw [eq_mul_two_pow hle h, log2_mul_two_pow hc]
    omega
  · rw [eq_mul_two_pow hle h.symm, log2_mul_two_pow hm]
    omega

section

variable {m c : Nat} {e t : Int} (hcanonical : Canonical c t) (heq : (m : ℚ) * 2 ^ e = c * 2 ^ t)

include heq

theorem roundWithAccuracy_of_eq (s : Sign) (hle : e ≤ t) :
    roundWithAccuracy Format.binary64 s m e .exact = .finite s c t hcanonical.positive := by
  have hexact := roundWithAccuracy_exact s hcanonical (t - e).toNat
  rwa [← eq_mul_two_pow hle heq, Int.toNat_of_nonneg (by omega), Int.sub_sub_self] at hexact

theorem round_of_eq (s : Sign) (hm : 0 < m) :
    UnpackedFloat.round Format.binary64 s m e = .finite s c t hcanonical.positive := by
  have htarget : Format.binary64.targetExponent (totalExponent m e) = t := by
    have hlog := log2_add_eq hm hcanonical.positive heq
    have htotal : totalExponent m e = totalExponent c t := by
      rw [totalExponent, totalExponent]
      omega
    rw [htotal, hcanonical.targetExponent_eq]
  simp only [UnpackedFloat.round, decreaseExponent, htarget]
  refine roundWithAccuracy_of_eq hcanonical ?_ s (by omega)
  rw [shiftLeft_value, heq]

end

theorem normalize_of_eq {s : Sign} {c : Nat} {M e t : Int} (hcanonical : Canonical c t)
    (heq : (M : ℚ) * 2 ^ e = s.apply c * 2 ^ t) (z : Sign) :
    UnpackedFloat.normalize Format.binary64 M e z = .finite s c t hcanonical.positive := by
  have hc : (0 : ℚ) < c * 2 ^ t := by
    have := hcanonical.positive
    positivity
  have hscale : (0 : ℚ) < 2 ^ e := by positivity
  cases s with
  | positive =>
      have hvalue : (M : ℚ) * 2 ^ e = c * 2 ^ t := by rw [heq, Sign.apply, Int.cast_natCast]
      have hM : 0 < M := by exact_mod_cast (mul_pos_iff_of_pos_right hscale).1 (hvalue ▸ hc)
      rw [UnpackedFloat.normalize, compare_gt_iff_gt.2 hM]
      refine round_of_eq hcanonical ?_ .positive (by omega)
      rw [← hvalue, ← Int.cast_natCast, Int.toNat_of_nonneg hM.le]
  | negative =>
      have hvalue : ((-M : Int) : ℚ) * 2 ^ e = c * 2 ^ t := by
        rw [Int.cast_neg, neg_mul, heq, Sign.apply, Int.cast_neg, Int.cast_natCast, neg_mul,
          neg_neg]
      have hM : 0 < -M := by exact_mod_cast (mul_pos_iff_of_pos_right hscale).1 (hvalue ▸ hc)
      rw [UnpackedFloat.normalize, compare_lt_iff_lt.2 (Int.neg_pos.1 hM)]
      refine round_of_eq hcanonical ?_ .negative (by omega)
      rw [← hvalue, ← Int.cast_natCast, Int.toNat_of_nonneg hM.le]

/-! ## Values -/

/-- The number that is meant, if it is a finite one. -/
def value? : UnpackedFloat → Option ℚ
  | .finite s m e _ => some (s.apply m * 2 ^ e)
  | .zero _ => some 0
  | .infinity _ | .notANumber => none

/-- Being the double, or one of the two doubles, for a number. -/
def Denotes (x : Float) (q : ℚ) : Prop := value? (decode x) = some q

/-- Being a number for which there is a double. -/
def Representable (q : ℚ) : Prop := ∃ x, Denotes x q

theorem Denotes.unique {x : Float} {p q : ℚ} (hp : Denotes x p) (hq : Denotes x q) : p = q :=
  Option.some.inj (hp.symm.trans hq)

theorem Denotes.of_beq {x y : Float} {q : ℚ} (hy : Denotes y q) (h : (x == y) = true) :
    Denotes x q := by
  rcases eq_or_isZero_of_beq h with rfl | ⟨⟨s, hs⟩, t, ht⟩
  · exact hy
  · rw [Denotes, ht] at hy
    rw [Denotes, hs]
    exact hy

theorem Denotes.cases {x : Float} {q : ℚ} (h : Denotes x q) :
    (∃ s, decode x = .zero s ∧ q = 0) ∨
      ∃ s m e hm, decode x = .finite s m e hm ∧ Canonical m e ∧ q = s.apply m * 2 ^ e := by
  rw [Denotes] at h
  rcases hdecode : decode x with s | _ | s | ⟨s, m, e, hm⟩ <;> rw [hdecode] at h <;> cases h
  · exact .inl ⟨s, rfl, rfl⟩
  · exact .inr ⟨s, m, e, hm, rfl, decode_canonical hdecode, rfl⟩

theorem isFinite_iff {x : Float} : x.isFinite = true ↔ ∃ q, Denotes x q := by
  show (decode x).isFinite = true ↔ ∃ q, value? (decode x) = some q
  cases decode x with
  | notANumber | infinity => exact iff_of_false Bool.false_ne_true fun ⟨_, h⟩ => nomatch h
  | zero | finite => exact iff_of_true rfl ⟨_, rfl⟩

theorem decode_encode_subnormal {s : Sign} {m : Nat} (hm : 0 < m) (hshort : m < 2 ^ 52) :
    decode (encode (.finite s m (-1074) hm)) = .finite s m (-1074) hm := by
  have hlog : m.log2 < 52 := (Nat.log2_lt (Nat.ne_of_gt hm)).2 hshort
  have hfits : ¬ 2 ^ 11 ≤ ((-1074 : Int) + (1023 : Nat) + (52 : Nat)).toNat + 1 := by decide
  have hfield : (BitVec.ofNat 52 m).toNat = m := by
    rw [BitVec.toNat_ofNat]
    exact Nat.mod_eq_of_lt hshort
  have hpack : pack Format.binary64 (.finite s m (-1074) hm) =
      packComponents Format.binary64 s 0#11 (BitVec.ofNat 52 m) := by
    simp only [pack, exponentBias_binary64, mantissaBits_binary64]
    rw [if_neg hfits, if_neg (by omega)]
  have hmantissa : BitVec.ofNat 52 m ≠ 0#52 := by
    intro hzero
    have := congrArg BitVec.toNat hzero
    rw [hfield] at this
    exact Nat.ne_of_gt hm this
  show unpack Format.binary64 (pack Format.binary64 (.finite s m (-1074) hm)) = _
  rw [hpack, unpack]
  simp only [unpackMantissa_packComponents, unpackExponent_packComponents,
    unpackSign_packComponents, Sign.ofBitVec_toBitVec, exponentBias_binary64, hfield]
  rw [if_neg (by decide), if_pos trivial, dif_neg hmantissa]
  rfl

theorem decode_encode_canonical (s : Sign) {m : Nat} {e : Int} (h : Canonical m e) :
    decode (encode (.finite s m e h.positive)) = .finite s m e h.positive := by
  rcases Nat.lt_or_ge m (2 ^ 52) with hshort | hlong
  · have he : e = -1074 := h.full.resolve_right (Nat.not_le.2 hshort)
    subst he
    exact decode_encode_subnormal h.positive hshort
  · exact decode_encode_normal h.positive hlong h.short h.low h.high

theorem decode_neg (x : Float) : decode (-x) = (decode x).neg := by
  show decode (encode (decode x).neg) = _
  cases h : decode x with
  | notANumber => rfl
  | infinity s => cases s <;> rfl
  | zero s => exact decode_encode_zero _
  | finite s m e hm => exact decode_encode_canonical _ (decode_canonical h)

theorem Canonical.denotes (s : Sign) {m : Nat} {e : Int} (h : Canonical m e) :
    Denotes (encode (.finite s m e h.positive)) (s.apply m * 2 ^ e) := by
  rw [Denotes, decode_encode_canonical s h, value?]

theorem Canonical.denotes_positive {m : Nat} {e : Int} (h : Canonical m e) {x : Float}
    (hx : x = encode (.finite .positive m e h.positive)) : Denotes x (m * 2 ^ e) := by
  have hdenotes := h.denotes .positive
  rwa [← hx, Sign.apply, Int.cast_natCast] at hdenotes

theorem denotes_zero (s : Sign) : Denotes (encode (.zero s)) 0 := by
  rw [Denotes, decode_encode_zero, value?]

theorem denotes_normalize {M e : Int} {q : ℚ} (hq : M * 2 ^ e = q) (h : Representable q)
    (z : Sign) : Denotes (encode (UnpackedFloat.normalize Format.binary64 M e z)) q := by
  obtain ⟨x, hx⟩ := h
  obtain ⟨s, -, rfl⟩ | ⟨s, c, t, hc, -, hcanonical, rfl⟩ := hx.cases
  · have hM : M = 0 := by exact_mod_cast (mul_eq_zero_iff_right (by positivity)).1 hq
    rw [hM]
    exact denotes_zero z
  · rw [normalize_of_eq hcanonical hq z]
    exact hcanonical.denotes s

theorem apply_mul_pow_inj {s s' : Sign} {m c : Nat} {e t : Int} (hm : 0 < m) (hc : 0 < c)
    (h : (s.apply m : ℚ) * 2 ^ e = s'.apply c * 2 ^ t) : s = s' ∧ (m : ℚ) * 2 ^ e = c * 2 ^ t := by
  have hm' : (0 : ℚ) < m * 2 ^ e := by positivity
  have hc' : (0 : ℚ) < c * 2 ^ t := by positivity
  cases s <;> cases s' <;> simp only [Sign.apply, Int.cast_neg, Int.cast_natCast, neg_mul] at h
  · exact ⟨rfl, neg_inj.1 h⟩
  · linarith
  · linarith
  · exact ⟨rfl, h⟩

theorem apply_mul_pow_ne {m : Nat} (hm : 0 < m) (s : Sign) (e : Int) :
    (s.apply m : ℚ) * 2 ^ e ≠ 0 := by
  refine mul_ne_zero ?_ (by positivity)
  cases s <;> simp [Sign.apply, Nat.ne_of_gt hm]

/-- A product has no bits below the least one of a double, unless its factors did not have
53 bits. -/
theorem denotes_roundWithAccuracy {s : Sign} {m : Nat} {e : Int} (hm : 0 < m)
    (he : e ≤ -1074 ∨ 2 ^ 52 ≤ m) (h : Representable (s.apply m * 2 ^ e)) :
    Denotes (encode (roundWithAccuracy Format.binary64 s m e .exact)) (s.apply m * 2 ^ e) := by
  obtain ⟨x, hx⟩ := h
  obtain ⟨-, -, hzero⟩ | ⟨s', c, t, hc, -, hcanonical, hvalue⟩ := hx.cases
  · exact absurd hzero (apply_mul_pow_ne hm s e)
  · obtain ⟨rfl, heq⟩ := apply_mul_pow_inj hm hc hvalue
    have hlog := log2_add_eq hm hc heq
    have hle : e ≤ t := by
      have := hcanonical.log2_le
      have := hcanonical.low
      rcases he with he | he
      · omega
      · have := (Nat.le_log2 (Nat.ne_of_gt hm)).2 he
        omega
    rw [roundWithAccuracy_of_eq hcanonical heq s hle, hvalue]
    exact hcanonical.denotes s

/-! ## Exact arithmetic -/

section

variable {x y : Float} {p q : ℚ}

theorem aligned_value (s : Sign) (m : Nat) {e t : Int} (hle : t ≤ e) :
    (s.apply (m <<< (e - t).toNat : Nat) : ℚ) * 2 ^ t = s.apply m * 2 ^ e := by
  have hshift := shiftLeft_value m (e - t).toNat e
  rw [Int.toNat_of_nonneg (by omega), Int.sub_sub_self] at hshift
  cases s with
  | positive => simpa only [Sign.apply, Int.cast_natCast] using hshift
  | negative =>
      simp only [Sign.apply, Int.cast_neg, Int.cast_natCast, neg_mul, neg_inj]
      exact hshift

theorem apply_neg (s : Sign) (a : Int) : (-s).apply a = -s.apply a := by
  cases s with
  | negative => exact (Int.neg_neg a).symm
  | positive => rfl

theorem apply_mul (s t : Sign) (a b : Int) : (s * t).apply (a * b) = s.apply a * t.apply b := by
  cases s <;> cases t
  · exact (Int.neg_mul_neg a b).symm
  · exact (Int.neg_mul a b).symm
  · exact (Int.mul_neg a b).symm
  · rfl

theorem Denotes.add (hx : Denotes x p) (hy : Denotes y q) (h : Representable (p + q)) :
    Denotes (x + y) (p + q) := by
  rw [add_eq_encode]
  obtain ⟨s, hdx, rfl⟩ | ⟨s, m, e, hm, hdx, hcanonical, rfl⟩ := hx.cases
  · obtain ⟨t, hdy, rfl⟩ | ⟨t, k, f, hk, hdy, hcanonical, rfl⟩ := hy.cases
    · obtain ⟨u, hu⟩ := add_zeros s t
      rw [hdx, hdy, hu, add_zero]
      exact denotes_zero u
    · rw [hdx, hdy, zero_add]
      exact hcanonical.denotes t
  · obtain ⟨t, hdy, rfl⟩ | ⟨t, k, f, hk, hdy, -, rfl⟩ := hy.cases
    · rw [hdx, hdy, add_zero]
      exact hcanonical.denotes s
    · rw [hdx, hdy]
      refine denotes_normalize ?_ h .positive
      rw [Int.cast_add, add_mul, aligned_value s m (min_le_left e f),
        aligned_value t k (min_le_right e f)]

theorem Denotes.neg (hx : Denotes x p) : Denotes (-x) (-p) := by
  rw [Denotes, decode_neg]
  obtain ⟨s, hdx, rfl⟩ | ⟨s, m, e, hm, hdx, -, rfl⟩ := hx.cases <;> rw [hdx]
  · rw [neg_zero]
    rfl
  · rw [← neg_mul, ← Int.cast_neg, ← apply_neg]
    rfl

theorem Denotes.sub (hx : Denotes x p) (hy : Denotes y q) (h : Representable (p - q)) :
    Denotes (x - y) (p - q) := by
  show Denotes (encode (UnpackedFloat.sub Format.binary64 (decode x) (decode y))) _
  obtain ⟨s, hdx, rfl⟩ | ⟨s, m, e, hm, hdx, hcanonical, rfl⟩ := hx.cases
  · obtain ⟨t, hdy, rfl⟩ | ⟨t, k, f, hk, hdy, -, rfl⟩ := hy.cases
    · obtain ⟨u, hu⟩ := sub_zeros s t
      rw [hdx, hdy, hu, sub_zero]
      exact denotes_zero u
    · have hneg : Denotes (encode (decode y).neg) _ := hy.neg
      rw [hdy] at hneg
      rw [hdx, hdy, zero_sub]
      exact hneg
  · obtain ⟨t, hdy, rfl⟩ | ⟨t, k, f, hk, hdy, -, rfl⟩ := hy.cases
    · rw [hdx, hdy, sub_zero]
      exact hcanonical.denotes s
    · rw [hdx, hdy]
      refine denotes_normalize ?_ h .positive
      rw [Int.cast_sub, sub_mul, aligned_value s m (min_le_left e f),
        aligned_value t k (min_le_right e f)]

theorem Denotes.mul (hx : Denotes x p) (hy : Denotes y q) (h : Representable (p * q)) :
    Denotes (x * y) (p * q) := by
  show Denotes (encode (UnpackedFloat.mul Format.binary64 (decode x) (decode y))) _
  obtain ⟨s, hdx, rfl⟩ | ⟨s, m, e, hm, hdx, hcanonical, rfl⟩ := hx.cases
  · rw [hdx, zero_mul]
    obtain ⟨t, hdy, -⟩ | ⟨t, k, f, hk, hdy, -, -⟩ := hy.cases <;> rw [hdy] <;> exact denotes_zero _
  · obtain ⟨t, hdy, rfl⟩ | ⟨t, k, f, hk, hdy, hcanonical', rfl⟩ := hy.cases
    · rw [hdx, hdy, mul_zero]
      exact denotes_zero _
    · have hvalue : (s.apply m : ℚ) * 2 ^ e * (t.apply k * 2 ^ f) =
          (s * t).apply (m * k : Nat) * 2 ^ (e + f) := by
        rw [Int.natCast_mul, apply_mul, zpow_add₀ (by norm_num), Int.cast_mul]
        ring
      rw [hvalue] at h ⊢
      rw [hdx, hdy]
      refine denotes_roundWithAccuracy (Nat.mul_pos hm hk) ?_ h
      rcases hcanonical.full with rfl | hfull
      · rcases hcanonical'.full with rfl | hfull'
        · exact .inl (by decide)
        · exact .inr (hfull'.trans (Nat.le_mul_of_pos_left k hm))
      · exact .inr (hfull.trans (Nat.le_mul_of_pos_right m hk))

theorem Denotes.abs (hx : Denotes x p) : Denotes x.abs |p| := by
  show Denotes (encode (decode x).abs) _
  obtain ⟨s, hdx, rfl⟩ | ⟨s, m, e, hm, hdx, hcanonical, rfl⟩ := hx.cases
  · rw [hdx, abs_zero]
    exact denotes_zero _
  · have hvalue : |(s.apply m : ℚ) * 2 ^ e| = Sign.positive.apply m * 2 ^ e := by
      rw [abs_mul, abs_of_pos (show (0 : ℚ) < 2 ^ e by positivity)]
      cases s <;> simp [Sign.apply]
    rw [hdx, hvalue]
    exact hcanonical.denotes .positive

theorem log2_mul_bounds {c k : Nat} (hc : 0 < c) (hk : 0 < k) :
    c.log2 + k.log2 ≤ (c * k).log2 ∧ (c * k).log2 ≤ c.log2 + k.log2 + 1 := by
  have hne : c * k ≠ 0 := Nat.ne_of_gt (Nat.mul_pos hc hk)
  constructor
  · rw [Nat.le_log2 hne, Nat.pow_add]
    exact Nat.mul_le_mul (Nat.log2_self_le (Nat.ne_of_gt hc)) (Nat.log2_self_le (Nat.ne_of_gt hk))
  · have hlt : (c * k).log2 < c.log2 + 1 + (k.log2 + 1) := by
      rw [Nat.log2_lt hne, Nat.pow_add]
      exact Nat.mul_lt_mul'' Nat.lt_log2_self Nat.lt_log2_self
    omega

/-- Where there is a double for a quotient, the division of significands leaves no rest. -/
theorem divCore_of_eq {m k c : Nat} {e f t : Int} (hm : 0 < m) (hk : 0 < k) (h : Canonical c t)
    (heq : (m : ℚ) * 2 ^ e = (c * k : Nat) * 2 ^ (t + f)) :
    ∃ j : Nat, divCore Format.binary64 m e k f = (c * 2 ^ j, t - j, .exact) := by
  have hlog := log2_add_eq hm (Nat.mul_pos h.positive hk) heq
  obtain ⟨-, hhigh⟩ := log2_mul_bounds h.positive hk
  have htarget : Format.binary64.targetExponent (totalExponent m e - totalExponent k f) ≤ t := by
    have hle := h.log2_le
    have hlow := h.low
    rw [targetExponent_binary64, totalExponent, totalExponent]
    omega
  simp only [divCore]
  generalize Format.binary64.targetExponent _ = bound at htarget ⊢
  let target := min (e - f) bound
  have hmin : target ≤ e - f := min_le_left _ _
  have ht : target ≤ t := (min_le_right _ _).trans htarget
  have hshifted : m <<< (e - f - target).toNat = c * 2 ^ (t - target).toNat * k := by
    have hvalue := shiftLeft_value m (e - f - target).toNat e
    rw [Int.toNat_of_nonneg (by omega), heq] at hvalue
    rw [eq_mul_two_pow (by omega) hvalue, Nat.mul_right_comm]
    congr 3
    omega
  have haccuracy : accuracyOfFraction 0 k = .exact := rfl
  refine ⟨(t - target).toNat, ?_⟩
  rw [hshifted, Nat.mul_div_cancel _ hk, Nat.mul_mod_left, haccuracy,
    Int.toNat_of_nonneg (by omega), Int.sub_sub_self]

theorem Denotes.div (hx : Denotes x p) (hy : Denotes y q) (hq : q ≠ 0)
    (h : Representable (p / q)) : Denotes (x / y) (p / q) := by
  show Denotes (encode (UnpackedFloat.div Format.binary64 (decode x) (decode y))) _
  obtain ⟨t, -, rfl⟩ | ⟨t, k, f, hk, hdy, -, rfl⟩ := hy.cases
  · exact absurd rfl hq
  obtain ⟨s, hdx, rfl⟩ | ⟨s, m, e, hm, hdx, -, rfl⟩ := hx.cases
  · rw [hdx, hdy, zero_div]
    exact denotes_zero _
  obtain ⟨z, hz⟩ := h
  obtain ⟨-, -, hzero⟩ | ⟨s', c, u, hc, -, hcanonical, hvalue⟩ := hz.cases
  · exact absurd hzero (div_ne_zero (apply_mul_pow_ne hm s e) hq)
  have hproduct : (s.apply m : ℚ) * 2 ^ e = (s' * t).apply (c * k : Nat) * 2 ^ (u + f) := by
    rw [div_eq_iff hq] at hvalue
    rw [hvalue, Int.natCast_mul, apply_mul, zpow_add₀ (by norm_num), Int.cast_mul]
    ring
  obtain ⟨hsign, heq⟩ := apply_mul_pow_inj hm (Nat.mul_pos hc hk) hproduct
  have hquotient : s / t = s' := by
    rw [hsign]
    cases s' <;> cases t <;> rfl
  obtain ⟨j, hcore⟩ := divCore_of_eq hm hk hcanonical heq
  rw [hdx, hdy, hvalue]
  simp only [UnpackedFloat.div, hcore, hquotient]
  rw [roundWithAccuracy_exact s' hcanonical j]
  exact hcanonical.denotes s'

/-! ## Comparisons -/

theorem Denotes.isNaN_eq_false (hx : Denotes x p) : x.isNaN = false := by
  rw [isNaN_eq_false_iff]
  intro hnan
  rw [Denotes, hnan] at hx
  cases hx

/-- A larger exponent outweighs every significand. -/
theorem Canonical.lt_of_lt {m k : Nat} {e f : Int} (hm : Canonical m e) (hk : Canonical k f)
    (h : e < f) : (m : ℚ) * 2 ^ e < k * 2 ^ f := by
  have hshort : (m : ℚ) < 2 ^ 53 := by exact_mod_cast hm.short
  have hfull : (2 : ℚ) ^ 52 ≤ k := by
    have := hm.low
    exact_mod_cast hk.full.resolve_left (by omega)
  calc (m : ℚ) * 2 ^ e < 2 ^ 53 * 2 ^ e := by gcongr
    _ = 2 ^ 52 * 2 ^ (e + 1) := by
      rw [zpow_add₀ (by norm_num)]
      ring
    _ ≤ k * 2 ^ f := by
      have hstep : (2 : ℚ) ^ (e + 1) ≤ 2 ^ f := zpow_le_zpow_right₀ (by norm_num) h
      gcongr

theorem Canonical.lt_iff {m k : Nat} {e f : Int} (hm : Canonical m e) (hk : Canonical k f) :
    (m : ℚ) * 2 ^ e < k * 2 ^ f ↔ e < f ∨ e = f ∧ m < k := by
  rcases lt_trichotomy e f with h | rfl | h
  · exact iff_of_true (hm.lt_of_lt hk h) (.inl h)
  · rw [mul_lt_mul_iff_left₀ (by positivity), Nat.cast_lt]
    simp
  · exact iff_of_false (hk.lt_of_lt hm h).not_gt (by omega)

theorem Denotes.lt_iff (hx : Denotes x p) (hy : Denotes y q) : x < y ↔ p < q := by
  have hpos : ∀ {m : Nat} (e : Int), 0 < m → (0 : ℚ) < m * 2 ^ e := fun e hm => by positivity
  rw [lt_iff_key hx.isNaN_eq_false hy.isNaN_eq_false]
  obtain ⟨s, hdx, rfl⟩ | ⟨s, m, e, hm, hdx, hcanonical, rfl⟩ := hx.cases <;>
    obtain ⟨t, hdy, rfl⟩ | ⟨t, k, f, hk, hdy, hcanonical', rfl⟩ := hy.cases <;>
    rw [hdx, hdy]
  · exact iff_of_false (lt_irrefl _) (lt_irrefl _)
  · have := hpos f hk
    cases t <;> simp [key, Prod.Lex.toLex_lt_toLex, Sign.apply, this, this.le]
  · have := hpos e hm
    cases s <;> simp [key, Prod.Lex.toLex_lt_toLex, Sign.apply, this, this.le]
  · have hleft := hpos e hm
    have hright := hpos f hk
    cases s <;> cases t <;>
      simp only [key, Prod.Lex.toLex_lt_toLex, Sign.apply, Int.cast_neg, Int.cast_natCast, neg_mul,
        neg_lt_neg_iff, hcanonical.lt_iff hcanonical', hcanonical'.lt_iff hcanonical]
    · simp only [lt_irrefl, false_or, true_and]
      omega
    · exact iff_of_true (.inl (by decide)) (by linarith)
    · exact iff_of_false (by omega) (by linarith)
    · simp only [lt_irrefl, false_or, true_and, Nat.cast_lt]

theorem Denotes.beq_iff (hx : Denotes x p) (hy : Denotes y q) : (x == y) = true ↔ p = q := by
  have hxy := hx.lt_iff hy
  have hyx := hy.lt_iff hx
  rw [lt_iff_key hx.isNaN_eq_false hy.isNaN_eq_false] at hxy
  rw [lt_iff_key hy.isNaN_eq_false hx.isNaN_eq_false] at hyx
  rw [beq_iff_key hx.isNaN_eq_false hy.isNaN_eq_false, le_antisymm_iff, le_antisymm_iff,
    ← not_lt, ← not_lt, ← not_lt, ← not_lt, hxy, hyx]

/-- There is only one double for a number other than zero. -/
theorem Denotes.eq_of_ne_zero (hx : Denotes x p) (hy : Denotes y p) (hp : p ≠ 0) : x = y := by
  rcases eq_or_isZero_of_beq ((hx.beq_iff hy).2 rfl) with h | ⟨⟨s, hs⟩, -⟩
  · exact h
  · rw [Denotes, hs] at hx
    exact absurd (Option.some.inj hx).symm hp

theorem Denotes.least (hx : Denotes x p) (hy : Denotes y q) :
    Denotes (Number.least x y) (min p q) := by
  rw [Number.least, hx.isNaN_eq_false, if_neg Bool.false_ne_true]
  split
  · next h => rwa [min_eq_right ((hy.lt_iff hx).1 h).le]
  · next h => rwa [min_eq_left (not_lt.1 (mt (hy.lt_iff hx).2 h))]

theorem Denotes.greatest (hx : Denotes x p) (hy : Denotes y q) :
    Denotes (Number.greatest x y) (max p q) := by
  rw [Number.greatest, hx.isNaN_eq_false, if_neg Bool.false_ne_true]
  split
  · next h => rwa [max_eq_right ((hx.lt_iff hy).1 h).le]
  · next h => rwa [max_eq_left (not_lt.1 (mt (hx.lt_iff hy).2 h))]

end

/-! ## What has a double -/

theorem representable_zero : Representable 0 := ⟨_, denotes_zero .positive⟩

theorem Representable.neg {q : ℚ} (h : Representable q) : Representable (-q) :=
  h.imp' _ fun _ => Denotes.neg

theorem Representable.of_natAbs {n : ℤ} {q : ℚ} (h : Representable (n.natAbs * q)) :
    Representable (n * q) := by
  rcases Int.natAbs_eq n with heq | heq <;> rw [heq]
  · rwa [Int.cast_natCast]
  · rw [Int.cast_neg, Int.cast_natCast, neg_mul]
    exact h.neg

/-- A significand of fewer than 53 bits is filled up with zeros, as far as the least exponent
permits. -/
theorem representable_of_short {m : Nat} (hm : m < 2 ^ 53) {e : Int} (hlow : -1074 ≤ e)
    (hhigh : e ≤ 971) : Representable (m * 2 ^ e) := by
  rcases Nat.eq_zero_or_pos m with rfl | hpos
  · rw [Nat.cast_zero, zero_mul]
    exact representable_zero
  have hlog : m.log2 ≤ 52 := Nat.le_of_lt_succ ((Nat.log2_lt (Nat.ne_of_gt hpos)).2 hm)
  let k := min (52 - m.log2) (e + 1074).toNat
  have hfilled : (m <<< k).log2 = m.log2 + k := by rw [Nat.shiftLeft_eq, log2_mul_two_pow hpos]
  have hne : m <<< k ≠ 0 := by
    rw [Nat.shiftLeft_eq]
    exact Nat.ne_of_gt (Nat.mul_pos hpos (Nat.two_pow_pos k))
  have hcanonical : Canonical (m <<< k) (e - k) := by
    refine ⟨Nat.pos_of_ne_zero hne, ?_, by omega, by omega, ?_⟩
    · rw [← Nat.log2_lt hne, hfilled]
      omega
    · rw [← Nat.le_log2 hne, hfilled]
      omega
  rw [← shiftLeft_value m k e]
  exact ⟨_, hcanonical.denotes_positive rfl⟩

theorem representable_natCast {n : Nat} (h : n ≤ 2 ^ 53) : Representable n := by
  rcases Nat.lt_or_eq_of_le h with hlt | rfl
  · have hshort := representable_of_short hlt (e := 0) (by decide) (by decide)
    rwa [zpow_zero, mul_one] at hshort
  · have hpower := representable_of_short (m := 1) (e := 53) (by decide) (by decide) (by decide)
    rw [Nat.cast_one, one_mul] at hpower
    exact_mod_cast hpower

theorem representable_intCast {n : ℤ} (h : |n| ≤ 2 ^ 53) : Representable n := by
  have hnat : n.natAbs ≤ 2 ^ 53 := by
    rw [Int.abs_eq_natAbs] at h
    exact_mod_cast h
  have habs := representable_natCast hnat
  rw [← mul_one (n.natAbs : ℚ)] at habs
  rw [← mul_one (n : ℚ)]
  exact habs.of_natAbs

/-! ## Whole numbers -/

theorem denotes_one : Denotes 1 1 := by
  have hone : (1 : Float) = encode (.finite .positive (2 ^ 52) (-52) (by decide)) := by
    decide
  have hcanonical : Canonical (2 ^ 52) (-52) := by constructor <;> decide
  have hdenotes := hcanonical.denotes_positive hone
  norm_num at hdenotes
  exact hdenotes

theorem denotes_toFloat {n : Nat} (h : n ≤ 2 ^ 53) : Denotes n.toUInt64.toFloat n := by
  have hcast : n.toUInt64.toNat = n := toNat_toUInt64 (h.trans_lt (by decide))
  refine denotes_normalize ?_ (representable_natCast h) .positive
  rw [hcast, zpow_zero, mul_one, Int.cast_natCast]

theorem denotes_ofNat {n : Nat} (h : n ≤ 2 ^ 53) : Denotes (Float.ofNat n) n := by
  rcases Nat.lt_or_eq_of_le h with hlt | rfl
  · have htable : Float.exactlyRepresentablePowersOfTen[0] = 1 := by decide
    have heq : Float.ofNat n = n.toUInt64.toFloat * 1 := by
      show Float.ofScientific n false 0 = _
      rw [Float.ofScientific, dif_pos ⟨hlt, by decide⟩, ← htable]
      rfl
    have hconverted := denotes_toFloat h
    have hscaled := hconverted.mul denotes_one (by rw [mul_one]; exact representable_natCast h)
    rwa [mul_one, ← heq] at hscaled
  · have hlargest : Float.ofNat (2 ^ 53) = encode (.finite .positive (2 ^ 52) 1 (by decide)) := by
      decide
    have hcanonical : Canonical (2 ^ 52) 1 := by constructor <;> decide
    have hdenotes := hcanonical.denotes_positive hlargest
    norm_num at hdenotes ⊢
    exact hdenotes

theorem denotes_ofInt {n : ℤ} (h : |n| ≤ 2 ^ 53) : Denotes (Float.ofInt n) n := by
  rw [Int.abs_eq_natAbs] at h
  cases n with
  | ofNat n =>
      have hn : n ≤ 2 ^ 53 := by exact_mod_cast h
      exact denotes_ofNat hn
  | negSucc n =>
      have hn : n + 1 ≤ 2 ^ 53 := by exact_mod_cast h
      rw [Int.cast_negSucc]
      exact (denotes_ofNat hn).neg

end Lindenmayer.Number
