import Lindenmayer.Proofs.Double

/-!
# The sign of a zero

Two doubles are alike if they are the same up to the sign of a zero. Arithmetic
respects this: a zero times a number is a zero or a NaN, whatever its sign, and a
zero beside another number leaves that number alone. So the sign of a zero only
ever shows in the sign of another zero.

It does not show at all in a sum that starts from anything but the negative zero.
A sum is the negative zero only if both of its terms are: terms that cancel give
the positive zero, and a sum of doubles never is so small that it is rounded to
zero. That last fact is the one about rounding that is needed, and it says where a
rounded significand lies.
-/

namespace Lindenmayer.Number

open Float.Model (UnpackedFloat Format totalExponent)
open Float.Model.UnpackedFloat

/-- Being the same unpacked number, but perhaps for the sign of a zero. -/
def Kin (u v : UnpackedFloat) : Prop := u = v ∨ (∃ s, u = .zero s) ∧ ∃ t, v = .zero t

/-- Being the same number, but perhaps for the sign of a zero. -/
def Alike (x y : Float) : Prop := Kin (decode x) (decode y)

theorem Alike.refl (x : Float) : Alike x x := Or.inl rfl

theorem alike_iff {x y : Float} : Alike x y ↔ x = y ∨ IsZero x ∧ IsZero y :=
  or_congr_left ⟨eq_of_decode_eq, congrArg decode⟩

/-- Numbers that are equal are alike. The converse fails only for a NaN. -/
theorem alike_of_beq {x y : Float} (h : (x == y) = true) : Alike x y :=
  alike_iff.2 (eq_or_isZero_of_beq h)

theorem Kin.trans {u v w : UnpackedFloat} (huv : Kin u v) (hvw : Kin v w) : Kin u w := by
  rcases huv with rfl | ⟨hu, hv⟩
  · exact hvw
  · rcases hvw with rfl | ⟨_, hw⟩
    · exact Or.inr ⟨hu, hv⟩
    · exact Or.inr ⟨hu, hw⟩

theorem Kin.alike {u v : UnpackedFloat} (h : Kin u v) : Alike (encode u) (encode v) := by
  rcases h with rfl | ⟨⟨s, rfl⟩, t, rfl⟩
  · exact Alike.refl _
  · exact Or.inr ⟨⟨s, decode_encode_zero s⟩, t, decode_encode_zero t⟩

/-! ## Arithmetic respects being alike

For an operation it is enough to look at a zero on either side. -/

theorem alike_congr (op : UnpackedFloat → UnpackedFloat → UnpackedFloat)
    (hleft : ∀ s t u, Kin (op (.zero s) u) (op (.zero t) u))
    (hright : ∀ s t u, Kin (op u (.zero s)) (op u (.zero t)))
    {x x' y y' : Float} (hx : Alike x x') (hy : Alike y y') :
    Alike (encode (op (decode x) (decode y))) (encode (op (decode x') (decode y'))) := by
  have h₁ : Kin (op (decode x) (decode y)) (op (decode x') (decode y)) := by
    rcases hx with hx | ⟨⟨s, hs⟩, t, ht⟩
    · exact Or.inl (by rw [hx])
    · rw [hs, ht]; exact hleft s t _
  have h₂ : Kin (op (decode x') (decode y)) (op (decode x') (decode y')) := by
    rcases hy with hy | ⟨⟨s, hs⟩, t, ht⟩
    · exact Or.inl (by rw [hy])
    · rw [hs, ht]; exact hright s t _
  exact (h₁.trans h₂).alike

theorem Alike.mul {x x' y y' : Float} (hx : Alike x x') (hy : Alike y y') :
    Alike (x * y) (x' * y') := by
  refine alike_congr (UnpackedFloat.mul Format.binary64) ?_ ?_ hx hy <;>
    intro s t u <;> cases u
  case refine_1.notANumber | refine_1.infinity | refine_2.notANumber | refine_2.infinity =>
      exact Or.inl rfl
  all_goals exact Or.inr ⟨⟨_, rfl⟩, _, rfl⟩

/-- Two zeros of whatever signs have a zero for their sum. -/
theorem add_zeros (s t : Sign) :
    ∃ u, UnpackedFloat.add Format.binary64 (.zero s) (.zero t) = .zero u := by
  cases s <;> cases t <;> exact ⟨_, rfl⟩

theorem sub_zeros (s t : Sign) :
    ∃ u, UnpackedFloat.sub Format.binary64 (.zero s) (.zero t) = .zero u := by
  cases s <;> cases t <;> exact ⟨_, rfl⟩

theorem Alike.add {x x' y y' : Float} (hx : Alike x x') (hy : Alike y y') :
    Alike (x + y) (x' + y') := by
  refine alike_congr (UnpackedFloat.add Format.binary64) ?_ ?_ hx hy <;>
    intro s t u <;> cases u
  case refine_1.zero u => exact Or.inr ⟨add_zeros s u, add_zeros t u⟩
  case refine_2.zero u => exact Or.inr ⟨add_zeros u s, add_zeros u t⟩
  all_goals exact Or.inl rfl

theorem Alike.sub {x x' y y' : Float} (hx : Alike x x') (hy : Alike y y') :
    Alike (x - y) (x' - y') := by
  refine alike_congr (UnpackedFloat.sub Format.binary64) ?_ ?_ hx hy <;>
    intro s t u <;> cases u
  case refine_1.zero u => exact Or.inr ⟨sub_zeros s u, sub_zeros t u⟩
  case refine_2.zero u => exact Or.inr ⟨sub_zeros u s, sub_zeros u t⟩
  all_goals exact Or.inl rfl

/-! ## A sum is hardly ever the negative zero

A rounded significand of a number in range is neither zero nor too long, so a sum
that is not zero does not become one. -/

theorem shiftRight_mantissa (em : ExtendedMantissa) (k : Nat) :
    (em >>> k).mantissa = em.mantissa / 2 ^ k := by
  induction k with
  | zero => exact (Nat.div_one _).symm
  | succ k ih =>
      show (em >>> k).shiftRightOne.mantissa = _
      rw [ExtendedMantissa.shiftRightOne, ih, Nat.div_div_eq_div_mul, Nat.pow_succ]

theorem ofMantissaAndAccuracy_mantissa (m : Nat) (accuracy : Accuracy) :
    (ExtendedMantissa.ofMantissaAndAccuracy m accuracy).mantissa = m := by
  rcases accuracy with _ | _ | _ | _ <;> rfl

theorem mantissa_le_roundedMantissa (em : ExtendedMantissa) :
    em.mantissa ≤ em.roundedMantissa := by
  rw [ExtendedMantissa.roundedMantissa]
  generalize em.accuracy = accuracy
  rcases accuracy with _ | _ | _ | _ <;> simp only [Accuracy.roundToNearestEven] <;> omega

/-- From the least exponent up, all that is shifted out is what exceeds 53 bits. -/
theorem targetExponent_sub_toNat {m : Nat} {e : Int} (he : -1074 ≤ e) :
    (Format.binary64.targetExponent (totalExponent m e) - e).toNat = m.log2 - 52 := by
  rw [targetExponent_binary64, totalExponent]
  omega

theorem shifted_bounds {m : Nat} (hm : 0 < m) :
    0 < m / 2 ^ (m.log2 - 52) ∧ m / 2 ^ (m.log2 - 52) < 2 ^ 53 := by
  have hlow := Nat.log2_self_le (Nat.ne_of_gt hm)
  have hhigh : m < 2 ^ (m.log2 + 1) := Nat.lt_log2_self
  constructor
  · refine Nat.div_pos (Nat.le_trans ?_ hlow) (Nat.two_pow_pos _)
    exact Nat.pow_le_pow_right (by decide) (Nat.sub_le _ _)
  · rw [Nat.div_lt_iff_lt_mul (Nat.two_pow_pos _), ← Nat.pow_add]
    refine Nat.lt_of_lt_of_le hhigh (Nat.pow_le_pow_right (by decide) ?_)
    omega

/-- A number in range is rounded to a finite number in range, of the same sign. -/
theorem roundWithAccuracy_finite (sign : Sign) {m : Nat} (hm : 0 < m) {e : Int}
    (he : -1074 ≤ e) (accuracy : Accuracy) :
    ∃ m' e' h, roundWithAccuracy Format.binary64 sign m e accuracy = .finite sign m' e' h ∧
      m' < 2 ^ 53 ∧ -1074 ≤ e' := by
  have he' : -1074 ≤ e + (m.log2 - 52 : Nat) := by omega
  let em := ExtendedMantissa.ofMantissaAndAccuracy m accuracy >>> (m.log2 - 52)
  have hem : em.mantissa = m / 2 ^ (m.log2 - 52) := by
    rw [shiftRight_mantissa, ofMantissaAndAccuracy_mantissa]
  have hr : 0 < em.roundedMantissa :=
    Nat.lt_of_lt_of_le (hem ▸ (shifted_bounds hm).1) (mantissa_le_roundedMantissa em)
  obtain ⟨hpos, hlt⟩ := shifted_bounds hr
  simp only [roundWithAccuracy, shiftToTargetExponent, shiftToExponent, shiftRight_mantissa,
    ofMantissaAndAccuracy_mantissa, targetExponent_sub_toNat he, targetExponent_sub_toNat he']
  rw [dif_neg (Nat.ne_of_gt hpos)]
  exact ⟨_, _, hpos, rfl, hlt, by omega⟩

theorem round_finite (sign : Sign) {m : Nat} (hm : 0 < m) {e : Int} (he : -1074 ≤ e) :
    ∃ m' e' h, UnpackedFloat.round Format.binary64 sign m e = .finite sign m' e' h ∧
      m' < 2 ^ 53 ∧ -1074 ≤ e' := by
  simp only [UnpackedFloat.round, decreaseExponent]
  refine roundWithAccuracy_finite sign ?_ ?_ _
  · rw [Nat.shiftLeft_eq]
    exact Nat.mul_pos hm (Nat.two_pow_pos _)
  · rw [targetExponent_binary64]
    omega

theorem decode_encode_finite_ne {sign : Sign} {m : Nat} {e : Int} (hm : 0 < m)
    (hlt : m < 2 ^ 53) (he : -1074 ≤ e) (t : Sign) :
    decode (encode (.finite sign m e hm)) ≠ .zero t := by
  intro h
  have henc : encode (.finite sign m e hm) = encode (.zero t) := by rw [← h, encode_decode]
  have hpack : pack Format.binary64 (.finite sign m e hm) = packedZero Format.binary64 t :=
    congrArg (fun x : Float => x.toModel.toBits.toBitVec) henc
  have hexp := congrArg unpackExponent hpack
  have hmant := congrArg unpackMantissa hpack
  rw [packedZero, unpackExponent_packComponents] at hexp
  rw [packedZero, unpackMantissa_packComponents] at hmant
  simp only [pack, exponentBias_binary64, mantissaBits_binary64] at hexp hmant
  split at hexp
  · rw [packedInfinity, unpackExponent_packComponents] at hexp
    exact absurd hexp (by decide)
  · next hfits =>
      rw [if_neg hfits] at hmant
      split at hexp
      · -- a normal number: its exponent is not the one of zero
        rw [unpackExponent_packComponents] at hexp
        have h0 := congrArg BitVec.toNat hexp
        rw [BitVec.toNat_ofNat] at h0
        have h1 : (e + (1023 : Nat) + (52 : Nat)).toNat % 2 ^ 11 = 0 := h0
        have h2 : ¬ 2 ^ 11 ≤ (e + (1023 : Nat) + (52 : Nat)).toNat + 1 := hfits
        omega
      · next hshort =>
          rw [if_neg hshort, unpackMantissa_packComponents] at hmant
          have hlog : m.log2 < 53 := (Nat.log2_lt (Nat.ne_of_gt hm)).2 hlt
          have hsmall : m < 2 ^ 52 := (Nat.log2_lt (Nat.ne_of_gt hm)).1 (by omega)
          have h0 : m % 2 ^ 52 = 0 := congrArg BitVec.toNat hmant
          omega

/-- Not being the negative zero. -/
def NotNegZero (x : Float) : Prop := decode x ≠ .zero .negative

theorem decode_encode_round_ne {sign : Sign} {m : Nat} (hm : 0 < m) {e : Int}
    (he : -1074 ≤ e) (t : Sign) :
    decode (encode (UnpackedFloat.round Format.binary64 sign m e)) ≠ .zero t := by
  obtain ⟨m', e', hm', hround, hlt, he'⟩ := round_finite sign hm he
  rw [hround]
  exact decode_encode_finite_ne hm' hlt he' t

/-- A sum whose first term is not the negative zero is not the negative zero. -/
theorem NotNegZero.add {x : Float} (hx : NotNegZero x) (y : Float) : NotNegZero (x + y) := by
  have hnan : decode (encode .notANumber) ≠ .zero .negative := fun h => nomatch h
  have hinf : ∀ s, decode (encode (.infinity s)) ≠ .zero .negative := by
    intro s
    cases s <;> exact fun h => nomatch h
  rw [NotNegZero, add_eq_encode]
  rcases hu : decode x with s | _ | s | ⟨s, m, e, hm⟩ <;>
    rcases hv : decode y with t | _ | t | ⟨t, k, f, hk⟩
  case finite.finite =>
      have he := (decode_canonical hu).low
      have hf := (decode_canonical hv).low
      simp only [UnpackedFloat.add, UnpackedFloat.normalize]
      generalize (_ : Int) + _ = total
      split
      · next hlt =>
          rw [Int.compare_eq_lt] at hlt
          exact decode_encode_round_ne (by omega) (by omega) _
      · rw [decode_encode_zero]; exact fun h => nomatch h
      · next hgt =>
          rw [Int.compare_eq_gt] at hgt
          exact decode_encode_round_ne (by omega) (by omega) _
  case zero.zero =>
      cases s with
      | negative => exact absurd hu hx
      | positive => cases t <;> exact fun h => nomatch h
  case zero.finite =>
      show decode (encode (.finite t k f hk)) ≠ _
      rw [← hv, encode_decode, hv]
      exact fun h => nomatch h
  case finite.zero =>
      show decode (encode (.finite s m e hm)) ≠ _
      rw [← hu, encode_decode, hu]
      exact fun h => nomatch h
  case infinity.infinity =>
      simp only [UnpackedFloat.add]
      split
      · exact hinf s
      · exact hnan
  case infinity.zero | infinity.finite => exact hinf s
  case zero.infinity | finite.infinity => exact hinf t
  all_goals exact hnan

/-- Numbers that are alike are the same where neither is the negative zero. -/
theorem NotNegZero.eq_of_alike {x y : Float} (hx : NotNegZero x) (hy : NotNegZero y)
    (h : Alike x y) : x = y := by
  rcases h with h | ⟨⟨s, hs⟩, t, ht⟩
  · exact eq_of_decode_eq h
  · cases s with
    | negative => exact absurd hs hx
    | positive =>
        cases t with
        | negative => exact absurd ht hy
        | positive => exact eq_of_decode_eq (hs.trans ht.symm)

/-- Such a sum does not depend on the sign of a zero in its second term. -/
theorem NotNegZero.add_congr {x : Float} (hx : NotNegZero x) {y y' : Float} (hy : Alike y y') :
    x + y = x + y' := by
  rcases alike_iff.1 hy with rfl | ⟨⟨s, hs⟩, t, ht⟩
  · rfl
  · rw [add_eq_encode, add_eq_encode, hs, ht]
    rcases hu : decode x with u | _ | u | ⟨u, m, e, hm⟩
    case zero =>
        cases u with
        | negative => exact absurd hu hx
        | positive => cases s <;> cases t <;> rfl
    all_goals rfl

end Lindenmayer.Number
