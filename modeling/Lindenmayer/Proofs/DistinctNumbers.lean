import Lindenmayer.Proofs.ShortestDigits

/-!
# Different doubles have different decimals

The shortest decimal of a double lies in the interval of the reals that round to it. The
intervals of two doubles have at most an end in common. If they do, the doubles are
neighbours, so the significand of one of them is odd, and its interval does not include
its ends. So a decimal says which double it was made from.

Two neighbours need not have the same exponent. Then the one below has the largest
significand, which is odd, and the one above has the smallest one. This is where its
interval reaches only half as far down, which is just as far as the other reaches up.
-/

namespace Lindenmayer.Number

namespace Neighbourhood

variable {n : Neighbourhood}

/-- The lower end of the interval. -/
def lower (n : Neighbourhood) : ℚ := n.low / n.denominator

/-- Being one of the numbers that round to the one in the middle. -/
structure Holds (n : Neighbourhood) (x : ℚ) : Prop where
  low : n.lower ≤ x
  high : x ≤ n.upper
  inside : n.closed = false → n.lower < x ∧ x < n.upper

theorem lower_inUnits (k : Int) : (n.inUnits k).lower = n.lower / 10 ^ k := div_inUnits _ _ k

theorem holds_of_contains (h : n.Proper) {c : Nat} (hc : n.contains c = true) : n.Holds c := by
  have hden : (0 : ℚ) < n.denominator := Nat.cast_pos.2 h.denominator_pos
  have hle : ∀ {low high : Nat}, low ≤ c * n.denominator → c * n.denominator ≤ high →
      (low / n.denominator : ℚ) ≤ c ∧ (c : ℚ) ≤ high / n.denominator := by
    intro low high hlow hhigh
    rw [div_le_iff₀ hden, le_div_iff₀ hden]
    exact ⟨by exact_mod_cast hlow, by exact_mod_cast hhigh⟩
  rw [contains] at hc
  cases hclosed : n.closed with
  | true =>
      simp only [hclosed, if_true, Bool.and_eq_true, decide_eq_true_eq] at hc
      obtain ⟨hlow, hhigh⟩ := hle hc.1 hc.2
      exact ⟨hlow, hhigh, fun hopen => absurd (hclosed.symm.trans hopen) (by decide)⟩
  | false =>
      simp only [hclosed, Bool.false_eq_true, if_false, Bool.and_eq_true, decide_eq_true_eq] at hc
      obtain ⟨hlow, hhigh⟩ := hle hc.1.le hc.2.le
      refine ⟨hlow, hhigh, fun _ => ?_⟩
      rw [lower, upper, div_lt_iff₀ hden, lt_div_iff₀ hden]
      exact ⟨by exact_mod_cast hc.1, by exact_mod_cast hc.2⟩

/-- A number of units is in the interval if the number is in the interval in units. -/
theorem Holds.of_inUnits {k : Int} {x : ℚ} (h : (n.inUnits k).Holds x) :
    n.Holds (x * 10 ^ k) := by
  have hunit : (0 : ℚ) < 10 ^ k := by positivity
  obtain ⟨hlow, hhigh, hinside⟩ := h
  rw [lower_inUnits, upper_inUnits] at hinside
  rw [lower_inUnits, div_le_iff₀ hunit] at hlow
  rw [upper_inUnits, le_div_iff₀ hunit] at hhigh
  refine ⟨hlow, hhigh, fun hopen => ?_⟩
  obtain ⟨hlow, hhigh⟩ := hinside hopen
  rw [div_lt_iff₀ hunit] at hlow
  rw [lt_div_iff₀ hunit] at hhigh
  exact ⟨hlow, hhigh⟩

/-! ## Intervals that are apart -/

variable {m m' : Nat} {e e' : Int} {x : ℚ}

theorem closed_ofBinary (m : Nat) (e : Int) : (ofBinary m e).closed = decide (m % 2 = 0) := rfl

/-- Only at the smallest significand does the interval reach down half as far. -/
theorem lower_ofBinary (hm : 0 < m) (e : Int) :
    (ofBinary m e).lower = (4 * m - if m = 2 ^ 52 ∧ -1074 < e then 1 else 2) * 2 ^ (e - 2) := by
  have hcast : ((4 * m - if m = 2 ^ 52 ∧ -1074 < e then 1 else 2 : Nat) : ℚ) =
      4 * m - if m = 2 ^ 52 ∧ -1074 < e then 1 else 2 := by
    rw [Nat.cast_sub (by split <;> omega)]
    split <;> norm_num
  rw [zpow_eq_div, neg_sub, mul_div_assoc', ← hcast]
  simp only [lower, ofBinary, Nat.pow_eq]
  push_cast
  rfl

namespace Holds

theorem pos (h : (ofBinary m e).Holds x) (hm : 0 < m) : 0 < x := by
  refine lt_of_lt_of_le ?_ h.low
  have hone : (1 : ℚ) ≤ m := by exact_mod_cast hm
  rw [lower_ofBinary hm]
  refine mul_pos ?_ (by positivity)
  split <;> linarith

/-- The ends are left out if the significand is odd. -/
theorem inside_of_odd (h : (ofBinary m e).Holds x) (hodd : m % 2 = 1) :
    (ofBinary m e).lower < x ∧ x < (ofBinary m e).upper :=
  h.inside (by rw [closed_ofBinary, hodd]; rfl)

end Holds

/-- No number rounds to two doubles with the same exponent. -/
theorem apart_of_eq (h : Canonical m e) (h' : Canonical m' e) (hlt : m < m')
    (hx : (ofBinary m e).Holds x) : ¬ (ofBinary m' e).Holds x := by
  intro hx'
  have hunit : (0 : ℚ) < 2 ^ (e - 2) := by positivity
  have hlower : (ofBinary m' e).lower = (4 * m' - 2) * 2 ^ (e - 2) := by
    have hfull := h.full
    rw [lower_ofBinary h'.positive, if_neg (by omega)]
  have hupper := upper_ofBinary m e
  obtain hnext | hfar : m' = m + 1 ∨ m + 2 ≤ m' := by omega
  · -- Where the two meet, one of them is open.
    have hmeet : (ofBinary m' e).lower = (ofBinary m e).upper := by
      rw [hlower, hupper, hnext]
      push_cast
      ring
    obtain heven | hodd := Nat.mod_two_eq_zero_or_one m
    · have hlow := (hx'.inside_of_odd (by omega)).1
      exact absurd hx.high (not_le.2 (hmeet ▸ hlow))
    · have hhigh := (hx.inside_of_odd hodd).2
      exact absurd hx'.low (not_le.2 (hmeet ▸ hhigh))
  · have hgap : (ofBinary m e).upper < (ofBinary m' e).lower := by
      have hcast : ((m : ℚ) + 2) ≤ m' := by exact_mod_cast hfar
      rw [hlower, hupper]
      exact mul_lt_mul_of_pos_right (by linarith) hunit
    exact absurd (le_trans hx'.low hx.high) (not_le.2 hgap)

/-- No number rounds to two doubles with different exponents. -/
theorem apart_of_lt (h : Canonical m e) (h' : Canonical m' e') (hlt : e < e')
    (hx : (ofBinary m e).Holds x) : ¬ (ofBinary m' e').Holds x := by
  intro hx'
  have hunit : (0 : ℚ) < 2 ^ (e - 2) := by positivity
  have htwice : (2 : ℚ) * 2 ^ (e - 2) ≤ 2 ^ (e' - 2) := by
    rw [mul_comm, ← zpow_add_one₀ (by norm_num)]
    exact zpow_le_zpow_right₀ (by norm_num) (by omega)
  have hnormal : -1074 < e' := Int.lt_of_le_of_lt h.low hlt
  have hfull : 2 ^ 52 ≤ m' := h'.full.resolve_left (by omega)
  -- The least coefficient is that of the smallest significand, whose interval is shorter.
  have hcoefficient : (2 : ℚ) ^ 54 - 1 ≤ 4 * m' - if m' = 2 ^ 52 ∧ -1074 < e' then 1 else 2 := by
    split
    · next hleast => rw [hleast.1]; norm_num
    · next hmore =>
        have hsucc : 2 ^ 52 + 1 ≤ m' := by omega
        have hcast : (2 : ℚ) ^ 52 + 1 ≤ m' := by exact_mod_cast hsucc
        linarith
  have hstep : ((2 : ℚ) ^ 55 - 2) * 2 ^ (e - 2) ≤ (ofBinary m' e').lower := by
    rw [lower_ofBinary h'.positive]
    calc ((2 : ℚ) ^ 55 - 2) * 2 ^ (e - 2) = (2 ^ 54 - 1) * (2 * 2 ^ (e - 2)) := by ring
      _ ≤ (2 ^ 54 - 1) * 2 ^ (e' - 2) := mul_le_mul_of_nonneg_left htwice (by norm_num)
      _ ≤ _ := mul_le_mul_of_nonneg_right hcoefficient (by positivity)
  have hshort := h.short
  have hupper := upper_ofBinary m e
  obtain heven | hodd := Nat.mod_two_eq_zero_or_one m
  · have hle : m + 2 ≤ 2 ^ 53 := by omega
    have hcast : (m : ℚ) + 2 ≤ 2 ^ 53 := by exact_mod_cast hle
    have hgap : (ofBinary m e).upper < ((2 : ℚ) ^ 55 - 2) * 2 ^ (e - 2) := by
      rw [hupper]
      exact mul_lt_mul_of_pos_right (by linarith) hunit
    exact absurd (le_trans hx'.low hx.high) (not_le.2 (lt_of_lt_of_le hgap hstep))
  · have hle : m + 1 ≤ 2 ^ 53 := hshort
    have hcast : (m : ℚ) + 1 ≤ 2 ^ 53 := by exact_mod_cast hle
    have hmeet : (ofBinary m e).upper ≤ ((2 : ℚ) ^ 55 - 2) * 2 ^ (e - 2) := by
      rw [hupper]
      exact mul_le_mul_of_nonneg_right (by linarith) hunit.le
    have hhigh := (hx.inside_of_odd hodd).2
    exact absurd (le_trans hstep hx'.low) (not_le.2 (lt_of_lt_of_le hhigh hmeet))

/-- A number rounds to one double only. -/
theorem holds_unique (h : Canonical m e) (h' : Canonical m' e') (hx : (ofBinary m e).Holds x)
    (hx' : (ofBinary m' e').Holds x) : m = m' ∧ e = e' := by
  obtain hlt | rfl | hlt := lt_trichotomy e e'
  · exact absurd hx' (apart_of_lt h h' hlt hx)
  · obtain hlt | rfl | hlt := lt_trichotomy m m'
    · exact absurd hx' (apart_of_eq h h' hlt hx)
    · exact ⟨rfl, rfl⟩
    · exact absurd hx (apart_of_eq h' h hlt hx')
  · exact absurd hx (apart_of_lt h' h hlt hx')

end Neighbourhood

open Neighbourhood in
/-- The shortest decimal of a double rounds to it. -/
theorem holds_shortest (tie : Tie) {m : Nat} (hm : 0 < m) (hlt : m < 2 ^ 53) (e : Int) :
    (ofBinary m e).Holds (shortest tie m e).value := by
  obtain ⟨d, hshortest, hlow, hhigh, hhit⟩ := exists_shortest tie hm hlt e
  have hproper := proper_ofBinary hm e
  have hpos := (hit?_bounds hproper hlow hhigh hhit).1
  have hholds := (holds_of_contains (hproper.inUnits _) (hit?_spec hhit).1).of_inUnits
  rw [hshortest, Decimal.trim, (d.trimZeros_spec _ hpos).1]
  exact hholds

end Lindenmayer.Number
