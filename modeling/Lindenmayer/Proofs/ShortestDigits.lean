import Lindenmayer.Number.Shortest
import Lindenmayer.Proofs.Double

/-!
# Seventeen digits always suffice

The search for the fewest digits starts with the grid of the leading digit and makes the
grid ten times finer with each step. It cannot fail. On the last of the seventeen grids
the number is at least `10 ^ 16` units, and a significand has no more than 53 bits, so
the interval of the reals that round to the number reaches half a unit to either side.
Then the nearer of the two grid points beside the number lies in it.

What the search finds lies in the interval as well, so it is not above the interval's
upper end. Leaving out zeros at the end changes the digits and not the number.
-/

namespace Lindenmayer.Number

/-- The number that a decimal stands for. -/
def Decimal.value (d : Decimal) : ℚ := d.significand * 10 ^ d.exponent

theorem digitCount_bounds {n : Nat} (hn : 0 < n) :
    0 < digitCount n ∧ 10 ^ (digitCount n - 1) ≤ n ∧ n < 10 ^ digitCount n := by
  have hpos : 0 < digitCount n := List.length_pos_of_ne_nil Nat.toDigits_ne_nil
  refine ⟨hpos, ?_, (Nat.length_toDigits_le_iff (by decide) hpos).1 (Nat.le_refl _)⟩
  by_contra hlow
  rcases Nat.eq_zero_or_pos (digitCount n - 1) with hone | hmore
  · rw [hone] at hlow
    omega
  · have := (Nat.length_toDigits_le_iff (b := 10) (by decide) hmore).2 (Nat.lt_of_not_le hlow)
    rw [← digitCount] at this
    omega

theorem zpow_eq_div (b : ℚ) (k : Int) : b ^ k = b ^ k.toNat / b ^ (-k).toNat := by
  rcases le_total 0 k with hk | hk
  · have hneg : (-k).toNat = 0 := by omega
    rw [hneg, pow_zero, div_one, ← zpow_natCast, Int.toNat_of_nonneg hk]
  · have hpos : k.toNat = 0 := by omega
    rw [hpos, pow_zero, one_div, ← zpow_natCast, Int.toNat_of_nonneg (by omega), zpow_neg, inv_inv]

namespace Neighbourhood

/-- What the numerators of a neighbourhood mean. -/
structure Proper (n : Neighbourhood) : Prop where
  denominator_pos : 0 < n.denominator
  low_lt : n.low < n.value
  lt_high : n.value < n.high

variable {n : Neighbourhood} {tie : Tie}

theorem Proper.value_pos (h : n.Proper) : 0 < n.value := Nat.zero_lt_of_lt h.low_lt

theorem Proper.inUnits (h : n.Proper) (k : Int) : (n.inUnits k).Proper :=
  have hup : 0 < Nat.pow 10 (-k).toNat := Nat.pow_pos (by decide)
  { denominator_pos := Nat.mul_pos h.denominator_pos (Nat.pow_pos (by decide))
    low_lt := Nat.mul_lt_mul_of_pos_right h.low_lt hup
    lt_high := Nat.mul_lt_mul_of_pos_right h.lt_high hup }

/-- The number in the middle. -/
def ratio (n : Neighbourhood) : ℚ := n.value / n.denominator

/-- The upper end of the interval. -/
def upper (n : Neighbourhood) : ℚ := n.high / n.denominator

theorem div_inUnits (x d : Nat) (k : Int) :
    ((x * Nat.pow 10 (-k).toNat : Nat) : ℚ) / (d * Nat.pow 10 k.toNat : Nat) = x / d / 10 ^ k := by
  rw [zpow_eq_div, Nat.cast_mul, Nat.cast_mul, Nat.pow_eq, Nat.pow_eq, Nat.cast_pow,
    Nat.cast_pow, div_div_eq_mul_div, div_mul_eq_mul_div, div_div]
  rfl

theorem ratio_inUnits (k : Int) : (n.inUnits k).ratio = n.ratio / 10 ^ k := div_inUnits _ _ k

theorem upper_inUnits (k : Int) : (n.inUnits k).upper = n.upper / 10 ^ k := div_inUnits _ _ k

/-! ## The leading digit -/

/-- The last whole number below a quotient. -/
theorem ceil_sub_one_bounds {x d : Nat} (hx : 0 < x) (hlt : x < d) :
    0 < (d + x - 1) / x - 1 ∧ ((d + x - 1) / x - 1) * x < d ∧
      d ≤ ((d + x - 1) / x - 1 + 1) * x := by
  have htwo : 2 ≤ (d + x - 1) / x := (Nat.le_div_iff_mul_le hx).2 (by omega)
  have hle := Nat.div_mul_le_self (d + x - 1) x
  have hlt := Nat.lt_div_mul_add hx (a := d + x - 1)
  rw [Nat.sub_add_cancel (by omega), Nat.sub_mul, Nat.one_mul]
  have hmul := Nat.mul_le_mul_right x htwo
  omega

theorem leadingExponent_spec (h : n.Proper) :
    (10 : ℚ) ^ n.leadingExponent ≤ n.ratio ∧ n.ratio < 10 ^ (n.leadingExponent + 1) := by
  have hden : (0 : ℚ) < n.denominator := Nat.cast_pos.2 h.denominator_pos
  rw [leadingExponent, ratio, le_div_iff₀ hden, div_lt_iff₀ hden]
  split
  · next hle =>
      obtain ⟨hpos, hlow, hhigh⟩ := digitCount_bounds (Nat.div_pos hle h.denominator_pos)
      rw [Nat.le_div_iff_mul_le h.denominator_pos] at hlow
      rw [Nat.div_lt_iff_lt_mul h.denominator_pos] at hhigh
      generalize digitCount (n.value / n.denominator) = digits at hpos hlow hhigh ⊢
      have hlast : (digits : Int) - 1 = (digits - 1 : Nat) := by omega
      rw [sub_add_cancel, hlast, zpow_natCast, zpow_natCast]
      exact ⟨by exact_mod_cast hlow, by exact_mod_cast hhigh⟩
  · next hlt =>
      obtain ⟨hpos, hbelow, habove⟩ := ceil_sub_one_bounds h.value_pos (Nat.lt_of_not_le hlt)
      generalize (n.denominator + n.value - 1) / n.value - 1 = r at hpos hbelow habove ⊢
      obtain ⟨hdigits, hlow, hhigh⟩ := digitCount_bounds hpos
      generalize digitCount r = digits at hdigits hlow hhigh ⊢
      have hfirst : n.denominator ≤ 10 ^ digits * n.value :=
        Nat.le_trans habove (Nat.mul_le_mul_right _ hhigh)
      have hnext : 10 ^ (digits - 1) * n.value < n.denominator :=
        Nat.lt_of_le_of_lt (Nat.mul_le_mul_right _ hlow) hbelow
      have hlast : -(digits : Int) + 1 = -(digits - 1 : Nat) := by omega
      rw [hlast, zpow_neg, zpow_neg, zpow_natCast, zpow_natCast, inv_mul_le_iff₀ (by positivity),
        lt_inv_mul_iff₀ (by positivity)]
      exact ⟨by exact_mod_cast hfirst, by exact_mod_cast hnext⟩

/-! ## A grid point beside the number -/

theorem nearer_eq (n : Neighbourhood) (tie : Tie) :
    n.nearer tie = n.value / n.denominator ∨ n.nearer tie = n.value / n.denominator + 1 := by
  rw [nearer.eq_def]
  dsimp only
  split
  · exact Or.inl rfl
  · exact Or.inr rfl
  · cases tie with
    | up => exact Or.inr rfl
    | toEven =>
        rcases Nat.mod_two_eq_zero_or_one (n.value / n.denominator) with h | h <;> simp [h]

theorem hit?_spec {c : Nat} (h : n.hit? tie = some c) :
    n.contains c = true ∧ (c = n.value / n.denominator ∨ c = n.value / n.denominator + 1) := by
  rw [hit?] at h
  split at h
  · next hfloor hceil =>
      cases h
      rcases nearer_eq n tie with h | h <;> rw [h]
      · exact ⟨hfloor, Or.inl rfl⟩
      · exact ⟨hceil, Or.inr rfl⟩
  · next hfloor _ =>
      cases h
      exact ⟨hfloor, Or.inl rfl⟩
  · next _ hceil =>
      cases h
      exact ⟨hceil, Or.inr rfl⟩
  · cases h

theorem contains_of_lt {c : Nat} (hlow : n.low < c * n.denominator)
    (hhigh : c * n.denominator < n.high) : n.contains c = true := by
  rw [contains]
  split
  · simp [hlow.le, hhigh.le]
  · simp [hlow, hhigh]

theorem le_high_of_contains {c : Nat} (h : n.contains c = true) : c * n.denominator ≤ n.high := by
  rw [contains] at h
  split at h
  · simp only [Bool.and_eq_true, decide_eq_true_eq] at h
    exact h.2
  · simp only [Bool.and_eq_true, decide_eq_true_eq] at h
    exact h.2.le

/-- If the interval reaches half a unit to either side, it has a grid point beside the
number. -/
theorem exists_hit (tie : Tie) (h : n.Proper) (hbelow : n.denominator < 2 * (n.value - n.low))
    (habove : n.denominator < 2 * (n.high - n.value)) : ∃ c, n.hit? tie = some c := by
  have hdiv := Nat.div_add_mod n.value n.denominator
  have hmod := Nat.mod_lt n.value h.denominator_pos
  have hlow := h.low_lt
  have hhigh := h.lt_high
  rw [Nat.mul_comm] at hdiv
  have hbeside : n.contains (n.value / n.denominator) = true ∨
      n.contains (n.value / n.denominator + 1) = true := by
    -- The remainder tells which of the two is the nearer one.
    rcases le_or_gt (2 * (n.value % n.denominator)) n.denominator with hnear | hfar
    · exact Or.inl (contains_of_lt (by omega) (by omega))
    · refine Or.inr (contains_of_lt ?_ ?_) <;> rw [Nat.add_mul, Nat.one_mul] <;> omega
  rw [hit?]
  split
  · exact ⟨_, rfl⟩
  · exact ⟨_, rfl⟩
  · exact ⟨_, rfl⟩
  · next hfloor hceil =>
      rw [hfloor, hceil] at hbeside
      rcases hbeside with hbeside | hbeside <;> cases hbeside

/-! ## The search -/

/-- If the last of its grids has a hit, the search finds one. -/
theorem exists_search {fuel : Nat} {k : Int} (h : ∃ c, (n.inUnits (k - fuel)).hit? tie = some c) :
    ∃ d, n.search tie (fuel + 1) k = some d ∧ k - fuel ≤ d.exponent ∧ d.exponent ≤ k ∧
      (n.inUnits d.exponent).hit? tie = some d.significand := by
  induction fuel generalizing k with
  | zero =>
      rw [Int.natCast_zero, sub_zero] at h
      obtain ⟨c, hc⟩ := h
      exact ⟨⟨c, k⟩, by rw [search, hc], by simp, le_rfl, hc⟩
  | succ fuel ih =>
      rw [search]
      split
      · next c hc => exact ⟨⟨c, k⟩, rfl, by simp only; omega, le_rfl, hc⟩
      · have hlast : k - (fuel + 1 : Nat) = k - 1 - fuel := by omega
        rw [hlast] at h
        obtain ⟨d, hd, hlow, hhigh, hhit⟩ := ih h
        exact ⟨d, hd, by omega, by omega, hhit⟩

/-- A hit on a grid between the leading digit and the seventeenth has one to seventeen
digits, or is `10 ^ 17`. -/
theorem hit?_bounds (h : n.Proper) {k : Int} (hlow : n.leadingExponent - 16 ≤ k)
    (hhigh : k ≤ n.leadingExponent) {c : Nat} (hc : (n.inUnits k).hit? tie = some c) :
    0 < c ∧ c ≤ 10 ^ 17 ∧ (c : ℚ) * 10 ^ k ≤ n.upper := by
  obtain ⟨hcontains, hbeside⟩ := hit?_spec hc
  have hproper := h.inUnits k
  have hden : (0 : ℚ) < (n.inUnits k).denominator := Nat.cast_pos.2 hproper.denominator_pos
  obtain ⟨hfirst, hnext⟩ := leadingExponent_spec h
  have hratio := ratio_inUnits (n := n) k
  have hone : (1 : ℚ) ≤ (n.inUnits k).ratio := by
    rw [hratio, one_le_div (by positivity)]
    exact le_trans (zpow_le_zpow_right₀ (by norm_num) hhigh) hfirst
  have hlimit : (n.inUnits k).ratio < 10 ^ 17 := by
    rw [hratio, div_lt_iff₀ (by positivity), ← zpow_natCast, ← zpow_add₀ (by norm_num)]
    refine lt_of_lt_of_le hnext (zpow_le_zpow_right₀ (by norm_num) ?_)
    push_cast
    omega
  rw [ratio, one_le_div hden] at hone
  rw [ratio, div_lt_iff₀ hden] at hlimit
  have hpos : 0 < (n.inUnits k).value / (n.inUnits k).denominator :=
    Nat.div_pos (by exact_mod_cast hone) hproper.denominator_pos
  have hdigits : (n.inUnits k).value / (n.inUnits k).denominator < 10 ^ 17 := by
    rw [Nat.div_lt_iff_lt_mul hproper.denominator_pos]
    exact_mod_cast hlimit
  refine ⟨by omega, by omega, ?_⟩
  rw [← le_div_iff₀ (by positivity), ← upper_inUnits, upper, le_div_iff₀ hden]
  exact_mod_cast le_high_of_contains hcontains

/-! ## The interval of a double -/

variable {m : Nat} {e : Int}

theorem proper_ofBinary (hm : 0 < m) (e : Int) : (ofBinary m e).Proper := by
  have hscale : 0 < Nat.pow 2 (e - 2).toNat := Nat.pow_pos (by decide)
  refine ⟨Nat.pow_pos (by decide), ?_, ?_⟩ <;> refine Nat.mul_lt_mul_of_pos_right ?_ hscale
  · split <;> omega
  · omega

theorem upper_ofBinary (m : Nat) (e : Int) : (ofBinary m e).upper = (4 * m + 2) * 2 ^ (e - 2) := by
  rw [zpow_eq_div, neg_sub, mul_div_assoc']
  simp only [upper, ofBinary, Nat.pow_eq]
  push_cast
  rfl

/-- From `10 ^ 16` units up, the interval reaches half a unit to either side. Below a
power of two its lower half is the shorter one, but there the significand is so small
that the unit is short as well. -/
theorem ofBinary_wide (hm : 0 < m) (hlt : m < 2 ^ 53) {k : Int} {n : Neighbourhood}
    (hn : (ofBinary m e).inUnits k = n) (hfine : 10 ^ 16 ≤ n.ratio) :
    n.denominator < 2 * (n.value - n.low) ∧ n.denominator < 2 * (n.high - n.value) := by
  have hproper : n.Proper := hn ▸ (proper_ofBinary hm e).inUnits k
  have hmany : 10 ^ 16 * n.denominator ≤ n.value := by
    rw [ratio, le_div_iff₀ (Nat.cast_pos.2 hproper.denominator_pos)] at hfine
    exact_mod_cast hfine
  -- Four times `s` is the last place of the significand, and all numerators are multiples of `s`.
  obtain ⟨s, hs⟩ : ∃ s, s = Nat.pow 2 (e - 2).toNat * Nat.pow 10 (-k).toNat := ⟨_, rfl⟩
  have hspos : 0 < s := by
    rw [hs]
    exact Nat.mul_pos (Nat.pow_pos (by decide)) (Nat.pow_pos (by decide))
  have hvalue : n.value = 4 * (m * s) := by
    rw [← hn, hs]
    simp only [inUnits, ofBinary]
    ring
  have hhigh : n.high = 4 * (m * s) + 2 * s := by
    rw [← hn, hs]
    simp only [inUnits, ofBinary]
    ring
  have hlow : n.low = 4 * (m * s) - 2 * s ∨ m = 2 ^ 52 ∧ n.low = 4 * (m * s) - s := by
    have hlow : n.low = (4 * m - if m = 4503599627370496 ∧ -1074 < e then 1 else 2) * s := by
      rw [← hn, hs, ← Nat.mul_assoc]
      rfl
    rw [hlow, Nat.sub_mul, Nat.mul_assoc]
    split
    · next hpower => exact Or.inr ⟨hpower.1, by rw [Nat.one_mul]⟩
    · exact Or.inl rfl
  rw [hvalue] at hmany ⊢
  rw [hhigh]
  rcases hlow with hlow | ⟨rfl, hlow⟩
  · have hms : m * s ≤ (2 ^ 53 - 1) * s := Nat.mul_le_mul_right s (by omega)
    have hpos := hproper.low_lt
    omega
  · omega

end Neighbourhood

/-! ## Zeros at the end -/

theorem Decimal.trimZeros_spec (fuel : Nat) {d : Decimal} (hd : 0 < d.significand) :
    (d.trimZeros fuel).value = d.value ∧ 0 < (d.trimZeros fuel).significand ∧
      (d.trimZeros fuel).significand ≤ d.significand := by
  induction fuel generalizing d with
  | zero => exact ⟨rfl, hd, le_rfl⟩
  | succ fuel ih =>
      rw [trimZeros]
      split
      · next hzero =>
          have htenth : d.significand = d.significand / 10 * 10 := by omega
          obtain ⟨hvalue, hpos, hle⟩ :=
            ih (d := ⟨d.significand / 10, d.exponent + 1⟩) (by simp only; omega)
          refine ⟨hvalue.trans ?_, hpos, le_trans hle (Nat.div_le_self _ _)⟩
          have hcast : (d.significand : ℚ) = (d.significand / 10 : Nat) * 10 := by
            exact_mod_cast htenth
          rw [value, value, hcast, zpow_add_one₀ (by norm_num)]
          ring
      · exact ⟨rfl, hd, le_rfl⟩

open Neighbourhood in
/-- The shortest decimal of a double is a hit on one of seventeen grids, without the zeros at
its end. -/
theorem exists_shortest (tie : Tie) {m : Nat} (hm : 0 < m) (hlt : m < 2 ^ 53) (e : Int) :
    ∃ d : Decimal, shortest tie m e = d.trim ∧
      (ofBinary m e).leadingExponent - 16 ≤ d.exponent ∧
      d.exponent ≤ (ofBinary m e).leadingExponent ∧
      ((ofBinary m e).inUnits d.exponent).hit? tie = some d.significand := by
  have hproper := proper_ofBinary hm e
  have hfine : (10 : ℚ) ^ 16 ≤
      ((ofBinary m e).inUnits ((ofBinary m e).leadingExponent - (16 : Nat))).ratio := by
    rw [ratio_inUnits, le_div_iff₀ (by positivity), ← zpow_natCast, ← zpow_add₀ (by norm_num),
      add_sub_cancel]
    exact (leadingExponent_spec hproper).1
  obtain ⟨hbelow, habove⟩ := ofBinary_wide hm hlt rfl hfine
  obtain ⟨d, hsearch, hlow, hhigh, hhit⟩ :=
    exists_search (exists_hit tie (hproper.inUnits _) hbelow habove)
  refine ⟨d, ?_, by exact_mod_cast hlow, hhigh, hhit⟩
  rw [shortest]
  simp only [hsearch, Option.getD_some]

open Neighbourhood in
/-- The shortest decimal of a double is a number of at most eighteen digits that is not
above the interval of the double. -/
theorem shortest_spec (tie : Tie) {m : Nat} (hm : 0 < m) (hlt : m < 2 ^ 53) (e : Int) :
    0 < (shortest tie m e).significand ∧ (shortest tie m e).significand ≤ 10 ^ 17 ∧
      (shortest tie m e).value ≤ (4 * m + 2) * 2 ^ (e - 2) := by
  obtain ⟨d, hshortest, hlow, hhigh, hhit⟩ := exists_shortest tie hm hlt e
  obtain ⟨hpos, hdigits, hvalue⟩ := hit?_bounds (proper_ofBinary hm e) hlow hhigh hhit
  obtain ⟨htrim, htrimpos, htrimle⟩ := d.trimZeros_spec (digitCount d.significand) hpos
  rw [hshortest, Decimal.trim, htrim]
  refine ⟨htrimpos, le_trans htrimle hdigits, ?_⟩
  rwa [upper_ofBinary] at hvalue

end Lindenmayer.Number
