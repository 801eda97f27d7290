import Lindenmayer.Geometry.Rotation
import Lindenmayer.Proofs.Exactness

/-!
# Quarter turns

A turn by a multiple of a right angle has zero, one or minus one for its factors. Each
coordinate of the result is computed from two products. One of them is a zero, whatever
its sign, and the other is a coordinate from before, perhaps negated. So nothing is ever
rounded, however large the coordinates are.

Turns of one right angle to the left and to the right can therefore be counted. Where they
take a vector depends on the difference of their numbers, and four more or less make none.
-/

namespace Lindenmayer

namespace Number

/-- Being zero, one or minus one, numerically. -/
def isUnit (x : Float) : Bool := x == 0 || x == 1 || x == -1

/-- The whole number that such a double is. -/
def unit (x : Float) : ℤ := if x == 1 then 1 else if x == -1 then -1 else 0

variable {x y : Float} {p q : ℚ}

theorem unit_cases (x : Float) : unit x = 0 ∨ unit x = 1 ∨ unit x = -1 := by
  rw [unit]
  split_ifs <;> simp

theorem denotes_unit (h : isUnit x = true) : Denotes x (unit x) := by
  simp only [isUnit, Bool.or_eq_true] at h
  rw [unit]
  split_ifs with hone hminus
  · rw [Int.cast_one]
    exact denotes_one.of_beq hone
  · rw [Int.cast_neg, Int.cast_one]
    exact denotes_one.neg.of_beq hminus
  · have hzero : (x == 0) = true := (h.resolve_right hminus).resolve_right hone
    rw [Int.cast_zero]
    exact (denotes_zero .positive).of_beq hzero

theorem unit_eq_zero (h : isUnit x = true) (hzero : (x == 0) = true) : unit x = 0 := by
  have hsame := (denotes_unit h).unique ((denotes_zero .positive).of_beq hzero)
  exact_mod_cast hsame

theorem abs_unit_mul_le (x : Float) (n : ℤ) : |unit x * n| ≤ |n| := by
  rcases unit_cases x with h | h | h <;> rw [h]
  · rw [zero_mul, abs_zero]
    exact abs_nonneg n
  · rw [one_mul]
  · rw [neg_one_mul, abs_neg]

theorem Denotes.unit_mul (h : isUnit y = true) (hx : Denotes x q) :
    Denotes (y * x) (unit y * q) := by
  refine (denotes_unit h).mul hx ?_
  rcases unit_cases y with hy | hy | hy <;> rw [hy]
  · rw [Int.cast_zero, zero_mul]
    exact representable_zero
  · rw [Int.cast_one, one_mul]
    exact ⟨x, hx⟩
  · rw [Int.cast_neg, Int.cast_one, neg_one_mul]
    exact Representable.neg ⟨x, hx⟩

theorem Denotes.add_zero_or (hx : Denotes x p) (hy : Denotes y q) (h : p = 0 ∨ q = 0) :
    Denotes (x + y) (p + q) := by
  refine hx.add hy ?_
  rcases h with rfl | rfl
  · rw [zero_add]
    exact ⟨y, hy⟩
  · rw [add_zero]
    exact ⟨x, hx⟩

theorem Denotes.sub_zero_or (hx : Denotes x p) (hy : Denotes y q) (h : p = 0 ∨ q = 0) :
    Denotes (x - y) (p - q) := by
  refine hx.sub hy ?_
  rcases h with rfl | rfl
  · rw [zero_sub]
    exact Representable.neg ⟨y, hy⟩
  · rw [sub_zero]
    exact ⟨x, hx⟩

end Number

open Number

namespace Rotation

/-- Turning by a multiple of a right angle: of the cosine and the sine one is zero, and the
other one is one or minus one. -/
def isQuarter (r : Rotation) : Bool :=
  isUnit r.cos && isUnit r.sin && (r.cos == 0) != (r.sin == 0)

variable {r : Rotation}

theorem units_of_isQuarter (h : r.isQuarter = true) :
    isUnit r.cos = true ∧ isUnit r.sin = true ∧ (unit r.cos = 0 ∨ unit r.sin = 0) := by
  simp only [isQuarter, Bool.and_eq_true, bne_iff_ne] at h
  obtain ⟨⟨hcos, hsin⟩, hone⟩ := h
  refine ⟨hcos, hsin, ?_⟩
  cases hzero : r.cos == 0 with
  | true => exact .inl (unit_eq_zero hcos hzero)
  | false =>
      rw [hzero] at hone
      exact .inr (unit_eq_zero hsin (Bool.eq_true_of_not_eq_false hone.symm))

/-- A quarter turn is exact. -/
theorem denotes_apply (h : r.isQuarter = true) {v : Point} {p q : ℚ} (hx : Denotes v.x p)
    (hy : Denotes v.y q) :
    Denotes (r.apply v).x (unit r.cos * p - unit r.sin * q) ∧
      Denotes (r.apply v).y (unit r.sin * p + unit r.cos * q) := by
  obtain ⟨hcos, hsin, hzero⟩ := units_of_isQuarter h
  have hzeros : ∀ p q : ℚ, unit r.cos * p = 0 ∨ unit r.sin * q = 0 := by
    intro p q
    refine hzero.imp (fun hc => ?_) fun hs => ?_
    · rw [hc, Int.cast_zero, zero_mul]
    · rw [hs, Int.cast_zero, zero_mul]
  exact ⟨(hx.unit_mul hcos).sub_zero_or (hy.unit_mul hsin) (hzeros p q),
    (hx.unit_mul hsin).add_zero_or (hy.unit_mul hcos) (hzeros q p).symm⟩

end Rotation

/-! ## Runs of quarter turns -/

namespace Rotation

/-- Turning left by a right angle. The zero may have either sign. -/
def isLeft (r : Rotation) : Bool := r.cos == 0 && r.sin == 1

/-- Turning right by a right angle. -/
def isRight (r : Rotation) : Bool := r.cos == 0 && r.sin == -1

/-- A vector after some turns, made one after the other. -/
def applyAll (turns : List Rotation) (v : Point) : Point :=
  turns.foldl (fun v r => r.apply v) v

/-- How many more turns there are to the left than to the right. -/
def quarters (turns : List Rotation) : ℤ := turns.countP isLeft - turns.countP isRight

end Rotation

/-- The exact turn to the left by a right angle. -/
def Point.quarterTurn (p : Point) : Point := ⟨-p.y, p.x⟩

/-- The same in rational numbers. -/
def rightAngle : Equiv.Perm (ℚ × ℚ) where
  toFun v := (-v.2, v.1)
  invFun v := (v.2, -v.1)
  left_inv v := by simp only [neg_neg]
  right_inv v := by simp only [neg_neg]

theorem rightAngle_pow_four : rightAngle ^ 4 = 1 := by
  ext v <;> simp [rightAngle, pow_succ]

/-- Having the given coordinates. -/
def Point.IsAt (p : Point) (v : ℚ × ℚ) : Prop := Denotes p.x v.1 ∧ Denotes p.y v.2

namespace Point.IsAt

variable {p p' : Point} {v : ℚ × ℚ}

theorem same (h : p.IsAt v) (h' : p'.IsAt v) : p.same p' = true := by
  rw [Point.same, Bool.and_eq_true]
  exact ⟨(h.1.beq_iff h'.1).2 rfl, (h.2.beq_iff h'.2).2 rfl⟩

theorem rightAngle_iterate (h : p.IsAt v) (k : ℕ) :
    (Point.quarterTurn^[k] p).IsAt ((rightAngle ^ k) v) := by
  induction k with
  | zero => exact h
  | succ k ih =>
      rw [Function.iterate_succ_apply', pow_succ', Equiv.Perm.mul_apply]
      exact ⟨ih.2.neg, ih.1⟩

end Point.IsAt

namespace Rotation

variable {r : Rotation} {v : Point} {q : ℚ × ℚ}

/-- One turn, in rational numbers. -/
theorem isAt_apply {s : ℚ} (hcos : (r.cos == 0) = true) (hsin : Denotes r.sin s)
    (hs : s = 1 ∨ s = -1) (hv : v.IsAt q) : (r.apply v).IsAt (-(s * q.2), s * q.1) := by
  have hunit : isUnit r.sin = true := by
    rw [isUnit, Bool.or_eq_true, Bool.or_eq_true]
    rcases hs with rfl | rfl
    · exact .inl (.inr ((hsin.beq_iff denotes_one).2 rfl))
    · exact .inr ((hsin.beq_iff denotes_one.neg).2 rfl)
  have hne : (r.sin == 0) = false := by
    rw [← Bool.not_eq_true]
    intro hzero
    rcases hs with rfl | rfl
    · exact one_ne_zero (hsin.unique ((denotes_zero .positive).of_beq hzero))
    · exact neg_ne_zero.2 one_ne_zero (hsin.unique ((denotes_zero .positive).of_beq hzero))
  have hunit' : isUnit r.cos = true := by rw [isUnit, hcos, Bool.true_or, Bool.true_or]
  have hquarter : r.isQuarter = true := by rw [isQuarter, hunit', hunit, hcos, hne]; rfl
  have hturned := denotes_apply hquarter hv.1 hv.2
  rwa [unit_eq_zero hunit' hcos, (denotes_unit hunit).unique hsin, Int.cast_zero, zero_mul,
    zero_mul, zero_sub, add_zero] at hturned

theorem isAt_left (hr : r.isLeft = true) (hv : v.IsAt q) : (r.apply v).IsAt (rightAngle q) := by
  rw [isLeft, Bool.and_eq_true] at hr
  have hturned := isAt_apply hr.1 (denotes_one.of_beq hr.2) (.inl rfl) hv
  rwa [one_mul, one_mul] at hturned

theorem isAt_right (hr : r.isRight = true) (hv : v.IsAt q) :
    (r.apply v).IsAt (rightAngle⁻¹ q) := by
  rw [isRight, Bool.and_eq_true] at hr
  have hturned := isAt_apply hr.1 (denotes_one.neg.of_beq hr.2) (.inr rfl) hv
  rwa [neg_one_mul, neg_one_mul, neg_neg] at hturned

theorem not_isLeft_and_isRight (hl : r.isLeft = true) (hr : r.isRight = true) : False := by
  rw [isLeft, Bool.and_eq_true] at hl
  rw [isRight, Bool.and_eq_true] at hr
  have hsame := (denotes_one.of_beq hl.2).unique (denotes_one.neg.of_beq hr.2)
  norm_num at hsame

theorem quarters_cons_left (hr : r.isLeft = true) (turns : List Rotation) :
    quarters (r :: turns) = quarters turns + 1 := by
  have hright : ¬ r.isRight = true := not_isLeft_and_isRight hr
  rw [quarters, quarters, List.countP_cons_of_pos hr, List.countP_cons_of_neg hright]
  push_cast
  ring

theorem quarters_cons_right (hr : r.isRight = true) (turns : List Rotation) :
    quarters (r :: turns) = quarters turns - 1 := by
  have hleft : ¬ r.isLeft = true := fun hl => not_isLeft_and_isRight hl hr
  rw [quarters, quarters, List.countP_cons_of_neg hleft, List.countP_cons_of_pos hr]
  push_cast
  ring

theorem isAt_applyAll {turns : List Rotation}
    (hturns : ∀ r ∈ turns, r.isLeft = true ∨ r.isRight = true) (hv : v.IsAt q) :
    (applyAll turns v).IsAt ((rightAngle ^ quarters turns) q) := by
  induction turns generalizing v q with
  | nil => exact hv
  | cons r turns ih =>
      rw [List.forall_mem_cons] at hturns
      rcases hturns.1 with hr | hr
      · rw [quarters_cons_left hr, zpow_add_one, Equiv.Perm.mul_apply]
        exact ih hturns.2 (isAt_left hr hv)
      · rw [quarters_cons_right hr, zpow_sub_one, Equiv.Perm.mul_apply]
        exact ih hturns.2 (isAt_right hr hv)

/-- Turns that come to nothing in all change nothing. -/
theorem same_applyAll {turns : List Rotation}
    (hturns : ∀ r ∈ turns, r.isLeft = true ∨ r.isRight = true) (hv : v.IsAt q)
    (hnone : quarters turns % 4 = 0) : (applyAll turns v).same v = true := by
  have hturned := isAt_applyAll hturns hv
  rw [zpow_eq_zpow_emod' _ rightAngle_pow_four, Nat.cast_ofNat, hnone, zpow_zero] at hturned
  exact hturned.same hv

/-- Quarter turns are exact, however many there are and whatever finite vector is turned. It is
turned by as many right angles as there are more turns to the left than to the right, and of
these only the remainder modulo four counts. At any time four equal turns, or two opposite
ones, make no difference. -/
theorem quarter_turns_never_round {v : Point} (hx : v.x.isFinite = true)
    (hy : v.y.isFinite = true) {turns : List Rotation}
    (hturns : ∀ r ∈ turns, r.isLeft = true ∨ r.isRight = true) :
    let w := applyAll turns v
    w.same (Point.quarterTurn^[(quarters turns % 4).toNat] v) = true ∧
    (∀ r : Rotation, r.isLeft = true ∨ r.isRight = true →
      (applyAll [r, r, r, r] w).same w = true) ∧
    ∀ l r : Rotation, l.isLeft = true → r.isRight = true →
      (applyAll [l, r] w).same w = true ∧ (applyAll [r, l] w).same w = true := by
  intro w
  obtain ⟨p, hp⟩ := isFinite_iff.1 hx
  obtain ⟨q, hq⟩ := isFinite_iff.1 hy
  have hv : v.IsAt (p, q) := ⟨hp, hq⟩
  have hw : w.IsAt ((rightAngle ^ quarters turns) (p, q)) := isAt_applyAll hturns hv
  refine ⟨?_, fun r hr => same_applyAll (by simpa using hr) hw ?_, fun l r hl hr =>
    ⟨same_applyAll (by simp [hl, hr]) hw ?_, same_applyAll (by simp [hl, hr]) hw ?_⟩⟩
  · refine hw.same ?_
    have hturned := hv.rightAngle_iterate (quarters turns % 4).toNat
    rwa [← zpow_natCast, Int.toNat_of_nonneg (Int.emod_nonneg _ (by decide)),
      ← Nat.cast_ofNat, ← zpow_eq_zpow_emod' _ rightAngle_pow_four] at hturned
  · rcases hr with hr | hr
    · simp only [quarters_cons_left hr]
      rfl
    · simp only [quarters_cons_right hr]
      rfl
  · rw [quarters_cons_left hl, quarters_cons_right hr]
    rfl
  · rw [quarters_cons_right hr, quarters_cons_left hl]
    rfl

/-- The largest double and the smallest one, turned once to the right and twice to the left, with
zeros of both signs. -/
theorem quarter_turns_never_round_extremes :
    let v : Point := ⟨.ofBits 0x7fefffffffffffff, .ofBits 1⟩
    let turns : List Rotation := [⟨0, -1⟩, ⟨-0, 1⟩, ⟨0, 1⟩]
    v.x.isFinite = true ∧ v.y.isFinite = true ∧
    (∀ r ∈ turns, r.isLeft = true ∨ r.isRight = true) ∧
    (applyAll turns v).same (Point.quarterTurn v) = true := by
  intro v turns
  have hx : v.x.isFinite = true := by decide
  have hy : v.y.isFinite = true := by decide
  have hturns : ∀ r ∈ turns, r.isLeft = true ∨ r.isRight = true := by decide
  have hquarters : quarters turns = 1 := by decide
  have hturned := (quarter_turns_never_round hx hy hturns).1
  rw [hquarters] at hturned
  exact ⟨hx, hy, hturns, hturned⟩

end Rotation

end Lindenmayer
