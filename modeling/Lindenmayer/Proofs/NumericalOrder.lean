import Lindenmayer.Number.Order
import Lindenmayer.Proofs.SignedZero

/-!
# The order of numbers

Two doubles are compared by their classes first, from negative infinity to positive
infinity, then by their exponents and then by their significands; among negative
numbers the last two count backwards. So every double that is not a NaN has a key in a
linear order, and numbers are ordered as their keys are. Only the two zeros share one.

The least of some doubles passes over those that are not numbers, as long as there is a
number among them. It is found by going through them one at a time, in any order and
from any start: a NaN that was picked up gives way to the first number that comes.
-/

namespace Lindenmayer.Number

open Float.Model (UnpackedFloat)
open Float.Model.UnpackedFloat

/-! ## Keys -/

/-- What a number is compared by. A NaN is not compared with anything. -/
def key : UnpackedFloat → ℤ ×ₗ ℤ ×ₗ ℤ
  | .infinity .negative => toLex (-2, toLex (0, 0))
  | .finite .negative m e _ => toLex (-1, toLex (-e, -m))
  | .zero _ | .notANumber => toLex (0, toLex (0, 0))
  | .finite .positive m e _ => toLex (1, toLex (e, m))
  | .infinity .positive => toLex (2, toLex (0, 0))

theorem unpacked_lt_iff {u v : UnpackedFloat} (hu : u ≠ .notANumber) (hv : v ≠ .notANumber) :
    u.lt v = true ↔ key u < key v := by
  have hsigns : compare Sign.negative Sign.positive = .lt := rfl
  rcases u with (_ | _) | _ | (_ | _) | ⟨_ | _, m, e, hm⟩ <;>
    rcases v with (_ | _) | _ | (_ | _) | ⟨_ | _, k, f, hk⟩ <;>
    simp_all [UnpackedFloat.lt, UnpackedFloat.compare, key, Prod.Lex.toLex_lt_toLex,
      Ordering.then_eq_lt, Ordering.then_eq_gt, compare_lt_iff_lt, compare_gt_iff_gt]

theorem key_eq_iff {u v : UnpackedFloat} (hu : u ≠ .notANumber) (hv : v ≠ .notANumber) :
    key u = key v ↔ Kin u v := by
  rcases u with (_ | _) | _ | s | ⟨_ | _, m, e, hm⟩ <;>
    rcases v with (_ | _) | _ | t | ⟨_ | _, k, f, hk⟩ <;>
    simp_all [Kin, key, and_comm]

theorem isNaN_iff_decode {x : Float} : x.isNaN = true ↔ decode x = .notANumber := isNaN_iff

theorem isNaN_eq_false_iff {x : Float} : x.isNaN = false ↔ decode x ≠ .notANumber := by
  rw [← Bool.not_eq_true, isNaN_iff_decode]

theorem eq_of_isNaN {x y : Float} (hx : x.isNaN = true) (hy : y.isNaN = true) : x = y :=
  eq_of_decode_eq ((isNaN_iff_decode.1 hx).trans (isNaN_iff_decode.1 hy).symm)

section

variable {x y z : Float}

theorem lt_iff_key (hx : x.isNaN = false) (hy : y.isNaN = false) :
    x < y ↔ key (decode x) < key (decode y) :=
  decide_eq_true_iff.trans
    (unpacked_lt_iff (isNaN_eq_false_iff.1 hx) (isNaN_eq_false_iff.1 hy))

theorem beq_iff_key (hx : x.isNaN = false) (hy : y.isNaN = false) :
    (x == y) = true ↔ key (decode x) = key (decode y) := by
  have hx' := isNaN_eq_false_iff.1 hx
  have hy' := isNaN_eq_false_iff.1 hy
  refine (beq_iff_ne_notANumber_and_eq (decode x) (decode y)).trans ?_
  rw [key_eq_iff hx' hy', Kin]
  constructor
  · rintro ⟨-, -, h | ⟨hu, hv⟩ | ⟨hu, hv⟩⟩
    · exact .inl h
    · exact .inr ⟨⟨_, hu⟩, _, hv⟩
    · exact .inr ⟨⟨_, hu⟩, _, hv⟩
  · rintro (h | ⟨⟨s, hs⟩, t, ht⟩)
    · exact ⟨hx', hy', .inl h⟩
    · refine ⟨hx', hy', ?_⟩
      rw [hs, ht]
      cases s <;> cases t <;> simp

theorem le_iff_lt_or_beq : x ≤ y ↔ x < y ∨ (x == y) = true := by
  show decide ((decode x).le (decode y) = true) = true ↔
    decide ((decode x).lt (decode y) = true) = true ∨ (decode x).beq (decode y) = true
  rw [decide_eq_true_iff, decide_eq_true_iff, UnpackedFloat.le, UnpackedFloat.lt,
    UnpackedFloat.beq]
  rcases (decode x).compare (decode y) with _ | _ | _ | _ <;> simp

theorem le_iff_key (hx : x.isNaN = false) (hy : y.isNaN = false) :
    x ≤ y ↔ key (decode x) ≤ key (decode y) := by
  rw [le_iff_lt_or_beq, lt_iff_key hx hy, beq_iff_key hx hy, le_iff_lt_or_eq]

theorem numbers_of_le (h : x ≤ y) : x.isNaN = false ∧ y.isNaN = false := by
  have hle : (decode x).le (decode y) = true := decide_eq_true_iff.1 h
  rw [isNaN_eq_false_iff, isNaN_eq_false_iff]
  constructor
  · intro hx
    rw [hx] at hle
    exact nomatch hle
  · intro hy
    rw [hy] at hle
    cases hx : decode x <;> rw [hx] at hle <;> exact nomatch hle

theorem le_of_lt (h : x < y) : x ≤ y := le_iff_lt_or_beq.2 (.inl h)

theorem le_of_not_lt (hx : x.isNaN = false) (hy : y.isNaN = false) (h : ¬ x < y) : y ≤ x := by
  rw [lt_iff_key hx hy, not_lt] at h
  exact (le_iff_key hy hx).2 h

/-- Numbers of which neither is less are alike. -/
theorem alike_of_le_of_le (hxy : x ≤ y) (hyx : y ≤ x) : Alike x y := by
  obtain ⟨hx, hy⟩ := numbers_of_le hxy
  have hkeys := ((le_iff_key hx hy).1 hxy).antisymm ((le_iff_key hy hx).1 hyx)
  exact (key_eq_iff (isNaN_eq_false_iff.1 hx) (isNaN_eq_false_iff.1 hy)).1 hkeys

end

/-! ## The first in an order -/

/-- Being an order of the numbers. -/
structure OrdersNumbers (before : Float → Float → Prop) : Prop where
  numbers : ∀ {x y}, before x y → x.isNaN = false ∧ y.isNaN = false
  refl : ∀ {x}, x.isNaN = false → before x x
  trans : ∀ {x y z}, before x y → before y z → before x z
  alike : ∀ {x y}, before x y → before y x → Alike x y

theorem ordersNumbers_le : OrdersNumbers (· ≤ ·) where
  numbers := numbers_of_le
  refl hx := (le_iff_key hx hx).2 le_rfl
  trans hxy hyz := by
    obtain ⟨hx, hy⟩ := numbers_of_le hxy
    obtain ⟨-, hz⟩ := numbers_of_le hyz
    exact (le_iff_key hx hz).2 (((le_iff_key hx hy).1 hxy).trans ((le_iff_key hy hz).1 hyz))
  alike := alike_of_le_of_le

theorem ordersNumbers_ge : OrdersNumbers (fun x y => y ≤ x) where
  numbers h := (numbers_of_le h).symm
  refl := ordersNumbers_le.refl
  trans hxy hyz := ordersNumbers_le.trans hyz hxy
  alike hxy hyx := alike_of_le_of_le hyx hxy

/-- Being the one of two doubles that comes first, where a NaN gives way to the other. -/
inductive Chosen (before : Float → Float → Prop) (x y : Float) : Float → Prop
  | notFirst (hx : x.isNaN = true) : Chosen before x y y
  | notSecond (hx : x.isNaN = false) (hy : y.isNaN = true) : Chosen before x y x
  | first (h : before x y) : Chosen before x y x
  | second (h : before y x) : Chosen before x y y

theorem chosen_least (x y : Float) : Chosen (· ≤ ·) x y (least x y) := by
  rw [least]
  cases hx : x.isNaN with
  | true => exact .notFirst hx
  | false =>
      rw [if_neg Bool.false_ne_true]
      split
      · next h => exact .second (le_of_lt h)
      · next h =>
          cases hy : y.isNaN with
          | true => exact .notSecond hx hy
          | false => exact .first (le_of_not_lt hy hx h)

theorem chosen_greatest (x y : Float) : Chosen (fun x y => y ≤ x) x y (greatest x y) := by
  rw [greatest]
  cases hx : x.isNaN with
  | true => exact .notFirst hx
  | false =>
      rw [if_neg Bool.false_ne_true]
      split
      · next h => exact .second (le_of_lt h)
      · next h =>
          cases hy : y.isNaN with
          | true => exact .notSecond hx hy
          | false => exact .first (le_of_not_lt hx hy h)

theorem Chosen.eq_or {before : Float → Float → Prop} {x y z : Float} (h : Chosen before x y z) :
    z = x ∨ z = y := by
  cases h with
  | notFirst | second => exact .inr rfl
  | notSecond | first => exact .inl rfl

/-- Being the first in an order among the numbers of a list, or a NaN if the list has
nothing else. -/
structure FirstOf (before : Float → Float → Prop) (xs : List Float) (m : Float) : Prop where
  mem : m ∈ xs
  isNaN_iff : m.isNaN = true ↔ ∀ x ∈ xs, x.isNaN = true
  before : ∀ x ∈ xs, x.isNaN = false → before m x

/-- Being the least number of a list. -/
abbrev LeastOf : List Float → Float → Prop := FirstOf (· ≤ ·)

/-- Being the greatest number of a list. -/
abbrev GreatestOf : List Float → Float → Prop := FirstOf (fun x y => y ≤ x)

section

variable {before : Float → Float → Prop} (hbefore : OrdersNumbers before)
  {xs ys : List Float} {x y z m n : Float}

include hbefore

theorem Chosen.isNaN_iff (h : Chosen before x y z) :
    z.isNaN = true ↔ x.isNaN = true ∧ y.isNaN = true := by
  cases h with
  | notFirst hx => simp only [hx, true_and]
  | notSecond hx hy => simp only [hx, hy, and_true]
  | first h =>
      obtain ⟨hx, -⟩ := hbefore.numbers h
      simp only [hx, Bool.false_eq_true, false_and]
  | second h =>
      obtain ⟨hy, -⟩ := hbefore.numbers h
      simp only [hy, Bool.false_eq_true, and_false]

theorem Chosen.before_first (h : Chosen before x y z) (hx : x.isNaN = false) : before z x := by
  cases h with
  | notFirst hx' => rw [hx] at hx'; cases hx'
  | notSecond => exact hbefore.refl hx
  | first => exact hbefore.refl hx
  | second h => exact h

theorem Chosen.before_second (h : Chosen before x y z) (hy : y.isNaN = false) : before z y := by
  cases h with
  | notFirst => exact hbefore.refl hy
  | notSecond _ hy' => rw [hy] at hy'; cases hy'
  | first h => exact h
  | second => exact hbefore.refl hy

theorem firstOf_singleton (x : Float) : FirstOf before [x] x where
  mem := List.mem_singleton_self x
  isNaN_iff := by rw [List.forall_mem_singleton]
  before y hy hnumber := by
    obtain rfl := List.mem_singleton.1 hy
    exact hbefore.refl hnumber

theorem FirstOf.concat (h : FirstOf before xs m) (hn : Chosen before m x n) :
    FirstOf before (xs ++ [x]) n where
  mem := by
    rcases hn.eq_or with rfl | rfl
    · exact List.mem_append_left _ h.mem
    · exact List.mem_concat_self
  isNaN_iff := by
    rw [hn.isNaN_iff hbefore, h.isNaN_iff, List.forall_mem_append, List.forall_mem_singleton]
  before y hy hnumber := by
    rcases List.mem_append.1 hy with hy | hy
    · have hmy := h.before y hy hnumber
      exact hbefore.trans (hn.before_first hbefore (hbefore.numbers hmy).1) hmy
    · obtain rfl := List.mem_singleton.1 hy
      exact hn.before_second hbefore hnumber

/-- Lists with the same members have the same first number, up to the sign of a zero. -/
theorem FirstOf.alike (hm : FirstOf before xs m) (hn : FirstOf before ys n)
    (hsame : ∀ x, x ∈ xs ↔ x ∈ ys) : Alike m n := by
  cases hnan : m.isNaN with
  | true =>
      have hnan' : n.isNaN = true := hm.isNaN_iff.1 hnan n ((hsame n).2 hn.mem)
      rw [eq_of_isNaN hnan hnan']
      exact Alike.refl n
  | false =>
      have hnm := hn.before m ((hsame m).1 hm.mem) hnan
      have hmn := hm.before n ((hsame n).2 hn.mem) (hbefore.numbers hnm).1
      exact hbefore.alike hmn hnm

end

end Lindenmayer.Number
