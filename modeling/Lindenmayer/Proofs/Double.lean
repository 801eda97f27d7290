import Mathlib

/-!
# Doubles as signs, significands and exponents

Arithmetic on doubles is defined on their unpacked form: a NaN, an infinity, a
zero with its sign, or a sign with a significand and an exponent. Nothing is lost
there. Packing what was unpacked gives the same bits back, because every NaN is
the one canonical NaN, so two doubles are the same if their unpacked forms are.

Numerical equality is coarser in two places only: the two zeros are equal, and a
NaN equals nothing.
-/

namespace Lindenmayer.Number

open Float.Model (UnpackedFloat Format)
open Float.Model.UnpackedFloat

/-- What the bits of a double stand for. -/
def decode (x : Float) : UnpackedFloat := x.toModel.unpack

/-- The double with the given parts, if there is one. -/
def encode (u : UnpackedFloat) : Float := .ofModel (.pack u)

theorem encode_decode (x : Float) : encode (decode x) = x := by
  obtain ⟨⟨bits, hvalid⟩⟩ := x
  simp only [encode, decode, Float.Model.pack, Float.Model.unpack, pack_unpack_of_valid hvalid]

theorem eq_of_decode_eq {x y : Float} (h : decode x = decode y) : x = y := by
  rw [← encode_decode x, h, encode_decode]

theorem add_eq_encode (x y : Float) :
    x + y = encode (UnpackedFloat.add Format.binary64 (decode x) (decode y)) := rfl

/-! ## Finite numbers -/

theorem exponentBias_binary64 : Format.binary64.exponentBias = 1023 := by decide

theorem mantissaBits_binary64 : Format.binary64.mantissaBits = 53 := by decide

theorem targetExponent_binary64 (total : Int) :
    Format.binary64.targetExponent total = max (total - 53) (-1074) := by
  have hmin : Format.binary64.minExponent = -1074 := by decide
  rw [Format.targetExponent, mantissaBits_binary64, hmin]
  rfl

/-- How the significand and the exponent of a double lie: the significand has 53 bits,
unless the exponent is the least one. -/
structure Canonical (m : Nat) (e : Int) : Prop where
  positive : 0 < m
  short : m < 2 ^ 53
  low : -1074 ≤ e
  high : e ≤ 971
  full : e = -1074 ∨ 2 ^ 52 ≤ m

theorem decode_canonical {x : Float} {sign : Sign} {m : Nat} {e : Int} {hm : 0 < m}
    (h : decode x = .finite sign m e hm) : Canonical m e := by
  rw [decode, Float.Model.unpack, unpack] at h
  simp only [exponentBias_binary64] at h
  split at h
  · split at h <;> cases h
  · next hones =>
      have hmost : (@unpackExponent Format.binary64 x.toModel.toBits.toBitVec).toNat ≠ 2047 :=
        fun hall => hones (BitVec.eq_of_toNat_eq hall)
      have hfield : (@unpackExponent Format.binary64 x.toModel.toBits.toBitVec).toNat < 2 ^ 11 :=
        (@unpackExponent Format.binary64 x.toModel.toBits.toBitVec).isLt
      have hmant : (@unpackMantissa Format.binary64 x.toModel.toBits.toBitVec).toNat < 2 ^ 52 :=
        (@unpackMantissa Format.binary64 x.toModel.toBits.toBitVec).isLt
      split at h
      · next hzero =>
          have hleast : (@unpackExponent Format.binary64 x.toModel.toBits.toBitVec).toNat = 0 :=
            congrArg BitVec.toNat hzero
          split at h
          · cases h
          · injection h
            exact ⟨hm, by omega, by omega, by omega, .inl (by omega)⟩
      · next hzero =>
          have hpos : (@unpackExponent Format.binary64 x.toModel.toBits.toBitVec).toNat ≠ 0 :=
            fun h0 => hzero (BitVec.eq_of_toNat_eq h0)
          injection h with _ hm _
          have hshort := (1#1 ++ @unpackMantissa Format.binary64 x.toModel.toBits.toBitVec).isLt
          have hlong : 2 ^ 52 ≤
              (1#1 ++ @unpackMantissa Format.binary64 x.toModel.toBits.toBitVec).toNat := by
            rw [BitVec.toNat_append]
            exact Nat.left_le_or
          rw [hm] at hshort hlong
          exact ⟨by omega, hshort, by omega, by omega, .inr hlong⟩

/-! ## Zeros -/

/-- Being one of the two zeros. -/
def IsZero (x : Float) : Prop := ∃ sign, decode x = .zero sign

theorem decode_encode_zero (sign : Sign) : decode (encode (.zero sign)) = .zero sign := by
  cases sign <;> rfl

theorem IsZero.eq_or {x : Float} (h : IsZero x) : x = 0 ∨ x = -0 := by
  obtain ⟨sign, hx⟩ := h
  cases sign with
  | positive => exact Or.inl (eq_of_decode_eq (hx.trans rfl))
  | negative => exact Or.inr (eq_of_decode_eq (hx.trans rfl))

/-- Numbers that are equal are the same number, or two zeros. -/
theorem eq_or_isZero_of_beq {x y : Float} (h : (x == y) = true) :
    x = y ∨ IsZero x ∧ IsZero y := by
  obtain ⟨_, _, heq⟩ := Float.beq_iff_ne_nan_and_eq.1 h
  rcases heq with rfl | ⟨rfl, rfl⟩ | ⟨rfl, rfl⟩
  · exact Or.inl rfl
  · exact Or.inr ⟨⟨_, rfl⟩, _, rfl⟩
  · exact Or.inr ⟨⟨_, rfl⟩, _, rfl⟩

/-! ## Numerical equality

It is symmetric and transitive, but a NaN is not even equal to itself. -/

theorem beq_symm {x y : Float} (h : (x == y) = true) : (y == x) = true := by
  obtain ⟨hx, hy, heq⟩ := Float.beq_iff_ne_nan_and_eq.1 h
  refine Float.beq_iff_ne_nan_and_eq.2 ⟨hy, hx, ?_⟩
  rcases heq with rfl | ⟨rfl, rfl⟩ | ⟨rfl, rfl⟩
  · exact Or.inl rfl
  · exact Or.inr (Or.inr ⟨rfl, rfl⟩)
  · exact Or.inr (Or.inl ⟨rfl, rfl⟩)

theorem beq_trans {x y z : Float} (hxy : (x == y) = true) (hyz : (y == z) = true) :
    (x == z) = true := by
  obtain ⟨hx, _, heq⟩ := Float.beq_iff_ne_nan_and_eq.1 hxy
  obtain ⟨_, hz, heq'⟩ := Float.beq_iff_ne_nan_and_eq.1 hyz
  have hzeros : (0 : Float) ≠ -0 := by decide
  refine Float.beq_iff_ne_nan_and_eq.2 ⟨hx, hz, ?_⟩
  rcases heq with rfl | ⟨rfl, rfl⟩ | ⟨rfl, rfl⟩
  · exact heq'
  · rcases heq' with rfl | ⟨h, _⟩ | ⟨_, rfl⟩
    · exact Or.inr (Or.inl ⟨rfl, rfl⟩)
    · exact absurd h.symm hzeros
    · exact Or.inl rfl
  · rcases heq' with rfl | ⟨_, rfl⟩ | ⟨h, _⟩
    · exact Or.inr (Or.inr ⟨rfl, rfl⟩)
    · exact Or.inl rfl
    · exact absurd h hzeros

end Lindenmayer.Number
