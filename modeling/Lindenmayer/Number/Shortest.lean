/-!
# The fewest digits that read back

A double stands for every real number that rounds to it: an interval around the
double, whose ends belong to it when its significand is even. Its shortest
decimal is the one with the fewest digits in that interval, and among those the
nearest.

The search goes through the decimal grids from coarse to fine, one more digit at
a time. If any point of a grid lies in the interval, then so does one of the two
grid points beside the double, so each grid is settled by looking at two
candidates in whole-number arithmetic.
-/

namespace Lindenmayer.Number

/-- What to do when two shortest decimals are equally near. -/
inductive Tie where
  | up
  | toEven
deriving DecidableEq, Repr

/-- The number `significand · 10 ^ exponent`. -/
structure Decimal where
  significand : Nat
  exponent : Int
deriving DecidableEq, Repr

/-- A positive number and the interval of the reals that round to it, as
numerators over one denominator. -/
structure Neighbourhood where
  low : Nat
  value : Nat
  high : Nat
  denominator : Nat
  /-- Whether the two ends round to the number too. -/
  closed : Bool
deriving Repr

def digitCount (n : Nat) : Nat := (Nat.toDigits 10 n).length

namespace Neighbourhood

/-- The reals that round to `m · 2 ^ e`. Below a power of two the doubles lie
twice as dense, so there the lower half of the interval is half as wide. -/
def ofBinary (m : Nat) (e : Int) : Neighbourhood :=
  let below := if m = 4503599627370496 ∧ -1074 < e then 1 else 2
  let scale := Nat.pow 2 (e - 2).toNat
  { low := (4 * m - below) * scale
    value := 4 * m * scale
    high := (4 * m + 2) * scale
    denominator := Nat.pow 2 (2 - e).toNat
    closed := m % 2 = 0 }

/-- The exponent of the leading decimal digit of the value. -/
def leadingExponent (n : Neighbourhood) : Int :=
  if n.denominator ≤ n.value then
    digitCount (n.value / n.denominator) - 1
  else
    -(digitCount ((n.denominator + n.value - 1) / n.value - 1) : Int)

/-- The same neighbourhood with `10 ^ k` for its unit. -/
def inUnits (n : Neighbourhood) (k : Int) : Neighbourhood :=
  let up := Nat.pow 10 (-k).toNat
  { n with
    low := n.low * up
    value := n.value * up
    high := n.high * up
    denominator := n.denominator * Nat.pow 10 k.toNat }

/-- Whether the whole number `c` rounds to the value. -/
def contains (n : Neighbourhood) (c : Nat) : Bool :=
  let x := c * n.denominator
  if n.closed then n.low ≤ x && x ≤ n.high else n.low < x && x < n.high

/-- The nearer of the two whole numbers beside the value. -/
def nearer (n : Neighbourhood) (tie : Tie) : Nat :=
  let floor := n.value / n.denominator
  match compare (2 * (n.value % n.denominator)) n.denominator with
  | .lt => floor
  | .gt => floor + 1
  | .eq =>
      match tie with
      | .up => floor + 1
      | .toEven => floor + floor % 2

/-- The whole number beside the value that rounds to it: the nearer of two. -/
def hit? (n : Neighbourhood) (tie : Tie) : Option Nat :=
  let floor := n.value / n.denominator
  match n.contains floor, n.contains (floor + 1) with
  | true, true => some (n.nearer tie)
  | true, false => some floor
  | false, true => some (floor + 1)
  | false, false => none

/-- Tries the grids of spacing `10 ^ k`, `10 ^ (k - 1)`, …, as many as `fuel` allows. -/
def search (n : Neighbourhood) (tie : Tie) : (fuel : Nat) → (k : Int) → Option Decimal
  | 0, _ => none
  | fuel + 1, k =>
      match (n.inUnits k).hit? tie with
      | some c => some ⟨c, k⟩
      | none => n.search tie fuel (k - 1)

end Neighbourhood

/-- Takes up to `fuel` zeros off the end of a significand. -/
def Decimal.trimZeros : (fuel : Nat) → Decimal → Decimal
  | 0, d => d
  | fuel + 1, d =>
      if d.significand % 10 = 0 then trimZeros fuel ⟨d.significand / 10, d.exponent + 1⟩ else d

/-- The same number without zeros at the end of its significand. -/
def Decimal.trim (d : Decimal) : Decimal := d.trimZeros (digitCount d.significand)

/-- The shortest decimal of `m · 2 ^ e`, where `m` and `e` are a double's
significand and exponent. Seventeen digits tell any two doubles apart. -/
def shortest (tie : Tie) (m : Nat) (e : Int) : Decimal :=
  let n := Neighbourhood.ofBinary m e
  ((n.search tie 17 n.leadingExponent).getD ⟨0, 0⟩).trim

end Lindenmayer.Number
