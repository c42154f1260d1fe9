/-! Shortest decimals. A positive binary number is written with the fewest
decimal digits that still read back as that number, and among those with the
digits nearest to it. Everything here is exact arithmetic on naturals. -/
namespace ScopeScript

/-- The number `mantissa * 2 ^ exponent`. -/
structure Binary where
  mantissa : Nat
  exponent : Int
  deriving DecidableEq, Repr

/-- The number `digits * 10 ^ exponent`. -/
structure Decimal where
  digits : Nat
  exponent : Int
  deriving DecidableEq, Repr

namespace Binary

/-- The least exponent of a 64-bit number. -/
def leastExponent : Int := -1074

/-- The mantissa at which the spacing of 64-bit numbers doubles. -/
def leadingMantissa : Nat := Nat.pow 2 52

/-- Lower end of the numbers that round to this one, in quarters of its last place.
Below a power of two the spacing is half as wide. -/
def low (b : Binary) : Nat :=
  if b.mantissa = leadingMantissa ∧ leastExponent < b.exponent then 4 * b.mantissa - 1
  else 4 * b.mantissa - 2

/-- Upper end of the numbers that round to this one, in quarters of its last place. -/
def high (b : Binary) : Nat := 4 * b.mantissa + 2

/-- The ends themselves round to this number exactly when its mantissa is even. -/
def closed (b : Binary) : Bool := b.mantissa % 2 == 0

/-- A quarter of the last place is `quarter.1 / quarter.2`. -/
def quarter (b : Binary) : Nat × Nat :=
  (Nat.pow 2 (b.exponent - 2).toNat, Nat.pow 2 (2 - b.exponent).toNat)

/-- Grid points of `10 ^ place` measured against quarters of the last place: the point
`n` and `k` quarters compare as `n * point` and `k * unit`. -/
structure Scale where
  unit : Nat
  point : Nat

def scale (b : Binary) (place : Int) : Scale where
  unit := b.quarter.1 * Nat.pow 10 (-place).toNat
  point := b.quarter.2 * Nat.pow 10 place.toNat

/-- Whether the grid point `n` rounds to this number. -/
def reads (b : Binary) (s : Scale) (n : Nat) : Bool :=
  if b.closed then b.low * s.unit ≤ n * s.point && n * s.point ≤ b.high * s.unit
  else b.low * s.unit < n * s.point && n * s.point < b.high * s.unit

/-- The grid point of `10 ^ place` that stands for this number, if one does: of its two
neighbours on the grid the one that reads back, of two the nearer, of two equally near
the larger. -/
def onGrid? (b : Binary) (place : Int) : Option Nat :=
  let s := b.scale place
  let exact := 4 * b.mantissa * s.unit
  let n := exact / s.point
  match b.reads s n, b.reads s (n + 1) with
  | true, true => if 2 * (exact - n * s.point) < s.point then some n else some (n + 1)
  | true, false => some n
  | false, true => some (n + 1)
  | false, false => none

/-- A power of ten that no number rounding to this one reaches: `2 ^ k` stays below
`10 ^ (k * 30103 / 100000 + 1)`. -/
def topPlace (b : Binary) : Int :=
  (Nat.log2 b.mantissa + b.exponent + 2) * 30103 / 100000 + 1

/-- Seventeen digits always read back, and at most three grids lie above the first digit. -/
def gridCount : Nat := 20

/-- The first hit on ever finer grids, starting at `10 ^ place`. -/
def search (b : Binary) : Nat → Int → Decimal
  | 0, place => ⟨4 * b.mantissa * (b.scale place).unit / (b.scale place).point, place⟩
  | steps + 1, place =>
    match b.onGrid? place with
    | some n => ⟨n, place⟩
    | none => b.search steps (place - 1)

/-- The fewest digits that read back, and of those the nearest. -/
def shortest (b : Binary) : Decimal := b.search gridCount b.topPlace

end Binary

namespace Decimal

/-- Positional writing of a decimal: never an exponent, and a zero before a leading point. -/
def positional (d : Decimal) : String :=
  let digits := Nat.toDigits 10 d.digits
  if 0 ≤ d.exponent then String.ofList (digits ++ List.replicate d.exponent.toNat '0')
  else
    let places := (-d.exponent).toNat
    let padded := List.replicate (places + 1 - digits.length) '0' ++ digits
    let point := padded.length - places
    String.ofList (padded.take point ++ '.' :: padded.drop point)

end Decimal
end ScopeScript
