import ScopeScript.Number.Decimal

/-! Numbers and their text. A number is a 64-bit float; its text is read off its
bits, and a numeral is read as the nearest float. -/
namespace ScopeScript.Number

/-- What a 64-bit float stands for. A zero is finite with mantissa zero. -/
inductive Parts where
  | notANumber
  | infinite (negative : Bool)
  | finite (negative : Bool) (magnitude : Binary)
  deriving DecidableEq, Repr

/-- Sign, exponent and mantissa as the bits of a float hold them. -/
def parts (x : Float) : Parts :=
  let bits := x.toBits.toNat
  let negative := Nat.pow 2 63 ≤ bits
  let exponent : Nat := bits / Nat.pow 2 52 % Nat.pow 2 11
  let fraction := bits % Nat.pow 2 52
  if exponent = 2047 then
    if fraction = 0 then .infinite negative else .notANumber
  else if exponent = 0 then .finite negative ⟨fraction, Binary.leastExponent⟩
  else
    .finite negative
      ⟨fraction + Binary.leadingMantissa, (exponent : Int) - 1 + Binary.leastExponent⟩

def sign (negative : Bool) : String := if negative then "-" else ""

/-- The plain form: the shortest digits that read back, always positional, and nothing
after a whole number. -/
def plain (x : Float) : String :=
  match parts x with
  | .notANumber => "NaN"
  | .infinite negative => sign negative ++ "inf"
  | .finite negative b =>
    sign negative ++ if b.mantissa = 0 then "0" else b.shortest.positional

/-- Sign and size of a finite number without a fractional part. -/
def whole? (x : Float) : Option (Bool × Nat) :=
  match parts x with
  | .finite negative b =>
    let divisor := Nat.pow 2 (-b.exponent).toNat
    if b.mantissa % divisor = 0 then
      some (negative, b.mantissa / divisor * Nat.pow 2 b.exponent.toNat)
    else none
  | _ => none

/-- The decimal value of a list of digits. -/
def digitsValue (digits : List Char) : Nat :=
  digits.foldl (fun value c => 10 * value + (c.toNat - '0'.toNat)) 0

/-- The float nearest to the numeral `whole.fraction`. -/
def read (whole fraction : List Char) : Float :=
  Float.ofScientific (digitsValue (whole ++ fraction)) true fraction.length

end ScopeScript.Number
