import DesignRecipe.Text.Basic

/-!
# Binary numbers of double precision

A finite number is kept as an exact product `mantissa * 2 ^ exponent` with a mantissa
below `2 ^ 53`, so that reading a decimal and cutting off a fraction are done in integers.
-/
namespace DesignRecipe

inductive Binary64 where
  | finite (negative : Bool) (mantissa : Nat) (exponent : Int)
  | infinite (negative : Bool)
  | undefined
  deriving DecidableEq, Repr

namespace Binary64

/-- Bits of a full mantissa. -/
def precision : Nat := 53

def leastExponent : Int := -1074

def greatestExponent : Int := 971

/-- `base ^ e` as a numerator and a denominator. -/
def power (base : Nat) (e : Int) : Nat × Nat := (base.pow e.toNat, base.pow (-e).toNat)

/-- The integer nearest to `num / den`; a half goes to the even neighbour. -/
def nearest (num den : Nat) : Nat :=
  let q := num / den
  let twice := 2 * (num % den)
  if twice < den then q else if twice > den then q + 1 else q + q % 2

/-- The exponent `e` with `2 ^ e ≤ num / den < 2 ^ (e + 1)`, for positive `num` and `den`. -/
def magnitude (num den : Nat) : Int :=
  let guess : Int := (num.log2 : Int) - den.log2
  let (up, down) := power 2 guess
  if den * up ≤ num * down then guess else guess - 1

/-- The nearest binary number to a positive fraction. -/
def ofFraction (negative : Bool) (num den : Nat) : Binary64 :=
  let exponent := max (magnitude num den - (precision - 1)) leastExponent
  let (up, down) := power 2 exponent
  let m := nearest (num * down) (den * up)
  let (m, exponent) := if m = Nat.pow 2 precision then (m / 2, exponent + 1) else (m, exponent)
  if exponent > greatestExponent then .infinite negative else .finite negative m exponent

/-- The nearest binary number to `digits * 10 ^ exponent`. Exponents beyond the range are
answered without computing the power. -/
def ofDecimal (negative : Bool) (digits : Nat) (exponent : Int) : Binary64 :=
  let size : Int := (Nat.toDigits 10 digits).length + exponent
  if digits = 0 || size < -330 then .finite negative 0 leastExponent
  else if size > 310 then .infinite negative
  else
    let (up, down) := power 10 exponent
    ofFraction negative (digits * up) down

/-- The integer part, toward zero; none for the values that have no such part. -/
def truncate? : Binary64 → Option Int
  | .finite negative m e =>
    let (up, down) := power 2 e
    let n := m * up / down
    some (if negative then -(n : Int) else n)
  | _ => none

def isIntegral : Binary64 → Bool
  | .finite _ m e => let (up, down) := power 2 e; m * up % down == 0
  | _ => false

example : (ofDecimal false 1 30).truncate? = some 1000000000000000019884624838656 := by
  decide +kernel
example : (ofDecimal true 15 (-1)).truncate? = some (-1) := by decide +kernel

end Binary64

end DesignRecipe
