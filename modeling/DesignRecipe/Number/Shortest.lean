import DesignRecipe.Number.Binary64

/-!
# The shortest decimal of a binary number

The digits are the fewest that still read back as the same number, and of those the
nearest to it. They are searched on the decimal grids of 1, 2, … 17 digits, in exact
integer arithmetic.
-/
namespace DesignRecipe.Binary64

/-- A decimal number `digits * 10 ^ exponent`. -/
structure Decimal where
  digits : Nat
  exponent : Int
  deriving DecidableEq, Repr

def mostDigits : Nat := 17

/-- Whether the decimal reads back as the positive number `m * 2 ^ e`. -/
def Decimal.reads (d : Decimal) (m : Nat) (e : Int) : Bool :=
  ofDecimal false d.digits d.exponent == .finite false m e

/-- The neighbours of `num / den` on the grid of multiples of `10 ^ exponent`, the nearer
one first; a tie prefers the even one. -/
def neighbours (num den : Nat) (exponent : Int) : List Decimal :=
  let (up, down) := power 10 exponent
  let scaled := num * down
  let unit := den * up
  let below := scaled / unit
  let near := nearest scaled unit
  let far := if near = below then below + 1 else below
  [⟨near, exponent⟩, ⟨far, exponent⟩]

/-- The number of decimal digits before the point of `num / den`, counted down from zero
for a fraction below one tenth. -/
def pointPosition (num den : Nat) : Int :=
  let guess : Int := (Nat.toDigits 10 num).length - (Nat.toDigits 10 den).length
  let (up, down) := power 10 guess
  if num * down ≥ den * up then guess + 1 else guess

/-- Removes zeros at the end of the digits. -/
def Decimal.reduced (d : Decimal) : Decimal :=
  let zeros := ((Nat.toDigits 10 d.digits).reverse.takeWhile (· = '0')).length
  if d.digits = 0 then d else ⟨d.digits / Nat.pow 10 zeros, d.exponent + zeros⟩

/-- The shortest decimal of `m * 2 ^ e` for positive `m`. -/
def shortest (m : Nat) (e : Int) : Decimal :=
  let (up, down) := power 2 e
  let point := pointPosition (m * up) down
  let grids := (List.range mostDigits).map fun (k : Nat) =>
    neighbours (m * up) down (point - (k + 1))
  ((grids.flatten.find? (·.reads m e)).getD ⟨m, e⟩).reduced

/-- Positional from `0.0001` up to below `10 ^ 16`, with at least one digit on either side
of the point; scientific beyond, with an exponent of at least two digits. -/
def Decimal.text (d : Decimal) : Text :=
  let digits := Text.ofNat d.digits
  let point := digits.length + d.exponent
  if -4 < point ∧ point ≤ 16 then
    if point ≤ 0 then '0' :: '.' :: (List.replicate (-point).toNat '0' ++ digits)
    else if 0 ≤ d.exponent then digits ++ List.replicate d.exponent.toNat '0' ++ ['.', '0']
    else digits.take point.toNat ++ '.' :: digits.drop point.toNat
  else
    let power := Text.ofNat (point - 1).natAbs
    let fraction := digits.drop 1
    digits.take 1 ++ (if fraction.isEmpty then [] else '.' :: fraction) ++
      ['e', if point - 1 < 0 then '-' else '+'] ++ List.replicate (2 - power.length) '0' ++ power

def text : Binary64 → Text
  | .finite negative m e =>
    (if negative then ['-'] else []) ++ if m = 0 then "0.0".toList else (shortest m e).text
  | .infinite negative => (if negative then ['-'] else []) ++ "inf".toList
  | .undefined => "nan".toList

example : (ofDecimal false 1 (-1)).text = "0.1".toList := by decide +kernel
example : (ofDecimal true 25 15).text = "-2.5e+16".toList := by decide +kernel
example : (ofDecimal false 5 (-324)).text = "5e-324".toList := by decide +kernel

end DesignRecipe.Binary64
