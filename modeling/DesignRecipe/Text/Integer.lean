import DesignRecipe.Text.Blank
import DesignRecipe.Text.Digit

/-!
# Reading integers

An integer is written as blanks, an optional sign, digits of any script with single
underscores between them, and blanks. The information separators are no blanks here, and
a numeral of more than `maxDigits` digits is refused.
-/
namespace DesignRecipe.Text.Integer

def maxDigits : Nat := 4300

def isPadding (c : Char) : Bool := isBlank c && !isInformationSeparator c

/-- The values of the digits; none if a character is out of place. -/
def digitsOf? : Text → Option (List Nat)
  | [] => none
  | [c] => (digitValue? c).map ([·])
  | c :: '_' :: s => do return (← digitValue? c) :: (← digitsOf? s)
  | c :: s => do return (← digitValue? c) :: (← digitsOf? s)

def ofDigits (digits : List Nat) : Nat := digits.foldl (fun n d => 10 * n + d) 0

/-- Whether a minus sign leads, and what follows the sign. -/
def sign : Text → Bool × Text
  | '-' :: s => (true, s)
  | '+' :: s => (false, s)
  | s => (false, s)

def signed (negative : Bool) (n : Nat) : Int := if negative then -(n : Int) else n

def read? (s : Text) : Option Int := do
  let (negative, s) := sign (trim isPadding s)
  let digits ← digitsOf? s
  if digits.length ≤ maxDigits then some (signed negative (ofDigits digits)) else none

example : read? " -1_000\n".toList = some (-1000) := by decide
example : read? "1__0".toList = none ∧ read? "+ 3".toList = none ∧ read? "_1".toList = none := by
  decide

end DesignRecipe.Text.Integer
