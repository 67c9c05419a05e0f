import DesignRecipe.Text.Integer

/-!
# Lenient numerals

An integer in ASCII digits is first read strictly. What is not strict is tidied up once
and read strictly again: blanks around it, a plus sign, zeros in front, zeros behind a
point and single underscores go. A numeral is measured as it was given, so that one which
has to be tidied up first is never too long, only wrong.
-/
namespace DesignRecipe.Text.Numeral

inductive Fault where
  | malformed
  | overlong
  deriving DecidableEq, Repr

/-- The greatest number of characters, the sign included. -/
def maxLength : Nat := Integer.maxDigits

/-- Digits that do not begin with a needless zero. Their number is looked at before what
follows them is. -/
def strictNatural (room : Nat) (s : Text) : Except Fault Nat :=
  if s = ['0'] then .ok 0
  else
    let digits := s.takeWhile Char.isDigit
    if digits.isEmpty || digits.head? == some '0' then .error .malformed
    else if room < digits.length then .error .overlong
    else if digits.length = s.length then .ok (Integer.ofDigits (digits.filterMap digitValue?))
    else .error .malformed

/-- A strict natural number, perhaps with a minus sign. -/
def strict : Text → Except Fault Int
  | '-' :: s => (strictNatural (maxLength - 1) s).map (Integer.signed true)
  | s => (strictNatural maxLength s).map (Integer.signed false)

/-- What remains behind zeros the last of which is `zero`, and behind underscores among
them: a number that begins with another digit or with a sign, or that is zero. -/
def behindZeros (zero : Char) : Text → Option Text
  | [] => some [zero]
  | c :: s =>
    if c = '0' || c = '_' then behindZeros c s
    else if c.isDigit || c = '-' then some (c :: s)
    else if c = '.' then some (zero :: c :: s)
    else none

/-- Drops needless zeros in front. There has to be a digit in front. -/
def withoutZeros : Text → Option Text
  | [] => none
  | c :: s => if c = '0' then behindZeros c s else if c.isDigit then some (c :: s) else none

/-- Drops a point at which nothing but zeros follow, and at least one. -/
def withoutFraction (s : Text) : Text :=
  let whole := s.takeWhile (· ≠ '.')
  let fraction := s.drop (whole.length + 1)
  if !fraction.isEmpty && fraction.all (· == '0') then whole else s

/-- Drops underscores, which stand alone and between other characters. -/
def withoutUnderscores (s : Text) : Option Text :=
  if s.head? = some '_' || s.getLast? = some '_' || occurs ['_', '_'] s then none
  else some (s.filter (· ≠ '_'))

/-- A numeral without all that strict numerals do not have. -/
def tidy (s : Text) : Option Text := do
  let (negative, s) := Integer.sign (trim Integer.isPadding s)
  let digits ← withoutUnderscores (withoutFraction (← withoutZeros s))
  return if negative then '-' :: digits else digits

def read (s : Text) : Except Fault Int :=
  match strict s with
  | .error .malformed =>
    match (tidy s).map strict with
    | some (.ok n) => .ok n
    | _ => .error .malformed
  | result => result

example : (read " +0_1_000.0 ".toList).toOption = some 1000 := by decide +kernel
example : (read "-007".toList).toOption = some (-7) := by decide +kernel
example : (read "0-7".toList).toOption = some (-7) := by decide +kernel
example : (read "3.".toList).toOption = none := by decide +kernel

end DesignRecipe.Text.Numeral
