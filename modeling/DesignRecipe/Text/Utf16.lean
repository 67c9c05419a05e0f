import DesignRecipe.Text.Basic

/-!
# UTF-16

A character is written in one code unit, or in two if its code point does not fit into 16
bits: a high surrogate and a low one. Code points come back out of units; a unit that is
too large to be one stands for itself.
-/
namespace DesignRecipe.Text.Utf16

def isHighSurrogate (n : Nat) : Bool := 0xd800 ≤ n && n < 0xdc00

def isLowSurrogate (n : Nat) : Bool := 0xdc00 ≤ n && n < 0xe000

/-- The code units of a character. -/
def unitsOf (c : Char) : List Nat :=
  let n := c.toNat
  if n < 0x10000 then [n]
  else [0xd800 + (n - 0x10000) / 0x400, 0xdc00 + (n - 0x10000) % 0x400]

/-- The character of a single code point. A surrogate has none, and is replaced. -/
def charOf (n : Nat) : Char :=
  if isHighSurrogate n || isLowSurrogate n then '\ufffd' else Char.ofNat n

/-- Joins surrogate pairs to one character. -/
def joinUnits : List Nat → Text
  | [] => []
  | [n] => [charOf n]
  | n :: m :: rest =>
    if isHighSurrogate n && isLowSurrogate m then
      Char.ofNat (0x10000 + (n - 0xd800) * 0x400 + (m - 0xdc00)) :: joinUnits rest
    else charOf n :: joinUnits (m :: rest)

example : joinUnits (unitsOf '😀' ++ unitsOf 'a') = ['😀', 'a'] := by decide +kernel
example : joinUnits [0xd83d, 0x61] = ['\ufffd', 'a'] := by decide +kernel

end DesignRecipe.Text.Utf16
