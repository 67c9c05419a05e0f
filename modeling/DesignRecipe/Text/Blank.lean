import DesignRecipe.Text.Basic

/-!
# Blanks

White space in the sense of Unicode: the characters of bidirectional class WS, B or S
and the space separators. The four information separators U+001C to U+001F belong to it.
-/
namespace DesignRecipe.Text

def isBlank (c : Char) : Bool :=
  let n := c.toNat
  (9 ≤ n && n ≤ 13) || (0x1c ≤ n && n ≤ 0x20) || n == 0x85 || n == 0xa0 || n == 0x1680 ||
    (0x2000 ≤ n && n ≤ 0x200a) || n == 0x2028 || n == 0x2029 || n == 0x202f || n == 0x205f ||
    n == 0x3000

/-- U+001C to U+001F, which separate records and units of stored data. -/
def isInformationSeparator (c : Char) : Bool :=
  0x1c ≤ c.toNat && c.toNat ≤ 0x1f

def strip : Text → Text := trim isBlank

example : isBlank '\u3000' = true ∧ isBlank '\u200b' = false := by decide

end DesignRecipe.Text
