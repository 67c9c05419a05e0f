import DesignRecipe.Text.Blank

/-!
# The alphabet of a program

Which characters open and close lists, end lines, and make up names. Names are generous:
a character belongs to names unless it is blank or has a role of its own. The semicolon
belongs to names too, though it also starts comments.
-/
namespace DesignRecipe.Token

def isOpener (c : Char) : Bool := c == '(' || c == '['

def isCloser (c : Char) : Bool := c == ')' || c == ']'

def isLineEnd (c : Char) : Bool :=
  c == '\n' || c == '\r' || c == '\u2028' || c == '\u2029'

/-- Brackets of every shape, bar, comma, quotes of every kind and the number sign. -/
def isReserved (c : Char) : Bool :=
  ['(', ')', '[', ']', '\x7b', '\x7d', '|', ',', '\x60', '"', '\'', '#'].contains c

def isNameChar (c : Char) : Bool := !isReserved c && !Text.isBlank c

theorem isNameChar_iff {c : Char} :
    isNameChar c = true ↔ isReserved c = false ∧ Text.isBlank c = false := by
  simp [isNameChar]

example : isNameChar ';' = true ∧ isNameChar '\\' = true ∧ isNameChar '\u00a0' = false := by decide

end DesignRecipe.Token
