import DesignRecipe.Text.Printable

/-!
# Quoted text

A text is quoted with single quotes, or with double quotes if it holds a single and no
double one. The quote in use and the backslash get a backslash, line ends and tabs their
letter, and other characters that do not print their code in hexadecimal.
-/
namespace DesignRecipe.Text

/-- The quote that encloses `s`. -/
def quoteFor (s : Text) : Char :=
  if s.contains '\'' && !s.contains '"' then '"' else '\''

/-- Two, four or eight digits, as few as the code needs. -/
def codeEscape (n : Nat) : Text :=
  if n ≤ 0xff then '\\' :: 'x' :: hex 2 n
  else if n ≤ 0xffff then '\\' :: 'u' :: hex 4 n
  else '\\' :: 'U' :: hex 8 n

def quotedChar (quote c : Char) : Text :=
  if c = quote || c = '\\' then ['\\', c]
  else if c = '\n' then ['\\', 'n']
  else if c = '\r' then ['\\', 'r']
  else if c = '\t' then ['\\', 't']
  else if isPrintable c then [c]
  else codeEscape c.toNat

def quoted (s : Text) : Text :=
  let quote := quoteFor s
  quote :: s.flatMap (quotedChar quote) ++ [quote]

end DesignRecipe.Text
