import DesignRecipe.Json.Basic
import DesignRecipe.Text.Utf16

/-!
# Writing JSON

Values are laid out over lines, two blanks for each level, and in ASCII only: a character
outside the printable range is written by its code units in UTF-16.
-/
namespace DesignRecipe.Json

def escapeUnit (n : Nat) : Text := '\\' :: 'u' :: Text.hex 4 n

def escapeChar (c : Char) : Text :=
  match c with
  | '"' => ['\\', '"']
  | '\\' => ['\\', '\\']
  | '\n' => ['\\', 'n']
  | '\r' => ['\\', 'r']
  | '\t' => ['\\', 't']
  | '\x08' => ['\\', 'b']
  | '\x0c' => ['\\', 'f']
  | c => if ' ' ≤ c ∧ c ≤ '~' then [c] else (Text.Utf16.unitsOf c).flatMap escapeUnit

def writeString (s : Text) : Text := '"' :: s.flatMap escapeChar ++ ['"']

def newLine (level : Nat) : Text := '\n' :: List.replicate (2 * level) ' '

/-- Writes the parts on lines of their own, one level below the brackets. No parts leave
the brackets together. -/
def layOut (level : Nat) (opening closing : Char) (parts : List Text) : Text :=
  if parts.isEmpty then [opening, closing]
  else
    opening :: newLine (level + 1) ++ (',' :: newLine (level + 1)).intercalate parts ++
      newLine level ++ [closing]

mutual

/-- The text of a value whose first line stands at a level. -/
def writeAt (level : Nat) : Json → Text
  | .null => "null".toList
  | .bool true => "true".toList
  | .bool false => "false".toList
  | .int n => Text.ofInt n
  | .real x => x.text
  | .string s => writeString s
  | .array items => layOut level '[' ']' (writeItems (level + 1) items)
  | .object fields => layOut level '\x7b' '\x7d' (writeFields (level + 1) fields)

def writeItems (level : Nat) : List Json → List Text
  | [] => []
  | v :: items => v.writeAt level :: writeItems level items

def writeFields (level : Nat) : List (Text × Json) → List Text
  | [] => []
  | (key, v) :: fields =>
    (writeString key ++ ':' :: ' ' :: v.writeAt level) :: writeFields level fields

end

def write (v : Json) : Text := v.writeAt 0

end DesignRecipe.Json
