import DesignRecipe.Json.Writer
import DesignRecipe.Recipe.Design

/-!
# Listings

The groups of warnings of a program, listed as text or as JSON.
-/
namespace DesignRecipe

namespace Group

/-- The title, and the warnings below it, each after `indent` blanks. -/
def lines (indent : Nat) (g : Group) : List Text :=
  g.title :: g.warnings.map (List.replicate indent ' ' ++ ·)

def toJson (g : Group) : Json :=
  .object [("title".toList, .string g.title), ("warnings".toList, .array (g.warnings.map .string))]

end Group

namespace Listing

def usualIndent : Nat := 2

/-- The groups one below the other, with an empty line between them. -/
def text (groups : List Group) (indent : Nat) : Text :=
  if groups.isEmpty then "0 warnings".toList
  else ['\n', '\n'].intercalate (groups.map fun g => ['\n'].intercalate (g.lines indent))

def json (groups : List Group) : Text := (Json.array (groups.map Group.toJson)).write

def count (groups : List Group) : Nat := groups.foldr (fun g n => g.warnings.length + n) 0

end Listing

end DesignRecipe
