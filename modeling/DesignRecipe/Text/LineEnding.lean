import DesignRecipe.Text.Basic

/-!
# Line endings
-/
namespace DesignRecipe.Text

/-- Writes every line end as a line feed: a carriage return with the line feed after it,
and a carriage return alone. -/
def unifyLineEnds : Text → Text
  | [] => []
  | '\r' :: '\n' :: s => '\n' :: unifyLineEnds s
  | '\r' :: s => '\n' :: unifyLineEnds s
  | c :: s => c :: unifyLineEnds s

example : unifyLineEnds "a\r\nb\rc\n\r".toList = "a\nb\nc\n\n".toList := by decide

end DesignRecipe.Text
