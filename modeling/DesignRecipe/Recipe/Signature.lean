import DesignRecipe.Trace

/-!
# Signatures

A signature is a line comment such as `; area : Number Number -> Number`. Its text is read
as one list of forms: the name, a colon, and what the function takes and gives, with one
arrow on top level. A template's signature, whose name ends in `-temp` and which has a
placeholder of question marks, does not count.
-/
namespace DesignRecipe.Signature

def colon : Text := [':']

def arrow : Text := ['-', '>']

/-- The comment without its semicolons, its first colon set apart, in brackets. -/
def bracketed (comment : Text) : Text :=
  let text := comment.dropWhile fun c => c == ';' || c == ' '
  '(' :: Text.replaceFirst ':' [' ', ':', ' '] text ++ [')']

def reading (comment : Text) : Reader := Reader.read (bracketed comment)

def isPlaceholder (f : Form) : Bool := f.name?.any (Text.isWordOf (· == '?'))

def isTemplateName (name : Text) : Bool := "-temp".toList.isSuffixOf name

/-- The function named by a list of forms, if the list is a signature. -/
def ofItems? (items : List Form) : Option Text := do
  let name :: separator :: _ := items | none
  let name ← name.name?
  if separator.isNamed colon && items.length > 3 &&
      (items.filter (·.isNamed arrow)).length == 1 &&
      !(isTemplateName name && items.any isPlaceholder) then
    some name
  else none

/-- The function named by the first form that a reader found, if it found no fault. -/
def ofReading? (r : Reader) : Option Text :=
  if r.status = .complete then
    match r.forms with
    | .list items :: _ => ofItems? items
    | _ => none
  else none

/-- Whether the comment has both marks that every signature has. -/
def isCandidate (comment : Text) : Bool := Text.occurs colon comment && Text.occurs arrow comment

/-- The function whose signature a comment is. -/
def ofComment? (comment : Text) : Option Text :=
  if isCandidate comment then ofReading? (reading comment) else none

/-- The function whose signature a form is. -/
def name? : Form → Option Text
  | .atom .lineComment comment => ofComment? comment
  | _ => none

/-- What looking for a signature in a form reports. -/
def trace : Form → Trace
  | .atom .lineComment comment => if isCandidate comment then (reading comment).trace else []
  | _ => []

end DesignRecipe.Signature
