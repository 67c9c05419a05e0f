import DesignRecipe.Recipe.Locals

/-!
# Assessments

A program is either found at fault by the reader, or reviewed.
-/
namespace DesignRecipe

/-- The two ways in which brackets do not match. -/
inductive SyntaxFault where
  | unclosed
  | strayCloser
  deriving DecidableEq, Repr

namespace SyntaxFault

def status : SyntaxFault → Reader.Status
  | .unclosed => .unclosed
  | .strayCloser => .strayCloser

def message : SyntaxFault → Text
  | .unclosed => "Syntax error in file: unmatched parenthesis or bracket".toList
  | .strayCloser => "Syntax error in file: trailing characters".toList

end SyntaxFault

/-- The mark of files that hold pictures, in a format that is not text. -/
def pictureMark : Text := "This file uses the GRacket editor format.".toList

def hasPictures (code : Text) : Bool := Text.occurs pictureMark code

/-- What the assessment of a program comes to. -/
structure Outcome where
  result : Except SyntaxFault (List Group)
  trace : Trace

/-- Reads and reviews a program with `threshold` tests required. -/
def assess (code : Text) (threshold : Nat) : Outcome :=
  let r := Reader.read code
  match r.status with
  | .complete =>
    let review := Review.ofProgram r.forms threshold
    ⟨.ok review.groups, review.trace ++ .reviewStarted r.forms.length :: r.trace⟩
  | .strayCloser => ⟨.error .strayCloser, r.trace⟩
  | _ => ⟨.error .unclosed, r.trace⟩

end DesignRecipe
