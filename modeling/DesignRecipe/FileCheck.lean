import DesignRecipe.Files
import DesignRecipe.Recipe.Assessment
import DesignRecipe.Recipe.Listing
import DesignRecipe.Text.LineEnding

/-!
# Checking a file

A file is read as UTF-8 with unified line ends. A file that cannot be read, or that holds
pictures, is not checked; a file with a syntax fault is.
-/
namespace DesignRecipe

inductive ReadFault where
  | file (f : FileFault)
  | encoding (f : Text.Utf8.Fault)
  deriving DecidableEq, Repr

def ReadFault.message (path : Text) : ReadFault → Text
  | .file f => f.message path
  | .encoding f => f.message

/-- The program text in a file, if its bytes can be had. -/
def readSource (contents : Except FileFault (List UInt8)) : Except ReadFault Text :=
  match contents with
  | .error f => .error (.file f)
  | .ok bytes =>
    match Text.Utf8.decode bytes with
    | .error f => .error (.encoding f)
    | .ok s => .ok (Text.unifyLineEnds s)

inductive ExitStatus where
  | clean
  | warnings
  | error
  deriving DecidableEq, Repr

def ExitStatus.code : ExitStatus → Nat
  | .clean => 0
  | .warnings => 1
  | .error => 2

/-- What checking a file comes to. -/
inductive CheckResult where
  | notFound
  | unreadable (path reason : Text)
  | pictures
  | syntaxFault (f : SyntaxFault)
  | reviewed (groups : List Group)

namespace CheckResult

/-- Whether the file was really checked. -/
def isChecked : CheckResult → Bool
  | .syntaxFault _ | .reviewed _ => true
  | _ => false

def exitStatus : CheckResult → ExitStatus
  | .reviewed groups => if groups.isEmpty then .clean else .warnings
  | _ => .error

/-- What is printed about the file, without the line end. -/
def text (asJson : Bool) : CheckResult → Text
  | .notFound => "File not found".toList
  | .unreadable path reason => "Could not read ".toList ++ path ++ ": ".toList ++ reason
  | .pictures => "The GRacket editor format is not supported.".toList
  | .syntaxFault f => f.message
  | .reviewed groups => if asJson then Listing.json groups else Listing.text groups Listing.usualIndent

end CheckResult

/-- Checks the file at a path, whose contents have been asked for. -/
def checkFile (threshold : Nat) (path : Text) (contents : Except FileFault (List UInt8)) :
    CheckResult × Trace :=
  match readSource contents with
  | .error (.file .notFound) => (.notFound, [])
  | .error f => (.unreadable path (f.message path), [.unreadable path (f.message path)])
  | .ok code =>
    if hasPictures code then (.pictures, [])
    else
      let outcome := assess code threshold
      match outcome.result with
      | .error f => (.syntaxFault f, outcome.trace)
      | .ok groups => (.reviewed groups, .warningsCounted path (Listing.count groups) :: outcome.trace)

end DesignRecipe
