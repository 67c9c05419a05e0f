import DesignRecipe.Recipe.Warning

/-!
# Designs

The design of a function starts at its signature. It has as many purpose lines as comments
follow the signature, and as many tests as stand before the next signature.
-/
namespace DesignRecipe

structure Design where
  name : Text
  purposeLines : Nat
  tests : Nat
  warnings : List Warning

namespace Design

def ofName (name : Text) : Design := ⟨name, 0, 0, []⟩

/-- The number of tests that an interactive program is taken to have. -/
def interactiveTests : Nat := 1000

def warn (ws : List Warning) (d : Design) : Design := { d with warnings := d.warnings ++ ws }

def addPurposeLines (n : Nat) (d : Design) : Design := { d with purposeLines := d.purposeLines + n }

def countTest (d : Design) : Design := { d with tests := d.tests + 1 }

def exempt (d : Design) : Design := { d with tests := interactiveTests }

/-- The complaints about a design that is complete, if `threshold` tests are required. -/
def shortcomings (threshold : Int) (d : Design) : List Complaint :=
  (if d.purposeLines < 1 then [.noPurpose] else []) ++
    if (d.tests : Int) < threshold then [.fewTests d.tests] else []

def judge (threshold : Int) (d : Design) : Design :=
  d.warn ((d.shortcomings threshold).map .ofComplaint)

end Design

/-- A heading and the warnings below it. -/
structure Group where
  title : Text
  warnings : List Text
  deriving DecidableEq, Repr

/-- A part of a program that collects warnings: what stands in front of all designs, or a
design. -/
inductive Section where
  | opening (warnings : List Warning)
  | design (d : Design)

namespace Section

def title : Section → Text
  | .opening _ => "Before first function design".toList
  | .design d => "In function design for ".toList ++ d.name

def warnings : Section → List Warning
  | .opening ws => ws
  | .design d => d.warnings

def group (s : Section) : Group := ⟨s.title, s.warnings.map Warning.text⟩

/-- The place that warnings of the section name when it belongs to a `local` form. -/
def place : Section → LocalPlace
  | .opening _ => .opening
  | .design d => .design d.name

end Section

end DesignRecipe
