import DesignRecipe.Form.Basic

/-!
# Warnings

A warning is a complaint about a design, together with the local place in which it arose
if it arose in the definitions of a `local` form. Of nested local places the outermost is
kept.
-/
namespace DesignRecipe

inductive Complaint where
  | noPurpose
  | fewTests (tests : Nat)
  /-- A function is defined that no signature announced here. -/
  | strayDefinition (name : Text)
  /-- A test stands outside of every design. -/
  | strayTest (test : Form)
  /-- A test does not call the function `name` that is being designed. -/
  | idleTest (name : Text) (test : Form)

/-- Where among local definitions: before the first signature, or in the design of a
function. -/
inductive LocalPlace where
  | opening
  | design (name : Text)
  deriving DecidableEq, Repr

structure Warning where
  place : Option LocalPlace
  complaint : Complaint

def Complaint.text : Complaint → Text
  | .noPurpose => "no purpose statement".toList
  | .fewTests tests => "only ".toList ++ Text.ofNat tests ++ " tests".toList
  | .strayDefinition name => "unexpected function definition for ".toList ++ name
  | .strayTest test => "unexpected test: ".toList ++ test.render
  | .idleTest name test => "expected test to call ".toList ++ name ++ ": ".toList ++ test.render

def LocalPlace.text : LocalPlace → Text
  | .opening => "within local: ".toList
  | .design name => "within local def of ".toList ++ name ++ ": ".toList

theorem LocalPlace.text_design (name : Text) :
    (design name).text = "within local def of ".toList ++ name ++ ": ".toList := rfl

namespace Warning

def ofComplaint (c : Complaint) : Warning := ⟨none, c⟩

/-- The warning as seen from around a `local` form. -/
def within (place : LocalPlace) (w : Warning) : Warning := ⟨some place, w.complaint⟩

def text (w : Warning) : Text :=
  match w.place with
  | none => w.complaint.text
  | some place => place.text ++ w.complaint.text

@[simp] theorem text_ofComplaint (c : Complaint) : (ofComplaint c).text = c.text := rfl

@[simp] theorem text_within (place : LocalPlace) (w : Warning) :
    (w.within place).text = place.text ++ w.complaint.text := rfl

@[simp] theorem within_within (p q : LocalPlace) (w : Warning) :
    (w.within p).within q = w.within q := rfl

end Warning

end DesignRecipe
