import DesignRecipe.Recipe.Review

/-!
# Local definitions

The definitions of every `local` form in a function's body are reviewed like a program
of their own that needs no tests. Their warnings belong to the section of the enclosing
function and name the local place. A `local` form in a local definition is met twice: in
the body of the enclosing function, and in that of the local one.
-/
namespace DesignRecipe

namespace Definition

/-- The definition lists of all `local` forms at or below the body. -/
def localForms (d : Definition) : List (List Form) := d.body.calls.filterMap Call.localForms?

end Definition

namespace Review

/-- The warnings of all sections, as seen from around the `local` form. -/
def localWarnings (r : Review) : List Warning :=
  r.sections.flatMap fun s => s.warnings.map (Warning.within s.place)

/-- What the definitions of one `local` form in the function `name` give rise to. -/
def localFindings (inspect : Inspector) (name : Text) (forms : List Form) : Findings :=
  let r := (ofForms forms 0).complete inspect
  ⟨r.localWarnings, r.trace ++ [.localsEntered name]⟩

end Review

namespace Definition

/-- One level of inspection, which leaves the definitions inside to another inspector. -/
def inspectWith (inspect : Inspector) (d : Definition) : Findings :=
  d.localForms.foldl (fun found forms => found.andThen (Review.localFindings inspect d.name forms))
    .none

/-- Inspection of `local` forms down to a level of nesting. -/
def inspectTo : Nat → Inspector
  | 0 => fun _ => .none
  | level + 1 => inspectWith (inspectTo level)

/-- Inspection of all `local` forms. They nest no deeper than the lists of the body. -/
def inspect (d : Definition) : Findings := inspectTo d.body.depth d

end Definition

namespace Review

/-- What can be asked of a review one after the other. -/
inductive Step where
  | seekSignature
  | readPurpose
  | readTests
  | judge
  | complete
  | enqueue (forms : List Form)

/-- Takes a step. The phases inside a design are refused if there is none. -/
def perform (r : Review) : Step → Except Fault Review
  | .seekSignature => .ok (r.seekSignature Definition.inspect)
  | .readPurpose => r.current.map fun _ => r.readPurpose
  | .readTests => r.current.map fun _ => r.readTests Definition.inspect
  | .judge => r.current.map fun _ => r.judge
  | .complete => .ok (r.complete Definition.inspect)
  | .enqueue forms => .ok { r with queue := r.queue ++ forms }

/-- The complete review of a program. -/
def ofProgram (forms : List Form) (threshold : Int) : Review :=
  (ofForms forms threshold).complete Definition.inspect

end Review

end DesignRecipe
