import DesignRecipe.Json.Basic
import DesignRecipe.Text.Integer

/-!
# The number of tests required

The number is a natural number. It may be given as any value that stands for an integer:
a truth value counts as 0 or 1, a fraction is cut off, a text is read.
-/
namespace DesignRecipe.Threshold

/-- The number required unless stated otherwise. -/
def usual : Nat := 2

inductive Fault where
  | notInteger (given : Json)
  | negative (n : Int)

def Fault.message : Fault → Text
  | .notInteger given => "minimum test count must be an integer, got ".toList ++ given.display
  | .negative n => "minimum test count must not be negative, got ".toList ++ Text.ofInt n

def integer? : Json → Option Int
  | .bool b => some (if b then 1 else 0)
  | .int n => some n
  | .real x => x.truncate?
  | .string s => Text.Integer.read? s
  | _ => none

def ofJson (v : Json) : Except Fault Nat :=
  match integer? v with
  | none => .error (.notInteger v)
  | some (.ofNat n) => .ok n
  | some n => .error (.negative n)

/-- The environment variable that sets the number. -/
def variableName : Text := "RACKET_LINT_MIN_TESTS".toList

/-- The number set by the environment. Blanks around the value are dropped, and a blank
value is as good as none. -/
def ofEnvironment (value : Option Text) : Except Fault Nat :=
  let given := Text.strip (value.getD [])
  if given.isEmpty then .ok usual else ofJson (.string given)

/-- The number given by a single request, or else `n`. -/
def override (n : Nat) : Option Json → Except Fault Nat
  | none => .ok n
  | some v => ofJson v

end DesignRecipe.Threshold
