import DesignRecipe.Form.Call

/-!
# Definitions and tests

The forms of a program that the design recipe speaks about, apart from signatures:
constants, function definitions, templates and tests.
-/
namespace DesignRecipe

def isDefine (f : Form) : Bool := f.isNamed "define".toList

def isCapital (c : Char) : Bool := ('A' ≤ c && c ≤ 'Z') || c.isDigit || c == '-'

/-- The definition of a name in capitals. -/
def Form.isConstant : Form → Bool
  | .list (head :: name :: _) => isDefine head && name.name?.any (Text.isWordOf isCapital)
  | _ => false

/-- Two to six dots, which stand for what a template leaves open. -/
def isEllipsis (name : Text) : Bool :=
  Text.isWordOf (· == '.') name && 2 ≤ (Text.chomp name).length && (Text.chomp name).length ≤ 6

mutual

/-- Whether an ellipsis stands anywhere in a form. -/
def Form.hasEllipsis : Form → Bool
  | .list items => anyEllipsis items
  | f => f.name?.any isEllipsis

def anyEllipsis : List Form → Bool
  | [] => false
  | f :: items => f.hasEllipsis || anyEllipsis items

end

/-- A function definition with a body of one form. -/
structure Definition where
  name : Text
  parameters : List Text
  isTemplate : Bool
  body : Form

/-- Recognizes `(define (name parameter …) body)`. -/
def Definition.ofForm? : Form → Option Definition
  | f@(.list [head, .list header, body]) =>
    if isDefine head then
      match header.mapM Form.name? with
      | some (name :: parameters) => some ⟨name, parameters, f.hasEllipsis, body⟩
      | _ => none
    else none
  | _ => none

/-- A function that runs an interactive program does so by a call of `big-bang`. -/
def Definition.isInteractive (d : Definition) : Bool := d.body.callsFunction "big-bang".toList

/-- The names that tests begin with. -/
def testNames : List Text :=
  ["check-expect".toList, "check-random".toList, "check-satisfied".toList, "check-within".toList,
    "check-error".toList, "check-member-of".toList, "check-range".toList]

/-- The form whose value a test checks. -/
def Form.tested? : Form → Option Form
  | .list (head :: actual :: _ :: _) => if head.name?.any testNames.contains then some actual else none
  | _ => none

def Form.isTest (f : Form) : Bool := f.tested?.isSome

end DesignRecipe
