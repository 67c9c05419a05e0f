import DesignRecipe.CommandLine.Usage
import DesignRecipe.Json.Encoding
import DesignRecipe.Json.Reader
import DesignRecipe.Recipe.Threshold
import DesignRecipe.Recipe.Assessment
import DesignRecipe.Recipe.Listing
import DesignRecipe.Text.Numeral

/-!
# The service

Two routes are served: one tells that the service is well, the other lints a program. A
body for the latter is an object with the program as `source` and optionally the number of
tests required as `min_tests`. What is wrong with a body is answered as a list of problems.
-/
namespace DesignRecipe.Service

structure Request where
  method : Text
  path : Text
  body : List UInt8

/-- A kind of problem and the place in the request where it lies. -/
structure Problem where
  kind : Text
  place : Text
  deriving DecidableEq, Repr

inductive Body where
  | json (v : Json)
  | problems (ps : List Problem)

structure Response where
  status : Nat
  body : Body

def wholeBody : Text := "body".toList

def sourcePlace : Text := "body.source".toList

def testsPlace : Text := "body.min_tests".toList

/-! ## The number of tests in a body -/

/-- Integral numbers in binary form are taken below this bound only. -/
def wordBound : Int := 0x8000000000000000

/-- The integer that a value is taken for, or the kind of problem with it. -/
def integer (v : Json) : Except Text Int :=
  match v with
  | .bool b => .ok (if b then 1 else 0)
  | .int n => .ok n
  | .real x =>
    match x.truncate? with
    | none => .error "finite_number".toList
    | some n =>
      if !x.isIntegral then .error "int_from_float".toList
      else if -wordBound < n ∧ n < wordBound then .ok n
      else .error "int_parsing_size".toList
  | .string s =>
    (Text.Numeral.read s).mapError fun
      | .malformed => "int_parsing".toList
      | .overlong => "int_parsing_size".toList
  | _ => .error "int_type".toList

/-- The number of tests required, if the field is there and not null. -/
def minTests : Option Json → Except Problem (Option Nat)
  | none | some .null => .ok none
  | some v =>
    match integer v with
    | .error kind => .error ⟨kind, testsPlace⟩
    | .ok (.ofNat n) => .ok (some n)
    | .ok _ => .error ⟨"greater_than_equal".toList, testsPlace⟩

/-! ## Requests to lint -/

structure LintRequest where
  source : Text
  minTests : Option Nat

def source : Option Json → Except Problem Text
  | none => .error ⟨"missing".toList, sourcePlace⟩
  | some (.string s) => .ok s
  | some _ => .error ⟨"string_type".toList, sourcePlace⟩

/-- Problems are listed by their kind. -/
def sortProblems (ps : List Problem) : List Problem := ps.mergeSort fun p q => Text.precedes p.kind q.kind

/-- Reads both fields, so that the problems of both are found. -/
def readFields (v : Json) : Except (List Problem) LintRequest :=
  match source (v.field? "source".toList), minTests (v.field? "min_tests".toList) with
  | .ok s, .ok n => .ok ⟨s, n⟩
  | .error p, .ok _ => .error [p]
  | .ok _, .error q => .error [q]
  | .error p, .error q => .error (sortProblems [p, q])

/-! ## Responses -/

def detail (v : Json) : Json := .object [("detail".toList, v)]

def errorFields (message : Text) : List (Text × Json) := [("error".toList, .string message)]

def invalid (ps : List Problem) : Response := ⟨422, .problems ps⟩

def unparsable : Response := ⟨400, .json (detail (.string "There was an error parsing the body".toList))⟩

/-- An answer without content, which refers to another path. -/
def moved : Response := ⟨307, .json .null⟩

def notFound : Response := ⟨404, .json (detail (.string "Not Found".toList))⟩

def notAllowed : Response := ⟨405, .json (detail (.string "Method Not Allowed".toList))⟩

def healthy : Response :=
  ⟨200, .json (.object [("status".toList, .string "ok".toList),
    ("version".toList, .string CommandLine.version)])⟩

def misconfigured (f : Threshold.Fault) : Response := ⟨500, .json (detail (.object (errorFields f.message)))⟩

def faulty (f : SyntaxFault) : Response :=
  ⟨422, .json (detail (.object (errorFields f.message ++
    [("status".toList, .string f.status.label)])))⟩

def linted (groups : List Group) : Response :=
  ⟨200, .json (.object [("groups".toList, .array (groups.map Group.toJson)),
    ("count".toList, .int (Listing.count groups))])⟩

/-- The value that a body is. Bytes that are no text, and integers too long to be read, are
no problems of the body's form. -/
def readValue (body : List UInt8) : Except Response Json :=
  match (Json.decode? body).map Json.read with
  | some (.ok v) => .ok v
  | some (.error .malformed) => .error (invalid [⟨"json_invalid".toList, wholeBody⟩])
  | some (.error .overlong) | none => .error unparsable

def readBody (body : List UInt8) : Except Response LintRequest :=
  if body.isEmpty then .error (invalid [⟨"missing".toList, wholeBody⟩])
  else
    match readValue body with
    | .error response => .error response
    | .ok (.object fields) => (readFields (.object fields)).mapError invalid
    | .ok _ => .error (invalid [⟨"model_attributes_type".toList, wholeBody⟩])

/-- Lints the program of a request, with `setting` from the environment. -/
def lint (setting : Option Text) (r : LintRequest) : Response :=
  match Threshold.ofEnvironment setting with
  | .error f => misconfigured f
  | .ok n =>
    match (assess r.source (r.minTests.getD n)).result with
    | .error f => faulty f
    | .ok groups => linted groups

def answerLint (setting : Option Text) (body : List UInt8) : Response :=
  match readBody body with
  | .error response => response
  | .ok r => lint setting r

inductive Route where
  | health
  | lint
  deriving DecidableEq, Repr

def Route.path : Route → Text
  | .health => "/api/health".toList
  | .lint => "/api/lint".toList

def Route.method : Route → Text
  | .health => "GET".toList
  | .lint => "POST".toList

/-- The route of a path. A single line feed behind the path does not matter. -/
def route? (path : Text) : Option Route :=
  [.health, .lint].find? fun (r : Route) => r.path == Text.chomp path

def withoutSlashes (path : Text) : Text := (path.reverse.dropWhile (· == '/')).reverse

/-- The answer to a path that is no route. If it is one without the slashes at its end, it
has moved there. -/
def elsewhere (path : Text) : Response :=
  if (route? (withoutSlashes path)).isSome then moved else notFound

/-- Answers a request. -/
def answer (setting : Option Text) (r : Request) : Response :=
  match route? r.path with
  | none => elsewhere r.path
  | some route =>
    if r.method ≠ route.method then notAllowed
    else
      match route with
      | .health => healthy
      | .lint => answerLint setting r.body

end DesignRecipe.Service
