import DesignRecipe.CommandLine.Grammar
import DesignRecipe.CommandLine.Usage
import DesignRecipe.Recipe.Threshold

/-!
# Requests

What a command line asks the program to do. A command line that asks for help, for the
version, or for nothing that can be done ends the program before anything else happens.
-/
namespace DesignRecipe.CommandLine

/-- `file` is to be checked first; without it, or if `interactive`, paths are asked for. -/
structure CheckRequest where
  file : Option Text
  interactive : Bool
  minTests : Option (Setting Nat)
  asJson : Bool
  deriving DecidableEq, Repr

structure Endpoint where
  host : Setting Text
  port : Setting Int
  deriving DecidableEq, Repr

inductive Command where
  | check (request : CheckRequest)
  | serve (endpoint : Endpoint)
  deriving DecidableEq, Repr

structure Request where
  verbose : Bool
  command : Option Command
  deriving DecidableEq, Repr

/-- How a command line ends the program at once. -/
inductive Ending where
  | help (topic : Topic)
  | version
  | refusal (topic : Topic) (message : Text)

namespace Ending

/-- A complaint that names the argument it is about. -/
def refuseArgument (topic : Topic) (argument message : Text) : Ending :=
  .refusal topic ("argument ".toList ++ argument ++ ": ".toList ++ message)

end Ending

/-- All names of a switch as complaints give them. -/
def joinedNames (names : List Text) : Text := ['/'].intercalate names

/-- Reads the words of a topic and acts on their items in order. -/
def interpret {σ α : Type} (topic : Topic) (g : Grammar σ) (act : α → Item σ → Except Ending α)
    (start : α) (words : List Text) : Except Ending α :=
  match g.read words with
  | .error a => .error (.refusal topic a.message)
  | .ok items =>
    items.foldlM (fun state item =>
      match item with
      | .fault s f => throw (.refuseArgument topic (joinedNames (g.names s)) f.message)
      | item => act state item) start

inductive CheckSwitch where
  | help
  | interactive
  | minTests
  | json

def checkGrammar : Grammar CheckSwitch where
  switches := [.help, .interactive, .minTests, .json]
  names
    | .help => ["-h".toList, "--help".toList]
    | .interactive => ["-i".toList, "--interactive".toList]
    | .minTests => ["--min-tests".toList]
    | .json => ["--json".toList]
  takesValue
    | .minTests => true
    | _ => false
  operands := .word

/-- A request that is being put together, and the words it has no use for. -/
structure Draft (ρ : Type) where
  request : ρ
  surplus : List Text

def Draft.addSurplus {ρ : Type} (w : Text) (d : Draft ρ) : Draft ρ :=
  { d with surplus := d.surplus ++ [w] }

def actOnCheck (d : Draft CheckRequest) : Item CheckSwitch → Except Ending (Draft CheckRequest)
  | .flag .help => throw (.help .check)
  | .flag .interactive => return { d with request := { d.request with interactive := true } }
  | .flag .json => return { d with request := { d.request with asJson := true } }
  | .setting .minTests .empty => return { d with request := { d.request with minTests := some .empty } }
  | .setting .minTests (.value w) =>
    match Threshold.ofJson (.string w) with
    | .ok n => return { d with request := { d.request with minTests := some (.value n) } }
    | .error f => throw (.refuseArgument .check "--min-tests".toList f.message)
  | .operand path => return { d with request := { d.request with file := some path } }
  | .surplus w => return d.addSurplus w
  | _ => return d

def readCheck : List Text → Except Ending (Draft CheckRequest) :=
  interpret .check checkGrammar actOnCheck ⟨⟨none, false, none, false⟩, []⟩

inductive ServeSwitch where
  | help
  | host
  | port

def serveGrammar : Grammar ServeSwitch where
  switches := [.help, .host, .port]
  names
    | .help => ["-h".toList, "--help".toList]
    | .host => ["--host".toList]
    | .port => ["--port".toList]
  takesValue
    | .help => false
    | _ => true
  operands := .none

def usualEndpoint : Endpoint := ⟨.value "127.0.0.1".toList, .value 8000⟩

def actOnServe (d : Draft Endpoint) : Item ServeSwitch → Except Ending (Draft Endpoint)
  | .flag .help => throw (.help .serve)
  | .setting .host given => return { d with request := { d.request with host := given } }
  | .setting .port .empty => return { d with request := { d.request with port := .empty } }
  | .setting .port (.value w) =>
    match Text.Integer.read? w with
    | some n => return { d with request := { d.request with port := .value n } }
    | none =>
      throw (.refuseArgument .serve "--port".toList
        ("invalid int value: ".toList ++ Text.quoted w))
  | .surplus w => return d.addSurplus w
  | _ => return d

def readServe : List Text → Except Ending (Draft Endpoint) :=
  interpret .serve serveGrammar actOnServe ⟨usualEndpoint, []⟩

inductive ProgramSwitch where
  | help
  | version
  | verbose

def programGrammar : Grammar ProgramSwitch where
  switches := [.help, .version, .verbose]
  names
    | .help => ["-h".toList, "--help".toList]
    | .version => ["--version".toList]
    | .verbose => ["--verbose".toList, "-v".toList]
  takesValue _ := false
  operands := .command

def commandNames : List Text := ["check".toList, "serve".toList]

/-- Reads a command and its words. What the command has no use for is surplus. -/
def readCommand (name : Text) (words : List Text) : Except Ending (Draft Command) :=
  if name = "check".toList then do
    let d ← readCheck words
    return ⟨.check d.request, d.surplus⟩
  else if name = "serve".toList then do
    let d ← readServe words
    return ⟨.serve d.request, d.surplus⟩
  else
    throw (.refuseArgument .program "command".toList
      ("invalid choice: ".toList ++ Text.quoted name ++ " (choose from ".toList ++
        [',', ' '].intercalate (commandNames.map Text.quoted) ++ [')']))

def actOnProgram (d : Draft Request) : Item ProgramSwitch → Except Ending (Draft Request)
  | .flag .help => throw (.help .program)
  | .flag .version => throw .version
  | .flag .verbose => return { d with request := { d.request with verbose := true } }
  | .command name words => do
    let c ← readCommand name words
    return ⟨{ d.request with command := some c.request }, d.surplus ++ c.surplus⟩
  | .surplus w => return d.addSurplus w
  | _ => return d

/-- The request of a whole command line. Words that nothing has a use for are refused last. -/
def readRequest (words : List Text) : Except Ending Request := do
  let d ← interpret .program programGrammar actOnProgram ⟨⟨false, none⟩, []⟩ words
  if d.surplus.isEmpty then return d.request
  else throw (.refusal .program
    ("unrecognized arguments: ".toList ++ [' '].intercalate d.surplus))

end DesignRecipe.CommandLine
