import DesignRecipe.CommandLine.Request
import DesignRecipe.FileCheck
import DesignRecipe.Text.Blank

/-!
# Check sessions

A session checks the file of the request, and then perhaps asks for further paths until
the terminal ends or is interrupted. The path checked last is remembered, and a blank
answer stands for it. A session is the list of what happened in it; what is printed and
traced follows from that list.
-/
namespace DesignRecipe

namespace Session

inductive Exchange where
  | checked (path : Text) (result : CheckResult) (trace : Trace)
  | prompted (remembered : Option Text)
  /-- The gap after a check that was asked for at a prompt. -/
  | paused
  | leftPrompt

def Exchange.printed (asJson : Bool) : Exchange → Text
  | .checked _ result _ => result.text asJson ++ ['\n']
  | .prompted none => "Input path of file to check: ".toList
  | .prompted (some path) => "Input path of file to check [".toList ++ path ++ "]: ".toList
  | .paused => ['\n', '\n']
  | .leftPrompt => ['\n']

def Exchange.trace : Exchange → Trace
  | .checked _ _ t => t
  | _ => []

/-- A path with the null character in it can not even be asked for. -/
inductive Fault where
  | nullInPath
  deriving DecidableEq, Repr

def Fault.message : Fault → Text
  | .nullInPath => "embedded null byte".toList

/-- What is carried from prompt to prompt. -/
structure Memory where
  path : Option Text
  status : ExitStatus
  deriving DecidableEq, Repr

namespace Memory

/-- At the first prompt: the path is remembered if its file was really checked, and the
session counts as clean. -/
def afterFile (path : Text) (result : CheckResult) : Memory :=
  ⟨if result.isChecked then some path else none, .clean⟩

def fresh : Memory := ⟨none, .clean⟩

/-- The path that an answer stands for. -/
def chosen (m : Memory) (answer : Text) : Option Text :=
  let path := Text.strip answer
  if path.isEmpty then m.path else some path

def record (path : Text) (result : CheckResult) (m : Memory) : Memory :=
  ⟨if result.isChecked then some path else m.path, result.exitStatus⟩

end Memory

end Session

/-- What happened, and the exit status unless the session broke off. -/
structure Session where
  exchanges : List Session.Exchange
  outcome : Except Session.Fault ExitStatus

namespace Session

/-- Checks the file at a path that may be unfit to be asked for. -/
abbrev Checker := Text → Except Fault (CheckResult × Trace)

def preceded (before : List Exchange) (s : Session) : Session := ⟨before ++ s.exchanges, s.outcome⟩

/-- What happens at one prompt, and what is carried on. -/
def answered (check : Checker) (m : Memory) (answer : Text) : List Exchange × Except Fault Memory :=
  match m.chosen answer with
  | none => ([.prompted m.path], .ok m)
  | some path =>
    match check path with
    | .error f => ([.prompted m.path], .error f)
    | .ok (result, trace) =>
      ([.prompted m.path, .checked path result trace, .paused], .ok (m.record path result))

/-- What there is from the next moment on. -/
def later {α : Type} (moments : Nat → α) : Nat → α := fun k => moments (k + 1)

/-- Asks for paths. An answer is a line typed, or none if the terminal interrupts. Files may change
from prompt to prompt, so that each answer has a checker of its own. -/
def converse : (Nat → Checker) → Memory → List (Option Text) → Session
  | checks, m, some answer :: answers =>
    match answered (checks 0) m answer with
    | (exchanges, .error f) => ⟨exchanges, .error f⟩
    | (exchanges, .ok next) =>
      (converse (later checks) next answers).preceded exchanges
  | _, m, _ => ⟨[.prompted m.path, .leftPrompt], .ok m.status⟩

/-- The session of a request. An empty path is none. The first checker is that of the request's
file, those behind it belong to the answers. -/
def run (checks : Nat → Checker) (request : CommandLine.CheckRequest)
    (answers : List (Option Text)) : Session :=
  match request.file.filter (!·.isEmpty) with
  | none => converse (later checks) .fresh answers
  | some path =>
    match checks 0 path with
    | .error f => ⟨[], .error f⟩
    | .ok (result, trace) =>
      if request.interactive then
        (converse (later checks) (.afterFile path result) answers).preceded
          [.checked path result trace]
      else ⟨[.checked path result trace], .ok result.exitStatus⟩

/-- The checker for files as they are at some moment. -/
def checker (threshold : Nat) (contents : Contents) : Checker := fun path =>
  if path.contains '\x00' then .error .nullInPath
  else .ok (checkFile threshold path (contents path))

/-- The checkers for files as they are at one check after the other. -/
def checkers (threshold : Nat) (contents : Nat → Contents) : Nat → Checker :=
  fun k => checker threshold (contents k)

def printed (asJson : Bool) (s : Session) : Text := s.exchanges.flatMap (Exchange.printed asJson)

/-- All that was traced, the latest first. -/
def trace (s : Session) : Trace := s.exchanges.reverse.flatMap Exchange.trace

end Session

end DesignRecipe
