import DesignRecipe.Session

/-!
# The program

A run of the program as a function of its command line and of what surrounds it. Standard
output and the log on standard error are texts; to serve is to hand out an endpoint.
-/
namespace DesignRecipe.Program

/-- `minTests` is the environment's setting, and `answers` are typed at the terminal. The bytes of
the files are `contents 0` when the file of the command line is read, and `contents k` when it is
one that the answer with number `k` asks for. -/
structure Surroundings where
  minTests : Option Text
  contents : Nat → Contents
  answers : List (Option Text)

/-- Whether the program came to its end, or the command line ended it. -/
inductive Exit where
  | finished (code : Nat)
  | stopped (code : Nat)
  deriving DecidableEq, Repr

/-- A service that is to listen at an endpoint, and how much it logs. -/
structure Launch where
  endpoint : CommandLine.Endpoint
  logLevel : Text
  deriving DecidableEq, Repr

structure Run where
  out : Text
  err : Text
  exit : Exit
  launch : Option Launch

def Run.finish (out : Text) (log : Trace) (status : Nat) : Run :=
  ⟨out, log.reverse.flatMap Event.line, .finished status, none⟩

/-- A line about something that makes it impossible to go on. -/
def failure (message : Text) : Text := '✘' :: ' ' :: message ++ ['\n']

def conclude : CommandLine.Ending → Run
  | .help topic => ⟨topic.help, [], .stopped 0, none⟩
  | .version => ⟨CommandLine.versionLine, [], .stopped 0, none⟩
  | .refusal topic message => ⟨[], topic.complaint message, .stopped 2, none⟩

def banner (endpoint : CommandLine.Endpoint) : Text :=
  "\n─── racket-lint server ───\n  http://".toList ++ endpoint.host.text id ++
    ':' :: endpoint.port.text Text.ofInt ++ "\n  Press Ctrl+C to stop\n\n".toList

def serve (endpoint : CommandLine.Endpoint) : Run :=
  ⟨banner endpoint, [], .finished ExitStatus.clean.code, some ⟨endpoint, "warning".toList⟩⟩

/-- The number of tests required by the environment and the request together. The empty
list that a request may hold is no number. -/
def threshold (minTests : Option Text) (request : CommandLine.CheckRequest) :
    Except Threshold.Fault Nat := do
  let n ← Threshold.ofEnvironment minTests
  match request.minTests with
  | none => return n
  | some (.value m) => return m
  | some .empty => throw (.notInteger (.array []))

def check (around : Surroundings) (verbose : Bool) (request : CommandLine.CheckRequest) : Run :=
  match threshold around.minTests request with
  | .error f => .finish (failure f.message) [] ExitStatus.error.code
  | .ok n =>
    let session := Session.run (Session.checkers n around.contents) request around.answers
    let log := if verbose then session.trace else []
    let out := session.printed request.asJson
    match session.outcome with
    | .ok status => .finish out log status.code
    | .error f => .finish (out ++ failure f.message) log ExitStatus.error.code

def run (around : Surroundings) (words : List Text) : Run :=
  match CommandLine.readRequest words with
  | .error ending => conclude ending
  | .ok request =>
    match request.command with
    | none => .finish (CommandLine.Topic.help .program) [] ExitStatus.error.code
    | some (.check r) => check around request.verbose r
    | some (.serve endpoint) => serve endpoint

end DesignRecipe.Program
