import DesignRecipe.Program

/-!
# Command line

Runs the program on the arguments of the process, with the files and the terminal of the
machine. Nothing is decided here: sessions go from prompt to prompt by `Session.answered`.
-/
namespace DesignRecipe.Main

def put (s : Text) : IO Unit := do
  let out ← IO.getStdout
  out.putStr (String.ofList s)
  out.flush

def log (t : Trace) : IO Unit := IO.eprint (String.ofList (t.reverse.flatMap Event.line))

/-- The operating system's number of an error, which may be given negated. -/
def errorNumber (code : UInt32) : UInt32 := if code < 0x80000000 then code else 0 - code

def fileFault : IO.Error → FileFault
  | .noFileOrDirectory .. => .notFound
  | .inappropriateType _ code _ => if errorNumber code = 20 then .notDirectory else .isDirectory
  | .invalidArgument _ code _ => if errorNumber code = 36 then .nameTooLong else .denied
  | _ => .denied

def contents (path : Text) : IO (Except FileFault (List UInt8)) := do
  match ← (IO.FS.readBinFile (String.ofList path)).toBaseIO with
  | .ok bytes => return .ok bytes.toList
  | .error e => return .error (fileFault e)

/-- A checker that knows the one path that is asked for next. -/
def checkerFor (threshold : Nat) (path : Text) : IO Session.Checker := do
  let bytes ← contents path
  return Session.checker threshold fun _ => bytes

def tell (verbose asJson : Bool) (exchanges : List Session.Exchange) : IO Unit := do
  for e in exchanges do
    if verbose then log e.trace
    put (e.printed asJson)

def fail (message : Text) : IO UInt32 := do
  put (Program.failure message)
  return ExitStatus.error.code.toUInt32

/-- The path that a line typed stands for, if it stands for any. -/
def typed (line : String) : Text := line.toList.takeWhile (· ≠ '\n')

partial def prompts (verbose asJson : Bool) (threshold : Nat) (m : Session.Memory) : IO UInt32 := do
  tell verbose asJson [.prompted m.path]
  let line ← (← IO.getStdin).getLine
  if line.isEmpty then
    tell verbose asJson [.leftPrompt]
    return m.status.code.toUInt32
  let check ← checkerFor threshold ((m.chosen (typed line)).getD [])
  let (exchanges, next) := Session.answered check m (typed line)
  tell verbose asJson (exchanges.drop 1)
  match next with
  | .ok next => prompts verbose asJson threshold next
  | .error f => fail f.message

def check (verbose : Bool) (request : CommandLine.CheckRequest) : IO UInt32 := do
  let setting ← IO.getEnv (String.ofList Threshold.variableName)
  match Program.threshold (setting.map String.toList) request with
  | .error f => fail f.message
  | .ok n =>
    match request.file.filter (!·.isEmpty) with
    | none => prompts verbose request.asJson n .fresh
    | some path =>
      match (← checkerFor n path) path with
      | .error f => fail f.message
      | .ok (result, trace) =>
        tell verbose request.asJson [.checked path result trace]
        if request.interactive then
          prompts verbose request.asJson n (.afterFile path result)
        else return result.exitStatus.code.toUInt32

/-- Whatever needs no file and no terminal. -/
def other (words : List Text) : IO UInt32 := do
  let run := Program.run ⟨none, fun _ _ => .error .notFound, []⟩ words
  put run.out
  IO.eprint (String.ofList run.err)
  match run.exit with
  | .finished code | .stopped code => return code.toUInt32

end DesignRecipe.Main

def main (args : List String) : IO UInt32 :=
  let words := args.map String.toList
  match DesignRecipe.CommandLine.readRequest words with
  | .ok ⟨verbose, some (.check request)⟩ => DesignRecipe.Main.check verbose request
  | _ => DesignRecipe.Main.other words
