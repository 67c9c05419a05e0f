import DesignRecipe.Text.Basic

/-!
# Usage texts

The program's name and version, and the help that it and its two commands give.
-/
namespace DesignRecipe.CommandLine

def programName : Text := "racket-lint".toList

def version : Text := "0.1.0".toList

/-- What help is about: the program as a whole or one of its commands. -/
inductive Topic where
  | program
  | check
  | serve
  deriving DecidableEq, Repr

namespace Topic

/-- The words that lead to the topic. -/
def invocation : Topic → Text
  | .program => programName
  | .check => programName ++ " check".toList
  | .serve => programName ++ " serve".toList

def synopsis : Topic → Text
  | .program => " [-h] [--version] [--verbose] \x7bcheck,serve\x7d ...".toList
  | .check => " [-h] [-i] [--min-tests MIN_TESTS] [--json] [file]".toList
  | .serve => " [-h] [--host HOST] [--port PORT]".toList

def usage (t : Topic) : Text := "usage: ".toList ++ t.invocation ++ t.synopsis ++ ['\n']

/-- The lines of help below the usage. -/
def details : Topic → List String
  | .program => [
    "",
    "Check Racket student programs against the design recipe",
    "",
    "positional arguments:",
    "  \x7bcheck,serve\x7d  Command to run",
    "    check        Lint a Racket source file",
    "    serve        Serve the linter over HTTP",
    "",
    "options:",
    "  -h, --help     show this help message and exit",
    "  --version      show program's version number and exit",
    "  --verbose, -v  Enable debug logging",
    "",
    "Examples:",
    "  racket-lint check homework.rkt",
    "  racket-lint check homework.rkt --min-tests 3",
    "  racket-lint check -i",
    "  racket-lint serve --port 8000"]
  | .check => [
    "",
    "positional arguments:",
    "  file                  File to check (prompts when omitted)",
    "",
    "options:",
    "  -h, --help            show this help message and exit",
    "  -i, --interactive     Keep prompting for files after the first one",
    "  --min-tests MIN_TESTS",
    "                        Tests required per function (default: 2, or",
    "                        $RACKET_LINT_MIN_TESTS)",
    "  --json                Print the report as JSON"]
  | .serve => [
    "",
    "options:",
    "  -h, --help   show this help message and exit",
    "  --host HOST  Interface to bind (default: 127.0.0.1)",
    "  --port PORT  Port number (default: 8000)"]

def help (t : Topic) : Text := t.usage ++ t.details.flatMap fun line => line.toList ++ ['\n']

/-- The usage and what was wrong with the command line. -/
def complaint (t : Topic) (message : Text) : Text :=
  t.usage ++ t.invocation ++ ": error: ".toList ++ message ++ ['\n']

end Topic

/-- The answer to a question for the version. -/
def versionLine : Text := programName ++ ' ' :: version ++ ['\n']

end DesignRecipe.CommandLine
