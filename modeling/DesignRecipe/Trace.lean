import DesignRecipe.Form.Reader

/-!
# Trace

What a run reports about its progress to those who ask for it. Traces are kept with the
latest event first.
-/
namespace DesignRecipe

inductive Event where
  | readingEnded (status : Reader.Status)
  /-- A closing bracket without a list, with the number of characters from there on. -/
  | strayCloser (left : Nat)
  | signatureFound (name : Text)
  | localsEntered (name : Text)
  | reviewStarted (count : Nat)
  | unreadable (path reason : Text)
  | warningsCounted (path : Text) (count : Nat)
  deriving DecidableEq, Repr

abbrev Trace := List Event

namespace Event

/-- The part of the program that reports the event. -/
def origin : Event → Text
  | .readingEnded _ | .strayCloser _ => "parser".toList
  | .signatureFound _ | .localsEntered _ => "linter".toList
  | .reviewStarted _ => "report".toList
  | .unreadable .. | .warningsCounted .. => "cli".toList

def message : Event → Text
  | .readingEnded status => "parser finished with ".toList ++ status.label
  | .strayCloser left =>
    "unmatched closer with ".toList ++ Text.ofNat left ++ " characters left".toList
  | .signatureFound name => "found signature for ".toList ++ name
  | .localsEntered name => "linting local definitions inside ".toList ++ name
  | .reviewStarted count => "linting ".toList ++ Text.ofNat count ++ " top-level forms".toList
  | .unreadable path reason => "could not read ".toList ++ path ++ ": ".toList ++ reason
  | .warningsCounted path count => path ++ ": ".toList ++ Text.ofNat count ++ " warning(s)".toList

/-- One line of the log. -/
def line (e : Event) : Text :=
  "DEBUG racket_lint.".toList ++ e.origin ++ ": ".toList ++ e.message ++ ['\n']

end Event

/-- What a reader reports at its end. -/
def Reader.trace (r : Reader) : Trace :=
  match r.status with
  | .reading => []
  | .strayCloser => [.strayCloser r.rest.length]
  | status => [.readingEnded status]

end DesignRecipe
