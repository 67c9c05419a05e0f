import DesignRecipe.Json.Basic
import DesignRecipe.Text.Integer
import DesignRecipe.Text.Utf16

/-!
# Reading JSON

The text is cut into tokens, and a machine with a stack of open arrays and objects takes
one token at a time. Besides the standard's values the words `NaN`, `Infinity` and
`-Infinity` are read, and of two fields with one key the later counts.
-/
namespace DesignRecipe.Json

/-- Why a text is not read: it breaks the grammar, or it holds an integer of more than
`Text.Integer.maxDigits` digits. -/
inductive Fault where
  | malformed
  | overlong
  deriving DecidableEq, Repr

inductive Token where
  | openBrace
  | closeBrace
  | openBracket
  | closeBracket
  | comma
  | colon
  | string (s : Text)
  /-- A number or a word that stands for a value. -/
  | literal (v : Json)
  | fault (f : Fault)

namespace Token

def isSpace (c : Char) : Bool := c == ' ' || c == '\t' || c == '\n' || c == '\r'

def hexDigit? (c : Char) : Option Nat :=
  if '0' ≤ c ∧ c ≤ '9' then some (c.toNat - '0'.toNat)
  else if 'a' ≤ c ∧ c ≤ 'f' then some (c.toNat - 'a'.toNat + 10)
  else if 'A' ≤ c ∧ c ≤ 'F' then some (c.toNat - 'A'.toNat + 10)
  else none

def hexValue? (digits : List Char) : Option Nat :=
  (digits.mapM hexDigit?).map fun ds => ds.foldl (fun n d => 16 * n + d) 0

/-- The character that a single letter after a backslash stands for. -/
def escaped? : Char → Option Char
  | '"' => some '"'
  | '\\' => some '\\'
  | '/' => some '/'
  | 'b' => some '\x08'
  | 'f' => some '\x0c'
  | 'n' => some '\n'
  | 'r' => some '\r'
  | 't' => some '\t'
  | _ => none

/-- The code units between the opening and the closing quote, and the number of characters
that they and the closing quote take. -/
def units : Text → Option (List Nat × Nat)
  | [] => none
  | '"' :: _ => some ([], 1)
  | '\\' :: 'u' :: a :: b :: c :: d :: s => do
    let unit ← hexValue? [a, b, c, d]
    let (rest, n) ← units s
    return (unit :: rest, n + 6)
  | '\\' :: c :: s => do
    let unit ← escaped? c
    let (rest, n) ← units s
    return (unit.toNat :: rest, n + 2)
  | c :: s =>
    if c.toNat < 0x20 then none
    else do
      let (rest, n) ← units s
      return (c.toNat :: rest, n + 1)

def digitRun (s : Text) : Text := s.takeWhile Char.isDigit

def naturalValue (digits : Text) : Nat :=
  digits.foldl (fun n c => 10 * n + (c.toNat - '0'.toNat)) 0

/-- The digits before the point: a zero alone, or digits that do not begin with one. -/
def wholeDigits : Text → Text
  | '0' :: _ => ['0']
  | s => digitRun s

/-- The digits after a point at the front. -/
def fractionDigits : Text → Text
  | '.' :: s => digitRun s
  | _ => []

/-- The exponent at the front and the number of characters it takes. -/
def exponentPart : Text → Int × Nat
  | c :: s =>
    if c = 'e' || c = 'E' then
      let (negative, t) := Text.Integer.sign s
      let digits := digitRun t
      if digits.isEmpty then (0, 0)
      else (Text.Integer.signed negative (naturalValue digits), 1 + (s.length - t.length) + digits.length)
    else (0, 0)
  | [] => (0, 0)

/-- The number at the front of a text without sign, and the number of its characters. -/
def unsigned? (negative : Bool) (s : Text) : Option (Token × Nat) :=
  let whole := wholeDigits s
  if whole.isEmpty then none
  else
    let fraction := fractionDigits (s.drop whole.length)
    let taken := whole.length + if fraction.isEmpty then 0 else fraction.length + 1
    let (power, width) := exponentPart (s.drop taken)
    if fraction.isEmpty && width == 0 then
      if whole.length ≤ Text.Integer.maxDigits then
        some (.literal (.int (Text.Integer.signed negative (naturalValue whole))), taken)
      else some (.fault .overlong, taken)
    else
      let digits := naturalValue (whole ++ fraction)
      some (.literal (.real (.ofDecimal negative digits (power - fraction.length))), taken + width)

/-- The words that are values. -/
def words : List (Text × Json) :=
  [("true".toList, .bool true), ("false".toList, .bool false), ("null".toList, .null),
    ("NaN".toList, .real .undefined), ("Infinity".toList, .real (.infinite false)),
    ("-Infinity".toList, .real (.infinite true))]

def word? (s : Text) : Option (Token × Nat) :=
  (words.find? fun (w, _) => w.isPrefixOf s).map fun (w, v) => (.literal v, w.length)

def number? : Text → Option (Token × Nat)
  | '-' :: s => (unsigned? true s).map fun (t, n) => (t, n + 1)
  | s => unsigned? false s

/-- The token that begins with `c`, and the number of characters of `s` that belong to it. -/
def first (c : Char) (s : Text) : Token × Nat :=
  match c with
  | '\x7b' => (.openBrace, 0)
  | '\x7d' => (.closeBrace, 0)
  | '[' => (.openBracket, 0)
  | ']' => (.closeBracket, 0)
  | ',' => (.comma, 0)
  | ':' => (.colon, 0)
  | '"' =>
    match units s with
    | some (codes, n) => (.string (Text.Utf16.joinUnits codes), n)
    | none => (.fault .malformed, s.length)
  | _ =>
    match (word? (c :: s)).or (number? (c :: s)) with
    | some (t, n) => (t, n - 1)
    | none => (.fault .malformed, s.length)

/-- All tokens of a text; the first fault among them ends the reading. -/
def all (s : Text) : List Token :=
  match h : s.dropWhile isSpace with
  | [] => []
  | c :: rest =>
    have : rest.length < s.length := by
      have := (List.dropWhile_suffix (l := s) isSpace).length_le
      rw [h, List.length_cons] at this
      omega
    let (t, n) := first c rest
    t :: all (rest.drop n)
termination_by s.length
decreasing_by
  rw [List.length_drop]
  omega

end Token

/-- An array or object that is open: its parts so far, and the key whose value is awaited. -/
inductive Frame where
  | array (items : List Json)
  | object (fields : List (Text × Json)) (key : Text)

/-- What has to follow, inside the open frames, innermost first. -/
inductive State where
  | value (frames : List Frame)
  /-- An item of a new array, or its end. -/
  | item (frames : List Frame)
  /-- A key, or the end of the object if it is new. -/
  | key (fields : List (Text × Json)) (isNew : Bool) (frames : List Frame)
  | colon (fields : List (Text × Json)) (key : Text) (frames : List Frame)
  /-- What continues after a complete value. -/
  | after (v : Json) (frames : List Frame)

namespace State

def begin (frames : List Frame) : Token → Except Fault State
  | .openBracket => .ok (.item frames)
  | .openBrace => .ok (.key [] true frames)
  | .string s => .ok (.after (.string s) frames)
  | .literal v => .ok (.after v frames)
  | .fault f => .error f
  | _ => .error .malformed

def step : State → Token → Except Fault State
  | .value frames, t => begin frames t
  | .item frames, .closeBracket => .ok (.after (.array []) frames)
  | .item frames, t => begin (.array [] :: frames) t
  | .key fields _ frames, .string k => .ok (.colon fields k frames)
  | .key fields true frames, .closeBrace => .ok (.after (.object fields) frames)
  | .colon fields k frames, .colon => .ok (.value (.object fields k :: frames))
  | .after v (.array items :: frames), .comma => .ok (.value (.array (items ++ [v]) :: frames))
  | .after v (.array items :: frames), .closeBracket => .ok (.after (.array (items ++ [v])) frames)
  | .after v (.object fields k :: frames), .comma => .ok (.key (put k v fields) false frames)
  | .after v (.object fields k :: frames), .closeBrace =>
    .ok (.after (.object (put k v fields)) frames)
  | _, _ => .error .malformed

end State

/-- The value that a text stands for. -/
def read (s : Text) : Except Fault Json := do
  match ← (Token.all s).foldlM State.step (.value []) with
  | .after v [] => return v
  | _ => throw .malformed

end DesignRecipe.Json
