import DesignRecipe.Token.Alphabet

/-!
# Lexical rules

A rule looks at the front of a text and answers the length of the token there, if one
begins at the front. No rule answers an empty token.
-/
namespace DesignRecipe.Token.Rule

/-- A semicolon and the rest of its line. -/
def lineComment : Text → Option Nat
  | ';' :: s => some (1 + (s.takeWhile (!isLineEnd ·)).length)
  | _ => none

/-- The number of characters that close `depth + 1` open block comments; inner comments
open and close on the way. -/
def closeComments : Nat → Text → Option Nat
  | _, [] => none
  | depth, '#' :: '|' :: s => (closeComments (depth + 1) s).map (· + 2)
  | 0, '|' :: '#' :: _ => some 2
  | depth + 1, '|' :: '#' :: s => (closeComments depth s).map (· + 2)
  | depth, _ :: s => (closeComments depth s).map (· + 1)

/-- A block comment with all comments nested in it. -/
def blockComment : Text → Option Nat
  | '#' :: '|' :: s => (closeComments 0 s).map (· + 2)
  | _ => none

/-- One character of a class. -/
def single (p : Char → Bool) : Text → Option Nat
  | c :: _ => if p c then some 1 else none
  | [] => none

/-- The number of characters through the quote that closes a string. A backslash takes the
character after it along. -/
def closeString : Text → Option Nat
  | '"' :: _ => some 1
  | '\\' :: _ :: s => (closeString s).map (· + 2)
  | '\\' :: [] => none
  | _ :: s => (closeString s).map (· + 1)
  | [] => none

def string : Text → Option Nat
  | '"' :: s => (closeString s).map (· + 1)
  | _ => none

/-- The number of decimal digits at the front. -/
def digits (s : Text) : Nat := (s.takeWhile Char.isDigit).length

def signs : Text → Nat
  | '+' :: _ => 1
  | '-' :: _ => 1
  | _ => 0

/-- A point at the front and the digits after it, which may be missing. -/
def fraction : Text → Nat
  | '.' :: s => 1 + digits s
  | _ => 0

/-- Digits with an optional fraction, or a point with at least one digit. -/
def magnitude (s : Text) : Option Nat :=
  let whole := digits s
  if 0 < whole then some (whole + fraction (s.drop whole))
  else if 1 < fraction s then some (fraction s)
  else none

/-- An `e`, an optional sign and at least one digit; zero if there is no exponent. -/
def exponent : Text → Nat
  | 'e' :: s =>
    let sign := signs s
    let power := digits (s.drop sign)
    if 0 < power then 1 + sign + power else 0
  | _ => 0

def number (s : Text) : Option Nat :=
  let sign := signs s
  (magnitude (s.drop sign)).map fun n => sign + n + exponent (s.drop (sign + n))

/-- The longest run of name characters. -/
def identifier (s : Text) : Option Nat :=
  let n := (s.takeWhile isNameChar).length
  if 0 < n then some n else none

/-- An apostrophe and a name. -/
def symbol : Text → Option Nat
  | '\'' :: s => (identifier s).map (· + 1)
  | _ => none

variable {s : Text} {n : Nat}

theorem lineComment_pos (h : lineComment s = some n) : 0 < n := by
  unfold lineComment at h
  split at h <;> simp at h
  omega

theorem blockComment_pos (h : blockComment s = some n) : 0 < n := by
  unfold blockComment at h
  split at h <;> simp at h
  obtain ⟨m, -, rfl⟩ := h
  omega

theorem single_pos {p : Char → Bool} (h : single p s = some n) : 0 < n := by
  unfold single at h
  split at h <;> simp at h
  omega

theorem string_pos (h : string s = some n) : 0 < n := by
  unfold string at h
  split at h <;> simp at h
  obtain ⟨m, -, rfl⟩ := h
  omega

theorem magnitude_pos (h : magnitude s = some n) : 0 < n := by
  unfold magnitude at h
  dsimp only at h
  split at h
  · simp at h; omega
  · split at h <;> simp at h
    omega

theorem number_pos (h : number s = some n) : 0 < n := by
  simp only [number, Option.map_eq_some_iff] at h
  obtain ⟨m, hm, rfl⟩ := h
  have := magnitude_pos hm
  omega

theorem identifier_pos (h : identifier s = some n) : 0 < n := by
  unfold identifier at h
  dsimp only at h
  split at h <;> simp at h
  omega

theorem symbol_pos (h : symbol s = some n) : 0 < n := by
  unfold symbol at h
  split at h <;> simp at h
  obtain ⟨m, -, rfl⟩ := h
  omega

end DesignRecipe.Token.Rule
