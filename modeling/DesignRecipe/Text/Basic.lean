/-!
# Text

A text is a list of characters, so that every position and every length counts
characters. Conversion from and to encoded strings happens at the edges only.
-/
namespace DesignRecipe

abbrev Text := List Char

namespace Text

/-- Decimal digits, most significant first. -/
def ofNat (n : Nat) : Text := Nat.toDigits 10 n

def ofInt : Int → Text
  | .ofNat n => ofNat n
  | .negSucc n => '-' :: ofNat (n + 1)

/-- At least `width` hexadecimal digits in lower case. -/
def hex (width n : Nat) : Text :=
  let digits := Nat.toDigits 16 n
  List.replicate (width - digits.length) '0' ++ digits

/-- Whether `part` occurs anywhere in the text. -/
def occurs (part : Text) : Text → Bool
  | [] => part.isEmpty
  | c :: s => part.isPrefixOf (c :: s) || occurs part s

/-- Drops one line feed at the very end. -/
def chomp : Text → Text
  | [] => []
  | ['\n'] => []
  | c :: s => c :: chomp s

/-- A whole name of `s`: not empty, all of it in the class. A single line feed after
the name is not part of it. -/
def isWordOf (p : Char → Bool) (s : Text) : Bool :=
  let word := chomp s
  !word.isEmpty && word.all p

/-- Drops the characters of a class from both ends. -/
def trim (p : Char → Bool) (s : Text) : Text :=
  ((s.dropWhile p).reverse.dropWhile p).reverse

/-- The order of dictionaries, by the code points of the characters. -/
def precedes : Text → Text → Bool
  | [], _ => true
  | _ :: _, [] => false
  | c :: s, d :: t => c.toNat < d.toNat || (c == d && precedes s t)

/-- Replaces the first occurrence of a character. -/
def replaceFirst (c : Char) (new : Text) : Text → Text
  | [] => []
  | d :: s => if d = c then new ++ s else d :: replaceFirst c new s

@[simp] theorem trim_nil (p : Char → Bool) : trim p [] = [] := rfl

end Text

end DesignRecipe
