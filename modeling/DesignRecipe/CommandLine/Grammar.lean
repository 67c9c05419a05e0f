import DesignRecipe.Text.Digit
import DesignRecipe.Text.Quoted

/-!
# Command line grammars

A command line consists of switches, which begin with a dash, and operands. Long switches
may be shortened as long as one name is meant, and take a value after an equals sign or in
the next word; switches of one letter may be run together. Two dashes alone make all later
words operands. All words are classified before the first one is acted on.
-/
namespace DesignRecipe.CommandLine

/-- The operands that a grammar allows: none, a single word, or a command that takes all
words behind it. -/
inductive Operands where
  | none
  | word
  | command

structure Grammar (σ : Type) where
  switches : List σ
  names : σ → List Text
  takesValue : σ → Bool
  operands : Operands

inductive Reading (σ : Type) where
  | plain
  /-- Two dashes. -/
  | separator
  | switch (s : σ) (name : Text) (attached : Option Text)
  | unknown

/-- A word and what it was taken for. -/
structure Word (σ : Type) where
  text : Text
  reading : Reading σ

/-- A word that may stand for several switches. -/
structure Ambiguity where
  word : Text
  candidates : List Text

inductive SwitchFault where
  | missingValue
  | unwantedValue (given : Text)

/-- What a switch is set to. A separator attached to it is dropped like any other, and what
is left is an empty list. -/
inductive Setting (α : Type) where
  | value (a : α)
  | empty
  deriving DecidableEq, Repr

/-- What the words of a command line ask for, one after the other. -/
inductive Item (σ : Type) where
  | flag (s : σ)
  | setting (s : σ) (given : Setting Text)
  | operand (text : Text)
  | command (name : Text) (words : List Text)
  | surplus (text : Text)
  | fault (s : σ) (f : SwitchFault)

def Ambiguity.message (a : Ambiguity) : Text :=
  "ambiguous option: ".toList ++ a.word ++ " could match ".toList ++
    [',', ' '].intercalate a.candidates

def SwitchFault.message : SwitchFault → Text
  | .missingValue => "expected one argument".toList
  | .unwantedValue given => "ignored explicit argument ".toList ++ Text.quoted given

def separator : Text := ['-', '-']

namespace Setting

variable {α : Type}

def ofAttached (w : Text) : Setting Text := if w = separator then .empty else .value w

def text (spell : α → Text) : Setting α → Text
  | .value a => spell a
  | .empty => ['[', ']']

end Setting

def isLong (name : Text) : Bool := separator.isPrefixOf name

def isDecimal (s : Text) : Bool := s.all fun c => (Text.digitValue? c).isSome

/-- A dash with digits after it, perhaps with a point among them. -/
def isNegativeNumber : Text → Bool
  | '-' :: s =>
    let s := Text.chomp s
    let whole := s.takeWhile (· ≠ '.')
    match s.drop whole.length with
    | _ :: fraction => isDecimal whole && !fraction.isEmpty && isDecimal fraction
    | [] => !whole.isEmpty && isDecimal whole
  | _ => false

namespace Grammar

variable {σ : Type} (g : Grammar σ)

def allNames : List (Text × σ) := g.switches.flatMap fun s => (g.names s).map fun name => (name, s)

def find? (name : Text) : Option σ := g.allNames.lookup name

/-- The parts of a word before and after its first equals sign. -/
def splitValue (w : Text) : Text × Option Text :=
  let name := w.takeWhile (· ≠ '=')
  match w.drop name.length with
  | _ :: value => (name, some value)
  | [] => (name, none)

/-- The switches that a word may be short for. To a single letter the rest of the word is
attached. -/
def completions (w : Text) : List (σ × Text × Option Text) :=
  if isLong w then
    let (stem, value) := splitValue w
    g.allNames.filterMap fun (name, s) => if stem.isPrefixOf name then some (s, name, value) else none
  else
    g.allNames.filterMap fun (name, s) =>
      if name = w.take 2 then some (s, name, some (w.drop 2))
      else if w.isPrefixOf name then some (s, name, none)
      else none

/-- How a word in front of the separator is taken. -/
def classify (w : Text) : Except Ambiguity (Reading σ) :=
  if w.head? ≠ some '-' then .ok .plain
  else
    match g.find? w with
    | some s => .ok (.switch s w none)
    | none =>
      if w.length = 1 then .ok .plain
      else
        let (stem, value) := splitValue w
        match value, g.find? stem with
        | some v, some s => .ok (.switch s stem (some v))
        | _, _ =>
          match g.completions w with
          | [(s, name, attached)] => .ok (.switch s name attached)
          | [] => .ok (if isNegativeNumber w || w.contains ' ' then .plain else .unknown)
          | many => .error ⟨w, many.map fun (_, name, _) => name⟩

def classifyAll : List Text → Except Ambiguity (List (Word σ))
  | [] => .ok []
  | w :: rest =>
    if w = separator then .ok (⟨w, .separator⟩ :: rest.map (⟨·, .plain⟩))
    else do
      let reading ← g.classify w
      return ⟨w, reading⟩ :: (← classifyAll rest)

/-- The switches run together in one word: those before the last, the last, and the value
attached to it. -/
def expand (s : σ) (name : Text) : Text → Except (σ × SwitchFault) (List σ × σ × Option Text)
  | [] => if g.takesValue s then .ok ([], s, some []) else .error (s, .unwantedValue [])
  | c :: more =>
    if g.takesValue s then .ok ([], s, some (c :: more))
    else if isLong name then .error (s, .unwantedValue (c :: more))
    else
      match g.find? ['-', c], more with
      | none, _ => .error (s, .unwantedValue (c :: more))
      | some t, [] => .ok ([s], t, none)
      | some t, _ => do
        let (before, last, value) ← expand t ['-', c] more
        return (s :: before, last, value)

/-- The switches that one word asks for. -/
def expandWord (s : σ) (name : Text) : Option Text → Except (σ × SwitchFault) (List σ × σ × Option Text)
  | none => .ok ([], s, none)
  | some attached => g.expand s name attached

/-- Reads the items off classified words. A single operand takes the separator next to it
along. -/
def items : Operands → List (Word σ) → List (Item σ)
  | _, [] => []
  | ops, w :: rest =>
    match w.reading with
    | .unknown => .surplus w.text :: items ops rest
    | .switch s name attached =>
      match g.expandWord s name attached with
      | .error (t, f) => [.fault t f]
      | .ok (before, last, value) =>
        before.map Item.flag ++
          match value with
          | some v => .setting last (.ofAttached v) :: items ops rest
          | none =>
            if g.takesValue last then
              match rest with
              | ⟨v, .plain⟩ :: rest => .setting last (.value v) :: items ops rest
              | _ => [.fault last .missingValue]
            else .flag last :: items ops rest
    | .plain =>
      match ops with
      | .none => .surplus w.text :: items .none rest
      | .command => [.command w.text (rest.map Word.text)]
      | .word =>
        match rest with
        | ⟨_, .separator⟩ :: rest => .operand w.text :: items .none rest
        | rest => .operand w.text :: items .none rest
    | .separator =>
      match ops, rest with
      | .word, [] => []
      | .word, v :: rest => .operand v.text :: items .none rest
      | .command, _ :: _ => [.command w.text (rest.map Word.text)]
      | _, rest => .surplus w.text :: items .none rest

/-- What a command line asks for. -/
def read (words : List Text) : Except Ambiguity (List (Item σ)) :=
  (g.classifyAll words).map (g.items g.operands)

end Grammar

end DesignRecipe.CommandLine
