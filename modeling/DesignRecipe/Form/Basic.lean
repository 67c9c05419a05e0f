import DesignRecipe.Token.Race

/-!
# Forms

A program is a sequence of forms. A form is an atom, which keeps its text as written, or
a list of forms. The shape of the brackets around a list is not kept.
-/
namespace DesignRecipe

inductive Form where
  | atom (kind : AtomKind) (text : Text)
  | list (items : List Form)

instance : Inhabited Form := ⟨.list []⟩

namespace Form

mutual

/-- Lists in round brackets, their items one blank apart. -/
def render : Form → Text
  | .atom _ text => text
  | .list items => '(' :: [' '].intercalate (renderEach items) ++ [')']

def renderEach : List Form → List Text
  | [] => []
  | f :: items => f.render :: renderEach items

end

mutual

/-- The number of lists on a longest way down. -/
def depth : Form → Nat
  | .atom .. => 0
  | .list items => depthOfAll items + 1

def depthOfAll : List Form → Nat
  | [] => 0
  | f :: items => max f.depth (depthOfAll items)

end

/-- The text of an identifier. -/
def name? : Form → Option Text
  | .atom .identifier text => some text
  | _ => none

def isIdentifier (f : Form) : Bool := f.name?.isSome

def isNamed (name : Text) (f : Form) : Bool := f.name? == some name

def items? : Form → Option (List Form)
  | .list items => some items
  | .atom .. => none

def isComment : Form → Bool
  | .atom .lineComment _ => true
  | .atom .blockComment _ => true
  | _ => false

theorem renderEach_eq_map (items : List Form) : renderEach items = items.map render := by
  induction items with
  | nil => rfl
  | cons f items ih => simp [renderEach, ih]

@[simp] theorem render_atom (kind : AtomKind) (text : Text) : (atom kind text).render = text := rfl

@[simp] theorem render_list (items : List Form) :
    (list items).render = '(' :: [' '].intercalate (items.map render) ++ [')'] := by
  rw [render, renderEach_eq_map]

end Form

end DesignRecipe
