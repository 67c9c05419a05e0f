import DesignRecipe.Form.Reader
import DesignRecipe.Proofs.Token.Stream

/-!
# Writing forms out

The tokens of a form in order, without the text between them. Of the forms under way in a
reader the innermost open lists are those that come last on each level; they are written
without their closing brackets.
-/
namespace DesignRecipe

namespace Form

mutual

def write : Form → List Mark
  | .atom kind text => [.atom kind text]
  | .list items => .opener :: (writeAll items ++ [.closer])

def writeAll : List Form → List Mark
  | [] => []
  | f :: items => f.write ++ writeAll items

end

/-- Writes forms out of which the last one is a list that is still open, and so on `depth`
levels down. -/
def writeOpen : (depth : Nat) → List Form → List Mark
  | 0, items => writeAll items
  | depth + 1, items =>
    match items.getLast? with
    | some (.list inner) => writeAll items.dropLast ++ .opener :: writeOpen depth inner
    | _ => writeAll items

theorem writeAll_eq_flatMap (items : List Form) : writeAll items = items.flatMap write := by
  induction items with
  | nil => rfl
  | cons f items ih => rw [writeAll, ih, List.flatMap_cons]

@[simp] theorem writeAll_append (items more : List Form) :
    writeAll (items ++ more) = writeAll items ++ writeAll more := by
  induction items with
  | nil => rfl
  | cons f items ih => simp [writeAll, ih]

@[simp] theorem writeOpen_concat_list (depth : Nat) (before inner : List Form) :
    writeOpen (depth + 1) (before ++ [.list inner]) =
      writeAll before ++ .opener :: writeOpen depth inner := by
  simp [writeOpen]

end Form

namespace Reader

open Form

/-- The forms on top level as far as they have been read. -/
def written (r : Reader) : List Mark := writeOpen r.enclosing.length r.forms

/-- The tokens in front of the innermost open list, its opening bracket included. -/
def writtenBefore (enclosing : List (List Form)) : List Mark :=
  enclosing.reverse.flatMap fun before => writeAll before ++ [.opener]

@[simp] theorem writtenBefore_cons (before : List Form) (enclosing : List (List Form)) :
    writtenBefore (before :: enclosing) =
      writtenBefore enclosing ++ (writeAll before ++ [.opener]) := by
  simp [writtenBefore]

theorem writeOpen_foldl (enclosing : List (List Form)) (depth : Nat) (items : List Form) :
    writeOpen (enclosing.length + depth)
        (enclosing.foldl (fun inner before => before ++ [.list inner]) items) =
      writtenBefore enclosing ++ writeOpen depth items := by
  induction enclosing generalizing depth items with
  | nil => simp [writtenBefore]
  | cons before enclosing ih =>
    have hlength : (before :: enclosing).length + depth = enclosing.length + (depth + 1) := by
      simp only [List.length_cons]
      omega
    rw [List.foldl_cons, hlength, ih]
    simp

/-- What has been read, seen from the innermost open list. -/
theorem written_eq (r : Reader) : r.written = writtenBefore r.enclosing ++ writeAll r.siblings :=
  writeOpen_foldl r.enclosing 0 r.siblings

end Reader

end DesignRecipe
