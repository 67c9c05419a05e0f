import DesignRecipe.Proofs.Form.Calls
import DesignRecipe.Proofs.Form.Writing
import DesignRecipe.Proofs.Token.LineEnding
import DesignRecipe.Recipe.Locals

/-!
# The text of strings and block comments

Nothing that is recognized in a form depends on what stands in strings and block comments. If their
text is changed throughout, the form is still made up in the same way: it has the same name, the
same calls and `local` forms, and it is the same definition or test of forms changed likewise.
-/
namespace DesignRecipe

namespace Form

variable (change : Text → Text)

mutual

/-- Changes the text of strings and block comments. -/
def mapText : Form → Form
  | .atom kind text => .atom kind (kind.mapText change text)
  | .list items => .list (mapTextAll items)

def mapTextAll : List Form → List Form
  | [] => []
  | f :: items => f.mapText :: mapTextAll items

end

theorem mapTextAll_eq_map (items : List Form) :
    mapTextAll change items = items.map (mapText change) := by
  induction items with
  | nil => rfl
  | cons f items ih => rw [mapTextAll, ih, List.map_cons]

@[simp] theorem mapText_atom (kind : AtomKind) (text : Text) :
    (atom kind text).mapText change = .atom kind (kind.mapText change text) := rfl

@[simp] theorem mapText_list (items : List Form) :
    (list items).mapText change = .list (items.map (mapText change)) := by
  rw [mapText, mapTextAll_eq_map]

mutual

theorem write_mapText (f : Form) :
    (f.mapText change).write = f.write.map (Mark.mapText change) := by
  cases f with
  | atom kind text => rfl
  | list items =>
    have hitems := writeAll_mapText items
    simp [write, hitems, Mark.mapText]

theorem writeAll_mapText (items : List Form) :
    writeAll (items.map (mapText change)) = (writeAll items).map (Mark.mapText change) := by
  cases items with
  | nil => rfl
  | cons f items =>
    have hf := write_mapText f
    have hitems := writeAll_mapText items
    simp [writeAll, hf, hitems]

end

mutual

theorem depth_mapText (f : Form) : (f.mapText change).depth = f.depth := by
  cases f with
  | atom kind text => rfl
  | list items =>
    rw [mapText_list, depth, depth, depthOfAll_mapText items]

theorem depthOfAll_mapText (items : List Form) :
    depthOfAll (items.map (mapText change)) = depthOfAll items := by
  cases items with
  | nil => rfl
  | cons f items =>
    rw [List.map_cons, depthOfAll, depthOfAll, depth_mapText f, depthOfAll_mapText items]

end

/-! ### Recognition -/

@[simp] theorem name?_mapText (f : Form) : (f.mapText change).name? = f.name? := by
  cases f with
  | atom kind text => cases kind <;> rfl
  | list items => rw [mapText_list]; rfl

@[simp] theorem isNamed_mapText (name : Text) (f : Form) :
    (f.mapText change).isNamed name = f.isNamed name := by
  rw [isNamed, isNamed, name?_mapText]

@[simp] theorem isDefine_mapText (f : Form) : isDefine (f.mapText change) = isDefine f :=
  isNamed_mapText change _ f

@[simp] theorem isComment_mapText (f : Form) : (f.mapText change).isComment = f.isComment := by
  cases f with
  | atom kind text => cases kind <;> rfl
  | list items => rw [mapText_list]; rfl

@[simp] theorem isConstant_mapText (f : Form) : (f.mapText change).isConstant = f.isConstant := by
  rcases f with _ | (_ | ⟨head, _ | ⟨name, rest⟩⟩)
  · rfl
  · rfl
  · rw [mapText_list]; rfl
  · simp [isConstant]

mutual

theorem hasEllipsis_mapText (f : Form) : (f.mapText change).hasEllipsis = f.hasEllipsis := by
  cases f with
  | atom kind text => exact congrArg (Option.any isEllipsis) (name?_mapText change (atom kind text))
  | list items =>
    rw [mapText_list, hasEllipsis, hasEllipsis, anyEllipsis_mapText items]

theorem anyEllipsis_mapText (items : List Form) :
    anyEllipsis (items.map (mapText change)) = anyEllipsis items := by
  cases items with
  | nil => rfl
  | cons f items =>
    rw [List.map_cons, anyEllipsis, anyEllipsis, hasEllipsis_mapText f, anyEllipsis_mapText items]

end

@[simp] theorem tested?_mapText (f : Form) :
    (f.mapText change).tested? = f.tested?.map (mapText change) := by
  rcases f with _ | (_ | ⟨head, _ | ⟨actual, _ | ⟨expected, rest⟩⟩⟩)
  · rfl
  · rfl
  · rw [mapText_list]; rfl
  · rw [mapText_list]; rfl
  · simp only [mapText_list, List.map_cons, tested?, name?_mapText]
    split_ifs <;> rfl

@[simp] theorem isTest_mapText (f : Form) : (f.mapText change).isTest = f.isTest := by
  rw [isTest, isTest, tested?_mapText, Option.isSome_map]

end Form

/-- Changes the text of strings and block comments in a call. -/
def Call.mapText (change : Text → Text) (call : Call) : Call :=
  ⟨call.name, call.items.map (Form.mapText change)⟩

namespace Call

variable (change : Text → Text)

theorem ofItems?_mapText (items : List Form) :
    ofItems? (items.map (Form.mapText change)) = (ofItems? items).map (Call.mapText change) := by
  cases items with
  | nil => rfl
  | cons head rest =>
    rw [List.map_cons, ofItems?, ofItems?, Form.name?_mapText, Option.map_map]
    rfl

theorem localForms?_mapText (call : Call) :
    (call.mapText change).localForms? = call.localForms?.map (List.map (Form.mapText change)) := by
  obtain ⟨name, items⟩ := call
  unfold mapText localForms?
  dsimp only
  split_ifs
  · rcases items with _ | ⟨head, _ | ⟨_ | forms, rest⟩⟩
    · rfl
    · rfl
    · rfl
    · simp
  · rfl

end Call

namespace Form

variable (change : Text → Text)

mutual

theorem calls_mapText (f : Form) :
    (f.mapText change).calls = f.calls.map (Call.mapText change) := by
  cases f with
  | atom kind text => rfl
  | list items =>
    rw [mapText_list, calls_list, calls_list, flatMap_calls_mapText items, Call.ofItems?_mapText,
      List.map_append]
    cases Call.ofItems? items <;> rfl

theorem flatMap_calls_mapText (items : List Form) :
    (items.map (mapText change)).flatMap calls = (items.flatMap calls).map (Call.mapText change) := by
  cases items with
  | nil => rfl
  | cons f items =>
    rw [List.map_cons, List.flatMap_cons, List.flatMap_cons, calls_mapText f,
      flatMap_calls_mapText items, List.map_append]

end

@[simp] theorem callsFunction_mapText (name : Text) (f : Form) :
    (f.mapText change).callsFunction name = f.callsFunction name := by
  rw [callsFunction_eq_any, callsFunction_eq_any, calls_mapText, List.any_map]
  rfl

end Form

/-- Changes the text of strings and block comments in the body of a definition. -/
def Definition.mapText (change : Text → Text) (d : Definition) : Definition :=
  { d with body := d.body.mapText change }

namespace Definition

variable (change : Text → Text)

theorem ofForm?_list (head : Form) (header : List Form) (body : Form) :
    ofForm? (.list [head, .list header, body]) =
      if isDefine head then
        match header.mapM Form.name? with
        | some (name :: parameters) =>
          some ⟨name, parameters, (Form.list [head, .list header, body]).hasEllipsis, body⟩
        | _ => none
      else none := rfl

theorem mapM_name?_mapText (items : List Form) :
    (items.map (Form.mapText change)).mapM Form.name? = items.mapM Form.name? := by
  induction items with
  | nil => rfl
  | cons f items ih => rw [List.map_cons, List.mapM_cons, List.mapM_cons, Form.name?_mapText, ih]

theorem ofForm?_mapText (f : Form) :
    ofForm? (f.mapText change) = (ofForm? f).map (mapText change) := by
  rcases f with _ | (_ | ⟨head, _ | ⟨_ | header, _ | ⟨body, _ | _⟩⟩⟩)
  · rfl
  · rfl
  · rw [Form.mapText_list]; rfl
  · rw [Form.mapText_list]; rfl
  · rw [Form.mapText_list]; rfl
  · rw [Form.mapText_list]; rfl
  · simp [ofForm?]
  · have hellipsis := Form.hasEllipsis_mapText change (.list [head, .list header, body])
    simp only [Form.mapText_list, List.map_cons, List.map_nil] at hellipsis ⊢
    rw [ofForm?_list, ofForm?_list, hellipsis, Form.isDefine_mapText, mapM_name?_mapText]
    split_ifs
    · rcases header.mapM Form.name? with _ | _ | ⟨name, parameters⟩ <;> rfl
    · rfl
  · simp [ofForm?]

theorem localForms_mapText (d : Definition) :
    (d.mapText change).localForms = d.localForms.map (List.map (Form.mapText change)) := by
  rw [localForms, localForms, mapText, Form.calls_mapText, List.filterMap_map, List.map_filterMap]
  congr 1
  funext call
  exact Call.localForms?_mapText change call

theorem isInteractive_mapText (d : Definition) :
    (d.mapText change).isInteractive = d.isInteractive :=
  Form.callsFunction_mapText change _ d.body

end Definition

end DesignRecipe
