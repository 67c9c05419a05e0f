import DesignRecipe.Form.Basic

/-!
# Calls

A call is a list that begins with an identifier. Calls are found depth first, a call
before the calls inside it, and a search may end early at a call that satisfies a test.
-/
namespace DesignRecipe

/-- The function called, and all forms of the list, the function's name included. -/
structure Call where
  name : Text
  items : List Form

namespace Call

/-- The call that a list with these forms is. -/
def ofItems? : List Form → Option Call
  | [] => none
  | head :: rest => head.name?.map (⟨·, head :: rest⟩)

def form (c : Call) : Form := .list c.items

/-- The forms between the brackets of a `local` form in which its definitions stand. -/
def localForms? (c : Call) : Option (List Form) :=
  if c.name = "local".toList then
    match c.items with
    | _ :: .list forms :: _ => some forms
    | _ => none
  else none

end Call

namespace Form

mutual

/-- The calls met until `stop` holds of one, which is then the last of them, and whether
it held of one. -/
def search (stop : Call → Bool) : Form → List Call × Bool
  | .atom .. => ([], false)
  | .list items =>
    match Call.ofItems? items with
    | none => searchAll stop items
    | some call =>
      if stop call then ([call], true)
      else
        let (calls, stopped) := searchAll stop items
        (call :: calls, stopped)

def searchAll (stop : Call → Bool) : List Form → List Call × Bool
  | [] => ([], false)
  | f :: items =>
    let (calls, stopped) := f.search stop
    if stopped then (calls, true)
    else
      let (more, stopped) := searchAll stop items
      (calls ++ more, stopped)

end

/-- All calls at or below a form. -/
def calls (f : Form) : List Call := (f.search fun _ => false).1

/-- The first call that satisfies a test. -/
def findCall? (p : Call → Bool) (f : Form) : Option Call :=
  let (calls, stopped) := f.search p
  if stopped then calls.getLast? else none

/-- Whether the function `name` is called at or below a form. -/
def callsFunction (name : Text) (f : Form) : Bool :=
  (f.findCall? fun call => call.name == name).isSome

end Form

end DesignRecipe
