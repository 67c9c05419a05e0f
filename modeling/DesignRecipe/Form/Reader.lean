import DesignRecipe.Form.Basic

/-!
# Reading forms

A reader consumes one token in each step and keeps the forms of every list that is still
open. It comes to an end in one of three ways: all lists are closed when the tokens run
out, some list is still open then, or a closing bracket has no list to close.
-/
namespace DesignRecipe

inductive Reader.Status where
  | reading
  | complete
  | unclosed
  | strayCloser
  deriving DecidableEq, Repr

/-- `siblings` are the forms read so far in the innermost open list, and `enclosing` those
read in front of each open list, the innermost first. -/
structure Reader where
  rest : Text
  siblings : List Form
  enclosing : List (List Form)
  status : Reader.Status

namespace Reader

def Status.label : Status → Text
  | .reading => "IN_PROGRESS".toList
  | .complete => "DONE".toList
  | .unclosed => "FOUND_UNCLOSED".toList
  | .strayCloser => "FOUND_TRAILING".toList

def ofText (code : Text) : Reader := ⟨code, [], [], .reading⟩

/-- Consumes the nearest token. A stray closer is left in the text. -/
def step (r : Reader) : Reader :=
  match Token.nearest? r.rest with
  | none => { r with status := if r.enclosing.isEmpty then .complete else .unclosed }
  | some token =>
    let rest := r.rest.drop token.span.stop
    match token.kind with
    | .opener => { r with rest, siblings := [], enclosing := r.siblings :: r.enclosing }
    | .closer =>
      match r.enclosing with
      | [] => { r with status := .strayCloser }
      | before :: enclosing => { r with rest, siblings := before ++ [.list r.siblings], enclosing }
    | .atom kind =>
      { r with rest, siblings := r.siblings ++ [.atom kind (token.span.text r.rest)] }

/-- A reader that has come to an end can not go on. -/
structure Ended where
  status : Status
  deriving DecidableEq, Repr

def Ended.message (e : Ended) : Text :=
  "Parser can not advance past status ".toList ++ e.status.label

def advance (r : Reader) : Except Ended Reader :=
  if r.status = .reading then .ok r.step else .error ⟨r.status⟩

/-- One more than the text left while reading, and nothing at the end. -/
def fuel (r : Reader) : Nat := if r.status = .reading then r.rest.length + 1 else 0

theorem fuel_step_lt {r : Reader} (h : r.status = .reading) : r.step.fuel < r.fuel := by
  have key {token : Token} (ht : Token.nearest? r.rest = some token) :=
    Token.length_drop_stop_lt ht
  unfold step
  split
  · cases r.enclosing <;> simp [fuel, h]
  · next token ht =>
    have hlt := key ht
    split
    · simp only [fuel, h, if_true]; omega
    · split
      · simp [fuel, h]
      · simp only [fuel, h, if_true]; omega
    · simp only [fuel, h, if_true]; omega

/-- Reads on to the end. -/
def run (r : Reader) : Reader :=
  if h : r.status = .reading then
    have := fuel_step_lt h
    run r.step
  else r
termination_by r.fuel

/-- Reads a whole text. -/
def read (code : Text) : Reader := (ofText code).run

/-- The forms on top level, lists that are still open included. -/
def forms (r : Reader) : List Form :=
  r.enclosing.foldl (fun inner before => before ++ [.list inner]) r.siblings

/-- The form read last in the innermost open list. -/
def last? (r : Reader) : Option Form := r.siblings.getLast?

@[simp] theorem run_of_ended {r : Reader} (h : r.status ≠ .reading) : r.run = r := by
  rw [run, dif_neg h]

theorem run_step {r : Reader} (h : r.status = .reading) : r.step.run = r.run := by
  rw [run.eq_def r, dif_pos h]

theorem status_run_ne (r : Reader) : r.run.status ≠ .reading := by
  fun_induction run r with
  | case1 r h _ ih => exact ih
  | case2 r h => exact h

end Reader

end DesignRecipe
