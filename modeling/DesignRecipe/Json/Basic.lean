import DesignRecipe.Number.Shortest
import DesignRecipe.Text.Quoted

/-!
# JSON values

Whole numbers written without point and exponent are kept as integers, all others as
binary numbers. The fields of an object stand in the order in which their keys came first.
-/
namespace DesignRecipe

inductive Json where
  | null
  | bool (b : Bool)
  | int (n : Int)
  | real (x : Binary64)
  | string (s : Text)
  | array (items : List Json)
  | object (fields : List (Text × Json))

namespace Json

/-- Gives `key` the value `v`, in its place if the key is there already. -/
def put (key : Text) (v : Json) : List (Text × Json) → List (Text × Json)
  | [] => [(key, v)]
  | (k, w) :: fields => if k = key then (k, v) :: fields else (k, w) :: put key v fields

def field? (key : Text) : Json → Option Json
  | .object fields => fields.lookup key
  | _ => none

/-- Joins the parts of a list or an object inside its brackets. -/
def enclose (opening closing : Char) (parts : List Text) : Text :=
  opening :: [',', ' '].intercalate parts ++ [closing]

mutual

/-- One line that shows a value to a reader: text is quoted, truth values and the null
value are words with a capital. -/
def display : Json → Text
  | .null => "None".toList
  | .bool true => "True".toList
  | .bool false => "False".toList
  | .int n => Text.ofInt n
  | .real x => x.text
  | .string s => Text.quoted s
  | .array items => enclose '[' ']' (displayItems items)
  | .object fields => enclose '\x7b' '\x7d' (displayFields fields)

def displayItems : List Json → List Text
  | [] => []
  | v :: items => v.display :: displayItems items

def displayFields : List (Text × Json) → List Text
  | [] => []
  | (key, v) :: fields => (Text.quoted key ++ ':' :: ' ' :: v.display) :: displayFields fields

end

end Json

end DesignRecipe
