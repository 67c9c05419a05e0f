import DesignRecipe.Text.ByteOrder
import DesignRecipe.Text.Utf16
import DesignRecipe.Text.Utf8

/-!
# The encoding of JSON

JSON that arrives as bytes does not say how it is encoded. A mark in front gives its
encoding away; without a mark the null bytes do, because the first characters are ASCII.
-/
namespace DesignRecipe.Json

inductive Encoding where
  | utf8
  | utf16 (order : Text.ByteOrder)
  | utf32 (order : Text.ByteOrder)
  deriving DecidableEq, Repr

namespace Encoding

/-- The byte order marks. A longer mark stands before one that it begins with. -/
def marks : List (List UInt8 × Encoding) :=
  [([0x00, 0x00, 0xfe, 0xff], .utf32 .bigFirst), ([0xff, 0xfe, 0x00, 0x00], .utf32 .littleFirst),
    ([0xfe, 0xff], .utf16 .bigFirst), ([0xff, 0xfe], .utf16 .littleFirst),
    ([0xef, 0xbb, 0xbf], .utf8)]

/-- The encoding of bytes without a mark, by the nulls among the first four or the only two. -/
def ofNulls : List UInt8 → Encoding
  | [a, b] => if a = 0 then .utf16 .bigFirst else if b = 0 then .utf16 .littleFirst else .utf8
  | a :: b :: c :: d :: _ =>
    if a = 0 then if b = 0 then .utf32 .bigFirst else .utf16 .bigFirst
    else if b = 0 then if c = 0 ∧ d = 0 then .utf32 .littleFirst else .utf16 .littleFirst
    else .utf8
  | _ => .utf8

/-- The encoding of bytes, and the bytes behind the mark. -/
def detect (bytes : List UInt8) : Encoding × List UInt8 :=
  match marks.find? fun (mark, _) => mark.isPrefixOf bytes with
  | some (mark, encoding) => (encoding, bytes.drop mark.length)
  | none => (ofNulls bytes, bytes)

/-- The text that bytes stand for, if they stand for one. -/
def text? : Encoding → List UInt8 → Option Text
  | .utf8, bytes => (Text.Utf8.decode bytes).toOption
  | .utf16 order, bytes => (order.words? bytes).map Text.Utf16.joinUnits
  | .utf32 order, bytes => do
    let points ← order.longWords? bytes
    if points.all (· ≤ 0x10ffff) then some (points.map Text.Utf16.charOf) else none

end Encoding

/-- The text in bytes whose encoding is to be found out. -/
def decode? (bytes : List UInt8) : Option Text :=
  let (encoding, rest) := Encoding.detect bytes
  encoding.text? rest

example : decode? [0x35, 0x00] = some ['5'] := by decide +kernel
example : decode? [0x00, 0x7b, 0x00, 0x7d, 0x00] = none := by decide +kernel
example : decode? [0xef, 0xbb, 0xbf, 0x35] = some ['5'] := by decide +kernel

end DesignRecipe.Json
