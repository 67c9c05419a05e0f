/-!
# Byte order

Numbers of several bytes have their most significant byte first or last. Longer numbers
are joined out of pairs of shorter ones in the same order.
-/
namespace DesignRecipe.Text

inductive ByteOrder where
  | bigFirst
  | littleFirst
  deriving DecidableEq, Repr

namespace ByteOrder

/-- The number that two numbers below `base` stand for next to each other. -/
def join (order : ByteOrder) (base a b : Nat) : Nat :=
  match order with
  | .bigFirst => base * a + b
  | .littleFirst => a + base * b

/-- Joins every two numbers; none if one is left over. -/
def joinPairs? (order : ByteOrder) (base : Nat) : List Nat → Option (List Nat)
  | [] => some []
  | [_] => none
  | a :: b :: rest => (joinPairs? order base rest).map (order.join base a b :: ·)

/-- The numbers of two bytes each. -/
def words? (order : ByteOrder) (bytes : List UInt8) : Option (List Nat) :=
  order.joinPairs? 0x100 (bytes.map UInt8.toNat)

/-- The numbers of four bytes each. -/
def longWords? (order : ByteOrder) (bytes : List UInt8) : Option (List Nat) := do
  order.joinPairs? 0x10000 (← order.words? bytes)

example : words? .bigFirst [0x12, 0x34] = some [0x1234] := by decide
example : longWords? .littleFirst [0x78, 0x56, 0x34, 0x12] = some [0x12345678] := by decide
example : longWords? .bigFirst [0, 0, 0, 1, 0, 0] = none := by decide

end ByteOrder

end DesignRecipe.Text
