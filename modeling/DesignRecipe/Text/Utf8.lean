import DesignRecipe.Text.Basic

/-!
# UTF-8

Strict decoding: no overlong forms, no surrogates, nothing above U+10FFFF. A fault names
the bytes of the character that went wrong as far as they were in order. Encoding is the
other direction.
-/
namespace DesignRecipe.Text.Utf8

inductive Cause where
  | invalidStart
  | invalidContinuation
  | unexpectedEnd
  deriving DecidableEq, Repr

/-- Where decoding failed: the offset, first byte and number of the bytes that began the
broken character. -/
structure Fault where
  offset : Nat
  first : UInt8
  length : Nat
  cause : Cause
  deriving DecidableEq, Repr

/-- A character of which some bytes have been read. -/
structure Pending where
  first : UInt8
  taken : Nat
  owed : Nat
  value : Nat
  low : UInt8
  high : UInt8

/-- What a first byte announces: a character of its own, or a character with further
bytes, of which the next one is bounded. -/
def lead (b : UInt8) : Option (Char ⊕ Pending) :=
  let n := b.toNat
  if n < 0x80 then some (.inl (Char.ofNat n))
  else if n < 0xc2 then none
  else if n < 0xe0 then some (.inr ⟨b, 1, 1, n - 0xc0, 0x80, 0xbf⟩)
  else if n < 0xf0 then
    some (.inr ⟨b, 1, 2, n - 0xe0, if n = 0xe0 then 0xa0 else 0x80, if n = 0xed then 0x9f else 0xbf⟩)
  else if n < 0xf5 then
    some (.inr ⟨b, 1, 3, n - 0xf0, if n = 0xf0 then 0x90 else 0x80, if n = 0xf4 then 0x8f else 0xbf⟩)
  else none

/-- Decodes the bytes from `offset` on, inside the character `pending` if there is one. -/
def decodeFrom (offset : Nat) (pending : Option Pending) : List UInt8 → Except Fault Text
  | [] =>
    match pending with
    | none => .ok []
    | some p => .error ⟨offset - p.taken, p.first, p.taken, .unexpectedEnd⟩
  | b :: bytes =>
    match pending with
    | none =>
      match lead b with
      | none => .error ⟨offset, b, 1, .invalidStart⟩
      | some (.inl c) => (decodeFrom (offset + 1) none bytes).map (c :: ·)
      | some (.inr p) => decodeFrom (offset + 1) (some p) bytes
    | some p =>
      if p.low ≤ b ∧ b ≤ p.high then
        let value := p.value * 64 + (b.toNat - 0x80)
        if p.owed ≤ 1 then (decodeFrom (offset + 1) none bytes).map (Char.ofNat value :: ·)
        else decodeFrom (offset + 1) (some ⟨p.first, p.taken + 1, p.owed - 1, value, 0x80, 0xbf⟩) bytes
      else .error ⟨offset - p.taken, p.first, p.taken, .invalidContinuation⟩

def decode (bytes : List UInt8) : Except Fault Text := decodeFrom 0 none bytes

def encodeChar (c : Char) : List UInt8 :=
  let n := c.toNat
  let tail (n : Nat) : UInt8 := UInt8.ofNat (0x80 + n % 0x40)
  if n < 0x80 then [UInt8.ofNat n]
  else if n < 0x800 then [UInt8.ofNat (0xc0 + n / 0x40), tail n]
  else if n < 0x10000 then [UInt8.ofNat (0xe0 + n / 0x1000), tail (n / 0x40), tail n]
  else [UInt8.ofNat (0xf0 + n / 0x40000), tail (n / 0x1000), tail (n / 0x40), tail n]

def encode (s : Text) : List UInt8 := s.flatMap encodeChar

def Cause.message : Cause → Text
  | .invalidStart => "invalid start byte".toList
  | .invalidContinuation => "invalid continuation byte".toList
  | .unexpectedEnd => "unexpected end of data".toList

/-- Names the byte if there is one, and the span of bytes otherwise. -/
def Fault.message (f : Fault) : Text :=
  let place :=
    if f.length = 1 then
      "byte 0x".toList ++ hex 2 f.first.toNat ++ " in position ".toList ++ ofNat f.offset
    else
      "bytes in position ".toList ++ ofNat f.offset ++ '-' :: ofNat (f.offset + f.length - 1)
  "'utf-8' codec can't decode ".toList ++ place ++ ": ".toList ++ f.cause.message

example : (decode (encode "aé☃😀".toList)).toOption = some "aé☃😀".toList := by decide +kernel
example : decode [0x41, 0xe2, 0x82] = .error ⟨1, 0xe2, 2, .unexpectedEnd⟩ := rfl
example : decode [0xed, 0xa0, 0x80] = .error ⟨0, 0xed, 1, .invalidContinuation⟩ := rfl

end DesignRecipe.Text.Utf8
