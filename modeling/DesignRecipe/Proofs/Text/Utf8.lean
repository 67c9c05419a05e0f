import DesignRecipe.Text.Utf8
import Mathlib.Tactic.SplitIfs

/-!
# Decoding what was encoded

Every text is decoded from its own encoding: behind the bytes of a character decoding goes on as if
it began there, with the character in front.
-/
namespace DesignRecipe.Text.Utf8

variable (offset : Nat) (bytes : List UInt8) {n : Nat} {b : UInt8} {p : Pending} {c : Char}

theorem toNat_ofNat (h : n < 256) : (UInt8.ofNat n).toNat = n :=
  UInt8.toNat_ofNat_of_lt' h

/-- The byte that carries six bits of a character. -/
def trailing (n : Nat) : UInt8 := UInt8.ofNat (0x80 + n % 0x40)

theorem toNat_trailing (n : Nat) : (trailing n).toNat = 0x80 + n % 0x40 :=
  toNat_ofNat (by omega)

theorem decodeFrom_single (h : lead b = some (.inl c)) :
    decodeFrom offset none (b :: bytes) =
      (decodeFrom (offset + 1) none bytes).map (c :: ·) := by
  rw [decodeFrom]
  simp only [h]

theorem decodeFrom_lead (h : lead b = some (.inr p)) :
    decodeFrom offset none (b :: bytes) = decodeFrom (offset + 1) (some p) bytes := by
  rw [decodeFrom]
  simp only [h]

/-- The last byte of a character. -/
theorem decodeFrom_last (hlow : p.low.toNat ≤ 0x80 + n % 0x40)
    (hhigh : 0x80 + n % 0x40 ≤ p.high.toNat) (howed : p.owed = 1) :
    decodeFrom offset (some p) (trailing n :: bytes) =
      (decodeFrom (offset + 1) none bytes).map (Char.ofNat (p.value * 64 + n % 0x40) :: ·) := by
  have hbounds : p.low ≤ trailing n ∧ trailing n ≤ p.high := by
    rw [UInt8.le_iff_toNat_le, UInt8.le_iff_toNat_le, toNat_trailing]
    exact ⟨hlow, hhigh⟩
  rw [decodeFrom]
  simp only [if_pos hbounds, howed, Nat.le_refl, if_true, toNat_trailing, Nat.add_sub_cancel_left]

/-- A byte inside a character. -/
theorem decodeFrom_inner (hlow : p.low.toNat ≤ 0x80 + n % 0x40)
    (hhigh : 0x80 + n % 0x40 ≤ p.high.toNat) (howed : 1 < p.owed) :
    decodeFrom offset (some p) (trailing n :: bytes) =
      decodeFrom (offset + 1)
        (some ⟨p.first, p.taken + 1, p.owed - 1, p.value * 64 + n % 0x40, 0x80, 0xbf⟩) bytes := by
  have hbounds : p.low ≤ trailing n ∧ trailing n ≤ p.high := by
    rw [UInt8.le_iff_toNat_le, UInt8.le_iff_toNat_le, toNat_trailing]
    exact ⟨hlow, hhigh⟩
  rw [decodeFrom]
  simp only [if_pos hbounds, if_neg (Nat.not_le.2 howed), toNat_trailing, Nat.add_sub_cancel_left]

/-! ### First bytes -/

theorem lead_ascii (h : n < 0x80) : lead (UInt8.ofNat n) = some (.inl (Char.ofNat n)) := by
  have hbyte : (UInt8.ofNat n).toNat = n := toNat_ofNat (by omega)
  simp only [lead, hbyte, if_pos h]

theorem lead_two (hlow : 2 ≤ n) (hhigh : n < 0x20) :
    lead (UInt8.ofNat (0xc0 + n)) =
      some (.inr ⟨UInt8.ofNat (0xc0 + n), 1, 1, n, 0x80, 0xbf⟩) := by
  have hbyte : (UInt8.ofNat (0xc0 + n)).toNat = 0xc0 + n := toNat_ofNat (by omega)
  have h₁ : ¬ 0xc0 + n < 0x80 := by omega
  have h₂ : ¬ 0xc0 + n < 0xc2 := by omega
  have h₃ : 0xc0 + n < 0xe0 := by omega
  simp only [lead, hbyte, if_neg h₁, if_neg h₂, if_pos h₃, Nat.add_sub_cancel_left]

theorem lead_three (h : n < 0x10) :
    lead (UInt8.ofNat (0xe0 + n)) =
      some (.inr ⟨UInt8.ofNat (0xe0 + n), 1, 2, n, if n = 0 then 0xa0 else 0x80,
        if n = 0xd then 0x9f else 0xbf⟩) := by
  have hbyte : (UInt8.ofNat (0xe0 + n)).toNat = 0xe0 + n := toNat_ofNat (by omega)
  have h₁ : ¬ 0xe0 + n < 0x80 := by omega
  have h₂ : ¬ 0xe0 + n < 0xc2 := by omega
  have h₃ : ¬ 0xe0 + n < 0xe0 := by omega
  have h₄ : 0xe0 + n < 0xf0 := by omega
  have hzero : 0xe0 + n = 0xe0 ↔ n = 0 := by omega
  have hsurrogate : 0xe0 + n = 0xed ↔ n = 0xd := by omega
  simp only [lead, hbyte, if_neg h₁, if_neg h₂, if_neg h₃, if_pos h₄, Nat.add_sub_cancel_left,
    hzero, hsurrogate]

theorem lead_four (h : n < 5) :
    lead (UInt8.ofNat (0xf0 + n)) =
      some (.inr ⟨UInt8.ofNat (0xf0 + n), 1, 3, n, if n = 0 then 0x90 else 0x80,
        if n = 4 then 0x8f else 0xbf⟩) := by
  have hbyte : (UInt8.ofNat (0xf0 + n)).toNat = 0xf0 + n := toNat_ofNat (by omega)
  have h₁ : ¬ 0xf0 + n < 0x80 := by omega
  have h₂ : ¬ 0xf0 + n < 0xc2 := by omega
  have h₃ : ¬ 0xf0 + n < 0xe0 := by omega
  have h₄ : ¬ 0xf0 + n < 0xf0 := by omega
  have h₅ : 0xf0 + n < 0xf5 := by omega
  have hzero : 0xf0 + n = 0xf0 ↔ n = 0 := by omega
  have hlast : 0xf0 + n = 0xf4 ↔ n = 4 := by omega
  simp only [lead, hbyte, if_neg h₁, if_neg h₂, if_neg h₃, if_neg h₄, if_pos h₅,
    Nat.add_sub_cancel_left, hzero, hlast]

/-! ### Characters and texts -/

theorem decodeFrom_two (hlow : 0x80 ≤ n) (hhigh : n < 0x800) :
    decodeFrom offset none (UInt8.ofNat (0xc0 + n / 0x40) :: trailing n :: bytes) =
      (decodeFrom (offset + 2) none bytes).map (Char.ofNat n :: ·) := by
  have hvalue : n / 0x40 * 64 + n % 0x40 = n := by omega
  rw [decodeFrom_lead _ _ (lead_two (by omega) (by omega)), decodeFrom_last _ _ _ _ rfl, hvalue]
  · change 0x80 ≤ _
    omega
  · change _ ≤ 0xbf
    omega

/-- The second byte is bounded, so that the first could not have been spared, and so that no
surrogate is encoded. -/
theorem decodeFrom_three (hlow : 0x800 ≤ n) (hhigh : n < 0x10000)
    (hscalar : n < 0xd800 ∨ 0xdfff < n) :
    decodeFrom offset none
        (UInt8.ofNat (0xe0 + n / 0x1000) :: trailing (n / 0x40) :: trailing n :: bytes) =
      (decodeFrom (offset + 3) none bytes).map (Char.ofNat n :: ·) := by
  have hvalue : (n / 0x1000 * 64 + n / 0x40 % 0x40) * 64 + n % 0x40 = n := by omega
  rw [decodeFrom_lead _ _ (lead_three (by omega)), decodeFrom_inner, decodeFrom_last _ _ _ _ rfl, hvalue]
  · change 0x80 ≤ _
    omega
  · change _ ≤ 0xbf
    omega
  · dsimp only
    split_ifs
    · change 0xa0 ≤ _
      omega
    · change 0x80 ≤ _
      omega
  · dsimp only
    split_ifs
    · change _ ≤ 0x9f
      omega
    · change _ ≤ 0xbf
      omega
  · change 1 < 2
    decide

/-- The second byte is bounded, so that the first could not have been spared, and so that nothing
above U+10FFFF is encoded. -/
theorem decodeFrom_four (hlow : 0x10000 ≤ n) (hhigh : n < 0x110000) :
    decodeFrom offset none
        (UInt8.ofNat (0xf0 + n / 0x40000) :: trailing (n / 0x1000) :: trailing (n / 0x40) ::
          trailing n :: bytes) =
      (decodeFrom (offset + 4) none bytes).map (Char.ofNat n :: ·) := by
  have hvalue : ((n / 0x40000 * 64 + n / 0x1000 % 0x40) * 64 + n / 0x40 % 0x40) * 64 +
      n % 0x40 = n := by omega
  rw [decodeFrom_lead _ _ (lead_four (by omega)), decodeFrom_inner, decodeFrom_inner,
    decodeFrom_last _ _ _ _ rfl, hvalue]
  · change 0x80 ≤ _
    omega
  · change _ ≤ 0xbf
    omega
  · change 0x80 ≤ _
    omega
  · change _ ≤ 0xbf
    omega
  · change 1 < 2
    decide
  · dsimp only
    split_ifs
    · change 0x90 ≤ _
      omega
    · change 0x80 ≤ _
      omega
  · dsimp only
    split_ifs
    · change _ ≤ 0x8f
      omega
    · change _ ≤ 0xbf
      omega
  · change 1 < 3
    decide

theorem decodeFrom_encodeChar (c : Char) :
    ∃ offset', decodeFrom offset none (encodeChar c ++ bytes) =
      (decodeFrom offset' none bytes).map (c :: ·) := by
  -- no character is a surrogate, and none lies above U+10FFFF
  have hscalar : c.toNat < 0xd800 ∨ 0xdfff < c.toNat ∧ c.toNat < 0x110000 := c.valid
  have hchar : Char.ofNat c.toNat = c := Char.ofNat_toNat c
  unfold encodeChar
  dsimp only
  split_ifs with hone htwo hthree
  · have hascii := decodeFrom_single offset bytes (lead_ascii hone)
    rw [hchar] at hascii
    exact ⟨_, hascii⟩
  · have hbytes := decodeFrom_two offset bytes (Nat.not_lt.1 hone) htwo
    rw [hchar] at hbytes
    exact ⟨_, hbytes⟩
  · have hbytes := decodeFrom_three offset bytes (Nat.not_lt.1 htwo) hthree
      (by omega)
    rw [hchar] at hbytes
    exact ⟨_, hbytes⟩
  · have hbytes := decodeFrom_four offset bytes (Nat.not_lt.1 hthree)
      (by omega)
    rw [hchar] at hbytes
    exact ⟨_, hbytes⟩

theorem decodeFrom_encode (s : Text) : decodeFrom offset none (encode s) = .ok s := by
  induction s generalizing offset with
  | nil => rfl
  | cons c s ih =>
    obtain ⟨offset', hchar⟩ := decodeFrom_encodeChar offset (encode s) c
    have hencode : encode (c :: s) = encodeChar c ++ encode s := List.flatMap_cons
    rw [hencode, hchar, ih]
    rfl

/-- A text is what its encoding is decoded to. -/
theorem decode_encode (s : Text) : decode (encode s) = .ok s := decodeFrom_encode 0 s

end DesignRecipe.Text.Utf8
